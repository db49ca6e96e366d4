import RpnMachine.Proofs.Run.Ample
import RpnMachine.Proofs.Run.Capacity
import RpnMachine.Proofs.Run.Roundtrip
import RpnMachine.Proofs.Run.Safety

/-! Rendering keeps to no limit of nesting. Reading and evaluation stop at 256 levels, but lines that
put a list into a list can be given one after the other, and whatever objects they leave are rendered
in full. -/
namespace RpnMachine

def Tree.wrapped : Nat → Tree
  | 0 => .composite .list []
  | n + 1 => .composite .list [wrapped n]

namespace Tree

theorem nesting_wrapped (n : Nat) : (wrapped n).nesting = n + 1 := by
  induction n with
  | zero => rfl
  | succ n ih =>
    rw [wrapped, nesting, nestingAll, nestingAll, ih]
    · omega
    · simp

theorem sound_wrapped (n : Nat) : (wrapped n).Sound := by
  induction n with
  | zero => exact sound_list (by simp)
  | succ n ih => exact sound_list (by simpa using ih)

theorem size_wrapped_le {n : Nat} (h : 11 * (n + 1) < Word.bound 8) :
    (wrapped n).size ≤ 11 * (n + 1) := by
  induction n with
  | zero =>
    have : (wrapped 0).size = 2 := by decide +kernel
    omega
  | succ n ih =>
    have hle := ih (by omega)
    have hvarint := Varint.length_encode_le_ten (n := (wrapped n).size) (by omega)
    have hbytes : (encodeAll [wrapped n]).length = (wrapped n).size := by
      rw [encodeAll_cons, encodeAll, List.append_nil, length_encode]
    rw [wrapped, size_composite, header, hbytes]
    omega

end Tree

namespace Machine

open Run

def after (passes : Nat) (m : Machine) (sources : List String) : Machine :=
  sources.foldl (fun m source => (exec (line passes source) m).2) m

/-- A pointer to an object on the stack or in the directory, and the machine that has it. -/
inductive Finds (m : Machine) : Pointer → Machine → Prop
  | level {level : Nat} {p : Pointer} {m' : Machine} (h : exec (peek level) m = (.ok p, m')) :
    Finds m p m'
  | name {name : String} {p : Pointer} {m' : Machine} (h : exec (lookup name) m = (.ok (some p), m')) :
    Finds m p m'

/-- Every way to render an object gives its whole text. Those that need memory may lack it. -/
structure Draws (m : Machine) (p : Pointer) (t : Tree) : Prop where
  render : ∀ flat, (exec (render flat p) m).1 = .ok (t.rendering flat)
  window : ∀ width flat, (exec (renderWithin width flat p) m).1 = .ok (t.window width flat)
  throughScratch : ∀ flat, (exec (renderThroughScratch flat p) m).1 = .ok (t.rendering flat) ∨
    ∃ e, (exec (renderThroughScratch flat p) m).1 = .error e ∧ e.lacksMemory
  toText : (∃ p' m', exec (toText p) m = (.ok p', m') ∧
      (exec (bytes p') m').1 = .ok (Tree.text (t.rendering false)).encode) ∨
    ∃ e, (exec (toText p) m).1 = .error e ∧ e.lacksMemory

/-- The objects of the stack are shown in full, and →STR has the whole text of the top one. -/
structure Shows (m : Machine) (ts : List Tree) : Prop where
  stackBytes : m.stackBytes = ts.map fun t => some t.encode
  showStack : ∀ settings, (exec (showStack settings) m).1 = .ok (StackView.text settings ts)
  describe : ∀ t us, ts = t :: us →
    (∃ m', exec describe m = (.ok (), m') ∧
      m'.stackBytes = (.text (t.rendering false) :: us).map fun t => some t.encode) ∨
    ∃ e, (exec Run.describe m).1 = .error e ∧ e.lacksMemory

def Limited (t : Tree) (o : Except Failure String) : Prop :=
  maxNesting < t.nesting → o = .error (.error .tooDeep)

variable {c passes : Nat} {m m' : Machine} {v : Image} {p : Pointer} {q : Place}

theorem Represents.exists_after (hm : m.Represents c v) (hs : v.Sound) (passes : Nat)
    (sources : List String) : ∃ w, (m.after passes sources).Represents c w ∧ w.Sound := by
  induction sources generalizing m v with
  | nil => exact ⟨v, hm, hs⟩
  | cons source sources ih =>
    obtain ⟨o, m', w, he, hw, hsw, -⟩ := hm.exists_exec_line hs passes source
    have hnext := ih hw hsw
    rwa [after, List.foldl_cons, he]

/-- What is found is sound. -/
theorem Represents.exists_deref_of_finds (hm : m.Represents c v) (hs : v.Sound)
    (h : m.Finds p m') : ∃ w q, m'.Represents c w ∧ w.deref p = some q ∧ q.tree.Sound := by
  cases h with
  | @level level _ _ h =>
    by_cases hl : level < v.stack.length
    · obtain ⟨m₁, he, hm₁⟩ := yields_peek hl m hm
      cases he.symm.trans h
      exact ⟨_, _, hm₁, v.deref_hold_self _, hs.stack _ (List.getElem_mem hl)⟩
    · obtain ⟨m₁, he, -⟩ := yields_peek_error level hl m hm
      cases he.symm.trans h
  | @name name _ _ h =>
    by_cases hn : name ∈ v.directory.map Entry.name
    · obtain ⟨e, hmem, rfl⟩ := List.mem_map.mp hn
      obtain ⟨before, after, hsplit⟩ := List.append_of_mem hmem
      obtain ⟨m₁, he, hm₁⟩ := yields_lookup hsplit m hm
      cases he.symm.trans h
      exact ⟨_, _, hm₁, v.deref_hold_self _, hs.directory e hmem⟩
    · obtain ⟨m₁, he, -⟩ := yields_lookup_none hn m hm
      cases he.symm.trans h

theorem Represents.draws (hm : m.Represents c v) (hp : v.deref p = some q)
    (hq : q.tree.Complete) : m.Draws p q.tree := by
  obtain ⟨kept, free, hl⟩ := hm
  have hbytes : (exec (bytes p) m).1 = .ok q.tree.encode := by rw [hl.exec_bytes hp]
  have hrender := hl.represents.exec_render hbytes hq
  refine ⟨fun flat => (hrender flat).1, fun width flat => ?_, fun flat => (hrender flat).2, ?_⟩
  · obtain ⟨o, m₁, w, he, -, hpost, -⟩ := agree_draw Window.put flat hp (.ofWidth width) m m
      hl.represents hl.represents
    have hwindow : exec (renderWithin width flat p) m = (o, m₁) := he
    rw [hwindow]
    cases o with
    | ok window => rw [hpost.1, Tree.window]
    | error e => exact absurd hq.drawable hpost.1
  · obtain ⟨o, m₁, w, he, hm₁, hpost, -⟩ := agree_toText le_rfl hp m m hl.represents hl.represents
    rw [he]
    cases o with
    | ok p' =>
      obtain ⟨rfl, rfl⟩ := hpost
      obtain ⟨kept', free', hl'⟩ := hm₁
      obtain ⟨t, ht⟩ : ∃ t, t = Tree.text (q.tree.rendering false) := ⟨_, rfl⟩
      rw [← ht] at hl' ⊢
      have hmade : (v.make t).deref ⟨v.slots.length⟩ = some (.whole (v.newest t)) :=
        (v.add t).deref_hold_self _
      refine .inl ⟨_, m₁, rfl, ?_⟩
      rw [hl'.exec_bytes hmade]
      rfl
    | error e => exact .inr ⟨e, rfl, hpost.1.resolve_right fun h => h.1 hq.drawable⟩

theorem Represents.shows (hm : m.Represents c v) (hs : v.Sound) :
    m.Shows (v.stack.map Place.tree) := by
  refine ⟨hm.stackBytes_eq_trees, fun settings => ?_, fun t us hts => ?_⟩
  · obtain ⟨m', he, -⟩ := yields_showStack hs settings m hm
    rw [he]
  · obtain ⟨q, qs, hstack, rfl, rfl⟩ := List.map_eq_cons_iff.mp hts
    have hn : 0 < v.stack.length := by simp [hstack]
    obtain ⟨o, m', w, he, hm', hpost, -⟩ := agree_describe le_rfl hn m m hm hm
    have htop : v.stack[0] = q := by simp [hstack]
    rw [he]
    cases o with
    | ok a =>
      obtain ⟨r, hr, hreplaces⟩ := hpost
      have hcontent := congrArg Content.stack hreplaces.content
      refine .inl ⟨m', rfl, ?_⟩
      have hw : w.stack = r :: qs := by simpa [Image.content, hstack] using hcontent
      rw [hm'.stackBytes_eq_trees, hw, List.map_cons, hr, htop]
    | error e =>
      have hdrawable := (hs.stack _ (List.getElem_mem hn)).complete.drawable
      exact .inr ⟨e, rfl, hpost.2.resolve_right fun h => h.1 hdrawable⟩

/-! Objects nested as deep as one likes. -/

/-- Lines that leave a list in a list, and so on. -/
def wrapping (n : Nat) : List String := "0 →LIST" :: List.replicate n "1 →LIST"

/-- A line makes a list of what is on the stack, if that is one object at most. -/
theorem Represents.exists_gathered {source : String} {stack : List Place} {count l : Tree} {s : Nat}
    (hm : m.Represents c v) (hv : v.content = ⟨⟨[], [], false, 0⟩, stack, []⟩)
    (hsource : Gathers source stack.length count) (hstack : stack.length ≤ 1)
    (hprogram : (Tree.composite .program [count, .command .toList]).size ≤ 5)
    (hl : l = .composite .list (stack.reverse.map Place.tree)) (hs : ∀ q ∈ stack, q.item.size ≤ s)
    (hlist : l.size ≤ s + 11) (hroom : 3 * s + 64 ≤ c) (passes : Nat) :
    ∃ w, ∃ i : Item, (exec (line passes source) m).2.Represents c w ∧ i.tree = l ∧
      w.content = ⟨⟨[], [], false, 0⟩, [.whole i], []⟩ := by
  have hcontent := hv
  injection hcontent with hsetting hplaces hdirectory
  injection hsetting with hslots hscratch hinterrupted hnesting
  subst hplaces
  have hweight : v.weight ≤ s + Heap.slotSize := by
    have hsum : (v.stack.map (·.item.size)).sum ≤ s := by
      refine (List.sum_le_card_nsmul _ s (by simpa using hs)).trans ?_
      rw [List.length_map, smul_eq_mul]
      exact (Nat.mul_le_mul_right s hstack).trans_eq (Nat.one_mul s)
    have hmul : Heap.slotSize * v.stack.length ≤ Heap.slotSize * 1 := Nat.mul_le_mul_left _ hstack
    simp only [Image.weight, Image.places, Image.permanent, hslots, hscratch, hdirectory,
      List.flatMap_nil, Item.bytes_nil, List.filterMap_nil, List.append_nil, List.length_nil]
    omega
  have hlevels : (v.stack.length + 1) * (s + (Tree.composite .program
      [count, .command .toList]).size) ≤ 2 * (s + 5) :=
    Nat.mul_le_mul (by omega) (by omega)
  have hslot : Heap.slotSize = 4 := rfl
  rw [← v.stack.take_length] at hl
  obtain ⟨w, i, hline, hi, hw⟩ := exists_yields_line (c := c) hsource hnesting hinterrupted rfl le_rfl
    hl hs (by omega) (by omega) passes
  obtain ⟨m', he, hm'⟩ := hline m hm
  rw [he]
  refine ⟨w, i, hm', hi, ?_⟩
  rw [hw, hv, List.drop_length]

/-- The lines leave nothing but the list. -/
theorem exists_represents_wrapped {n : Nat} (hc : 33 * n + 128 ≤ c)
    (hcapacity : c < Word.bound Heap.slotSize) (passes : Nat) :
    ∃ w, ∃ i : Item, ((ofCapacity c).after passes (wrapping n)).Represents c w ∧
      i.tree = .wrapped n ∧ w.content = ⟨⟨[], [], false, 0⟩, [.whole i], []⟩ := by
  induction n with
  | zero =>
    have hlist : (Tree.wrapped 0).size = 2 := by decide +kernel
    exact (represents_ofCapacity hcapacity).exists_gathered (s := 0) rfl gathers_none (Nat.zero_le _)
      (by decide +kernel) rfl (by simp [Image.empty]) (hlist.trans_le (by decide)) (by omega) passes
  | succ n ih =>
    obtain ⟨v, i, hm, hi, hv⟩ := ih (by omega)
    have hbound : Word.bound Heap.slotSize < Word.bound 8 := by decide
    have hsize : i.size ≤ 11 * (n + 1) := by
      rw [Item.size, hi]
      exact Tree.size_wrapped_le (by omega)
    have hafter : (ofCapacity c).after passes (wrapping (n + 1)) =
        (exec (line passes "1 →LIST") ((ofCapacity c).after passes (wrapping n))).2 := by
      rw [wrapping, List.replicate_succ', ← List.cons_append, after, List.foldl_append]
      rfl
    rw [hafter]
    apply hm.exists_gathered (s := 11 * (n + 1)) hv gathers_one le_rfl (by decide +kernel) _ _
      (Tree.size_wrapped_le (n := n + 1) (by omega)) (by omega)
    · simp [Tree.wrapped, Place.whole, hi]
    · simpa [Place.whole] using hsize

/-- As deep as memory allows, what lines put into one another is found on the stack and rendered. -/
theorem exists_finds_wrapped {n : Nat} (hc : 33 * n + 128 ≤ c)
    (hcapacity : c < Word.bound Heap.slotSize) (passes : Nat) :
    ∃ p m', ((ofCapacity c).after passes (wrapping n)).Finds p m' ∧
      (exec (bytes p) m').1 = .ok (Tree.wrapped n).encode ∧ m'.Draws p (.wrapped n) := by
  obtain ⟨w, i, hm, hi, hw⟩ := exists_represents_wrapped hc hcapacity passes
  have hstack : w.stack = [.whole i] := congrArg Content.stack hw
  have hpos : 0 < w.stack.length := by simp [hstack]
  have htop : w.stack[0].tree = .wrapped n := by simpa [hstack, Place.whole] using hi
  obtain ⟨m', he, hm'⟩ := yields_peek hpos _ hm
  have hderef := w.deref_hold_self w.stack[0]
  have hdraws := hm'.draws hderef (htop ▸ (Tree.sound_wrapped n).complete)
  obtain ⟨kept, free, hl⟩ := hm'
  refine ⟨_, m', .level he, ?_, htop ▸ hdraws⟩
  rw [hl.exec_bytes hderef, htop]

/-- Whatever lines a new machine is given, all objects on its stack and in its directory are rendered
in full, so the limit of nesting is kept for just those that are not nested deeper. -/
theorem renders_at_any_depth (hc : c < Word.bound Heap.slotSize) (passes : Nat)
    (sources : List String) :
    (∃ ts, ((ofCapacity c).after passes sources).Shows ts) ∧
      ∀ p m', ((ofCapacity c).after passes sources).Finds p m' →
        ∃ t : Tree, (exec (bytes p) m').1 = .ok t.encode ∧ m'.Draws p t ∧
          ∀ flat, Limited t (exec (render flat p) m').1 ↔ t.nesting ≤ maxNesting := by
  obtain ⟨v, hm, hs⟩ := (represents_ofCapacity hc).exists_after Image.sound_empty passes sources
  refine ⟨⟨_, hm.shows hs⟩, fun p m' hfinds => ?_⟩
  obtain ⟨w, q, hm', hp, hq⟩ := hm.exists_deref_of_finds hs hfinds
  have hdraws := hm'.draws hp hq.complete
  refine ⟨q.tree, ?_, hdraws, fun flat => ?_⟩
  · obtain ⟨kept, free, hl⟩ := hm'
    rw [hl.exec_bytes hp]
  · rw [Limited, hdraws.render flat]
    simp

/-- Three lines put lists into one another, and the outermost one is found. -/
theorem renders_wrapped : ∃ p t m', ((ofCapacity 256).after 1 (wrapping 2)).Finds p m' ∧
    t.encode = (Tree.wrapped 2).encode ∧ m'.Draws p t := by
  obtain ⟨p, m', hfinds, hbytes, -⟩ :=
    exists_finds_wrapped (c := 256) (n := 2) (by decide) (by decide) 1
  obtain ⟨t, ht, hdraws, -⟩ := (renders_at_any_depth (by decide) 1 (wrapping 2)).2 p m' hfinds
  exact ⟨p, t, m', hfinds, Except.ok.inj (ht.symm.trans hbytes), hdraws⟩

/-- An object with one level more than the limit allows is rendered all the same. -/
theorem draws_beyond_maxNesting : maxNesting < (Tree.wrapped 256).nesting ∧
    ∃ p m', ((ofCapacity 65536).after manyPasses (wrapping 256)).Finds p m' ∧
      (exec (bytes p) m').1 = .ok (Tree.wrapped 256).encode ∧
      ∀ flat, ¬Limited (.wrapped 256) (exec (render flat p) m').1 := by
  have hdeep : maxNesting < (Tree.wrapped 256).nesting := by
    rw [Tree.nesting_wrapped]
    decide
  obtain ⟨p, m', hfinds, hbytes, hdraws⟩ :=
    exists_finds_wrapped (c := 65536) (n := 256) (by decide) (by decide) manyPasses
  refine ⟨hdeep, p, m', hfinds, hbytes, fun flat hlimited => ?_⟩
  have htooDeep := hlimited hdeep
  rw [hdraws.render flat] at htooDeep
  cases htooDeep

end Machine
end RpnMachine
