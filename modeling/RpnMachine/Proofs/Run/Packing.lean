import RpnMachine.Proofs.Object.Decoding
import RpnMachine.Proofs.Run.Rollback

/-! →LIST and LIST→ undo each other. What one of them takes apart or puts together, the other brings back
byte by byte at every level of the stack, wherever it was moved in the meantime. -/
namespace RpnMachine

namespace Tree

theorem length_le_length_encodeAll (ts : List Tree) : ts.length ≤ (encodeAll ts).length := by
  induction ts with
  | nil => exact Nat.zero_le _
  | cons t ts ih =>
    have hpos := t.size_pos
    rw [encodeAll_cons, List.length_append, length_encode, List.length_cons]
    omega

/-- A count of children fits in an integer. -/
theorem Fits.length_children_lt {t : Tree} (h : t.Fits) : t.children.length < Word.bound 8 := by
  cases t with
  | composite c ts =>
    have hle := length_le_length_encodeAll ts
    have hsize := size_composite c ts
    rw [Fits] at h
    rw [children]
    omega
  | _ => exact Nat.zero_lt_of_lt h

def count (n : Nat) : Tree := integer false n.toUInt64

theorem value_count {n : Nat} (h : n < Word.bound 8) : (count n).value = .integer n := by
  rw [count, value, if_neg (by decide)]
  exact congrArg (fun k : Nat => Value.integer k) (UInt64.toNat_ofNat_of_lt' h)

/-- An object with the value of a count has its bytes too, since no zero has a sign in its bytes. -/
theorem encode_eq_count {t : Tree} {n : Nat} (h : t.value = .integer n) :
    t.encode = (count n).encode := by
  have hn : n < Word.bound 8 := by
    have hnumber : Number.ofValue? t.value = some (.integer n) := by rw [h]; rfl
    simpa [Number.IsWord] using Number.isWord_of_value hnumber
  have hvalue : t.value = (count n).value := h.trans (value_count hn).symm
  have hatom : ∀ c, (count n).kind ≠ .composite c := by
    intro c hc
    have hcount := eq_composite_of_kind hc
    cases hcount
  rw [← encode_canonical t, canonical_eq_of_value_eq hvalue hatom, encode_canonical]

end Tree

namespace Image

variable {v : Image} {q count : Place} {n : Nat}

theorem exists_of_top? {a : Value} (h : v.top? = some a) :
    ∃ hn : 0 < v.stack.length, v.stack[0].tree.value = a := by
  rw [top?, List.head?_eq_getElem?] at h
  obtain ⟨r, hr, rfl⟩ := Option.map_eq_some_iff.mp h
  obtain ⟨hn, rfl⟩ := List.getElem?_eq_some_iff.mp hr
  exact ⟨hn, rfl⟩

/-- The elements of a list that was made of `n` levels are those levels again, above them their count. -/
theorem map_encode_unpack (htop : v.top? = some (.integer n))
    (hq : q.tree = .composite .list (v.below n)) (hn : n + 1 ≤ v.stack.length)
    (hcount : count.tree = .count q.tree.children.length) :
    (count :: q.children.reverse ++ v.stack.drop (n + 1)).map (fun r => r.tree.encode) =
      v.stack.map fun r => r.tree.encode := by
  obtain ⟨hpos, hvalue⟩ := exists_of_top? htop
  have hlength : (v.below n).length = n := by
    rw [below, List.length_map, List.length_reverse, List.length_take, List.length_drop]
    omega
  have hcount' : count.tree.encode = v.stack[0].tree.encode := by
    rw [hcount, hq, Tree.children, hlength, Tree.encode_eq_count hvalue]
  have helements : q.children.reverse.map Place.tree = ((v.stack.drop 1).take n).map Place.tree := by
    rw [List.map_reverse, Place.map_tree_children, hq, Tree.children, below, ← List.map_reverse,
      List.reverse_reverse]
  have hencode : q.children.reverse.map (fun r => r.tree.encode) =
      ((v.stack.drop 1).take n).map fun r => r.tree.encode := by
    have := congrArg (List.map Tree.encode) helements
    rwa [List.map_map, List.map_map] at this
  have hstack : v.stack = v.stack[0] :: ((v.stack.drop 1).take n ++ v.stack.drop (n + 1)) := by
    rw [Nat.add_comm n 1, ← List.drop_drop, List.take_append_drop, List.getElem_cons_drop]
    rfl
  conv_rhs => rw [hstack]
  rw [List.cons_append, List.map_cons, List.map_cons, List.map_append, List.map_append, hencode, hcount']

/-- Below their count, the elements of a list are as many levels as it says, and the list of these levels
is the list that there was. -/
theorem below_unpacked {rest : List Place} (hq : q.tree.kind = .composite .list)
    (hcount : count.tree = .count q.tree.children.length) (hfits : q.tree.Fits)
    (hstack : v.stack = count :: q.children.reverse ++ rest) (htop : v.top? = some (.integer n)) :
    Tree.composite .list (v.below n) = q.tree ∧ v.stack.drop (n + 1) = rest := by
  have hlength : q.children.reverse.length = n := by
    have hvalue : v.top? = some (.integer q.tree.children.length) := by
      rw [top?, hstack, List.cons_append, List.head?_cons, Option.map_some, hcount,
        Tree.value_count hfits.length_children_lt]
    rw [hvalue, Option.some_inj, Value.integer.injEq, Nat.cast_inj] at htop
    rw [List.length_reverse, Place.length_children, htop]
  constructor
  · rw [below, hstack, List.cons_append, List.drop_one, List.tail_cons, List.take_left' hlength,
      List.reverse_reverse, Place.map_tree_children, ← Tree.eq_composite_of_kind hq]
  · rw [hstack, ← hlength]
    exact List.drop_left' (by rw [List.length_cons])

end Image

/-- The command that brings back what another one changed. -/
inductive Command.Undoes : Command → Command → Prop
  | fromList : Undoes .fromList .toList
  | toList : Undoes .toList .fromList

namespace Machine

open Run

variable {m m' m₁ m₂ m₃ : Machine} {c passes : Nat} {v w : Image}

/-- Collections change nothing but where things lie. -/
theorem Acts.represents_of_collect {n : Nat} (h : Acts m (List.replicate n .collect) m')
    (hm : m.Represents c v) : m'.Represents c v := by
  induction n generalizing m with
  | zero =>
    cases h
    exact hm
  | succ n ih =>
    rw [List.replicate_succ] at h
    cases h with
    | cons _ h =>
      have hcollect : Agree c c v _ _ _ _ := agree_collect
      obtain ⟨o, m₁, w, he, hm', hpost, -⟩ := hcollect m m hm hm
      cases o with
      | ok u =>
        subst hpost
        refine ih h ?_
        rw [act, Action.perform, he]
        exact hm'
      | error e => exact hpost.elim

theorem Represents.after_toList (hm : m.Represents c v)
    (h : exec (command passes (.command .toList)) m = (.ok (), m')) :
    ∃ (w : Image) (n : Nat) (q : Place), m'.Represents c w ∧ v.top? = some (.integer n) ∧
      n + 1 ≤ v.stack.length ∧
      q.tree = .composite .list (v.below n) ∧ w.stack = q :: v.stack.drop (n + 1) := by
  obtain ⟨execute, hrun⟩ := exists_exec_run h
  obtain ⟨o, m₁, w, hexec, hm', hpost, -⟩ := agree_toList le_rfl m m hm hm
  have hrun : exec toList m = (.ok (), m') := hrun
  cases hrun.symm.trans hexec
  obtain ⟨n, q, htop, hq, hreplaces⟩ := hpost
  exact ⟨w, n, q, hm', htop, hreplaces.le, hq, congrArg Content.stack hreplaces.content⟩

theorem Represents.after_fromList (hm : m.Represents c v)
    (h : exec (command passes (.command .fromList)) m = (.ok (), m')) :
    ∃ w q rest count, m'.Represents c w ∧ v.stack = q :: rest ∧ q.tree.kind = .composite .list ∧
      q.tree.Fits ∧ count.tree = .count q.tree.children.length ∧
      w.stack = count :: q.children.reverse ++ rest := by
  obtain ⟨execute, hrun⟩ := exists_exec_run h
  obtain ⟨o, m₁, w, hexec, hm', hpost, -⟩ := exchanges_fromList le_rfl m m hm hm
  have hrun : exec fromList m = (.ok (), m') := hrun
  cases hrun.symm.trans hexec
  obtain ⟨_, ⟨hn, count, hkind, hcount, rfl⟩, hreplaces⟩ := hpost
  obtain ⟨kept, free, hl⟩ := hm
  have hmem : v.stack[0] ∈ v.places := List.mem_append_left _ (List.getElem_mem hn)
  exact ⟨w, v.stack[0], v.stack.drop 1, count, hm', (List.getElem_cons_drop hn).symm, hkind,
    hl.fits hmem, hcount, congrArg Content.stack hreplaces.content⟩

/-- After LIST→ and →LIST, or →LIST and LIST→, the objects on the stack are those that were there before,
byte by byte, however often memory was collected in between. -/
theorem stackBytes_of_undoes (hc : c < Word.bound Heap.slotSize) {actions : List Action}
    (h : Acts (ofCapacity c) actions m) {k k' : Command} (hundoes : k'.Undoes k)
    (hfirst : exec (command passes (.command k)) m = (.ok (), m₁)) {collections : Nat}
    (hbetween : Acts m₁ (List.replicate collections .collect) m₂)
    (hsecond : exec (command passes (.command k')) m₂ = (.ok (), m₃)) :
    ∃ objects : List (List UInt8),
      m.stackBytes = objects.map some ∧ m₃.stackBytes = objects.map some := by
  obtain ⟨v, hm, -⟩ := h.exists_represents (represents_ofCapacity hc)
  have hbytes : ∀ {m v}, Represents m c v →
      m.stackBytes = (v.stack.map fun q => q.tree.encode).map some := by
    intro m v hm
    rw [hm.stackBytes_eq, List.map_map]
    rfl
  -- It is enough that the objects on the stack have the same bytes in both images.
  suffices hsame : ∃ u, m₃.Represents c u ∧
      (u.stack.map fun q => q.tree.encode) = v.stack.map fun q => q.tree.encode by
    obtain ⟨u, hm₃, hsame⟩ := hsame
    exact ⟨_, hbytes hm, by rw [hbytes hm₃, hsame]⟩
  cases hundoes with
  | fromList =>
    obtain ⟨w, n, q, hm₁, htop, hn, hq, hw⟩ := hm.after_toList hfirst
    have hm₂ := hbetween.represents_of_collect hm₁
    obtain ⟨u, q', rest, count, hm₃, hw', -, -, hcount, hu⟩ := hm₂.after_fromList hsecond
    obtain ⟨rfl, rfl⟩ : q = q' ∧ v.stack.drop (n + 1) = rest := List.cons_eq_cons.mp (hw.symm.trans hw')
    exact ⟨u, hm₃, by rw [hu, Image.map_encode_unpack htop hq hn hcount]⟩
  | toList =>
    obtain ⟨w, q, rest, count, hm₁, hv, hkind, hfits, hcount, hw⟩ := hm.after_fromList hfirst
    have hm₂ := hbetween.represents_of_collect hm₁
    obtain ⟨u, n, q', hm₃, htop, hn, hq', hu⟩ := hm₂.after_toList hsecond
    obtain ⟨hlist, hrest⟩ := Image.below_unpacked hkind hcount hfits hw htop
    exact ⟨u, hm₃, by rw [hu, hv, hrest, List.map_cons, List.map_cons, hq', hlist]⟩

/-- A list of a text and an empty list, above a number and what is no longer needed. -/
def assorted : List Action :=
  [.make (Tree.integer false 1).recipe, .make (Tree.integer true 6).recipe, .push ⟨1⟩,
    .make (Tree.composite .list [.text "a", .composite .list []]).recipe, .push ⟨2⟩, .release ⟨2⟩,
    .release ⟨1⟩, .release ⟨0⟩]

theorem acts_assorted : ∃ m, Acts (ofCapacity 48) assorted m ∧
    (exec (command 1 (.command .fromList)) m).1 = .ok () ∧
    (exec toList (exec (command 1 (.command .fromList)) m).2).1 = .ok () :=
  ⟨_, .cons ⟨by decide, .integer false 1, Tree.encode_eq _⟩ <|
    .cons ⟨by decide, .integer true 6, Tree.encode_eq _⟩ <| .cons ⟨by decide +kernel, trivial⟩ <|
    .cons ⟨by decide, _, Tree.encode_eq _⟩ <| .cons ⟨by decide +kernel, trivial⟩ <|
    .cons ⟨by decide +kernel, trivial⟩ <| .cons ⟨by decide +kernel, trivial⟩ <|
    .cons ⟨by decide +kernel, trivial⟩ <| .nil _, by decide +kernel, by decide +kernel⟩

/-- The collection in between moves the list while the stack refers to its elements only. -/
theorem stackBytes_assorted : ∃ m m₁ m₃, Acts (ofCapacity 48) assorted m ∧
    exec (command 1 (.command .fromList)) m = (.ok (), m₁) ∧
    exec (command 1 (.command .toList)) (m₁.act .collect) = (.ok (), m₃) ∧
    ∃ objects : List (List UInt8),
      m.stackBytes = objects.map some ∧ m₃.stackBytes = objects.map some := by
  obtain ⟨m, hm, hfirst, hsecond⟩ := acts_assorted
  obtain ⟨m₁, hm₁⟩ : ∃ m₁, m₁ = (exec (command 1 (.command .fromList)) m).2 := ⟨_, rfl⟩
  rw [← hm₁] at hsecond
  have hfirst : exec (command 1 (.command .fromList)) m = (.ok (), m₁) := Prod.ext hfirst hm₁.symm
  have hbetween : Acts m₁ (List.replicate 1 .collect) (m₁.act .collect) :=
    .cons ⟨fun _ hp => (nomatch hp), trivial⟩ (.nil _)
  -- What the list is made of is the same in both machines, so it is made in both.
  obtain ⟨v, hv, -⟩ := hm.exists_represents (represents_ofCapacity (by decide))
  obtain ⟨w, q, rest, count, hw, -⟩ := hv.after_fromList hfirst
  have htwin : Agree 48 48 w toList toList _ _ := agree_toList le_rfl
  obtain ⟨o, m', _, he, -, -, hagree⟩ :=
    htwin m₁ (m₁.act .collect) hw (hbetween.represents_of_collect hw)
  rw [he] at hsecond
  obtain ⟨m₃, hpack, -⟩ := hagree (fun e ho => by rw [ho] at hsecond; cases hsecond)
  have hpack : exec (command 1 (.command .toList)) (m₁.act .collect) = (.ok (), m₃) := by
    rw [← hsecond]
    exact hpack
  exact ⟨m, m₁, m₃, hm, hfirst, hpack,
    stackBytes_of_undoes (by decide) hm .toList hfirst hbetween hpack⟩

end Machine
end RpnMachine
