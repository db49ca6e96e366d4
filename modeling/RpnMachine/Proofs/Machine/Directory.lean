import RpnMachine.Proofs.Machine.Naming

/-! The directory: names are found, removed and stored in the image, wherever their objects lie. -/
namespace RpnMachine

namespace Machine

def refersTo (m : Machine) (b : Binding) : Bool :=
  m.roots.any (Collection.inside (b.start, b.size))

/-- The bytes that have to be free before a binding of `total` bytes replaces an old one. -/
def replacementSize (m : Machine) (total : Nat) : Option Binding → Nat
  | none => total
  | some b => if m.refersTo b then max total b.size else total - b.size

end Machine

namespace Machine.Lays

variable {m : Machine} {c : Nat} {v : Image} {kept : List Item} {free : List UInt8}
  {before after : List Entry} {e : Entry}

theorem directory_eq (h : m.Lays c v kept free) :
    m.heap.directory = ⟨Entry.bindings 0 v.directory, true⟩ := by
  have hp : m.heap.permanent = Item.bytes v.permanent := h.arranged.parts.permanent_eq
  rw [Heap.directory, hp]
  refine Entry.ofBytes_flatMap (fun e he => (h.valid.labelled e he).1) (fun e he i hi => ?_) 0
  exact h.arranged.fits_of_mem (List.mem_append_left _ (List.mem_flatMap.mpr ⟨e, he, hi⟩))

theorem directory?_eq (h : m.Lays c v kept free) :
    m.heap.directory? = some ⟨Entry.bindings 0 v.directory, true⟩ := by
  rw [Heap.directory?, h.arranged.parts.slice?_permanent, ← h.arranged.parts.permanent_eq,
    ← h.directory_eq]
  rfl

theorem exec_findBinding_none (h : m.Lays c v kept free) {name : String}
    (hn : name ∉ v.directory.map Entry.name) :
    Run.exec (Run.findBinding name) m = (.ok none, m) := by
  refine Run.exec_readHeap_some ?_
  rw [Heap.binding?, h.directory?_eq]
  simp only [Option.bind_eq_bind, Option.bind_some]
  rw [Directory.find?, Entry.find?_bindings_eq_none hn]
  rfl

theorem exec_findBinding (h : m.Lays c v kept free) (hs : v.directory = before ++ e :: after) :
    Run.exec (Run.findBinding e.name) m =
      (.ok (some (e.binding (Item.bytes (before.flatMap Entry.items)).length)), m) := by
  have hfind := Entry.find?_bindings (h.valid.not_mem hs).1 after 0
  rw [Nat.zero_add] at hfind
  refine Run.exec_readHeap_some ?_
  rw [Heap.binding?, h.directory?_eq]
  simp only [Option.bind_eq_bind, Option.bind_some]
  rw [Directory.find?, hs, hfind]

theorem exec_lookup_none (h : m.Lays c v kept free) {name : String}
    (hn : name ∉ v.directory.map Entry.name) :
    Run.exec (Run.lookup name) m = (.ok none, m) := by
  rw [Run.lookup, Run.exec_bind_ok (h.exec_findBinding_none hn)]
  rfl

theorem exec_lookup (h : m.Lays c v kept free) (hs : v.directory = before ++ e :: after) :
    ∃ m', Run.exec (Run.lookup e.name) m = (.ok (some ⟨v.slots.length⟩), m') ∧
      m'.Lays c (v.hold (.whole e.object)) kept free := by
  have hperm := Image.permanent_eq hs
  have hmem : e.object ∈ v.permanent ++ kept := by simp [hperm, Entry.items]
  obtain ⟨m', he, h'⟩ := h.exec_register (q := .whole e.object) hmem
  have hpos : (Place.whole e.object).position (v.permanent ++ kept) =
      (e.binding (Item.bytes (before.flatMap Entry.items)).length).object := by
    have hd : Item.Distinct ((before.flatMap Entry.items ++ [e.label]) ++
        (e.object :: (after.flatMap Entry.items ++ kept))) := by
      have := h.arranged.distinct
      simpa [Arrangement.items, Image.arrangement, hperm, Entry.items] using this
    have hsplit : v.permanent ++ kept = (before.flatMap Entry.items ++ [e.label]) ++
        (e.object :: (after.flatMap Entry.items ++ kept)) := by
      simp [hperm, Entry.items]
    rw [hsplit, Place.position_append_right hd (by simp [Place.whole])]
    simp [Place.position, Place.whole, Item.start, Entry.binding, Item.size]
  rw [hpos] at he
  refine ⟨m', ?_, h'⟩
  rw [Run.lookup, Run.exec_bind_ok (h.exec_findBinding hs)]
  exact (Run.exec_bind_ok he _).trans rfl

theorem exec_names (h : m.Lays c v kept free) :
    Run.exec Run.names m = (.ok (v.directory.map Entry.name), m) := by
  have hnames : (Entry.bindings 0 v.directory).map (fun b => (Text.ofUtf8? b.name).getD "") =
      v.directory.map Entry.name := by
    have := congrArg (List.map fun n => (Text.ofUtf8? n).getD "")
      (Entry.map_name_bindings 0 v.directory)
    rw [List.map_map, List.map_map] at this
    refine this.trans (List.map_congr_left fun e _ => ?_)
    simp
  have hread : (do (← m.heap.directory?).all?) = some (Entry.bindings 0 v.directory) := by
    rw [h.directory?_eq]
    rfl
  rw [Run.names, Run.exec_bind_ok (Run.exec_readHeap_some hread), ← hnames]
  rfl

/-- Whether a binding is referred to does not depend on where it lies. -/
theorem refersTo_eq (h : m.Lays c v kept free) (hs : v.directory = before ++ e :: after) :
    m.refersTo (e.binding (Item.bytes (before.flatMap Entry.items)).length) = v.refersTo e := by
  have hperm := Image.permanent_eq hs
  have hitems : v.permanent ++ kept =
      before.flatMap Entry.items ++ e.items ++ (after.flatMap Entry.items ++ kept) := by
    rw [hperm]
    simp only [List.append_assoc]
  have hd : Item.Distinct (v.permanent ++ kept) := h.arranged.distinct
  have hroots : m.roots = v.places.map (·.position (v.permanent ++ kept)) := h.arranged.roots_eq
  have hinside (q : Place) (hq : q ∈ v.places) : Collection.inside
      ((Item.bytes (before.flatMap Entry.items)).length, e.size)
      (q.position (v.permanent ++ kept)) ↔ ∃ i ∈ e.items, q.item.id = i.id := by
    have hmem := h.mem_of_mem_places hq
    have hiff := Place.inside_position_iff (hitems ▸ hd) (hitems ▸ hmem)
    rw [← hitems, e.length_bytes_items] at hiff
    refine hiff.trans ⟨fun hi => ⟨_, hi, rfl⟩, fun ⟨i, hi, hid⟩ => ?_⟩
    rwa [hd.eq_of_id_eq hmem (by simp [hitems, hi]) hid]
  rw [Bool.eq_iff_iff, Machine.refersTo, hroots, List.any_map, List.any_eq_true, Image.refersTo,
    List.any_eq_true, Entry.size_binding]
  constructor
  · rintro ⟨q, hq, hin⟩
    obtain ⟨i, hi, hid⟩ := (hinside q hq).mp hin
    exact ⟨i, hi, List.any_eq_true.mpr ⟨q, hq, by simpa using hid⟩⟩
  · rintro ⟨i, hi, hheld⟩
    obtain ⟨q, hq, hid⟩ := List.any_eq_true.mp hheld
    exact ⟨q, hq, (hinside q hq).mpr ⟨i, hi, by simpa using hid⟩⟩

theorem exec_referenced (h : m.Lays c v kept free) (b : Binding) :
    Run.exec (Run.referenced b) m = (.ok (m.refersTo b), m) := by
  refine Run.exec_readBoth_some ?_
  rw [Heap.refersTo?, h.arranged.roots?_eq, Machine.refersTo, Machine.roots, h.arranged.roots_eq]
  rfl

theorem exec_purge_none (h : m.Lays c v kept free) {name : String}
    (hn : name ∉ v.directory.map Entry.name) :
    Run.exec (Run.purge name) m = (.ok false, m) := by
  rw [Run.purge, Run.exec_bind_ok (h.exec_findBinding_none hn)]
  rfl

theorem exec_purge_unreferred (h : m.Lays c v kept free) (hs : v.directory = before ++ e :: after)
    (href : v.refersTo e = false) :
    ∃ m' free', Run.exec (Run.purge e.name) m = (.ok true, m') ∧
      m'.Lays c (v.forget e.name) kept free' := by
  have hnone : ∀ q ∈ v.places, q.item ∉ e.items := fun q hq hi =>
    List.any_eq_false.mp href _ hi (Item.isHeld_of_mem hq)
  have harranged : m.heap.Arranged m.registry { v.arrangement kept free with
      permanent := before.flatMap Entry.items ++ e.items ++ after.flatMap Entry.items } := by
    have := h.arranged
    rwa [Image.arrangement, Image.permanent_eq hs] at this
  let b := e.binding (Item.bytes (before.flatMap Entry.items)).length
  have hstop : b.stop = (Item.bytes (before.flatMap Entry.items)).length +
      (Item.bytes e.items).length := by
    rw [e.length_bytes_items]
    rfl
  obtain ⟨heap, registry, free', he, hcap, ha⟩ := harranged.closeGap? (b := b) rfl hstop hnone
  rw [← List.flatMap_append] at ha
  refine ⟨{ m with heap, registry }, free', ?_, h.valid.forget _, ?_, ?_, hcap.trans h.capacity,
    h.interrupted, h.nesting⟩
  · rw [Run.purge, Run.exec_bind_ok (h.exec_findBinding hs)]
    simp only
    rw [Run.exec_bind_ok (h.exec_referenced _), h.refersTo_eq hs, href]
    exact Run.exec_bind_ok (Run.exec_updateBoth_some he) _
  · exact h.sublist.trans (List.sublist_append_left _ _)
  · rw [h.valid.forget_eq hs]
    exact ha

theorem exec_purge_referred (h : m.Lays c v kept free) (hs : v.directory = before ++ e :: after)
    (href : v.refersTo e = true) (hn : v.used + e.size ≤ c) :
    ∃ m' kept' free', Run.exec (Run.purge e.name) m = (.ok true, m') ∧
      m'.Lays c (v.forget e.name) kept' free' := by
  obtain ⟨m₁, kept₁, free₁, -, heap₁, he₁, h₁, hfree, hextend, -, -⟩ := h.exec_allocate hn
  -- The entry's items move to the temporaries, and unused copies stay in their place.
  let copies : List Item := [⟨v.fresh, e.label.tree⟩, ⟨v.fresh + 1, e.object.tree⟩]
  have hfresh : ∀ i ∈ v.permanent ++ kept₁, i.id < v.fresh := fun i hi =>
    h₁.valid.fresh i (((List.Sublist.refl _).append h₁.sublist).subset hi)
  have hd : Item.Distinct (before.flatMap Entry.items ++ copies ++ after.flatMap Entry.items ++
      (kept₁ ++ e.items)) := by
    have hold := h₁.arranged.distinct
    have hlt := hfresh
    rw [Image.permanent_eq hs] at hlt
    rw [Arrangement.items, Image.arrangement, Image.permanent_eq hs] at hold
    exact Image.distinct_moved hold hlt e.label.tree e.object.tree
  let b := e.binding (Item.bytes (before.flatMap Entry.items)).length
  have hstop : b.stop = (Item.bytes (before.flatMap Entry.items)).length +
      (Item.bytes e.items).length := by
    rw [e.length_bytes_items]
    rfl
  obtain ⟨heap, heap₂, registry₂, hextend', hredirect, hcap₂, ha₂⟩ := Heap.Arranged.copyOut
    (a := v.arrangement kept₁ free₁)
    (before.flatMap Entry.items) e.items (after.flatMap Entry.items) copies b
    (by have := h₁.arranged; rwa [Image.arrangement, Image.permanent_eq hs] at this)
    (by simp [copies, Entry.items]) hd (by rw [e.length_bytes_items]; exact hfree) rfl hstop
  rw [e.length_bytes_items, hextend, Option.some.injEq, Prod.mk.injEq] at hextend'
  obtain ⟨-, rfl⟩ := hextend'
  have hnone : ∀ q ∈ v.places, q.item ∉ copies := fun q hq hi => by
    have hlt := hfresh _ (h₁.mem_of_mem_places hq)
    simp only [copies, List.mem_cons, List.not_mem_nil, or_false] at hi
    rcases hi with hi | hi <;> rw [hi] at hlt <;> simp only at hlt <;> omega
  obtain ⟨heap₃, registry₃, free', hclose, hcap, ha⟩ := ha₂.closeGap?
    (a := v.arrangement (kept₁ ++ e.items) (free₁.drop (Item.bytes e.items).length)) (b := b) rfl
    (by rw [hstop]; simp [copies, Entry.items]) hnone
  rw [← List.flatMap_append] at ha
  refine ⟨{ m₁ with heap := heap₃, registry := registry₃ }, kept₁ ++ e.items, free', ?_,
    h.valid.forget _, ?_, ?_, hcap.trans (hcap₂.trans h₁.capacity), h₁.interrupted, h₁.nesting⟩
  · rw [Run.purge, Run.exec_bind_ok (h.exec_findBinding hs)]
    simp only
    rw [Run.exec_bind_ok (h.exec_referenced _), h.refersTo_eq hs, href, if_pos rfl, e.size_binding]
    refine (Run.exec_bind_ok he₁ _).trans ?_
    refine (Run.exec_bind_ok (Run.exec_updateBoth_some hredirect) _).trans ?_
    exact Run.exec_bind_ok (Run.exec_updateBoth_some hclose) _
  · rw [h.valid.forget_eq hs]
    exact h₁.sublist.append (.refl _)
  · rw [h.valid.forget_eq hs]
    exact ha

theorem exec_purge_error (h : m.Lays c v kept free) (hs : v.directory = before ++ e :: after)
    (href : v.refersTo e = true) (hn : ¬v.used + e.size ≤ c) :
    ∃ m' kept' free', Run.exec (Run.purge e.name) m =
      (.error (.error (.outOfMemory e.size)), m') ∧ m'.Lays c v kept' free' := by
  obtain ⟨m', kept', free', he, h'⟩ := h.exec_allocate_error hn
  refine ⟨m', kept', free', ?_, h'⟩
  rw [Run.purge, Run.exec_bind_ok (h.exec_findBinding hs)]
  simp only
  rw [Run.exec_bind_ok (h.exec_referenced _), h.refersTo_eq hs, href, if_pos rfl, e.size_binding]
  exact Run.exec_bind_error he _

/-- The last part of storing: there is room, and the name is not in the directory. -/
theorem exec_bind? (h : m.Lays c v kept free) {name : String} {p : Pointer} {q : Place}
    (hname : name ≠ "") (hn : name ∉ v.directory.map Entry.name) (hp : v.deref p = some q)
    (hfree : (v.newEntry name q.tree).size ≤ free.length) :
    ∃ m' free', Run.exec (Run.updateBoth fun h r =>
        h.bind? r (Recipe.symbol name).encode p q.tree.size) m = (.ok (), m') ∧
      m'.Lays c (v.enter name q.tree) kept free' := by
  have hlabel : (Recipe.symbol name).encode = (v.newEntry name q.tree).label.tree.encode := by
    rw [Image.newEntry, Tree.encode]
  have hvalid := h.valid.enter hname hn q.tree
  have hd : Item.Distinct (v.permanent ++ (v.newEntry name q.tree).items ++ kept) := by
    have := hvalid.distinct.sublist ((List.Sublist.refl _).append h.sublist)
    rwa [Image.permanent_enter] at this
  obtain ⟨heap, registry, hbind, hcap, ha⟩ := h.arranged.bind? hd hfree
    (Option.join_eq_some_iff.mp hp) rfl
  refine ⟨{ m with heap, registry }, free.drop (v.newEntry name q.tree).size, ?_, hvalid, h.sublist,
    ?_, hcap.trans h.capacity, h.interrupted, h.nesting⟩
  · rw [hlabel]
    exact Run.exec_updateBoth_some hbind
  · rw [Image.arrangement, Image.permanent_enter]
    exact ha

/-- How much room storing asks for does not depend on where the old binding lies. -/
theorem exec_findBinding_demand (h : m.Lays c v kept free) (name : String) (total : Nat) :
    ∃ old, Run.exec (Run.findBinding name) m = (.ok old, m) ∧
      m.replacementSize total old = v.demand name total := by
  rcases v.named_or_not name with hn | ⟨before, e, after, hs, rfl⟩
  · refine ⟨none, h.exec_findBinding_none hn, ?_⟩
    rw [Image.demand, Image.find?_eq_none hn]
    rfl
  · refine ⟨_, h.exec_findBinding hs, ?_⟩
    rw [Image.demand, h.valid.find?_eq hs, Machine.replacementSize, h.refersTo_eq hs, e.size_binding]

theorem exec_replacementSize (h : m.Lays c v kept free) (total : Nat) (old : Option Binding) :
    Run.exec (Run.replacementSize total old) m = (.ok (m.replacementSize total old), m) := by
  cases old with
  | none => rfl
  | some b =>
    rw [Run.replacementSize, Run.exec_bind_ok (h.exec_referenced b)]
    rfl

/-- Removing a name fails only if something refers to its object and there is no room for a copy. -/
theorem exec_purge (h : m.Lays c v kept free) (name : String)
    (hroom : ∀ e ∈ v.directory, e.name = name → v.refersTo e = true → v.used + e.size ≤ c) :
    ∃ m' kept' free', Run.exec (Run.purge name) m =
      (.ok (v.directory.any (·.name = name)), m') ∧ m'.Lays c (v.forget name) kept' free' := by
  rcases v.named_or_not name with hn | ⟨before, e, after, hs, rfl⟩
  · have hnone : v.directory.any (·.name = name) = false := by
      rw [List.any_eq_false]
      exact fun d hd hname => hn (of_decide_eq_true hname ▸ List.mem_map_of_mem hd)
    rw [Image.forget_eq_self hn, hnone]
    exact ⟨m, kept, free, h.exec_purge_none hn, h⟩
  · have hmem : e ∈ v.directory := by simp [hs]
    have hsome : v.directory.any (·.name = e.name) = true :=
      List.any_eq_true.mpr ⟨e, hmem, by simp⟩
    rw [hsome]
    cases href : v.refersTo e with
    | true => exact h.exec_purge_referred hs href (hroom e hmem rfl href)
    | false =>
      obtain ⟨m', free', he, h'⟩ := h.exec_purge_unreferred hs href
      exact ⟨m', kept, free', he, h'⟩

/-- Storing needs room for the new binding, or for what exceeds an old one that nothing refers to.
After that nothing can fail. -/
theorem exec_store (h : m.Lays c v kept free) {name : String} {p : Pointer} {q : Place}
    (hname : name ≠ "") (hp : v.deref p = some q)
    (hn : v.used + v.demand name (v.newEntry name q.tree).size ≤ c) :
    ∃ m' kept' free', Run.exec (Run.store name p) m = (.ok (), m') ∧
      m'.Lays c ((v.forget name).enter name q.tree) kept' free' := by
  have hempty : ¬name.isEmpty := by simpa using hname
  have htotal := v.size_newEntry name q.tree
  obtain ⟨old, he₀, hold⟩ := h.exec_findBinding_demand name (v.newEntry name q.tree).size
  obtain ⟨m₁, kept₁, free₁, he₁, h₁, -⟩ := h.exec_reserve hn
  obtain ⟨m₂, kept₂, free₂, he₂, h₂⟩ := h₁.exec_purge name fun e he hname href => by
    have := h.valid.size_le_demand he hname href (v.newEntry name q.tree).size
    omega
  have hroom := h.valid.used_forget_add_le hn
  obtain ⟨m₃, kept₃, free₃, he₃, h₃, hfree⟩ := h₂.exec_reserve hroom
  obtain ⟨m₄, free₄, he₄, h₄⟩ := h₃.exec_bind? hname (v.not_mem_names_forget name) hp hfree
  refine ⟨m₄, _, free₄, ?_, h₄⟩
  rw [Run.store, if_neg hempty, Run.exec_bind_ok (h.exec_size hp)]
  simp only [htotal]
  rw [Run.exec_bind_ok he₀, Run.exec_bind_ok (h.exec_replacementSize _ old), hold,
    Run.exec_bind_ok he₁, Run.exec_bind_ok he₂, Run.exec_bind_ok he₃]
  exact he₄

theorem exec_store_error (h : m.Lays c v kept free) {name : String} {p : Pointer} {q : Place}
    (hname : name ≠ "") (hp : v.deref p = some q)
    (hn : ¬v.used + v.demand name (v.newEntry name q.tree).size ≤ c) :
    ∃ m' kept' free', Run.exec (Run.store name p) m =
      (.error (.error (.outOfMemory (v.demand name (v.newEntry name q.tree).size))), m') ∧
      m'.Lays c v kept' free' := by
  have hempty : ¬name.isEmpty := by simpa using hname
  have htotal := v.size_newEntry name q.tree
  obtain ⟨old, he₀, hold⟩ := h.exec_findBinding_demand name (v.newEntry name q.tree).size
  obtain ⟨m', kept', free', he₁, h'⟩ := h.exec_reserve_error hn
  refine ⟨m', kept', free', ?_, h'⟩
  rw [Run.store, if_neg hempty, Run.exec_bind_ok (h.exec_size hp)]
  simp only [htotal]
  rw [Run.exec_bind_ok he₀, Run.exec_bind_ok (h.exec_replacementSize _ old), hold,
    Run.exec_bind_error he₁]

end Machine.Lays
end RpnMachine
