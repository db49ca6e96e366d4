import RpnMachine.Proofs.Run.Action

/-! Whatever is done with a machine, its memory stays well-formed: the regions lie in order, objects
fill the permanent region and the temporaries without a gap, and whatever points to memory points
to where an object starts. -/
namespace RpnMachine

/-- Of objects that lie one right after the other from position zero on, one starts at the position,
or an object inside one of them. -/
def Tree.StartsAt (ts : List Tree) (position : Nat) (s : Tree) : Prop :=
  ∃ before t after offset, ts = before ++ t :: after ∧ t.At offset s ∧
    position = (encodeAll before).length + offset

def Tree.named (entries : List (String × Tree)) : List Tree :=
  entries.flatMap fun e => [.symbol e.1, e.2]

structure Machine.WellFormed (m : Machine) : Prop where
  permanentEnd_le : m.heap.permanentEnd ≤ m.heap.temporaryEnd
  temporaryEnd_le : m.heap.temporaryEnd ≤ m.heap.scratchEnd
  scratchEnd_le : m.heap.scratchEnd ≤ m.heap.stackStart
  stackStart_le : m.heap.stackStart ≤ m.heap.capacity
  aligned : Heap.slotSize ∣ m.heap.capacity - m.heap.stackStart
  /-- The objects with a name, and the temporaries. -/
  tiled : ∃ (entries : List (String × Tree)) (ts : List Tree),
    m.heap.permanent = Tree.encodeAll (Tree.named entries) ∧
    (entries.map Prod.fst).Nodup ∧ (∀ e ∈ entries, e.1 ≠ "") ∧
    m.heap.temporaries = Tree.encodeAll ts ∧
    ∀ position ∈ m.roots, ∃ s, Tree.StartsAt (Tree.named entries ++ ts) position s ∧
      m.heap.memory.object? position = some s.encode

theorem Place.startsAt {items : List Item} (hd : Item.Distinct items) {q : Place}
    (hq : q.item ∈ items) :
    Tree.StartsAt (items.map Item.tree) (q.position items) q.tree := by
  obtain ⟨before, after, rfl⟩ := List.append_of_mem hq
  refine ⟨before.map Item.tree, q.item.tree, after.map Item.tree, q.offset, by simp, q.held, ?_⟩
  rw [Place.position, Item.start_eq_length hd, Item.bytes_eq_encodeAll]

namespace Image

variable {v : Image}

def entries (v : Image) : List (String × Tree) :=
  v.directory.map fun e => (e.name, e.object.tree)

theorem Valid.map_tree_permanent (hv : v.Valid) :
    v.permanent.map Item.tree = Tree.named v.entries := by
  rw [permanent, entries, Tree.named, List.map_flatMap, List.flatMap_map]
  refine List.flatMap_congr fun e he => ?_
  rw [← (hv.labelled e he).1]
  rfl

end Image

namespace Machine

variable {m m' : Machine} {c : Nat} {v : Image}

/-- Memory is well-formed where items lie one right after the other, those with names first. -/
theorem WellFormed.of_arranged {a : Arrangement} (ha : m.heap.Arranged m.registry a)
    {entries : List (String × Tree)} (hpermanent : a.permanent.map Item.tree = Tree.named entries)
    (hnodup : (entries.map Prod.fst).Nodup) (hnames : ∀ e ∈ entries, e.1 ≠ "") : m.WellFormed := by
  have hparts := ha.parts
  have hitems : a.items.map Item.tree = Tree.named entries ++ a.temporaries.map Item.tree := by
    rw [Arrangement.items, List.map_append, hpermanent]
  refine ⟨?_, ?_, ?_, hparts.stackStart_le, ?_, entries, a.temporaries.map Item.tree, ?_, hnodup,
    hnames, ?_, ?_⟩
  · rw [hparts.permanentEnd, hparts.temporaryEnd]
    omega
  · rw [hparts.temporaryEnd, hparts.scratchEnd]
    omega
  · rw [hparts.scratchEnd, hparts.stackStart]
    omega
  · rw [hparts.capacity_eq_stackStart_add, Nat.add_sub_cancel_left]
    exact Nat.dvd_mul_right _ _
  · rw [hparts.permanent_eq, ← hpermanent, ← Item.bytes_eq_encodeAll]
    rfl
  · rw [hparts.temporaries_eq, ← Item.bytes_eq_encodeAll]
    rfl
  · intro position hposition
    rw [Machine.roots, ha.roots_eq, List.mem_map] at hposition
    obtain ⟨q, hq, rfl⟩ := hposition
    have hmem := ha.held q hq
    refine ⟨q.tree, hitems ▸ Place.startsAt ha.distinct hmem, ?_⟩
    exact Memory.object?_eq (ha.fits_place hmem) (ha.encode_at_position hmem)

theorem Represents.wellFormed (h : m.Represents c v) : m.WellFormed := by
  obtain ⟨kept, free, h⟩ := h
  refine .of_arranged h.arranged h.valid.map_tree_permanent ?_ fun e he => ?_
  · rw [Image.entries, List.map_map]
    exact h.valid.names
  · obtain ⟨e', he', rfl⟩ := List.mem_map.mp he
    exact (h.valid.labelled e' he').2

/-- Only a pointer that leads somewhere has bytes. -/
theorem Represents.exists_deref_of_bytes {p : Pointer} (hm : m.Represents c v) {bs : List UInt8}
    (h : (Run.exec (Run.bytes p) m).1 = .ok bs) :
    ∃ q, v.deref p = some q ∧ q.tree.Fits ∧ q.tree.encode = bs := by
  obtain ⟨kept, free, hl⟩ := hm
  cases hp : v.deref p with
  | none =>
    have hposition : Run.exec (Run.position p) m = (.error .corrupt, m) := by
      rw [Run.position, Run.exec_readRegistry, hl.position?_eq, hp]
      rfl
    rw [Run.bytes, Run.exec_bind_error hposition] at h
    cases h
  | some q =>
    rw [hl.exec_bytes hp] at h
    exact ⟨q, rfl, hl.fits (Image.mem_places_of_deref hp), Except.ok.inj h⟩

theorem Acts.exists_represents {actions : List Action} (h : Acts m actions m')
    (hm : m.Represents c v) : ∃ v', m'.Represents c v' ∧
      ∀ p q, .release p ∉ actions → v.deref p = some q → v'.deref p = some q := by
  induction h generalizing v with
  | nil => exact ⟨v, hm, fun _ _ _ hp => hp⟩
  | cons ha _ ih =>
    obtain ⟨v₁, hm₁, hkeep₁⟩ := Action.exists_represents_act hm ha
    obtain ⟨v₂, hm₂, hkeep₂⟩ := ih hm₁
    refine ⟨v₂, hm₂, fun p q hp hq => ?_⟩
    rw [List.mem_cons, not_or] at hp
    exact hkeep₂ p q hp.2 (hkeep₁ p q (Ne.symm hp.1) hq)

theorem Acts.append {m'' : Machine} {actions more : List Action} (h : Acts m actions m')
    (h' : Acts m' more m'') : Acts m (actions ++ more) m'' := by
  induction h with
  | nil => exact h'
  | cons ha _ ih => exact .cons ha (ih h')

/-- Every run from a new machine leaves its memory well-formed, whether its actions succeed or
fail. -/
theorem wellFormed_of_acts (hc : c < Word.bound Heap.slotSize) {actions : List Action}
    (h : Acts (ofCapacity c) actions m) : m.heap.capacity = c ∧ m.WellFormed := by
  obtain ⟨v, hm, -⟩ := h.exists_represents (represents_ofCapacity hc)
  obtain ⟨kept, free, hl⟩ := hm
  exact ⟨hl.capacity, hl.represents.wellFormed⟩

/-- A program that stores an object under the name `X`. -/
def storing : Tree :=
  .composite .program [.integer false 1, .composite .quote [.symbol "X"], .command .sto]

def binding : List Action :=
  [.make storing.recipe, .store "X" ⟨0⟩, .release ⟨0⟩, .lookup "X"]

theorem acts_binding : ∃ m, Acts (ofCapacity 64) binding m ∧
    (m.registry.position? ⟨0⟩).isSome :=
  ⟨_, .cons ⟨by decide, storing, storing.encode_eq⟩ <| .cons ⟨by decide +kernel, trivial⟩ <|
    .cons ⟨by decide +kernel, trivial⟩ <| .cons ⟨by decide, trivial⟩ <| .nil _, by decide +kernel⟩

/-- The memory is well-formed also where a program runs that has just overwritten itself. -/
theorem wellFormed_overwriting : ∃ m actions, Acts (ofCapacity 64) actions m ∧
    .execute 1 ⟨0⟩ ∈ actions ∧ m.WellFormed := by
  obtain ⟨m, hm, hp⟩ := acts_binding
  have hexecute : Acts m [.execute 1 ⟨0⟩] (m.act (.execute 1 ⟨0⟩)) :=
    .cons ⟨by simpa [Action.operands] using hp, trivial⟩ (.nil _)
  have h := hm.append hexecute
  exact ⟨_, _, h, by simp, (wellFormed_of_acts (by decide) h).2⟩

end Machine
end RpnMachine
