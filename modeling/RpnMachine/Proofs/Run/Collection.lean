import RpnMachine.Proofs.Machine.Room
import RpnMachine.Proofs.Machine.Survivors
import RpnMachine.Proofs.Run.Arranged

/-! A collection leaves exactly the temporaries that something points to or into, in their order,
and moves whatever points to memory along with them. What it tells of them is so, and right after
it another one changes nothing. -/
namespace RpnMachine

/-- Items that all stay do not move. -/
theorem Collection.source_eq_target {stays : Item → Bool} {items : List Item}
    (h : ∀ i ∈ items, stays i = true) {first : Nat} {v : Move}
    (hv : v ∈ movesOf stays first first items) : v.source = v.target := by
  induction items generalizing first with
  | nil => cases hv
  | cons i items ih =>
    rw [movesOf, if_pos (h i (by simp))] at hv
    rcases List.mem_cons.mp hv with rfl | hv
    · rfl
    · exact ih (fun j hj => h j (by simp [hj])) hv

namespace Machine

open Run

/-- Where a position goes when the other objects are dropped: what lies below the temporaries stays,
and a place in an object that stays is as far into it as before. -/
inductive Moves (m : Machine) (ts : List Tree) : Nat → Nat → Prop
  | below {position : Nat} : position < m.heap.permanentEnd → Moves m ts position position
  | along {v : Move} {offset : Nat} : v ∈ m.relocations ts → offset < v.size →
      Moves m ts (v.source + offset) (v.target + offset)

/-- The second machine has of these temporaries those that something points to or into, and all else
that the first one has. -/
structure Collected (m : Machine) (ts : List Tree) (done : Collection) (m' : Machine) : Prop where
  permanent : m'.heap.permanent = m.heap.permanent
  temporaries : m'.heap.temporaries = Tree.encodeAll ((m.survivors ts).map Prod.snd)
  scratchpad : m'.heap.scratchpad = m.heap.scratchpad
  depth : m'.heap.depth = m.heap.depth
  capacity : m'.heap.capacity = m.heap.capacity
  stack : List.Forall₂ (m.Moves ts) m.heap.stack m'.heap.stack
  slots : List.Forall₂ (Option.Rel (m.Moves ts)) m.registry.slots.toList m'.registry.slots.toList
  reclaimed : done.reclaimed = Tree.total (m.garbage ts)
  live : done.live = (m.survivors ts).length
  moved : done.moved = (m.relocations ts).countP fun v => v.source ≠ v.target
  roots : done.roots = (m.roots.filter (Collection.inside
    (m.heap.permanentEnd, m.heap.temporaryEnd - m.heap.permanentEnd))).toFinset.card

/-- The second machine has its regions and all that points to memory where the first one has. -/
structure Unmoved (m m' : Machine) : Prop where
  permanentEnd : m'.heap.permanentEnd = m.heap.permanentEnd
  temporaryEnd : m'.heap.temporaryEnd = m.heap.temporaryEnd
  scratchEnd : m'.heap.scratchEnd = m.heap.scratchEnd
  stackStart : m'.heap.stackStart = m.heap.stackStart
  stack : m'.heap.stack = m.heap.stack
  slots : m'.registry.slots = m.registry.slots

variable {m : Machine} {a : Arrangement} {ts : List Tree}

theorem moves_position (ha : m.heap.Arranged m.registry a) {p : Place} (hp : p ∈ a.places) :
    m.Moves (a.temporaries.map Item.tree) (p.position a.items)
      (p.position (a.permanent ++ a.kept)) := by
  have hd : Item.Distinct (a.permanent ++ a.temporaries) := ha.distinct
  have hheld := Item.isHeld_of_mem hp
  rcases List.mem_append.mp (ha.held p hp) with hmem | hmem
  · rw [Arrangement.items, Place.position_append_left hmem, Place.position_append_left hmem]
    refine .below ?_
    rw [ha.permanentEnd_eq]
    exact p.position_lt hmem hd.left
  · have hd' : Item.Distinct (a.permanent ++ a.kept) :=
      hd.sublist (List.filter_sublist.append_left _)
    have hmove : _ ∈ a.moves := Collection.mem_movesOf _ _ hd.right hmem hheld
    rw [← relocations_eq ha, ← ha.permanentEnd_eq] at hmove
    have := Moves.along hmove p.offset_lt
    rw [Arrangement.items, Place.position_append_right hd hmem,
      Place.position_append_right hd' (List.mem_filter.mpr ⟨hmem, hheld⟩), ← ha.permanentEnd_eq,
      Place.position, Place.position, ← Nat.add_assoc, ← Nat.add_assoc]
    exact this

theorem exists_collected (ha : m.heap.Arranged m.registry a) :
    ∃ done m' free, exec collect m = (.ok done, m') ∧
      m.Collected (a.temporaries.map Item.tree) done m' ∧ m'.heap.Arranged m'.registry
        { a with temporaries := a.kept, free } := by
  obtain ⟨heap, registry, free, he, hcap, ha'⟩ := ha.exec_collect
  have hparts := ha.parts
  have hparts' := ha'.parts
  refine ⟨a.collection, _, free, he, ?_, ha'⟩
  constructor
  · exact hparts'.permanent_eq.trans hparts.permanent_eq.symm
  · rw [map_snd_survivors ha, ← Item.bytes_eq_encodeAll]
    exact hparts'.temporaries_eq
  · exact hparts'.scratchpad_eq.trans hparts.scratchpad_eq.symm
  · rw [hparts.depth_eq]
    refine hparts'.depth_eq.trans ?_
    simp [Arrangement.parts]
  · exact hcap
  · rw [hparts.stack_eq, hparts'.stack_eq]
    refine List.forall₂_map_left_iff.mpr (List.forall₂_map_right_iff.mpr ?_)
    exact List.forall₂_same.mpr fun p hp => moves_position ha (List.mem_append_left _ hp)
  · rw [ha.registered, ha'.registered]
    refine List.forall₂_map_left_iff.mpr (List.forall₂_map_right_iff.mpr ?_)
    refine List.forall₂_same.mpr fun slot hslot => ?_
    cases slot with
    | none => exact .none
    | some p =>
      exact .some (moves_position ha
        (List.mem_append_right _ (List.mem_filterMap.mpr ⟨_, hslot, rfl⟩)))
  · have hsum := m.total_survivors_add_total_garbage (a.temporaries.map Item.tree)
    rw [Tree.total_eq, map_snd_survivors ha, ← Item.bytes_eq_encodeAll,
      ← Item.bytes_eq_encodeAll] at hsum
    exact Nat.sub_eq_of_eq_add' hsum.symm
  · rw [← length_relocations, relocations_eq ha]
    rfl
  · rw [relocations_eq ha]
    rfl
  · rw [roots, ha.roots_eq, ha.permanentEnd_eq, ha.temporaryEnd_eq, Nat.add_sub_cancel_left]
    rfl

/-- Where everything is held, a collection changes nothing. -/
theorem exists_unmoved (ha : m.heap.Arranged m.registry a)
    (hheld : ∀ i ∈ a.temporaries, i.isHeld a.places = true) :
    ∃ done m', exec collect m = (.ok done, m') ∧ done.reclaimed = 0 ∧ done.moved = 0 ∧
      m.Unmoved m' := by
  have hall : a.kept = a.temporaries := List.filter_eq_self.mpr hheld
  obtain ⟨heap, registry, free, he, hcap, ha'⟩ := ha.exec_collect
  have hparts := ha.parts
  have hparts' := ha'.parts
  have hregistered := ha'.registered
  rw [hall] at hparts' hregistered
  refine ⟨a.collection, _, he, ?_, ?_, ?_⟩
  · rw [Arrangement.collection, hall, Nat.sub_self]
  · rw [Arrangement.collection, List.countP_eq_zero]
    intro v hv
    simpa using Collection.source_eq_target hheld hv
  · have hfree : heap.stackStart = m.heap.stackStart := by
      have hc := hparts'.capacity_eq_stackStart_add
      have hc' := hparts.capacity_eq_stackStart_add
      simp only [Arrangement.parts, List.length_map] at hc hc'
      omega
    refine ⟨hparts'.permanentEnd.trans hparts.permanentEnd.symm,
      hparts'.temporaryEnd.trans hparts.temporaryEnd.symm,
      hparts'.scratchEnd.trans hparts.scratchEnd.symm, hfree,
      hparts'.stack_eq.trans hparts.stack_eq.symm, ?_⟩
    exact Array.toList_inj.mp (hregistered.trans ha.registered.symm)

/-- A collection of a well-formed memory leaves the temporaries that something points to or into,
however the temporaries are read, and another one right after it has nothing to do. -/
theorem collected_of_wellFormed (hm : m.WellFormed)
    (hc : m.heap.capacity < Word.bound Heap.slotSize)
    (hts : m.heap.temporaries = Tree.encodeAll ts) :
    ∃ done m', exec collect m = (.ok done, m') ∧ m.Collected ts done m' ∧ m'.WellFormed ∧
      ∃ again m'', exec collect m' = (.ok again, m'') ∧ again.reclaimed = 0 ∧ again.moved = 0 ∧
        m'.Unmoved m'' := by
  obtain ⟨a, entries, ha, rfl, hpermanent, hnodup, hnames⟩ := hm.exists_arranged hc hts
  obtain ⟨done, m', free, he, hcollected, ha'⟩ := exists_collected ha
  obtain ⟨again, m'', he', hreclaimed, hmoved, hunmoved⟩ := exists_unmoved ha' fun i hi =>
    (List.mem_filter.mp hi).2
  exact ⟨done, m', he, hcollected, .of_arranged ha' hpermanent hnodup hnames, again, m'', he',
    hreclaimed, hmoved, hunmoved⟩

def pair : Tree := .composite .list [.integer false 2, .integer false 3]

/-- Of two objects the first is given back, and only the elements of the second are referred to, one
of them by the stack. -/
def scattered : List Action :=
  [.make (Tree.integer false 1).recipe, .make pair.recipe, .children ⟨1⟩, .push ⟨2⟩, .release ⟨2⟩,
    .release ⟨1⟩, .release ⟨0⟩]

theorem acts_scattered : ∃ m, Acts (ofCapacity 64) scattered m ∧
    m.heap.temporaries = Tree.encodeAll [.integer false 1, pair] ∧
    Tree.total (m.garbage [.integer false 1, pair]) = 2 ∧
    m.relocations [.integer false 1, pair] = [⟨2, 0, 6⟩] :=
  ⟨_, .cons ⟨by decide, .integer false 1, Tree.encode_eq _⟩ <| .cons ⟨by decide, pair, pair.encode_eq⟩ <|
    .cons ⟨by decide +kernel, trivial⟩ <| .cons ⟨by decide +kernel, trivial⟩ <|
    .cons ⟨by decide +kernel, trivial⟩ <| .cons ⟨by decide +kernel, trivial⟩ <|
    .cons ⟨by decide +kernel, trivial⟩ <| .nil _,
    by decide +kernel, by decide +kernel, by decide +kernel⟩

/-- The first object is dropped, and the second one moves. -/
theorem collected_scattered : ∃ m done m', Acts (ofCapacity 64) scattered m ∧
    exec collect m = (.ok done, m') ∧ m.Collected [.integer false 1, pair] done m' ∧
    done.reclaimed = 2 ∧ done.moved = 1 := by
  obtain ⟨m, hm, hts, hgarbage, hrelocations⟩ := acts_scattered
  obtain ⟨v, ⟨kept, free, hl⟩, -⟩ := hm.exists_represents (represents_ofCapacity (by decide))
  have hc : m.heap.capacity < Word.bound Heap.slotSize := by
    rw [hl.capacity]
    decide
  obtain ⟨done, m', he, h, -⟩ := collected_of_wellFormed hl.represents.wellFormed hc hts
  exact ⟨m, done, m', hm, he, h, h.reclaimed.trans hgarbage, by rw [h.moved, hrelocations]; decide⟩

end Machine
end RpnMachine
