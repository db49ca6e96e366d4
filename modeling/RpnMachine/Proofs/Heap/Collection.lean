import RpnMachine.Proofs.Heap.Compaction

/-! A collection keeps exactly the temporaries that some place lies in, in their order, and every
place stays as far into its item as before. -/
namespace RpnMachine

namespace Item

/-- Whether some place lies in the item. -/
def isHeld (places : List Place) (i : Item) : Bool := places.any (·.item.id = i.id)

theorem isHeld_of_mem {places : List Place} {p : Place} (h : p ∈ places) :
    p.item.isHeld places = true := by
  rw [isHeld, List.any_eq_true]
  exact ⟨p, h, by simp⟩

end Item

namespace Arrangement

def kept (a : Arrangement) : List Item := a.temporaries.filter (Item.isHeld a.places)

def moves (a : Arrangement) : List Move :=
  Collection.movesOf (Item.isHeld a.places) (Item.bytes a.permanent).length
    (Item.bytes a.permanent).length a.temporaries

def collection (a : Arrangement) : Collection where
  reclaimed := (Item.bytes a.temporaries).length - (Item.bytes a.kept).length
  live := a.moves.length
  moved := a.moves.countP fun v => v.source ≠ v.target
  roots := ((a.places.map (·.position a.items)).filter (Collection.inside
    ((Item.bytes a.permanent).length, (Item.bytes a.temporaries).length))).toFinset.card

theorem length_kept_le (a : Arrangement) :
    (Item.bytes a.kept).length ≤ (Item.bytes a.temporaries).length :=
  (List.filter_sublist.flatMap fun i : Item => i.tree.encode).length_le

end Arrangement

namespace Heap.Arranged

variable {h : Heap} {r : Registry} {a : Arrangement}

theorem temporaryEnd_eq_add (ha : h.Arranged r a) :
    h.temporaryEnd = h.permanentEnd + (Item.bytes a.temporaries).length := by
  rw [ha.temporaryEnd_eq, ha.permanentEnd_eq]

theorem length_temporaries (ha : h.Arranged r a) :
    h.temporaryEnd - h.permanentEnd = (Item.bytes a.temporaries).length := by
  rw [ha.temporaryEnd_eq, ha.permanentEnd_eq, Nat.add_sub_cancel_left]

/-- Something points to or into an item if and only if some place lies in it. -/
theorem any_inside_roots_eq_isHeld (ha : h.Arranged r a) {before after : List Item} {i : Item}
    (e : a.temporaries = before ++ i :: after) :
    (a.places.map (·.position a.items)).any (Collection.inside
      (h.permanentEnd + (Item.bytes before).length, i.size)) = i.isHeld a.places := by
  have hlayout : a.items = (a.permanent ++ before) ++ [i] ++ after := by
    rw [Arrangement.items, e]
    simp
  have hinside (p : Place) (hp : p ∈ a.places) :
      Collection.inside (h.permanentEnd + (Item.bytes before).length, i.size)
        (p.position a.items) ↔ p.item.id = i.id := by
    have hi : i ∈ a.items := by simp [hlayout]
    have hiff := Place.inside_position_iff (hlayout ▸ ha.distinct) (hlayout ▸ ha.held p hp)
    rw [← hlayout, Item.bytes_append, List.length_append, Item.length_bytes_cons] at hiff
    rw [ha.permanentEnd_eq]
    refine hiff.trans ?_
    rw [List.mem_singleton]
    exact ⟨fun h => h ▸ rfl, ha.distinct.eq_of_id_eq (ha.held p hp) hi⟩
  rw [Bool.eq_iff_iff, List.any_eq_true, Item.isHeld, List.any_eq_true]
  simp only [List.mem_map, decide_eq_true_eq]
  constructor
  · rintro ⟨_, ⟨p, hp, rfl⟩, hin⟩
    exact ⟨p, hp, (hinside p hp).mp hin⟩
  · rintro ⟨p, hp, hid⟩
    exact ⟨_, ⟨p, hp, rfl⟩, (hinside p hp).mpr hid⟩

/-- What is gathered tells the same, since what lies in an item lies among the temporaries. -/
theorem any_inside_gather_eq_isHeld (ha : h.Arranged r a) {before after : List Item} {i : Item}
    (e : a.temporaries = before ++ i :: after) :
    (Collection.gather (h.permanentEnd, h.temporaryEnd - h.permanentEnd)
      (a.places.map (·.position a.items))).any (Collection.inside
        (h.permanentEnd + (Item.bytes before).length, i.size)) = i.isHeld a.places := by
  have hlen : (Item.bytes a.temporaries).length =
      (Item.bytes before).length + i.size + (Item.bytes after).length := by
    rw [e, Item.bytes_append, List.length_append, Item.length_bytes_cons, Nat.add_assoc]
  rw [← ha.any_inside_roots_eq_isHeld e, Bool.eq_iff_iff, List.any_eq_true, List.any_eq_true]
  simp only [Collection.mem_gather]
  refine exists_congr fun position => ⟨fun h => ⟨h.1.1, h.2⟩, fun h => ⟨⟨h.1, ?_⟩, h.2⟩⟩
  have hin := h.2
  rw [Collection.inside_iff] at hin ⊢
  rw [ha.length_temporaries]
  simp only at hin ⊢
  omega

theorem distinct_kept (ha : h.Arranged r a) : Item.Distinct (a.permanent ++ a.kept) :=
  ha.distinct.sublist (List.filter_sublist.append_left _)

theorem held_kept (ha : h.Arranged r a) {p : Place} (hp : p ∈ a.places) :
    p.item ∈ a.permanent ++ a.kept := by
  rcases List.mem_append.mp (ha.held p hp) with hmem | hmem
  · exact List.mem_append_left _ hmem
  · exact List.mem_append_right _ (List.mem_filter.mpr ⟨hmem, Item.isHeld_of_mem hp⟩)

theorem fix_position (ha : h.Arranged r a) {p : Place} (hp : p ∈ a.places) (reclaimed : Nat) :
    (if p.position a.items < h.permanentEnd then some (p.position a.items)
      else if p.position a.items < h.temporaryEnd then
        Collection.relocate? a.moves.toArray (p.position a.items)
      else Word.minus? (p.position a.items) reclaimed) =
      some (p.position (a.permanent ++ a.kept)) := by
  have hd : Item.Distinct (a.permanent ++ a.temporaries) := ha.distinct
  have hheld := Item.isHeld_of_mem hp
  rcases List.mem_append.mp (ha.held p hp) with hmem | hmem
  · have hlt := p.position_lt hmem hd.left
    rw [Arrangement.items, Place.position_append_left hmem, Place.position_append_left hmem,
      if_pos (by rw [ha.permanentEnd_eq]; exact hlt)]
  · have hlt := p.position_lt hmem hd.right
    rw [Arrangement.items, Place.position_append_right hd hmem,
      Place.position_append_right ha.distinct_kept (List.mem_filter.mpr ⟨hmem, hheld⟩),
      if_neg (by rw [ha.permanentEnd_eq]; omega), if_pos (by rw [ha.temporaryEnd_eq]; omega)]
    exact Collection.relocate?_movesOf hd.right hmem hheld

/-- The items that some place lies in are marked. -/
theorem mark? (ha : h.Arranged r a) :
    ∃ marks, Collection.mark? h.memory h.permanentEnd h.temporaryEnd h.permanentEnd
        (Collection.gather (h.permanentEnd, h.temporaryEnd - h.permanentEnd)
          (a.places.map (·.position a.items)))
        (.ofCapacity (h.temporaryEnd - h.permanentEnd)) = some marks ∧
      ∀ before i after, a.temporaries = before ++ i :: after →
        marks.get (h.permanentEnd + (Item.bytes before).length - h.permanentEnd) =
          i.isHeld a.places := by
  have hpieces : Item.bytes a.temporaries <+: h.memory.toList.drop h.permanentEnd := by
    refine ⟨a.scratch ++ a.free ++ words (a.stack.map (·.position a.items)), ?_⟩
    rw [ha.parts.memory_permanent, ha.permanentEnd_eq]
    simp [Arrangement.parts]
  obtain ⟨marks, hmark, -, hmarks⟩ := Collection.mark?_items hpieces ha.temporaryEnd_eq_add le_rfl
    (fun i hi => ha.fits_of_mem (List.mem_append_right _ hi))
    (Collection.pairwise_gather (h.permanentEnd, h.temporaryEnd - h.permanentEnd)
      (a.places.map (·.position a.items)))
    (fun p hp => (Collection.inside_iff.mp (Collection.mem_gather.mp hp).2).1)
    (fun _ _ => Bits.get_ofCapacity (h.temporaryEnd - h.permanentEnd) _)
  exact ⟨marks, hmark, fun before i after e =>
    (hmarks before i after e).trans (ha.any_inside_gather_eq_isHeld e)⟩

/-- The items that stay lie one right after the other, and the scratchpad follows them. -/
theorem compact? (ha : h.Arranged r a) {marks : Bits}
    (hmarks : ∀ before i after, a.temporaries = before ++ i :: after →
      marks.get (h.permanentEnd + (Item.bytes before).length - h.permanentEnd) =
        i.isHeld a.places) :
    ∃ m m' free, Collection.compact? marks h.permanentEnd h.temporaryEnd h.memory h.permanentEnd
        h.permanentEnd = some (m, a.moves) ∧
      (if 0 < a.collection.reclaimed ∧ 0 < a.scratch.length then
        m.copy? h.temporaryEnd h.scratchEnd (h.permanentEnd + (Item.bytes a.kept).length)
      else some m) = some m' ∧
      free.length = a.collection.reclaimed + a.free.length ∧
      m'.toList = Item.bytes a.permanent ++ Item.bytes a.kept ++ a.scratch ++ free ++
        words (a.stack.map (·.position a.items)) := by
  have hpieces : h.memory.toList = Item.bytes a.permanent ++ [] ++ Item.bytes a.temporaries ++
      (a.scratch ++ a.free ++ words (a.stack.map (·.position a.items))) := by
    rw [ha.parts.memory, Parts.bytes, Parts.front, List.append_nil]
    simp only [Arrangement.parts, List.append_assoc]
  obtain ⟨m, junk, hcompact, hjunk, hm⟩ := Collection.compact?_items hpieces ha.permanentEnd_eq
    (Nat.add_zero _).symm ha.temporaryEnd_eq_add
    (fun i hi => ha.fits_of_mem (List.mem_append_right _ hi)) hmarks
  rw [← Arrangement.kept] at hjunk hm
  rw [List.length_nil, Nat.zero_add] at hjunk
  have hlen : junk.length = a.collection.reclaimed := Nat.eq_sub_of_add_eq hjunk
  rw [ha.permanentEnd_eq] at hcompact ⊢
  refine ⟨m, ?_⟩
  split_ifs with hmove
  · have hpieces' : m.toList = (Item.bytes a.permanent ++ Item.bytes a.kept) ++ junk ++ a.scratch ++
        (a.free ++ words (a.stack.map (·.position a.items))) := by
      rw [hm]
      simp only [List.append_assoc]
    obtain ⟨m', junk', hcopy, hjunk', hm'⟩ := Memory.copy?_down h.temporaryEnd h.scratchEnd hpieces'
      List.length_append.symm
      (by rw [ha.temporaryEnd_eq]; omega) (by rw [ha.temporaryEnd_eq, ha.scratchEnd_eq])
    exact ⟨m', junk' ++ a.free, hcompact, hcopy, by rw [List.length_append, hjunk', hlen],
      by rw [hm']; simp only [List.append_assoc]⟩
  · refine ⟨m, junk ++ a.free, hcompact, rfl, by rw [List.length_append, hlen], ?_⟩
    -- There is nothing to move, or nowhere to move it to.
    have hswap : junk ++ a.scratch = a.scratch ++ junk := by
      rcases junk.eq_nil_or_concat with hnil | ⟨_, _, hne⟩
      · rw [hnil, List.append_nil, List.nil_append]
      · have hpos : 0 < junk.length := by simp [hne]
        have hnil : a.scratch = [] := List.length_eq_zero_iff.mp (by omega)
        rw [hnil, List.append_nil, List.nil_append]
    rw [hm, List.append_assoc _ junk, List.append_assoc _ a.scratch (junk ++ a.free),
      ← List.append_assoc a.scratch junk, ← hswap]
    simp only [List.append_assoc]

/-- The items that some place lies in stay, and every place stays in its item. -/
theorem collect? (ha : h.Arranged r a) :
    ∃ h' r' free, h.collect? r = some (a.collection, h', r') ∧ h'.capacity = h.capacity ∧
      h'.Arranged r' { a with temporaries := a.kept, free } := by
  have hsub := a.length_kept_le
  have hcap := ha.parts.capacity_eq
  have hreclaimed : h.temporaryEnd - (h.permanentEnd + (Item.bytes a.kept).length) =
      a.collection.reclaimed := by
    rw [ha.temporaryEnd_eq, ha.permanentEnd_eq, Nat.add_sub_add_left]
    rfl
  have hstop : (a.moves.getLast?.map fun v => v.target + v.size).getD h.permanentEnd =
      h.permanentEnd + (Item.bytes a.kept).length := by
    rw [ha.permanentEnd_eq]
    exact Collection.stop_movesOf _ _ _ _
  have hlength : h.scratchLength? = some a.scratch.length := ha.parts.scratchLength?_eq
  have hroots : (Collection.gather (h.permanentEnd, h.temporaryEnd - h.permanentEnd)
      (a.places.map (·.position a.items))).length = a.collection.roots := by
    rw [Collection.length_gather, ha.length_temporaries, ha.permanentEnd_eq]
    rfl
  obtain ⟨marks, hmark, hmarks⟩ := ha.mark?
  obtain ⟨m, m', free, hcompact, hscratch, hfree, hm'⟩ := ha.compact? hmarks
  -- The regions afterwards, where the stack still holds the positions from before.
  have hs : Stacks
      { h with
        memory := m'
        temporaryEnd := h.permanentEnd + (Item.bytes a.kept).length
        scratchEnd := h.permanentEnd + (Item.bytes a.kept).length + a.scratch.length }
      (Item.bytes a.permanent ++ Item.bytes a.kept ++ a.scratch ++ free)
      (a.stack.map (·.position a.items)) := by
    refine ⟨hm', ?_, ha.parts.fits⟩
    rw [ha.parts.stackStart]
    simp only [Arrangement.parts, List.length_append, hfree, Arrangement.collection]
    omega
  obtain ⟨memory, r', hmove, hs', hr'⟩ := ha.moveRoots? (a.permanent ++ a.kept)
    (f := fun position =>
      if position < h.permanentEnd then some position
      else if position < h.temporaryEnd then Collection.relocate? a.moves.toArray position
      else Word.minus? position a.collection.reclaimed)
    hs (by
      simp only [Arrangement.parts] at hcap
      rw [Item.bytes_append, List.length_append]
      omega) ha.distinct_kept (fun _ hp => ha.held_kept hp)
    fun _ hp => ha.fix_position hp a.collection.reclaimed
  have hc : Consists
      { h with
        memory
        temporaryEnd := h.permanentEnd + (Item.bytes a.kept).length
        scratchEnd := h.permanentEnd + (Item.bytes a.kept).length + a.scratch.length
        collections := h.collections + 1 }
      { a with temporaries := a.kept, free }.parts := by
    refine ⟨hs'.memory, ha.permanentEnd_eq, congrArg (· + _) ha.permanentEnd_eq, ?_, ?_, hs'.fits⟩
    · simp only [Arrangement.parts, ha.permanentEnd_eq]
    · refine hs'.stackStart.trans ?_
      simp only [Arrangement.parts, List.length_append]
  have hsame : memory.size = h.capacity := ha.capacity_of_stacks hs' rfl
  refine ⟨_, r', free, ?_, ?_, hc, hr', ha.distinct_kept, fun _ hp => ha.held_kept hp, ?_⟩
  · rw [Heap.collect?, ha.roots?_eq]
    simp only [Option.bind_eq_bind, Option.bind_some]
    rw [hmark]
    simp only [Option.bind_some, hcompact, hstop]
    rw [Word.minus?_eq (by rw [ha.temporaryEnd_eq, ha.permanentEnd_eq]; omega), Option.bind_some,
      hreclaimed, ← scratchLength?, hlength, Option.bind_some]
    simp only [hscratch, Option.bind_some, hmove, hc.check?_eq, hroots]
    rfl
  · exact hsame
  · exact hsame.trans_lt ha.capacity

end Heap.Arranged
end RpnMachine
