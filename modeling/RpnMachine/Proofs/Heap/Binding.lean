import RpnMachine.Proofs.Heap.Entry

/-! What happens to the places when a binding is copied out, when its gap is closed, and when there is
a new one. -/
namespace RpnMachine

namespace Place

/-- A place moves down when items before its own go away. -/
theorem position_append_middle {before middle after : List Item} {p : Place}
    (h : Item.Distinct (before ++ middle ++ after)) (hp : p.item ∈ after) :
    p.position (before ++ middle ++ after) =
      p.position (before ++ after) + (Item.bytes middle).length := by
  have hd : Item.Distinct (before ++ after) :=
    h.sublist ((List.sublist_append_left before middle).append (.refl _))
  rw [position_append_right h hp, position_append_right hd hp, Item.bytes_append,
    List.length_append]
  omega

/-- The bytes of a place lie at its position, also if other bytes fill the place of some items. -/
theorem encode_at_position_gap {before middle after : List Item} {p : Place} {gap : List UInt8}
    (h : Item.Distinct (before ++ middle ++ after)) (hp : p.item ∈ before ++ after)
    (hgap : gap.length = (Item.bytes middle).length) (rest : List UInt8) :
    p.tree.encode <+: (Item.bytes before ++ gap ++ Item.bytes after ++ rest).drop
      (p.position (before ++ middle ++ after)) := by
  rcases List.mem_append.mp hp with hp | hp
  · rw [List.append_assoc before, position_append_left hp]
    simp only [List.append_assoc]
    exact p.encode_at_position hp h.left.left _
  · have hlen : (Item.bytes (before ++ middle)).length = (Item.bytes before ++ gap).length := by
      rw [Item.bytes_append, List.length_append, List.length_append, hgap]
    rw [position_append_right h hp, hlen, List.append_assoc _ (Item.bytes after),
      List.drop_length_add_append]
    exact p.encode_at_position hp h.right _

end Place

theorem Arrangement.items_split (a : Arrangement) (before middle after : List Item) :
    items { a with permanent := before ++ middle ++ after } =
      before ++ middle ++ (after ++ a.temporaries) := by
  simp only [items, List.append_assoc]

namespace Heap.Arranged

variable {h : Heap} {r : Registry} {a : Arrangement}

/-- The places in a run of bytes move along with it. -/
theorem shiftRoots? (ha : h.Arranged r a) {h' : Heap} {front : List UInt8} {start stop target : Nat}
    (items : List Item) (hs : h'.Stacks front (a.stack.map (·.position a.items)))
    (hle : (Item.bytes items).length ≤ h.capacity) (hd : Item.Distinct items)
    (hheld : ∀ p ∈ a.places, p.item ∈ items)
    (hf : ∀ p ∈ a.places,
      (if Collection.inside (start, stop - start) (p.position a.items)
        then target + (p.position a.items - start) else p.position a.items) = p.position items) :
    ∃ memory r', h'.shiftRoots? r start stop target = some ({ h' with memory }, r') ∧
      Stacks { h' with memory } front (a.stack.map (·.position items)) ∧
        r'.slots.toList = a.slots.map (Option.map (·.position items)) :=
  ha.moveRoots? items hs hle hd hheld fun p hp => by
    rw [← hf p hp]
    exact (apply_ite some _ _ _).symm

/-- Where places lie once items of the permanent region are gone. -/
theorem position_closeGap {before middle after : List Item} {start stop : Nat}
    (ha : h.Arranged r { a with permanent := before ++ middle ++ after })
    (hstart : start = (Item.bytes before).length)
    (hstop : stop = (Item.bytes before).length + (Item.bytes middle).length) {p : Place}
    (hp : p ∈ a.places) (hnone : p.item ∉ middle) :
    (if Collection.inside (stop, h.scratchEnd - stop)
        (p.position (Arrangement.items { a with permanent := before ++ middle ++ after }))
      then start +
        (p.position (Arrangement.items { a with permanent := before ++ middle ++ after }) - stop)
      else p.position (Arrangement.items { a with permanent := before ++ middle ++ after })) =
      p.position (before ++ after ++ a.temporaries) := by
  have hd := ha.distinct
  have hmem := ha.held p hp
  have hscratch := ha.scratchEnd_eq
  simp only [Item.bytes_append, List.length_append] at hscratch
  rw [Arrangement.items_split] at hd hmem ⊢
  rw [List.append_assoc before after]
  simp only [List.mem_append] at hmem
  by_cases hb : p.item ∈ before
  · have hlt := p.position_lt hb hd.left.left
    rw [List.append_assoc, Place.position_append_left hb, Place.position_append_left hb,
      if_neg (by rw [Collection.inside_iff]; omega)]
  · have hrest : p.item ∈ after ++ a.temporaries := by
      rw [List.mem_append]
      tauto
    have hlt := p.position_lt hrest hd.right
    have hpos := Place.position_append_right hd hrest
    simp only [Item.bytes_append, List.length_append] at hlt hpos
    rw [if_pos (by rw [Collection.inside_iff]; omega)]
    have hmid := Place.position_append_middle hd hrest
    omega

/-- Items of the permanent region go away that no place lies in. -/
theorem closeGap? {before middle after : List Item} {b : Binding}
    (ha : h.Arranged r { a with permanent := before ++ middle ++ after })
    (hstart : b.start = (Item.bytes before).length)
    (hstop : b.stop = (Item.bytes before).length + (Item.bytes middle).length)
    (hnone : ∀ p ∈ a.places, p.item ∉ middle) :
    ∃ h' r' free, h.closeGap? r b = some (h', r') ∧ h'.capacity = h.capacity ∧
      h'.Arranged r' { a with permanent := before ++ after, free } := by
  have hsize : b.size = (Item.bytes middle).length := by
    rw [Binding.size]
    omega
  have hcap := ha.parts.capacity_eq
  have hperm := ha.permanentEnd_eq
  have htemp := ha.temporaryEnd_eq
  have hscratch := ha.scratchEnd_eq
  simp only [Arrangement.parts, Item.bytes_append, List.length_append] at hcap hperm htemp hscratch
  have hsub : (before ++ after ++ a.temporaries).Sublist
      (before ++ middle ++ after ++ a.temporaries) := by
    simp only [List.append_assoc]
    exact (List.Sublist.refl _).append (List.sublist_append_right _ _)
  have hheld : ∀ p ∈ a.places, p.item ∈ before ++ after ++ a.temporaries := fun p hp => by
    have hmem := ha.held p hp
    have := hnone p hp
    simp only [Arrangement.items, List.mem_append] at hmem ⊢
    tauto
  -- All that lies above the binding moves down over it.
  have hpieces : h.memory.toList = Item.bytes before ++ Item.bytes middle ++
      (Item.bytes after ++ Item.bytes a.temporaries ++ a.scratch) ++ (a.free ++ words
        (a.stack.map (·.position
          (Arrangement.items { a with permanent := before ++ middle ++ after })))) := by
    rw [ha.parts.memory, Parts.bytes, Parts.front]
    simp only [Arrangement.parts, Item.bytes_append, List.append_assoc]
  obtain ⟨m, junk, hcopy, hjunk, hm⟩ := Memory.copy?_down b.stop h.scratchEnd hpieces hstart
    (hstop.trans (congrArg (· + _) hstart.symm))
    (by rw [hscratch, hstop]; simp only [List.length_append]; omega)
  have hs : Stacks { h with memory := m }
      (Item.bytes before ++ (Item.bytes after ++ Item.bytes a.temporaries ++ a.scratch) ++ junk ++
        a.free) (a.stack.map (·.position
          (Arrangement.items { a with permanent := before ++ middle ++ after }))) := by
    refine ⟨by rw [hm]; simp only [List.append_assoc], ?_, ha.parts.fits⟩
    rw [ha.parts.stackStart]
    simp only [Arrangement.parts, Item.bytes_append, List.length_append, hjunk]
    omega
  obtain ⟨memory, r', hshift, hs', hr'⟩ := ha.shiftRoots? (before ++ after ++ a.temporaries) hs
    (by simp only [Item.bytes_append, List.length_append]; omega) (ha.distinct.sublist hsub) hheld
    fun p hp => ha.position_closeGap hstart hstop hp (hnone p hp)
  have hc : Consists
      { h with
        memory
        permanentEnd := h.permanentEnd - b.size
        temporaryEnd := h.temporaryEnd - b.size
        scratchEnd := h.scratchEnd - b.size }
      (Arrangement.parts { a with permanent := before ++ after, free := junk ++ a.free }) := by
    refine ⟨?_, ?_, ?_, ?_, ?_, hs'.fits⟩
    · rw [hs'.memory]
      simp only [Arrangement.parts, Arrangement.items, Parts.bytes, Parts.front, Item.bytes_append,
        List.append_assoc]
    · simp only [Arrangement.parts, Item.bytes_append, List.length_append, hperm, hsize]
      omega
    · simp only [Arrangement.parts, Item.bytes_append, List.length_append, htemp, hsize]
      omega
    · simp only [Arrangement.parts, Item.bytes_append, List.length_append, hscratch, hsize]
      omega
    · refine hs'.stackStart.trans ?_
      simp only [Arrangement.parts, Item.bytes_append, List.length_append]
      omega
  have hsame : memory.size = h.capacity := ha.capacity_of_stacks hs' rfl
  refine ⟨_, r', junk ++ a.free, ?_, ?_, hc, hr', ha.distinct.sublist hsub, hheld,
    hsame.trans_lt ha.capacity⟩
  · rw [Heap.closeGap?, hcopy]
    simp only [Option.bind_eq_bind, Option.bind_some, hshift]
    rw [Word.minus?_eq (by omega), Option.bind_some, Word.minus?_eq (by omega), Option.bind_some,
      Word.minus?_eq (by omega), Option.bind_some, hc.check?_eq]
    rfl
  · exact hsame

/-- Where places lie once items have moved to the end of the temporaries, and copies have taken
their place. -/
theorem position_copyOut {before middle after copies : List Item} {start stop : Nat}
    (ha : h.Arranged r { a with permanent := before ++ middle ++ after })
    (hcopies : Item.bytes copies = Item.bytes middle)
    (hd : Item.Distinct (before ++ copies ++ after ++ (a.temporaries ++ middle)))
    (hstart : start = (Item.bytes before).length)
    (hstop : stop = (Item.bytes before).length + (Item.bytes middle).length) {p : Place}
    (hp : p ∈ a.places) :
    (if Collection.inside (start, stop - start)
        (p.position (Arrangement.items { a with permanent := before ++ middle ++ after }))
      then h.temporaryEnd +
        (p.position (Arrangement.items { a with permanent := before ++ middle ++ after }) - start)
      else p.position (Arrangement.items { a with permanent := before ++ middle ++ after })) =
      p.position (before ++ copies ++ after ++ (a.temporaries ++ middle)) := by
  have hnew : before ++ copies ++ after ++ (a.temporaries ++ middle) =
      before ++ copies ++ (after ++ a.temporaries) ++ middle := by
    simp only [List.append_assoc]
  have hold := ha.distinct
  have hmem := ha.held p hp
  rw [Arrangement.items_split] at hold hmem ⊢
  rw [hnew] at hd ⊢
  have hinside := Place.inside_position_iff hold hmem
  rw [hstop, hstart, Nat.add_sub_cancel_left]
  by_cases hm : p.item ∈ middle
  · have hpos : p.position (before ++ middle ++ (after ++ a.temporaries)) =
        (Item.bytes before).length + p.position middle := by
      rw [Place.position_append_left (List.mem_append_right _ hm),
        Place.position_append_right hold.left hm]
    rw [if_pos (hinside.mpr hm), Place.position_append_right hd hm, hpos,
      Nat.add_sub_cancel_left, ha.temporaryEnd_eq]
    simp only [Item.bytes_append, List.length_append, hcopies]
    omega
  · rw [if_neg (fun hin => hm (hinside.mp hin))]
    simp only [List.mem_append] at hmem
    by_cases hb : p.item ∈ before
    · simp only [List.append_assoc]
      rw [Place.position_append_left hb, Place.position_append_left hb]
    · have hrest : p.item ∈ after ++ a.temporaries := by
        rw [List.mem_append]
        tauto
      rw [Place.position_append_left (List.mem_append_right _ hrest),
        Place.position_append_right hold hrest, Place.position_append_right hd.left hrest]
      simp only [Item.bytes_append, hcopies]

/-- Items of the permanent region move to the end of the temporaries, and copies take their
place that no place lies in. -/
theorem copyOut (before middle after copies : List Item) (b : Binding)
    (ha : h.Arranged r { a with permanent := before ++ middle ++ after })
    (hcopies : Item.bytes copies = Item.bytes middle)
    (hd : Item.Distinct (before ++ copies ++ after ++ (a.temporaries ++ middle)))
    (hfree : (Item.bytes middle).length ≤ a.free.length)
    (hstart : b.start = (Item.bytes before).length)
    (hstop : b.stop = (Item.bytes before).length + (Item.bytes middle).length) :
    ∃ h₁ h' r', h.extend? (Item.bytes middle).length = some (h.temporaryEnd, h₁) ∧
      h₁.redirect? r b h.temporaryEnd = some (h', r') ∧ h'.capacity = h.capacity ∧
      h'.Arranged r'
        { a with
          permanent := before ++ copies ++ after
          temporaries := a.temporaries ++ middle
          free := a.free.drop (Item.bytes middle).length } := by
  obtain ⟨h₁, junk, hextend, hjunk, hc⟩ := ha.parts.extend? (n := (Item.bytes middle).length) hfree
  have hcap₁ := hc.capacity_eq
  have hcap := ha.parts.capacity_eq
  simp only [Arrangement.parts, Item.bytes_append, List.length_append, List.length_drop] at hcap hcap₁
  -- The copy fills the new place among the temporaries.
  have hpieces : h₁.memory.toList = (Item.bytes (before ++ middle ++ after) ++
      Item.bytes a.temporaries) ++ junk ++ (a.scratch ++ a.free.drop (Item.bytes middle).length ++
        words (a.stack.map (·.position
          (Arrangement.items { a with permanent := before ++ middle ++ after })))) := by
    rw [hc.memory, Parts.bytes, Parts.front]
    simp only [Arrangement.parts, List.append_assoc]
  have hslice : h₁.memory.slice b.start b.stop = Item.bytes middle := by
    refine Memory.slice_middle (Item.bytes before) (Item.bytes after ++
      Item.bytes a.temporaries ++ junk ++ (a.scratch ++ a.free.drop (Item.bytes middle).length ++
        words (a.stack.map (·.position
          (Arrangement.items { a with permanent := before ++ middle ++ after }))))) ?_ hstart
      (by rw [hstop, hstart])
    rw [hpieces]
    simp only [Item.bytes_append, List.append_assoc]
  obtain ⟨m, hcopy, hm⟩ := Memory.copy?_middle h.temporaryEnd hpieces
    (by omega) (by show b.stop ≤ h₁.capacity; omega) hslice hjunk.symm
    (by rw [ha.temporaryEnd_eq, List.length_append])
  have hbytes : Item.bytes (before ++ copies ++ after) = Item.bytes (before ++ middle ++ after) := by
    simp only [Item.bytes_append, hcopies]
  have hheld : ∀ p ∈ a.places,
      p.item ∈ before ++ copies ++ after ++ (a.temporaries ++ middle) := fun p hp => by
    have hmem := ha.held p hp
    simp only [Arrangement.items, List.mem_append] at hmem ⊢
    tauto
  have hw := hc.writeTemporaries (x := { (Arrangement.parts
      { a with permanent := before ++ middle ++ after }) with
        free := a.free.drop (Item.bytes middle).length })
    (Item.bytes a.temporaries) (Item.bytes middle) hjunk.symm hm
  obtain ⟨memory, r', hshift, hs, hr'⟩ := ha.shiftRoots?
    (before ++ copies ++ after ++ (a.temporaries ++ middle)) hw.toStacks
    (by simp only [Item.bytes_append, List.length_append, hcopies]; omega) hd hheld
    fun p hp => ha.position_copyOut hcopies hd hstart hstop hp
  have hc' : Consists { h₁ with memory } (Arrangement.parts
      { a with
        permanent := before ++ copies ++ after
        temporaries := a.temporaries ++ middle
        free := a.free.drop (Item.bytes middle).length }) := by
    have := hw.withStack hs
    simpa only [Arrangement.parts, Arrangement.items, hbytes, Item.bytes_append a.temporaries] using this
  have hsame : Heap.capacity { h₁ with memory } = h.capacity := by
    refine ha.capacity_of_stacks hs ?_
    rw [hc.stackStart, ha.parts.stackStart]
    simp only [Arrangement.parts, Item.bytes_append, List.length_append, List.length_drop]
    omega
  exact ⟨h₁, _, r', hextend, by rw [Heap.redirect?, hcopy]; exact hshift, hsame, hc', hr', hd, hheld,
    hsame.trans_lt ha.capacity⟩

/-- Where places lie once there is room for an entry at the end of the permanent region. -/
theorem position_openGap (ha : h.Arranged r a) {e : Entry}
    (hd : Item.Distinct (a.permanent ++ e.items ++ a.temporaries)) {p : Place} (hp : p ∈ a.places) :
    (if Collection.inside (h.permanentEnd, h.scratchEnd - h.permanentEnd) (p.position a.items)
      then h.permanentEnd + e.size + (p.position a.items - h.permanentEnd)
      else p.position a.items) = p.position (a.permanent ++ e.items ++ a.temporaries) := by
  have hscratch := ha.scratchEnd_eq
  have hperm := ha.permanentEnd_eq
  have hmem := ha.held p hp
  have hold : Item.Distinct (a.permanent ++ a.temporaries) := ha.distinct
  rcases List.mem_append.mp hmem with hmem | hmem
  · have hlt := p.position_lt hmem hold.left
    rw [Arrangement.items, List.append_assoc, Place.position_append_left hmem,
      Place.position_append_left hmem, if_neg (by rw [Collection.inside_iff]; omega)]
  · have hlt := p.position_lt hmem hold.right
    have hpos := Place.position_append_right hold hmem
    have hnew := Place.position_append_middle hd hmem
    rw [e.length_bytes_items] at hnew
    rw [Arrangement.items, if_pos (by rw [Collection.inside_iff]; omega)]
    omega

theorem held_entered (ha : h.Arranged r a) (e : Entry) {p : Place} (hp : p ∈ a.places) :
    p.item ∈ a.permanent ++ e.items ++ a.temporaries := by
  have hmem := ha.held p hp
  simp only [Arrangement.items, List.mem_append] at hmem ⊢
  tauto

/-- Objects are still read where they lie, whatever bytes are in the room for an entry. -/
theorem slice_of_gap (ha : h.Arranged r a) {e : Entry} {q : Place}
    (hd : Item.Distinct (a.permanent ++ e.items ++ a.temporaries)) (hq : q ∈ a.places)
    {gap rest : List UInt8} (hgap : gap.length = e.size) {m : Memory}
    (hm : m.toList = Item.bytes a.permanent ++ gap ++ Item.bytes a.temporaries ++ rest) :
    m.slice (q.position (a.permanent ++ e.items ++ a.temporaries))
      (q.position (a.permanent ++ e.items ++ a.temporaries) + q.tree.size) = q.tree.encode := by
  rw [← e.length_bytes_items] at hgap
  obtain ⟨rest', hrest⟩ := Place.encode_at_position_gap hd (ha.held q hq) hgap rest
  rw [Memory.slice_eq, List.drop_take, Nat.add_sub_cancel_left, hm, ← hrest]
  exact List.take_left' rfl

/-- All that lies above the permanent region moves up, and leaves any bytes in the room for an entry. -/
theorem openGap (ha : h.Arranged r a) {e : Entry}
    (hd : Item.Distinct (a.permanent ++ e.items ++ a.temporaries))
    (hfree : e.size ≤ a.free.length) :
    ∃ m memory r' gap, h.memory.copy? h.permanentEnd h.scratchEnd (h.permanentEnd + e.size) = some m ∧
      Heap.shiftRoots?
        { h with
          memory := m
          temporaryEnd := h.temporaryEnd + e.size
          scratchEnd := h.scratchEnd + e.size }
        r h.permanentEnd h.scratchEnd (h.permanentEnd + e.size) = some
          ({ h with
            memory
            temporaryEnd := h.temporaryEnd + e.size
            scratchEnd := h.scratchEnd + e.size }, r') ∧
      gap.length = e.size ∧ Stacks
        { h with
          memory
          temporaryEnd := h.temporaryEnd + e.size
          scratchEnd := h.scratchEnd + e.size }
        (Item.bytes a.permanent ++ gap ++ (Item.bytes a.temporaries ++ a.scratch) ++
          a.free.drop e.size) (a.stack.map (·.position (a.permanent ++ e.items ++ a.temporaries))) ∧
      r'.slots.toList =
        a.slots.map (Option.map (·.position (a.permanent ++ e.items ++ a.temporaries))) := by
  have hcap := ha.parts.capacity_eq
  simp only [Arrangement.parts] at hcap
  have hpieces : h.memory.toList = Item.bytes a.permanent ++
      (Item.bytes a.temporaries ++ a.scratch) ++ a.free ++
        words (a.stack.map (·.position a.items)) := by
    rw [ha.parts.memory, Parts.bytes, Parts.front]
    simp only [Arrangement.parts, List.append_assoc]
  obtain ⟨m, gap, hcopy, hgap, hm⟩ := Memory.copy?_up h.permanentEnd h.scratchEnd hpieces hfree
    ha.permanentEnd_eq
    (by rw [ha.scratchEnd_eq, ha.permanentEnd_eq, List.length_append, Nat.add_assoc]) rfl
  have hs : Stacks
      { h with
        memory := m
        temporaryEnd := h.temporaryEnd + e.size
        scratchEnd := h.scratchEnd + e.size }
      (Item.bytes a.permanent ++ gap ++ (Item.bytes a.temporaries ++ a.scratch) ++
        a.free.drop e.size) (a.stack.map (·.position a.items)) := by
    refine ⟨hm, ?_, ha.parts.fits⟩
    rw [ha.parts.stackStart]
    simp only [Arrangement.parts, List.length_append, List.length_drop, hgap]
    omega
  obtain ⟨memory, r', hshift, hs', hr'⟩ := ha.shiftRoots?
    (a.permanent ++ e.items ++ a.temporaries) hs
    (by simp only [Item.bytes_append, List.length_append, e.length_bytes_items]; omega) hd
    (fun _ hp => ha.held_entered e hp) fun _ hp => ha.position_openGap hd hp
  exact ⟨m, memory, r', gap, hcopy, hshift, hgap, hs', hr'⟩

/-- The room for an entry takes the symbol, and then a copy of the object. -/
theorem fillGap (ha : h.Arranged r a) {e : Entry} {q : Place}
    (hd : Item.Distinct (a.permanent ++ e.items ++ a.temporaries)) (hq : q ∈ a.places)
    (htree : e.object.tree = q.tree) {gap rest : List UInt8} (hgap : gap.length = e.size) {m : Memory}
    (hm : m.toList = Item.bytes a.permanent ++ gap ++ Item.bytes a.temporaries ++ rest) :
    ∃ m₁ m₂, m.write? h.permanentEnd (h.permanentEnd + e.label.tree.encode.length)
        e.label.tree.encode = some m₁ ∧
      m₁.copy? (q.position (a.permanent ++ e.items ++ a.temporaries))
        (q.position (a.permanent ++ e.items ++ a.temporaries) + q.tree.size)
        (h.permanentEnd + e.label.tree.encode.length) = some m₂ ∧
      m₂.toList = Item.bytes (a.permanent ++ e.items) ++ Item.bytes a.temporaries ++ rest := by
  have hsize : e.label.size + q.tree.size = e.size := by
    rw [Entry.size, ← htree]
    rfl
  obtain ⟨label, object, rfl, hlabel, hobject⟩ :=
    Memory.exists_append_of_length (hgap.trans hsize.symm)
  have hpieces : m.toList = Item.bytes a.permanent ++ label ++
      (object ++ Item.bytes a.temporaries ++ rest) := by
    rw [hm]
    simp only [List.append_assoc]
  obtain ⟨m₁, hwrite, hm₁⟩ := Memory.write?_middle h.permanentEnd
    (h.permanentEnd + e.label.tree.encode.length) e.label.tree.encode hpieces hlabel.symm
    ha.permanentEnd_eq (congrArg (_ + ·) hlabel.symm)
  have hmid : m₁.toList = Item.bytes a.permanent ++ (e.label.tree.encode ++ object) ++
      Item.bytes a.temporaries ++ rest := by
    rw [hm₁]
    simp only [List.append_assoc]
  have hslice := ha.slice_of_gap hd hq
    (by rw [List.length_append, hobject]; exact hsize) hmid
  have hend : q.position (a.permanent ++ e.items ++ a.temporaries) + q.tree.size ≤ m₁.size := by
    have hle := q.position_add_size_le (ha.held_entered e hq) hd
    have hlen := congrArg List.length hmid
    rw [Memory.length_toList] at hlen
    simp only [Item.bytes_append, List.length_append, e.length_bytes_items, hobject] at hle hlen
    have hlabel' : e.label.tree.encode.length = e.label.size := rfl
    omega
  have hpieces' : m₁.toList = (Item.bytes a.permanent ++ e.label.tree.encode) ++ object ++
      (Item.bytes a.temporaries ++ rest) := by
    rw [hmid]
    simp only [List.append_assoc]
  obtain ⟨m₂, hcopy, hm₂⟩ := Memory.copy?_middle (h.permanentEnd + e.label.tree.encode.length)
    hpieces' (Nat.le_add_right _ _) hend hslice hobject.symm
    (by rw [List.length_append, ha.permanentEnd_eq])
  refine ⟨m₁, m₂, hwrite, hcopy, ?_⟩
  rw [hm₂]
  simp only [Item.bytes_append, Entry.items, Item.bytes_cons, Item.bytes_nil, htree,
    List.append_assoc, List.append_nil]

theorem bind? (ha : h.Arranged r a) {e : Entry} {q : Place} {p : Pointer}
    (hd : Item.Distinct (a.permanent ++ e.items ++ a.temporaries))
    (hfree : e.size ≤ a.free.length) (hq : a.slots[p.slot]? = some (some q))
    (htree : e.object.tree = q.tree) :
    ∃ h' r', h.bind? r e.label.tree.encode p q.tree.size = some (h', r') ∧
      h'.capacity = h.capacity ∧ h'.Arranged r'
        { a with permanent := a.permanent ++ e.items, free := a.free.drop e.size } := by
  have hsize : e.label.tree.encode.length + q.tree.size = e.size := by
    rw [Entry.size, ← htree]
    rfl
  have hplace : q ∈ a.places :=
    List.mem_append_right _ (List.mem_filterMap.mpr ⟨_, List.mem_of_getElem? hq, rfl⟩)
  obtain ⟨_, m, r', gap, hcopy, hshift, hgap, hs, hr'⟩ := ha.openGap hd hfree
  have hm : m.toList = Item.bytes a.permanent ++ gap ++ Item.bytes a.temporaries ++
      (a.scratch ++ a.free.drop e.size ++
        words (a.stack.map (·.position (a.permanent ++ e.items ++ a.temporaries)))) := by
    rw [hs.memory]
    simp only [List.append_assoc]
  obtain ⟨_, memory, hwrite, hcopy', hmemory⟩ := ha.fillGap hd hplace htree hgap hm
  have hcap := ha.parts.capacity_eq
  simp only [Arrangement.parts] at hcap
  have hc : Consists
      { h with
        memory
        permanentEnd := h.permanentEnd + e.size
        temporaryEnd := h.temporaryEnd + e.size
        scratchEnd := h.scratchEnd + e.size }
      (Arrangement.parts
        { a with permanent := a.permanent ++ e.items, free := a.free.drop e.size }) := by
    refine ⟨?_, ?_, ?_, ?_, ?_, hs.fits⟩
    · rw [hmemory]
      simp only [Arrangement.parts, Arrangement.items, Parts.bytes, Parts.front, List.append_assoc]
    · simp only [Arrangement.parts, Item.bytes_append, List.length_append, e.length_bytes_items,
        ha.permanentEnd_eq]
    · simp only [Arrangement.parts, Item.bytes_append, List.length_append, e.length_bytes_items,
        ha.temporaryEnd_eq]
      omega
    · simp only [Arrangement.parts, Item.bytes_append, List.length_append, e.length_bytes_items,
        ha.scratchEnd_eq]
      omega
    · rw [ha.parts.stackStart]
      simp only [Arrangement.parts, Item.bytes_append, List.length_append, List.length_drop,
        e.length_bytes_items]
      omega
  have hsame : memory.size = h.capacity := ha.capacity_of_stacks hc.toStacks rfl
  have hsource : r'.position? p = some (q.position (a.permanent ++ e.items ++ a.temporaries)) := by
    rw [Registry.position?_eq_map hr', hq]
    rfl
  refine ⟨_, r', ?_, ?_, hc, hr', hd, fun _ hp => ha.held_entered e hp, hsame.trans_lt ha.capacity⟩
  · rw [Heap.bind?, Nat.add_assoc, hsize]
    simp only [Option.bind_eq_bind]
    rw [hcopy, Option.bind_some, hshift]
    simp only [Option.bind_some, hwrite, hsource, hcopy', hc.check?_eq]
    rfl
  · exact hsame

end Heap.Arranged
end RpnMachine
