import RpnMachine.Proofs.Heap.Regions
import RpnMachine.Proofs.Object.Decoding
import RpnMachine.Proofs.Run.WellFormed

/-! Every well-formed memory is laid out like those that runs lead to: its objects are items one
right after the other, and whatever refers to memory is a place in one of them. -/
namespace RpnMachine

namespace Tree

/-- Bytes are those of objects one right after the other in one way only. -/
theorem map_encode_eq_of_encodeAll_eq {ts us : List Tree} (hts : ∀ t ∈ ts, t.Fits)
    (hus : ∀ u ∈ us, u.Fits) (h : encodeAll us = encodeAll ts) : us.map encode = ts.map encode := by
  induction ts generalizing us with
  | nil =>
    cases us with
    | nil => rfl
    | cons u us =>
      have hlen := congrArg List.length h
      have hpos := u.size_pos
      simp only [encodeAll_cons, List.length_append, encodeAll_nil, List.length_nil,
        length_encode] at hlen
      omega
  | cons t ts ih =>
    cases us with
    | nil =>
      have hlen := congrArg List.length h
      have hpos := t.size_pos
      simp only [encodeAll_cons, List.length_append, encodeAll_nil, List.length_nil,
        length_encode] at hlen
      omega
    | cons u us =>
      rw [encodeAll_cons, encodeAll_cons] at h
      obtain ⟨hfirst, hrest⟩ := encode_append_inj (hus u (by simp)) (hts t (by simp)) h
      rw [List.map_cons, List.map_cons, hfirst, ih (fun t ht => hts t (by simp [ht]))
        (fun u hu => hus u (by simp [hu])) hrest]

/-- Where objects start is told by bytes alone. -/
theorem StartsAt.of_map_encode_eq {ts us : List Tree} {position : Nat} {s : Tree}
    (h : StartsAt ts position s) (hts : ∀ t ∈ ts, t.Fits) (he : us.map encode = ts.map encode) :
    ∃ s', StartsAt us position s' := by
  obtain ⟨before, t, after, offset, rfl, hat, rfl⟩ := h
  rw [List.map_append, List.map_cons] at he
  obtain ⟨before', rest, rfl, hbefore, hrest⟩ := List.map_eq_append_iff.mp he
  obtain ⟨t', after', rfl, ht, -⟩ := List.map_eq_cons_iff.mp hrest
  obtain ⟨s', hat', -⟩ := hat.of_encode_eq (hts t (by simp)) ht
  have hlen : encodeAll before' = encodeAll before := by
    rw [encodeAll_eq_flatten, hbefore, ← encodeAll_eq_flatten]
  exact ⟨s', before', t', after', offset, rfl, hat', by rw [hlen]⟩

end Tree

namespace Item

/-- Objects as items with numbers from `first` on. -/
def numbered (first : Nat) : List Tree → List Item
  | [] => []
  | t :: ts => ⟨first, t⟩ :: numbered (first + 1) ts

theorem map_tree_numbered (first : Nat) (ts : List Tree) : (numbered first ts).map tree = ts := by
  induction ts generalizing first with
  | nil => rfl
  | cons t ts ih => rw [numbered, List.map_cons, ih]

theorem distinct_numbered (first : Nat) (ts : List Tree) : Distinct (numbered first ts) := by
  have hids : (numbered first ts).map id = List.range' first ts.length := by
    induction ts generalizing first with
    | nil => rfl
    | cons t ts ih => rw [numbered, List.map_cons, ih, List.length_cons, List.range'_succ]
  rw [Distinct, hids]
  exact List.nodup_range'

theorem numbered_append (first : Nat) (ts us : List Tree) :
    numbered first (ts ++ us) = numbered first ts ++ numbered (first + ts.length) us := by
  induction ts generalizing first with
  | nil => rfl
  | cons t ts ih =>
    rw [List.cons_append, numbered, ih, numbered, List.cons_append, List.length_cons,
      Nat.add_assoc, Nat.add_comm 1]

end Item

theorem Place.exists_of_startsAt {items : List Item} (hd : Item.Distinct items) {position : Nat}
    {s : Tree} (h : Tree.StartsAt (items.map Item.tree) position s) :
    ∃ q : Place, q.item ∈ items ∧ q.position items = position := by
  obtain ⟨before, t, after, offset, he, hat, rfl⟩ := h
  obtain ⟨ibefore, irest, rfl, rfl, hrest⟩ := List.map_eq_append_iff.mp he
  obtain ⟨i, iafter, rfl, rfl, -⟩ := List.map_eq_cons_iff.mp hrest
  refine ⟨⟨i, offset, s, hat⟩, by simp, ?_⟩
  rw [Place.position, Item.start_eq_length hd, Item.bytes_eq_encodeAll]

/-- A list all of whose elements are images is the image of a list. -/
theorem exists_map_eq {α β : Type} {f : α → β} {P : α → Prop} {bs : List β}
    (h : ∀ b ∈ bs, ∃ a, P a ∧ f a = b) : ∃ as : List α, as.map f = bs ∧ ∀ a ∈ as, P a := by
  induction bs with
  | nil => exact ⟨[], rfl, by simp⟩
  | cons b bs ih =>
    obtain ⟨a, ha, rfl⟩ := h b (by simp)
    obtain ⟨as, rfl, has⟩ := ih fun b hb => h b (by simp [hb])
    exact ⟨a :: as, rfl, by simpa using ⟨ha, has⟩⟩

namespace Machine

variable {m : Machine} {ts : List Tree}

/-- The temporaries can be taken for any objects with their bytes. -/
theorem WellFormed.exists_tiled (hm : m.WellFormed)
    (hc : m.heap.capacity < Word.bound Heap.slotSize)
    (hts : m.heap.temporaries = Tree.encodeAll ts) :
    ∃ entries, m.heap.permanent = Tree.encodeAll (Tree.named entries) ∧
      (entries.map Prod.fst).Nodup ∧ (∀ e ∈ entries, e.1 ≠ "") ∧
      ∀ position ∈ m.roots, ∃ s, Tree.StartsAt (Tree.named entries ++ ts) position s := by
  have hcapacity := (Heap.consists_of_le hm.permanentEnd_le hm.temporaryEnd_le hm.scratchEnd_le
    hm.stackStart_le hm.aligned).capacity_eq
  simp only at hcapacity
  obtain ⟨entries, us, hpermanent, hnodup, hnames, hus, hroots⟩ := hm.tiled
  have hfits {l : List Tree} (hl : (Tree.encodeAll l).length ≤ m.heap.capacity) :
      ∀ t ∈ l, t.Fits := fun t ht =>
    ((Tree.size_le_of_mem ht).trans hl).trans_lt (hc.trans (by decide))
  have htemporaries : us.map Tree.encode = ts.map Tree.encode := by
    refine Tree.map_encode_eq_of_encodeAll_eq (hfits ?_) (hfits ?_) (hus.symm.trans hts)
    · rw [← hts]
      omega
    · rw [← hus]
      omega
  refine ⟨entries, hpermanent, hnodup, hnames, fun position hposition => ?_⟩
  obtain ⟨s, hs, -⟩ := hroots position hposition
  refine hs.of_map_encode_eq (hfits ?_) (by rw [List.map_append, List.map_append, htemporaries])
  rw [Tree.encodeAll_append, ← hpermanent, ← hus, List.length_append]
  omega

theorem WellFormed.exists_arranged (hm : m.WellFormed)
    (hc : m.heap.capacity < Word.bound Heap.slotSize)
    (hts : m.heap.temporaries = Tree.encodeAll ts) :
    ∃ a entries, m.heap.Arranged m.registry a ∧ a.temporaries.map Item.tree = ts ∧
      a.permanent.map Item.tree = Tree.named entries ∧ (entries.map Prod.fst).Nodup ∧
      ∀ e ∈ entries, e.1 ≠ "" := by
  have hparts := Heap.consists_of_le hm.permanentEnd_le hm.temporaryEnd_le hm.scratchEnd_le
    hm.stackStart_le hm.aligned
  obtain ⟨entries, hpermanent, hnodup, hnames, hroots⟩ := hm.exists_tiled hc hts
  let permanent := Item.numbered 0 (Tree.named entries)
  let temporaries := Item.numbered (Tree.named entries).length ts
  have hitems : permanent ++ temporaries = Item.numbered 0 (Tree.named entries ++ ts) := by
    rw [Item.numbered_append, Nat.zero_add]
  have hd : Item.Distinct (permanent ++ temporaries) := hitems ▸ Item.distinct_numbered _ _
  have hplace : ∀ position ∈ m.roots, ∃ q : Place, q.item ∈ permanent ++ temporaries ∧
      q.position (permanent ++ temporaries) = position := fun position hposition => by
    obtain ⟨s, hs⟩ := hroots position hposition
    refine Place.exists_of_startsAt hd (s := s) ?_
    rwa [hitems, Item.map_tree_numbered]
  obtain ⟨stack, hstack, hstackHeld⟩ := exists_map_eq fun position hposition =>
    hplace position (List.mem_append_left m.registry.positions hposition)
  -- A vacant slot holds no place.
  have hslot : ∀ slot ∈ m.registry.slots.toList, ∃ place : Option Place,
      (∀ q ∈ place, q.item ∈ permanent ++ temporaries) ∧
        place.map (·.position (permanent ++ temporaries)) = slot := fun slot hslot => by
    cases slot with
    | none => exact ⟨none, by simp, rfl⟩
    | some position =>
      obtain ⟨q, hq, rfl⟩ := hplace position (List.mem_append_right _
        (List.mem_filterMap.mpr ⟨_, hslot, rfl⟩))
      exact ⟨some q, by simpa using hq, rfl⟩
  obtain ⟨slots, hslots, hslotsHeld⟩ := exists_map_eq hslot
  let a : Arrangement :=
    { permanent, temporaries, stack, slots
      scratch := m.heap.scratchpad
      free := m.heap.memory.slice m.heap.scratchEnd m.heap.stackStart }
  have haparts : a.parts =
      { permanent := m.heap.permanent
        temporaries := m.heap.temporaries
        scratch := m.heap.scratchpad
        free := m.heap.memory.slice m.heap.scratchEnd m.heap.stackStart
        stack := m.heap.stack } := by
    simp only [Arrangement.parts, Arrangement.items, a, Item.bytes_eq_encodeAll, permanent,
      temporaries, Item.map_tree_numbered, hpermanent, hts, Heap.Parts.mk.injEq, true_and]
    exact hstack
  refine ⟨a, entries, ⟨haparts ▸ hparts, hslots.symm, hd, fun q hq => ?_, hc⟩,
    Item.map_tree_numbered _ _, Item.map_tree_numbered _ _, hnodup, hnames⟩
  rcases List.mem_append.mp hq with hq | hq
  · exact hstackHeld q hq
  · obtain ⟨slot, hslot, hid⟩ := List.mem_filterMap.mp hq
    exact hslotsHeld slot hslot q hid

end Machine
end RpnMachine
