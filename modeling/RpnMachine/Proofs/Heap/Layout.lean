import RpnMachine.Heap.Collection
import RpnMachine.Proofs.Heap.Parts
import RpnMachine.Proofs.Object.Tree

/-! Where objects lie that follow one another, and what happens to places in them when objects come
in between, go away, or move to the end. -/
namespace RpnMachine

/-- An object of its own, told apart from others of the same content by its number. -/
structure Item where
  id : Nat
  tree : Tree

/-- An object at some offset in an item, or the item's object itself. -/
structure Place where
  item : Item
  offset : Nat
  tree : Tree
  held : item.tree.At offset tree

namespace Item

def size (i : Item) : Nat := i.tree.size

def bytes (items : List Item) : List UInt8 := items.flatMap (·.tree.encode)

def start (id : Nat) : List Item → Nat
  | [] => 0
  | i :: items => if i.id = id then 0 else i.size + start id items

def Distinct (items : List Item) : Prop := (items.map id).Nodup

@[simp] theorem bytes_nil : bytes [] = [] := rfl

@[simp] theorem bytes_cons (i : Item) (items : List Item) :
    bytes (i :: items) = i.tree.encode ++ bytes items := rfl

@[simp] theorem bytes_append (items others : List Item) :
    bytes (items ++ others) = bytes items ++ bytes others := by
  simp [bytes]

theorem bytes_eq_encodeAll (items : List Item) :
    bytes items = Tree.encodeAll (items.map tree) := by
  rw [Tree.encodeAll_eq, List.flatMap_map]
  rfl

theorem length_bytes_cons (i : Item) (items : List Item) :
    (bytes (i :: items)).length = i.size + (bytes items).length := by
  rw [bytes_cons, List.length_append]
  rfl

theorem start_append_of_mem {id : Nat} {items : List Item} (h : id ∈ items.map Item.id)
    (others : List Item) : start id (items ++ others) = start id items := by
  induction items with
  | nil => simp at h
  | cons i items ih =>
    rw [List.cons_append, start, start]
    split_ifs with hi
    · rfl
    · rw [List.map_cons, List.mem_cons] at h
      rw [ih (h.resolve_left (Ne.symm hi))]

theorem start_append_of_not_mem {id : Nat} {items : List Item} (h : id ∉ items.map Item.id)
    (others : List Item) : start id (items ++ others) = (bytes items).length + start id others := by
  induction items with
  | nil => simp
  | cons i items ih =>
    rw [List.map_cons, List.mem_cons, not_or] at h
    rw [List.cons_append, start, if_neg (Ne.symm h.1), ih h.2, length_bytes_cons, Nat.add_assoc]

theorem Distinct.not_mem {items others : List Item} (h : Distinct (items ++ others)) {i : Item}
    (hi : i ∈ others) : i.id ∉ items.map id := by
  intro hmem
  rw [Distinct, List.map_append, List.nodup_append] at h
  exact h.2.2 _ hmem _ (List.mem_map_of_mem hi) rfl

theorem Distinct.left {items others : List Item} (h : Distinct (items ++ others)) :
    Distinct items := by
  rw [Distinct, List.map_append, List.nodup_append] at h
  exact h.1

theorem Distinct.right {items others : List Item} (h : Distinct (items ++ others)) :
    Distinct others := by
  rw [Distinct, List.map_append, List.nodup_append] at h
  exact h.2.1

theorem Distinct.sublist {items others : List Item} (h : Distinct others)
    (hs : items.Sublist others) : Distinct items := List.Nodup.sublist (hs.map id) h

theorem Distinct.perm {items others : List Item} (h : Distinct items)
    (hp : items.Perm others) : Distinct others := (hp.map id).nodup_iff.mp h

theorem Distinct.eq_of_id_eq {items : List Item} (h : Distinct items) {i j : Item}
    (hi : i ∈ items) (hj : j ∈ items) (e : i.id = j.id) : i = j :=
  List.inj_on_of_nodup_map h hi hj e

theorem start_eq_length {before after : List Item} {i : Item}
    (h : Distinct (before ++ i :: after)) :
    start i.id (before ++ i :: after) = (bytes before).length := by
  rw [start_append_of_not_mem (h.not_mem (by simp)), start, if_pos rfl, Nat.add_zero]

end Item

namespace Place

/-- Where a place lies, if items lie one right after the other from position zero on. -/
def position (items : List Item) (p : Place) : Nat := Item.start p.item.id items + p.offset

variable {p : Place}

theorem offset_lt (p : Place) : p.offset < p.item.size := p.held.lt_size

theorem position_append_left {items : List Item} (h : p.item ∈ items) (others : List Item) :
    p.position (items ++ others) = p.position items := by
  rw [position, position, Item.start_append_of_mem (List.mem_map_of_mem h)]

theorem position_append_right {items others : List Item} (h : Item.Distinct (items ++ others))
    (hp : p.item ∈ others) :
    p.position (items ++ others) = (Item.bytes items).length + p.position others := by
  rw [position, position, Item.start_append_of_not_mem (h.not_mem hp), Nat.add_assoc]

theorem encode_at_position {items : List Item} (hp : p.item ∈ items) (h : Item.Distinct items)
    (rest : List UInt8) :
    p.tree.encode <+: (Item.bytes items ++ rest).drop (p.position items) := by
  obtain ⟨before, after, rfl⟩ := List.append_of_mem hp
  obtain ⟨inner, outer, hlen, he⟩ := p.held.encode_eq_append
  have hb : Item.bytes (before ++ p.item :: after) ++ rest =
      (Item.bytes before ++ inner) ++ (p.tree.encode ++ (outer ++ Item.bytes after ++ rest)) := by
    rw [Item.bytes_append, Item.bytes_cons, he]
    simp only [List.append_assoc]
  rw [position, Item.start_eq_length h, hb, ← hlen, ← List.length_append, List.drop_left]
  exact List.prefix_append _ _

theorem position_add_size_le {items : List Item} (hp : p.item ∈ items) (h : Item.Distinct items) :
    p.position items + p.tree.size ≤ (Item.bytes items).length := by
  have := (encode_at_position hp h []).length_le
  simp only [List.append_nil, Tree.length_encode, List.length_drop] at this
  have := p.tree.size_pos
  omega

theorem position_lt {items : List Item} (hp : p.item ∈ items) (h : Item.Distinct items) :
    p.position items < (Item.bytes items).length := by
  have := position_add_size_le hp h
  have := p.tree.size_pos
  omega

/-- A position tells which part of the items a place lies in. -/
theorem inside_position_iff {before middle after : List Item}
    (h : Item.Distinct (before ++ middle ++ after)) (hp : p.item ∈ before ++ middle ++ after) :
    Collection.inside ((Item.bytes before).length, (Item.bytes middle).length)
      (p.position (before ++ middle ++ after)) ↔ p.item ∈ middle := by
  rw [Collection.inside_iff]
  simp only [List.append_assoc, List.mem_append] at hp
  rcases hp with hp | hp | hp
  · have hlt := position_lt hp h.left.left
    have hnot : p.item ∉ middle := fun hm => h.left.not_mem hm (List.mem_map_of_mem hp)
    rw [List.append_assoc, position_append_left hp]
    simp only [hnot, iff_false]
    omega
  · have hlt := position_lt hp h.left.right
    rw [position_append_left (by simp [hp]), position_append_right h.left hp]
    simp only [hp, iff_true]
    omega
  · have hnot : p.item ∉ middle := fun hm =>
      h.not_mem hp (List.mem_map_of_mem (List.mem_append_right _ hm))
    rw [position_append_right h hp, Item.bytes_append, List.length_append]
    simp only [hnot, iff_false]
    omega

end Place

namespace Registry

/-- Slots that are moved one after the other, when those before them have been moved already. -/
theorem foldlM_set? {f : Nat → Option Nat} {g : Nat → Nat} (moved rest : List (Option Nat))
    {r : Registry} (hr : r.slots.toList = moved ++ rest)
    (hf : ∀ n, some n ∈ rest → f n = some (g n)) :
    ((rest.zipIdx moved.length).filterMap fun s => s.1.map fun position => (s.2, position)).foldlM
      (fun r s => do r.set? ⟨s.1⟩ (← f s.2)) r =
      some { r with slots := (moved ++ rest.map (Option.map g)).toArray } := by
  induction rest generalizing moved r with
  | nil =>
    rw [List.append_nil] at hr
    rw [List.map_nil, List.append_nil, ← hr]
    rfl
  | cons a rest ih =>
    have hnext (r : Registry) (hr : r.slots.toList = (moved ++ [a.map g]) ++ rest) :=
      ih (moved ++ [a.map g]) hr fun n hn => hf n (List.mem_cons_of_mem _ hn)
    simp only [List.length_append, List.length_singleton] at hnext
    rw [List.map_cons, List.append_cons, List.zipIdx_cons]
    cases a with
    | none =>
      rw [List.append_cons] at hr
      exact hnext r hr
    | some n =>
      have hsize : moved.length < r.slots.size := by
        rw [← Array.length_toList, hr, List.length_append, List.length_cons]
        omega
      rw [List.filterMap_cons, Option.map_some, List.foldlM_cons, hf n List.mem_cons_self]
      simp only [Option.bind_eq_bind, Option.bind_some]
      rw [set?, dif_pos hsize, Option.bind_some]
      refine hnext _ ?_
      rw [Array.toList_set, hr, List.set_append_right _ _ (le_refl _), Nat.sub_self,
        List.set_cons_zero, ← List.append_cons]
      rfl

theorem move?_eq {r : Registry} {f : Nat → Option Nat} {g : Nat → Nat}
    (hf : ∀ n ∈ r.positions, f n = some (g n)) :
    r.move? f = some { r with slots := r.slots.map (Option.map g) } := by
  have hmoved := foldlM_set? [] r.slots.toList (r := r) rfl fun n hn =>
    hf n (List.mem_filterMap.mpr ⟨_, hn, rfl⟩)
  rw [List.nil_append, ← Array.toList_map] at hmoved
  exact hmoved

theorem positions_eq {r : Registry} {slots : List (Option Place)} {f : Place → Nat}
    (h : r.slots.toList = slots.map (Option.map f)) :
    r.positions = (slots.filterMap id).map f := by
  rw [positions, h, List.filterMap_map, List.map_filterMap]
  rfl

theorem position?_eq (r : Registry) (p : Pointer) :
    r.position? p = (r.slots.toList[p.slot]?).join := by
  simp [position?]

theorem position?_eq_map {α : Type} {r : Registry} {slots : List (Option α)} {f : α → Nat}
    (h : r.slots.toList = slots.map (Option.map f)) (p : Pointer) :
    r.position? p = (slots[p.slot]?).join.map f := by
  rw [position?_eq, h, List.getElem?_map]
  cases slots[p.slot]? <;> rfl

end Registry

/-- Items and bytes in the regions of a heap, and the places that are referred to. -/
structure Arrangement where
  permanent : List Item
  temporaries : List Item
  scratch : List UInt8
  free : List UInt8
  stack : List Place
  slots : List (Option Place)

namespace Arrangement

def items (a : Arrangement) : List Item := a.permanent ++ a.temporaries

def places (a : Arrangement) : List Place := a.stack ++ a.slots.filterMap id

def parts (a : Arrangement) : Heap.Parts where
  permanent := Item.bytes a.permanent
  temporaries := Item.bytes a.temporaries
  scratch := a.scratch
  free := a.free
  stack := a.stack.map (·.position a.items)

end Arrangement

/-- `h.Arranged r a`: the heap consists of the arrangement's parts, and the registry holds the
positions of its places. -/
structure Heap.Arranged (h : Heap) (r : Registry) (a : Arrangement) : Prop where
  parts : h.Consists a.parts
  registered : r.slots.toList = a.slots.map (Option.map (·.position a.items))
  distinct : Item.Distinct a.items
  held : ∀ p ∈ a.places, p.item ∈ a.items
  /-- Positions fit into the levels of the stack. -/
  capacity : h.capacity < Word.bound Heap.slotSize

namespace Heap.Arranged

variable {h : Heap} {r : Registry} {a : Arrangement}

theorem permanentEnd_eq (ha : h.Arranged r a) :
    h.permanentEnd = (Item.bytes a.permanent).length := ha.parts.permanentEnd

theorem temporaryEnd_eq (ha : h.Arranged r a) : h.temporaryEnd =
    (Item.bytes a.permanent).length + (Item.bytes a.temporaries).length := ha.parts.temporaryEnd

theorem scratchEnd_eq (ha : h.Arranged r a) : h.scratchEnd = (Item.bytes a.permanent).length +
    (Item.bytes a.temporaries).length + a.scratch.length := ha.parts.scratchEnd

theorem length_bytes_items (a : Arrangement) : (Item.bytes a.items).length =
    (Item.bytes a.permanent).length + (Item.bytes a.temporaries).length := by
  rw [Arrangement.items, Item.bytes_append, List.length_append]

theorem capacity_eq (ha : h.Arranged r a) : h.capacity = (Item.bytes a.items).length +
    a.scratch.length + a.free.length + slotSize * a.stack.length := by
  rw [ha.parts.capacity_eq, length_bytes_items]
  simp only [Arrangement.parts, List.length_map]

theorem fits_of_mem (ha : h.Arranged r a) {i : Item} (hi : i ∈ a.items) : i.tree.Fits := by
  have hcap := ha.capacity_eq
  have hsize : i.tree.size ≤ (Item.bytes a.items).length := by
    rw [Item.bytes_eq_encodeAll]
    exact Tree.size_le_of_mem (List.mem_map_of_mem hi)
  have hle : i.tree.size ≤ h.capacity := by omega
  exact hle.trans_lt (ha.capacity.trans (by decide))

theorem fits_place (ha : h.Arranged r a) {p : Place} (hp : p.item ∈ a.items) : p.tree.Fits :=
  lt_of_le_of_lt ((Nat.le_add_left _ _).trans p.held.add_size_le) (ha.fits_of_mem hp)

theorem position_lt (ha : h.Arranged r a) {p : Place} (hp : p.item ∈ a.items) :
    p.position a.items < Word.bound slotSize := by
  have hlt := p.position_lt hp ha.distinct
  have hcap := ha.capacity_eq
  exact lt_trans (by omega) ha.capacity

theorem position_add_size_le (ha : h.Arranged r a) {p : Place} (hp : p.item ∈ a.items) :
    p.position a.items + p.tree.size ≤ h.capacity := by
  have hle := p.position_add_size_le hp ha.distinct
  rw [ha.capacity_eq]
  omega

theorem roots_eq (ha : h.Arranged r a) :
    h.stack ++ r.positions = a.places.map (·.position a.items) := by
  rw [ha.parts.stack_eq, Registry.positions_eq ha.registered, Arrangement.places, List.map_append]
  rfl

theorem roots?_eq (ha : h.Arranged r a) :
    h.roots? r = some (a.places.map (·.position a.items)) := by
  rw [← ha.roots_eq, ha.parts.stack_eq, roots?, ha.parts.stack?_eq]
  rfl

theorem encode_at_position (ha : h.Arranged r a) {p : Place} (hp : p.item ∈ a.items) :
    p.tree.encode <+: h.memory.toList.drop (p.position a.items) := by
  have := p.encode_at_position hp ha.distinct
    (a.scratch ++ a.free ++ Heap.words (a.stack.map (·.position a.items)))
  rw [ha.parts.memory, Heap.Parts.bytes, Heap.Parts.front]
  simpa [Arrangement.parts, Arrangement.items] using this

/-- A place goes to the top of the stack, and those above it one level down. -/
theorem roll? (ha : h.Arranged r a) {n : Nat} (hn : n < a.stack.length) :
    ∃ h', h.roll? n = some h' ∧ h'.capacity = h.capacity ∧ h'.Arranged r
      { a with stack := a.stack[n] :: a.stack.take n ++ a.stack.drop (n + 1) } := by
  obtain ⟨memory, hroll, hc⟩ := ha.parts.roll? (n := n) (by rwa [Arrangement.parts, List.length_map])
  have hcap : { h with memory }.capacity = h.capacity := by
    rw [hc.capacity_eq, ha.parts.capacity_eq]
    simp only [Arrangement.parts, List.length_append, List.length_cons, List.length_take,
      List.length_drop, List.length_map]
    congr 2
    omega
  have hparts : { h with memory }.Consists
      { a with stack := a.stack[n] :: a.stack.take n ++ a.stack.drop (n + 1) }.parts := by
    simpa [Arrangement.parts, Arrangement.items] using hc
  refine ⟨_, hroll, hcap, hparts, ha.registered, ha.distinct, fun p hp => ha.held p ?_,
    hcap.trans_lt ha.capacity⟩
  refine List.mem_append.mpr ((List.mem_append.mp hp).imp_left fun hp => ?_)
  rcases List.mem_append.mp hp with hp | hp
  · rcases List.mem_cons.mp hp with rfl | hp
    · exact List.getElem_mem hn
    · exact List.mem_of_mem_take hp
  · exact List.mem_of_mem_drop hp

/-- Items lie elsewhere now, and `f` moves every place along. The stack holds the positions from
before until then. -/
theorem moveRoots? (ha : h.Arranged r a) {h' : Heap} {front : List UInt8} (items : List Item)
    {f : Nat → Option Nat} (hs : h'.Stacks front (a.stack.map (·.position a.items)))
    (hle : (Item.bytes items).length ≤ h.capacity) (hd : Item.Distinct items)
    (hheld : ∀ p ∈ a.places, p.item ∈ items)
    (hf : ∀ p ∈ a.places, f (p.position a.items) = some (p.position items)) :
    ∃ memory r', h'.moveRoots? r f = some ({ h' with memory }, r') ∧
      Stacks { h' with memory } front (a.stack.map (·.position items)) ∧
        r'.slots.toList = a.slots.map (Option.map (·.position items)) := by
  let g (n : Nat) : Nat := (f n).getD 0
  have hg : ∀ p ∈ a.places, g (p.position a.items) = p.position items := fun p hp => by
    simp only [g, hf p hp, Option.getD_some]
  have hfg : ∀ p ∈ a.places, f (p.position a.items) = some (g (p.position a.items)) :=
    fun p hp => (hf p hp).trans (congrArg some (hg p hp).symm)
  obtain ⟨memory, hmap, hs'⟩ := hs.mapStack? (f := f) (g := g)
    (fun q hq => by
      obtain ⟨p, hp, rfl⟩ := List.mem_map.mp hq
      exact hfg p (List.mem_append_left _ hp))
    (fun q hq => by
      obtain ⟨p, hp, rfl⟩ := List.mem_map.mp hq
      have hp' : p ∈ a.places := List.mem_append_left _ hp
      have hlt := p.position_lt (hheld p hp') hd
      rw [hg p hp']
      exact lt_trans (by omega) ha.capacity)
  have hmove : r.move? f = some { r with slots := r.slots.map (Option.map g) } := by
    refine Registry.move?_eq fun n hn => ?_
    rw [Registry.positions_eq ha.registered] at hn
    obtain ⟨p, hp, rfl⟩ := List.mem_map.mp hn
    exact hfg p (List.mem_append_right _ hp)
  refine ⟨memory, { r with slots := r.slots.map (Option.map g) }, ?_, ?_, ?_⟩
  · rw [Heap.moveRoots?, hmap, hmove]
    rfl
  · have hstack : (a.stack.map (·.position a.items)).map g = a.stack.map (·.position items) := by
      rw [List.map_map]
      exact List.map_congr_left fun p hp => hg p (List.mem_append_left _ hp)
    rwa [hstack] at hs'
  · rw [Array.toList_map, ha.registered, List.map_map]
    refine List.map_congr_left fun slot hslot => ?_
    cases slot with
    | none => rfl
    | some p =>
      exact congrArg some (hg p (List.mem_append_right _ (List.mem_filterMap.mpr ⟨_, hslot, rfl⟩)))

/-- The memory is as large as before where the stack starts where it did. -/
theorem capacity_of_stacks (ha : h.Arranged r a) {h' : Heap} {front : List UInt8}
    {items : List Item} (hs : h'.Stacks front (a.stack.map (·.position items)))
    (hstart : h'.stackStart = h.stackStart) : h'.capacity = h.capacity := by
  rw [hs.capacity_eq, ha.parts.capacity_eq_stackStart_add, hstart, Arrangement.parts,
    List.length_map, List.length_map]

end Heap.Arranged
end RpnMachine
