import RpnMachine.Proofs.Heap.Binding
import RpnMachine.Proofs.Heap.Collection
import RpnMachine.Proofs.Machine.Exec

/-! What a machine holds, apart from where it lies. An image keeps every temporary that was ever
made; a machine that represents it has at least those that something refers to. -/
namespace RpnMachine

def vacate {α : Type} (slots : List (Option α)) (i : Nat) : List (Option α) :=
  (slots.set i none).rdropWhile Option.isNone

/-- The last slot is taken. -/
def Trimmed {α : Type} (slots : List (Option α)) : Prop :=
  slots.rdropWhile Option.isNone = slots

section Slots

variable {α β : Type} {base : List (Option α)}

theorem trimmed_vacate (slots : List (Option α)) (i : Nat) : Trimmed (vacate slots i) :=
  List.rdropWhile_idempotent _ _

theorem Trimmed.append_some (base : List (Option α)) (a : α) : Trimmed (base ++ [some a]) := by
  rw [Trimmed, List.rdropWhile_concat_neg _ _ _ (by simp)]

theorem trimmed_nil : Trimmed ([] : List (Option α)) := rfl

/-- Slots that are taken are not dropped. -/
theorem getElem?_rdropWhile_isNone {slots : List (Option α)} {i : Nat} {a : α}
    (h : slots[i]? = some (some a)) : (slots.rdropWhile Option.isNone)[i]? = some (some a) := by
  induction slots using List.reverseRecOn with
  | nil => cases h
  | append_singleton slots b ih =>
    cases b with
    | some b => rwa [List.rdropWhile_concat_neg _ _ _ (by simp)]
    | none =>
      rw [List.rdropWhile_concat_pos _ _ _ (by simp)]
      refine ih ?_
      rw [List.getElem?_append] at h
      split_ifs at h with hi
      · exact h
      · rw [List.getElem?_singleton] at h
        split_ifs at h
        cases h

theorem rdropWhile_isNone_map (f : α → β) (slots : List (Option α)) :
    (slots.map (Option.map f)).rdropWhile Option.isNone =
      (slots.rdropWhile Option.isNone).map (Option.map f) := by
  induction slots using List.reverseRecOn with
  | nil => rfl
  | append_singleton slots a ih =>
    rw [List.map_append, List.map_singleton]
    cases a with
    | none =>
      rw [List.rdropWhile_concat_pos _ _ _ (by simp), List.rdropWhile_concat_pos _ _ _ (by simp),
        ih]
    | some a =>
      rw [List.rdropWhile_concat_neg _ _ _ (by simp), List.rdropWhile_concat_neg _ _ _ (by simp),
        List.map_append, List.map_singleton]

theorem vacate_map (f : α → β) (slots : List (Option α)) (i : Nat) :
    vacate (slots.map (Option.map f)) i = (vacate slots i).map (Option.map f) := by
  rw [vacate, ← Option.map_none f, ← List.map_set, rdropWhile_isNone_map]
  rfl

/-- Slots on top of others, the first `n` of which are given back already. -/
def pending (base : List (Option α)) (n : Nat) : List α → List (Option α)
  | [] => base
  | a :: as => base ++ List.replicate n none ++ (a :: as).map some

theorem vacate_pending (hb : Trimmed base) (n : Nat) (a : α) (as : List α) :
    vacate (pending base n (a :: as)) (base.length + n) = pending base (n + 1) as := by
  have hset : (pending base n (a :: as)).set (base.length + n) none =
      base ++ List.replicate (n + 1) none ++ as.map some := by
    rw [pending, List.map_cons, List.set_append_right _ _ (by simp), List.replicate_succ']
    simp
  rw [vacate, hset]
  induction as using List.reverseRecOn with
  | nil =>
    rw [List.map_nil, List.append_nil, pending]
    clear hset
    induction n + 1 with
    | zero => rw [List.replicate_zero, List.append_nil]; exact hb
    | succ n ih =>
      rw [List.replicate_succ', ← List.append_assoc, List.rdropWhile_concat_pos _ _ _ (by simp), ih]
  | append_singleton as b _ =>
    rw [List.map_append, List.map_singleton, ← List.append_assoc,
      List.rdropWhile_concat_neg _ _ _ (by simp)]
    cases as <;> simp [pending]

end Slots

namespace Registry

theorem toList_slots_register (r : Registry) (position : Nat) :
    (r.register position).2.slots.toList = r.slots.toList ++ [some position] := by
  simp [register]

theorem toList_slots_release? {r r' : Registry} {p : Pointer} (h : r.release? p = some r') :
    r'.slots.toList = vacate r.slots.toList p.slot := by
  rw [release?] at h
  split_ifs at h
  cases h
  obtain ⟨⟨slots⟩, peak⟩ := r
  simp [vacate, List.rdropWhile]

theorem exists_release? {r : Registry} {p : Pointer} (hp : p.slot < r.slots.toList.length) :
    ∃ r', r.release? p = some r' ∧ r'.slots.toList = vacate r.slots.toList p.slot :=
  ⟨_, dif_pos hp, toList_slots_release? (dif_pos hp)⟩

end Registry

structure Image where
  /-- In the order in which they were stored. -/
  directory : List Entry
  /-- Every temporary that was ever made. -/
  temporaries : List Item
  scratch : List UInt8
  /-- The top first. -/
  stack : List Place
  slots : List (Option Place)
  /-- No item has this number or a larger one. -/
  fresh : Nat
  interrupted : Bool
  nesting : Nat

namespace Image

def permanent (v : Image) : List Item := v.directory.flatMap Entry.items

def places (v : Image) : List Place := v.stack ++ v.slots.filterMap id

def live (v : Image) : List Item := v.temporaries.filter (Item.isHeld v.places)

/-- The bytes that are taken right after a collection. -/
def used (v : Image) : Nat :=
  (Item.bytes v.permanent).length + (Item.bytes v.live).length + v.scratch.length +
    Heap.slotSize * v.stack.length

/-- What a pointer refers to. -/
def deref (v : Image) (p : Pointer) : Option Place := (v.slots[p.slot]?).join

structure Valid (v : Image) : Prop where
  distinct : Item.Distinct (v.permanent ++ v.temporaries)
  fresh : ∀ i ∈ v.permanent ++ v.temporaries, i.id < v.fresh
  labelled : ∀ e ∈ v.directory, e.Labelled ∧ e.name ≠ ""
  names : (v.directory.map Entry.name).Nodup
  trimmed : Trimmed v.slots

/-- The scratchpad, the stack, the interrupt and the nesting do not matter. -/
theorem Valid.withRest {v : Image} (h : v.Valid) (scratch : List UInt8) (stack : List Place)
    (interrupted : Bool) (nesting : Nat) :
    Valid { v with scratch, stack, interrupted, nesting } :=
  ⟨h.distinct, h.fresh, h.labelled, h.names, h.trimmed⟩

/-- How a machine lays the image out: with the temporaries that it still keeps. -/
def arrangement (v : Image) (kept : List Item) (free : List UInt8) : Arrangement where
  permanent := v.permanent
  temporaries := kept
  scratch := v.scratch
  free := free
  stack := v.stack
  slots := v.slots

end Image

def Machine.roots (m : Machine) : List Nat := m.heap.stack ++ m.registry.positions

/-- `m.Lays c v kept free`: a machine with `c` bytes of memory holds the image, with these of its
temporaries and these free bytes. -/
structure Machine.Lays (m : Machine) (c : Nat) (v : Image) (kept : List Item) (free : List UInt8) :
    Prop where
  valid : v.Valid
  sublist : kept.Sublist v.temporaries
  arranged : m.heap.Arranged m.registry (v.arrangement kept free)
  capacity : m.heap.capacity = c
  interrupted : m.interrupted = v.interrupted
  nesting : m.nesting = v.nesting

/-- A machine with `c` bytes of memory holds what the image tells. -/
def Machine.Represents (m : Machine) (c : Nat) (v : Image) : Prop :=
  ∃ kept free, m.Lays c v kept free

theorem Machine.Represents.nesting_eq {m : Machine} {c : Nat} {v : Image} (h : m.Represents c v) :
    m.nesting = v.nesting := by
  obtain ⟨kept, free, h⟩ := h
  exact h.nesting

theorem Machine.Represents.scratchpad_eq {m : Machine} {c : Nat} {v : Image}
    (h : m.Represents c v) : m.heap.scratchpad = v.scratch := by
  obtain ⟨kept, free, h⟩ := h
  exact h.arranged.parts.scratchpad_eq

namespace Machine.Lays

variable {m : Machine} {c : Nat} {v : Image} {kept : List Item} {free : List UInt8}

theorem represents (h : m.Lays c v kept free) : m.Represents c v := ⟨kept, free, h⟩

theorem free_eq (h : m.Lays c v kept free) : m.heap.free = free.length := h.arranged.parts.free_eq

theorem depth_eq (h : m.Lays c v kept free) : m.heap.depth = v.stack.length := by
  rw [h.arranged.parts.depth_eq]
  simp [Image.arrangement, Arrangement.parts]

theorem stack_eq (h : m.Lays c v kept free) :
    m.heap.stack = v.stack.map (·.position (v.permanent ++ kept)) := h.arranged.parts.stack_eq

theorem slots_eq (h : m.Lays c v kept free) : m.registry.slots.toList =
    v.slots.map (Option.map (·.position (v.permanent ++ kept))) := h.arranged.registered

theorem scratchLength_eq (h : m.Lays c v kept free) : m.heap.scratchLength = v.scratch.length :=
  h.arranged.parts.scratchLength_eq

theorem capacity_eq (h : m.Lays c v kept free) : c = (Item.bytes v.permanent).length +
    (Item.bytes kept).length + v.scratch.length + free.length +
      Heap.slotSize * v.stack.length := by
  rw [← h.capacity, h.arranged.capacity_eq, Heap.Arranged.length_bytes_items]
  rfl

/-- A machine keeps all that something refers to. -/
theorem mem_of_mem_places (h : m.Lays c v kept free) {p : Place} (hp : p ∈ v.places) :
    p.item ∈ v.permanent ++ kept := h.arranged.held p hp

theorem position_lt (h : m.Lays c v kept free) {q : Place} (hq : q.item ∈ v.permanent ++ kept) :
    q.position (v.permanent ++ kept) < Word.bound Heap.slotSize := h.arranged.position_lt hq

/-- What something refers to among the temporaries is the item of a place. -/
theorem exists_place_of_isHeld (h : m.Lays c v kept free) {i : Item} (hi : i ∈ v.temporaries)
    (hheld : i.isHeld v.places = true) : ∃ p ∈ v.places, p.item = i := by
  obtain ⟨p, hp, hid⟩ := List.any_eq_true.mp hheld
  have hmem := ((List.Sublist.refl _).append h.sublist).subset (h.mem_of_mem_places hp)
  have hi' : i ∈ v.permanent ++ v.temporaries := List.mem_append_right _ hi
  exact ⟨p, hp, h.valid.distinct.eq_of_id_eq hmem hi' (by simpa using hid)⟩

theorem live_eq (h : m.Lays c v kept free) : v.live = kept.filter (Item.isHeld v.places) := by
  have hd := h.valid.distinct
  have hkept : ∀ i ∈ v.temporaries, i.isHeld v.places = true → i ∈ kept := fun i hi hheld => by
    obtain ⟨p, hp, rfl⟩ := h.exists_place_of_isHeld hi hheld
    refine (List.mem_append.mp (h.mem_of_mem_places hp)).resolve_left fun hperm => ?_
    exact hd.not_mem hi (List.mem_map_of_mem hperm)
  refine ((h.sublist.filter _).eq_of_length_le ?_).symm
  refine (List.Nodup.subperm ?_ fun i hi => ?_).length_le
  · exact (List.Nodup.of_map _ hd.right).filter _
  · have hi := List.mem_filter.mp hi
    exact List.mem_filter.mpr ⟨hkept i hi.1 hi.2, hi.2⟩

theorem used_add_free (h : m.Lays c v kept free) : v.used + free.length ≤ c := by
  have hlen : (Item.bytes v.live).length ≤ (Item.bytes kept).length := by
    rw [h.live_eq]
    exact (List.filter_sublist.flatMap fun i : Item => i.tree.encode).length_le
  rw [h.capacity_eq, Image.used]
  omega

/-- Right after a collection all the rest of the memory is free. -/
theorem used_add_free_eq (h : m.Lays c v v.live free) : v.used + free.length = c := by
  rw [h.capacity_eq, Image.used]
  omega

end Machine.Lays

theorem Machine.Represents.used_le {m : Machine} {c : Nat} {v : Image} (h : m.Represents c v) :
    v.used ≤ c := by
  obtain ⟨kept, free, hl⟩ := h
  exact (Nat.le_add_right _ _).trans hl.used_add_free

def Image.empty : Image where
  directory := []
  temporaries := []
  scratch := []
  stack := []
  slots := []
  fresh := 0
  interrupted := false
  nesting := 0

theorem Machine.capacity_ofCapacity (c : Nat) : (Machine.ofCapacity c).heap.capacity = c := by
  simp [Machine.ofCapacity, Heap.ofCapacity, Heap.capacity, Memory.zero, Memory.size,
    ByteArray.size]

theorem Machine.represents_ofCapacity {c : Nat} (hc : c < Word.bound Heap.slotSize) :
    (Machine.ofCapacity c).Represents c .empty := by
  refine ⟨[], List.replicate c 0, ?_, List.nil_sublist _, ?_, ?_, rfl, rfl⟩
  · exact ⟨List.nodup_nil, by simp [Image.empty, Image.permanent], by simp [Image.empty],
      by simp [Image.empty], trimmed_nil⟩
  · refine ⟨⟨?_, rfl, rfl, rfl, ?_, by simp [Arrangement.parts, Image.arrangement, Image.empty]⟩,
      rfl, List.nodup_nil, by simp [Arrangement.places, Image.arrangement, Image.empty], ?_⟩
    · simp [Machine.ofCapacity, Heap.ofCapacity, Memory.zero, Memory.toList, Heap.Parts.bytes,
        Heap.Parts.front, Arrangement.parts, Image.arrangement, Image.empty, Image.permanent]
    · simp [Machine.ofCapacity, Heap.ofCapacity, Arrangement.parts, Image.arrangement,
        Image.empty, Image.permanent]
    · rwa [Machine.capacity_ofCapacity]
  · exact Machine.capacity_ofCapacity c

end RpnMachine
