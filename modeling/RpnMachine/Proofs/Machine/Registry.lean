import RpnMachine.Proofs.Machine.Image

/-! The registry never confuses two pointers, in whatever order they are given back. What it knows is
compared with what happened: each pointer leads where it was last told to, those that are held are
enumerated once each, and a new one is none of them. -/
namespace RpnMachine

section Slots

variable {α : Type}

/-- Vacant slots at the end say as much as no slots. -/
theorem join_getElem?_rdropWhile_isNone (slots : List (Option α)) (i : Nat) :
    ((slots.rdropWhile Option.isNone)[i]?).join = (slots[i]?).join := by
  cases h : (slots[i]?).join with
  | some a =>
    rw [getElem?_rdropWhile_isNone (Option.join_eq_some_iff.1 h), Option.join_some]
  | none =>
    rw [Option.eq_none_iff_forall_ne_some]
    intro a ha
    obtain ⟨rest, hrest⟩ := List.rdropWhile_prefix Option.isNone slots
    have hlt := (List.getElem?_eq_some_iff.1 (Option.join_eq_some_iff.1 ha)).1
    rw [← hrest, List.getElem?_append_left hlt, ha] at h
    cases h

theorem join_getElem?_vacate (slots : List (Option α)) (i j : Nat) :
    ((vacate slots i)[j]?).join = if j = i then none else (slots[j]?).join := by
  rw [vacate, join_getElem?_rdropWhile_isNone, List.getElem?_set]
  split_ifs <;> simp_all

theorem Trimmed.set {slots : List (Option α)} (h : Trimmed slots) (i : Nat) (a : α) :
    Trimmed (slots.set i (some a)) := by
  rw [Trimmed, List.rdropWhile_eq_self_iff] at h ⊢
  intro hne
  have hne' : slots ≠ [] := fun e => hne (by rw [e, List.set_nil])
  rw [List.getLast_eq_getElem, List.getElem_set]
  split_ifs with hi
  · simp
  · have := h hne'
    rw [List.getLast_eq_getElem] at this
    simpa only [List.length_set] using this

theorem Trimmed.ne_append_none {slots : List (Option α)} (h : Trimmed slots) (l : List (Option α)) :
    slots ≠ l ++ [none] := by
  rintro rfl
  rw [Trimmed, List.rdropWhile_concat_pos _ _ _ (by simp)] at h
  have := (List.rdropWhile_prefix Option.isNone l).length_le
  rw [h, List.length_append, List.length_singleton] at this
  omega

/-- Only slots that are vacant are no slots at all. -/
theorem Trimmed.eq_nil {slots : List (Option α)} (h : Trimmed slots)
    (hnone : ∀ i : Nat, (slots[i]?).join = none) : slots = [] := by
  rw [← h, List.rdropWhile_eq_nil_iff]
  intro a ha
  obtain ⟨i, hi⟩ := List.mem_iff_getElem?.1 ha
  have := hnone i
  rw [hi, Option.join_some] at this
  rw [this, Option.isNone_none]

end Slots

namespace Registry

inductive Event where
  | registered (p : Pointer) (position : Nat)
  | moved (p : Pointer) (position : Nat)
  | released (p : Pointer)

/-- Where a pointer leads after these events, the latest first, unless it has been given back. -/
def held : List Event → Pointer → Option Nat
  | [], _ => none
  | .registered q n :: es, p => if p = q then some n else held es p
  | .moved q n :: es, p => if p = q then some n else held es p
  | .released q :: es, p => if p = q then none else held es p

/-- A registry after these events, the latest first. Only pointers that are held are moved or given
back. -/
inductive Follows : List Event → Registry → Prop where
  | nil : Follows [] {}
  | register {es : List Event} {r : Registry} (h : Follows es r) (position : Nat) :
    Follows (.registered (r.register position).1 position :: es) (r.register position).2
  | set {es : List Event} {r r' : Registry} (h : Follows es r) {p : Pointer}
    (hp : (held es p).isSome) {position : Nat} (hset : r.set? p position = some r') :
    Follows (.moved p position :: es) r'
  | release {es : List Event} {r r' : Registry} (h : Follows es r) {p : Pointer}
    (hp : (held es p).isSome) (hrelease : r.release? p = some r') :
    Follows (.released p :: es) r'

variable {es : List Event} {r r' : Registry}

theorem lt_size_of_position? {p : Pointer} (h : (r.position? p).isSome) :
    p.slot < r.slots.size := by
  by_contra hlt
  rw [position?, Array.getElem?_eq_none (not_lt.1 hlt)] at h
  cases h

theorem set?_of_lt (r : Registry) {p : Pointer} (hp : p.slot < r.slots.size) (position : Nat) :
    r.set? p position = some { r with slots := r.slots.set p.slot (some position) hp } := dif_pos hp

theorem toList_slots_set? {p : Pointer} {position : Nat} (h : r.set? p position = some r') :
    r'.slots.toList = r.slots.toList.set p.slot (some position) := by
  rw [set?] at h
  split_ifs at h with hp
  cases h
  exact Array.toList_set _ _ _ hp

theorem position?_empty (p : Pointer) : ({} : Registry).position? p = none := by
  simp [position?]

theorem position?_register_eq (r : Registry) (position : Nat) (p : Pointer) :
    (r.register position).2.position? p =
      if p = (r.register position).1 then some position else r.position? p := by
  obtain ⟨slot⟩ := p
  simp only [register, position?, Array.getElem?_push, Pointer.mk.injEq]
  split_ifs <;> rfl

theorem position?_register (r : Registry) (position : Nat) :
    (r.register position).2.position? (r.register position).1 = some position := by
  simp [register, position?]

/-- The slot of a new pointer was vacant. -/
theorem position?_fst_register (r : Registry) (position : Nat) :
    r.position? (r.register position).1 = none := by
  simp [register, position?]

theorem position?_set? {q : Pointer} {position : Nat} (h : r.set? q position = some r')
    (p : Pointer) : r'.position? p = if p = q then some position else r.position? p := by
  obtain ⟨slot⟩ := p
  obtain ⟨slot'⟩ := q
  rw [set?] at h
  split_ifs at h with hlt
  cases h
  simp only [position?, Array.getElem?_set, Pointer.mk.injEq, eq_comm (a := slot')]
  split_ifs <;> rfl

theorem position?_release? {q : Pointer} (h : r.release? q = some r') (p : Pointer) :
    r'.position? p = if p = q then none else r.position? p := by
  obtain ⟨slot⟩ := p
  obtain ⟨slot'⟩ := q
  simp only [position?_eq, toList_slots_release? h, join_getElem?_vacate, Pointer.mk.injEq]

theorem mem_live_iff {slot position : Nat} :
    (slot, position) ∈ r.live ↔ r.position? ⟨slot⟩ = some position := by
  rw [live, List.mem_filterMap, position?_eq, Option.join_eq_some_iff]
  constructor
  · rintro ⟨⟨a, i⟩, hmem, h⟩
    obtain ⟨n, rfl, e⟩ := Option.map_eq_some_iff.1 h
    cases e
    exact List.mem_zipIdx_iff_getElem?.1 hmem
  · exact fun h => ⟨(some position, slot), List.mem_zipIdx_iff_getElem?.2 h, rfl⟩

/-- Pointers are enumerated in the order of their slots, so none of them twice. -/
theorem pairwise_live (r : Registry) : r.live.Pairwise fun a b => a.1 < b.1 := by
  have hindices : r.slots.toList.zipIdx.Pairwise fun a b => a.2 < b.2 := by
    rw [← List.pairwise_map (f := Prod.snd) (R := (· < ·)), List.zipIdx_map_snd]
    exact List.pairwise_lt_range' 1
  refine hindices.filterMap _ fun a b hab c hc d hd => ?_
  obtain ⟨n, -, rfl⟩ := Option.map_eq_some_iff.1 hc
  obtain ⟨k, -, rfl⟩ := Option.map_eq_some_iff.1 hd
  exact hab

/-- A registry knows where each pointer leads, and has no vacant slot at the end. -/
structure Records (es : List Event) (r : Registry) : Prop where
  position : ∀ p, r.position? p = held es p
  trimmed : Trimmed r.slots.toList

theorem Records.register (h : Records es r) (position : Nat) :
    Records (.registered (r.register position).1 position :: es) (r.register position).2 where
  position p := by rw [position?_register_eq, held, h.position]
  trimmed := by
    rw [toList_slots_register]
    exact Trimmed.append_some _ _

theorem Records.set (h : Records es r) {p : Pointer} {position : Nat}
    (hset : r.set? p position = some r') : Records (.moved p position :: es) r' where
  position q := by rw [position?_set? hset, held, h.position]
  trimmed := by
    rw [toList_slots_set? hset]
    exact h.trimmed.set _ _

theorem Records.release (h : Records es r) {p : Pointer} (hrelease : r.release? p = some r') :
    Records (.released p :: es) r' where
  position q := by rw [position?_release? hrelease, held, h.position]
  trimmed := by
    rw [toList_slots_release? hrelease]
    exact trimmed_vacate _ _

theorem Follows.records (h : Follows es r) : Records es r := by
  induction h with
  | nil => exact ⟨position?_empty, trimmed_nil⟩
  | register _ position ih => exact ih.register position
  | set _ _ hset ih => exact ih.set hset
  | release _ _ hrelease ih => exact ih.release hrelease

/-- Pointers that are held can be moved and given back. -/
theorem Records.lt_size (h : Records es r) {p : Pointer} (hp : (held es p).isSome) :
    p.slot < r.slots.size := lt_size_of_position? (by rwa [h.position])

theorem isSome_held_moved {p : Pointer} (hp : (held es p).isSome) (q : Pointer) (position : Nat) :
    (held (.moved q position :: es) p).isSome := by
  rw [held]
  split_ifs
  · rfl
  · exact hp

theorem Follows.foldlM_set? (h : Follows es r) {f : Nat → Option Nat} {g : Nat → Nat}
    (l : List (Nat × Nat)) (hl : ∀ s ∈ l, (held es ⟨s.1⟩).isSome ∧ f s.2 = some (g s.2)) :
    ∃ es' r', l.foldlM (fun r s => do r.set? ⟨s.1⟩ (← f s.2)) r = some r' ∧ Follows es' r' := by
  induction l generalizing es r with
  | nil => exact ⟨es, r, rfl, h⟩
  | cons s l ih =>
    obtain ⟨hs, hf⟩ := hl s List.mem_cons_self
    have hset := r.set?_of_lt (p := ⟨s.1⟩) (h.records.lt_size hs) (g s.2)
    obtain ⟨es', r', he, h'⟩ := ih (h.set hs hset) fun t ht =>
      ⟨isSome_held_moved (hl t (List.mem_cons_of_mem _ ht)).1 _ _,
        (hl t (List.mem_cons_of_mem _ ht)).2⟩
    refine ⟨es', r', ?_, h'⟩
    rw [List.foldlM_cons, hf]
    simp only [Option.bind_eq_bind, Option.bind_some]
    rw [hset]
    exact he

/-- Also moving all pointers together is such a history. -/
theorem Follows.move (h : Follows es r) {f : Nat → Option Nat} {g : Nat → Nat}
    (hf : ∀ n ∈ r.positions, f n = some (g n)) :
    ∃ es' r', r.move? f = some r' ∧ Follows es' r' ∧ ∀ p, held es' p = (held es p).map g := by
  obtain ⟨es', r', he, h'⟩ := h.foldlM_set? (f := f) (g := g) r.live fun ⟨slot, position⟩ hs => by
    have hposition := mem_live_iff.1 hs
    refine ⟨by rw [← h.records.position, hposition, Option.isSome_some], hf _ ?_⟩
    rw [position?_eq, Option.join_eq_some_iff] at hposition
    exact List.mem_filterMap.2 ⟨_, List.mem_of_getElem? hposition, rfl⟩
  refine ⟨es', r', he, h', fun p => ?_⟩
  have hmoved : r' = { r with slots := r.slots.map (Option.map g) } :=
    Option.some.inj (he.symm.trans (move?_eq hf))
  rw [← h'.records.position, ← h.records.position, hmoved, position?, position?, Array.getElem?_map]
  cases r.slots[p.slot]? <;> rfl

/-- In whatever order pointers are given back, a new one is different from all that are held, one that
is held leads where it was last told to and can be moved and given back, those that are held are
enumerated once each, and there is no vacant slot at the end, hence no slot if none is held. -/
theorem pointers_kept_apart (h : Follows es r) :
    (∀ position, held es (r.register position).1 = none) ∧
    (∀ p, r.position? p = held es p) ∧
    (∀ p, (held es p).isSome → (∀ position, (r.set? p position).isSome) ∧ (r.release? p).isSome) ∧
    (∀ slot position, (slot, position) ∈ r.live ↔ held es ⟨slot⟩ = some position) ∧
    (r.live.map Prod.fst).Nodup ∧
    r.slots.back? ≠ some none ∧
    ((∀ p, held es p = none) → r.slots = #[]) := by
  have hrecords := h.records
  have hposition := hrecords.position
  have htrimmed := hrecords.trimmed
  refine ⟨fun n => ?_, hposition, fun p hp => ?_, fun slot n => ?_, ?_, fun hback => ?_,
    fun hnone => ?_⟩
  · rw [← hposition, position?_fst_register]
  · have hlt := hrecords.lt_size hp
    exact ⟨fun position => by rw [r.set?_of_lt hlt, Option.isSome_some],
      by rw [release?, dif_pos hlt, Option.isSome_some]⟩
  · rw [mem_live_iff, hposition]
  · exact List.pairwise_map.2 (r.pairwise_live.imp fun hlt => hlt.ne)
  · obtain ⟨slots, hslots⟩ := Array.back?_eq_some_iff.1 hback
    refine htrimmed.ne_append_none slots.toList ?_
    rw [hslots, Array.toList_push]
  · have hvacant : ∀ i, (r.slots.toList[i]?).join = none := fun i => by
      rw [← hnone ⟨i⟩, ← hposition, position?_eq]
    exact Array.toList_eq_nil_iff.1 (htrimmed.eq_nil hvacant)

/-- Of three pointers the middle one is given back first and the last one after it, so that their slots
are no more; the next pointer takes the slot of the middle one, and leads elsewhere. -/
theorem pointers_kept_apart_of_middle_first :
    ∃ r r' : Registry,
      (((({} : Registry).register 10).2.register 20).2.register 30).2.release? ⟨1⟩ = some r ∧
      r.release? ⟨2⟩ = some r' ∧ r.live = [(0, 10), (2, 30)] ∧
      (r'.register 40).2.live = [(0, 10), (1, 40)] ∧ (r'.register 40).2.position? ⟨2⟩ = none ∧
      ((r'.register 40).2.live.map Prod.fst).Nodup := by
  have hr : (((({} : Registry).register 10).2.register 20).2.register 30).2.release? ⟨1⟩ =
      some ⟨#[some 10, none, some 30], 3⟩ := by decide +kernel
  have hr' : Registry.release? ⟨#[some 10, none, some 30], 3⟩ ⟨2⟩ = some ⟨#[some 10], 3⟩ := by
    decide +kernel
  have h := (((Follows.nil.register 10).register 20).register 30).release (by decide) hr
  have h' := (h.release (by decide) hr').register 40
  obtain ⟨-, hposition, -, -, hnodup, -⟩ := pointers_kept_apart h'
  exact ⟨_, _, hr, hr', by decide +kernel, by decide +kernel,
    (hposition ⟨2⟩).trans (by decide +kernel), hnodup⟩

end Registry
end RpnMachine
