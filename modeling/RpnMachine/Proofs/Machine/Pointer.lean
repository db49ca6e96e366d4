import RpnMachine.Proofs.Machine.Image

/-! Pointers: what holding, reading and giving back does to the image. -/
namespace RpnMachine

namespace Place

def whole (i : Item) : Place := ⟨i, 0, i.tree, .self _⟩

def children (p : Place) : List Place :=
  List.pmap (fun (x : (Nat × Nat) × Tree) h => ⟨p.item, p.offset + x.1.1, x.2, p.held.trans h⟩)
    ((Tree.spans (Tree.header (Tree.encodeAll p.tree.children).length) p.tree.children).zip
      p.tree.children)
    (fun _ hx => (List.forall₂_iff_zip.mp p.tree.at_spans).2 hx)

theorem item_of_mem_children {p q : Place} (h : q ∈ p.children) : q.item = p.item := by
  obtain ⟨x, hx, rfl⟩ := List.mem_pmap.mp h
  rfl

theorem map_tree_children (p : Place) : p.children.map Place.tree = p.tree.children := by
  rw [children, List.map_pmap, List.pmap_eq_map, List.map_snd_zip]
  rw [Tree.length_spans]

theorem length_children (p : Place) : p.children.length = p.tree.children.length := by
  rw [← map_tree_children, List.length_map]

theorem tree_mem_children {p q : Place} (h : q ∈ p.children) : q.tree ∈ p.tree.children :=
  map_tree_children p ▸ List.mem_map_of_mem h

theorem map_position_children (items : List Item) (p : Place) :
    p.children.map (·.position items) =
      (Tree.spans (Tree.header (Tree.encodeAll p.tree.children).length) p.tree.children).map
        fun s => p.position items + s.1 := by
  have hfst : ((Tree.spans (Tree.header (Tree.encodeAll p.tree.children).length)
      p.tree.children).zip p.tree.children).map Prod.fst =
      Tree.spans (Tree.header (Tree.encodeAll p.tree.children).length) p.tree.children :=
    List.map_fst_zip (by rw [Tree.length_spans])
  rw [children, List.map_pmap]
  change List.pmap (fun (x : (Nat × Nat) × Tree) _ =>
    Item.start p.item.id items + (p.offset + x.1.1)) _ _ = _
  rw [List.pmap_eq_map]
  conv_rhs => rw [← hfst, List.map_map]
  refine List.map_congr_left fun x _ => ?_
  simp only [position, Function.comp_apply]
  omega

end Place

namespace Image

def hold (v : Image) (q : Place) : Image := { v with slots := v.slots ++ [some q] }

def holdAll (v : Image) (qs : List Place) : Image := { v with slots := v.slots ++ qs.map some }

def release (v : Image) (p : Pointer) : Image := { v with slots := vacate v.slots p.slot }

theorem Valid.release {v : Image} (h : v.Valid) (p : Pointer) : (v.release p).Valid :=
  { h with trimmed := trimmed_vacate _ _ }

theorem Valid.hold {v : Image} (h : v.Valid) (q : Place) : (v.hold q).Valid :=
  { h with trimmed := Trimmed.append_some _ _ }

theorem mem_places_of_deref {v : Image} {p : Pointer} {q : Place} (h : v.deref p = some q) :
    q ∈ v.places := by
  refine List.mem_append_right _ (List.mem_filterMap.mpr ⟨some q, ?_, rfl⟩)
  rw [deref, Option.join_eq_some_iff] at h
  exact List.mem_of_getElem? h

theorem holdAll_cons (v : Image) (q : Place) (qs : List Place) :
    v.holdAll (q :: qs) = (v.hold q).holdAll qs := by
  simp [holdAll, hold]

@[simp] theorem holdAll_nil (v : Image) : v.holdAll [] = v := by
  simp [holdAll]

end Image

/-- Positions are read off the registry, wherever the places of its slots lie. -/
theorem Machine.exec_position_of_slots {m : Machine} {slots : List (Option Place)} {f : Place → Nat}
    (h : m.registry.slots.toList = slots.map (Option.map f)) {p : Pointer} {q : Place}
    (hp : (slots[p.slot]?).join = some q) : Run.exec (Run.position p) m = (.ok (f q), m) := by
  refine Run.exec_readRegistry_some ?_
  rw [Registry.position?_eq_map h, hp]
  rfl

namespace Machine.Lays

variable {m : Machine} {c : Nat} {v : Image} {kept : List Item} {free : List UInt8}

theorem withRegistry (h : m.Lays c v kept free) {r : Registry} {slots : List (Option Place)}
    (hr : r.slots.toList = slots.map (Option.map (·.position (v.permanent ++ kept))))
    (hheld : ∀ q, some q ∈ slots → q.item ∈ v.permanent ++ kept) (ht : Trimmed slots) :
    { m with registry := r }.Lays c { v with slots } kept free where
  valid := { h.valid with trimmed := ht }
  sublist := h.sublist
  arranged :=
    { parts := h.arranged.parts
      registered := hr
      distinct := h.arranged.distinct
      held q hq := by
        rcases List.mem_append.mp hq with hq | hq
        · exact h.arranged.held q (List.mem_append_left _ hq)
        · obtain ⟨slot, hslot, rfl⟩ := List.mem_filterMap.mp hq
          exact hheld q hslot
      capacity := h.arranged.capacity }
  capacity := h.capacity
  interrupted := h.interrupted
  nesting := h.nesting

theorem mem_of_some_mem_slots (h : m.Lays c v kept free) {q : Place} (hq : some q ∈ v.slots) :
    q.item ∈ v.permanent ++ kept :=
  h.mem_of_mem_places (List.mem_append_right _ (List.mem_filterMap.mpr ⟨_, hq, rfl⟩))

theorem register (h : m.Lays c v kept free) {q : Place} (hq : q.item ∈ v.permanent ++ kept) :
    { m with registry := (m.registry.register (q.position (v.permanent ++ kept))).2 }.Lays c
      (v.hold q) kept free := by
  refine h.withRegistry ?_ (fun q' hq' => ?_) (Trimmed.append_some _ _)
  · rw [Registry.toList_slots_register, h.slots_eq, List.map_append]
    rfl
  · rcases List.mem_append.mp hq' with hq' | hq'
    · exact h.mem_of_some_mem_slots hq'
    · rw [List.mem_singleton, Option.some_inj] at hq'
      rwa [hq']

theorem slot_register (h : m.Lays c v kept free) (position : Nat) :
    (m.registry.register position).1 = ⟨v.slots.length⟩ := by
  have := congrArg List.length h.slots_eq
  simp only [Array.length_toList, List.length_map] at this
  rw [Registry.register, this]

theorem exec_register (h : m.Lays c v kept free) {q : Place} (hq : q.item ∈ v.permanent ++ kept) :
    ∃ m', Run.exec (Run.register (q.position (v.permanent ++ kept))) m =
      (.ok ⟨v.slots.length⟩, m') ∧ m'.Lays c (v.hold q) kept free := by
  refine ⟨_, Run.exec_changeRegistry_some ?_, h.register hq⟩
  rw [← h.slot_register (q.position (v.permanent ++ kept))]

theorem exec_release (h : m.Lays c v kept free) {p : Pointer} (hp : p.slot < v.slots.length) :
    ∃ m', Run.exec (Run.release p) m = (.ok (), m') ∧ m'.Lays c (v.release p) kept free := by
  obtain ⟨r, hr, hslots⟩ := Registry.exists_release? (r := m.registry) (p := p)
    (by rwa [h.slots_eq, List.length_map])
  refine ⟨{ m with registry := r }, Run.exec_changeRegistry_some (by rw [hr]; rfl),
    h.withRegistry ?_ (fun q hq => ?_) (trimmed_vacate _ _)⟩
  · rw [hslots, h.slots_eq, ← vacate_map]
  · have hset := (List.rdropWhile_prefix Option.isNone (v.slots.set p.slot none)).subset hq
    rcases List.mem_or_eq_of_mem_set hset with hmem | hnone
    · exact h.mem_of_some_mem_slots hmem
    · cases hnone

theorem position?_eq (h : m.Lays c v kept free) (p : Pointer) :
    m.registry.position? p = (v.deref p).map (·.position (v.permanent ++ kept)) :=
  Registry.position?_eq_map h.slots_eq p

/-- The pointers that a machine holds are those that lead somewhere. -/
theorem exists_deref (h : m.Lays c v kept free) {p : Pointer}
    (hp : (m.registry.position? p).isSome) : ∃ q, v.deref p = some q := by
  rw [h.position?_eq, Option.isSome_map] at hp
  exact Option.isSome_iff_exists.mp hp

theorem exec_position (h : m.Lays c v kept free) {p : Pointer} {q : Place}
    (hp : v.deref p = some q) :
    Run.exec (Run.position p) m = (.ok (q.position (v.permanent ++ kept)), m) :=
  exec_position_of_slots h.slots_eq hp

theorem exec_position_none (h : m.Lays c v kept free) {p : Pointer} (hp : v.deref p = none) :
    Run.exec (Run.position p) m = (.error .corrupt, m) := by
  rw [Run.position, Run.exec_readRegistry, h.position?_eq, hp]
  rfl

theorem fits (h : m.Lays c v kept free) {q : Place} (hq : q ∈ v.places) : q.tree.Fits :=
  h.arranged.fits_place (h.mem_of_mem_places hq)

theorem encode_at_position (h : m.Lays c v kept free) {q : Place} (hq : q ∈ v.places) :
    q.tree.encode <+: m.heap.memory.toList.drop (q.position (v.permanent ++ kept)) :=
  h.arranged.encode_at_position (h.mem_of_mem_places hq)

theorem exec_bytes (h : m.Lays c v kept free) {p : Pointer} {q : Place} (hp : v.deref p = some q) :
    Run.exec (Run.bytes p) m = (.ok q.tree.encode, m) := by
  have hq := Image.mem_places_of_deref hp
  rw [Run.bytes, Run.exec_bind_ok (h.exec_position hp)]
  exact Run.exec_readHeap_some (Memory.object?_eq (h.fits hq) (h.encode_at_position hq))

theorem exec_size (h : m.Lays c v kept free) {p : Pointer} {q : Place} (hp : v.deref p = some q) :
    Run.exec (Run.size p) m = (.ok q.tree.size, m) := by
  have hq := Image.mem_places_of_deref hp
  rw [Run.size, Run.exec_bind_ok (h.exec_position hp), Run.exec_bind_ok
    (Run.exec_readHeap_some (Memory.objectEnd?_eq (h.fits hq) (h.encode_at_position hq)))]
  show (Except.ok (_ + q.tree.size - _), m) = _
  rw [Nat.add_sub_cancel_left]

theorem exec_kind (h : m.Lays c v kept free) {p : Pointer} {q : Place} (hp : v.deref p = some q) :
    Run.exec (Run.kind p) m = (.ok q.tree.kind, m) := by
  have hk := q.tree.kind?_encode []
  rw [List.append_nil] at hk
  rw [Run.kind, Run.exec_bind_ok (h.exec_bytes hp), hk]
  rfl

theorem exec_value (h : m.Lays c v kept free) {p : Pointer} {q : Place} (hp : v.deref p = some q) :
    Run.exec (Run.value p) m = (.ok q.tree.value, m) := by
  rw [Run.value, Run.exec_bind_ok (h.exec_bytes hp),
    Tree.value?_encode (h.fits (Image.mem_places_of_deref hp))]
  rfl

theorem exec_clone (h : m.Lays c v kept free) {p : Pointer} {q : Place}
    (hp : v.deref p = some q) :
    ∃ m', Run.exec (Run.clone p) m = (.ok ⟨v.slots.length⟩, m') ∧ m'.Lays c (v.hold q) kept free := by
  rw [Run.clone, Run.exec_bind_ok (h.exec_position hp)]
  exact h.exec_register (h.mem_of_mem_places (Image.mem_places_of_deref hp))

/-- A pointer into an object, where another one starts. -/
theorem exec_within (h : m.Lays c v kept free) {p : Pointer} {q : Place} (hp : v.deref p = some q)
    {offset : Nat} {t : Tree} (ht : q.tree.At offset t) :
    ∃ m', Run.exec (Run.within p offset) m = (.ok ⟨v.slots.length⟩, m') ∧
      m'.Lays c (v.hold ⟨q.item, q.offset + offset, t, q.held.trans ht⟩) kept free := by
  have hq := h.mem_of_mem_places (Image.mem_places_of_deref hp)
  have hlt := h.position_lt (q := ⟨q.item, q.offset + offset, t, q.held.trans ht⟩) hq
  have he : q.position (v.permanent ++ kept) + offset = Place.position (v.permanent ++ kept)
      ⟨q.item, q.offset + offset, t, q.held.trans ht⟩ := by
    simp only [Place.position]
    omega
  rw [Run.within, Run.exec_bind_ok (h.exec_position hp), he]
  simp only
  rw [if_pos (hlt.trans (by decide)), Nat.mod_eq_of_lt hlt]
  exact h.exec_register hq

theorem exec_mapM_register (h : m.Lays c v kept free) (qs : List Place)
    (hq : ∀ q ∈ qs, q.item ∈ v.permanent ++ kept) :
    ∃ m', Run.exec ((qs.map (·.position (v.permanent ++ kept))).mapM Run.register) m =
      (.ok ((List.range' v.slots.length qs.length).map Pointer.mk), m') ∧
      m'.Lays c (v.holdAll qs) kept free := by
  induction qs generalizing m v with
  | nil => exact ⟨m, rfl, by simpa using h⟩
  | cons q qs ih =>
    obtain ⟨m₁, he, h₁⟩ := h.exec_register (hq q (by simp))
    obtain ⟨m₂, he', h₂⟩ := ih h₁ fun q' hq' => hq q' (by simp [hq'])
    refine ⟨m₂, ?_, by rwa [Image.holdAll_cons]⟩
    rw [List.map_cons, List.mapM_cons, Run.exec_bind_ok he]
    refine (Run.exec_bind_ok he' _).trans ?_
    simp [Image.hold, List.range'_succ]

theorem exec_children (h : m.Lays c v kept free) {p : Pointer} {q : Place}
    (hp : v.deref p = some q) :
    ∃ m', Run.exec (Run.children p) m =
      (.ok ((List.range' v.slots.length q.children.length).map Pointer.mk), m') ∧
      m'.Lays c (v.holdAll q.children) kept free := by
  have hq := Image.mem_places_of_deref hp
  obtain ⟨m', he, h'⟩ := h.exec_mapM_register q.children fun q' hq' => by
    rw [Place.item_of_mem_children hq']
    exact h.mem_of_mem_places hq
  refine ⟨m', ?_, h'⟩
  rw [Run.children, Run.exec_bind_ok (h.exec_position hp), Run.exec_bind_ok (h.exec_bytes hp),
    Tree.children?_encode (h.fits hq)]
  rw [Place.map_position_children, List.mapM_map] at he
  exact he

end Machine.Lays
end RpnMachine
