import RpnMachine.Proofs.Run.Arranged
import RpnMachine.Proofs.Run.Room

/-! What the items and places of an arrangement tell of a machine, and how much room a collection
makes in it. -/
namespace RpnMachine

theorem Entry.exists_of_named {entries : List (String × Tree)} {items : List Item}
    (h : items.map Item.tree = Tree.named entries) :
    ∃ es : List Entry, es.flatMap Entry.items = items ∧ es.map Entry.name = entries.map Prod.fst ∧
      ∀ e ∈ es, e.Labelled := by
  induction entries generalizing items with
  | nil =>
    rw [List.map_eq_nil_iff.mp h]
    exact ⟨[], rfl, rfl, by simp⟩
  | cons e entries ih =>
    obtain ⟨label, rest, rfl, hlabel, hrest⟩ := List.map_eq_cons_iff.mp h
    obtain ⟨object, rest, rfl, -, hrest⟩ := List.map_eq_cons_iff.mp hrest
    obtain ⟨es, rfl, hnames, hlabelled⟩ := ih hrest
    refine ⟨⟨e.1, label, object⟩ :: es, rfl, by rw [List.map_cons, hnames, List.map_cons], ?_⟩
    rw [List.forall_mem_cons]
    exact ⟨hlabel, hlabelled⟩

namespace Heap.Arranged

open Machine Run

variable {m m' : Machine} {a a' : Arrangement} {ts : List Tree} {n : Nat}

/-- But for its pointers the machine holds an image. -/
theorem exists_lays (ha : m.heap.Arranged m.registry a) {entries : List (String × Tree)}
    (hpermanent : a.permanent.map Item.tree = Tree.named entries)
    (hnodup : (entries.map Prod.fst).Nodup) (hnames : ∀ e ∈ entries, e.1 ≠ "") :
    ∃ v, { m with registry := {} }.Lays m.heap.capacity v a.temporaries a.free := by
  obtain ⟨es, hitems, hes, hlabelled⟩ := Entry.exists_of_named hpermanent
  let v : Image :=
    { directory := es
      temporaries := a.temporaries
      scratch := a.scratch
      stack := a.stack
      slots := []
      fresh := (a.items.map Item.id).sum + 1
      interrupted := m.interrupted
      nesting := m.nesting }
  have hv : v.permanent = a.permanent := hitems
  have hv' : v.permanent ++ v.temporaries = a.items := by rw [hv]; rfl
  refine ⟨v, ⟨hv' ▸ ha.distinct, fun i hi => ?_, fun e he => ⟨hlabelled e he, ?_⟩, ?_, trimmed_nil⟩,
    .refl _, ⟨?_, rfl, ?_, fun q hq => ?_, ha.capacity⟩, rfl, rfl, rfl⟩
  · rw [hv'] at hi
    exact Nat.lt_succ_of_le (List.le_sum_of_mem (List.mem_map_of_mem hi))
  · have hmem : e.name ∈ entries.map Prod.fst := hes ▸ List.mem_map_of_mem he
    obtain ⟨e', he', hname⟩ := List.mem_map.mp hmem
    exact hname ▸ hnames e' he'
  · exact hes ▸ hnodup
  · have : (v.arrangement a.temporaries a.free).parts = a.parts := by
      simp only [Arrangement.parts, Arrangement.items, Image.arrangement, hv]
      rfl
    exact this ▸ ha.parts
  · show Item.Distinct (v.permanent ++ v.temporaries)
    exact hv' ▸ ha.distinct
  · show q.item ∈ v.permanent ++ v.temporaries
    -- No pointer is left, so the place is on the stack.
    have hq : q ∈ a.stack := (List.mem_append.mp hq).resolve_right List.not_mem_nil
    exact hv' ▸ ha.held q (List.mem_append_left _ hq)

/-- The permanent region tells the names and what they stand for by itself. -/
theorem exists_entries (ha : m.heap.Arranged m.registry a) {entries : List (String × Tree)}
    (hpermanent : a.permanent.map Item.tree = Tree.named entries)
    (hnodup : (entries.map Prod.fst).Nodup) (hnames : ∀ e ∈ entries, e.1 ≠ "") :
    ∃ listing, ∀ m' : Machine, m'.heap.permanent = m.heap.permanent →
      m'.entries? = some listing := by
  obtain ⟨v, hl⟩ := ha.exists_lays hpermanent hnodup hnames
  exact ⟨v.listing, fun m' hm' => hl.entries?_eq_of_permanent hm'⟩

theorem stackBytes_eq (ha : m.heap.Arranged m.registry a) :
    m.stackBytes = a.stack.map fun q => some q.tree.encode := by
  rw [stackBytes, ha.parts.stack_eq, Arrangement.parts, List.map_map]
  refine List.map_congr_left fun q hq => ?_
  have hmem := ha.held q (List.mem_append_left _ hq)
  exact Memory.object?_eq (ha.fits_place hmem) (ha.encode_at_position hmem)

theorem exists_place (ha : m.heap.Arranged m.registry a) {p : Pointer}
    (hp : (m.registry.position? p).isSome) : ∃ q, (a.slots[p.slot]?).join = some q := by
  rw [Registry.position?_eq_map ha.registered, Option.isSome_map] at hp
  exact Option.isSome_iff_exists.mp hp

theorem item_mem (ha : m.heap.Arranged m.registry a) {p : Pointer} {q : Place}
    (hq : (a.slots[p.slot]?).join = some q) : q.item ∈ a.items := by
  have hslot := List.mem_of_getElem? (Option.join_eq_some_iff.mp hq)
  exact ha.held q (List.mem_append_right _ (List.mem_filterMap.mpr ⟨_, hslot, rfl⟩))

theorem object?_eq (ha : m.heap.Arranged m.registry a) {p : Pointer} {q : Place}
    (hq : (a.slots[p.slot]?).join = some q) :
    m.registry.position? p = some (q.position a.items) ∧
      m.heap.memory.object? (q.position a.items) = some q.tree.encode := by
  have hmem := ha.item_mem hq
  refine ⟨?_, Memory.object?_eq (ha.fits_place hmem) (ha.encode_at_position hmem)⟩
  rw [Registry.position?_eq_map ha.registered, hq, Option.map_some]

theorem slice_eq (ha : m.heap.Arranged m.registry a) {p : Pointer} {q : Place}
    (hq : (a.slots[p.slot]?).join = some q) :
    m.heap.memory.slice (q.position a.items) (q.position a.items + q.tree.size) =
      q.tree.encode := by
  rw [Memory.slice_eq, List.drop_take, Nat.add_sub_cancel_left]
  exact (List.prefix_iff_eq_take.mp (ha.encode_at_position (ha.item_mem hq))).symm

theorem exec_bytes (ha : m.heap.Arranged m.registry a) {p : Pointer} {q : Place}
    (hq : (a.slots[p.slot]?).join = some q) :
    exec (Run.bytes p) m = (.ok q.tree.encode, m) := by
  obtain ⟨hposition, hobject⟩ := ha.object?_eq hq
  exact exec_bytes_eq hposition hobject

/-- Machines that lay out the same places of the same named objects tell the same. -/
theorem retains (ha : m.heap.Arranged m.registry a) (ha' : m'.heap.Arranged m'.registry a')
    (hstack : a'.stack = a.stack) (hslots : a'.slots = a.slots)
    (hentries : ∃ listing, m.entries? = some listing ∧ m'.entries? = some listing) :
    m.Retains m' a'.scratch m.stackBytes where
  scratchpad := ha'.parts.scratchpad_eq
  stackBytes := by rw [ha.stackBytes_eq, ha'.stackBytes_eq, hstack]
  bytes p hp := by
    obtain ⟨q, hq⟩ := ha.exists_place hp
    exact ⟨_, ha.exec_bytes hq, ha'.exec_bytes (hslots ▸ hq)⟩
  entries := hentries

theorem isSome_position? (ha : m.heap.Arranged m.registry a) (ha' : m'.heap.Arranged m'.registry a')
    (hslots : a'.slots = a.slots) (p : Pointer) :
    (m'.registry.position? p).isSome = (m.registry.position? p).isSome := by
  rw [Registry.position?_eq_map ha.registered, Registry.position?_eq_map ha'.registered, hslots,
    Option.isSome_map, Option.isSome_map]

/-! Making room. -/

theorem inUse_eq (ha : m.heap.Arranged m.registry a)
    (hts : m.heap.temporaries = Tree.encodeAll ts) :
    m.inUse ts = (Item.bytes a.permanent).length + (Item.bytes a.kept).length + a.scratch.length +
      slotSize * a.stack.length := by
  rw [inUse, total_survivors_eq ha hts, ha.permanentEnd_eq, ha.parts.scratchLength_eq,
    ha.parts.depth_eq, Arrangement.parts, List.length_map]

theorem inUse_add_free_le (ha : m.heap.Arranged m.registry a)
    (hts : m.heap.temporaries = Tree.encodeAll ts) :
    m.inUse ts + a.free.length ≤ m.heap.capacity := by
  have hcapacity := ha.capacity_eq
  have hle := a.length_kept_le
  rw [length_bytes_items] at hcapacity
  rw [ha.inUse_eq hts]
  omega

/-- A collection makes all bytes free that are not in use. -/
theorem exists_exec_collect (ha : m.heap.Arranged m.registry a)
    (hts : m.heap.temporaries = Tree.encodeAll ts) :
    ∃ m' free, exec Run.collect m = (.ok a.collection, m') ∧
      m'.heap.Arranged m'.registry { a with temporaries := a.kept, free } ∧
      m.inUse ts + free.length = m.heap.capacity := by
  obtain ⟨heap, registry, free, he, hcapacity, ha'⟩ := ha.exec_collect
  refine ⟨_, free, he, ha', ?_⟩
  have hsum := ha'.capacity_eq
  rw [length_bytes_items] at hsum
  rw [ha.inUse_eq hts, ← hcapacity, hsum]
  simp only
  omega

theorem exec_reserve (ha : m.heap.Arranged m.registry a)
    (hts : m.heap.temporaries = Tree.encodeAll ts) (hn : m.inUse ts + n ≤ m.heap.capacity) :
    ∃ m' temporaries free, exec (reserve n) m = (.ok (), m') ∧
      m'.heap.Arranged m'.registry { a with temporaries, free } ∧ n ≤ free.length := by
  rcases Nat.lt_or_ge a.free.length n with hlt | hle
  · obtain ⟨m', free, he, ha', hsum⟩ := ha.exists_exec_collect hts
    have hle : n ≤ free.length := by omega
    refine ⟨m', a.kept, free, ?_, ha', hle⟩
    rw [exec_reserve_of_lt ha.parts hlt he ha'.parts]
    exact congrArg (·, m') (if_neg (Nat.not_lt.mpr hle))
  · exact ⟨m, a.temporaries, a.free, exec_reserve_of_le ha.parts hle, ha, hle⟩

theorem exec_reserve_error (ha : m.heap.Arranged m.registry a)
    (hts : m.heap.temporaries = Tree.encodeAll ts) (hn : m.heap.capacity < m.inUse ts + n) :
    ∃ m' temporaries free, exec (reserve n) m = (.error (.error (.outOfMemory n)), m') ∧
      m'.heap.Arranged m'.registry { a with temporaries, free } := by
  have hle := ha.inUse_add_free_le hts
  obtain ⟨m', free, he, ha', hsum⟩ := ha.exists_exec_collect hts
  have hlt : free.length < n := by omega
  refine ⟨m', a.kept, free, ?_, ha'⟩
  rw [exec_reserve_of_lt ha.parts (show a.free.length < n by omega) he ha'.parts]
  exact congrArg (·, m') (if_pos hlt)

end Heap.Arranged
end RpnMachine
