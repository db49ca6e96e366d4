import RpnMachine.Proofs.Run.Rollback

/-! Memory runs out exactly when there is none. What is in use are the permanent region, the
temporaries that something points to or into, the scratchpad and the stack; a request for more
bytes fails if and only if they do not fit besides these. A request that fails changes nothing, and
one that succeeds changes nothing else. -/
namespace RpnMachine

namespace Run

variable {m : Machine}

theorem exec_position_of_some {p : Pointer} {start : Nat} (hp : m.registry.position? p = some start) :
    exec (position p) m = (.ok start, m) :=
  exec_readRegistry_some hp

/-- What can be read lies where the pointer leads. -/
theorem exists_position_of_bytes {p : Pointer} {b : List UInt8} (h : (exec (bytes p) m).1 = .ok b) :
    ∃ start, m.registry.position? p = some start ∧ m.heap.memory.object? start = some b := by
  cases hp : m.registry.position? p with
  | none =>
    have hposition : exec (position p) m = (.error .corrupt, m) := by
      rw [position, exec_readRegistry, hp]
      rfl
    rw [bytes, exec_bind_error hposition] at h
    cases h
  | some start =>
    rw [bytes, exec_bind_ok (exec_position_of_some hp), exec_readHeap] at h
    cases ho : m.heap.memory.object? start with
    | none =>
      rw [ho] at h
      cases h
    | some b' =>
      rw [ho] at h
      cases h
      exact ⟨start, rfl, ho⟩

end Run

namespace Machine

open Run

/-- The second machine has this scratchpad and objects with these bytes on the stack. Pointers and
names of the first one lead to the same bytes as before. -/
structure Retains (m m' : Machine) (scratch : List UInt8) (stack : List (Option (List UInt8))) :
    Prop where
  scratchpad : m'.heap.scratchpad = scratch
  stackBytes : m'.stackBytes = stack
  bytes : ∀ p, (m.registry.position? p).isSome →
    ∃ bytes, exec (Run.bytes p) m = (.ok bytes, m) ∧ exec (Run.bytes p) m' = (.ok bytes, m')
  entries : ∃ entries, m.entries? = some entries ∧ m'.entries? = some entries

/-- How a request for `n` bytes ends, where the temporaries are these objects. -/
structure Apportions {α : Type} (m : Machine) (ts : List Tree) (n : Nat) (act : Run α)
    (granted : α → Machine → Prop) : Prop where
  fails_iff : (∃ m', exec act m = (.error (.error (.outOfMemory n)), m')) ↔
    m.heap.capacity < m.inUse ts + n
  failed : ∀ e m', exec act m = (.error e, m') → e = .error (.outOfMemory n) ∧ m.Restored m'
  done : ∀ a m', exec act m = (.ok a, m') → granted a m'

/-- The last `n` bytes of the temporaries, which start here, belong to no object. -/
structure Vacant (m : Machine) (n start : Nat) : Prop where
  stop : start + n = m.heap.temporaryEnd
  after : ∃ us junk, m.heap.temporaries = Tree.encodeAll us ++ junk ∧ junk.length = n
  apart : ∀ position ∈ m.roots, ∃ stop, m.heap.memory.objectEnd? position = some stop ∧ stop ≤ start

/-- Requests of every kind are granted exactly if there is room. -/
structure Grants (m : Machine) (ts : List Tree) : Prop where
  allocate : ∀ n, m.Apportions ts n (allocate n) fun start m' =>
    m'.Vacant n start ∧ m.Retains m' m.heap.scratchpad m.stackBytes
  make : ∀ (r : Recipe) (t : Tree), t.encode = r.encode →
    m.Apportions ts r.encode.length (make r) fun p m' =>
      m.registry.position? p = none ∧ exec (Run.bytes p) m' = (.ok r.encode, m') ∧
        m.Retains m' m.heap.scratchpad m.stackBytes
  scratchAppend : ∀ new, m.Apportions ts new.length (scratchAppend new) fun _ m' =>
    m.Retains m' (m.heap.scratchpad ++ new) m.stackBytes
  scratchAppendObject : ∀ p bytes, exec (Run.bytes p) m = (.ok bytes, m) →
    m.Apportions ts bytes.length (scratchAppendObject p) fun _ m' =>
      m.Retains m' (m.heap.scratchpad ++ bytes) m.stackBytes
  push : ∀ p bytes, exec (Run.bytes p) m = (.ok bytes, m) →
    m.Apportions ts Heap.slotSize (push p) fun _ m' =>
      m.Retains m' m.heap.scratchpad (some bytes :: m.stackBytes)

theorem exec_bytes_eq {m : Machine} {p : Pointer} {position : Nat} {bytes : List UInt8}
    (hp : m.registry.position? p = some position)
    (hb : m.heap.memory.object? position = some bytes) :
    exec (Run.bytes p) m = (.ok bytes, m) := by
  rw [Run.bytes, exec_bind_ok (exec_position_of_some hp)]
  exact exec_readHeap_some hb

namespace Lays

variable {m m' : Machine} {c n : Nat} {v v' : Image} {kept : List Item} {free : List UInt8}
  {ts : List Tree} {p : Pointer} {q : Place}

theorem apportions {α : Type} {act : Run α} {granted : α → Machine → Prop}
    (h : m.Lays c v kept free) (hts : m.heap.temporaries = Tree.encodeAll ts)
    (hok : v.used + n ≤ c → ∃ a m', exec act m = (.ok a, m') ∧ granted a m')
    (herror : ¬v.used + n ≤ c → ∃ m' kept' free',
      exec act m = (.error (.error (.outOfMemory n)), m') ∧ m'.Lays c v kept' free') :
    m.Apportions ts n act granted := by
  have hiff : m.heap.capacity < m.inUse ts + n ↔ ¬v.used + n ≤ c := by
    rw [h.capacity, h.inUse_eq hts, not_le]
  by_cases hroom : v.used + n ≤ c
  · obtain ⟨a, m₁, he, hgranted⟩ := hok hroom
    refine ⟨⟨fun ⟨m', he'⟩ => ?_, fun hlt => absurd hroom (hiff.mp hlt)⟩, fun e m' he' => ?_,
      fun a' m' he' => ?_⟩
    · cases he.symm.trans he'
    · cases he.symm.trans he'
    · cases he.symm.trans he'
      exact hgranted
  · obtain ⟨m₁, kept₁, free₁, he, h₁⟩ := herror hroom
    refine ⟨⟨fun _ => hiff.mpr hroom, fun _ => ⟨m₁, he⟩⟩, fun e m' he' => ?_, fun a' m' he' => ?_⟩
    · cases he.symm.trans he'
      exact ⟨rfl, h.restored h₁.represents rfl⟩
    · cases he.symm.trans he'

theorem retains (h : m.Lays c v kept free) (hm' : m'.Represents c v')
    (hdirectory : v'.directory = v.directory) (hextends : v.Extends v') :
    m.Retains m' v'.scratch (v'.stack.map fun q => some q.tree.encode) := by
  obtain ⟨kept', free', h'⟩ := hm'
  refine ⟨h'.scratchpad_eq, h'.stackBytes_eq, fun p hp => ?_, v.listing, h.entries?_eq, ?_⟩
  · obtain ⟨q, hq⟩ := h.exists_deref hp
    exact ⟨_, h.exec_bytes hq, h'.exec_bytes (hextends p q hq)⟩
  · rw [h'.entries?_eq, Image.listing, hdirectory]
    rfl

theorem position?_none (h : m.Lays c v kept free) :
    m.registry.position? ⟨v.slots.length⟩ = none := by
  rw [h.position?_eq, Image.deref, List.getElem?_eq_none le_rfl]
  rfl

/-- A pointer to bytes leads to an object with these bytes. -/
theorem deref_of_exec_bytes (h : m.Lays c v kept free) {bytes : List UInt8}
    (he : exec (Run.bytes p) m = (.ok bytes, m)) :
    ∃ q, v.deref p = some q ∧ q.tree.encode = bytes := by
  obtain ⟨q, hq, -, hencode⟩ := h.represents.exists_deref_of_bytes (congrArg Prod.fst he)
  exact ⟨q, hq, hencode⟩

/-- A machine with the permanent region of another one has its entries. -/
theorem entries?_eq_of_permanent (h : m.Lays c v kept free)
    (hp : m'.heap.permanent = m.heap.permanent) : m'.entries? = some v.listing := by
  rw [entries?, h.directoryBytes_eq_of_permanent hp, ← h.directoryBytes_eq, ← entries?,
    h.entries?_eq]

/-- Bytes that are added to the temporaries hide no object. -/
theorem granted_extend (h : m.Lays c v kept free) {heap : Heap} {junk rest : List UInt8}
    (hjunk : junk.length = n) (hc : heap.Consists
      { (v.arrangement kept rest).parts with temporaries := Item.bytes kept ++ junk })
    {m₀ : Machine} {kept₀ : List Item} {free₀ : List UInt8} (h₀ : m₀.Lays c v kept₀ free₀) :
    let m' : Machine := { m with heap }
    m'.Vacant n m.heap.temporaryEnd ∧ m₀.Retains m' m₀.heap.scratchpad m₀.stackBytes := by
  intro m'
  have hmemory : m'.heap.memory.toList = Item.bytes (v.permanent ++ kept) ++
      (junk ++ v.scratch ++ rest ++
        Heap.words (v.stack.map (·.position (v.permanent ++ kept)))) := by
    refine hc.memory.trans ?_
    simp [Heap.Parts.bytes, Heap.Parts.front, Arrangement.parts, Arrangement.items,
      Image.arrangement]
  have hread : ∀ q ∈ v.places,
      q.tree.encode <+: m'.heap.memory.toList.drop (q.position (v.permanent ++ kept)) :=
    fun q hq => by
      rw [hmemory]
      exact q.encode_at_position (h.mem_of_mem_places hq) h.arranged.distinct _
  have hstack : m'.heap.stack = v.stack.map (·.position (v.permanent ++ kept)) := hc.stack_eq
  have hroots : m'.roots = v.places.map (·.position (v.permanent ++ kept)) := by
    have := h.arranged.roots_eq
    rw [h.arranged.parts.stack_eq] at this
    rw [roots, hstack]
    exact this
  constructor
  · refine ⟨?_, ⟨kept.map Item.tree, junk, ?_, hjunk⟩, fun position hp => ?_⟩
    · rw [h.temporaryEnd_eq, hc.temporaryEnd, List.length_append, hjunk, ← Nat.add_assoc,
        Item.bytes_append, List.length_append]
      rfl
    · rw [← Item.bytes_eq_encodeAll]
      exact hc.temporaries_eq
    · rw [hroots, List.mem_map] at hp
      obtain ⟨q, hq, rfl⟩ := hp
      refine ⟨_, Memory.objectEnd?_eq (h.fits hq) (hread q hq), ?_⟩
      rw [h.temporaryEnd_eq]
      exact q.position_add_size_le (h.mem_of_mem_places hq) h.arranged.distinct
  · refine ⟨?_, ?_, fun p hp => ?_, v.listing, h₀.entries?_eq, ?_⟩
    · rw [h₀.scratchpad_eq]
      exact hc.scratchpad_eq
    · rw [stackBytes, hstack, h₀.stackBytes_eq, List.map_map]
      refine List.map_congr_left fun q hq => ?_
      have hq := List.mem_append_left (v.slots.filterMap id) hq
      exact Memory.object?_eq (h.fits hq) (hread q hq)
    · obtain ⟨q, hq⟩ := h₀.exists_deref hp
      have hplace := Image.mem_places_of_deref hq
      have hposition : m'.registry.position? p = some (q.position (v.permanent ++ kept)) := by
        rw [h.position?_eq, hq]
        rfl
      exact ⟨_, h₀.exec_bytes hq,
        exec_bytes_eq hposition (Memory.object?_eq (h.fits hplace) (hread q hplace))⟩
    · exact h.entries?_eq_of_permanent (hc.permanent_eq.trans h.arranged.parts.permanent_eq.symm)

/-- Whether memory runs out is told by what the machine holds, so each request is answered as on
any machine that holds the same. -/
theorem grants (h : m.Lays c v kept free) (hts : m.heap.temporaries = Tree.encodeAll ts) :
    m.Grants ts where
  allocate n := h.apportions hts
    (fun hroom => by
      obtain ⟨m₁, kept₁, free₁, junk, heap, he, h₁, -, -, hjunk, hc⟩ := h.exec_allocate hroom
      exact ⟨_, _, he, h₁.granted_extend hjunk hc h⟩)
    h.exec_allocate_error
  make r t ht := by
    rw [make_eq_of_encode_eq ht, ← ht]
    refine h.apportions hts (fun hroom => ?_) h.exec_make_error
    obtain ⟨m', kept', free', he, h'⟩ := h.exec_make hroom
    refine ⟨_, m', he, h.position?_none, h'.exec_bytes ((v.add t).deref_hold_self _), ?_⟩
    have hextends : v.Extends (v.make t) := fun _ _ hp => Image.deref_hold (v := v.add t) hp _
    have hretains := h.retains h'.represents rfl hextends
    rw [h.scratchpad_eq, h.stackBytes_eq]
    exact hretains
  scratchAppend new := h.apportions hts
    (fun hroom => by
      obtain ⟨m', kept', free', he, h'⟩ := h.exec_scratchAppend hroom
      refine ⟨_, m', he, ?_⟩
      rw [h.scratchpad_eq, h.stackBytes_eq]
      exact h.retains h'.represents rfl fun _ _ hp => hp)
    h.exec_scratchAppend_error
  scratchAppendObject p bytes hbytes := by
    obtain ⟨q, hq, rfl⟩ := h.deref_of_exec_bytes hbytes
    refine h.apportions hts (fun hroom => ?_) (h.exec_scratchAppendObject_error hq)
    obtain ⟨m', kept', free', he, h'⟩ := h.exec_scratchAppendObject hq hroom
    refine ⟨_, m', he, ?_⟩
    rw [h.scratchpad_eq, h.stackBytes_eq]
    exact h.retains h'.represents rfl fun _ _ hp => hp
  push p bytes hbytes := by
    obtain ⟨q, hq, rfl⟩ := h.deref_of_exec_bytes hbytes
    refine h.apportions hts (fun hroom => ?_) (h.exec_push_error p)
    obtain ⟨m', kept', free', he, h'⟩ := h.exec_push hroom hq
    refine ⟨_, m', he, ?_⟩
    rw [h.scratchpad_eq, h.stackBytes_eq]
    exact h.retains h'.represents rfl fun _ _ hp => hp

end Lays

/-- Whatever was done with a machine, memory runs out exactly when there is none. -/
theorem grants_of_acts {c : Nat} (hc : c < Word.bound Heap.slotSize) {actions : List Action}
    {m : Machine} (h : Acts (ofCapacity c) actions m) {ts : List Tree}
    (hts : m.heap.temporaries = Tree.encodeAll ts) : m.Grants ts := by
  obtain ⟨v, ⟨kept, free, hl⟩, -⟩ := h.exists_represents (represents_ofCapacity hc)
  exact hl.grants hts

/-- Of two objects one is given back and the other one is on the stack. -/
def brimming : List Action :=
  [.make (Tree.integer false 5).recipe, .make (Tree.integer false 7).recipe, .push ⟨1⟩,
    .release ⟨0⟩, .scratchAppend [0]]

theorem acts_brimming : ∃ m, Acts (ofCapacity 10) brimming m ∧ m.heap.free = 1 ∧
    m.heap.temporaries = Tree.encodeAll [.integer false 5, .integer false 7] ∧
    m.heap.capacity = 10 ∧ m.inUse [.integer false 5, .integer false 7] = 7 :=
  ⟨_, .cons ⟨by decide, .integer false 5, Tree.encode_eq _⟩ <|
    .cons ⟨by decide, .integer false 7, Tree.encode_eq _⟩ <| .cons ⟨by decide +kernel, trivial⟩ <|
    .cons ⟨by decide +kernel, trivial⟩ <| .cons ⟨by decide, trivial⟩ <| .nil _,
    by decide +kernel, by decide +kernel, by decide +kernel, by decide +kernel⟩

/-- One byte is free, and three can be had, but not four. -/
theorem grants_brimming : ∃ m, Acts (ofCapacity 10) brimming m ∧ m.heap.free = 1 ∧
    m.Grants [.integer false 5, .integer false 7] ∧
    (¬∃ m', exec (allocate 3) m = (.error (.error (.outOfMemory 3)), m')) ∧
    ∃ m', exec (allocate 4) m = (.error (.error (.outOfMemory 4)), m') := by
  obtain ⟨m, hm, hfree, hts, hcapacity, hused⟩ := acts_brimming
  have h := grants_of_acts (by decide) hm hts
  refine ⟨m, hm, hfree, h, ?_, ?_⟩
  · rw [(h.allocate 3).fails_iff, hcapacity, hused]
    decide
  · rw [(h.allocate 4).fails_iff, hcapacity, hused]
    decide

end Machine
end RpnMachine
