import RpnMachine.Proofs.Heap.Regions
import RpnMachine.Proofs.Machine.Registry
import RpnMachine.Proofs.Number.Exact
import RpnMachine.Proofs.Object.Varint
import RpnMachine.Proofs.Run.Room

/-! Objects are read and removed from the stack by what the bytes in memory say, whatever else a machine
holds. -/
namespace RpnMachine

theorem Encoding.natAbs_lt_of_magnitude {payload : List UInt8} {i : Int}
    (h : magnitude payload = .ok i) : i.natAbs < Word.bound 8 := by
  unfold magnitude at h
  split at h
  · next n _ hn =>
    cases h
    rw [Number.word_bound_eq]
    exact (Varint.decode_eq_some_iff.mp hn).lt
  · cases h

/-- The magnitude of an integer object has 64 bits. -/
theorem Encoding.natAbs_lt_of_value? {bytes : List UInt8} {i : Int}
    (h : value? bytes = some (.ok (.integer i))) : i.natAbs < Word.bound 8 := by
  obtain ⟨k, hk, h⟩ := Option.bind_eq_some_iff.mp h
  have hsized : ∀ {f : String → Value} {s : Option (Except Defect String)},
      (∀ s, f s ≠ .integer i) → s.map (fun s => s.map f) ≠ some (.ok (.integer i)) := by
    rintro f (_ | _ | s) hf he
    · cases he
    · cases he
    · exact hf s (Except.ok.inj (Option.some.inj he))
  have hsigned : ∀ {payload : List UInt8} {f : Int → Int}, (∀ j, (f j).natAbs = j.natAbs) →
      (do return Value.integer (f (← magnitude payload)) : Except Defect Value) = .ok (.integer i) →
      i.natAbs < Word.bound 8 := by
    intro payload f hf he
    cases hm : magnitude payload with
    | ok j =>
      rw [hm] at he
      cases he
      rw [hf]
      exact natAbs_lt_of_magnitude hm
    | error d =>
      rw [hm] at he
      cases he
  cases k with
  | integer => exact hsigned (f := id) (fun _ => rfl) (Option.some.inj h)
  | negative => exact hsigned Int.natAbs_neg (Option.some.inj h)
  | decimal =>
    dsimp only at h
    split_ifs at h <;> cases h
  | text =>
    dsimp only at h
    exact (hsized (fun s => by simp) h).elim
  | symbol =>
    dsimp only at h
    exact (hsized (fun s => by simp) h).elim
  | composite c =>
    obtain ⟨cs, -, e⟩ := Option.map_eq_some_iff.mp h
    cases e
  | command c => cases h

/-- A composite that is in memory has a size. -/
theorem Memory.fits_of_object? {memory : Memory} {start : Nat} {c : Composite} {ts : List Tree}
    (h : memory.object? start = some (Tree.composite c ts).encode) : (Tree.composite c ts).Fits := by
  obtain ⟨stop, hstop, h⟩ := Option.bind_eq_some_iff.mp h
  obtain ⟨n, hn, hstop⟩ := Option.bind_eq_some_iff.mp hstop
  simp only [Option.ite_none_right_eq_some, Option.some.injEq] at h hstop
  obtain ⟨hle, rfl⟩ := hstop
  have hlen : (Tree.composite c ts).size = n := by
    rw [Tree.size, ← h, slice_eq, List.length_drop, List.length_take, length_toList]
    omega
  have hbytes : memory.slice start memory.size =
      (Tree.composite c ts).encode ++ memory.slice (start + n) memory.size := by
    rw [← h, slice_append_slice _ (Nat.le_add_right _ _) hle]
  rw [objectSize?_eq, hbytes, Encoding.size?, Tree.kind?_encode] at hn
  have hpayload : (Encoding.payload? ((Tree.composite c ts).encode ++
      memory.slice (start + n) memory.size)).map (·.2) = some n := hn
  obtain ⟨⟨first, last⟩, hpayload, rfl⟩ := Option.map_eq_some_iff.mp hpayload
  obtain ⟨_, -, hpayload⟩ := Option.bind_eq_some_iff.mp hpayload
  simp only [Option.ite_none_right_eq_some, Option.some.injEq, Prod.mk.injEq] at hpayload
  rw [Tree.Fits, hlen]
  omega

namespace Registry

def touch (r : Registry) : Registry :=
  ⟨(r.slots.push none).popWhile Option.isNone, max r.peak (r.slots.size + 1)⟩

theorem release?_register (r : Registry) (position : Nat) :
    (r.register position).2.release? (r.register position).1 = some r.touch := by
  have hlt : r.slots.size < (r.slots.push (some position)).size := by
    rw [Array.size_push]
    exact Nat.lt_succ_self _
  have hslots : (r.slots.push (some position)).set r.slots.size none hlt = r.slots.push none := by
    apply Array.ext'
    simp
  simp only [register, release?, touch, dif_pos hlt, hslots]

end Registry

namespace Heap

variable {h : Heap} {level n : Nat}

/-- What is left without the top `n` levels. -/
def below (h : Heap) (n : Nat) : Heap := { h with stackStart := h.stackStart + slotSize * n }

/-- The stack ends where memory does. -/
def Bounded (h : Heap) : Prop := h.stackStart ≤ h.capacity

theorem depth?_eq_some_iff {d : Nat} : h.depth? = some d ↔ h.Bounded ∧ h.depth = d := by
  simp only [depth?, Word.minus?, Bounded, depth]
  split_ifs with hle <;> simp [hle]

theorem Bounded.depth?_eq (hb : h.Bounded) : h.depth? = some h.depth :=
  depth?_eq_some_iff.mpr ⟨hb, rfl⟩

theorem Bounded.slot?_eq (hb : h.Bounded) (hlevel : level < h.depth) :
    h.slot? level = some (h.slot level) := by
  have hstop : h.stackStart + slotSize * level + slotSize ≤ h.memory.size := by
    simp only [depth, Bounded, capacity, slotSize] at hb hlevel ⊢
    omega
  rw [slot?, slotStart?, hb.depth?_eq]
  simp only [Option.bind_eq_bind, Option.bind_some, if_pos hlevel]
  rw [Memory.slice?, if_pos ⟨Nat.le_add_right _ _, hstop⟩]
  rfl

theorem Bounded.drop?_eq (hb : h.Bounded) (hn : n ≤ h.depth) : h.drop? n = some (h.below n) := by
  rw [drop?, hb.depth?_eq]
  exact if_pos hn

theorem Bounded.below (hb : h.Bounded) (hn : n ≤ h.depth) : (h.below n).Bounded := by
  simp only [depth, Bounded, Heap.below, capacity, slotSize] at hb hn ⊢
  omega

theorem depth_below_one : (h.below 1).depth = h.depth - 1 := by
  simp only [depth, below, capacity, slotSize]
  omega

theorem below_below (m n : Nat) : (h.below m).below n = h.below (m + n) := by
  simp only [below, Nat.mul_add, Nat.add_assoc]

structure Holds (h : Heap) (level : Nat) (a : Value) : Prop where
  reach : level + 1 < Word.bound 8
  bounded : h.Bounded
  depth : level < h.depth
  value : (h.memory.object? (h.slot level)).bind Encoding.value? = some (.ok a)

theorem Holds.natAbs_lt {i : Int} (hi : h.Holds level (.integer i)) : i.natAbs < Word.bound 8 := by
  obtain ⟨bytes, -, hbytes⟩ := Option.bind_eq_some_iff.mp hi.value
  exact Encoding.natAbs_lt_of_value? hbytes

end Heap

def Machine.touch (m : Machine) : Machine := { m with registry := m.registry.touch }

def Machine.pare (m : Machine) : Machine := { m.touch with heap := m.heap.below 1 }

namespace Run

variable {α : Type} {m m' : Machine} {level : Nat} {a : Value} {i : Int}

def shed : Run Unit := acquiring pop fun _ => pure ()

theorem exec_depth (hb : m.heap.Bounded) : exec depth m = (.ok m.heap.depth, m) :=
  exec_readHeap_some hb.depth?_eq

/-- Objects are counted on a stack that ends where memory does. -/
theorem bounded_of_args {n : Nat} (h : exec (args n) m = (.ok (), m')) :
    m.heap.Bounded ∧ n ≤ m.heap.depth := by
  rw [args] at h
  obtain ⟨d, m₁, hdepth, h⟩ := exists_of_exec_bind_ok h
  cases hd : m.heap.depth? with
  | none =>
    rw [depth, exec_readHeap, hd] at hdepth
    cases hdepth
  | some d' =>
    obtain ⟨hb, rfl⟩ := Heap.depth?_eq_some_iff.mp hd
    rw [exec_depth hb] at hdepth
    cases hdepth
    refine ⟨hb, not_lt.mp fun hlt => ?_⟩
    rw [if_pos hlt] at h
    cases h

theorem exec_reach_of_lt (hbound : level + 1 < Word.bound 8) (hb : m.heap.Bounded)
    (hlevel : level < m.heap.depth) : exec (reach level) m = (.ok (), m) := by
  rw [reach, if_pos hbound, exec_args_of_le hb.depth?_eq hlevel]

theorem exec_register (position : Nat) :
    exec (register position) m = (.ok (m.registry.register position).1,
      { m with registry := (m.registry.register position).2 }) :=
  exec_changeRegistry_some rfl

theorem exec_peek_of_lt (hbound : level + 1 < Word.bound 8) (hb : m.heap.Bounded)
    (hlevel : level < m.heap.depth) :
    exec (peek level) m = (.ok (m.registry.register (m.heap.slot level)).1,
      { m with registry := (m.registry.register (m.heap.slot level)).2 }) := by
  rw [peek, exec_bind_ok (exec_reach_of_lt hbound hb hlevel),
    exec_bind_ok (exec_readHeap_some (hb.slot?_eq hlevel)), exec_register]

theorem exec_value_of_object? {p : Pointer} {start : Nat} (hp : m.registry.position? p = some start)
    (ha : (m.heap.memory.object? start).bind Encoding.value? = some (.ok a)) :
    exec (value p) m = (.ok a, m) := by
  obtain ⟨b, hb, ha⟩ := Option.bind_eq_some_iff.mp ha
  rw [value, exec_bind_ok (Machine.exec_bytes_eq hp hb), ha]
  rfl

theorem exists_object?_of_value {p : Pointer} (h : (exec (value p) m).1 = .ok a) :
    ∃ start, m.registry.position? p = some start ∧
      (m.heap.memory.object? start).bind Encoding.value? = some (.ok a) := by
  obtain ⟨b, m₁, hb, h⟩ := exists_of_exec_bind_ok (Prod.ext h rfl : exec (value p) m = (.ok a, _))
  obtain ⟨start, hp, ho⟩ := exists_position_of_bytes (congrArg Prod.fst hb)
  refine ⟨start, hp, ?_⟩
  rw [ho, Option.bind_some]
  cases hv : Encoding.value? b with
  | none =>
    rw [hv] at h
    cases h
  | some v =>
    rw [hv] at h
    cases v with
    | ok v =>
      cases h
      rfl
    | error d => cases h

/-- A new pointer is held and given back, whatever else happens meanwhile to memory. -/
theorem exec_acquiring {acquire : Run Pointer} {act : Pointer → Run α} {heap : Heap}
    {position : Nat} {o : Except Failure α}
    (hacquire : exec acquire m = (.ok (m.registry.register position).1,
      { m with registry := (m.registry.register position).2, heap }))
    (hact : exec (act (m.registry.register position).1)
        { m with registry := (m.registry.register position).2, heap } =
      (o, { m with registry := (m.registry.register position).2, heap })) :
    exec (acquiring acquire act) m = (o, { m.touch with heap }) := by
  rw [acquiring, exec_bind_ok hacquire, holding]
  have hrelease : exec (release (m.registry.register position).1)
      { m with registry := (m.registry.register position).2, heap } =
      (.ok (), { m.touch with heap }) := by
    refine exec_changeRegistry_some ?_
    simp only [Registry.release?_register]
    rfl
  rw [exec_ensuring (by rw [hact]; exact hrelease), hact]

/-- The value that can be read at a level is that of the object there. -/
theorem holds_of_peek (h : (exec (acquiring (peek level) value) m).1 = .ok a) :
    m.heap.Holds level a := by
  obtain ⟨p, m₁, hpeek, hvalue⟩ :=
    exists_of_exec_bind_ok (Prod.ext h rfl : exec (acquiring (peek level) value) m = (.ok a, _))
  obtain ⟨_, m₂, hreach, -⟩ := exists_of_exec_bind_ok hpeek
  have hreach : exec (reach level) m = (.ok (), m₂) := hreach
  have hbound : level + 1 < Word.bound 8 := by
    by_contra hno
    rw [reach, if_neg hno] at hreach
    cases hreach
  rw [reach, if_pos hbound] at hreach
  obtain ⟨hb, hlevel⟩ := bounded_of_args hreach
  rw [exec_peek_of_lt hbound hb hlevel] at hpeek
  cases hpeek
  obtain ⟨m₃, hvalue, -⟩ := exists_of_exec_ensuring_ok hvalue
  obtain ⟨start, hp, hvalue⟩ := exists_object?_of_value (congrArg Prod.fst hvalue)
  rw [Registry.position?_register] at hp
  cases hp
  exact ⟨hbound, hb, hlevel, hvalue⟩

theorem exec_number_of_object? {p : Pointer} {start : Nat} (hp : m.registry.position? p = some start)
    (hi : (m.heap.memory.object? start).bind Encoding.value? = some (.ok (.integer i))) :
    exec (number p) m = (.ok (.integer i), m) := by
  rw [number, exec_bind_ok (exec_value_of_object? hp hi)]
  rfl

theorem exec_peek_number (h : m.heap.Holds level (.integer i)) :
    exec (acquiring (peek level) number) m = (.ok (.integer i), m.touch) := by
  have hp := m.registry.position?_register (m.heap.slot level)
  exact exec_acquiring (exec_peek_of_lt h.reach h.bounded h.depth)
    (exec_number_of_object? hp h.value)

theorem exec_pop_of_pos (hb : m.heap.Bounded) (h : 0 < m.heap.depth) :
    exec pop m = (.ok (m.registry.register (m.heap.slot 0)).1,
      { m with registry := (m.registry.register (m.heap.slot 0)).2, heap := m.heap.below 1 }) := by
  rw [pop, exec_bind_ok (exec_peek_of_lt (by decide) hb h),
    exec_bind_ok (exec_updateHeap_some (hb.drop?_eq h))]
  rfl

theorem exec_shed (hb : m.heap.Bounded) (h : 0 < m.heap.depth) : exec shed m = (.ok (), m.pare) :=
  exec_acquiring (exec_pop_of_pos hb h) (exec_pure () _)

theorem exec_pop_number (h : m.heap.Holds 0 (.integer i)) :
    exec (acquiring pop number) m = (.ok (.integer i), m.pare) := by
  have hp := m.registry.position?_register (m.heap.slot 0)
  exact exec_acquiring (exec_pop_of_pos h.bounded h.depth) (exec_number_of_object? hp h.value)

end Run
end RpnMachine
