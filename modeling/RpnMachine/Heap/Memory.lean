import RpnMachine.Object.Encoding

/-! A fixed run of bytes, read and written as lists. What ends in a question mark gives a result only
if all of the bytes that it is about are there. -/
namespace RpnMachine

structure Memory where
  bytes : ByteArray

namespace Memory

def zero (size : Nat) : Memory := ⟨⟨.replicate size 0⟩⟩

def size (m : Memory) : Nat := m.bytes.size

def toList (m : Memory) : List UInt8 := m.bytes.data.toList

def slice (m : Memory) (start stop : Nat) : List UInt8 := (m.bytes.extract start stop).data.toList

def write (m : Memory) (start : Nat) (new : List UInt8) : Memory :=
  ⟨ByteArray.copySlice ⟨new.toArray⟩ 0 m.bytes start new.length⟩

def copy (m : Memory) (start stop target : Nat) : Memory :=
  let moved := m.bytes.extract start stop
  ⟨moved.copySlice 0 m.bytes target moved.size⟩

def slice? (m : Memory) (start stop : Nat) : Option (List UInt8) :=
  if start ≤ stop ∧ stop ≤ m.size then some (m.slice start stop) else none

/-- Puts bytes in the place of just as many, those from `start` up to `stop`. -/
def write? (m : Memory) (start stop : Nat) (new : List UInt8) : Option Memory :=
  if start + new.length = stop ∧ stop ≤ m.size then some (m.write start new) else none

def copy? (m : Memory) (start stop target : Nat) : Option Memory :=
  if start ≤ stop ∧ stop ≤ m.size ∧ target + (stop - start) ≤ m.size then
    some (m.copy start stop target)
  else none

@[simp] theorem length_toList (m : Memory) : m.toList.length = m.size := rfl

theorem slice_eq (m : Memory) (start stop : Nat) :
    m.slice start stop = (m.toList.take stop).drop start := by
  simp [slice, toList, ByteArray.data_extract, List.drop_take]

theorem toList_write (m : Memory) (start : Nat) (new : List UInt8) :
    (m.write start new).toList =
      m.toList.take start ++ new ++ m.toList.drop (start + new.length) := by
  simp only [write, toList, ByteArray.copySlice]
  simp [List.take_of_length_le]

theorem copy_eq_write (m : Memory) (start stop target : Nat) :
    m.copy start stop target = m.write target (m.slice start stop) := by
  simp only [copy, write, slice, Array.toArray_toList, Array.length_toList]
  rfl

/-- The count of bytes from `start` up to the first one without its high bit, which is included;
all of them up to `stop` if there is no such byte. -/
def span (m : Memory) (start stop : Nat) : Nat :=
  if h : start < stop ∧ start < m.bytes.size then
    if m.bytes[start] < 128 then 1 else span m (start + 1) stop + 1
  else 0
termination_by stop - start

/-- The bytes that a number may take, if it starts at a position. -/
def window (m : Memory) (start stop : Nat) : List UInt8 := m.slice start (min stop (start + 10))

/-- The size of the object at a position, read off no more bytes than it takes to tell. -/
def objectSize? (m : Memory) (start stop : Nat) : Option Nat := do
  let head := m.window start stop
  let k := Varint.span head
  match (← Encoding.kind? head).shape with
  | .bare => some k
  | .varint => some (k + m.span (start + k) stop)
  | .word => some (k + 8)
  | .sized => do
    let (length, n) ← Varint.decode (m.window (start + k) stop)
    let size := k + n + length
    if size < Word.bound 8 then some size else none

def objectEnd? (m : Memory) (start : Nat) : Option Nat := do
  let stop := start + (← m.objectSize? start m.size)
  if stop ≤ m.size then some stop else none

def object? (m : Memory) (start : Nat) : Option (List UInt8) := do
  some (m.slice start (← m.objectEnd? start))

end Memory
end RpnMachine
