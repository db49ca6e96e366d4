import RpnMachine.Heap.Memory

/-! The regions of memory. From low to high positions:

* the permanent region, where the directory lies,
* the temporaries, objects one right after the other,
* the scratchpad, bytes that are not yet objects,
* free bytes, which keep what they held last,
* the stack, positions of four bytes each, the top one lowest.

An operation gives no heap at all where it would have to count below zero, leave the memory, or take
what is not there. -/
namespace RpnMachine

structure Heap where
  memory : Memory
  permanentEnd : Nat
  temporaryEnd : Nat
  scratchEnd : Nat
  stackStart : Nat
  collections : Nat

namespace Heap

def slotSize : Nat := 4

def ofCapacity (n : Nat) : Heap := ⟨.zero n, 0, 0, 0, n, 0⟩

def capacity (h : Heap) : Nat := h.memory.size

def free (h : Heap) : Nat := h.stackStart - h.scratchEnd

def free? (h : Heap) : Option Nat := Word.minus? h.stackStart h.scratchEnd

def scratchLength (h : Heap) : Nat := h.scratchEnd - h.temporaryEnd

def scratchLength? (h : Heap) : Option Nat := Word.minus? h.scratchEnd h.temporaryEnd

def depth (h : Heap) : Nat := (h.capacity - h.stackStart) / slotSize

def depth? (h : Heap) : Option Nat := do
  return (← Word.minus? h.capacity h.stackStart) / slotSize

/-- The regions lie one after the other, and the stack has nothing but whole levels. -/
def InOrder (h : Heap) : Prop :=
  h.permanentEnd ≤ h.temporaryEnd ∧ h.temporaryEnd ≤ h.scratchEnd ∧ h.scratchEnd ≤ h.stackStart ∧
    h.stackStart ≤ h.capacity ∧ (h.capacity - h.stackStart) % slotSize = 0

instance (h : Heap) : Decidable h.InOrder := inferInstanceAs (Decidable (_ ∧ _))

def check? (h : Heap) : Option Heap := if h.InOrder then some h else none

/-- The position held at a level, where the top is level zero. -/
def slot (h : Heap) (level : Nat) : Nat :=
  let start := h.stackStart + slotSize * level
  Word.decode (h.memory.slice start (start + slotSize))

def stack (h : Heap) : List Nat := (List.range h.depth).map h.slot

def slotStart? (h : Heap) (level : Nat) : Option Nat := do
  if level < (← h.depth?) then some (h.stackStart + slotSize * level) else none

def slot? (h : Heap) (level : Nat) : Option Nat := do
  let start ← h.slotStart? level
  return Word.decode (← h.memory.slice? start (start + slotSize))

def setSlot? (h : Heap) (level position : Nat) : Option Heap := do
  let start ← h.slotStart? level
  let memory ← h.memory.write? start (start + slotSize) (Word.encode slotSize position)
  return { h with memory }

def stack? (h : Heap) : Option (List Nat) := do
  (List.range (← h.depth?)).mapM h.slot?

def mapStack? (h : Heap) (f : Nat → Option Nat) : Option Heap := do
  (List.range (← h.depth?)).foldlM (fun h level => do h.setSlot? level (← f (← h.slot? level))) h

def push? (h : Heap) (position : Nat) : Option Heap := do
  if (← h.free?) < slotSize then none
  else setSlot? { h with stackStart := h.stackStart - slotSize } 0 position

def drop? (h : Heap) (n : Nat) : Option Heap := do
  if n ≤ (← h.depth?) then some { h with stackStart := h.stackStart + slotSize * n } else none

/-- Copies each of the top `n` levels to the one below it, the lowest of them first. What was held
below them is lost, and the top stays as it is. -/
def lower? : Heap → Nat → Option Heap
  | h, 0 => some h
  | h, n + 1 => do (← h.setSlot? (n + 1) (← h.slot? n)).lower? n

/-- Brings what is held at level `n` to the top. What is held above it goes one level down. -/
def roll? (h : Heap) (n : Nat) : Option Heap := do
  let position ← h.slot? n
  (← h.lower? n).setSlot? 0 position

/-- Adds `n` bytes to the temporaries, and tells where. The scratchpad moves up to make room. -/
def extend? (h : Heap) (n : Nat) : Option (Nat × Heap) := do
  if (← h.free?) < n then none
  else
    let memory ← h.memory.copy? h.temporaryEnd h.scratchEnd (h.temporaryEnd + n)
    let new := { h with memory, temporaryEnd := h.temporaryEnd + n, scratchEnd := h.scratchEnd + n }
    return (h.temporaryEnd, ← check? new)

/-- Takes the last `n` bytes from the temporaries. The scratchpad moves down after them. -/
def retract? (h : Heap) (n : Nat) : Option Heap := do
  if n ≤ (← Word.minus? h.temporaryEnd h.permanentEnd) then
    let memory ← h.memory.copy? h.temporaryEnd h.scratchEnd (h.temporaryEnd - n)
    let scratchEnd ← Word.minus? h.scratchEnd n
    check? { h with memory, temporaryEnd := h.temporaryEnd - n, scratchEnd }
  else none

def grow? (h : Heap) (n : Nat) : Option (Nat × Heap) := do
  if (← h.free?) < n then none
  else return (h.scratchEnd, { h with scratchEnd := h.scratchEnd + n })

def append? (h : Heap) (new : List UInt8) : Option Heap := do
  let (start, h) ← h.grow? new.length
  return { h with memory := ← h.memory.write? start (start + new.length) new }

def appendCopy? (h : Heap) (start n : Nat) : Option Heap := do
  let (target, h) ← h.grow? n
  return { h with memory := ← h.memory.copy? start (start + n) target }

def truncate? (h : Heap) (length : Nat) : Option Heap := do
  if length ≤ (← h.scratchLength?) then some { h with scratchEnd := h.temporaryEnd + length }
  else none

def above? (h : Heap) (mark : Nat) : Option (List UInt8) :=
  h.memory.slice? (h.temporaryEnd + mark) h.scratchEnd

end Heap
end RpnMachine
