import RpnMachine.Machine.Allocation

/-! The stack. Its top is level zero. -/
namespace RpnMachine.Run

def depth : Run Nat := readHeap Heap.depth?

def args (n : Nat) : Run Unit := do
  let d ← depth
  if d < n then
    fail (.tooFewArguments n d)

/-- Fails unless there is an object at a level. Levels are counted in 64-bit words. -/
def reach (level : Nat) : Run Unit := do
  if level + 1 < Word.bound 8 then args (level + 1) else throw .corrupt

def push (p : Pointer) : Run Unit := do
  reserve Heap.slotSize
  let start ← position p
  updateHeap (·.push? start)

def peek (level : Nat) : Run Pointer := do
  reach level
  register (← readHeap (·.slot? level))

def pop : Run Pointer := do
  let p ← peek 0
  updateHeap (·.drop? 1)
  return p

def put (level : Nat) (p : Pointer) : Run Unit := do
  reach level
  let start ← position p
  updateHeap (·.setSlot? level start)

def discard (n : Nat) : Run Unit := do
  args n
  updateHeap (·.drop? n)

def clear : Run Unit := updateHeap fun h => do h.drop? (← h.depth?)

/-- Brings the object at level `n - 1` to the top; those above it go one level down. -/
def roll : Nat → Run Unit
  | 0 => pure ()
  | n + 1 => do
    args (n + 1)
    updateHeap (·.roll? n)

def swap : Run Unit := roll 2

end RpnMachine.Run
