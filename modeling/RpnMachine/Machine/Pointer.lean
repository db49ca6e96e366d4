import RpnMachine.Machine.Basic

/-! Pointers to objects: holding them, and reading what they point to. -/
namespace RpnMachine.Run

def register (position : Nat) : Run Pointer :=
  changeRegistry fun r => some (r.register position)

def release (p : Pointer) : Run Unit :=
  changeRegistry fun r => do return ((), ← r.release? p)

/-- Runs with a pointer, which is released at the end in any case. -/
def holding {α : Type} (p : Pointer) (act : Run α) : Run α := ensuring (release p) act

def holdingAll {α : Type} (ps : List Pointer) (act : Run α) : Run α :=
  ensuring (ps.forM release) act

def acquiring {α : Type} (acquire : Run Pointer) (act : Pointer → Run α) : Run α := do
  let p ← acquire
  holding p (act p)

def position (p : Pointer) : Run Nat := readRegistry (·.position? p)

def bytes (p : Pointer) : Run (List UInt8) := do
  let start ← position p
  readHeap (·.memory.object? start)

def size (p : Pointer) : Run Nat := do
  let start ← position p
  let stop ← readHeap (·.memory.objectEnd? start)
  return stop - start

def kind (p : Pointer) : Run Kind := do
  ofOption (Encoding.kind? (← bytes p))

def value (p : Pointer) : Run Value := do
  match ← ofOption (Encoding.value? (← bytes p)) with
  | .ok v => return v
  | .error d => fail (.invalidObject d)

def clone (p : Pointer) : Run Pointer := do
  register (← position p)

/-- A pointer to a place some bytes into the object. The sum has to be a 64-bit word, of which a
pointer keeps as many bytes as a level of the stack. -/
def within (p : Pointer) (offset : Nat) : Run Pointer := do
  let place := (← position p) + offset
  if place < Word.bound 8 then register (place % Word.bound Heap.slotSize) else throw .corrupt

def children (p : Pointer) : Run (List Pointer) := do
  let start ← position p
  let spans ← ofOption (Encoding.children? (← bytes p))
  spans.mapM fun s => register (start + s.1)

end RpnMachine.Run
