import RpnMachine.Machine.Allocation

/-! The directory of named objects. The permanent region holds, for each of them, a symbol and
right after it the object. -/
namespace RpnMachine

/-- A name, and where its symbol starts, its object starts, and its object ends. -/
structure Binding where
  name : List UInt8
  start : Nat
  object : Nat
  stop : Nat
  deriving DecidableEq, Repr

namespace Binding

def size (b : Binding) : Nat := b.stop - b.start

def ofBytes? (start : Nat) (bytes : List UInt8) : Option Binding := do
  let n ← Encoding.size? bytes
  let k ← Encoding.size? (bytes.drop n)
  let (first, last) ← Encoding.payload? bytes
  let name ← Encoding.slice? bytes first last
  some ⟨name, start, start + n, start + n + k⟩

end Binding

/-- The bindings in a run of bytes. -/
structure Directory where
  /-- In the order in which they were stored. -/
  bindings : List Binding
  /-- Whether there is nothing but bindings. -/
  whole : Bool
  deriving DecidableEq, Repr

namespace Directory

def ofBytes (start : Nat) : List UInt8 → Directory
  | [] => ⟨[], true⟩
  | b :: bs =>
    match Binding.ofBytes? start (b :: bs) with
    | none => ⟨[], false⟩
    | some binding =>
      let rest := ofBytes binding.stop (bs.drop (binding.size - 1))
      ⟨binding :: rest.bindings, rest.whole⟩
termination_by bytes => bytes.length
decreasing_by simp only [List.length_drop, List.length_cons]; omega

def all? (d : Directory) : Option (List Binding) := if d.whole then some d.bindings else none

/-- The binding of a name. Without one it takes the whole directory to tell. -/
def find? (d : Directory) (name : String) : Option (Option Binding) :=
  match d.bindings.find? (·.name == Text.utf8 name) with
  | some b => some (some b)
  | none => if d.whole then some none else none

end Directory

namespace Heap

def directory? (h : Heap) : Option Directory := do
  return .ofBytes 0 (← h.memory.slice? 0 h.permanentEnd)

def binding? (h : Heap) (name : String) : Option (Option Binding) := do
  (← h.directory?).find? name

def refersTo? (h : Heap) (r : Registry) (b : Binding) : Option Bool := do
  return (← h.roots? r).any (Collection.inside (b.start, b.size))

/-- Moves the positions from `start` up to `stop` so that they start at `target`. -/
def shiftRoots? (h : Heap) (r : Registry) (start stop target : Nat) : Option (Heap × Registry) :=
  h.moveRoots? r fun position =>
    if Collection.inside (start, stop - start) position then some (target + (position - start))
    else some position

/-- Whatever refers into a binding refers to a copy of it at `target` afterwards. -/
def redirect? (h : Heap) (r : Registry) (b : Binding) (target : Nat) :
    Option (Heap × Registry) := do
  let memory ← h.memory.copy? b.start b.stop target
  shiftRoots? { h with memory } r b.start b.stop target

/-- Closes the gap that a binding leaves. All that is above it moves down. -/
def closeGap? (h : Heap) (r : Registry) (b : Binding) : Option (Heap × Registry) := do
  let memory ← h.memory.copy? b.stop h.scratchEnd b.start
  let (h, r) ← shiftRoots? { h with memory } r b.stop h.scratchEnd b.start
  let permanentEnd ← Word.minus? h.permanentEnd b.size
  let temporaryEnd ← Word.minus? h.temporaryEnd b.size
  let scratchEnd ← Word.minus? h.scratchEnd b.size
  return (← check? { h with permanentEnd, temporaryEnd, scratchEnd }, r)

/-- Adds a binding of a symbol, given by its bytes, to an object of `length` bytes, which is copied.
All that is above the permanent region moves up to make room. -/
def bind? (h : Heap) (r : Registry) (symbol : List UInt8) (p : Pointer) (length : Nat) :
    Option (Heap × Registry) := do
  let start := h.permanentEnd
  let object := start + symbol.length
  let stop := object + length
  let total := symbol.length + length
  let scratchEnd := h.scratchEnd
  let memory ← h.memory.copy? start scratchEnd stop
  let h := { h with
    memory, temporaryEnd := h.temporaryEnd + total, scratchEnd := scratchEnd + total }
  let (h, r) ← h.shiftRoots? r start scratchEnd stop
  let memory ← h.memory.write? start object symbol
  let source ← r.position? p
  let memory ← memory.copy? source (source + length) object
  return (← check? { h with memory, permanentEnd := stop }, r)

end Heap

namespace Run

def findBinding (name : String) : Run (Option Binding) := readHeap (·.binding? name)

/-- A pointer to the object that a name stands for. It is not copied. -/
def lookup (name : String) : Run (Option Pointer) := do
  match ← findBinding name with
  | some b => return some (← register b.object)
  | none => return none

def names : Run (List String) := do
  let bindings ← readHeap fun h => do (← h.directory?).all?
  return bindings.map fun b => (Text.ofUtf8? b.name).getD ""

def referenced (b : Binding) : Run Bool := readBoth fun h r => h.refersTo? r b

/-- Removes a name; false if there is no such name. Whatever refers into the binding refers to a
copy of it among the temporaries afterwards. -/
def purge (name : String) : Run Bool := do
  match ← findBinding name with
  | none => return false
  | some b =>
    if ← referenced b then
      let new ← allocate b.size
      updateBoth fun h r => h.redirect? r b new
    updateBoth fun h r => h.closeGap? r b
    return true

/-- The bytes that have to be free before a binding of `total` bytes replaces an old one. An old
one that is referred to is copied before it is removed. -/
def replacementSize (total : Nat) : Option Binding → Run Nat
  | none => return total
  | some b => do return if ← referenced b then max total b.size else total - b.size

/-- Lets a name stand for a copy of an object. Nothing changes unless there is room. -/
def store (name : String) (p : Pointer) : Run Unit := do
  if name.isEmpty then
    fail .invalidName
  let symbol := (Recipe.symbol name).encode
  let length ← size p
  let total := symbol.length + length
  reserve (← replacementSize total (← findBinding name))
  let _ ← purge name
  reserve total
  updateBoth fun h r => h.bind? r symbol p length

end Run
end RpnMachine
