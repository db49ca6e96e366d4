import RpnMachine.Error
import RpnMachine.Heap.Collection

/-! The machine: memory, the pointers into it, and how a run on it goes.

Memory and the registry are borrowed for as long as they are used. Whoever changes one of them has
to be the only one who uses it at that time. -/
namespace RpnMachine

structure Stats where
  permanent : Nat := 0
  temporaries : Nat := 0
  scratch : Nat := 0
  depth : Nat := 0
  free : Nat := 0
  collections : Nat := 0
  pointers : Nat := 0
  deriving DecidableEq, Repr

def Stats.of? (h : Heap) (r : Registry) : Option Stats := do
  return {
    permanent := h.permanentEnd
    temporaries := ← Word.minus? h.temporaryEnd h.permanentEnd
    scratch := ← h.scratchLength?
    depth := ← h.depth?
    free := ← h.free?
    collections := h.collections
    pointers := r.live.length }

def Stats.max (a b : Stats) : Stats :=
  { permanent := Max.max a.permanent b.permanent
    temporaries := Max.max a.temporaries b.temporaries
    scratch := Max.max a.scratch b.scratch
    depth := Max.max a.depth b.depth
    free := Max.max a.free b.free
    collections := Max.max a.collections b.collections
    pointers := Max.max a.pointers b.pointers }

structure Machine where
  heap : Heap
  registry : Registry := {}
  /-- Someone asked for the run to stop. -/
  interrupted : Bool := false
  /-- Levels of nesting that are taken already. -/
  nesting : Nat := 0
  /-- The largest statistics that were taken. -/
  peak : Stats := {}

namespace Machine

def ofCapacity (n : Nat) : Machine := { heap := .ofCapacity n }

/-- A machine whose positions fit into the levels of its stack. -/
def ofCapacity? (n : Nat) : Option Machine :=
  if n < Word.bound Heap.slotSize then some (ofCapacity n) else none

def maxNesting : Nat := 256

def room (m : Machine) : Nat := maxNesting - m.nesting

def stats (m : Machine) : Stats := (Stats.of? m.heap m.registry).getD {}

def sample (m : Machine) : Machine := { m with peak := m.peak.max m.stats }

end Machine

/-- What is borrowed before it is used. -/
inductive Cell where
  | heap | registry
  deriving DecidableEq, Repr

inductive Borrow where
  | free
  /-- By any number of readers. -/
  | shared
  /-- By the only one who may change it. -/
  | claimed
  deriving DecidableEq, Repr

/-- A run changes the machine and gives a result, or fails. What it changed before it failed stays
changed. It may be part of one that has borrowed something already. -/
abbrev Run (α : Type) : Type := ReaderT (Cell → Borrow) (ExceptT Failure (StateM Machine)) α

namespace Run

variable {α : Type}

def run (act : Run α) : StateM Machine (Except Failure α) :=
  (ReaderT.run act fun _ => .free).run

def fail (e : Error) : Run α := throw (.error e)

/-- Without a value the memory is corrupt. -/
def ofOption : Option α → Run α
  | some a => pure a
  | none => throw .corrupt

def ofExcept : Except Error α → Run α
  | .ok a => pure a
  | .error e => fail e

def attempt (act : Run α) : Run (Except Failure α) := fun held => ExceptT.lift (act held).run

def ofOutcome : Except Failure α → Run α
  | .ok a => pure a
  | .error e => throw e

/-- Does one thing more afterwards, also after a failure. -/
def ensuring (after : Run Unit) (act : Run α) : Run α := do
  let outcome ← attempt act
  after
  ofOutcome outcome

def onFailure (after : Run Unit) (act : Run α) : Run α := do
  match ← attempt act with
  | .ok a => pure a
  | .error e =>
    after
    throw e

def borrowing (b : Borrow) (c : Cell) (act : Run α) : Run α :=
  withReader (fun held d => if d = c then b else held d) act

/-- Runs with a cell shared. Nobody may have claimed it. -/
def sharing (c : Cell) (act : Run α) : Run α := do
  if (← read) c = .claimed then
    throw .corrupt
  borrowing .shared c act

/-- Runs with a cell claimed. Nobody may have borrowed it. -/
def claiming (c : Cell) (act : Run α) : Run α := do
  if (← read) c ≠ .free then
    throw .corrupt
  borrowing .claimed c act

def readHeap (f : Heap → Option α) : Run α :=
  sharing .heap do ofOption (f (← get).heap)

def readRegistry (f : Registry → Option α) : Run α :=
  sharing .registry do ofOption (f (← get).registry)

def readBoth (f : Heap → Registry → Option α) : Run α :=
  sharing .heap <| sharing .registry do
    let m ← get
    ofOption (f m.heap m.registry)

def changeHeap (f : Heap → Option (α × Heap)) : Run α :=
  claiming .heap do
    let m ← get
    let (a, heap) ← ofOption (f m.heap)
    set { m with heap }
    return a

def changeRegistry (f : Registry → Option (α × Registry)) : Run α :=
  claiming .registry do
    let m ← get
    let (a, registry) ← ofOption (f m.registry)
    set { m with registry }
    return a

def changeBoth (f : Heap → Registry → Option (α × Heap × Registry)) : Run α :=
  claiming .heap <| claiming .registry do
    let m ← get
    let (a, heap, registry) ← ofOption (f m.heap m.registry)
    set { m with heap, registry }
    return a

def updateHeap (f : Heap → Option Heap) : Run Unit :=
  changeHeap fun h => do return ((), ← f h)

def updateBoth (f : Heap → Registry → Option (Heap × Registry)) : Run Unit :=
  changeBoth fun h r => do return ((), ← f h r)

def sample : Run Stats := do
  let stats ← readBoth Stats.of?
  modify fun m => { m with peak := m.peak.max stats }
  return stats

end Run
end RpnMachine
