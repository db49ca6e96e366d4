import RpnMachine.Heap.Basic
import RpnMachine.Heap.Bits
import RpnMachine.Registry

/-! Collection: temporaries that nothing refers to are dropped, and the others slide down.

What refers to memory is gathered first. A walk over the temporaries marks those that something
points to or into, and a second one moves them. At the end all that refers to memory is moved
along. -/
namespace RpnMachine

/-- A temporary that stays: where it was, where it goes, and its size. -/
structure Move where
  source : Nat
  target : Nat
  size : Nat
  deriving DecidableEq, Repr

structure Collection where
  /-- Bytes that became free. -/
  reclaimed : Nat
  /-- Objects that stayed. -/
  live : Nat
  /-- Of those, the ones that are somewhere else now. -/
  moved : Nat
  /-- Different positions among the temporaries that were referred to. -/
  roots : Nat
  deriving DecidableEq, Repr

namespace Collection

def inside (run : Nat × Nat) (position : Nat) : Bool :=
  run.1 ≤ position && position < run.1 + run.2

theorem inside_iff {run : Nat × Nat} {position : Nat} :
    inside run position ↔ run.1 ≤ position ∧ position < run.1 + run.2 := by
  simp [inside]

/-- Puts a position in its place among rising ones, unless it is there already. -/
def insertRoot (position : Nat) : List Nat → List Nat
  | [] => [position]
  | p :: ps =>
    if position < p then position :: p :: ps
    else if position = p then p :: ps
    else p :: insertRoot position ps

/-- Those of the positions that lie in a run of bytes, rising and without repetitions. -/
def gather (run : Nat × Nat) (positions : List Nat) : List Nat :=
  (positions.filter (inside run)).foldl (fun ps p => insertRoot p ps) []

/-- Marks the objects from `start` up to `last` that a root points to or into. Roots rise, so the
ones that lie below the end of an object lie in it. Marks are counted from `first`. -/
def mark? (m : Memory) (first last start : Nat) (roots : List Nat) (marks : Bits) :
    Option Bits :=
  if start < last then
    match m.objectSize? start last with
    | none | some 0 => none
    | some (n + 1) =>
      let next := start + (n + 1)
      let hit := roots.head?.any (· < next)
      mark? m first last next (roots.dropWhile (· < next))
        (if hit then marks.set (start - first) else marks)
  else if start = last then some marks
  else none
termination_by last - start

/-- Moves the marked objects from `start` up to `last` so that they lie one right after the other
from `target` on. An object is sized before anything is written over it. -/
def compact? (marks : Bits) (first last : Nat) (m : Memory) (start target : Nat) :
    Option (Memory × List Move) :=
  if start < last then
    match m.objectSize? start last with
    | none | some 0 => none
    | some (n + 1) =>
      let next := start + (n + 1)
      if marks.get (start - first) then do
        let m ← (if target = start then some m else m.copy? start next target)
        let (m, moves) ← compact? marks first last m next (target + (n + 1))
        return (m, ⟨start, target, n + 1⟩ :: moves)
      else compact? marks first last m next target
  else some (m, [])
termination_by last - start

/-- How many moves start at or before a position, which are at least `low` and at most `high`. The
sources of the moves rise. -/
def rank (moves : Array Move) (position low high : Nat) : Nat :=
  if low < high then
    let middle := (low + high) / 2
    if moves[middle]?.any (·.source ≤ position) then rank moves position (middle + 1) high
    else rank moves position low middle
  else low
termination_by high - low

/-- Where a position is after the moves: as far into its object as before. There is no answer for a
position outside of the objects that stay. -/
def relocate? (moves : Array Move) (position : Nat) : Option Nat := do
  match rank moves position 0 moves.size with
  | 0 => none
  | i + 1 =>
    let v ← moves[i]?
    if position < v.source + v.size then
      return v.target + (← Word.minus? position v.source)
    else none

end Collection

def Heap.roots? (h : Heap) (r : Registry) : Option (List Nat) := do
  return (← h.stack?) ++ r.positions

def Heap.moveRoots? (h : Heap) (r : Registry) (f : Nat → Option Nat) :
    Option (Heap × Registry) := do
  return (← h.mapStack? f, ← r.move? f)

open Collection in
/-- Collects the temporaries. The scratchpad follows them, and every root is moved along. -/
def Heap.collect? (h : Heap) (r : Registry) : Option (Collection × Heap × Registry) := do
  let first := h.permanentEnd
  let last := h.temporaryEnd
  let roots := gather (first, last - first) (← h.roots? r)
  let marks ← mark? h.memory first last first roots (.ofCapacity (last - first))
  let (memory, moves) ← compact? marks first last h.memory first first
  let stop := (moves.getLast?.map fun v => v.target + v.size).getD first
  let reclaimed ← Word.minus? last stop
  let length ← Word.minus? h.scratchEnd last
  let memory ←
    (if 0 < reclaimed ∧ 0 < length then memory.copy? last h.scratchEnd stop else some memory)
  let table := moves.toArray
  let (h, r) ←
    moveRoots? { h with memory, temporaryEnd := stop, scratchEnd := stop + length } r fun position =>
      if position < first then some position
      else if position < last then relocate? table position
      else Word.minus? position reclaimed
  let h ← check? { h with collections := h.collections + 1 }
  let done : Collection :=
    { reclaimed
      live := moves.length
      moved := moves.countP fun v => v.source ≠ v.target
      roots := roots.length }
  return (done, h, r)

end RpnMachine
