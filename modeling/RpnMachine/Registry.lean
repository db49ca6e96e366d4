/-! Pointers that are kept up to date. A pointer is a slot, and the slot holds the position of an
object wherever the object moves. -/
namespace RpnMachine

structure Pointer where
  slot : Nat
  deriving DecidableEq, Repr

/-- Vacant slots stand only below taken ones. -/
structure Registry where
  slots : Array (Option Nat) := #[]
  /-- The most slots that there were at any time. -/
  peak : Nat := 0
  deriving DecidableEq, Repr

namespace Registry

def register (r : Registry) (position : Nat) : Pointer × Registry :=
  (⟨r.slots.size⟩, ⟨r.slots.push (some position), max r.peak (r.slots.size + 1)⟩)

/-- Gives a slot back, and with it all vacant ones that nothing stands above any more. -/
def release? (r : Registry) (p : Pointer) : Option Registry :=
  if h : p.slot < r.slots.size then
    some { r with slots := (r.slots.set p.slot none h).popWhile Option.isNone }
  else none

def position? (r : Registry) (p : Pointer) : Option Nat := (r.slots[p.slot]?).join

def live (r : Registry) : List (Nat × Nat) :=
  r.slots.toList.zipIdx.filterMap fun s => s.1.map fun position => (s.2, position)

def positions (r : Registry) : List Nat := r.slots.toList.filterMap id

def set? (r : Registry) (p : Pointer) (position : Nat) : Option Registry :=
  if h : p.slot < r.slots.size then some { r with slots := r.slots.set p.slot (some position) h }
  else none

def move? (r : Registry) (f : Nat → Option Nat) : Option Registry :=
  r.live.foldlM (fun r s => do r.set? ⟨s.1⟩ (← f s.2)) r

end Registry
end RpnMachine
