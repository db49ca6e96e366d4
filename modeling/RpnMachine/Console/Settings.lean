import RpnMachine.Text.Blank
import RpnMachine.Text.Quoted
import RpnMachine.Word

/-! What is fixed when a calculator starts. -/
namespace RpnMachine

structure Settings where
  /-- Bytes of memory. -/
  memory : Nat := 64 * 1024
  /-- Columns for a line of the stack. -/
  width : Nat := 80
  /-- Every entry of the stack is shown on one line. -/
  flat : Bool := true
  deriving DecidableEq, Repr

namespace Settings

def memoryVariable : String := "RPLISH_MEMORY"

def widthVariable : String := "RPLISH_WIDTH"

structure Invalid where
  name : String
  value : String
  deriving DecidableEq, Repr

def Invalid.message (e : Invalid) : String :=
  "invalid value for " ++ e.name ++ ": " ++ Text.quoted e.value

/-- A decimal number of at most 64 bits, which may have a plus sign. -/
def number? (cs : List Char) : Option Nat :=
  let ds : List Char :=
    match cs with
    | '+' :: ds => ds
    | ds => ds
  let n := ds.foldl (fun n c => 10 * n + (c.toNat - '0'.toNat)) 0
  if ds ≠ [] ∧ ds.all Char.isDigit ∧ n < Word.bound 8 then some n else none

/-- A count of bytes, where a final `K` or `M` stands for 1024 or 1024 times 1024. -/
def size? (value : String) : Option Nat := do
  let cs := Text.trim value.toList
  let last ← cs.getLast?
  let (ds, scale) :=
    if last = 'k' ∨ last = 'K' then (cs.dropLast, 1024)
    else if last = 'm' ∨ last = 'M' then (cs.dropLast, 1024 * 1024)
    else (cs, 1)
  let n := (← number? ds) * scale
  if n < Word.bound 8 then some n else none

/-- Positions in memory are 32-bit words. -/
def memory? (value : String) : Option Nat :=
  (size? value).filter fun n => 0 < n && n < Word.bound 4

def width? (value : String) : Option Nat :=
  (number? (Text.trim value.toList)).filter (8 ≤ ·)

def setting (name : String) (read : String → Option Nat) (default : Nat) :
    Option String → Except Invalid Nat
  | none => .ok default
  | some value =>
    match read value with
    | some n => .ok n
    | none => .error { name, value }

def ofVariables (memory width : Option String) : Except Invalid Settings := do
  let defaults : Settings := {}
  let memory ← setting memoryVariable memory? defaults.memory memory
  let width ← setting widthVariable width? defaults.width width
  return { defaults with memory, width }

end Settings
end RpnMachine
