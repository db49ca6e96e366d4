import RpnMachine.Error

/-! Numbers of the calculator: integers stay exact while they can, all else is a decimal. -/
namespace RpnMachine

/-- Integers have 128 bits, so that no operation on two integer objects overflows. -/
inductive Number where
  | integer (i : Int)
  | decimal (x : Float)

namespace Number

def bound : Nat := Word.bound 16 / 2

def fits (i : Int) : Bool := -bound ≤ i && i < bound

def checked (i : Int) : Except Failure Number :=
  if fits i then .ok (integer i) else .error .corrupt

def ofValue? : Value → Option Number
  | .integer i => some (integer i)
  | .decimal bits => some (decimal (Float.ofBits bits))
  | _ => none

def toFloat : Number → Float
  | integer i => Float.ofInt i
  | decimal x => x

def isZero : Number → Bool
  | integer i => i == 0
  | decimal x => x == 0

def isNegative : Number → Bool
  | integer i => i < 0
  | decimal x => x < 0

/-- An exact result if both are integers and it fits, and otherwise a decimal one. -/
def exactly (op : Int → Int → Int) (approx : Float → Float → Float) : Number → Number → Number
  | integer a, integer b =>
    if fits (op a b) then integer (op a b) else decimal (approx (Float.ofInt a) (Float.ofInt b))
  | a, b => decimal (approx a.toFloat b.toFloat)

def add : Number → Number → Number := exactly (· + ·) (· + ·)

def sub : Number → Number → Number := exactly (· - ·) (· - ·)

def mul : Number → Number → Number := exactly (· * ·) (· * ·)

/-- Exact quotients stay integers. -/
def div (a b : Number) : Except Failure Number :=
  if b.isZero then .error (.error .divideByZero)
  else
    match a, b with
    | integer a, integer b =>
      if a.tmod b = 0 then checked (a.tdiv b)
      else .ok (decimal (Float.ofInt a / Float.ofInt b))
    | a, b => .ok (decimal (a.toFloat / b.toFloat))

def neg : Number → Except Failure Number
  | integer i => checked (-i)
  | decimal x => .ok (decimal (-x))

def abs : Number → Except Failure Number
  | integer i => checked i.natAbs
  | decimal x => .ok (decimal x.abs)

/-- By value. A number that is not a number has no order with any other. -/
def compare? : Number → Number → Option Ordering
  | integer a, integer b => some (compare a b)
  | a, b =>
    let x := a.toFloat
    let y := b.toFloat
    if x < y then some .lt else if x == y then some .eq else if y < x then some .gt else none

def equal (a b : Number) : Bool := a.compare? b == some .eq

/-- The object of a number. Integers that need more than 64 bits become decimals, and decimals
have to be finite. -/
def recipe : Number → Except Error Recipe
  | integer i => .ok ((Recipe.ofInt? i).getD (.decimal (Float.ofInt i).toBits))
  | decimal x => if x.isFinite then .ok (.decimal x.toBits) else .error .overflow

end Number
end RpnMachine
