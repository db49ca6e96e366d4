import RpnMachine.Number.Basic

/-! Numbers as they are written: which words are numbers, and the value of a word. -/
namespace RpnMachine.Number

structure Literal where
  negative : Bool
  whole : List Char
  /-- The digits after the point, if there is a point. -/
  fraction : Option (List Char)
  /-- The sign and digits after the `e`, if there is one. -/
  exponent : Option (Bool × List Char)

namespace Literal

/-- The sign and digits of an exponent: nothing else may follow. -/
def exponent? (cs : List Char) : Option (Option (Bool × List Char)) :=
  match cs with
  | [] => some none
  | c :: cs =>
    if c = 'e' ∨ c = 'E' then
      let (negative, ds) :=
        match cs with
        | '-' :: ds => (true, ds)
        | '+' :: ds => (false, ds)
        | ds => (false, ds)
      if ds ≠ [] ∧ ds.all Char.isDigit then some (some (negative, ds)) else none
    else none

/-- An optional minus sign, digits, and then optionally a point with digits on at least one side
and an exponent. -/
def parse? (word : List Char) : Option Literal := do
  let (negative, cs) :=
    match word with
    | '-' :: cs => (true, cs)
    | cs => (false, cs)
  let whole := cs.takeWhile Char.isDigit
  match cs.dropWhile Char.isDigit with
  | [] => if whole = [] then none else some ⟨negative, whole, none, none⟩
  | '.' :: cs =>
    let fraction := cs.takeWhile Char.isDigit
    if whole = [] ∧ fraction = [] then none
    else
      let exponent ← exponent? (cs.dropWhile Char.isDigit)
      some ⟨negative, whole, some fraction, exponent⟩
  | _ => none

def isInteger (l : Literal) : Bool := l.fraction.isNone

def isDecimal (l : Literal) : Bool := l.fraction.isSome

def value (ds : List Char) : Nat := ds.foldl (fun n c => 10 * n + (c.toNat - '0'.toNat)) 0

/-- The decimal nearest to `m * 10 ^ e`. Beyond the range of decimals the powers need not be
computed. -/
def scale (m : Nat) (e : Int) : Float :=
  if m = 0 then 0
  else
    let size := (Nat.toDigits 10 m).length + e
    if size < -330 then 0
    else if 310 < size then 1 / 0
    else Float.ofScientific m (e < 0) e.natAbs

def toFloat (l : Literal) : Float :=
  let fraction := l.fraction.getD []
  let e : Int :=
    match l.exponent with
    | none => 0
    | some (negative, ds) => if negative then -value ds else value ds
  let x := scale (value (l.whole ++ fraction)) (e - fraction.length)
  if l.negative then -x else x

end Literal

def isIntegerWord (word : String) : Bool := (Literal.parse? word.toList).any Literal.isInteger

def isDecimalWord (word : String) : Bool := (Literal.parse? word.toList).any Literal.isDecimal

end RpnMachine.Number
