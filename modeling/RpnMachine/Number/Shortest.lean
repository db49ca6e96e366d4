/-! The fewest decimal digits that single out a binary number among its neighbours.

The number is `m * 2 ^ q`. All comparisons are exact: both sides are scaled to natural numbers. -/
namespace RpnMachine.Shortest

/-- A positive binary number and the reals that round to it. Its value and the ends are counted in
quarters of its last place. -/
structure Binary where
  significand : Nat
  exponent : Int
  low : Nat
  high : Nat
  /-- The ends themselves round to the number too. -/
  closed : Bool
  deriving DecidableEq, Repr

/-- The magnitude of a finite double that is not zero. Below a power of two the neighbours lie
closer together than above it. -/
def Binary.ofBits (bits : UInt64) : Binary :=
  let fraction := bits.toNat % 0x10000000000000
  let biased := bits.toNat / 0x10000000000000 % 0x800
  let m := if biased = 0 then fraction else fraction + 0x10000000000000
  let q : Int := (if biased = 0 then 1 else biased : Nat) - 1075
  { significand := m
    exponent := q
    low := if biased ≠ 0 ∧ fraction = 0 then 4 * m - 1 else 4 * m - 2
    high := 4 * m + 2
    closed := m % 2 = 0 }

/-- Digits without trailing zeros, times a power of ten. -/
structure Decimal where
  digits : Nat
  exponent : Int
  deriving DecidableEq, Repr

/-- Factors that bring quarters of the last place and units of `10 ^ e` to one scale. -/
def scales (b : Binary) (e : Int) : Nat × Nat :=
  (Nat.pow 2 (b.exponent - 2).toNat * Nat.pow 10 (-e).toNat,
    Nat.pow 10 e.toNat * Nat.pow 2 (2 - b.exponent).toNat)

def singlesOut (b : Binary) (e : Int) (c : Nat) : Bool :=
  let (s, t) := scales b e
  if b.closed then b.low * s ≤ c * t && c * t ≤ b.high * s
  else b.low * s < c * t && c * t < b.high * s

/-- The multiples of `10 ^ e` just below and just above the number; of two that single it out the
nearer one, and the upper one if neither is nearer. -/
def onGrid? (b : Binary) (e : Int) : Option Nat :=
  let (s, t) := scales b e
  let v := 4 * b.significand * s
  let c := v / t
  match singlesOut b e c, singlesOut b e (c + 1) with
  | true, true => if 2 * v < (2 * c + 1) * t then some c else some (c + 1)
  | true, false => some c
  | false, true => some (c + 1)
  | false, false => none

def search (b : Binary) : Nat → Int → Decimal
  | 0, e => ⟨b.significand, e⟩
  | n + 1, e =>
    match onGrid? b e with
    | some c => ⟨c, e⟩
    | none => search b n (e - 1)

def stripZeros : Nat → Decimal → Decimal
  | 0, d => d
  | n + 1, d =>
    if d.digits ≠ 0 ∧ d.digits % 10 = 0 then stripZeros n ⟨d.digits / 10, d.exponent + 1⟩ else d

/-- The least power of ten above the number, looked for upwards from `k`. -/
def leastPower (b : Binary) : Nat → Int → Int
  | 0, k => k
  | n + 1, k =>
    let (s, t) := scales b k
    if t ≤ 4 * b.significand * s then leastPower b n (k + 1) else k

/-- Seventeen digits always do. -/
def decimal (b : Binary) : Decimal :=
  let guess := (b.exponent + Nat.log2 b.significand) * 30103 / 100000 - 1
  let k := leastPower b 5 guess
  stripZeros 20 (search b 18 (k - 1))

end RpnMachine.Shortest
