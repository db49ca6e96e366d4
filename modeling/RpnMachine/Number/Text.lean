import RpnMachine.Number.Shortest

/-! The text of a decimal. It has a point, so that it reads back as a decimal. -/
namespace RpnMachine.Number

/-- Digits with a point after the first `n` of them, filled up with zeros on either side. -/
def positional (ds : List Char) (n : Int) : String :=
  if n ≤ 0 then "0." ++ String.ofList (List.replicate (-n).toNat '0' ++ ds)
  else
    let n := n.toNat
    String.ofList (ds.take n ++ List.replicate (n - ds.length) '0' ++ '.' :: ds.drop n)

/-- One digit before the point, and the power of ten after an `e`. -/
def scientific (ds : List Char) (n : Int) : String :=
  String.ofList (ds.take 1 ++ '.' :: ds.drop 1) ++ "e" ++ toString (n - 1)

/-- From a hundred-thousandth up to a thousand million million a decimal is written in full. -/
def isPlain (x : Float) : Bool := x == 0 || (1e-5 ≤ x.abs && x.abs < 1e15)

def decimalText (bits : UInt64) : String :=
  let x := Float.ofBits bits
  if x.isNaN then "NaN"
  else
    let sign := if bits < 0x8000000000000000 then "" else "-"
    if x.isInf then sign ++ "inf"
    else if x == 0 then sign ++ "0."
    else
      let d := Shortest.decimal (.ofBits bits)
      let ds := Nat.toDigits 10 d.digits
      let point := ds.length + d.exponent
      sign ++ if isPlain x then positional ds point else scientific ds point

end RpnMachine.Number
