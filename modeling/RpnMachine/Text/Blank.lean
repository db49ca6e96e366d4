import RpnMachine.Text.Range

/-! White space, as Unicode's property of that name lists it. -/
namespace RpnMachine.Text

def blanks : Ranges :=
  [
    (0x9, 0xd), (0x20, 0x20), (0x85, 0x85), (0xa0, 0xa0), (0x1680, 0x1680), (0x2000, 0x200a),
    (0x2028, 0x2029), (0x202f, 0x202f), (0x205f, 0x205f), (0x3000, 0x3000)
  ]

def isBlank (c : Char) : Bool := blanks.has c

def trim (cs : List Char) : List Char :=
  ((cs.dropWhile isBlank).reverse.dropWhile isBlank).reverse

end RpnMachine.Text
