/-! Text as bytes in UTF-8. -/
namespace RpnMachine.Text

def utf8 (s : String) : List UInt8 := s.toUTF8.data.toList

def ofUtf8? (bytes : List UInt8) : Option String := String.fromUTF8? ⟨bytes.toArray⟩

/-- The most characters from the start that take no more than `room` bytes. -/
def headWithin (room : Nat) : List Char → List Char
  | [] => []
  | c :: cs => if c.utf8Size ≤ room then c :: headWithin (room - c.utf8Size) cs else []

end RpnMachine.Text
