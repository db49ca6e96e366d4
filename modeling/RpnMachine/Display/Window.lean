import RpnMachine.Text.Utf8

/-! A text seen through a window that may be too narrow for it. -/
namespace RpnMachine

/-- What is seen of a text that comes piece by piece. -/
structure Window where
  shown : String := ""
  /-- Bytes that are left. -/
  room : Nat
  /-- The length of the text in bytes, also of what is not seen. -/
  length : Nat := 0
  /-- Whether a piece did not fit. -/
  full : Bool := false
  deriving DecidableEq, Repr

namespace Window

def ofWidth (width : Nat) : Window := { room := width }

/-- Shows a piece as far as whole characters of it fit, and nothing after one that did not. -/
def put (w : Window) (piece : String) : Window :=
  let length := w.length + piece.utf8ByteSize
  if w.full then { w with length }
  else
    let head := String.ofList (Text.headWithin w.room piece.toList)
    { shown := w.shown ++ head
      room := w.room - head.utf8ByteSize
      length
      full := head.utf8ByteSize < piece.utf8ByteSize }

/-- What is seen, at the start of a buffer that is as wide as the window. -/
def onto (buffer : List UInt8) (w : Window) : List UInt8 :=
  Text.utf8 w.shown ++ buffer.drop w.shown.utf8ByteSize

def filled (w : Window) : List Char := w.shown.toList ++ List.replicate w.room '\x00'

end Window
end RpnMachine
