import RpnMachine.Object.Value
import RpnMachine.Number.Text

/-! How objects are written out: the pieces of text, without the objects inside others. -/
namespace RpnMachine.Layout

/-- A new line, two columns further in for every level; a blank where all is on one line. -/
def newline (flat : Bool) (indent : Nat) : List String :=
  if flat then [" "] else "\n" :: .replicate indent "  "

def doubled (s : String) : String :=
  String.ofList (s.toList.flatMap fun c => if c = '"' then [c, c] else [c])

def pieces : Value → List String
  | .integer i => [toString i]
  | .decimal bits => [Number.decimalText bits]
  | .text s => ["\"", doubled s, "\""]
  | .symbol s => [s]
  | .command c => [c.name]
  | .composite _ _ => []

end RpnMachine.Layout
