import RpnMachine.Console.Settings
import RpnMachine.Machine.Rendering
import RpnMachine.Machine.Stack

/-! The stack as it is shown to the user. -/
namespace RpnMachine

namespace StackView

/-- A text that fits, or what is seen of it up to the last column, where an ellipsis stands. -/
def entry (width : Nat) (w : Window) : String :=
  if w.length ≤ width then w.shown else String.ofList (w.filled.take (width - 1) ++ ['…'])

def label (level : Nat) : String := toString (level + 1) ++ ": "

end StackView

namespace Run

def showLevel (settings : Settings) (level : Nat) : Run String := do
  let label := StackView.label level
  let width := max 1 (settings.width - label.utf8ByteSize)
  match ← attempt (acquiring (peek level) (renderWithin width settings.flat)) with
  | .ok w => return label ++ StackView.entry width w ++ "\n"
  | .error (.error e) => return label ++ "<" ++ e.message ++ ">\n"
  | .error f => throw f

/-- The stack, the top last. -/
def showStack (settings : Settings) : Run String := do
  let lines ← (List.range (← depth)).reverse.mapM (showLevel settings)
  return String.join lines

end Run
end RpnMachine
