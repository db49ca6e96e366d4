import RpnMachine.Console.Dialogue

/-! The calculator on standard input and output. -/
namespace RpnMachine

def chomp (line : String) : String :=
  match line.toList.reverse with
  | '\n' :: '\r' :: cs | '\n' :: cs => String.ofList cs.reverse
  | _ => line

/-- Writes what a dialogue has to say, and goes on without it. -/
def say (d : Dialogue) : IO Dialogue := do
  let output ← IO.getStdout
  let errors ← IO.getStderr
  errors.putStr d.errors
  output.putStr d.output
  output.flush
  return { d with output := "", errors := "" }

partial def converse (settings : Settings) (input : IO.FS.Stream) (m : Machine) (d : Dialogue) :
    IO UInt32 := do
  let line ← input.getLine
  let act := if line.isEmpty then d.finish else d.enter Run.manyPasses settings (chomp line)
  match act.run.run m with
  | (.ok d, m) =>
    let d ← say d
    if line.isEmpty then return 0 else converse settings input m d
  | (.error _, _) => return 101

end RpnMachine

open RpnMachine in
def main : IO UInt32 := do
  let memory ← IO.getEnv Settings.memoryVariable
  let width ← IO.getEnv Settings.widthVariable
  match Settings.ofVariables memory width with
  | .ok settings => converse settings (← IO.getStdin) (.ofCapacity settings.memory) {}
  | .error e => do
    (← IO.getStderr).putStrLn e.message
    return 2
