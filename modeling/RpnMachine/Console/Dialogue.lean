import RpnMachine.Console.StackView
import RpnMachine.Eval.Evaluator

/-! The dialogue with the user: lines are read, run, and answered with the stack. -/
namespace RpnMachine

/-- What was written in answer to some lines, and the lines that wait for more. -/
structure Dialogue where
  pending : String := ""
  output : String := ""
  errors : String := ""
  deriving DecidableEq, Repr

namespace Dialogue

def complaint (e : Error) : String := "error: " ++ e.message ++ "\n"

/-- The lines of a text. A carriage return before the end of a line belongs to it. -/
def lines (input : List UInt8) : List (List UInt8) := go [] input
where
  go (line : List UInt8) : List UInt8 → List (List UInt8)
    | [] => if line.isEmpty then [] else [line.reverse]
    | b :: bs =>
      if b = 10 then
        (if line.head? = some 13 then line.tail else line).reverse :: go [] bs
      else go (b :: line) bs

/-- Takes one more line. Lines that are not complete wait for the next one. -/
def enter (passes : Nat) (settings : Settings) (d : Dialogue) (line : String) : Run Dialogue := do
  let source := d.pending ++ line ++ "\n"
  match ← Run.attempt (Run.line passes source) with
  | .ok () => answer { d with pending := "" }
  | .error (.error e) =>
    match e with
    | .read r => if r.isIncomplete then return { d with pending := source } else pure ()
    | _ => pure ()
    answer { d with pending := "", errors := d.errors ++ complaint e }
  | .error f => throw f
where
  answer (d : Dialogue) : Run Dialogue := do
    modify fun m => { m with interrupted := false }
    let _ ← Run.collect
    return { d with output := d.output ++ (← Run.showStack settings) }

def finish (d : Dialogue) : Run Dialogue := do
  if (Text.trim d.pending.toList).isEmpty then
    return d
  match ← Run.attempt (Run.acquiring (Run.readBody d.pending) fun _ => pure ()) with
  | .ok () => return d
  | .error (.error e) => return { d with errors := d.errors ++ complaint e }
  | .error f => throw f

/-- The dialogue over a whole input, and whether all of it was text. It ends at the first line that
is not. -/
def run (passes : Nat) (settings : Settings) (input : List UInt8) : Run (Dialogue × Bool) :=
  go {} (lines input)
where
  go (d : Dialogue) : List (List UInt8) → Run (Dialogue × Bool)
    | [] => do return (← finish d, true)
    | bytes :: rest => do
      match Text.ofUtf8? bytes with
      | some line => go (← enter passes settings d line) rest
      | none => return (d, false)

end Dialogue
end RpnMachine
