import RpnMachine.Machine.Allocation
import RpnMachine.Source.Script

/-! Building objects from a source text. A finished child is copied to the scratchpad right away,
so that no structure refers to its parts while it is being built. -/
namespace RpnMachine.Run

/-- Lack of memory while a text is read is an error in reading it. -/
def readingAt {α : Type} (position : Nat) (act : Run α) : Run α := do
  match ← attempt act with
  | .error (.error (.outOfMemory n)) => fail (.read { cause := .outOfMemory n, position })
  | outcome => ofOutcome outcome

/-- Makes an object: a child of the structure around it, or, with no structure open, the result. -/
def place (position : Nat) (marks : List Nat) (made : Run Pointer) : Run (Option Pointer) :=
  readingAt position do
    let p ← made
    if marks.isEmpty then
      return some p
    holding p (scratchAppendObject p)
    return none

/-- Takes steps one after the other. The marks tell where in the scratchpad each open structure
starts. -/
def takeSteps : List Step → List Nat → Option Pointer → Run (Option Pointer)
  | [], _, result => return result
  | .make r position :: steps, marks, _ => do
    let result ← place position marks (make r)
    takeSteps steps marks result
  | .enter :: steps, marks, result => do
    let mark ← scratchMark
    takeSteps steps (mark :: marks) result
  | .wrap _ _ :: _, [], _ => throw .corrupt
  | .wrap c position :: steps, mark :: marks, _ => do
    let result ← place position marks (makeFromScratch (.composite c) mark)
    takeSteps steps marks result

/-- Takes the steps of a reading, and fails at its mistake if it has one. The scratchpad is as
before in any case. -/
def build {α : Type} (r : Reading α) : Run (Pointer × α) := do
  let mark ← scratchMark
  onFailure (scratchRelease mark) do
    let result ← takeSteps r.steps [] none
    match r.result with
    | .ok a => return (← ofOption result, a)
    | .error e =>
      result.forM release
      fail (.read e)

def readObject (source : String) : Run Pointer := do
  return (← build (Script.object (← get).room source)).1

def readBody (source : String) : Run Pointer := do
  return (← build (Script.body (← get).room source)).1

end RpnMachine.Run

namespace RpnMachine

/-- A text from which objects are read one at a time. -/
structure Reader where
  position : Nat
  tokens : List Token
  ending : Token.Ending

namespace Reader

def advance (tokens : List Token) (ending : Token.Ending) : Reader :=
  match tokens, ending with
  | t :: _, _ => ⟨t.start, tokens, ending⟩
  | [], .finished p | [], .openText p => ⟨p, [], ending⟩

def ofSource (source : String) : Reader :=
  let (tokens, ending) := Token.scan source
  advance tokens ending

/-- The next object and the byte after it; none at the end of the text. -/
def next (r : Reader) : Run (Option (Pointer × Nat × Reader)) := do
  match r.tokens, r.ending with
  | [], .finished _ => return none
  | [], .openText position => Run.fail (.read { cause := .openText, position })
  | tokens, ending =>
    let room := (← get).room
    let (p, stop, rest) ← Run.build (Reading.object room ending [] r.position tokens)
    return some (p, stop, advance rest ending)

end Reader
end RpnMachine
