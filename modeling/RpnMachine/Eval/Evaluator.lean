import RpnMachine.Eval.Commands
import RpnMachine.Machine.Building

/-! Evaluation: what an object does when a program meets it, and what EVAL does with it.

An evaluator for `n + 1` levels of nesting is made from one for `n` levels, so evaluation ends for
certain, except for loops. A loop is given a number of passes. What the commands do is given too. -/
namespace RpnMachine

/-- The effect of each command, given what EVAL does with its argument. -/
abbrev Repertoire : Type := (Pointer → Run Unit) → Command → Run Unit

structure Evaluator where
  /-- What happens when a program meets the object. -/
  evaluate : Pointer → Run Unit
  /-- What EVAL does with the object. -/
  execute : Pointer → Run Unit

namespace Run

def checkInterrupt : Run Unit := do
  if (← get).interrupted then
    fail .interrupted

/-- Evaluates objects in order. Each pointer is released when its turn is over. -/
def evaluateAll (evaluate : Pointer → Run Unit) : List Pointer → Run Unit
  | [] => pure ()
  | p :: ps => do
    onFailure (ps.forM release) <| holding p do
      checkInterrupt
      evaluate p
    evaluateAll evaluate ps

def sequence (evaluate : Pointer → Run Unit) (p : Pointer) : Run Unit := do
  evaluateAll evaluate (← children p)

/-- Runs a condition, which has to leave exactly one object, and takes that as its outcome. -/
def test (evaluate : Pointer → Run Unit) (p : Pointer) : Run Bool := do
  let before ← depth
  sequence evaluate p
  let after ← depth
  if after ≠ before + 1 then
    fail (.badStackDepth (before + 1) after)
  acquiring pop truth

/-- Makes passes until one gives nothing to go on with. -/
def iterate {σ : Type} (pass : σ → Run (Option σ)) : Nat → σ → Run Unit
  | 0, _ => throw .exhausted
  | n + 1, s => do
    checkInterrupt
    match ← pass s with
    | none => pure ()
    | some s => iterate pass n s

/-- Runs the body once for the start and for every further step that does not go past the end. -/
def count (evaluate : Pointer → Run Unit) (passes : Nat) (stepped : Bool) (body : Pointer) :
    Run Unit := do
  args 2
  let stop ← acquiring (peek 0) number
  let start ← acquiring (peek 1) number
  discard 2
  iterate (pass stop) passes start
where
  pass (stop counter : Number) : Run (Option Number) := do
    sequence evaluate body
    let step ← if stepped then acquiring pop number else pure (.integer 1)
    let counter := counter.add step
    let past := if step.isNegative then Ordering.lt else Ordering.gt
    return if counter.compare? stop = some past then none else some counter

def control (evaluate : Pointer → Run Unit) (passes : Nat) (c : Control) (p : Pointer) :
    Run Unit := do
  let clauses ← children p
  holdingAll clauses do
    match c, clauses with
    | .ifThen, [condition, yes] =>
      if ← test evaluate condition then
        sequence evaluate yes
    | .ifThenElse, [condition, yes, no] =>
      if ← test evaluate condition then sequence evaluate yes else sequence evaluate no
    | .doUntil, [body, condition] =>
      iterate (fun _ => do
        sequence evaluate body
        return if ← test evaluate condition then none else some ()) passes ()
    | .whileRepeat, [condition, body] =>
      iterate (fun _ => do
        if ← test evaluate condition then
          sequence evaluate body
          return some ()
        else return none) passes ()
    | .startNext, [body] => count evaluate passes false body
    | .startStep, [body] => count evaluate passes true body
    | c, clauses => fail (.invalidObject (.clauses c clauses.length))

end Run

namespace Evaluator

open Run

def stuck : Evaluator := ⟨fun _ => fail .tooDeep, fun _ => fail .tooDeep⟩

/-- A bound name runs its program or evaluates its object; any other name stands for itself. -/
def evaluateName (e : Evaluator) (p : Pointer) (name : String) : Run Unit := do
  match ← lookup name with
  | none => push p
  | some object =>
    holding object do
      if (← kind object) = .composite .program then e.execute object else e.evaluate object

def evaluateNext (commands : Repertoire) (passes : Nat) (e : Evaluator) (p : Pointer) :
    Run Unit := do
  match ← kind p with
  | .composite (.control c) => control e.evaluate passes c p
  | .command c => commands e.execute c
  | .symbol =>
    match ← value p with
    | .symbol name => evaluateName e p name
    | _ => throw .corrupt
  | _ => push p

/-- Quotes, lists and programs are run; all else is evaluated. -/
def executeNext (commands : Repertoire) (passes : Nat) (e : Evaluator) (p : Pointer) :
    Run Unit := do
  match ← kind p with
  | .composite .quote =>
    let inner ← children p
    holdingAll inner do
      match inner with
      | [] => fail (.invalidObject .emptyQuote)
      | p :: _ => e.evaluate p
  | .composite .list | .composite .program => sequence e.evaluate p
  | _ => evaluateNext commands passes e p

def next (commands : Repertoire) (passes : Nat) (e : Evaluator) : Evaluator :=
  ⟨evaluateNext commands passes e, executeNext commands passes e⟩

def ofRoom (commands : Repertoire) (passes : Nat) : Nat → Evaluator
  | 0 => stuck
  | n + 1 => (ofRoom commands passes n).next commands passes

end Evaluator

namespace Run

/-- More passes than a loop makes in a lifetime. -/
def manyPasses : Nat := 0x4000000000000000

def evaluator (passes : Nat) (commands : Repertoire := Command.run) : Run Evaluator := do
  return .ofRoom commands passes (← get).room

def evaluate (passes : Nat) (p : Pointer) : Run Unit := do
  (← evaluator passes).evaluate p

def execute (passes : Nat) (p : Pointer) : Run Unit := do
  (← evaluator passes).execute p

def command (passes : Nat) (k : Kind) : Run Unit := do
  match k with
  | .command c => c.run (← evaluator passes).execute
  | k => fail (.notImplemented .command k)

def line (passes : Nat) (source : String) (commands : Repertoire := Command.run) : Run Unit := do
  acquiring (readBody source) fun p => do
    sequence (← evaluator passes commands).evaluate p

end Run
end RpnMachine
