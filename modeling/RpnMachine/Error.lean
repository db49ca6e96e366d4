import RpnMachine.Object.Capability
import RpnMachine.Object.Value
import RpnMachine.Text.Quoted

/-! Why something failed, and how that is said. -/
namespace RpnMachine

inductive ReadError.Cause where
  | expectedObject
  | expectedWord (words : List String)
  | openQuote (found : Option String)
  | openText
  | unexpected (token : String)
  | outOfRange (token : String)
  | trailing (token : String)
  | outOfMemory (requested : Nat)
  | tooDeep
  deriving DecidableEq, Repr

/-- A cause, the byte of the source where it showed, and what was going on, the widest last. -/
structure ReadError where
  cause : ReadError.Cause
  position : Nat
  context : List String := []
  deriving DecidableEq, Repr

inductive Expectation where
  | number | condition | natural | positiveLevel | list | listOrText | name
  deriving DecidableEq, Repr

def Expectation.message : Expectation → String
  | number => "a number"
  | condition => "a number as a condition"
  | natural => "a non-negative integer"
  | positiveLevel => "a level of at least 1"
  | list => "a list"
  | listOrText => "a list or text"
  | name => "a name"

inductive Error where
  /-- There is no room even after a collection. -/
  | outOfMemory (requested : Nat)
  | tooFewArguments (needed depth : Nat)
  | badArgument (expected : Expectation)
  | divideByZero
  /-- A decimal result is infinite or not a number. -/
  | overflow
  | notImplemented (op : Operation) (k : Kind)
  | invalidObject (d : Defect)
  | undefined (name : String)
  | invalidName
  /-- A condition did not leave exactly one object. -/
  | badStackDepth (expected got : Nat)
  | interrupted
  | tooDeep
  | read (e : ReadError)
  deriving DecidableEq, Repr

namespace Error

def outOfMemoryMessage (requested : Nat) : String :=
  "out of memory (" ++ toString requested ++ " bytes requested)"

def tooDeepMessage : String := "too many nested objects"

end Error

namespace ReadError

/-- More input could still mend these. -/
def Cause.isIncomplete : Cause → Bool
  | expectedObject | expectedWord _ | openQuote none | openText => true
  | _ => false

def Cause.message : Cause → String
  | expectedObject => "expected an object"
  | expectedWord words => "expected " ++ " or ".intercalate words
  | openQuote none => "expected ' to close quote"
  | openQuote (some token) => "expected ' to close quote, found " ++ Text.quoted token
  | openText => "unterminated text"
  | unexpected token => "unexpected " ++ Text.quoted token
  | outOfRange token => token ++ " is out of range"
  | trailing token => "unexpected " ++ Text.quoted token ++ " after object"
  | outOfMemory requested => Error.outOfMemoryMessage requested
  | tooDeep => Error.tooDeepMessage

def isIncomplete (e : ReadError) : Bool := e.cause.isIncomplete

def annotate (e : ReadError) (what : String) : ReadError :=
  { e with context := e.context ++ [what] }

def message (e : ReadError) : String :=
  (if e.isIncomplete then "incomplete input" else "error in input") ++
    " at byte " ++ toString e.position ++ ": " ++
    e.context.foldl (fun said what => what ++ ": " ++ said) e.cause.message

end ReadError

def Error.message : Error → String
  | outOfMemory requested => outOfMemoryMessage requested
  | tooFewArguments needed depth =>
    "too few arguments: need " ++ toString needed ++ ", stack has " ++ toString depth
  | badArgument expected => "bad argument type: expected " ++ expected.message
  | divideByZero => "divide by zero"
  | overflow => "numeric overflow"
  | notImplemented op k => op.name ++ " is not implemented for " ++ k.name
  | invalidObject d => "invalid object: " ++ d.message
  | undefined name => "undefined name " ++ name
  | invalidName => "invalid name"
  | badStackDepth expected got =>
    "bad stack depth: expected " ++ toString expected ++ ", got " ++ toString got
  | interrupted => "interrupted"
  | tooDeep => tooDeepMessage
  | read e => e.message

/-- Why a run stopped before its end. -/
inductive Failure where
  | error (e : Error)
  /-- The bytes in memory are no objects, a call asked for bytes that are not there, or an integer
  does not fit. -/
  | corrupt
  /-- A loop went past the number of passes that it was given. -/
  | exhausted
  deriving DecidableEq, Repr

end RpnMachine
