import RpnMachine.Object.Encoding

/-! The value of an object, as its bytes tell it. -/
namespace RpnMachine

inductive Defect where
  | magnitude
  | decimalPayload
  | notUtf8 (k : Kind)
  | emptyQuote
  | clauses (c : Control) (n : Nat)
  deriving DecidableEq, Repr

def Defect.message : Defect → String
  | magnitude => "integer magnitude"
  | decimalPayload => "decimal payload"
  | notUtf8 k => k.name ++ " is not UTF-8"
  | emptyQuote => "empty quote"
  | clauses c n => c.name ++ " with " ++ toString n ++ " clauses"

/-- The value of an object; of a composite, how many children it has. -/
inductive Value where
  | integer (i : Int)
  | decimal (bits : UInt64)
  | text (s : String)
  | symbol (s : String)
  | composite (c : Composite) (children : Nat)
  | command (c : Command)
  deriving DecidableEq, Repr

namespace Encoding

def text? (k : Kind) (bytes : List UInt8) : Option (Except Defect String) := do
  let (start, stop) ← payload? bytes
  let content ← slice? bytes start stop
  match Text.ofUtf8? content with
  | some s => some (.ok s)
  | none => some (.error (.notUtf8 k))

def magnitude (payload : List UInt8) : Except Defect Int :=
  match Varint.decode payload with
  | some (n, _) => .ok n
  | none => .error .magnitude

/-- The value at the start of the bytes: none if they do not even tell a size. -/
def value? (bytes : List UInt8) : Option (Except Defect Value) := do
  let k ← kind? bytes
  let payload := bytes.drop (mark k).length
  match k with
  | .integer => some do return .integer (← magnitude payload)
  | .negative => some do return .integer (-(← magnitude payload))
  | .decimal =>
    if payload.length < 8 then some (.error .decimalPayload)
    else some (.ok (.decimal (Word.decode (payload.take 8)).toUInt64))
  | .text => (text? k bytes).map fun s => s.map .text
  | .symbol => (text? k bytes).map fun s => s.map .symbol
  | .composite c => (children? bytes).map fun cs => .ok (.composite c cs.length)
  | .command c => some (.ok (.command c))

end Encoding

namespace Value

def asInteger? : Value → Option Int
  | integer i => some i
  | _ => none

def asSymbol? : Value → Option String
  | symbol s => some s
  | _ => none

end Value

end RpnMachine
