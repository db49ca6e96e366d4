import RpnMachine.Object.Kind

/-! Which kind or family of kinds answers an operation. A kind that does not answer one itself
leaves it to its families, the closest first. -/
namespace RpnMachine

inductive Operation where
  | evaluate | execute | size | parse | render | help | marker | command
  deriving DecidableEq, Repr

namespace Operation

def all : List Operation :=
  [.evaluate, .execute, .size, .parse, .render, .help, .marker, .command]

def name : Operation → String
  | evaluate => "evaluate"
  | execute => "execute"
  | size => "size"
  | parse => "parse"
  | render => "render"
  | help => "help"
  | marker => "marker"
  | command => "command"

end Operation

structure Responder where
  name : String
  answers : List Operation

namespace Responder

/-- Every kind belongs to the family of objects. -/
def object : Responder := ⟨"object", [.help]⟩

def command : Responder := ⟨"command", [.size, .evaluate, .parse, .render, .help]⟩

/-- Values that evaluate to themselves. -/
def algebraic : Responder := ⟨"algebraic", [.evaluate, .help]⟩

end Responder

namespace Kind

def ownAnswers : Kind → List Operation
  | integer | negative => [.size, .parse, .render, .help]
  | decimal => [.size, .parse, .render, .help, .marker]
  | text => [.size, .evaluate, .parse, .render, .help, .marker]
  | composite (.control _) => [.size, .evaluate, .parse, .render, .help]
  | composite _ => [.size, .evaluate, .execute, .parse, .render, .help, .marker]
  | command _ => [.command, .help]
  | symbol => [.size, .evaluate, .parse, .render, .help]

/-- The kind itself and then its families. -/
def responders (k : Kind) : List Responder :=
  ⟨k.name, k.ownAnswers⟩ ::
    match k with
    | integer | negative | decimal => [.algebraic, .command, .object]
    | command _ => [.command, .object]
    | _ => [.object]

def owner? (k : Kind) (op : Operation) : Option String :=
  (k.responders.find? (op ∈ ·.answers)).map (·.name)

end Kind
end RpnMachine
