import RpnMachine.Source.Token
import RpnMachine.Number.Literal

/-! How a source text is built up in memory: the steps to take in order, up to the end of the
text or to the first mistake in it. Each token either is an object, opens a structure, or closes
the innermost open one, so the text is read token by token with the open structures at hand. -/
namespace RpnMachine

/-- One step of building. A finished object becomes the next child of the structure around it.
Positions are bytes of the source, for the error if the step fails. -/
inductive Step where
  | make (r : Recipe) (position : Nat)
  /-- A structure starts. -/
  | enter
  /-- The innermost structure ends. -/
  | wrap (c : Composite) (position : Nat)
  deriving DecidableEq, Repr

inductive Clause where
  | ifTest | ifThen | ifElse | doBody | doTest | whileTest | whileBody | startBody
  deriving DecidableEq, Repr

inductive Clause.Sequel where
  | clause (c : Clause)
  | done (c : Control)
  deriving DecidableEq, Repr

def Clause.endings : Clause → List (String × Clause.Sequel)
  | ifTest => [("THEN", .clause ifThen)]
  | ifThen => [("ELSE", .clause ifElse), ("END", .done .ifThen)]
  | ifElse => [("END", .done .ifThenElse)]
  | doBody => [("UNTIL", .clause doTest)]
  | doTest => [("END", .done .doUntil)]
  | whileTest => [("REPEAT", .clause whileBody)]
  | whileBody => [("END", .done .whileRepeat)]
  | startBody => [("NEXT", .done .startNext), ("STEP", .done .startStep)]

inductive Frame where
  | list
  | program
  | clause (c : Clause)
  /-- A quote that still wants its object. -/
  | quote
  | filledQuote
  /-- The whole source as the contents of a program. -/
  | source
  deriving DecidableEq, Repr

namespace Frame

/-- The whole source is no level of nesting. -/
def isLevel : Frame → Bool
  | source => false
  | _ => true

def closers : Frame → List String
  | list => ["\x7d"]
  | program => ["»"]
  | clause c => c.endings.map (·.1)
  | _ => []

/-- What to do at a token that closes it or ends one of its clauses: the steps, and the next
clause if there is one. -/
def close? (f : Frame) (t : Token) : Option (List Step × Option Frame) :=
  match f with
  | list => if t.text = "\x7d" then some ([.wrap .list t.stop], none) else none
  | program =>
    if t.text = "»" ∨ t.text = ">>" then some ([.wrap .program t.stop], none) else none
  | filledQuote => if t.text = "'" then some ([.wrap .quote t.stop], none) else none
  | clause c =>
    match c.endings.find? (t.spells ·.1) with
    | some (_, .clause c) => some ([.wrap .program t.stop, .enter], some (.clause c))
    | some (_, .done c) => some ([.wrap .program t.stop, .wrap (.control c) t.stop], none)
    | none => none
  | quote | source => none

def unfinished (f : Frame) : ReadError.Cause :=
  match f with
  | quote => .expectedObject
  | filledQuote => .openQuote none
  | f => .expectedWord f.closers

end Frame

inductive Start where
  /-- The token is the whole object. -/
  | leaf (r : Recipe)
  /-- A structure with some levels of building. -/
  | opening (levels : Nat) (f : Frame)
  | mistake (cause : ReadError.Cause)
  deriving DecidableEq, Repr

namespace Start

/-- Decimals have to be finite. -/
def ofFloat (token : String) (x : Float) : Start :=
  if x.isFinite then leaf (.decimal x.toBits) else mistake (.outOfRange token)

/-- Integers that need more than 64 bits are read as decimals. -/
def ofLiteral (token : String) (l : Number.Literal) : Start :=
  let n := Number.Literal.value l.whole
  if l.isInteger ∧ n < Word.bound 8 then leaf (.integer l.negative n.toUInt64)
  else ofFloat token l.toFloat

def openings : List (String × Clause) :=
  [("IF", .ifTest), ("DO", .doBody), ("WHILE", .whileTest), ("START", .startBody)]

def command? (token : String) : Option Command :=
  Command.all.find? fun c => (c.name :: c.aliases).any (Token.sameWord token)

def ofToken (token : String) : Start :=
  match Number.Literal.parse? token.toList with
  | some l => ofLiteral token l
  | none =>
  match Token.content? token with
  | some s => leaf (.text s)
  | none =>
  if token = "'" then opening 1 .quote
  else if token = "\x7b" then opening 1 .list
  else if token = "«" ∨ token = "<<" then opening 1 .program
  else
  match openings.find? (Token.sameWord token ·.1) with
  | some (_, c) => opening 2 (.clause c)
  | none =>
  match command? token with
  | some c => leaf (.command c)
  | none =>
  if Token.isSymbolWord token ∧ ¬Token.isKeyword token then leaf (.symbol token)
  else mistake (.unexpected token)

end Start

structure Reading (α : Type) where
  steps : List Step
  result : Except ReadError α

namespace Reading

def fail {α : Type} (cause : ReadError.Cause) (position : Nat) : Reading α :=
  ⟨[], .error { cause, position }⟩

def after {α : Type} (steps : List Step) (r : Reading α) : Reading α :=
  ⟨steps ++ r.steps, r.result⟩

end Reading

/-- What follows an object: the byte after it and the tokens left. -/
abbrev Rest := Nat × List Token

/-- Reads until the object is complete that the frames are open for, or that comes next if none is
open. `room` is the number of levels that may be nested, `position` the byte after the last token.

At a place where only an object can follow, running out of levels comes before a look at the next
token. -/
def Reading.object (room : Nat) (ending : Token.Ending) :
    List Frame → Nat → List Token → Reading Rest
  | frames, position, [] =>
    let direct := frames.head?.all (· = .quote)
    if direct ∧ room ≤ frames.countP Frame.isLevel then .fail .tooDeep position
    else
      match ending with
      | .openText p => .fail .openText p
      | .finished p =>
        match frames with
        | [] => .fail .expectedObject p
        | .source :: _ => ⟨[.wrap .program p], .ok (p, [])⟩
        | f :: _ => .fail f.unfinished p
  | frames, position, t :: ts =>
    let continued (frames : List Frame) : Reading Rest :=
      match frames with
      | [] => ⟨[], .ok (t.stop, ts)⟩
      | .quote :: fs => Reading.object room ending (.filledQuote :: fs) t.stop ts
      | fs => Reading.object room ending fs t.stop ts
    match frames.head?.bind (·.close? t) with
    | some (steps, none) => .after steps (continued frames.tail)
    | some (steps, some f) =>
      .after steps (Reading.object room ending (f :: frames.tail) t.stop ts)
    | none =>
      if frames.head? = some .filledQuote then .fail (.openQuote t.text) t.start
      else
        let direct := frames.head?.all (· = .quote)
        if room ≤ frames.countP Frame.isLevel then
          .fail .tooDeep (if direct then position else t.start)
        else
          match Start.ofToken t.text with
          | .leaf r => .after [.make r t.stop] (continued frames)
          | .opening levels f =>
            .after (.replicate levels .enter)
              (Reading.object room ending (f :: frames) t.stop ts)
          | .mistake cause => .fail cause t.start

/-- The steps for a source text, and the mistake that ends them if there is one. -/
abbrev Script := Reading Unit

namespace Script

/-- The whole text is one object. -/
def object (room : Nat) (source : String) : Script :=
  let (tokens, ending) := Token.scan source
  let r := Reading.object room ending [] 0 tokens
  ⟨r.steps, do
    match ← r.result, ending with
    | (_, t :: _), _ => throw { cause := .trailing t.text, position := t.start }
    | (_, []), .openText p => throw { cause := .openText, position := p }
    | (_, []), .finished _ => return ()⟩

def body (room : Nat) (source : String) : Script :=
  let (tokens, ending) := Token.scan source
  let r := (Reading.object room ending [.source] 0 tokens).after [.enter]
  ⟨r.steps, r.result.map fun _ => ()⟩

end Script
end RpnMachine
