import RpnMachine.Display.Layout
import RpnMachine.Display.Window
import RpnMachine.Machine.Allocation

/-! The text of objects in memory. It is written piece by piece, and every object is read when its
turn comes. -/
namespace RpnMachine

/-- Where pieces of text go: how one is added to what there is so far. -/
abbrev Sink (σ : Type) : Type := σ → String → Run σ

namespace Run

def putAll {σ : Type} (put : Sink σ) (pieces : List String) (s : σ) : Run σ := pieces.foldlM put s

def drawAll {σ : Type} (put : Sink σ) (draw : Pointer → σ → Run σ) : List Pointer → σ → Run σ
  | [], s => pure s
  | [p], s => draw p s
  | p :: ps, s => do
    let s ← draw p s
    let s ← put s " "
    drawAll put draw ps s

def drawBody {σ : Type} (put : Sink σ) (draw : Nat → Pointer → σ → Run σ) (flat : Bool)
    (indent : Nat) (p : Pointer) (s : σ) : Run σ := do
  let body ← children p
  holdingAll body do
    if body.isEmpty then
      return s
    let s ← putAll put (Layout.newline flat indent) s
    drawAll put (draw indent) body s

/-- Draws every word on a line of its own, with its clause below it further in. -/
def drawClauses {σ : Type} (put : Sink σ) (draw : Nat → Pointer → σ → Run σ) (flat : Bool)
    (indent : Nat) : List String → List Pointer → σ → Run σ
  | word :: words, p :: ps, s => do
    let s ← put s word
    let s ← drawBody put draw flat (indent + 1) p s
    let s ← putAll put (Layout.newline flat indent) s
    drawClauses put draw flat indent words ps s
  | words, _, s => putAll put (words.take 1) s

def drawComposite {σ : Type} (put : Sink σ) (draw : Nat → Pointer → σ → Run σ) (flat : Bool)
    (indent : Nat) : Composite → List Pointer → σ → Run σ
  | .quote, ps, s => drawAll put (draw indent) ps s
  | .list, [], s => put s "\x7b \x7d"
  | .list, ps, s => do
    let s ← put s "\x7b "
    let s ← drawAll put (draw indent) ps s
    put s " \x7d"
  | .program, [], s => put s "« »"
  | .program, ps, s => do
    let s ← putAll put ("«" :: Layout.newline flat (indent + 1)) s
    let s ← drawAll put (draw (indent + 1)) ps s
    putAll put (Layout.newline flat indent ++ ["»"]) s
  | .control c, ps, s =>
    if c.words.length = ps.length + 1 then drawClauses put draw flat indent c.words ps s
    else fail (.invalidObject (.clauses c ps.length))

/-- The mark on both sides of a composite. It is there before its children are looked for. -/
def quoteMark : Composite → List String
  | .quote => ["'"]
  | .list | .program | .control _ => []

def drawWithin {σ : Type} (put : Sink σ) (flat : Bool) : Nat → Nat → Pointer → σ → Run σ
  | 0, _, _, _ => throw .corrupt
  | depth + 1, indent, p, s => do
    match ← kind p with
    | .composite c =>
      let s ← putAll put (quoteMark c) s
      let ps ← children p
      let s ← holdingAll ps (drawComposite put (drawWithin put flat depth) flat indent c ps s)
      putAll put (quoteMark c) s
    | _ => putAll put (Layout.pieces (← value p)) s

/-- Draws an object. A child starts after the object that holds it, so the size of the memory bounds
the depth. -/
def draw {σ : Type} (put : Sink σ) (flat : Bool) (p : Pointer) (s : σ) : Run σ := do
  drawWithin put flat ((← get).heap.capacity + 1) 0 p s

def render (flat : Bool) (p : Pointer) : Run String :=
  draw (fun s piece => pure (s ++ piece)) flat p ""

/-- The text as it is seen through a window, without use of memory. -/
def renderWithin (width : Nat) (flat : Bool) (p : Pointer) : Run Window :=
  draw (fun w piece => pure (w.put piece)) flat p (.ofWidth width)

/-- Adds the text to the scratchpad, and tells how long it is. After a failure the scratchpad is as
before. -/
def renderToScratch (flat : Bool) (p : Pointer) : Run Nat := do
  let mark ← scratchMark
  onFailure (scratchRelease mark) <|
    draw (fun length piece => do
      scratchAppend (Text.utf8 piece)
      return length + piece.utf8ByteSize) flat p 0

def renderThroughScratch (flat : Bool) (p : Pointer) : Run String := do
  let mark ← scratchMark
  let _ ← renderToScratch flat p
  let text ← scratchAbove mark
  scratchRelease mark
  ofOption (Text.ofUtf8? text)

def toText (p : Pointer) : Run Pointer := do
  let mark ← scratchMark
  let _ ← renderToScratch false p
  makeFromScratch .text mark

end Run
end RpnMachine
