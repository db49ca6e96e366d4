import RpnMachine.Machine.Rendering

/-! A picture of the machine as a Graphviz graph: its objects, the stack, the pointers, and what
they point to. -/
namespace RpnMachine.Diagram

/-- An object that no other one holds. -/
structure Block where
  start : Nat
  size : Nat
  kind : Kind
  permanent : Bool
  deriving DecidableEq, Repr

/-- The objects in a run of bytes that starts at `start`. The last one may be longer than the
bytes. -/
def blocksFrom? (permanentEnd start : Nat) : List UInt8 → Option (List Block)
  | [] => some []
  | b :: bs =>
    match Encoding.size? (b :: bs) with
    | none | some 0 => none
    | some (n + 1) => do
      let kind ← Encoding.kind? (b :: bs)
      let rest ← blocksFrom? permanentEnd (start + (n + 1)) (bs.drop n)
      some ({ start, size := n + 1, kind, permanent := start < permanentEnd } :: rest)
termination_by bytes => bytes.length
decreasing_by simp only [List.length_drop, List.length_cons]; omega

def blocks? (h : Heap) : Option (List Block) :=
  blocksFrom? h.permanentEnd 0 (h.memory.slice 0 h.temporaryEnd)

def containing? (bs : List Block) (position : Nat) : Option Block :=
  bs.find? fun b => b.start ≤ position && position < b.start + b.size

/-- Characters that mean something in HTML are written by their names. -/
def escape (s : String) : String :=
  String.join (s.toList.map fun c =>
    match c with
    | '&' => "&amp;"
    | '<' => "&lt;"
    | '>' => "&gt;"
    | '"' => "&quot;"
    | c => c.toString)

def cell (attributes content : String) : String := "<td" ++ attributes ++ ">" ++ content ++ "</td>"

def row (cells : List String) : String := "<tr>" ++ String.join cells ++ "</tr>"

def table (attributes : String) (rows : List String) : String :=
  "<table" ++ attributes ++ ">" ++ String.join rows ++ "</table>"

def node (name html : String) : String :=
  "  " ++ name ++ " [shape=none, label=<" ++ html ++ ">];\n"

def blockName (b : Block) : String := "obj" ++ toString b.start

def blockNode (b : Block) (label : String) : String :=
  let color := if b.permanent then "lightblue" else "white"
  let marker := (b.kind.marker?.map Char.toString).getD ""
  node (blockName b) <| table (" bgcolor=\"" ++ color ++ "\"")
    [row [cell " border=\"0\"" (escape (marker ++ b.kind.name ++ "@" ++ toString b.start))],
      row [cell "" (escape label)],
      row [cell " border=\"0\"" (escape (toString b.size ++ " bytes, " ++ b.kind.topic))]]

def summary (s : Stats) : String :=
  let line (name : String) (n : Nat) : String := row [cell "" name, cell "" (toString n)]
  node "arena" <| table ""
    [line "globals" s.permanent, line "temporaries" s.temporaries, line "scratch" s.scratch,
      line "free" s.free, line "collections" s.collections]

def listing (name title label : String) (numbers : List Nat) : String :=
  node name <| table "" <|
    row [cell "" ("<b>" ++ title ++ "</b>")] ::
      numbers.mapIdx fun i n =>
        row [cell (" port=\"" ++ label ++ toString i ++ "\"") (label ++ " " ++ toString n)]

def edge (source : String) (b : Block) (attributes : String) : String :=
  "  " ++ source ++ " -> " ++ blockName b ++ attributes ++ ";\n"

def stackEdges (bs : List Block) (positions : List Nat) : List String :=
  positions.mapIdx fun i position =>
    ((containing? bs position).map fun b => edge ("stack:level" ++ toString i) b "").getD ""

/-- Edges from pointers. They say how far inside the object the pointer leads. -/
def pointerEdges (bs : List Block) (positions : List Nat) : List String :=
  positions.mapIdx fun i position =>
    ((containing? bs position).map fun b =>
      edge ("pointers:slot" ++ toString i) b
        (if position = b.start then ""
        else " [label=\"+" ++ toString (position - b.start) ++ "\"]")).getD ""

def labelWidth : Nat := 32

def shorten (w : Window) : String :=
  if w.length ≤ labelWidth then w.shown
  else String.ofList ((w.filled.reverse.dropWhile (· = '\x00')).reverse ++ ['…'])

def label (b : Block) : Run String := do
  match ← Run.attempt (Run.acquiring (Run.register b.start) (Run.renderWithin labelWidth true)) with
  | .ok w => return shorten w
  | .error (.error e) => return "<" ++ e.message ++ ">"
  | .error f => throw f

def draw : Run String := do
  let (bs, stack, pointers) ← Run.readBoth fun h r => do
    return (← blocks? h, ← h.stack?, r.live)
  let stats ← Run.sample
  let nodes ← bs.mapM fun b => do return blockNode b (← label b)
  return String.join <|
    ["digraph \x7b\n"] ++ nodes ++
    [summary stats,
      listing "stack" "stack" "level" ((List.range stack.length).map (· + 1)),
      listing "pointers" "safe pointers" "slot" (pointers.map (·.1))] ++
    stackEdges bs stack ++ pointerEdges bs (pointers.map (·.2)) ++
    ["\x7d\n"]

end RpnMachine.Diagram
