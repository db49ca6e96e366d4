/-! The kinds of object, their codes, names and help topics. -/
namespace RpnMachine

/-- What a command does is its whole content. -/
inductive Command where
  | dup | drop | swap | copyOver | rot | depth | clear | pick | dropN | dup2 | drop2
  | add | sub | mul | div | neg | abs
  | eq | ne | lt | gt | le | ge
  | and | or | not
  | eval | sto | rcl | purge
  | toList | fromList | size | toText
  | mem | gc
  deriving DecidableEq, Repr

inductive Control where
  | ifThen | ifThenElse | doUntil | whileRepeat | startNext | startStep
  deriving DecidableEq, Repr

inductive Composite where
  | quote | list | program
  | control (c : Control)
  deriving DecidableEq, Repr

/-- An integer carries its sign in its kind. -/
inductive Kind where
  | integer | negative | decimal | text
  | composite (c : Composite)
  | command (c : Command)
  | symbol
  deriving DecidableEq, Repr

namespace Command

def all : List Command :=
  [.dup, .drop, .swap, .copyOver, .rot, .depth, .clear, .pick, .dropN, .dup2, .drop2,
    .add, .sub, .mul, .div, .neg, .abs, .eq, .ne, .lt, .gt, .le, .ge, .and, .or, .not,
    .eval, .sto, .rcl, .purge, .toList, .fromList, .size, .toText, .mem, .gc]

def name : Command → String
  | dup => "DUP" | drop => "DROP" | swap => "SWAP" | copyOver => "OVER" | rot => "ROT"
  | depth => "DEPTH" | clear => "CLEAR" | pick => "PICK" | dropN => "DROPN"
  | dup2 => "DUP2" | drop2 => "DROP2"
  | add => "+" | sub => "-" | mul => "*" | div => "/" | neg => "NEG" | abs => "ABS"
  | eq => "==" | ne => "!=" | lt => "<" | gt => ">" | le => "<=" | ge => ">="
  | and => "AND" | or => "OR" | not => "NOT"
  | eval => "EVAL" | sto => "STO" | rcl => "RCL" | purge => "PURGE"
  | toList => "→LIST" | fromList => "LIST→" | size => "SIZE" | toText => "→STR"
  | mem => "MEM" | gc => "GC"

def aliases : Command → List String
  | toList => ["->LIST"]
  | fromList => ["LIST->"]
  | toText => ["->STR"]
  | eq => ["="]
  | ne => ["≠"]
  | le => ["≤"]
  | ge => ["≥"]
  | _ => []

def topic : Command → String
  | dup | drop | swap | copyOver | rot | depth | clear | pick | dropN | dup2 | drop2 => "Stack"
  | add | sub | mul | div | neg | abs => "Arithmetic"
  | eq | ne | lt | gt | le | ge => "Tests"
  | and | or | not => "Logic"
  | eval => "Evaluation"
  | sto | rcl | purge => "Variables"
  | toList | fromList | size => "Lists"
  | toText => "Text"
  | mem | gc => "Memory"

end Command

namespace Control

/-- The words around the clauses: one before each of them, and the closing one. -/
def words : Control → List String
  | ifThen => ["IF", "THEN", "END"]
  | ifThenElse => ["IF", "THEN", "ELSE", "END"]
  | doUntil => ["DO", "UNTIL", "END"]
  | whileRepeat => ["WHILE", "REPEAT", "END"]
  | startNext => ["START", "NEXT"]
  | startStep => ["START", "STEP"]

def name : Control → String
  | ifThen | ifThenElse => "IF"
  | doUntil => "DO"
  | whileRepeat => "WHILE"
  | startNext | startStep => "START"

def topic : Control → String
  | ifThen | ifThenElse => "Conditionals"
  | _ => "Loops"

end Control

namespace Kind

def all : List Kind :=
  [.integer, .negative, .decimal, .text, .composite .quote, .composite .list,
    .composite .program, .composite (.control .ifThen), .composite (.control .ifThenElse),
    .composite (.control .doUntil), .composite (.control .whileRepeat),
    .composite (.control .startNext), .composite (.control .startStep)] ++
  Command.all.map .command ++ [.symbol]

def code (k : Kind) : Nat := all.idxOf k

def ofCode? (n : Nat) : Option Kind := all[n]?

theorem ofCode?_code (k : Kind) : ofCode? k.code = some k := by
  cases k with
  | composite c => cases c with
    | control c => cases c <;> decide
    | _ => decide
  | command c => cases c <;> decide
  | _ => decide

theorem code_lt (k : Kind) : k.code < 50 := by
  cases k with
  | composite c => cases c with
    | control c => cases c <;> decide
    | _ => decide
  | command c => cases c <;> decide
  | _ => decide

def name : Kind → String
  | integer | negative => "integer"
  | decimal => "decimal"
  | text => "text"
  | composite .quote => "quote"
  | composite .list => "list"
  | composite .program => "program"
  | composite (.control c) => c.name
  | command c => c.name
  | symbol => "symbol"

def topic : Kind → String
  | integer | negative => "Integers"
  | decimal => "Decimal numbers"
  | text => "Text"
  | composite .quote => "Quoted names"
  | composite .list => "Lists"
  | composite .program => "Programs"
  | composite (.control c) => c.topic
  | command c => c.topic
  | symbol => "Variables"

def marker? : Kind → Option Char
  | decimal => some '.'
  | text => some '"'
  | composite .quote => some '\x27'
  | composite .list => some '{'
  | composite .program => some '«'
  | _ => none

def isCommand : Kind → Bool
  | command _ => true
  | _ => false

def isComposite : Kind → Bool
  | composite _ => true
  | _ => false

end Kind
end RpnMachine
