import RpnMachine.Machine.Directory
import RpnMachine.Machine.Rendering
import RpnMachine.Machine.Stack
import RpnMachine.Number.Basic

/-! What each command does. A command checks its arguments before it touches the stack. -/
namespace RpnMachine.Run

def number (p : Pointer) : Run Number := do
  match Number.ofValue? (← value p) with
  | some n => return n
  | none => fail (.badArgument .number)

/-- Numbers other than zero are true. -/
def truth (p : Pointer) : Run Bool := do
  match Number.ofValue? (← value p) with
  | some n => return !n.isZero
  | none => fail (.badArgument .condition)

def natural (p : Pointer) : Run Nat := do
  match ← value p with
  | .integer (.ofNat n) => return n
  | _ => fail (.badArgument .natural)

/-- Fails unless there are `n` objects below the top one. Counts stop at 64 bits. -/
def argsBelow (n : Nat) : Run Unit := args (min (n + 1) (Word.bound 8 - 1))

def replace (n : Nat) (p : Pointer) : Run Unit := do
  put (n - 1) p
  discard (n - 1)

def making {α : Type} (r : Recipe) (act : Pointer → Run α) : Run α := acquiring (make r) act

def unary (op : Number → Except Failure Number) : Run Unit := do
  args 1
  let x ← acquiring (peek 0) number
  let y ← ofOutcome (op x)
  making (← ofExcept y.recipe) (replace 1)

def binary (op : Number → Number → Except Failure Number) : Run Unit := do
  args 2
  let x ← acquiring (peek 1) number
  let y ← acquiring (peek 0) number
  let z ← ofOutcome (op x y)
  making (← ofExcept z.recipe) (replace 2)

/-- Numbers compare by value, texts by their characters. -/
def order (p q : Pointer) : Run (Option Ordering) := do
  match ← value p, ← value q with
  | .text a, .text b => return some (compare a b)
  | _, _ => return (← number p).compare? (← number q)

/-- Numbers are the same by value, all else by its bytes. -/
def same (p q : Pointer) : Run Bool := do
  let a ← bytes p
  let b ← bytes q
  match ← number? a, ← number? b with
  | some x, some y => return x.equal y
  | _, _ => return a == b
where
  number? (bytes : List UInt8) : Run (Option Number) := do
    match ← ofOption (Encoding.value? bytes) with
    | .ok v => return Number.ofValue? v
    | .error _ => return none

def compareWith (test : Pointer → Pointer → Run Bool) : Run Unit := do
  args 2
  let holds ← acquiring (peek 1) fun p => acquiring (peek 0) (test p)
  making (.ofBool holds) (replace 2)

def ordered (test : Ordering → Bool) : Run Unit :=
  compareWith fun p q => do return (← order p q).any test

def logic (op : Bool → Bool → Bool) : Run Unit := do
  args 2
  let x ← acquiring (peek 1) truth
  let y ← acquiring (peek 0) truth
  making (.ofBool (op x y)) (replace 2)

def negate : Run Unit := do
  args 1
  let x ← acquiring (peek 0) truth
  making (.ofBool !x) (replace 1)

/-- A copy of level `n`, counted without `n` itself, in the place of `n`. -/
def pick : Run Unit := do
  args 1
  let n ← acquiring (peek 0) natural
  if n = 0 then
    fail (.badArgument .positiveLevel)
  argsBelow n
  acquiring (peek n) (put 0)

def dropN : Run Unit := do
  args 1
  let n ← acquiring (peek 0) natural
  argsBelow n
  discard (n + 1)

def dup2 : Run Unit := do
  args 2
  acquiring (peek 1) push
  acquiring (peek 1) fun p => onFailure (discard 1) (push p)

def copyLevels : Nat → Run Unit
  | 0 => pure ()
  | n + 1 => do
    acquiring (peek (n + 1)) scratchAppendObject
    copyLevels n

def toList : Run Unit := do
  args 1
  let n ← acquiring (peek 0) natural
  argsBelow n
  let mark ← scratchMark
  onFailure (scratchRelease mark) (copyLevels n)
  acquiring (makeFromScratch (.composite .list) mark) fun list => do
    put n list
    discard n

/-- Pushes objects. If one cannot be pushed, removes those before it again; `pushed` of them are
there already. -/
def pushAll (pushed : Nat) : List Pointer → Run Unit
  | [] => pure ()
  | p :: ps => do
    onFailure (discard pushed) (push p)
    pushAll (pushed + 1) ps

def fromList : Run Unit := do
  args 1
  acquiring (peek 0) fun list => do
    if (← kind list) ≠ .composite .list then
      fail (.badArgument .list)
    let elements ← children list
    holdingAll elements do
      making (.ofNat elements.length) fun count => do
        pushAll 0 (elements ++ [count])
        roll (elements.length + 2)
        discard 1

def measure : Run Unit := do
  args 1
  acquiring (peek 0) fun p => do
    let n ←
      match ← value p with
      | .composite .list n => pure n
      | .text s => pure s.length
      | _ => fail (.badArgument .listOrText)
    making (.ofNat n) (put 0)

def describe : Run Unit := do
  args 1
  let text ← acquiring (peek 0) toText
  holding text (put 0 text)

def nameOf (p : Pointer) : Run String := do
  let ps ←
    match ← kind p with
    | .composite .quote => children p
    | _ => do pure [← clone p]
  holdingAll ps do
    match ps with
    | [] => fail (.badArgument .name)
    | p :: _ =>
      match ← value p with
      | .symbol s => return s
      | _ => fail (.badArgument .name)

def sto : Run Unit := do
  args 2
  let name ← acquiring (peek 0) nameOf
  acquiring (peek 1) (store name)
  discard 2

def rcl : Run Unit := do
  args 1
  let name ← acquiring (peek 0) nameOf
  match ← lookup name with
  | some p => holding p (put 0 p)
  | none => fail (.undefined name)

def purgeName : Run Unit := do
  args 1
  let name ← acquiring (peek 0) nameOf
  if ← purge name then discard 1 else fail (.undefined name)

def mem : Run Unit := do
  let _ ← collect
  let stats ← sample
  making (.ofNat stats.free) push

end RpnMachine.Run

namespace RpnMachine

open Run in
/-- The effect of a command. `execute` is what EVAL does with its argument, which is gone from the
stack by then. -/
def Command.run (execute : Pointer → Run Unit) : Command → Run Unit
  | dup => acquiring (peek 0) push
  | drop => discard 1
  | swap => Run.swap
  | copyOver => acquiring (peek 1) push
  | rot => roll 3
  | depth => do making (.ofNat (← Run.depth)) push
  | clear => Run.clear
  | pick => Run.pick
  | dropN => Run.dropN
  | dup2 => Run.dup2
  | drop2 => discard 2
  | add => binary fun x y => .ok (x.add y)
  | sub => binary fun x y => .ok (x.sub y)
  | mul => binary fun x y => .ok (x.mul y)
  | div => binary Number.div
  | neg => unary Number.neg
  | abs => unary Number.abs
  | eq => compareWith same
  | ne => compareWith fun p q => do return !(← same p q)
  | lt => ordered Ordering.isLT
  | gt => ordered Ordering.isGT
  | le => ordered Ordering.isLE
  | ge => ordered Ordering.isGE
  | and => logic Bool.and
  | or => logic Bool.or
  | not => negate
  | eval => acquiring pop execute
  | sto => Run.sto
  | rcl => Run.rcl
  | purge => purgeName
  | toList => Run.toList
  | fromList => Run.fromList
  | size => measure
  | toText => describe
  | mem => Run.mem
  | gc => do let _ ← collect

end RpnMachine
