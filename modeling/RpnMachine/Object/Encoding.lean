import RpnMachine.Object.Kind
import RpnMachine.Varint
import RpnMachine.Word
import RpnMachine.Text.Utf8

/-! Objects as bytes: the code of the kind and then a payload. No object holds an address, so its
bytes can be copied anywhere, and its size can be read off its first bytes. -/
namespace RpnMachine

inductive Shape where
  /-- Nothing follows the kind. -/
  | bare
  /-- One variable-length number. -/
  | varint
  /-- Eight bytes. -/
  | word
  /-- A length and then that many bytes. -/
  | sized
  deriving DecidableEq, Repr

def Kind.shape : Kind → Shape
  | integer | negative => .varint
  | decimal => .word
  | command _ => .bare
  | text | symbol | composite _ => .sized

namespace Encoding

def mark (k : Kind) : List UInt8 := Varint.encode k.code

def sized (bytes : List UInt8) : List UInt8 := Varint.encode bytes.length ++ bytes

def kind? (bytes : List UInt8) : Option Kind := do
  let (n, _) ← Varint.decode bytes
  Kind.ofCode? n

/-- Of a sized object: where its payload starts and where it ends. Positions are 64-bit words. -/
def payload? (bytes : List UInt8) : Option (Nat × Nat) := do
  let k := Varint.span bytes
  let (length, n) ← Varint.decode (bytes.drop k)
  let stop := k + n + length
  if stop < Word.bound 8 then some (k + n, stop) else none

/-- The size of the object at the start of the bytes, whatever follows it. -/
def size? (bytes : List UInt8) : Option Nat := do
  let k := Varint.span bytes
  match (← kind? bytes).shape with
  | .bare => some k
  | .varint => some (k + Varint.span (bytes.drop k))
  | .word => some (k + 8)
  | .sized => (payload? bytes).map (·.2)

def after? : Nat → List UInt8 → Option (List UInt8)
  | 0, bytes => some bytes
  | _ + 1, [] => none
  | n + 1, _ :: bytes => after? n bytes

theorem after?_eq (n : Nat) (bytes : List UInt8) :
    after? n bytes = if n ≤ bytes.length then some (bytes.drop n) else none := by
  fun_induction after? n bytes with
  | case1 => simp
  | case2 => simp
  | case3 n b bytes ih => simp [ih]

theorem length_after? {n : Nat} {bytes rest : List UInt8} (h : after? n bytes = some rest) :
    rest.length ≤ bytes.length := by
  rw [after?_eq] at h
  split at h
  · cases h
    simp
  · cases h

/-- Where each of a run of objects starts, and its size. The first starts at `start`, and the last
has to end where the bytes end. -/
def walk? (start : Nat) : List UInt8 → Option (List (Nat × Nat))
  | [] => some []
  | b :: bs =>
    match size? (b :: bs) with
    | none | some 0 => none
    | some (n + 1) =>
      match h : after? n bs with
      | none => none
      | some rest =>
        have := length_after? h
        (walk? (start + (n + 1)) rest).map ((start, n + 1) :: ·)
termination_by bytes => bytes.length
decreasing_by simp only [List.length_cons]; omega

def slice? (bytes : List UInt8) (start stop : Nat) : Option (List UInt8) :=
  if start ≤ stop ∧ stop ≤ bytes.length then some ((bytes.drop start).take (stop - start)) else none

/-- Where the children of a composite start, and their sizes. Other objects have none. -/
def children? (bytes : List UInt8) : Option (List (Nat × Nat)) := do
  match ← kind? bytes with
  | .composite _ =>
    let (start, stop) ← payload? bytes
    if start < stop then walk? start (← slice? bytes start stop) else some []
  | _ => some []

end Encoding

inductive Recipe where
  | integer (negative : Bool) (magnitude : UInt64)
  | decimal (bits : UInt64)
  | text (s : String)
  | symbol (s : String)
  | command (c : Command)
  /-- An object of any kind with its length and then a payload, which is taken as it is. -/
  | sized (k : Kind) (payload : List UInt8)
  deriving DecidableEq, Repr

namespace Recipe

def ofInt? (i : Int) : Option Recipe :=
  if i.natAbs < Word.bound 8 then some (integer (i < 0) i.natAbs.toUInt64) else none

def ofNat (n : Nat) : Recipe := integer false n.toUInt64

/-- Truth values are the integers one and zero. -/
def ofBool (b : Bool) : Recipe := ofNat b.toNat

/-- There is no negative zero. -/
def kind : Recipe → Kind
  | integer negative magnitude => if negative ∧ magnitude ≠ 0 then .negative else .integer
  | decimal _ => .decimal
  | text _ => .text
  | symbol _ => .symbol
  | command c => .command c
  | sized k _ => k

def payload : Recipe → List UInt8
  | integer _ magnitude => Varint.encode magnitude.toNat
  | decimal bits => Word.encode 8 bits.toNat
  | text s | symbol s => Encoding.sized (Text.utf8 s)
  | command _ => []
  | sized _ bytes => Encoding.sized bytes

def encode (r : Recipe) : List UInt8 := Encoding.mark r.kind ++ r.payload

def payloadLength : Recipe → Nat
  | integer _ magnitude => Varint.encodedLength magnitude.toNat
  | decimal _ => 8
  | text s | symbol s => Varint.encodedLength s.utf8ByteSize + s.utf8ByteSize
  | command _ => 0
  | sized _ bytes => Varint.encodedLength bytes.length + bytes.length

def requiredMemory (r : Recipe) : Nat := Varint.encodedLength r.kind.code + r.payloadLength

end Recipe
end RpnMachine
