/-! Variable-length numbers: seven bits a byte, low bits first, with the high bit set on every
byte but the last. Reading stops at 64 bits. -/
namespace RpnMachine.Varint

def encode (n : Nat) : List UInt8 :=
  if n < 128 then [n.toUInt8] else (n % 128 + 128).toUInt8 :: encode (n / 128)
termination_by n
decreasing_by omega

def encodedLength (n : Nat) : Nat := if n < 128 then 1 else encodedLength (n / 128) + 1
termination_by n
decreasing_by omega

/-- Reads at most `k` bytes; the last of them may carry one bit only. -/
def decodeWithin : Nat → List UInt8 → Option (Nat × Nat)
  | 0, _ => none
  | _ + 1, [] => none
  | k + 1, b :: bs =>
    if k = 0 ∧ 1 < b.toNat % 128 then none
    else if b.toNat < 128 then some (b.toNat, 1)
    else do
      let (v, n) ← decodeWithin k bs
      some (b.toNat % 128 + 128 * v, n + 1)

/-- The number at the start of the bytes and the count of bytes it takes: none if the bytes end
inside it or if it needs more than 64 bits. -/
def decode (bytes : List UInt8) : Option (Nat × Nat) := decodeWithin 10 bytes

/-- The count of bytes up to the first one without its high bit, without reading the number;
all of them if there is no such byte. -/
def span : List UInt8 → Nat
  | [] => 0
  | b :: bs => if b < 128 then 1 else span bs + 1

end RpnMachine.Varint
