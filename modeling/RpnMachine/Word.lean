/-! Numbers of a fixed width in bytes, lowest byte first. -/
namespace RpnMachine.Word

/-- The least number that does not fit in `k` bytes. -/
def bound : Nat → Nat
  | 0 => 1
  | k + 1 => 256 * bound k

def encode : Nat → Nat → List UInt8
  | 0, _ => []
  | k + 1, n => (n % 256).toUInt8 :: encode k (n / 256)

def decode : List UInt8 → Nat
  | [] => 0
  | b :: bs => b.toNat + 256 * decode bs

def minus? (a b : Nat) : Option Nat := if b ≤ a then some (a - b) else none

theorem minus?_eq {a b : Nat} (h : b ≤ a) : minus? a b = some (a - b) := if_pos h

@[simp] theorem length_encode (k n : Nat) : (encode k n).length = k := by
  induction k generalizing n with
  | zero => rfl
  | succ k ih => simp [encode, ih]

theorem decode_encode {k n : Nat} (h : n < bound k) : decode (encode k n) = n := by
  induction k generalizing n with
  | zero =>
    have : n = 0 := by simpa [bound] using h
    simp [encode, decode, this]
  | succ k ih =>
    have hb : n < 256 * bound k := h
    have hq : n / 256 < bound k := by omega
    simp only [encode, decode, ih hq, UInt8.toNat_ofNat']
    omega

theorem decode_lt_bound (bs : List UInt8) : decode bs < bound bs.length := by
  induction bs with
  | nil => decide
  | cons b bs ih =>
    have hb : b.toNat < 256 := b.toNat_lt
    simp only [decode, List.length_cons, bound]
    omega

end RpnMachine.Word
