/-! Sets of small numbers, one bit for each number, in words of 64 bits. -/
namespace RpnMachine

structure Bits where
  words : Array (BitVec 64)
  deriving DecidableEq, Repr

namespace Bits

/-- The empty set, with words for the numbers below `n`. -/
def ofCapacity (n : Nat) : Bits := ⟨.replicate ((n + 63) / 64) 0⟩

def get (b : Bits) (i : Nat) : Bool :=
  match b.words[i / 64]? with
  | some word => word &&& (1#64 <<< (i % 64)) ≠ 0
  | none => false

/-- One number more. Words are added if there are too few. -/
def set (b : Bits) (i : Nat) : Bits :=
  let words := b.words ++ Array.replicate (i / 64 + 1 - b.words.size) 0
  ⟨words.modify (i / 64) (· ||| (1#64 <<< (i % 64)))⟩

theorem and_shiftLeft_ne_zero (word : BitVec 64) {k : Nat} (hk : k < 64) :
    decide (word &&& (1#64 <<< k) ≠ 0) = word.getLsbD k := by
  rw [← BitVec.twoPow_eq, BitVec.and_twoPow]
  cases word.getLsbD k with
  | false => simp
  | true =>
    have hbit : (BitVec.twoPow 64 k).getLsbD k = true := by simp [hk]
    have hne : BitVec.twoPow 64 k ≠ 0 := fun h => by
      rw [h] at hbit
      simp at hbit
    rw [if_pos rfl]
    exact decide_eq_true hne

theorem get_eq (b : Bits) (i : Nat) :
    b.get i = (b.words.getD (i / 64) 0).getLsbD (i % 64) := by
  unfold get
  rw [Array.getD_eq_getD_getElem?]
  cases b.words[i / 64]? with
  | none => simp
  | some word => exact and_shiftLeft_ne_zero word (Nat.mod_lt _ (by decide))

@[simp] theorem get_ofCapacity (n i : Nat) : (ofCapacity n).get i = false := by
  rw [get_eq, ofCapacity, Array.getD_eq_getD_getElem?, Array.getElem?_replicate]
  split <;> simp

theorem get_set (b : Bits) (i j : Nat) : (b.set i).get j = (decide (i = j) || b.get j) := by
  have hwords (k : Nat) : (b.words ++ Array.replicate (i / 64 + 1 - b.words.size) 0).getD k 0 =
      b.words.getD k 0 := by
    simp only [Array.getD_eq_getD_getElem?, Array.getElem?_append, Array.getElem?_replicate]
    split
    · rfl
    · rw [Array.getElem?_eq_none (by omega)]
      split <;> rfl
  have hsize : i / 64 < (b.words ++ Array.replicate (i / 64 + 1 - b.words.size) 0).size := by
    rw [Array.size_append, Array.size_replicate]
    omega
  rw [get_eq, get_eq, set, ← hwords, Array.getD_eq_getD_getElem?, Array.getElem?_modify]
  by_cases hword : i / 64 = j / 64
  · have hbit : decide (i % 64 = j % 64) = decide (i = j) := decide_eq_decide.mpr (by omega)
    have hlt : i % 64 < 64 := Nat.mod_lt _ (by decide)
    rw [if_pos hword, ← hword, Array.getElem?_eq_getElem hsize, Array.getD_eq_getD_getElem?,
      Array.getElem?_eq_getElem hsize, ← hbit]
    simp only [Option.map_some, Option.getD_some, BitVec.getLsbD_or, ← BitVec.twoPow_eq,
      BitVec.getLsbD_twoPow, hlt, decide_true, Bool.true_and, Bool.or_comm]
  · have hne : i ≠ j := fun h => hword (by rw [h])
    rw [if_neg hword, ← Array.getD_eq_getD_getElem?, decide_eq_false hne, Bool.false_or]

end Bits
end RpnMachine
