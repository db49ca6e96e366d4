import Mathlib
import RpnMachine.Number.Basic

/-! How a mantissa is rounded to 53 bits. Two bits stand for all that is shifted out of it, a tie goes to
the even one of two mantissas, and a carry into a 54th bit takes one more shift. A larger mantissa is not
rounded to a smaller one, and one with more zeros at its end is rounded alike. -/
namespace RpnMachine.Magnitude

open Float.Model Float.Model.UnpackedFloat

/-! Bits of a mantissa. -/

theorem log2_shiftLeft {n : Nat} (hn : n ≠ 0) (k : Nat) : (n <<< k).log2 = n.log2 + k := by
  have hpos : 0 < 2 ^ k := Nat.two_pow_pos k
  rw [Nat.shiftLeft_eq, Nat.log2_eq_iff (Nat.mul_pos (Nat.pos_of_ne_zero hn) hpos).ne',
    Nat.add_right_comm, Nat.pow_add, Nat.pow_add]
  exact ⟨Nat.mul_le_mul_right _ (Nat.log2_self_le hn), Nat.mul_lt_mul_of_pos_right Nat.lt_log2_self hpos⟩

theorem ne_zero_of_le_log2 {m : Nat} (hlog : 52 ≤ m.log2) : m ≠ 0 := by
  rintro rfl
  exact absurd hlog (by decide)

theorem log2_mul_two_pow {m : Nat} (hm : m ≠ 0) (d : Nat) : (m * 2 ^ d).log2 = m.log2 + d := by
  rw [← Nat.shiftLeft_eq, log2_shiftLeft hm]

theorem mantissa_shiftRight (em : ExtendedMantissa) (n : Nat) :
    (em >>> n).mantissa = em.mantissa / 2 ^ n := by
  change (n.repeat ExtendedMantissa.shiftRightOne em).mantissa = _
  induction n with
  | zero => rw [Nat.repeat, Nat.pow_zero, Nat.div_one]
  | succ n ih =>
    rw [Nat.repeat, ExtendedMantissa.shiftRightOne, ih, Nat.div_div_eq_div_mul, Nat.pow_succ]

theorem mantissa_ofMantissaAndAccuracy (m : Nat) (a : Accuracy) :
    (ExtendedMantissa.ofMantissaAndAccuracy m a).mantissa = m := by
  cases a with
  | exact => rfl
  | inexact o => cases o <;> rfl

/-- Rounding adds at most one to the mantissa. -/
theorem roundedMantissa_bounds (em : ExtendedMantissa) :
    em.mantissa ≤ em.roundedMantissa ∧ em.roundedMantissa ≤ em.mantissa + 1 := by
  obtain ⟨m, round, sticky⟩ := em
  rw [ExtendedMantissa.roundedMantissa]
  cases round <;> cases sticky <;>
    simp only [ExtendedMantissa.accuracy, Accuracy.roundToNearestEven] <;> omega

/-- Where no bit is below the least exponent, a mantissa is shifted to 53 bits. -/
theorem shiftToTargetExponent_eq {m : Nat} {e : Int} (a : Accuracy) (hlog : 52 ≤ m.log2)
    (he : -1074 ≤ (m.log2 : Int) - 52 + e) :
    shiftToTargetExponent Format.binary64 m e a =
      (ExtendedMantissa.ofMantissaAndAccuracy m a >>> (m.log2 - 52), (m.log2 : Int) - 52 + e) := by
  have htarget : Format.binary64.targetExponent (totalExponent m e) = (m.log2 : Int) - 52 + e := by
    simp only [Format.targetExponent, totalExponent, Format.mantissaBits, Format.minExponent]
    omega
  have hshift : ((m.log2 : Int) - 52 + e - e).toNat = m.log2 - 52 := by omega
  rw [shiftToTargetExponent, htarget, shiftToExponent, hshift, Prod.mk.injEq]
  exact ⟨rfl, by omega⟩

theorem shiftRight_eq_iterate (em : ExtendedMantissa) (n : Nat) :
    em >>> n = ExtendedMantissa.shiftRightOne^[n] em := by
  change n.repeat ExtendedMantissa.shiftRightOne em = _
  induction n with
  | zero => rfl
  | succ n ih => rw [Nat.repeat, ih, Function.iterate_succ_apply']

/-! Rounded mantissas. -/

/-- The mantissa and the two bits after it, read as one number. -/
def weight (em : ExtendedMantissa) : Nat :=
  4 * em.mantissa + 2 * em.roundBit.toNat + em.stickyBit.toNat

theorem weight_shiftRightOne (em : ExtendedMantissa) :
    weight em.shiftRightOne = 2 * (weight em / 4) + min (weight em % 4) 1 := by
  obtain ⟨m, round, sticky⟩ := em
  have hbit : (m % 2 != 0).toNat = m % 2 := by
    rcases Nat.mod_two_eq_zero_or_one m with h | h <;> rw [h] <;> rfl
  simp only [weight, ExtendedMantissa.shiftRightOne, hbit]
  cases round <;> cases sticky <;>
    simp only [Bool.or_true, Bool.or_false, Bool.toNat_true, Bool.toNat_false] <;> omega

/-- A tie goes to the even one of two mantissas. -/
theorem roundedMantissa_eq (em : ExtendedMantissa) :
    em.roundedMantissa = weight em / 4 + (weight em % 4 + weight em / 4 % 2 + 1) / 4 := by
  obtain ⟨m, round, sticky⟩ := em
  have hdiv : weight ⟨m, round, sticky⟩ / 4 = m := by
    cases round <;> cases sticky <;> simp only [weight, Bool.toNat_true, Bool.toNat_false] <;> omega
  have hmod : weight ⟨m, round, sticky⟩ % 4 = 2 * round.toNat + sticky.toNat := by
    cases round <;> cases sticky <;> simp only [weight, Bool.toNat_true, Bool.toNat_false] <;> omega
  rw [hdiv, hmod]
  cases round <;> cases sticky <;>
    simp only [ExtendedMantissa.roundedMantissa, ExtendedMantissa.accuracy, Accuracy.roundToNearestEven,
      Bool.toNat_true, Bool.toNat_false] <;> omega

theorem weight_shiftRight_le {em em' : ExtendedMantissa} (h : weight em ≤ weight em') (n : Nat) :
    weight (em >>> n) ≤ weight (em' >>> n) := by
  rw [shiftRight_eq_iterate, shiftRight_eq_iterate]
  induction n with
  | zero => exact h
  | succ n ih =>
    rw [Function.iterate_succ_apply', Function.iterate_succ_apply', weight_shiftRightOne,
      weight_shiftRightOne]
    omega

theorem roundedMantissa_le {em em' : ExtendedMantissa} (h : weight em ≤ weight em') :
    em.roundedMantissa ≤ em'.roundedMantissa := by
  rw [roundedMantissa_eq, roundedMantissa_eq]
  rcases (Nat.div_le_div_right h : weight em / 4 ≤ weight em' / 4).lt_or_eq with hlt | heq
  · omega
  · rw [heq]
    omega

def rounded (m : Nat) : Nat :=
  (ExtendedMantissa.ofMantissaAndAccuracy m .exact >>> (m.log2 - 52)).roundedMantissa

theorem rounded_le {m m' : Nat} (h : m ≤ m') (hlog : m.log2 = m'.log2) : rounded m ≤ rounded m' := by
  rw [rounded, rounded, hlog]
  refine roundedMantissa_le (weight_shiftRight_le ?_ _)
  simp only [weight, ExtendedMantissa.ofMantissaAndAccuracy]
  omega

theorem shiftRight_mul_two_pow (m d : Nat) :
    ExtendedMantissa.ofMantissaAndAccuracy (m * 2 ^ d) .exact >>> d =
      ExtendedMantissa.ofMantissaAndAccuracy m .exact := by
  rw [shiftRight_eq_iterate]
  induction d with
  | zero => simp
  | succ d ih =>
    rw [Function.iterate_succ_apply, ← ih]
    congr 1
    simp only [ExtendedMantissa.ofMantissaAndAccuracy, ExtendedMantissa.shiftRightOne,
      ExtendedMantissa.mk.injEq]
    refine ⟨?_, ?_, rfl⟩
    · rw [Nat.pow_succ, ← Nat.mul_assoc, Nat.mul_div_cancel _ (by decide)]
    · rw [Nat.pow_succ, ← Nat.mul_assoc, Nat.mul_mod_left]
      rfl

theorem rounded_mul_two_pow {m : Nat} (hlog : 52 ≤ m.log2) (d : Nat) :
    rounded (m * 2 ^ d) = rounded m := by
  have hm := ne_zero_of_le_log2 hlog
  have hsplit : m.log2 + d - 52 = (m.log2 - 52) + d := by omega
  rw [rounded, rounded, log2_mul_two_pow hm, hsplit, shiftRight_eq_iterate,
    Function.iterate_add_apply, ← shiftRight_eq_iterate, ← shiftRight_eq_iterate,
    shiftRight_mul_two_pow]

/-! Carries. -/

def carry (e : Int) (r : Nat) : Int × Nat := if r < 2 ^ 53 then (e, r) else (e + 1, 2 ^ 52)

theorem carry_of_lt (e : Int) {r : Nat} (h : r < 2 ^ 53) : carry e r = (e, r) := if_pos h

theorem carry_two_pow (e : Int) : carry e (2 ^ 53) = (e + 1, 2 ^ 52) := if_neg (lt_irrefl _)

/-- A mantissa with no fewer bits than there can be is rounded to 53 bits, and only a carry into the
next power of two takes a second shift. -/
theorem exists_round_eq (s : Sign) {m : Nat} {e : Int} (a : Accuracy) (hlog : 52 ≤ m.log2)
    (he : -1074 ≤ (m.log2 : Int) - 52 + e) {r : Nat}
    (hr : r = (ExtendedMantissa.ofMantissaAndAccuracy m a >>> (m.log2 - 52)).roundedMantissa) :
    2 ^ 52 ≤ r ∧ r ≤ 2 ^ 53 ∧ ∃ hm, roundWithAccuracy Format.binary64 s m e a =
      .finite s (carry ((m.log2 : Int) - 52 + e) r).2 (carry ((m.log2 : Int) - 52 + e) r).1 hm := by
  have hm := ne_zero_of_le_log2 hlog
  obtain ⟨em, hem⟩ : ∃ em, em = ExtendedMantissa.ofMantissaAndAccuracy m a >>> (m.log2 - 52) := ⟨_, rfl⟩
  rw [← hem] at hr
  have hmantissa : em.mantissa = m / 2 ^ (m.log2 - 52) := by
    rw [hem, mantissa_shiftRight, mantissa_ofMantissaAndAccuracy]
  have hlow : 2 ^ 52 ≤ em.mantissa := by
    rw [hmantissa, Nat.le_div_iff_mul_le (Nat.two_pow_pos _), ← Nat.pow_add, Nat.add_sub_cancel' hlog]
    exact Nat.log2_self_le hm
  have hhigh : em.mantissa < 2 ^ 53 := by
    rw [hmantissa, Nat.div_lt_iff_lt_mul (Nat.two_pow_pos _), ← Nat.pow_add]
    have hbits : 53 + (m.log2 - 52) = m.log2 + 1 := by omega
    rw [hbits]
    exact Nat.lt_log2_self
  have hbounds := roundedMantissa_bounds em
  rw [← hr] at hbounds
  have hr53 : r ≤ 2 ^ 53 := by omega
  refine ⟨by omega, hr53, ?_⟩
  rw [roundWithAccuracy, shiftToTargetExponent_eq a hlog he, ← hem]
  dsimp only
  rw [← hr]
  rcases hr53.lt_or_eq with hlt | rfl
  · have hrlog : r.log2 = 52 := (Nat.log2_eq_iff (by omega)).mpr ⟨by omega, hlt⟩
    rw [carry_of_lt _ hlt, shiftToTargetExponent_eq .exact hrlog.ge (by omega), hrlog]
    dsimp only
    rw [mantissa_shiftRight, mantissa_ofMantissaAndAccuracy, Nat.sub_self, Nat.pow_zero, Nat.div_one,
      dif_neg (by omega)]
    refine ⟨by omega, ?_⟩
    congr 1
    omega
  · have hrlog : (2 ^ 53 : Nat).log2 = 53 := Nat.log2_two_pow
    rw [carry_two_pow, shiftToTargetExponent_eq .exact (by omega) (by omega), hrlog]
    dsimp only
    rw [mantissa_shiftRight, mantissa_ofMantissaAndAccuracy, dif_neg (by decide)]
    refine ⟨by decide, ?_⟩
    congr 1
    omega

theorem log2_carry (e : Int) {r : Nat} (hlow : 2 ^ 52 ≤ r) : (carry e r).2.log2 = 52 := by
  rw [carry]
  split_ifs with h
  · exact (Nat.log2_eq_iff (by omega)).mpr ⟨hlow, h⟩
  · exact Nat.log2_two_pow

theorem carry_fst_bounds (e : Int) (r : Nat) : e ≤ (carry e r).1 ∧ (carry e r).1 ≤ e + 1 := by
  rw [carry]
  split_ifs <;> simp

/-- A number that is written with more bits is rounded as before. -/
theorem round_mul_two_pow (s : Sign) {m d : Nat} {e : Int} (hlog : 52 ≤ m.log2)
    (he : -1074 ≤ (m.log2 : Int) - 52 + e) :
    roundWithAccuracy Format.binary64 s (m * 2 ^ d) (e - d) .exact =
      roundWithAccuracy Format.binary64 s m e .exact := by
  have hm := ne_zero_of_le_log2 hlog
  have hlog' := log2_mul_two_pow hm d
  obtain ⟨-, -, hpos, hround⟩ := exists_round_eq s .exact hlog he (r := rounded m) rfl
  obtain ⟨-, -, hpos', hround'⟩ := exists_round_eq (m := m * 2 ^ d) s (e := e - d) .exact
    (by omega) (by omega) (r := rounded m) (rounded_mul_two_pow hlog d).symm
  have hexponent : ((m * 2 ^ d).log2 : Int) - 52 + (e - d) = (m.log2 : Int) - 52 + e := by
    rw [hlog']
    push_cast
    omega
  rw [hround, hround']
  congr 2 <;> rw [hexponent]

/-- A number with 53 bits is its own nearest decimal. -/
theorem round_of_log2_eq (s : Sign) {m : Nat} {e : Int} (hm : 0 < m) (hlog : m.log2 = 52)
    (he : -1074 ≤ e) :
    roundWithAccuracy Format.binary64 s m e .exact = .finite s m e hm := by
  have hlt : m < 2 ^ 53 := ((Nat.log2_eq_iff hm.ne').mp hlog).2
  have hrounded : m =
      (ExtendedMantissa.ofMantissaAndAccuracy m .exact >>> (m.log2 - 52)).roundedMantissa := by
    rw [hlog]
    rfl
  obtain ⟨-, -, hpos, hround⟩ := exists_round_eq s (e := e) .exact hlog.ge (by omega) hrounded
  have hexponent : (m.log2 : Int) - 52 + e = e := by omega
  rw [hround]
  congr 1 <;> rw [hexponent, carry_of_lt e hlt]

end RpnMachine.Magnitude
