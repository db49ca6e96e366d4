import RpnMachine.Proofs.Number.Finite

/-! Comparisons against exact values. Two decimals are compared by value, and so are two integers. An
integer is compared with a decimal by the value of its own nearest decimal: that is the integer
itself up to `2 ^ 53`, and beyond that no larger integer has a smaller one. -/
namespace RpnMachine

namespace Magnitude

open Float.Model Float.Model.UnpackedFloat

def value : UnpackedFloat → ℚ
  | .finite .positive m e _ => m * 2 ^ e
  | .finite .negative m e _ => -(m * 2 ^ e)
  | _ => 0

theorem value_neg (f : UnpackedFloat) : value f.neg = -value f := by
  cases f with
  | infinity | notANumber | zero => rfl
  | finite s m e hm =>
    cases s
    · exact (neg_neg _).symm
    · rfl

/-! The order of decimals. -/

section Order

variable {m m' : Nat} {e e' : ℤ}

theorem two_pow_le (hm' : 2 ^ 52 ≤ m') (h : e < e') : (2 ^ 53 : ℚ) * 2 ^ e ≤ m' * 2 ^ e' :=
  calc (2 ^ 53 : ℚ) * 2 ^ e = 2 ^ 52 * 2 ^ (e + 1) := by
        rw [zpow_add_one₀ two_ne_zero]
        ring
    _ ≤ m' * 2 ^ e' := by
        have hcast : (2 ^ 52 : ℚ) ≤ m' := by exact_mod_cast hm'
        have hpow : (2 : ℚ) ^ (e + 1) ≤ 2 ^ e' := zpow_le_zpow_right₀ one_le_two (by omega)
        gcongr

theorem mul_two_pow_lt (hm : m < 2 ^ 53) (hm' : 2 ^ 52 ≤ m') (h : e < e') :
    (m : ℚ) * 2 ^ e < m' * 2 ^ e' := by
  have hcast : (m : ℚ) < 2 ^ 53 := by exact_mod_cast hm
  exact (mul_lt_mul_of_pos_right hcast (zpow_pos two_pos e)).trans_le (two_pow_le hm' h)

theorem mul_two_pow_le (hm : m ≤ 2 ^ 53) (hm' : 2 ^ 52 ≤ m') (h : e < e') :
    (m : ℚ) * 2 ^ e ≤ m' * 2 ^ e' := by
  have hcast : (m : ℚ) ≤ 2 ^ 53 := by exact_mod_cast hm
  exact (mul_le_mul_of_nonneg_right hcast (zpow_pos two_pos e).le).trans (two_pow_le hm' h)

/-- All 53 bits are in use, unless the exponent is the least one. -/
def Canonical : UnpackedFloat → Prop
  | .finite _ m e _ => m < 2 ^ 53 ∧ -1074 ≤ e ∧ (m < 2 ^ 52 → e = -1074)
  | _ => True

/-- Exponents are compared first, and mantissas where these are the same. -/
theorem compare_mul_two_pow {s s' : Sign} {hm : 0 < m} {hm' : 0 < m'}
    (h : Canonical (.finite s m e hm)) (h' : Canonical (.finite s' m' e' hm')) :
    compare ((m : ℚ) * 2 ^ e) (m' * 2 ^ e') = (compare e e').then (compare m m') := by
  obtain ⟨hlt, hle, hmin⟩ := h
  obtain ⟨hlt', hle', hmin'⟩ := h'
  rcases lt_trichotomy e e' with he | rfl | he
  · rw [Int.compare_eq_lt.mpr he]
    exact compare_lt_iff_lt.mpr (mul_two_pow_lt hlt (by omega) he)
  · have hmono : StrictMono fun k : Nat => (k : ℚ) * 2 ^ e := fun k l h =>
      mul_lt_mul_of_pos_right (Nat.cast_lt.mpr h) (zpow_pos two_pos e)
    rw [compare_eq_iff_eq.mpr (rfl : e = e), ← cmp_eq_compare, ← cmp_eq_compare]
    exact hmono.cmp_map_eq m m'
  · rw [Int.compare_eq_gt.mpr he]
    exact compare_gt_iff_gt.mpr (mul_two_pow_lt hlt' (by omega) he)

theorem compare_neg_neg (a b : ℚ) : compare (-a) (-b) = (compare a b).swap := by
  rw [← cmp_eq_compare, ← cmp_eq_compare, cmp_swap]
  exact StrictAnti.cmp_map_eq (fun _ _ => neg_lt_neg) a b

theorem compare_eq {f g : UnpackedFloat} (hf : f.isFinite) (hg : g.isFinite) (hf' : Canonical f)
    (hg' : Canonical g) : f.compare g = some (compare (value f) (value g)) := by
  have hpos : ∀ {m : Nat} {e : ℤ}, 0 < m → (0 : ℚ) < m * 2 ^ e := fun hm =>
    mul_pos (Nat.cast_pos.mpr hm) (zpow_pos two_pos _)
  cases f with
  | infinity | notANumber => cases hf
  | zero s =>
    cases g with
    | infinity | notANumber => cases hg
    | zero s' => exact congrArg some (compare_eq_iff_eq.mpr rfl).symm
    | finite s' m' e' hm' =>
      cases s'
      · exact congrArg some (compare_gt_iff_gt.mpr (neg_neg_of_pos (hpos hm'))).symm
      · exact congrArg some (compare_lt_iff_lt.mpr (hpos hm')).symm
  | finite s m e hm =>
    cases g with
    | infinity | notANumber => cases hg
    | zero s' =>
      cases s
      · exact congrArg some (compare_lt_iff_lt.mpr (neg_neg_of_pos (hpos hm))).symm
      · exact congrArg some (compare_gt_iff_gt.mpr (hpos hm)).symm
    | finite s' m' e' hm' =>
      have hcompare := compare_mul_two_pow hf' hg'
      cases s <;> cases s'
      · rw [value, value, compare_neg_neg, hcompare]
        rfl
      · exact congrArg some
          (compare_lt_iff_lt.mpr ((neg_neg_of_pos (hpos hm)).trans (hpos hm'))).symm
      · exact congrArg some
          (compare_gt_iff_gt.mpr ((neg_neg_of_pos (hpos hm')).trans (hpos hm))).symm
      · rw [value, value, hcompare]
        rfl

end Order

/-- What a float holds is canonical: the exponent that its bits give is at least zero, and a mantissa
gets its first bit where that is positive. -/
theorem canonical_unpack (x : Float) : Canonical x.toModel.unpack := by
  change Canonical (UnpackedFloat.unpack Format.binary64 x.toModel.toBits.toBitVec)
  obtain ⟨mantissa, hmantissa⟩ : ∃ b : BitVec 52, b = @unpackMantissa Format.binary64
    x.toModel.toBits.toBitVec := ⟨_, rfl⟩
  obtain ⟨exponent, hexponent⟩ : ∃ b : BitVec 11, b = @unpackExponent Format.binary64
    x.toModel.toBits.toBitVec := ⟨_, rfl⟩
  have hbias : (Format.binary64.exponentBias : Int) +
    (Format.binary64.mantissaBitsWithoutImplicit : Int) = 1075 := rfl
  have hlt := mantissa.isLt
  rw [UnpackedFloat.unpack]
  simp only [← hmantissa, ← hexponent, hbias]
  split_ifs with hones hinf hzero hzero'
  · trivial
  · trivial
  · trivial
  · rw [hzero]
    exact ⟨hlt.trans (by norm_num), le_rfl, fun _ => rfl⟩
  · have hpositive : 0 < exponent.toNat := by
      rw [Nat.pos_iff_ne_zero]
      exact fun h => hzero (BitVec.eq_of_toNat_eq h)
    have hbits : (1#1 ++ mantissa).toNat = 2 ^ 52 + mantissa.toNat := by
      rw [BitVec.toNat_append, ← Nat.shiftLeft_add_eq_or_of_lt hlt]
      rfl
    show (1#1 ++ mantissa).toNat < _ ∧ _ ∧ ((1#1 ++ mantissa).toNat < _ → _)
    rw [hbits]
    refine ⟨by omega, by omega, fun h => absurd h (by omega)⟩

/-! The nearest decimals of integers. -/

theorem mul_two_pow_carry (e : ℤ) {r : Nat} (h : r ≤ 2 ^ 53) :
    ((carry e r).2 : ℚ) * 2 ^ (carry e r).1 = r * 2 ^ e := by
  rcases h.lt_or_eq with hlt | rfl
  · rw [carry_of_lt e hlt]
  · rw [carry_two_pow, zpow_add_one₀ two_ne_zero]
    push_cast
    ring

theorem exists_value_round_eq {m : Nat} {e : ℤ} (hlog : 52 ≤ m.log2)
    (he : -1074 ≤ (m.log2 : ℤ) - 52 + e) : 2 ^ 52 ≤ rounded m ∧ rounded m ≤ 2 ^ 53 ∧
      value (roundWithAccuracy Format.binary64 .positive m e .exact) =
        rounded m * 2 ^ ((m.log2 : ℤ) - 52 + e) := by
  obtain ⟨hlow, hhigh, hm, hround⟩ := exists_round_eq .positive .exact hlog he (r := rounded m) rfl
  rw [hround]
  exact ⟨hlow, hhigh, mul_two_pow_carry _ hhigh⟩

theorem value_round_le {m m' : Nat} {e : ℤ} (hlog : 52 ≤ m.log2)
    (he : -1074 ≤ (m.log2 : ℤ) - 52 + e) (h : m ≤ m') :
    value (roundWithAccuracy Format.binary64 .positive m e .exact) ≤
      value (roundWithAccuracy Format.binary64 .positive m' e .exact) := by
  have hm := ne_zero_of_le_log2 hlog
  have hlog' : m.log2 ≤ m'.log2 := (Nat.le_log2 (by omega)).mpr ((Nat.log2_self_le hm).trans h)
  obtain ⟨-, hhigh, hvalue⟩ := exists_value_round_eq hlog he
  obtain ⟨hlow, -, hvalue'⟩ := exists_value_round_eq (m := m') (e := e) (by omega) (by omega)
  rw [hvalue, hvalue']
  rcases hlog'.lt_or_eq with hlt | heq
  · exact mul_two_pow_le hhigh hlow (by omega)
  · rw [heq]
    have hcast : (rounded m : ℚ) ≤ rounded m' := by exact_mod_cast rounded_le h heq
    exact mul_le_mul_of_nonneg_right hcast (zpow_pos two_pos _).le

variable {m n : Nat}

theorem value_nearest_zero : value (nearest 0) = 0 := by decide +kernel

theorem value_nearest_pos (hn : 0 < n) : 0 < value (nearest n) := by
  have hlog := log2_nearest hn
  obtain ⟨hlow, -, hvalue⟩ := exists_value_round_eq (m := n * 2 ^ 104) (e := -104) (by omega) (by omega)
  rw [nearest, hvalue]
  exact mul_pos (Nat.cast_pos.mpr (by omega)) (zpow_pos two_pos _)

theorem value_nearest_nonneg (n : Nat) : 0 ≤ value (nearest n) := by
  rcases Nat.eq_zero_or_pos n with rfl | hn
  · exact value_nearest_zero.ge
  · exact (value_nearest_pos hn).le

theorem value_nearest_le (h : m ≤ n) : value (nearest m) ≤ value (nearest n) := by
  rcases Nat.eq_zero_or_pos m with rfl | hm
  · exact value_nearest_zero.trans_le (value_nearest_nonneg n)
  · have hlog := log2_nearest hm
    exact value_round_le (by omega) (by omega) (Nat.mul_le_mul_right _ h)

/-- A number of up to 53 bits, filled up to just so many, is not rounded at all. -/
theorem value_nearest (h : n ≤ 2 ^ 53) : value (nearest n) = n := by
  rcases Nat.eq_zero_or_pos n with rfl | hn
  · exact value_nearest_zero
  have hfilled : ∃ m d, m * 2 ^ d = n * 2 ^ 104 ∧ m.log2 = 52 := by
    rcases h.lt_or_eq with hlt | rfl
    · have hlog : n.log2 ≤ 52 := Nat.le_of_lt_succ ((Nat.log2_lt hn.ne').mpr hlt)
      refine ⟨n * 2 ^ (52 - n.log2), 52 + n.log2, ?_, ?_⟩
      · have hsum : (52 - n.log2) + (52 + n.log2) = 104 := by omega
        rw [Nat.mul_assoc, ← Nat.pow_add, hsum]
      · rw [log2_mul_two_pow hn.ne']
        omega
    · exact ⟨2 ^ 52, 105, by norm_num, Nat.log2_two_pow⟩
  obtain ⟨m, d, hbits, hlog⟩ := hfilled
  have hm := Nat.pos_of_ne_zero (ne_zero_of_le_log2 hlog.ge)
  rw [← nearest_eq hlog.ge hbits, round_of_log2_eq .positive hm hlog (by omega)]
  calc (m : ℚ) * 2 ^ ((d : ℤ) - 104) = (m * 2 ^ d : Nat) / 2 ^ 104 := by
        rw [zpow_sub₀ two_ne_zero]
        push_cast
        rw [mul_div_assoc]
        rfl
    _ = n := by
        rw [hbits, Nat.cast_mul, Nat.cast_pow, Nat.cast_two]
        exact mul_div_cancel_right₀ _ (pow_ne_zero _ two_ne_zero)

/-- The value of the decimal that an integer becomes. -/
def nearestValue (i : ℤ) : ℚ := value (Float.ofInt i).toModel.unpack

theorem nearestValue_natCast (h : n.log2 ≤ 900) : nearestValue n = value (nearest n) := by
  rcases Nat.eq_zero_or_pos n with rfl | hn
  · decide +kernel
  · exact congrArg value (unpack_ofNat hn h)

theorem nearestValue_neg (h : n.log2 ≤ 900) : nearestValue (-n) = -value (nearest n) := by
  rcases n with _ | n
  · decide +kernel
  · have hn : 0 < n + 1 := n.succ_pos
    have hunpack : (-Float.ofNat (n + 1)).toModel.unpack = (nearest (n + 1)).neg := by
      change (Float.Model.pack (Float.ofNat (n + 1)).toModel.unpack.neg).unpack = _
      rw [unpack_ofNat hn h]
      exact unpack_pack_of_normal (normal_nearest hn).neg (by omega) (by omega)
    rw [← value_neg, ← hunpack]
    rfl

theorem nearestValue_le {i j : ℤ} (hi : i.natAbs.log2 ≤ 900) (hj : j.natAbs.log2 ≤ 900) (h : i ≤ j) :
    nearestValue i ≤ nearestValue j := by
  obtain ⟨m, rfl | rfl⟩ := i.eq_nat_or_neg <;> obtain ⟨n, rfl | rfl⟩ := j.eq_nat_or_neg <;>
    simp only [Int.natAbs_natCast, Int.natAbs_neg] at hi hj
  · rw [nearestValue_natCast hi, nearestValue_natCast hj]
    exact value_nearest_le (by omega)
  · obtain ⟨rfl, rfl⟩ : m = 0 ∧ n = 0 := by omega
    exact le_refl _
  · rw [nearestValue_neg hi, nearestValue_natCast hj]
    exact (neg_nonpos.mpr (value_nearest_nonneg m)).trans (value_nearest_nonneg n)
  · rw [nearestValue_neg hi, nearestValue_neg hj]
    exact neg_le_neg (value_nearest_le (by omega))

/-- Integers of up to 53 bits become themselves. -/
theorem nearestValue_eq {i : ℤ} (h : i.natAbs ≤ 2 ^ 53) : nearestValue i = i := by
  have hlog : i.natAbs.log2 ≤ 900 :=
    (Number.log2_lt_of_word (h.trans_lt (by decide))).trans (by decide)
  obtain ⟨n, rfl | rfl⟩ := i.eq_nat_or_neg <;> simp only [Int.natAbs_natCast, Int.natAbs_neg] at h hlog
  · rw [nearestValue_natCast hlog, value_nearest h]
    rfl
  · rw [nearestValue_neg hlog, value_nearest h]
    push_cast
    rfl

theorem lt_iff (x y : Float) : x < y ↔ x.toModel.unpack.compare y.toModel.unpack = some .lt := by
  change decide (x.toModel < y.toModel) = true ↔ _
  rw [decide_eq_true_iff]
  exact beq_iff_eq

theorem ordering_eq {x y : Float} (hx : x.isFinite) (hy : y.isFinite) :
    (if x < y then some .lt else if x == y then some .eq else if y < x then some .gt else none) =
      some (compare (value x.toModel.unpack) (value y.toModel.unpack)) := by
  have hxy := compare_eq hx hy (canonical_unpack x) (canonical_unpack y)
  have hyx := compare_eq hy hx (canonical_unpack y) (canonical_unpack x)
  have hbeq : (x == y) = (x.toModel.unpack.compare y.toModel.unpack == some .eq) := rfl
  rw [Std.OrientedOrd.eq_swap] at hyx
  simp only [lt_iff, hbeq, hxy, hyx]
  cases compare (value x.toModel.unpack) (value y.toModel.unpack) <;> rfl

end Magnitude

namespace Number

open Magnitude

def value : Number → ℚ
  | integer i => i
  | decimal x => Magnitude.value x.toModel.unpack

def approx (a : Number) : ℚ := Magnitude.value a.toFloat.toModel.unpack

/-- The numbers of integer objects, and those of decimal objects that are finite. -/
def Held : Number → Prop
  | integer i => i.natAbs < Word.bound 8
  | decimal x => x.isFinite

instance : DecidablePred Held
  | integer i => inferInstanceAs (Decidable (i.natAbs < Word.bound 8))
  | decimal x => inferInstanceAs (Decidable (x.isFinite = true))

/-- The two that are compared as integers. -/
def Integers : Number → Number → Prop
  | integer _, integer _ => True
  | _, _ => False

/-- The comparison rounds nothing: an integer beside a decimal is at most `2 ^ 53` without its sign. -/
def Lossless : Number → Number → Prop
  | integer i, decimal _ | decimal _, integer i => i.natAbs ≤ 2 ^ 53
  | _, _ => True

structure Consistent (a b c : Number) : Prop where
  /-- Just one of less, equal and greater holds, and the opposite the other way round. -/
  total : ∃ o, a.compare? b = some o ∧ b.compare? a = some o.swap
  by_value : Lossless a b → a.compare? b = some (compare a.value b.value)
  less_trans : a.compare? b = some .lt → b.compare? c = some .lt → a.compare? c = some .lt
  equal_comm : a.equal b = b.equal a
  /-- Only integers beyond `2 ^ 53` can be the same as one decimal without being the same. -/
  equal_trans : a.equal b → b.equal c → a.equal c ∨ ∃ i x j, a = integer i ∧ b = decimal x ∧
    c = integer j ∧ i ≠ j ∧ 2 ^ 53 < max i.natAbs j.natAbs

variable {a b c : Number}

theorem log2_le_of_held {i : Int} (h : (integer i).Held) : i.natAbs.log2 ≤ 900 :=
  (log2_lt_of_word h).trans (by decide)

theorem isFinite_toFloat (h : a.Held) : a.toFloat.isFinite := by
  cases a with
  | integer i => exact isFinite_ofInt (h.trans (by decide))
  | decimal x => exact h

/-- Any two numbers but integers are compared as decimals. -/
theorem compare?_eq_of_not (ha : a.Held) (hb : b.Held) (h : ¬Integers a b) :
    a.compare? b = some (compare a.approx b.approx) := by
  have hordering := ordering_eq (isFinite_toFloat ha) (isFinite_toFloat hb)
  cases a with
  | integer i =>
    cases b with
    | integer j => exact absurd trivial h
    | decimal y => exact hordering
  | decimal x =>
    cases b with
    | integer j => exact hordering
    | decimal y => exact hordering

theorem exists_of_integers (h : Integers a b) : ∃ i j, a = integer i ∧ b = integer j := by
  cases a with
  | integer i =>
    cases b with
    | integer j => exact ⟨i, j, rfl, rfl⟩
    | decimal => cases h
  | decimal => cases h

theorem compare?_integer (i j : Int) : (integer i).compare? (integer j) = some (compare i j) := rfl

theorem approx_le {i j : Int} (hi : (integer i).Held) (hj : (integer j).Held) (h : i ≤ j) :
    (integer i).approx ≤ (integer j).approx :=
  nearestValue_le (log2_le_of_held hi) (log2_le_of_held hj) h

theorem approx_le_of_lt (ha : a.Held) (hb : b.Held) (h : a.compare? b = some .lt) :
    a.approx ≤ b.approx := by
  by_cases hint : Integers a b
  · obtain ⟨i, j, rfl, rfl⟩ := exists_of_integers hint
    rw [compare?_integer, Option.some_inj, compare_lt_iff_lt] at h
    exact approx_le ha hb h.le
  · rw [compare?_eq_of_not ha hb hint, Option.some_inj, compare_lt_iff_lt] at h
    exact h.le

theorem approx_lt_of_lt (ha : a.Held) (hb : b.Held) (hint : ¬Integers a b)
    (h : a.compare? b = some .lt) : a.approx < b.approx := by
  rw [compare?_eq_of_not ha hb hint, Option.some_inj, compare_lt_iff_lt] at h
  exact h

theorem lt_of_approx_lt (ha : a.Held) (hb : b.Held) (h : a.approx < b.approx) :
    a.compare? b = some .lt := by
  by_cases hint : Integers a b
  · obtain ⟨i, j, rfl, rfl⟩ := exists_of_integers hint
    rw [compare?_integer, Option.some_inj, compare_lt_iff_lt]
    by_contra hle
    exact h.not_ge (approx_le hb ha (not_lt.mp hle))
  · rw [compare?_eq_of_not ha hb hint, Option.some_inj, compare_lt_iff_lt]
    exact h

theorem equal_iff : a.equal b ↔ a.compare? b = some .eq := beq_iff_eq

theorem approx_eq_of_equal (ha : a.Held) (hb : b.Held) (h : a.equal b) : a.approx = b.approx := by
  rw [equal_iff] at h
  by_cases hint : Integers a b
  · obtain ⟨i, j, rfl, rfl⟩ := exists_of_integers hint
    rw [compare?_integer, Option.some_inj, compare_eq_iff_eq] at h
    rw [h]
  · rw [compare?_eq_of_not ha hb hint, Option.some_inj, compare_eq_iff_eq] at h
    exact h

theorem approx_eq_value {i : Int} (h : i.natAbs ≤ 2 ^ 53) : (integer i).approx = i :=
  nearestValue_eq h

theorem exists_compare? (ha : a.Held) (hb : b.Held) :
    ∃ o, a.compare? b = some o ∧ b.compare? a = some o.swap := by
  by_cases hint : Integers a b
  · obtain ⟨i, j, rfl, rfl⟩ := exists_of_integers hint
    exact ⟨compare i j, rfl, congrArg some Std.OrientedOrd.eq_swap⟩
  · have hint' : ¬Integers b a := by
      intro h
      obtain ⟨i, j, rfl, rfl⟩ := exists_of_integers h
      exact hint trivial
    refine ⟨_, compare?_eq_of_not ha hb hint, ?_⟩
    rw [compare?_eq_of_not hb ha hint']
    exact congrArg some Std.OrientedOrd.eq_swap

theorem compare?_eq_of_lossless (ha : a.Held) (hb : b.Held) (h : Lossless a b) :
    a.compare? b = some (compare a.value b.value) := by
  by_cases hint : Integers a b
  · obtain ⟨i, j, rfl, rfl⟩ := exists_of_integers hint
    rw [compare?_integer, ← cmp_eq_compare, ← cmp_eq_compare]
    exact congrArg some (Int.cast_strictMono.cmp_map_eq i j).symm
  · rw [compare?_eq_of_not ha hb hint]
    cases a with
    | integer i =>
      cases b with
      | integer j => exact absurd trivial hint
      | decimal y =>
        rw [approx_eq_value h]
        rfl
    | decimal x =>
      cases b with
      | integer j =>
        rw [approx_eq_value h]
        rfl
      | decimal y => rfl

theorem less_trans (ha : a.Held) (hb : b.Held) (hc : c.Held) (hab : a.compare? b = some .lt)
    (hbc : b.compare? c = some .lt) : a.compare? c = some .lt := by
  have hle := approx_le_of_lt ha hb hab
  have hle' := approx_le_of_lt hb hc hbc
  by_cases hint : Integers a b
  · by_cases hint' : Integers b c
    · obtain ⟨i, j, rfl, rfl⟩ := exists_of_integers hint
      obtain ⟨_, k, -, rfl⟩ := exists_of_integers hint'
      rw [compare?_integer, Option.some_inj, compare_lt_iff_lt] at hab hbc ⊢
      exact hab.trans hbc
    · exact lt_of_approx_lt ha hc (hle.trans_lt (approx_lt_of_lt hb hc hint' hbc))
  · exact lt_of_approx_lt ha hc ((approx_lt_of_lt ha hb hint hab).trans_le hle')

theorem equal_trans (ha : a.Held) (hb : b.Held) (hc : c.Held) (hab : a.equal b) (hbc : b.equal c) :
    a.equal c ∨ ∃ i x j, a = integer i ∧ b = decimal x ∧ c = integer j ∧ i ≠ j ∧
      2 ^ 53 < max i.natAbs j.natAbs := by
  have happrox := (approx_eq_of_equal ha hb hab).trans (approx_eq_of_equal hb hc hbc)
  by_cases hint : Integers a c
  · obtain ⟨i, j, rfl, rfl⟩ := exists_of_integers hint
    by_cases hij : i = j
    · exact .inl (equal_iff.mpr (congrArg some (compare_eq_iff_eq.mpr hij)))
    · cases b with
      | integer k =>
        rw [equal_iff, compare?_integer, Option.some_inj, compare_eq_iff_eq] at hab hbc
        exact absurd (hab.trans hbc) hij
      | decimal x =>
        refine .inr ⟨i, x, j, rfl, rfl, rfl, hij, ?_⟩
        by_contra hmax
        rw [not_lt, max_le_iff] at hmax
        rw [approx_eq_value hmax.1, approx_eq_value hmax.2] at happrox
        exact hij (Int.cast_injective happrox)
  · refine .inl (equal_iff.mpr ?_)
    rw [compare?_eq_of_not ha hc hint, happrox]
    exact congrArg some (compare_eq_iff_eq.mpr rfl)

theorem equal_comm (ha : a.Held) (hb : b.Held) : a.equal b = b.equal a := by
  obtain ⟨o, hab, hba⟩ := exists_compare? ha hb
  rw [equal, equal, hab, hba]
  cases o <;> rfl

theorem consistent (ha : a.Held) (hb : b.Held) (hc : c.Held) : Consistent a b c where
  total := exists_compare? ha hb
  by_value := compare?_eq_of_lossless ha hb
  less_trans := less_trans ha hb hc
  equal_comm := equal_comm ha hb
  equal_trans := equal_trans ha hb hc

/-- The integers `2 ^ 53` and `2 ^ 53 + 1` are both the same as the decimal `2 ^ 53`. -/
theorem not_equal_trans : ¬∀ a b c : Number, a.Held → b.Held → c.Held → a.equal b → b.equal c →
    a.equal c := by
  intro h
  have hequal := h (integer 9007199254740993) (decimal (Float.ofBits 0x4340000000000000))
    (integer 9007199254740992) (by decide) (by decide +kernel) (by decide) (by decide +kernel)
    (by decide +kernel)
  exact absurd hequal (by decide)

end Number
end RpnMachine
