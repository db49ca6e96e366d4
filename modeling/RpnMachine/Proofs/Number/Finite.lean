import RpnMachine.Proofs.Number.Rounding

/-! Products and quotients of integers of 64 bits are finite as decimals: a float keeps its magnitude
within powers of two, and each operation moves those by little. The decimal of an integer is what
rounding makes of it. -/
namespace RpnMachine

namespace Magnitude

open Float.Model Float.Model.UnpackedFloat

/-! Magnitudes. -/

/-- A number with all its 53 bits, at least `2 ^ lo` and less than `2 ^ hi` without its sign. -/
inductive Normal (lo hi : Int) : UnpackedFloat → Prop
  | finite {s : Sign} {m : Nat} {e : Int} {hm : 0 < m} (hlog : m.log2 = 52) (hlo : lo ≤ e + 52)
      (hhi : e + 53 ≤ hi) : Normal lo hi (.finite s m e hm)

theorem Normal.mono {lo hi lo' hi' : Int} {x : UnpackedFloat} (h : Normal lo hi x) (hlo : lo' ≤ lo)
    (hhi : hi ≤ hi') : Normal lo' hi' x := by
  cases h with
  | finite hlog h₁ h₂ => exact .finite hlog (hlo.trans h₁) (h₂.trans hhi)

/-- Rounding to 53 bits keeps the magnitude, but for a carry. -/
theorem normal_round (s : Sign) {m : Nat} {e : Int} (a : Accuracy) (hlog : 52 ≤ m.log2)
    (he : -1074 ≤ (m.log2 : Int) - 52 + e) :
    Normal (m.log2 + e) (m.log2 + e + 2) (roundWithAccuracy Format.binary64 s m e a) := by
  obtain ⟨hlow, -, hm, hround⟩ := exists_round_eq s a hlog he rfl
  have hbounds := carry_fst_bounds ((m.log2 : Int) - 52 + e)
    (ExtendedMantissa.ofMantissaAndAccuracy m a >>> (m.log2 - 52)).roundedMantissa
  rw [hround]
  exact .finite (log2_carry _ hlow) (by omega) (by omega)

theorem log2_mul {m n : Nat} (hm : m.log2 = 52) (hn : n.log2 = 52) (hm' : 0 < m) (hn' : 0 < n) :
    104 ≤ (m * n).log2 ∧ (m * n).log2 ≤ 105 := by
  have hmb := (Nat.log2_eq_iff hm'.ne').mp hm
  have hnb := (Nat.log2_eq_iff hn'.ne').mp hn
  have hne : m * n ≠ 0 := (Nat.mul_pos hm' hn').ne'
  have hlow : 2 ^ 104 ≤ m * n :=
    calc 2 ^ 104 = 2 ^ 52 * 2 ^ 52 := by rw [← Nat.pow_add]
      _ ≤ m * n := Nat.mul_le_mul hmb.1 hnb.1
  have hhigh : m * n < 2 ^ 106 :=
    calc m * n < 2 ^ 53 * 2 ^ 53 := Nat.mul_lt_mul'' hmb.2 hnb.2
      _ = 2 ^ 106 := by rw [← Nat.pow_add]
  exact ⟨(Nat.le_log2 hne).mpr hlow, Nat.le_of_lt_succ ((Nat.log2_lt hne).mpr hhigh)⟩

theorem log2_div {m n : Nat} (hm : m.log2 = 52) (hn : n.log2 = 52) (hm' : 0 < m) (hn' : 0 < n) :
    52 ≤ (m <<< 53 / n).log2 ∧ (m <<< 53 / n).log2 ≤ 53 := by
  have hmb := (Nat.log2_eq_iff hm'.ne').mp hm
  have hnb := (Nat.log2_eq_iff hn'.ne').mp hn
  have hlow : 2 ^ 52 ≤ m <<< 53 / n := by
    rw [Nat.le_div_iff_mul_le hn', Nat.shiftLeft_eq]
    omega
  have hhigh : m <<< 53 / n < 2 ^ 54 := by
    rw [Nat.div_lt_iff_lt_mul hn', Nat.shiftLeft_eq]
    omega
  have hne : m <<< 53 / n ≠ 0 := by omega
  exact ⟨(Nat.le_log2 hne).mpr hlow, Nat.le_of_lt_succ ((Nat.log2_lt hne).mpr hhigh)⟩

namespace Normal

variable {lo hi lo' hi' : Int} {f g : UnpackedFloat}

theorem mul (hf : Normal lo hi f) (hg : Normal lo' hi' g) (h : -1022 ≤ lo + lo') :
    Normal (lo + lo') (hi + hi' + 1) (UnpackedFloat.mul Format.binary64 f g) := by
  cases hf with
  | @finite s m e hm hlog h₁ h₂ =>
    cases hg with
    | @finite s' m' e' hm' hlog' h₁' h₂' =>
      have hlog := log2_mul hlog hlog' hm hm'
      rw [UnpackedFloat.mul]
      exact (normal_round (s * s') .exact (by omega) (by omega)).mono (by omega) (by omega)

theorem div (hf : Normal lo hi f) (hg : Normal lo' hi' g) (h : -1021 ≤ lo - hi') :
    Normal (lo - hi') (hi - lo' + 1) (UnpackedFloat.div Format.binary64 f g) := by
  cases hf with
  | @finite s m e hm hlog h₁ h₂ =>
    cases hg with
    | @finite s' m' e' hm' hlog' h₁' h₂' =>
      have htarget : min (e - e') (Format.binary64.targetExponent
          (totalExponent m e - totalExponent m' e')) = e - e' - 53 := by
        simp only [Format.targetExponent, totalExponent, Format.mantissaBits, Format.minExponent, hlog,
          hlog']
        omega
      have hshift : (e - e' - (e - e' - 53)).toNat = 53 := by omega
      have hquotient := log2_div hlog hlog' hm hm'
      rw [UnpackedFloat.div, divCore]
      dsimp only
      rw [htarget, hshift]
      exact (normal_round (s / s') _ (by omega) (by omega)).mono (by omega) (by omega)

theorem neg (hf : Normal lo hi f) : Normal lo hi f.neg := by
  cases hf with
  | finite hlog h₁ h₂ => exact .finite hlog h₁ h₂

end Normal

/-! Floats as bits. -/

theorem unpack_pack (s : Sign) {m : Nat} {e : Int} (hm : 0 < m) (hlog : m.log2 = 52)
    (hlo : -1074 ≤ e) (hhi : e ≤ 971) :
    UnpackedFloat.unpack Format.binary64 (UnpackedFloat.pack Format.binary64 (.finite s m e hm)) =
      .finite s m e hm := by
  obtain ⟨b, hb⟩ : ∃ b : Nat, (b : Int) = e + 1075 := ⟨(e + 1075).toNat, by omega⟩
  have hbounds := (Nat.log2_eq_iff hm.ne').mp hlog
  have hbiased : (e + (Format.binary64.exponentBias : Int) +
      (Format.binary64.mantissaBitsWithoutImplicit : Int)).toNat = b := by
    change (e + (1023 : Int) + (52 : Int)).toNat = b
    omega
  have hexponent : (BitVec.ofNat 11 b).toNat = b := by
    rw [BitVec.toNat_ofNat]
    omega
  have hzero : BitVec.ofNat 11 b ≠ 0#11 := fun h => by
    have := congrArg BitVec.toNat h
    rw [hexponent, BitVec.toNat_ofNat] at this
    omega
  have hones : BitVec.ofNat 11 b ≠ -1#11 := fun h => by
    have := congrArg BitVec.toNat h
    rw [hexponent, BitVec.toNat_neg, BitVec.toNat_ofNat] at this
    omega
  have hmantissa : (1#1 ++ BitVec.ofNat 52 m).toNat = m := by
    rw [BitVec.toNat_append, ← Nat.shiftLeft_add_eq_or_of_lt (BitVec.isLt _), BitVec.toNat_ofNat,
      BitVec.toNat_ofNat, Nat.shiftLeft_eq]
    omega
  have hbits : m.log2 + 1 = Format.binary64.mantissaBits := by rw [hlog]; rfl
  rw [UnpackedFloat.pack]
  dsimp only
  rw [hbiased, if_neg (by omega), if_pos hbits, UnpackedFloat.unpack]
  simp only [unpackExponent_packComponents, unpackMantissa_packComponents, unpackSign_packComponents,
    if_neg hones, if_neg hzero, Sign.ofBitVec_toBitVec, hexponent, hmantissa]
  congr 1
  change (b : Int) - (1023 + 52) = e
  omega

/-- What a float holds is what was packed. -/
theorem unpack_pack_of_normal {lo hi : Int} {f : UnpackedFloat} (h : Normal lo hi f)
    (hlo : -1022 ≤ lo) (hhi : hi ≤ 1024) : (Float.Model.pack f).unpack = f := by
  cases h with
  | @finite s m e hm hlog h₁ h₂ => exact unpack_pack s hm hlog (by omega) (by omega)

/-- A float with these bounds for its magnitude. -/
def Within (lo hi : Int) (x : Float) : Prop := Normal lo hi x.toModel.unpack

variable {lo hi lo' hi' : Int} {x y : Float}

theorem within_pack {f : UnpackedFloat} (h : Normal lo hi f) (hlo : -1022 ≤ lo) (hhi : hi ≤ 1024) :
    Within lo hi ⟨.pack f⟩ := by
  change Normal lo hi (Float.Model.pack f).unpack
  rw [unpack_pack_of_normal h hlo hhi]
  exact h

theorem Within.isFinite (h : Within lo hi x) : x.isFinite := by
  rw [Float.isFinite, Float.Model.isFinite]
  rw [Within] at h
  generalize x.toModel.unpack = f at h
  cases h with
  | finite => rfl

theorem Within.mul (hx : Within lo hi x) (hy : Within lo' hi' y) (h : -1022 ≤ lo + lo')
    (h' : hi + hi' + 1 ≤ 1024) : Within (lo + lo') (hi + hi' + 1) (x * y) :=
  within_pack (Normal.mul hx hy h) h h'

theorem Within.div (hx : Within lo hi x) (hy : Within lo' hi' y) (h : -1021 ≤ lo - hi')
    (h' : hi - lo' + 1 ≤ 1024) : Within (lo - hi') (hi - lo' + 1) (x / y) :=
  within_pack (Normal.div hx hy h) (by omega) h'

theorem Within.neg (hx : Within lo hi x) (h : -1022 ≤ lo) (h' : hi ≤ 1024) : Within lo hi (-x) :=
  within_pack (Normal.neg hx) h h'

/-! Integers as floats. -/

def nearest (n : Nat) : UnpackedFloat :=
  roundWithAccuracy Format.binary64 .positive (n * 2 ^ 104) (-104) .exact

variable {n : Nat}

theorem nearest_eq {m d : Nat} (hlog : 52 ≤ m.log2)
    (h : m * 2 ^ d = n * 2 ^ 104) :
    roundWithAccuracy Format.binary64 .positive m ((d : Int) - 104) .exact = nearest n := by
  have hlarge := round_mul_two_pow .positive (d := d) (e := (d : Int) - 104) hlog (by omega)
  rw [h] at hlarge
  rw [← hlarge, nearest]
  congr 1
  omega

theorem log2_nearest (hn : 0 < n) : (n * 2 ^ 104).log2 = n.log2 + 104 := log2_mul_two_pow hn.ne' 104

theorem normal_nearest (hn : 0 < n) : Normal n.log2 (n.log2 + 2) (nearest n) := by
  have hlog := log2_nearest hn
  exact (normal_round .positive .exact (by omega) (by omega)).mono (by omega) (by omega)

theorem ofNat_eq_nearest (hn : 0 < n) (h : n < 2 ^ 53) :
    UnpackedFloat.ofNat Format.binary64 n = nearest n := by
  have hlog : n.log2 ≤ 52 := Nat.le_of_lt_succ ((Nat.log2_lt hn.ne').mpr h)
  have htarget : Format.binary64.targetExponent (totalExponent n 0) = (n.log2 : Int) - 52 := by
    simp only [Format.targetExponent, totalExponent, Format.mantissaBits, Format.minExponent]
    omega
  have hshift : (0 - ((n.log2 : Int) - 52)).toNat = 52 - n.log2 := by omega
  have hfilled : (n <<< (52 - n.log2)).log2 = 52 := by
    rw [log2_shiftLeft hn.ne']
    omega
  have hcompare : compare (n : Int) 0 = .gt := Int.compare_eq_gt.mpr (by omega)
  have hbits : n <<< (52 - n.log2) * 2 ^ (52 + n.log2) = n * 2 ^ 104 := by
    have hsum : (52 - n.log2) + (52 + n.log2) = 104 := by omega
    rw [Nat.shiftLeft_eq, Nat.mul_assoc, ← Nat.pow_add, hsum]
  rw [UnpackedFloat.ofNat, UnpackedFloat.ofInt, UnpackedFloat.normalize, hcompare]
  dsimp only
  rw [Int.toNat_natCast, UnpackedFloat.round, htarget, decreaseExponent, hshift]
  dsimp only
  rw [← nearest_eq hfilled.ge hbits]
  congr 1
  omega

theorem unpack_toFloat (hn : 0 < n) (h : n < 2 ^ 53) :
    n.toUInt64.toFloat.toModel.unpack = nearest n := by
  have hlog : n.log2 ≤ 52 := Nat.le_of_lt_succ ((Nat.log2_lt hn.ne').mpr h)
  have htoNat : n.toUInt64.toNat = n := by
    rw [UInt64.toNat_ofNat']
    omega
  have hunpack := unpack_pack_of_normal (normal_nearest hn) (by omega) (by omega)
  rw [← ofNat_eq_nearest hn h] at hunpack ⊢
  rw [← hunpack]
  change (Float.Model.pack (UnpackedFloat.ofNat Format.binary64 n.toUInt64.toNat)).unpack = _
  rw [htoNat, hunpack]

theorem unpack_one : (Float.ofBits 4607182418800017408).toModel.unpack =
    .finite .positive (2 ^ 52) (-52) (by decide) := by rfl

theorem mul_one_nearest (hn : 0 < n) (h : n.log2 ≤ 900) :
    UnpackedFloat.mul Format.binary64 (nearest n)
      (.finite .positive (2 ^ 52) (-52) (by decide)) = nearest n := by
  have hnormal := normal_nearest hn
  obtain ⟨-, -, hpos, hround⟩ := exists_round_eq .positive (m := n * 2 ^ 104) (e := -104) .exact
    (by rw [log2_nearest hn]; omega) (by rw [log2_nearest hn]; omega) rfl
  rw [← nearest] at hround
  rw [hround] at hnormal ⊢
  cases hnormal with
  | finite hlog hlo hhi =>
    rw [UnpackedFloat.mul]
    change roundWithAccuracy Format.binary64 .positive _ (_ - (52 : Nat)) .exact = _
    rw [round_mul_two_pow .positive hlog.ge (by omega), round_of_log2_eq .positive hpos hlog (by omega)]

theorem unpack_ofNat (hn : 0 < n) (h : n.log2 ≤ 900) :
    (Float.ofNat n).toModel.unpack = nearest n := by
  change (Float.ofScientific n false 0).toModel.unpack = _
  rw [Float.ofScientific]
  by_cases hsmall : n < 2 ^ 53
  · rw [dif_pos ⟨hsmall, by decide⟩]
    change (Float.Model.pack (UnpackedFloat.mul Format.binary64 n.toUInt64.toFloat.toModel.unpack
      (Float.ofBits 4607182418800017408).toModel.unpack)).unpack = _
    rw [unpack_toFloat hn hsmall, unpack_one, mul_one_nearest hn h]
    exact unpack_pack_of_normal (normal_nearest hn) (by omega) (by omega)
  · have hone : (10 ^ (0 : Int).toNat : Nat) = 1 := rfl
    have hbits : Format.binary64.mantissaBits = 53 := rfl
    have hexponents : (2 : Int) ^ Format.binary64.exponentBits = 2048 := rfl
    have hlog := log2_shiftLeft hn.ne' 53
    have hscientific : UnpackedFloat.ofScientific Format.binary64 n 0 = nearest n := by
      rw [UnpackedFloat.ofScientific, dif_neg hn.ne', if_neg (by decide), if_neg (by omega),
        if_pos le_rfl, UnpackedFloat.mul]
      simp only [hone, hbits, Nat.mul_one]
      rw [← nearest_eq (m := n <<< 53) (d := 51) (by omega) (by
        rw [Nat.shiftLeft_eq, Nat.mul_assoc, ← Nat.pow_add])]
      rfl
    rw [dif_neg fun h => hsmall h.1]
    change (Float.Model.pack (UnpackedFloat.ofScientific Format.binary64 n 0)).unpack = _
    rw [hscientific]
    exact unpack_pack_of_normal (normal_nearest hn) (by omega) (by omega)

theorem within_ofNat (hn : 0 < n) (h : n.log2 ≤ 900) : Within n.log2 (n.log2 + 2) (Float.ofNat n) := by
  rw [Within, unpack_ofNat hn h]
  exact normal_nearest hn

theorem within_ofInt {i : Int} (hi : i ≠ 0) (h : i.natAbs.log2 ≤ 900) :
    Within i.natAbs.log2 (i.natAbs.log2 + 2) (Float.ofInt i) := by
  cases i with
  | ofNat n => exact within_ofNat (Nat.pos_of_ne_zero fun h => hi (congrArg Int.ofNat h)) h
  | negSucc n =>
    exact (within_ofNat n.succ_pos h).neg (by omega) (by rw [Int.natAbs_negSucc] at h; omega)

end Magnitude

namespace Number

open Magnitude

theorem log2_lt_of_word {i : Int} (h : i.natAbs < Word.bound 8) : i.natAbs.log2 ≤ 63 := by
  by_cases hi : i.natAbs = 0
  · rw [hi]
    exact Nat.zero_le _
  · exact Nat.le_of_lt_succ ((Nat.log2_lt hi).mpr h)

theorem isFinite_ofInt {i : Int} (h : i.natAbs < 2 ^ 128) : (Float.ofInt i).isFinite := by
  by_cases hi : i = 0
  · subst hi
    decide +kernel
  · have hlog := (Nat.log2_lt (Int.natAbs_ne_zero.mpr hi)).mpr h
    exact (within_ofInt hi (by omega)).isFinite

variable {a b : Int}

theorem isFinite_mul (ha : a ≠ 0) (hb : b ≠ 0) (ha' : a.natAbs < Word.bound 8)
    (hb' : b.natAbs < Word.bound 8) : (Float.ofInt a * Float.ofInt b).isFinite := by
  have hloga := log2_lt_of_word ha'
  have hlogb := log2_lt_of_word hb'
  have hwithin := (within_ofInt ha (by omega)).mul (within_ofInt hb (by omega)) (by omega) (by omega)
  exact hwithin.isFinite

theorem isFinite_div (ha : a ≠ 0) (hb : b ≠ 0) (ha' : a.natAbs < Word.bound 8)
    (hb' : b.natAbs < Word.bound 8) : (Float.ofInt a / Float.ofInt b).isFinite := by
  have hloga := log2_lt_of_word ha'
  have hlogb := log2_lt_of_word hb'
  have hwithin := (within_ofInt ha (by omega)).div (within_ofInt hb (by omega)) (by omega) (by omega)
  exact hwithin.isFinite

end Number
end RpnMachine
