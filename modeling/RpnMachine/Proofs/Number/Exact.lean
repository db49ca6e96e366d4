import RpnMachine.Proofs.Number.Finite
import RpnMachine.Proofs.Object.Tree

/-! Arithmetic on integers of 64 bits is exact: the result is an integer again wherever it has 64 bits,
and otherwise a decimal. Sums, differences, remainders, quotients, negations and absolute values stay
within 128 bits; a product that does not is noticed. -/
namespace RpnMachine

namespace Number

/-- The bytes of the integer object with this value. What is not negative, zero included, has the kind
that has no sign. -/
structure IsInteger (i : Int) (bytes : List UInt8) : Prop where
  bytes_eq : bytes = Encoding.mark (if i < 0 then .negative else .integer) ++ Varint.encode i.natAbs
  value? : Encoding.value? bytes = some (.ok (.integer i))

/-- The bytes of a decimal object, which is finite. -/
def IsDecimal (bytes : List UInt8) : Prop :=
  ∃ x : Float, x.isFinite ∧ bytes = Encoding.mark .decimal ++ Word.encode 8 x.toBits.toNat ∧
    Encoding.value? bytes = some (.ok (.decimal x.toBits))

def word (i : Int) : Tree := .integer (decide (i < 0)) i.natAbs.toUInt64

/-- The object for a result with this exact value. -/
structure Exact (i : Int) (bytes : List UInt8) : Prop where
  integer : i.natAbs < Word.bound 8 → IsInteger i bytes
  decimal : Word.bound 8 ≤ i.natAbs → IsDecimal bytes

/-- The object for a quotient. -/
structure Quotient (a b : Int) (bytes : List UInt8) : Prop where
  integer : ∀ i, a = b * i → IsInteger i bytes
  decimal : ¬b ∣ a → IsDecimal bytes

variable {i a b : Int}

/-! What fits. -/

theorem bound_eq : bound = 2 ^ 127 := by decide

theorem word_bound_eq : Word.bound 8 = 2 ^ 64 := by decide

theorem fits_iff : fits i ↔ -2 ^ 127 ≤ i ∧ i < 2 ^ 127 := by
  rw [fits, Bool.and_eq_true, decide_eq_true_iff, decide_eq_true_iff, bound_eq]
  norm_num

theorem fits_of_word (h : i.natAbs < Word.bound 8) : fits i := by
  rw [word_bound_eq] at h
  rw [fits_iff]
  omega

theorem checked_eq (h : i.natAbs < Word.bound 8) : checked i = .ok (integer i) := by
  rw [checked, if_pos (fits_of_word h)]

theorem fits_add (ha : a.natAbs < Word.bound 8) (hb : b.natAbs < Word.bound 8) : fits (a + b) := by
  rw [word_bound_eq] at ha hb
  rw [fits_iff]
  omega

theorem fits_sub (ha : a.natAbs < Word.bound 8) (hb : b.natAbs < Word.bound 8) : fits (a - b) := by
  rw [word_bound_eq] at ha hb
  rw [fits_iff]
  omega

theorem natAbs_tdiv_lt (ha : a.natAbs < Word.bound 8) (b : Int) :
    (a.tdiv b).natAbs < Word.bound 8 := by
  rw [Int.natAbs_tdiv]
  exact (Nat.div_le_self _ _).trans_lt ha

theorem natAbs_tmod_lt (ha : a.natAbs < Word.bound 8) (b : Int) :
    (a.tmod b).natAbs < Word.bound 8 := by
  rw [Int.natAbs_tmod]
  exact (Nat.mod_le _ _).trans_lt ha

/-! The objects of numbers. -/

theorem toNat_natAbs (h : i.natAbs < Word.bound 8) : i.natAbs.toUInt64.toNat = i.natAbs := by
  rw [UInt64.toNat_ofNat', Nat.mod_eq_of_lt (word_bound_eq ▸ h)]

theorem isInteger_word (h : i.natAbs < Word.bound 8) : IsInteger i (word i).encode := by
  have htoNat := toNat_natAbs h
  have hzero : i.natAbs.toUInt64 = 0 ↔ i.natAbs = 0 := by
    rw [← UInt64.toNat_inj, htoNat]
    rfl
  have hkind : (word i).kind = if i < 0 then .negative else .integer := by
    have hsign : (decide (i < 0) = true ∧ i.natAbs.toUInt64 ≠ 0) ↔ i < 0 := by
      rw [decide_eq_true_iff, Ne, hzero]
      omega
    simp only [Tree.kind, word, Tree.recipe, Recipe.kind, hsign]
  have hencode : (word i).encode = Encoding.mark (word i).kind ++ Varint.encode i.natAbs := by
    conv_rhs => rw [← htoNat]
    rw [Tree.encode_eq]
    rfl
  have hfits : (word i).Fits := by
    have hlength := Varint.length_encode_le_ten h
    rw [Tree.Fits, Tree.size, hencode, List.length_append, Encoding.length_mark]
    exact (Nat.add_le_add_left hlength 1).trans_lt (by decide)
  constructor
  · rw [hencode, hkind]
  · have hvalue : (word i).value = .integer i := by
      rw [word, Tree.value, htoNat]
      split_ifs with hneg
      · rw [decide_eq_true_iff] at hneg
        congr 1
        omega
      · rw [decide_eq_true_iff] at hneg
        congr 1
        omega
    rw [Tree.value?_encode hfits, hvalue]

theorem isDecimal_decimal {x : Float} (h : x.isFinite) : IsDecimal (Tree.decimal x.toBits).encode := by
  have hencode : (Tree.decimal x.toBits).encode =
      Encoding.mark .decimal ++ Word.encode 8 x.toBits.toNat := by
    rw [Tree.encode_eq]
    rfl
  have hfits : (Tree.decimal x.toBits).Fits := by
    rw [Tree.Fits, Tree.size, hencode, List.length_append, Encoding.length_mark, Word.length_encode]
    decide
  exact ⟨x, h, hencode, Tree.value?_encode hfits⟩

theorem recipe_decimal {x : Float} (h : x.isFinite) :
    (decimal x).recipe = .ok (Tree.decimal x.toBits).recipe := by
  rw [recipe, if_pos h]
  rfl

theorem recipe_integer (h : i.natAbs < Word.bound 8) :
    (integer i).recipe = .ok (word i).recipe := by
  rw [recipe, Recipe.ofInt?, if_pos h]
  rfl

theorem exists_tree_integer (h : fits i) :
    ∃ t : Tree, (integer i).recipe = .ok t.recipe ∧ Exact i t.encode := by
  by_cases hword : i.natAbs < Word.bound 8
  · exact ⟨word i, recipe_integer hword, fun _ => isInteger_word hword,
      fun hle => absurd hword (Nat.not_lt.mpr hle)⟩
  · have hfinite : (Float.ofInt i).isFinite := isFinite_ofInt (by rw [fits_iff] at h; omega)
    refine ⟨.decimal (Float.ofInt i).toBits, ?_, fun h => absurd h hword,
      fun _ => isDecimal_decimal hfinite⟩
    rw [recipe, Recipe.ofInt?, if_neg hword]
    rfl

/-! Results. -/

theorem exists_tree_exactly {op : Int → Int → Int} {approx : Float → Float → Float}
    (hfinite : ¬fits (op a b) → (approx (Float.ofInt a) (Float.ofInt b)).isFinite) :
    ∃ t : Tree, (exactly op approx (integer a) (integer b)).recipe = .ok t.recipe ∧
      Exact (op a b) t.encode := by
  by_cases hfits : fits (op a b)
  · rw [exactly, if_pos hfits]
    exact exists_tree_integer hfits
  · have hword : ¬(op a b).natAbs < Word.bound 8 := fun h => hfits (fits_of_word h)
    rw [exactly, if_neg hfits]
    exact ⟨_, recipe_decimal (hfinite hfits), fun h => absurd h hword,
      fun _ => isDecimal_decimal (hfinite hfits)⟩

theorem exists_tree_add (ha : a.natAbs < Word.bound 8) (hb : b.natAbs < Word.bound 8) :
    ∃ t : Tree, ((integer a).add (integer b)).recipe = .ok t.recipe ∧ Exact (a + b) t.encode :=
  exists_tree_exactly fun hlarge => absurd (fits_add ha hb) hlarge

theorem exists_tree_sub (ha : a.natAbs < Word.bound 8) (hb : b.natAbs < Word.bound 8) :
    ∃ t : Tree, ((integer a).sub (integer b)).recipe = .ok t.recipe ∧ Exact (a - b) t.encode :=
  exists_tree_exactly fun hlarge => absurd (fits_sub ha hb) hlarge

theorem exists_tree_mul (ha : a.natAbs < Word.bound 8) (hb : b.natAbs < Word.bound 8) :
    ∃ t : Tree, ((integer a).mul (integer b)).recipe = .ok t.recipe ∧ Exact (a * b) t.encode := by
  apply exists_tree_exactly
  intro hlarge
  refine isFinite_mul ?_ ?_ ha hb
  · rintro rfl
    exact hlarge (by rw [Int.zero_mul]; decide)
  · rintro rfl
    exact hlarge (by rw [Int.mul_zero]; decide)

theorem exists_tree_div (ha : a.natAbs < Word.bound 8) (hb : b.natAbs < Word.bound 8) (hzero : b ≠ 0) :
    ∃ (z : Number) (t : Tree), (integer a).div (integer b) = .ok z ∧ z.recipe = .ok t.recipe ∧
      Quotient a b t.encode := by
  have hdivisor : ¬(integer b).isZero = true := by simpa [isZero] using hzero
  rw [div, if_neg hdivisor]
  by_cases hdvd : b ∣ a
  · have hword := natAbs_tdiv_lt ha b
    obtain ⟨t, ht, hexact⟩ := exists_tree_integer (fits_of_word hword)
    refine ⟨integer (a.tdiv b), t, ?_, ht, ?_, fun h => absurd hdvd h⟩
    · simp only [if_pos (Int.tmod_eq_zero_of_dvd hdvd), checked_eq hword]
    · rintro i rfl
      rw [Int.mul_tdiv_cancel_left _ hzero] at hexact hword
      exact hexact.integer hword
  · have hmod : a.tmod b ≠ 0 := fun h => hdvd (Int.dvd_of_tmod_eq_zero h)
    have hfinite : (Float.ofInt a / Float.ofInt b).isFinite := by
      refine isFinite_div ?_ hzero ha hb
      rintro rfl
      exact hdvd (dvd_zero b)
    refine ⟨_, _, if_neg hmod, recipe_decimal hfinite, ?_, fun _ => isDecimal_decimal hfinite⟩
    rintro i rfl
    exact absurd (Int.dvd_mul_right b i) hdvd

theorem div_zero (x : Number) : x.div (integer 0) = .error (.error .divideByZero) := rfl

end Number
end RpnMachine
