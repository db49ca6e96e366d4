import RpnMachine.Proofs.Number.Literal

/-! The texts of numbers are number words: an integer is written as its digits, and a decimal with a
point. -/
namespace RpnMachine.Number

open Literal

theorem digits_toDigits (n : Nat) : Digits (Nat.toDigits 10 n) :=
  fun _ hc => Nat.isDigit_of_mem_toDigits (by decide) (by decide) hc

theorem digits_replicate (n : Nat) : Digits (List.replicate n '0') := by
  intro c hc
  rw [List.eq_of_mem_replicate hc]
  rfl

theorem Digits.append {ds es : List Char} (hds : Digits ds) (hes : Digits es) :
    Digits (ds ++ es) := by
  intro c hc
  rcases List.mem_append.mp hc with hc | hc
  · exact hds c hc
  · exact hes c hc

theorem Digits.take {ds : List Char} (hds : Digits ds) (n : Nat) : Digits (ds.take n) :=
  fun c hc => hds c (List.mem_of_mem_take hc)

theorem Digits.drop {ds : List Char} (hds : Digits ds) (n : Nat) : Digits (ds.drop n) :=
  fun c hc => hds c (List.mem_of_mem_drop hc)

theorem value_toDigits (n : Nat) : value (Nat.toDigits 10 n) = n := by
  have h := Nat.ofDigitChars_ten_toDigits (n := n)
  rw [Nat.ofDigitChars_eq_foldl] at h
  exact h

theorem toList_toString (i : Int) :
    (toString i).toList = sign (decide (i < 0)) ++ Nat.toDigits 10 i.natAbs := by
  cases i with
  | ofNat n =>
    have hnonneg : ¬(Int.ofNat n < 0) := by simp
    simp only [hnonneg, decide_false, sign, Bool.false_eq_true, if_false, List.nil_append]
    change (Nat.repr n).toList = _
    rw [Nat.repr_eq_ofList_toDigits, String.toList_ofList]
    rfl
  | negSucc n =>
    have hneg : Int.negSucc n < 0 := Int.negSucc_lt_zero n
    simp only [hneg, decide_true, sign, if_true]
    change ("-" ++ Nat.repr (n + 1)).toList = _
    rw [String.toList_append, Nat.repr_eq_ofList_toDigits]
    simp

theorem spells_toString (i : Int) :
    Spells ⟨decide (i < 0), Nat.toDigits 10 i.natAbs, none, none⟩ (toString i).toList := by
  rw [toList_toString]
  exact .integer Nat.toDigits_ne_nil (digits_toDigits _)

theorem spellsExponent_toString (i : Int) : ∃ exponent,
    SpellsExponent exponent ('e' :: (toString i).toList) := by
  rw [toList_toString]
  cases decide (i < 0) with
  | true => exact ⟨_, .minus (.inl rfl) Nat.toDigits_ne_nil (digits_toDigits _)⟩
  | false => exact ⟨_, .unsigned (.inl rfl) Nat.toDigits_ne_nil (digits_toDigits _)⟩

/-- The words that are read as decimals. -/
def SpellsDecimal (word : List Char) : Prop := ∃ l : Literal, l.Spells word ∧ l.fraction ≠ none

theorem spellsDecimal_positional (negative : Bool) {ds : List Char} (hne : ds ≠ [])
    (hds : Digits ds)
    (n : Int) : SpellsDecimal (sign negative ++ (positional ds n).toList) := by
  rw [positional]
  split_ifs with hn
  · have hword : ("0." ++ String.ofList (List.replicate (-n).toNat '0' ++ ds)).toList =
        ['0'] ++ '.' :: ((List.replicate (-n).toNat '0' ++ ds) ++ []) := by
      simp
    rw [hword]
    exact ⟨_, .decimal (.inl (by simp)) (digits_replicate 1)
      (Digits.append (digits_replicate _) hds) .none, by simp⟩
  · have hword : (String.ofList (ds.take n.toNat ++ List.replicate (n.toNat - ds.length) '0' ++
          '.' :: ds.drop n.toNat)).toList =
        (ds.take n.toNat ++ List.replicate (n.toNat - ds.length) '0') ++
          '.' :: (ds.drop n.toNat ++ []) := by
      simp
    have hwhole : ds.take n.toNat ++ List.replicate (n.toNat - ds.length) '0' ≠ [] := by
      have hpos : 0 < n.toNat := by omega
      simp [List.take_eq_nil_iff, hne, hpos.ne']
    rw [hword]
    exact ⟨_, .decimal (.inl hwhole) (Digits.append (Digits.take hds _) (digits_replicate _))
      (Digits.drop hds _) .none, by simp⟩

theorem spellsDecimal_scientific (negative : Bool) {ds : List Char} (hne : ds ≠ [])
    (hds : Digits ds)
    (n : Int) : SpellsDecimal (sign negative ++ (scientific ds n).toList) := by
  obtain ⟨exponent, hexponent⟩ := spellsExponent_toString (n - 1)
  have hword : (scientific ds n).toList =
      ds.take 1 ++ '.' :: (ds.drop 1 ++ 'e' :: (toString (n - 1)).toList) := by
    simp [scientific]
  rw [hword]
  exact ⟨_, .decimal (.inl (by simp [hne])) (Digits.take hds _) (Digits.drop hds _) hexponent,
    by simp⟩

theorem isNaN_of_isFinite {x : Float} (h : x.isFinite) : x.isNaN = false := by
  unfold Float.isFinite Float.Model.isFinite at h
  unfold Float.isNaN Float.Model.isNaN
  cases hx : x.toModel.unpack with
  | notANumber =>
    rw [hx] at h
    cases h
  | _ => rfl

theorem isInf_of_isFinite {x : Float} (h : x.isFinite) : x.isInf = false := by
  unfold Float.isFinite Float.Model.isFinite at h
  unfold Float.isInf Float.Model.isInf
  cases hx : x.toModel.unpack with
  | infinity =>
    rw [hx] at h
    cases h
  | _ => rfl

theorem spellsDecimal_decimalText {bits : UInt64} (h : (Float.ofBits bits).isFinite) :
    SpellsDecimal (decimalText bits).toList := by
  obtain ⟨negative, hsign⟩ : ∃ negative,
      (if bits < 0x8000000000000000 then "" else "-").toList = sign negative := by
    by_cases hbits : bits < 0x8000000000000000
    · exact ⟨false, by rw [if_pos hbits]; rfl⟩
    · exact ⟨true, by rw [if_neg hbits]; rfl⟩
  simp only [decimalText, isNaN_of_isFinite h, isInf_of_isFinite h, Bool.false_eq_true, if_false]
  generalize (if bits < 0x8000000000000000 then "" else "-") = minus at hsign ⊢
  split_ifs with hzero hplain
  · have hzeros : Spells ⟨negative, ['0'], some [], none⟩ _ :=
      .decimal (.inl (by simp)) (digits_replicate 1) (digits_replicate 0) .none
    rw [String.toList_append, hsign]
    exact ⟨_, hzeros, by simp⟩
  · rw [String.toList_append, hsign]
    exact spellsDecimal_positional negative Nat.toDigits_ne_nil (digits_toDigits _) _
  · rw [String.toList_append, hsign]
    exact spellsDecimal_scientific negative Nat.toDigits_ne_nil (digits_toDigits _) _

end RpnMachine.Number
