import Mathlib
import RpnMachine.Number.Literal
import RpnMachine.Number.Text

/-! How numbers are written. A word is taken for a number just if it is written that way, and there
is one way to take it apart. -/
namespace RpnMachine.Number.Literal

def Digits (cs : List Char) : Prop := ∀ c ∈ cs, c.isDigit

/-- How an exponent is written: an `e`, perhaps a sign, and digits. There need not be one. -/
inductive SpellsExponent : Option (Bool × List Char) → List Char → Prop
  | none : SpellsExponent none []
  | unsigned {e : Char} {ds : List Char} (he : e = 'e' ∨ e = 'E') (hne : ds ≠ []) (hds : Digits ds) :
    SpellsExponent (some (false, ds)) (e :: ds)
  | plus {e : Char} {ds : List Char} (he : e = 'e' ∨ e = 'E') (hne : ds ≠ []) (hds : Digits ds) :
    SpellsExponent (some (false, ds)) (e :: '+' :: ds)
  | minus {e : Char} {ds : List Char} (he : e = 'e' ∨ e = 'E') (hne : ds ≠ []) (hds : Digits ds) :
    SpellsExponent (some (true, ds)) (e :: '-' :: ds)

def sign (negative : Bool) : List Char := if negative then ['-'] else []

/-- How a number is written: perhaps a sign, and digits, with a point among them for a decimal. -/
inductive Spells : Literal → List Char → Prop
  | integer {negative : Bool} {whole : List Char} (hne : whole ≠ []) (hwhole : Digits whole) :
    Spells ⟨negative, whole, none, none⟩ (sign negative ++ whole)
  | decimal {negative : Bool} {whole fraction cs : List Char} {exponent : Option (Bool × List Char)}
    (hne : whole ≠ [] ∨ fraction ≠ []) (hwhole : Digits whole) (hfraction : Digits fraction)
    (hexponent : SpellsExponent exponent cs) :
    Spells ⟨negative, whole, some fraction, exponent⟩
      (sign negative ++ (whole ++ '.' :: (fraction ++ cs)))

variable {negative : Bool} {whole fraction cs word : List Char} {l : Literal}
  {exponent : Option (Bool × List Char)}

theorem ne_of_isDigit {c d : Char} (hc : c.isDigit) (hd : d.isDigit = false) : c ≠ d := by
  rintro rfl
  rw [hd] at hc
  cases hc

theorem Digits.ne {ds : List Char} (h : Digits ds) {c d : Char} (hc : c ∈ ds)
    (hd : d.isDigit = false) : c ≠ d := ne_of_isDigit (h c hc) hd

theorem digits_takeWhile (cs : List Char) : Digits (cs.takeWhile Char.isDigit) :=
  fun _ hc => List.mem_takeWhile_imp hc

/-- The digits at the start of a word end where something else starts. -/
theorem takeWhile_append_of_head (hwhole : Digits whole)
    (hcs : ∀ c ∈ cs.head?, c.isDigit = false) :
    (whole ++ cs).takeWhile Char.isDigit = whole ∧ (whole ++ cs).dropWhile Char.isDigit = cs := by
  rw [List.takeWhile_append_of_pos hwhole, List.dropWhile_append_of_pos hwhole]
  cases cs with
  | nil => simp
  | cons c cs =>
    have hc : c.isDigit = false := hcs c rfl
    simp [hc]

theorem exponent?_of_spells (h : SpellsExponent exponent cs) : exponent? cs = some exponent := by
  have hall : ∀ {ds : List Char}, Digits ds → ds.all Char.isDigit :=
    fun hds => List.all_eq_true.mpr hds
  cases h with
  | none => rfl
  | unsigned he hne hds =>
    obtain ⟨d, ds, rfl⟩ := List.exists_cons_of_ne_nil hne
    have hminus : d ≠ '-' := hds.ne (by simp) (by decide)
    have hplus : d ≠ '+' := hds.ne (by simp) (by decide)
    simp [exponent?, he, hminus, hplus, hall hds]
  | plus he hne hds => simp [exponent?, he, hne, hall hds]
  | minus he hne hds => simp [exponent?, he, hne, hall hds]

theorem spells_of_exponent? (h : exponent? cs = some exponent) : SpellsExponent exponent cs := by
  cases cs with
  | nil =>
    cases h
    exact .none
  | cons c cs =>
    by_cases hc : c = 'e' ∨ c = 'E'
    · simp only [exponent?, if_pos hc] at h
      split at h
      all_goals
        split_ifs at h with hds
        cases h
        have hdigits : Digits _ := List.all_eq_true.mp hds.2
        first
          | exact .minus hc hds.1 hdigits
          | exact .plus hc hds.1 hdigits
          | exact .unsigned hc hds.1 hdigits
    · simp [exponent?, hc] at h

def unsigned? (negative : Bool) (cs : List Char) : Option Literal := do
  let whole := cs.takeWhile Char.isDigit
  match cs.dropWhile Char.isDigit with
  | [] => if whole = [] then none else some ⟨negative, whole, none, none⟩
  | '.' :: cs =>
    let fraction := cs.takeWhile Char.isDigit
    if whole = [] ∧ fraction = [] then none
    else
      let exponent ← exponent? (cs.dropWhile Char.isDigit)
      some ⟨negative, whole, some fraction, exponent⟩
  | _ => none

theorem parse?_minus (cs : List Char) : parse? ('-' :: cs) = unsigned? true cs := rfl

theorem parse?_unsigned (h : cs.head? ≠ some '-') : parse? cs = unsigned? false cs := by
  rw [parse?]
  · rfl
  · intro cs' hcs
    simp [hcs] at h

theorem parse?_sign (h : cs.head? ≠ some '-') :
    parse? (sign negative ++ cs) = unsigned? negative cs := by
  cases negative with
  | true => exact parse?_minus cs
  | false => exact parse?_unsigned h

theorem unsigned?_integer (hne : whole ≠ []) (hwhole : Digits whole) :
    unsigned? negative whole = some ⟨negative, whole, none, none⟩ := by
  have htake : whole.takeWhile Char.isDigit = whole := List.takeWhile_eq_self_iff.mpr hwhole
  have hdrop : whole.dropWhile Char.isDigit = [] := List.dropWhile_eq_nil_iff.mpr hwhole
  simp only [unsigned?, htake, hdrop, hne, if_false]

theorem unsigned?_decimal (hne : whole ≠ [] ∨ fraction ≠ []) (hwhole : Digits whole)
    (hfraction : Digits fraction) (hexponent : SpellsExponent exponent cs) :
    unsigned? negative (whole ++ '.' :: (fraction ++ cs)) =
      some ⟨negative, whole, some fraction, exponent⟩ := by
  have hcs : ∀ c ∈ cs.head?, c.isDigit = false := by
    cases hexponent with
    | none => simp
    | unsigned he | plus he | minus he =>
      intro c hc
      cases hc
      rcases he with rfl | rfl <;> rfl
  have hpoint : ∀ c ∈ ('.' :: (fraction ++ cs)).head?, c.isDigit = false := by
    intro c hc
    cases hc
    rfl
  have hne' : ¬(whole = [] ∧ fraction = []) := by tauto
  simp only [unsigned?, takeWhile_append_of_head hwhole hpoint,
    takeWhile_append_of_head hfraction hcs, exponent?_of_spells hexponent, if_neg hne']
  rfl

theorem spells_of_unsigned? (h : unsigned? negative cs = some l) :
    Spells l (sign negative ++ cs) := by
  unfold unsigned? at h
  dsimp only at h
  have hsplit := List.takeWhile_append_dropWhile (p := Char.isDigit) (l := cs)
  split at h
  · next hnil =>
    split_ifs at h with hne
    cases h
    rw [hnil, List.append_nil] at hsplit
    have hspells : Spells _ (sign negative ++ cs.takeWhile Char.isDigit) :=
      .integer hne (digits_takeWhile cs)
    rwa [hsplit] at hspells ⊢
  · next cs' hpoint =>
    split_ifs at h with hne
    obtain ⟨exponent, hexponent, hl⟩ := Option.bind_eq_some_iff.mp h
    cases hl
    have hsplit' := List.takeWhile_append_dropWhile (p := Char.isDigit) (l := cs')
    rw [hpoint, ← hsplit'] at hsplit
    have hspells : Spells ⟨negative, cs.takeWhile Char.isDigit, some (cs'.takeWhile Char.isDigit),
        exponent⟩ _ :=
      .decimal (not_and_or.mp hne) (digits_takeWhile cs) (digits_takeWhile cs')
        (spells_of_exponent? hexponent)
    rwa [hsplit] at hspells
  · cases h

/-- A word is taken for a number just if it is written as one. -/
theorem parse?_eq_some_iff : parse? word = some l ↔ Spells l word := by
  constructor
  · intro h
    by_cases hminus : word.head? = some '-'
    · obtain ⟨cs, rfl⟩ := List.head?_eq_some_iff.mp hminus
      have hunsigned : unsigned? true cs = some l := h
      exact spells_of_unsigned? hunsigned
    · rw [parse?_unsigned hminus] at h
      exact spells_of_unsigned? h
  · intro h
    cases h with
    | @integer negative whole hne hwhole =>
      obtain ⟨c, cs, rfl⟩ := List.exists_cons_of_ne_nil hne
      have hminus : c ≠ '-' := hwhole.ne (by simp) (by decide)
      rw [parse?_sign (by simpa using hminus)]
      exact unsigned?_integer hne hwhole
    | @decimal negative whole fraction cs exponent hne hwhole hfraction hexponent =>
      have hminus : (whole ++ '.' :: (fraction ++ cs)).head? ≠ some '-' := by
        cases whole with
        | nil => simp
        | cons c cs => simpa using hwhole.ne (c := c) (by simp) (by decide)
      rw [parse?_sign hminus]
      exact unsigned?_decimal hne hwhole hfraction hexponent

/-! The characters of number words. -/

def isNumberChar (c : Char) : Bool :=
  c.isDigit || c == '-' || c == '+' || c == '.' || c == 'e' || c == 'E'

theorem Digits.isNumberChar {ds : List Char} (h : Digits ds) : ∀ c ∈ ds, isNumberChar c := by
  intro c hc
  simp [Literal.isNumberChar, h c hc]

theorem SpellsExponent.isNumberChar (h : SpellsExponent exponent cs) :
    ∀ c ∈ cs, isNumberChar c := by
  have he : ∀ {e : Char}, e = 'e' ∨ e = 'E' → Literal.isNumberChar e := by
    intro e he
    rcases he with rfl | rfl <;> rfl
  cases h with
  | none => simp
  | unsigned hmark hne hds => exact List.forall_mem_cons.mpr ⟨he hmark, hds.isNumberChar⟩
  | plus hmark hne hds =>
    exact List.forall_mem_cons.mpr ⟨he hmark, List.forall_mem_cons.mpr ⟨by decide, hds.isNumberChar⟩⟩
  | minus hmark hne hds =>
    exact List.forall_mem_cons.mpr ⟨he hmark, List.forall_mem_cons.mpr ⟨by decide, hds.isNumberChar⟩⟩

theorem isNumberChar_of_mem_sign : ∀ c ∈ sign negative, isNumberChar c := by
  cases negative with
  | true => simp [sign, isNumberChar]
  | false => simp [sign]

theorem Spells.isNumberChar (h : Spells l word) : ∀ c ∈ word, isNumberChar c := by
  cases h with
  | integer hne hwhole =>
    exact List.forall_mem_append.mpr ⟨isNumberChar_of_mem_sign, hwhole.isNumberChar⟩
  | decimal hne hwhole hfraction hexponent =>
    refine List.forall_mem_append.mpr ⟨isNumberChar_of_mem_sign, ?_⟩
    refine List.forall_mem_append.mpr ⟨hwhole.isNumberChar, ?_⟩
    refine List.forall_mem_cons.mpr ⟨by decide, ?_⟩
    exact List.forall_mem_append.mpr ⟨hfraction.isNumberChar, hexponent.isNumberChar⟩

/-- Number words start with a digit, a point, or a minus sign that is not all. -/
theorem Spells.head (h : Spells l word) :
    ∃ c cs, word = c :: cs ∧ (c.isDigit ∨ c = '.' ∨ (c = '-' ∧ cs ≠ [])) := by
  have hsigned : ∀ (negative : Bool) (c : Char) (cs : List Char), c.isDigit ∨ c = '.' →
      ∃ d ds, sign negative ++ c :: cs = d :: ds ∧ (d.isDigit ∨ d = '.' ∨ (d = '-' ∧ ds ≠ [])) := by
    intro negative c cs hc
    cases negative with
    | true => exact ⟨'-', c :: cs, rfl, .inr (.inr ⟨rfl, by simp⟩)⟩
    | false => exact ⟨c, cs, rfl, hc.imp_right .inl⟩
  cases h with
  | integer hne hwhole =>
    obtain ⟨c, cs, rfl⟩ := List.exists_cons_of_ne_nil hne
    exact hsigned _ c cs (.inl (hwhole c (by simp)))
  | @decimal negative whole fraction cs exponent hne hwhole hfraction hexponent =>
    cases whole with
    | nil => exact hsigned _ '.' _ (.inr rfl)
    | cons c whole => exact hsigned _ c _ (.inl (hwhole c (by simp)))

end RpnMachine.Number.Literal
