import RpnMachine.Proofs.Source.Continuation

/-! Tokens by regular expressions and byte positions. Patterns are matched at the start of what is left,
and of the ways to match the first one counts that a backtracking matcher finds. A reader that goes from
one position to the next with four patterns finds the tokens of `Token.scan`; it is never left without a
pattern that matches, and each of its positions is one between two characters. -/
namespace RpnMachine

inductive Pattern where
  | one (test : Char → Bool)
  | seq (p q : Pattern)
  | alt (p q : Pattern)
  /-- As often as possible. -/
  | star (p : Pattern)

namespace Pattern

/-- What can be left after up to `n` repetitions, more of them before fewer. Each takes something. -/
def repeated (rests : List Char → List (List Char)) : Nat → List Char → List (List Char)
  | 0, cs => [cs]
  | n + 1, cs => ((rests cs).filter (·.length < cs.length)).flatMap (repeated rests n) ++ [cs]

/-- What is left after each way to match the start of the characters, in the order of preference. -/
def rests : Pattern → List Char → List (List Char)
  | one _, [] => []
  | one test, c :: cs => if test c then [cs] else []
  | seq p q, cs => (p.rests cs).flatMap q.rests
  | alt p q, cs => p.rests cs ++ q.rests cs
  | star p, cs => repeated p.rests cs.length cs

/-- The length in bytes of the match that is preferred. -/
def find? (p : Pattern) (cs : List Char) : Option Nat :=
  (p.rests cs).head?.map fun rest => Token.width cs - Token.width rest

def char (c : Char) : Pattern := one (· == c)

def plus (p : Pattern) : Pattern := seq p (star p)

def space : Pattern := plus (one Text.isBlank)

def delimiter : Pattern :=
  alt (seq (char '<') (char '<')) <| alt (seq (char '>') (char '>')) (one Token.isDelimiter)

/-- An opening quote, and then doubled quotes or anything but a quote. -/
def text : Pattern := seq (char '"') <| star <| alt (seq (char '"') (char '"')) (one (· != '"'))

def word : Pattern := plus (one Token.isWordChar)

section Repetition

variable {f : List Char → List (List Char)} {n : Nat} {cs rest : List Char} {test : Char → Bool}

theorem head?_repeated_of_nil (h : f cs = []) : (repeated f n cs).head? = some cs := by
  cases n with
  | zero => rfl
  | succ n => simp [repeated, h]

theorem repeated_ne_nil (f : List Char → List (List Char)) (n : Nat) (cs : List Char) :
    repeated f n cs ≠ [] := by
  cases n <;> simp [repeated]

/-- Where there is one way to go on, it is taken. -/
theorem head?_repeated_of_singleton (h : f cs = [rest]) (hlt : rest.length < cs.length) :
    (repeated f (n + 1) cs).head? = (repeated f n rest).head? := by
  rw [repeated, h, List.filter_cons_of_pos (by simpa using hlt), List.filter_nil,
    List.flatMap_singleton, List.head?_append_of_ne_nil _ (repeated_ne_nil f n rest)]

theorem head?_repeated_one (hn : cs.length ≤ n) :
    (repeated (one test).rests n cs).head? = some (cs.dropWhile test) := by
  induction cs generalizing n with
  | nil => exact head?_repeated_of_nil rfl
  | cons c cs ih =>
    by_cases hc : test c
    · obtain ⟨n, rfl⟩ : ∃ k, n = k + 1 := ⟨n - 1, by simp only [List.length_cons] at hn; omega⟩
      rw [head?_repeated_of_singleton (if_pos hc) (by simp), List.dropWhile_cons_of_pos hc,
        ih (by simpa using hn)]
    · rw [head?_repeated_of_nil (if_neg hc), List.dropWhile_cons_of_neg hc]

theorem head?_rests_plus_one (test : Char → Bool) (c : Char) (cs : List Char) :
    ((plus (one test)).rests (c :: cs)).head? =
      if test c then some ((c :: cs).dropWhile test) else none := by
  by_cases hc : test c
  · have hrests : (plus (one test)).rests (c :: cs) = (star (one test)).rests cs := by
      simp [plus, rests, hc]
    rw [hrests, if_pos hc, List.dropWhile_cons_of_pos hc, rests, head?_repeated_one le_rfl]
  · simp [plus, rests, hc]

end Repetition

theorem find?_append {p : Pattern} {l r : List Char} (h : (p.rests (l ++ r)).head? = some r) :
    p.find? (l ++ r) = some (Token.width l) := by
  rw [find?, h, Option.map_some, Token.width_append, Nat.add_sub_cancel]

theorem find?_eq_none {p : Pattern} {cs : List Char} (h : p.rests cs = []) : p.find? cs = none := by
  rw [find?, h]
  rfl

/-! The four patterns. -/

variable {c : Char} {cs : List Char}

theorem find?_plus_one {test : Char → Bool} (hc : test c) :
    (plus (one test)).find? (c :: cs) = some (Token.width ((c :: cs).takeWhile test)) := by
  have happend := (List.takeWhile_append_dropWhile (p := test) (l := c :: cs)).symm
  conv_lhs => rw [happend]
  apply find?_append
  rw [← happend]
  exact (head?_rests_plus_one test c cs).trans (if_pos hc)

theorem getD_find?_space (cs : List Char) :
    (space.find? cs).getD 0 = Token.width (cs.takeWhile Text.isBlank) := by
  cases cs with
  | nil => rfl
  | cons c cs =>
    by_cases hc : Text.isBlank c
    · rw [space, find?_plus_one hc]
      rfl
    · have hrests : space.rests (c :: cs) = [] := by simp [space, plus, rests, hc]
      rw [find?_eq_none hrests, List.takeWhile_cons_of_neg hc]
      rfl

theorem rests_delimiter (hc : Token.isDelimiter c) : delimiter.rests (c :: cs) = [cs] := by
  have hless : c ≠ '<' := by
    rintro rfl
    cases hc
  have hgreater : c ≠ '>' := by
    rintro rfl
    cases hc
  simp [delimiter, rests, char, hc, hless, hgreater]

theorem rests_delimiter_angles (hc : c = '<' ∨ c = '>') : delimiter.rests (c :: c :: cs) = [cs] := by
  have hdelimiter : Token.isDelimiter c = false := by rcases hc with rfl | rfl <;> rfl
  rcases hc with rfl | rfl <;> simp [delimiter, rests, char, hdelimiter]

theorem rests_delimiter_eq_nil (hc : Token.isDelimiter c = false)
    (hangles : ¬((c = '<' ∨ c = '>') ∧ cs.head? = some c)) : delimiter.rests (c :: cs) = [] := by
  have hpair : ∀ d, (d = '<' ∨ d = '>') → (seq (char d) (char d)).rests (c :: cs) = [] := by
    intro d hd
    by_cases hcd : c = d
    · subst hcd
      cases cs with
      | nil => simp [rests, char]
      | cons e es =>
        have he : e ≠ c := fun he => hangles ⟨hd, by rw [he]; rfl⟩
        simp [rests, char, he]
    · simp [rests, char, hcd]
  rw [delimiter, rests, hpair _ (.inl rfl), rests, hpair _ (.inr rfl), rests, hc]
  rfl

/-- What the match of a text goes on with. -/
theorem head?_repeated_text {n : Nat} (hn : cs.length ≤ n) :
    (repeated (alt (seq (char '"') (char '"')) (one (· != '"'))).rests n cs).head? =
      some (match Token.textTail? cs with
        | some (_, r) => '"' :: r
        | none => []) := by
  fun_induction Token.textTail? cs generalizing n with
  | case1 => exact head?_repeated_of_nil rfl
  | case2 cs ih =>
    simp only [List.length_cons] at hn
    obtain ⟨n, rfl⟩ : ∃ k, n = k + 1 := ⟨n - 1, by omega⟩
    have hrests :
        (alt (seq (char '"') (char '"')) (one (· != '"'))).rests ('"' :: '"' :: cs) = [cs] := by
      simp [rests, char]
    rw [head?_repeated_of_singleton hrests (by simp only [List.length_cons]; omega), ih (by omega)]
    cases Token.textTail? cs <;> rfl
  | case3 cs hcs =>
    apply head?_repeated_of_nil
    cases cs with
    | nil => rfl
    | cons d ds =>
      have hd : d ≠ '"' := by
        rintro rfl
        exact hcs ds rfl rfl
      simp [rests, char, hd]
  | case4 c cs _ hc ih =>
    simp only [List.length_cons] at hn
    obtain ⟨n, rfl⟩ : ∃ k, n = k + 1 := ⟨n - 1, by omega⟩
    have hrests : (alt (seq (char '"') (char '"')) (one (· != '"'))).rests (c :: cs) = [cs] := by
      simp [rests, char, hc]
    rw [head?_repeated_of_singleton hrests (by simp), ih (by omega)]
    cases Token.textTail? cs <;> rfl

/-- After the opening quote the match goes on up to the closing one, or to the end. -/
theorem head?_rests_text (cs : List Char) :
    (text.rests ('"' :: cs)).head? = some (match Token.textTail? cs with
      | some (_, r) => '"' :: r
      | none => []) := by
  have hrests : text.rests ('"' :: cs) =
      (star (alt (seq (char '"') (char '"')) (one (· != '"')))).rests cs := by
    simp [text, rests, char]
  rw [hrests, rests, head?_repeated_text le_rfl]

theorem rests_text_eq_nil (hc : c ≠ '"') : text.rests (c :: cs) = [] := by
  simp [text, rests, char, hc]

end Pattern

end RpnMachine
