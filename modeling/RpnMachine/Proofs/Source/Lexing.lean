import RpnMachine.Proofs.Source.Grammar

/-! How characters are cut into words. A word ends where a blank or a delimiter follows it, whatever
comes after that. -/
namespace RpnMachine.Token

theorem scanFrom_eq (position : Nat) (cs : List Char) : scanFrom position cs =
    match cs.dropWhile Text.isBlank with
    | [] => ([], .finished (position + width (cs.takeWhile Text.isBlank)))
    | c :: rest =>
      match lexeme? c rest with
      | none => ([], .openText (position + width (cs.takeWhile Text.isBlank)))
      | some (l, r) =>
        let start := position + width (cs.takeWhile Text.isBlank)
        let found := scanFrom (start + width l) r
        (⟨String.ofList l, start, start + width l⟩ :: found.1, found.2) := by
  rw [scanFrom]
  split
  · next hc => simp only [hc]
  · next c rest hc =>
    simp only [hc]
    split
    · next h => simp only [h]
    · next l r h => simp only [h]

/-- The words that characters are cut into, wherever in a source they stand. -/
def Lexes (cs : List Char) (ws : List String) : Prop :=
  ∀ position, ∃ tokens stop, scanFrom position cs = (tokens, .finished stop) ∧ tokens.map text = ws

theorem Lexes.words? {source : String} {ws : List String} (h : Lexes source.toList ws) :
    Token.words? source = some ws := by
  obtain ⟨tokens, stop, hscan, rfl⟩ := h 0
  rw [Token.words?, scan, hscan]

theorem lexes_nil : Lexes [] [] := by
  intro position
  exact ⟨[], _, by rw [scanFrom_eq]; rfl, rfl⟩

theorem eq_nil_of_lexes_nil {ws : List String} (h : Lexes [] ws) : ws = [] := by
  obtain ⟨tokens, stop, hscan, rfl⟩ := h 0
  obtain ⟨tokens', stop', hscan', htokens'⟩ := lexes_nil 0
  rw [hscan] at hscan'
  cases hscan'
  exact htokens'

/-- Blanks before a word do not matter. -/
theorem Lexes.blank {c : Char} {cs : List Char} {ws : List String} (hc : Text.isBlank c)
    (h : Lexes cs ws) : Lexes (c :: cs) ws := by
  intro position
  obtain ⟨tokens, stop, hscan, htext⟩ := h (position + width [c])
  refine ⟨tokens, stop, ?_, htext⟩
  have hwidth : position + width ((c :: cs).takeWhile Text.isBlank) =
      position + width [c] + width (cs.takeWhile Text.isBlank) := by
    rw [List.takeWhile_cons_of_pos hc, ← List.singleton_append, width_append, Nat.add_assoc]
  rw [scanFrom_eq] at hscan ⊢
  rwa [List.dropWhile_cons_of_pos hc, hwidth]

theorem Lexes.blanks {bs cs : List Char} {ws : List String} (hbs : ∀ b ∈ bs, Text.isBlank b)
    (h : Lexes cs ws) : Lexes (bs ++ cs) ws := by
  induction bs with
  | nil => exact h
  | cons b bs ih => exact (ih fun b' hb' => hbs b' (by simp [hb'])).blank (hbs b (by simp))

theorem Lexes.lexeme {c : Char} {cs l r : List Char} {ws : List String}
    (hc : Text.isBlank c = false) (hl : lexeme? c cs = some (l, r)) (h : Lexes r ws) :
    Lexes (c :: cs) (String.ofList l :: ws) := by
  intro position
  have hblank : ¬Text.isBlank c := by simp [hc]
  obtain ⟨tokens, stop, hscan, rfl⟩ := h (position + width [] + width l)
  rw [scanFrom_eq, List.takeWhile_cons_of_neg hblank, List.dropWhile_cons_of_neg hblank]
  simp only [hl, hscan]
  exact ⟨_, stop, rfl, rfl⟩

theorem isBlank_of_isDelimiter {c : Char} (h : isDelimiter c) : Text.isBlank c = false := by
  simp only [isDelimiter, Bool.or_eq_true, beq_iff_eq] at h
  rcases h with (((rfl | rfl) | rfl) | rfl) | rfl
  all_goals decide

/-- A delimiter is a word on its own. -/
theorem Lexes.delimiter {c : Char} {cs : List Char} {ws : List String} (hc : isDelimiter c)
    (h : Lexes cs ws) : Lexes (c :: cs) (String.ofList [c] :: ws) :=
  Lexes.lexeme (isBlank_of_isDelimiter hc) (by rw [lexeme?, if_pos hc]) h

/-- There is no way to go on with a word. -/
def Boundary (cs : List Char) : Prop := ∀ c ∈ cs.head?, Text.isBlank c ∨ isDelimiter c

theorem boundary_nil : Boundary [] := by simp [Boundary]

theorem boundary_blank {c : Char} (cs : List Char) (h : Text.isBlank c) : Boundary (c :: cs) := by
  intro d hd
  cases hd
  exact .inl h

theorem boundary_delimiter {c : Char} (cs : List Char) (h : isDelimiter c) :
    Boundary (c :: cs) := by
  intro d hd
  cases hd
  exact .inr h

theorem Boundary.head?_ne {cs : List Char} (h : Boundary cs) {c : Char}
    (hblank : Text.isBlank c = false)
    (hdelimiter : isDelimiter c = false) : cs.head? ≠ some c := by
  intro hc
  have := h c hc
  simp [hblank, hdelimiter] at this

/-- The characters are cut into the words if there is no way to go on with the last one. -/
def Tokenizes (cs : List Char) (ws : List String) : Prop :=
  ∀ rest vs, Boundary rest → Lexes rest vs → Lexes (cs ++ rest) (ws ++ vs)

theorem Tokenizes.lexes {cs : List Char} {ws : List String} (h : Tokenizes cs ws) :
    Lexes cs ws := by
  have := h [] [] boundary_nil lexes_nil
  rwa [List.append_nil, List.append_nil] at this

theorem tokenizes_nil : Tokenizes [] [] := fun _ _ _ h => h

theorem tokenizes_delimiter {c : Char} (hc : isDelimiter c) : Tokenizes [c] [String.ofList [c]] :=
  fun _ _ _ h => h.delimiter hc

/-- After a delimiter anything can come. -/
theorem Tokenizes.delimiter {c : Char} {cs : List Char} {ws : List String} (hc : isDelimiter c)
    (h : Tokenizes cs ws) : Tokenizes (c :: cs) (String.ofList [c] :: ws) :=
  fun rest vs hrest hvs => (h rest vs hrest hvs).delimiter hc

/-- Before a delimiter too. -/
theorem Tokenizes.append_delimiter {c : Char} {cs : List Char} {ws : List String}
    (hc : isDelimiter c)
    (h : Tokenizes cs ws) : Tokenizes (cs ++ [c]) (ws ++ [String.ofList [c]]) := by
  intro rest vs hrest hvs
  rw [List.append_assoc, List.append_assoc]
  exact h _ _ (boundary_delimiter _ hc) (hvs.delimiter hc)

theorem Tokenizes.append {bs cs ds : List Char} {us ws : List String} (hne : bs ≠ [])
    (hbs : ∀ b ∈ bs, Text.isBlank b) (h : Tokenizes cs us) (h' : Tokenizes ds ws) :
    Tokenizes (cs ++ (bs ++ ds)) (us ++ ws) := by
  intro rest vs hrest hvs
  rw [List.append_assoc, List.append_assoc, List.append_assoc]
  apply h
  · obtain ⟨b, bs, rfl⟩ := List.exists_cons_of_ne_nil hne
    exact boundary_blank _ (hbs b (by simp))
  · exact (h' rest vs hrest hvs).blanks hbs

/-! Words of letters, digits and signs. -/

def isWord : List Char → Bool
  | [] => false
  | c :: cs => isWordChar c && !((c == '<' || c == '>') && cs.head? == some c) &&
    wordTail cs == (cs, [])

theorem wordTail_of_boundary {rest : List Char} (h : Boundary rest) :
    wordTail rest = ([], rest) := by
  fun_cases wordTail rest with
  | case1 => rfl
  | case2 => rfl
  | case3 c cs _ hc =>
    exfalso
    have hboundary := h c rfl
    simp only [isWordChar, Bool.not_eq_true', Bool.or_eq_false_iff] at hc
    simp [hc] at hboundary
  | case4 => rfl

theorem wordTail_cons {c : Char} {cs : List Char} (hc : isWordChar c)
    (hangle : ¬(c = '>' ∧ cs.head? = some '>')) :
    wordTail (c :: cs) = (c :: (wordTail cs).1, (wordTail cs).2) := by
  rw [wordTail, if_pos hc]
  rintro ds rfl rfl
  exact hangle ⟨rfl, rfl⟩

theorem wordTail_append {cs rest : List Char} (h : wordTail cs = (cs, [])) (hrest : Boundary rest) :
    wordTail (cs ++ rest) = (cs, rest) := by
  induction cs with
  | nil => exact wordTail_of_boundary hrest
  | cons c cs ih =>
    have hangle : ¬(c = '>' ∧ cs.head? = some '>') := by
      rintro ⟨rfl, hhead⟩
      obtain ⟨ds, rfl⟩ := List.head?_eq_some_iff.mp hhead
      simp [wordTail] at h
    by_cases hc : isWordChar c
    · rw [wordTail_cons hc hangle] at h
      injection h with h₁ h₂
      injection h₁ with _ h₁
      have hangle' : ¬(c = '>' ∧ (cs ++ rest).head? = some '>') := by
        rintro ⟨rfl, hhead⟩
        cases cs with
        | nil => exact hrest.head?_ne (by decide) (by decide) hhead
        | cons d ds => exact hangle ⟨rfl, hhead⟩
      rw [List.cons_append, wordTail_cons hc hangle', ih (Prod.ext h₁ h₂)]
    · rw [wordTail, if_neg hc] at h
      · cases h
      · rintro ds rfl rfl
        exact hangle ⟨rfl, rfl⟩

theorem tokenizes_word {word : String} (h : isWord word.toList) : Tokenizes word.toList [word] := by
  intro rest vs hrest hvs
  obtain ⟨c, cs, hword⟩ : ∃ c cs, word.toList = c :: cs := by
    cases hcs : word.toList with
    | nil =>
      rw [hcs] at h
      cases h
    | cons c cs => exact ⟨c, cs, rfl⟩
  rw [hword] at h ⊢
  simp only [isWord, Bool.and_eq_true, Bool.not_eq_true', beq_iff_eq, isWordChar,
    Bool.or_eq_false_iff] at h
  obtain ⟨⟨⟨⟨hblank, hdelimiter⟩, hquote⟩, hangle⟩, htail⟩ := h
  have hangle' : ¬((c = '<' ∨ c = '>') ∧ (cs ++ rest).head? = some c) := by
    rintro ⟨hc, hhead⟩
    cases cs with
    | nil => exact hrest.head?_ne hblank hdelimiter hhead
    | cons d ds =>
      simp only [List.cons_append, List.head?_cons, Option.some_inj] at hhead
      subst hhead
      rcases hc with rfl | rfl <;> simp at hangle
  have hlexeme : lexeme? c (cs ++ rest) = some (c :: cs, rest) := by
    have hquote : c ≠ '"' := by simpa using hquote
    simp only [lexeme?, hdelimiter, hquote, hangle', wordTail_append htail hrest, if_false,
      Bool.false_eq_true]
  have hlexes := Lexes.lexeme hblank hlexeme hvs
  rwa [← hword, String.ofList_toList] at hlexes

/-- Without angle brackets, no word ends early. -/
theorem isWord_of_forall {cs : List Char} (hne : cs ≠ [])
    (h : ∀ c ∈ cs, isWordChar c ∧ c ≠ '<' ∧ c ≠ '>') : isWord cs := by
  obtain ⟨c, cs, rfl⟩ := List.exists_cons_of_ne_nil hne
  have htail : ∀ ds : List Char, (∀ d ∈ ds, isWordChar d ∧ d ≠ '<' ∧ d ≠ '>') →
      wordTail ds = (ds, []) := by
    intro ds
    induction ds with
    | nil => exact fun _ => rfl
    | cons d ds ih =>
      intro hds
      obtain ⟨hd, -, hangle⟩ := hds d (by simp)
      rw [wordTail_cons hd fun h => hangle h.1, ih fun e he => hds e (by simp [he])]
  obtain ⟨hc, hless, hgreater⟩ := h c (by simp)
  simp [isWord, hc, hless, hgreater, htail cs fun d hd => h d (by simp [hd])]

/-! Texts. -/

theorem textTail?_doubled (cs : List Char) {rest : List Char} (hrest : rest.head? ≠ some '"') :
    textTail? (cs.flatMap (fun c => if c = '"' then [c, c] else [c]) ++ '"' :: rest) =
      some (cs.flatMap (fun c => if c = '"' then [c, c] else [c]) ++ ['"'], rest) := by
  induction cs with
  | nil =>
    rw [List.flatMap_nil, List.nil_append, textTail?]
    · rfl
    · rintro ds - hds
      exact hrest (by rw [hds]; rfl)
  | cons c cs ih =>
    by_cases hc : c = '"'
    · subst hc
      simp only [List.flatMap_cons, if_true, List.cons_append, List.nil_append, textTail?, ih,
        Option.map_some]
    · have hcons : ∀ ds, textTail? (c :: ds) = (textTail? ds).map fun r => (c :: r.1, r.2) := by
        intro ds
        rw [textTail?, if_neg hc]
        rintro es rfl -
        exact hc rfl
      simp only [List.flatMap_cons, hc, if_false, List.cons_append, List.nil_append, hcons, ih,
        Option.map_some]

theorem tokenizes_quoted (cs : List Char) : Tokenizes (quoted cs) [String.ofList (quoted cs)] := by
  intro rest vs hrest hvs
  have hhead : rest.head? ≠ some '"' := hrest.head?_ne (by decide) (by decide)
  have hword : quoted cs ++ rest =
      '"' :: (cs.flatMap (fun c => if c = '"' then [c, c] else [c]) ++ '"' :: rest) := by
    simp [quoted]
  rw [hword]
  apply Lexes.lexeme (by decide) _ hvs
  rw [lexeme?, if_neg (by decide), if_pos rfl, textTail?_doubled cs hhead]
  rfl

end RpnMachine.Token
