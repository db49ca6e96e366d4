import RpnMachine.Proofs.Source.Pattern

/-! A reader that goes through the bytes of a source: it skips blanks by one pattern, looks for the next
token by the others, and goes on where that token stops. It finds the tokens of `Token.scan`, since
each of its positions is one between two characters and a pattern matches at each. -/
namespace RpnMachine.Token

/-- Characters before and after a byte position: none if it is inside a character or past the end. -/
def cut? : Nat → List Char → Option (List Char × List Char)
  | 0, cs => some ([], cs)
  | _ + 1, [] => none
  | n + 1, c :: cs =>
    if c.utf8Size ≤ n + 1 then (cut? (n + 1 - c.utf8Size) cs).map fun r => (c :: r.1, r.2) else none

/-- The bytes before the first `>>`. -/
def closing? : List Char → Option Nat
  | [] => none
  | c :: cs => if c = '>' ∧ cs.head? = some '>' then some 0 else (closing? cs).map (c.utf8Size + ·)

/-- What a reader must not come to. -/
inductive Lapse where
  /-- A position inside a character or past the end. -/
  | outside
  /-- Characters that no pattern matches. -/
  | unmatched
  /-- More tokens than it was to look for. -/
  | unfinished

def take (input : List Char) (position n : Nat) : Except Lapse (Ending ⊕ Token) :=
  match cut? n input with
  | none => .error .outside
  | some (l, _) => .ok (.inr ⟨String.ofList l, position, position + n⟩)

def next (source : List Char) (position : Nat) : Except Lapse (Ending ⊕ Token) :=
  match cut? position source with
  | none => .error .outside
  | some (_, []) => .ok (.inl (.finished position))
  | some (_, input) =>
    match Pattern.delimiter.find? input with
    | some n => take input position n
    | none =>
      match Pattern.text.find? input with
      | some n =>
        match cut? n input with
        | none => .error .outside
        | some (_, rest) =>
          if rest.head? = some '"' then take input position (n + 1)
          else .ok (.inl (.openText position))
      | none =>
        match Pattern.word.find? input with
        | none => .error .unmatched
        | some n =>
          match cut? n input with
          | none => .error .outside
          | some (found, _) =>
            match closing? found with
            | none | some 0 => take input position n
            | some i => take input position i

def skip (source : List Char) (position : Nat) : Except Lapse Nat :=
  match cut? position source with
  | none => .error .outside
  | some (_, input) => .ok (position + (Pattern.space.find? input).getD 0)

def steps (source : List Char) : Nat → Nat → Except Lapse (List Token × Ending)
  | 0, _ => .error .unfinished
  | fuel + 1, position => do
    match ← next source (← skip source position) with
    | .inl ending => return ([], ending)
    | .inr t =>
      let (ts, ending) ← steps source fuel t.stop
      return (t :: ts, ending)

theorem width_nil : width [] = 0 := by
  simp [width]

theorem width_cons (c : Char) (cs : List Char) : width (c :: cs) = c.utf8Size + width cs := by
  rw [← List.singleton_append, width_append]
  simp [width]

theorem cut?_append (xs ys : List Char) : cut? (width xs) (xs ++ ys) = some (xs, ys) := by
  induction xs with
  | nil => rw [width_nil, List.nil_append, cut?]
  | cons x xs ih =>
    have hpos := x.utf8Size_pos
    obtain ⟨n, hn⟩ : ∃ n, x.utf8Size + width xs = n + 1 := ⟨x.utf8Size + width xs - 1, by omega⟩
    rw [width_cons, hn, List.cons_append, cut?, if_pos (by omega), ← hn, Nat.add_sub_cancel_left, ih]
    rfl

theorem take_append (l r : List Char) (position : Nat) :
    take (l ++ r) position (width l) = .ok (.inr ⟨String.ofList l, position, position + width l⟩) := by
  rw [take, cut?_append]

theorem head?_of_takeWhile {test : Char → Bool} {cs : List Char} {c : Char}
    (h : (cs.takeWhile test).head? = some c) : cs.head? = some c := by
  rw [List.head?_takeWhile] at h
  exact (Option.filter_eq_some_iff.mp h).1

/-- A word goes up to the first `>>` in the run of its characters. -/
theorem width_wordTail (cs : List Char) : width (wordTail cs).1 =
    (closing? (cs.takeWhile isWordChar)).getD (width (cs.takeWhile isWordChar)) := by
  fun_induction wordTail cs with
  | case1 => rfl
  | case2 cs =>
    have hchar : isWordChar '>' := by decide
    rw [List.takeWhile_cons_of_pos hchar, List.takeWhile_cons_of_pos hchar, closing?, if_pos ⟨rfl, rfl⟩]
    exact width_nil
  | case3 c cs hangle hc r ih =>
    rw [List.takeWhile_cons_of_pos hc, closing?, if_neg, width_cons, width_cons, ih]
    · cases closing? (cs.takeWhile isWordChar) <;> rfl
    · rintro ⟨rfl, hhead⟩
      obtain ⟨ds, rfl⟩ := List.head?_eq_some_iff.mp (head?_of_takeWhile hhead)
      exact hangle ds rfl rfl
  | case4 c cs hangle hc => rw [List.takeWhile_cons_of_neg hc, closing?]; rfl

theorem exists_concat_of_textTail? {cs l r : List Char} (h : textTail? cs = some (l, r)) :
    ∃ inner, l = inner ++ ['"'] := by
  obtain ⟨s, hs⟩ := exists_of_textTail? h
  simp only [quoted, List.cons_append, List.cons.injEq, true_and] at hs
  exact ⟨_, hs⟩

section Patterns

variable {position : Nat} {c : Char} {cs l r : List Char}

/-- What is read with the characters from a position on at hand. -/
theorem next_eq (before : List Char) (hne : cs ≠ []) : next (before ++ cs) (width before) =
    match Pattern.delimiter.find? cs with
    | some n => take cs (width before) n
    | none =>
      match Pattern.text.find? cs with
      | some n =>
        match cut? n cs with
        | none => .error .outside
        | some (_, rest) =>
          if rest.head? = some '"' then take cs (width before) (n + 1)
          else .ok (.inl (.openText (width before)))
      | none =>
        match Pattern.word.find? cs with
        | none => .error .unmatched
        | some n =>
          match cut? n cs with
          | none => .error .outside
          | some (found, _) =>
            match closing? found with
            | none | some 0 => take cs (width before) n
            | some i => take cs (width before) i := by
  obtain ⟨c, cs, rfl⟩ := List.exists_cons_of_ne_nil hne
  rw [next, cut?_append]

theorem find?_delimiter_eq_none (hdelimiter : isDelimiter c = false)
    (hangles : ¬((c = '<' ∨ c = '>') ∧ cs.head? = some c)) : Pattern.delimiter.find? (c :: cs) = none :=
  Pattern.find?_eq_none (Pattern.rests_delimiter_eq_nil hdelimiter hangles)

theorem next_of_delimiter (before : List Char) (h : Pattern.delimiter.rests (l ++ r) = [r])
    (hne : l ≠ []) : next (before ++ (l ++ r)) (width before) =
      .ok (.inr ⟨String.ofList l, width before, width before + width l⟩) := by
  rw [next_eq _ (by simp [hne]), Pattern.find?_append (congrArg List.head? h)]
  exact take_append l r _

theorem next_of_text (before : List Char) : next (before ++ '"' :: cs) (width before) =
    .ok (match textTail? cs with
      | none => .inl (.openText (width before))
      | some (l, _) => .inr ⟨String.ofList ('"' :: l), width before, width before + width ('"' :: l)⟩) := by
  have hhead := Pattern.head?_rests_text cs
  rw [next_eq _ (by simp), find?_delimiter_eq_none (by decide) (by simp)]
  cases h : textTail? cs with
  | none =>
    rw [h] at hhead
    have hfind : Pattern.text.find? ('"' :: cs) = some (width ('"' :: cs)) := by
      have := Pattern.find?_append (p := .text) (l := '"' :: cs) (r := []) (by rwa [List.append_nil])
      rwa [List.append_nil] at this
    have hcut := cut?_append ('"' :: cs) []
    rw [List.append_nil] at hcut
    simp only [hfind, hcut]
    rfl
  | some found =>
    obtain ⟨l, r⟩ := found
    obtain ⟨inner, rfl⟩ := exists_concat_of_textTail? h
    have happend : '"' :: cs = ('"' :: inner) ++ '"' :: r := by
      rw [← append_textTail? h]
      simp
    rw [h, happend] at hhead
    rw [happend]
    simp only [Pattern.find?_append hhead, cut?_append, List.head?_cons, if_true]
    have hwidth : width ('"' :: inner) + 1 = width ('"' :: (inner ++ ['"'])) := by
      rw [← List.cons_append, width_append]
      rfl
    have htake := take_append ('"' :: (inner ++ ['"'])) r (width before)
    rw [hwidth]
    simpa using htake

theorem next_of_word (before : List Char) (hc : isWordChar c)
    (hangles : ¬((c = '<' ∨ c = '>') ∧ cs.head? = some c)) : next (before ++ c :: cs) (width before) =
    .ok (.inr ⟨String.ofList (c :: (wordTail cs).1), width before,
      width before + width (c :: (wordTail cs).1)⟩) := by
  have hdelimiter : isDelimiter c = false := by
    simp only [isWordChar, Bool.not_eq_true', Bool.or_eq_false_iff] at hc
    exact hc.1.2
  have hquote : c ≠ '"' := by
    rintro rfl
    cases hc
  -- The run of the characters of words, and the word, which may end before it.
  obtain ⟨run, hrun⟩ : ∃ run, run = cs.takeWhile isWordChar := ⟨_, rfl⟩
  have hfind : Pattern.word.find? (c :: cs) = some (width (c :: run)) := by
    rw [Pattern.word, Pattern.find?_plus_one hc, List.takeWhile_cons_of_pos hc, hrun]
  have hcut : cut? (width (c :: run)) (c :: cs) = some (c :: run, cs.dropWhile isWordChar) := by
    have happend : c :: cs = (c :: run) ++ cs.dropWhile isWordChar := by
      rw [hrun, List.cons_append, List.takeWhile_append_dropWhile]
    conv_lhs => rw [happend]
    exact cut?_append _ _
  have hclosing : closing? (c :: run) = (closing? run).map (c.utf8Size + ·) := by
    rw [closing?, if_neg]
    rintro ⟨rfl, hhead⟩
    refine hangles ⟨.inr rfl, ?_⟩
    rw [hrun] at hhead
    exact head?_of_takeWhile hhead
  have htake : take (c :: cs) (width before) (width (c :: (wordTail cs).1)) =
      .ok (.inr ⟨String.ofList (c :: (wordTail cs).1), width before,
        width before + width (c :: (wordTail cs).1)⟩) := by
    have happend : c :: cs = (c :: (wordTail cs).1) ++ (wordTail cs).2 := by
      rw [List.cons_append, append_wordTail]
    conv_lhs => rw [happend]
    exact take_append _ _ _
  have hwidth := width_wordTail cs
  rw [← hrun] at hwidth
  rw [next_eq _ (by simp), find?_delimiter_eq_none hdelimiter hangles,
    Pattern.find?_eq_none (Pattern.rests_text_eq_nil hquote), ← htake]
  simp only [hfind, hcut, hclosing]
  cases h : closing? run with
  | none =>
    rw [h, Option.getD_none] at hwidth
    rw [width_cons, width_cons, hwidth]
    rfl
  | some i =>
    rw [h, Option.getD_some] at hwidth
    have hpos := c.utf8Size_pos
    obtain ⟨n, hn⟩ : ∃ n, c.utf8Size + i = n + 1 := ⟨c.utf8Size + i - 1, by omega⟩
    rw [width_cons c (wordTail cs).1, hwidth, Option.map_some, hn]
    rfl

end Patterns

theorem next_append (before : List Char) {c : Char} (cs : List Char) (hblank : Text.isBlank c = false) :
    next (before ++ c :: cs) (width before) = .ok (match lexeme? c cs with
      | none => .inl (.openText (width before))
      | some (l, _) => .inr ⟨String.ofList l, width before, width before + width l⟩) := by
  unfold lexeme?
  split_ifs with hdelimiter hquote hangles
  · exact next_of_delimiter (l := [c]) before (Pattern.rests_delimiter hdelimiter) (by simp)
  · subst hquote
    rw [next_of_text]
    cases textTail? cs <;> rfl
  · obtain ⟨ds, rfl⟩ := List.head?_eq_some_iff.mp hangles.2
    exact next_of_delimiter (l := [c, c]) before (Pattern.rests_delimiter_angles hangles.1) (by simp)
  · exact next_of_word before (by simp [isWordChar, hblank, hdelimiter, hquote]) hangles

theorem skip_append (before cs : List Char) : skip (before ++ cs) (width before) =
    .ok (width (before ++ cs.takeWhile Text.isBlank)) := by
  rw [skip, cut?_append, width_append]
  dsimp only
  rw [Pattern.getD_find?_space]

/-- What follows the blanks is not blank. -/
theorem isBlank_of_dropWhile {cs rest : List Char} {c : Char}
    (h : cs.dropWhile Text.isBlank = c :: rest) : Text.isBlank c = false := by
  have := List.head?_dropWhile_not Text.isBlank cs
  rw [h] at this
  simpa using this

/-- The induction is on the fuel: each token has a character at least. -/
theorem steps_append (before : List Char) {cs : List Char} {fuel : Nat} (h : cs.length < fuel) :
    steps (before ++ cs) fuel (width before) = .ok (scanFrom (width before) cs) := by
  induction fuel generalizing before cs with
  | zero => omega
  | succ fuel ih =>
    obtain ⟨blanks, hblanks⟩ : ∃ blanks, blanks = cs.takeWhile Text.isBlank := ⟨_, rfl⟩
    have hskip : skip (before ++ cs) (width before) = .ok (width (before ++ blanks)) := by
      rw [skip_append, hblanks]
    have hsource : before ++ cs = before ++ blanks ++ cs.dropWhile Text.isBlank := by
      rw [hblanks, List.append_assoc, List.takeWhile_append_dropWhile]
    rw [steps, hskip, scanFrom_eq, ← hblanks, ← width_append]
    cases hcs : cs.dropWhile Text.isBlank with
    | nil =>
      have hnext : next (before ++ cs) (width (before ++ blanks)) =
          .ok (.inl (.finished (width (before ++ blanks)))) := by
        rw [hsource, hcs, next, cut?_append]
      simp only [bind, Except.bind, hnext]
      rfl
    | cons c rest =>
      have hnext := next_append (before ++ blanks) rest (isBlank_of_dropWhile hcs)
      rw [← hcs, ← hsource] at hnext
      simp only [bind, Except.bind, hnext]
      cases hlexeme : lexeme? c rest with
      | none => rfl
      | some found =>
        obtain ⟨l, r⟩ := found
        have hlt : r.length < fuel := by
          have := length_lt_of_lexeme? hcs hlexeme
          omega
        have hrest : before ++ cs = before ++ blanks ++ l ++ r := by
          rw [hsource, hcs, ← append_lexeme? hlexeme, List.append_assoc _ l r]
        have hsteps := ih (before ++ blanks ++ l) hlt
        rw [← hrest, width_append _ l] at hsteps
        simp only [hsteps]
        rfl

/-- The reader comes to the end of every source, whatever it is, and finds the tokens. -/
theorem steps_eq_scan (source : String) {fuel : Nat} (h : source.toList.length < fuel) :
    steps source.toList fuel 0 = .ok (scan source) := by
  have hsteps := steps_append [] h
  rwa [width_nil, List.nil_append] at hsteps

end RpnMachine.Token
