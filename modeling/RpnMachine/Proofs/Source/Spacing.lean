import RpnMachine.Proofs.Source.Stepping

/-! Nothing but blanks is lost between the tokens of a source, and nothing but the tokens decides what
they are: with any blanks between them they are found again. A source whose tokens do not end at its end
has a text at this place that is never closed. -/
namespace RpnMachine.Token

/-- Words with gaps before each of them and after the last one. -/
def woven (gaps : List (List Char)) (words : List String) (last : List Char) : List Char :=
  (List.zipWith (fun gap word => gap ++ word.toList) gaps words).flatten ++ last

def Blank (cs : List Char) : Prop := ∀ c ∈ cs, Text.isBlank c

/-- No quote closes a text that goes on with these characters: a quote after its content is followed by
another one. -/
def Unclosed (cs : List Char) : Prop :=
  ∀ content after : List Char, cs = content.flatMap (fun c => if c = '"' then [c, c] else [c]) ++ '"' :: after →
    after.head? = some '"'

variable {gaps : List (List Char)} {words : List String} {last cs l r : List Char} {c : Char}

theorem unclosed_of_textTail? (h : textTail? cs = none) : Unclosed cs := by
  rintro content after rfl
  by_contra hhead
  rw [textTail?_doubled content hhead] at h
  cases h

theorem woven_cons (gap : List Char) (word : String) :
    woven (gap :: gaps) (word :: words) last = gap ++ (word.toList ++ woven gaps words last) := by
  simp [woven]

theorem blank_takeWhile (cs : List Char) : Blank (cs.takeWhile Text.isBlank) :=
  fun _ hc => List.mem_takeWhile_imp hc

/-! Every token is found again before a blank. -/

theorem head?_of_wordTail (h : (wordTail cs).1.head? = some c) : cs.head? = some c := by
  obtain ⟨l, hl⟩ := List.head?_eq_some_iff.mp h
  rw [← append_wordTail cs, hl]
  rfl

theorem wordTail_self (cs : List Char) : wordTail (wordTail cs).1 = ((wordTail cs).1, []) := by
  fun_induction wordTail cs with
  | case1 => rfl
  | case2 => rfl
  | case3 c cs hangle hc r ih =>
    rw [wordTail_cons hc, ih]
    rintro ⟨rfl, hhead⟩
    obtain ⟨ds, rfl⟩ := List.head?_eq_some_iff.mp (head?_of_wordTail hhead)
    exact hangle ds rfl rfl
  | case4 => rfl

theorem tokenizes_angles (hc : c = '<' ∨ c = '>') : Tokenizes [c, c] [String.ofList [c, c]] := by
  intro rest vs _ hvs
  have hblank : Text.isBlank c = false := by rcases hc with rfl | rfl <;> decide
  have hlexeme : lexeme? c (c :: rest) = some ([c, c], rest) := by
    have hdelimiter : isDelimiter c = false := by rcases hc with rfl | rfl <;> rfl
    have hquote : c ≠ '"' := by rcases hc with rfl | rfl <;> decide
    simp [lexeme?, hdelimiter, hquote, hc]
  exact Lexes.lexeme hblank hlexeme hvs

theorem tokenizes_of_lexeme? (hblank : Text.isBlank c = false) (h : lexeme? c cs = some (l, r)) :
    Tokenizes l [String.ofList l] := by
  unfold lexeme? at h
  split_ifs at h with hdelimiter hquote hangles
  · cases h
    exact tokenizes_delimiter hdelimiter
  · subst hquote
    obtain ⟨⟨inner, rest⟩, hinner, he⟩ := Option.map_eq_some_iff.mp h
    cases he
    obtain ⟨s, hs⟩ := exists_of_textTail? hinner
    rw [hs]
    exact tokenizes_quoted s
  · cases h
    exact tokenizes_angles hangles.1
  · cases h
    have hword : isWord (c :: (wordTail cs).1) := by
      have hpair : (¬c = '<' ∧ ¬c = '>') ∨ ¬(wordTail cs).1.head? = some c := by
        by_contra hno
        push Not at hno
        exact hangles ⟨or_iff_not_imp_left.mpr hno.1, head?_of_wordTail hno.2⟩
      simp [isWord, isWordChar, hblank, hdelimiter, hquote, hpair, wordTail_self]
    have htokenizes := @tokenizes_word (String.ofList (c :: (wordTail cs).1))
    rw [String.toList_ofList] at htokenizes
    exact htokenizes hword

theorem boundary_of_blank (h : Blank cs) (rest : List Char) (hrest : cs = [] → Boundary rest) :
    Boundary (cs ++ rest) := by
  cases cs with
  | nil => exact hrest rfl
  | cons c cs => exact boundary_blank _ (h c (by simp))

/-- Words that are found before a blank are found with any blanks between them. -/
theorem lexes_woven (hwords : ∀ w ∈ words, Tokenizes w.toList [w]) (hlength : gaps.length = words.length)
    (hblank : ∀ gap ∈ gaps, Blank gap) (hlast : Blank last) (hgaps : ∀ gap ∈ gaps.tail, gap ≠ []) :
    Lexes (woven gaps words last) words := by
  induction words generalizing gaps with
  | nil =>
    obtain rfl := List.length_eq_zero_iff.mp hlength
    have := Lexes.blanks hlast lexes_nil
    rwa [List.append_nil] at this
  | cons w ws ih =>
    obtain ⟨gap, gaps, rfl⟩ := List.exists_cons_of_length_eq_add_one hlength
    have hlength : gaps.length = ws.length := by simpa using hlength
    have hrest := ih (fun v hv => hwords v (by simp [hv])) hlength
      (fun g hg => hblank g (by simp [hg])) fun g hg => hgaps g (List.mem_of_mem_tail hg)
    rw [woven_cons]
    apply Lexes.blanks (hblank gap (by simp))
    apply hwords w (by simp) _ _ _ hrest
    cases ws with
    | nil =>
      obtain rfl := List.length_eq_zero_iff.mp hlength
      have := boundary_of_blank hlast [] fun _ => boundary_nil
      rwa [List.append_nil] at this
    | cons v vs =>
      obtain ⟨gap', gaps, rfl⟩ := List.exists_cons_of_length_eq_add_one hlength
      rw [woven_cons]
      exact boundary_of_blank (hblank gap' (by simp)) _ fun hnil => absurd hnil (hgaps gap' (by simp))

/-- Characters, the first of which is byte `position` of the source, are tokens with blanks between them,
and then the source ends, or a text starts that is not closed. -/
structure Divides (position : Nat) (cs : List Char) (tokens : List Token) (ending : Ending)
    (gaps : List (List Char)) (last rest : List Char) : Prop where
  eq_woven : cs = woven gaps (tokens.map text) last ++ rest
  length_gaps : gaps.length = tokens.length
  blank_gaps : ∀ gap ∈ gaps, Blank gap
  blank_last : Blank last
  rest_eq : match ending with
    | .finished stop => rest = [] ∧ stop = position + width cs
    | .openText stop => ∃ inner, rest = '"' :: inner ∧ Unclosed inner ∧
        stop = position + width (woven gaps (tokens.map text) last)

theorem Divides.cons {position : Nat} {tokens : List Token} {ending : Ending} {rest gap : List Char}
    (h : Divides (position + width gap + width l) r tokens ending gaps last rest) (hgap : Blank gap)
    (start stop : Nat) :
    Divides position (gap ++ (l ++ r)) (⟨String.ofList l, start, stop⟩ :: tokens) ending (gap :: gaps)
      last rest := by
  have hwoven : woven (gap :: gaps) (List.map text (⟨String.ofList l, start, stop⟩ :: tokens)) last =
      gap ++ (l ++ woven gaps (tokens.map text) last) := by
    rw [List.map_cons, woven_cons, String.toList_ofList]
  refine ⟨?_, ?_, ?_, h.blank_last, ?_⟩
  · rw [hwoven, h.eq_woven]
    simp only [List.append_assoc]
  · rw [List.length_cons, List.length_cons, h.length_gaps]
  · exact List.forall_mem_cons.mpr ⟨hgap, h.blank_gaps⟩
  · have hrest := h.rest_eq
    rw [hwoven]
    cases ending with
    | finished p =>
      obtain ⟨hnil, rfl⟩ := hrest
      exact ⟨hnil, by simp only [width_append, Nat.add_assoc]⟩
    | openText p =>
      obtain ⟨inner, hinner, hunclosed, rfl⟩ := hrest
      exact ⟨inner, hinner, hunclosed, by simp only [width_append, Nat.add_assoc]⟩

/-- What cannot be read is a text that is not closed. -/
theorem unclosed_of_lexeme? (h : lexeme? c cs = none) : c = '"' ∧ Unclosed cs := by
  unfold lexeme? at h
  split_ifs at h with hdelimiter hquote
  exact ⟨hquote, unclosed_of_textTail? (Option.map_eq_none_iff.mp h)⟩

theorem exists_divides (position : Nat) (cs : List Char) : ∃ gaps last rest,
    Divides position cs (scanFrom position cs).1 (scanFrom position cs).2 gaps last rest := by
  fun_induction scanFrom position cs with
  | case1 position cs start hcs =>
    have hblank : Blank cs := List.dropWhile_eq_nil_iff.mp hcs
    have htake : cs.takeWhile Text.isBlank = cs := List.takeWhile_eq_self_iff.mpr hblank
    exact ⟨[], cs, [], by simp [woven], rfl, by simp, hblank, rfl, by rw [← htake]⟩
  | case2 position cs start c rest hc h =>
    obtain ⟨rfl, hunclosed⟩ := unclosed_of_lexeme? h
    refine ⟨[], cs.takeWhile Text.isBlank, '"' :: rest, ?_, rfl, by simp, blank_takeWhile cs, rest, rfl,
      hunclosed, rfl⟩
    rw [← hc]
    exact List.takeWhile_append_dropWhile.symm
  | case3 position cs start c rest hc l r h _ stop tokens ending hscan ih =>
    obtain ⟨gaps, last, after, hdivides⟩ := ih
    rw [hscan] at hdivides
    have hcs : cs = cs.takeWhile Text.isBlank ++ (l ++ r) := by
      rw [append_lexeme? h, ← hc, List.takeWhile_append_dropWhile]
    have hcons := hdivides.cons (blank_takeWhile cs) start stop
    rw [← hcs] at hcons
    exact ⟨_, last, after, hcons⟩

theorem tokenizes_of_mem_scanFrom (position : Nat) (cs : List Char) :
    ∀ t ∈ (scanFrom position cs).1, t.text ≠ "" ∧ Tokenizes t.text.toList [t.text] := by
  fun_induction scanFrom position cs with
  | case1 => simp
  | case2 => simp
  | case3 position cs start c rest hc l r h _ stop tokens ending hscan ih =>
    rw [hscan] at ih
    refine List.forall_mem_cons.mpr ⟨⟨?_, ?_⟩, ih⟩
    · intro hempty
      have := congrArg String.toList hempty
      rw [String.toList_ofList] at this
      exact lexeme?_ne_nil h this
    · rw [String.toList_ofList]
      exact tokenizes_of_lexeme? (isBlank_of_dropWhile hc) h

/-- Whatever a source is, the reader that goes from position to position comes to an end, either of
the source or at the opening quote of a text that is never closed. None of the tokens is empty; there
are only blanks between them; and with any others they are found again, where two have some between
them. -/
theorem scan_lossless (source : String) :
    (∀ fuel, source.toList.length < fuel → steps source.toList fuel 0 = .ok (scan source)) ∧
    (∀ t ∈ (scan source).1, t.text ≠ "") ∧
    (∃ gaps last rest, Divides 0 source.toList (scan source).1 (scan source).2 gaps last rest) ∧
    ∀ gaps last, gaps.length = (scan source).1.length → (∀ gap ∈ gaps, Blank gap) → Blank last →
      (∀ gap ∈ gaps.tail, gap ≠ []) →
      words? (String.ofList (woven gaps ((scan source).1.map text) last)) =
        some ((scan source).1.map text) := by
  refine ⟨fun fuel h => steps_eq_scan source h, fun t ht => (tokenizes_of_mem_scanFrom _ _ t ht).1,
    exists_divides 0 _, fun gaps last hlength hgaps hlast hne => ?_⟩
  apply Lexes.words?
  rw [String.toList_ofList]
  refine lexes_woven (fun w hw => ?_) (by rw [hlength, List.length_map]) hgaps hlast hne
  obtain ⟨t, ht, rfl⟩ := List.mem_map.mp hw
  exact (tokenizes_of_mem_scanFrom _ _ t ht).2

end RpnMachine.Token
