import RpnMachine.Proofs.Number.Spelling
import RpnMachine.Proofs.Source.Lexing

/-! Objects whose texts are derived for themselves. Whatever the layout, the text of such an object
is cut into the words of its grammar. -/
namespace RpnMachine

def Number.ReadsBack (bits : UInt64) : Prop :=
  ∀ l : Literal, l.Spells (decimalText bits).toList → l.toFloat.toBits = bits

namespace Tree

/-- Objects that can be written. -/
inductive Legible : Tree → Prop
  | integer (negative : Bool) (magnitude : UInt64) : Legible (.integer negative magnitude)
  | decimal {bits : UInt64} (h : (Float.ofBits bits).isFinite) : Legible (.decimal bits)
  | text (s : String) : Legible (.text s)
  | symbol {s : String} (h : Token.isSymbolWord s) (hkeyword : Token.isKeyword s = false)
    (hcommand : ∀ c : Command, ¬c.IsNamed s) : Legible (.symbol s)
  | command (c : Command) : Legible (.command c)
  | quote {t : Tree} (h : Legible t) : Legible (.composite .quote [t])
  | list {ts : List Tree} (h : ∀ t ∈ ts, Legible t) : Legible (.composite .list ts)
  | program {ts : List Tree} (h : ∀ t ∈ ts, Legible t) : Legible (.composite .program ts)
  | control {c : Control} {bodies : List (List Tree)} (hlength : c.words.length = bodies.length + 1)
    (h : ∀ ts ∈ bodies, ∀ t ∈ ts, Legible t) :
    Legible (.composite (.control c) (bodies.map (.composite .program)))

mutual

def decimals : Tree → List UInt64
  | decimal bits => [bits]
  | composite _ ts => decimalsAll ts
  | _ => []

def decimalsAll : List Tree → List UInt64
  | [] => []
  | t :: ts => t.decimals ++ decimalsAll ts

end

theorem mem_decimals_of_mem_children {t s : Tree} (hs : s ∈ t.children) {bits : UInt64}
    (h : bits ∈ s.decimals) : bits ∈ t.decimals := by
  cases t with
  | composite c ts =>
    change s ∈ ts at hs
    rw [decimals]
    induction ts with
    | nil => cases hs
    | cons u ts ih =>
      rw [decimalsAll, List.mem_append]
      rcases List.mem_cons.mp hs with rfl | hs
      · exact .inl h
      · exact .inr (ih hs)
  | _ => cases hs

end Tree

namespace Layout

open Token

def chars (pieces : List String) : List Char := pieces.flatMap String.toList

@[simp] theorem chars_nil : chars [] = [] := rfl

@[simp] theorem chars_cons (piece : String) (pieces : List String) :
    chars (piece :: pieces) = piece.toList ++ chars pieces := rfl

@[simp] theorem chars_append (xs ys : List String) : chars (xs ++ ys) = chars xs ++ chars ys :=
  List.flatMap_append

theorem chars_newline_ne_nil (flat : Bool) (indent : Nat) : chars (newline flat indent) ≠ [] := by
  cases flat <;> simp [newline]

/-- Between lines there are only blanks. -/
theorem isBlank_of_mem_newline (flat : Bool) (indent : Nat) :
    ∀ c ∈ chars (newline flat indent), Text.isBlank c := by
  intro c hc
  have hchar : c = ' ' ∨ c = '\n' := by
    cases flat with
    | true => exact .inl (by simpa [newline] using hc)
    | false =>
      simp only [newline, Bool.false_eq_true, if_false, chars_cons, List.mem_append] at hc
      rcases hc with hc | hc
      · exact .inr (by simpa using hc)
      · obtain ⟨piece, hpiece, hc⟩ := List.mem_flatMap.mp hc
        rw [List.eq_of_mem_replicate hpiece] at hc
        exact .inl (by simpa using hc)
  rcases hchar with rfl | rfl
  all_goals decide

theorem tokenizes_newline (flat : Bool) (indent : Nat) {xs ys : List String} {us ws : List String}
    (h : Tokenizes (chars xs) us) (h' : Tokenizes (chars ys) ws) :
    Tokenizes (chars (xs ++ (newline flat indent ++ ys))) (us ++ ws) := by
  rw [chars_append, chars_append]
  exact h.append (chars_newline_ne_nil flat indent) (isBlank_of_mem_newline flat indent) h'

theorem tokenizes_blank {cs ds : List Char} {us ws : List String} (h : Tokenizes cs us)
    (h' : Tokenizes ds ws) : Tokenizes (cs ++ ' ' :: ds) (us ++ ws) := by
  have hblank : ∀ b ∈ [' '], Text.isBlank b := List.forall_mem_singleton.mpr (by decide)
  exact h.append (by simp) hblank h'

theorem tokenizes_vocabulary {word : String} (h : word ∈ Start.vocabulary) :
    Tokenizes word.toList [word] := by
  have hcheck : ∀ word ∈ Start.vocabulary, isWord word.toList := by decide +kernel
  exact tokenizes_word (hcheck word h)

/-- The characters that no number and no name has. -/
def breaks : Text.Ranges :=
  Text.blanks ++ [(0x22, 0x22), (0x27, 0x27), (0x3c, 0x3c), (0x3e, 0x3e), (0x7b, 0x7b), (0x7d, 0x7d),
    (0xab, 0xab), (0xbb, 0xbb)]

theorem isWord_of_breaks {cs : List Char} (hne : cs ≠ []) (h : ∀ c ∈ cs, breaks.has c = false) :
    isWord cs := by
  apply isWord_of_forall hne
  intro c hc
  have hbreak := h c hc
  have hother : ∀ d : Char, breaks.has d → c ≠ d := by
    rintro d hd rfl
    rw [hbreak] at hd
    cases hd
  have hblank : Text.isBlank c = false := by
    rw [breaks, Text.Ranges.has, List.any_append, Bool.or_eq_false_iff] at hbreak
    exact hbreak.1
  refine ⟨?_, hother '<' (by decide), hother '>' (by decide)⟩
  simp [isWordChar, isDelimiter, hblank, hother '\x7b' (by decide), hother '\x7d' (by decide),
    hother '«' (by decide), hother '»' (by decide), hother '\x27' (by decide), hother '"' (by decide)]

theorem tokenizes_spells {word : String} {l : Number.Literal} (h : l.Spells word.toList) :
    Tokenizes word.toList [word] := by
  apply tokenizes_word
  apply isWord_of_breaks
  · obtain ⟨c, cs, hcs, -⟩ := h.head
    simp [hcs]
  · intro c hc
    have hnumber := h.isNumberChar c hc
    simp only [Number.Literal.isNumberChar, Bool.or_eq_true, beq_iff_eq] at hnumber
    rcases hnumber with ((((hdigit | rfl) | rfl) | rfl) | rfl) | rfl
    · exact Text.Ranges.has_eq_false_of_meets (by decide) (Text.has_of_isDigit hdigit)
    all_goals decide

theorem tokenizes_symbol {word : String} (h : isSymbolWord word) :
    Tokenizes word.toList [word] := by
  apply tokenizes_word
  obtain ⟨c, cs, hcs, hc⟩ := Start.head_of_isSymbolWord h
  have hletter : ∀ {d : Char}, Text.isLetter d → breaks.has d = false :=
    fun hd => Text.Ranges.has_eq_false_of_meets (by decide +kernel) hd
  have hnumeral : ∀ {d : Char}, Text.isNumeral d → breaks.has d = false :=
    fun hd => Text.Ranges.has_eq_false_of_meets (by decide +kernel) hd
  apply isWord_of_breaks (by simp [hcs])
  rw [isSymbolWord, hcs] at h
  simp only [Bool.and_eq_true, Bool.or_eq_true, beq_iff_eq, List.all_eq_true] at h
  rw [hcs]
  refine List.forall_mem_cons.mpr ⟨?_, fun d hd => ?_⟩
  · rcases hc with hc | rfl
    · exact hletter hc
    · decide
  · rcases h.2 d hd with (hd | hd) | rfl
    · exact hletter hd
    · exact hnumeral hd
    · decide

end Layout

namespace Tree

open Token Layout

/-- The pieces are derived for an object with the bytes and levels of this one. -/
def Written (t : Tree) (pieces : List String) : Prop :=
  ∃ ws u, Tokenizes (chars pieces) ws ∧ Derives ws (.object u) ∧ u.encode = t.encode ∧
    u.nesting = t.nesting

def WrittenAll (ts : List Tree) (pieces : List String) : Prop :=
  ∃ ws us, Tokenizes (chars pieces) ws ∧ Derives ws (.body us) ∧ encodeAll us = encodeAll ts ∧
    nestingAll us = nestingAll ts

/-- The pieces are derived for clauses, after the word that they start with. -/
def WrittenClauses (opener : String) (closers : List String) (ts : List Tree) (pieces : List String)
    :
    Prop :=
  ∃ ws us, Tokenizes (chars pieces) (opener :: ws) ∧ Derives ws (.clauses closers us) ∧
    encodeAll us = encodeAll ts ∧ nestingClauses us = nestingClauses ts

/-! Objects without others inside. -/

theorem written_word {word : String} {t u : Tree} (hword : Tokenizes word.toList [word])
    (h : Denotes word u) (hencode : u.encode = t.encode) (hnesting : t.nesting = 1) :
    t.Written [word] := by
  refine ⟨[word], u, ?_, .word h, hencode, h.nesting.trans hnesting.symm⟩
  rwa [chars_cons, chars_nil, List.append_nil]

theorem encode_integer_zero (negative : Bool) :
    (integer negative 0).encode = (integer false 0).encode := by
  rw [encode, encode, Recipe.encode, Recipe.encode]
  simp [Recipe.kind, Recipe.payload]

theorem written_integer (negative : Bool) (magnitude : UInt64) (flat : Bool) (indent : Nat) :
    (integer negative magnitude).Written ((integer negative magnitude).pieces flat indent) := by
  obtain ⟨i, hi⟩ : ∃ i : Int, (if negative then -(magnitude.toNat : Int) else magnitude.toNat) = i :=
    ⟨_, rfl⟩
  have hmagnitude : i.natAbs = magnitude.toNat := by
    rw [← hi]
    split_ifs <;> omega
  have hl := Number.spells_toString i
  have hvalue : Number.Literal.value (Nat.toDigits 10 i.natAbs) = magnitude.toNat := by
    rw [Number.value_toDigits, hmagnitude]
  have hdenotes : Denotes (toString i) (.integer (decide (i < 0)) magnitude) := by
    have := Denotes.integer hl rfl (by rw [hvalue]; exact magnitude.toNat_lt)
    rw [hvalue] at this
    simpa using this
  have hencode : (integer (decide (i < 0)) magnitude).encode = (integer negative magnitude).encode := by
    by_cases hzero : magnitude = 0
    · rw [hzero, encode_integer_zero, encode_integer_zero negative]
    · have hpos : 0 < magnitude.toNat := by
        rw [Nat.pos_iff_ne_zero]
        exact fun h => hzero (UInt64.toNat_inj.mp h)
      have hnegative : decide (i < 0) = negative := by
        rw [← hi]
        cases negative with
        | true => simp; omega
        | false => simp
      rw [hnegative]
  simpa [pieces, value, Layout.pieces, hi] using
    written_word (t := .integer negative magnitude) (tokenizes_spells hl) hdenotes hencode
      (by simp [nesting])

theorem written_decimal {bits : UInt64} (hfinite : (Float.ofBits bits).isFinite)
    (hread : Number.ReadsBack bits) (flat : Bool) (indent : Nat) :
    (decimal bits).Written ((decimal bits).pieces flat indent) := by
  obtain ⟨l, hl, hfraction⟩ := Number.spellsDecimal_decimalText hfinite
  have hbits := hread l hl
  have hfloat : l.toFloat = Float.ofBits bits := by rw [← hbits, Float.ofBits_toBits]
  have hdenotes : Denotes (Number.decimalText bits) (.decimal l.toFloat.toBits) :=
    .decimal hl (fun hnone => absurd hnone hfraction) (hfloat ▸ hfinite)
  rw [hbits] at hdenotes
  simpa [pieces, value, Layout.pieces] using
    written_word (t := .decimal bits) (tokenizes_spells hl) hdenotes rfl (by simp [nesting])

theorem written_text (s : String) (flat : Bool) (indent : Nat) :
    (text s).Written ((text s).pieces flat indent) := by
  have hchars : chars ((text s).pieces flat indent) = quoted s.toList := by
    simp [pieces, value, Layout.pieces, doubled, quoted]
  refine ⟨[String.ofList (quoted s.toList)], .text s, ?_, .word (.text ?_), rfl, rfl⟩
  · rw [hchars]
    exact tokenizes_quoted _
  · rw [String.toList_ofList]

theorem written_symbol {s : String} (h : isSymbolWord s) (hkeyword : isKeyword s = false)
    (hcommand : ∀ c : Command, ¬c.IsNamed s) (flat : Bool) (indent : Nat) :
    (symbol s).Written ((symbol s).pieces flat indent) := by
  simpa [pieces, value, Layout.pieces] using
    written_word (t := .symbol s) (tokenizes_symbol h) (.symbol h hkeyword hcommand) rfl
      (by simp [nesting])

theorem written_command (c : Command) (flat : Bool) (indent : Nat) :
    (command c).Written ((command c).pieces flat indent) := by
  have hmem : c.name ∈ Start.vocabulary := by cases c <;> decide
  have hnamed : c.IsNamed c.name := ⟨c.name, by simp, by simp [sameWord]⟩
  simpa [pieces, value, Layout.pieces] using
    written_word (t := .command c) (tokenizes_vocabulary hmem) (.command hnamed) rfl (by simp [nesting])

/-! Objects inside others. -/

theorem writtenAll_piecesAll {ts : List Tree} {flat : Bool} {indent : Nat}
    (h : ∀ t ∈ ts, t.Written (t.pieces flat indent)) : WrittenAll ts (piecesAll flat indent ts) := by
  induction ts with
  | nil => exact ⟨[], [], tokenizes_nil, .nil, rfl, rfl⟩
  | cons t ts ih =>
    obtain ⟨ws, u, htokens, hderives, hencode, hnesting⟩ := h t (by simp)
    obtain ⟨ws', us, htokens', hderives', hencode', hnesting'⟩ := ih fun s hs => h s (by simp [hs])
    cases ts with
    | nil =>
      refine ⟨ws ++ [], [u], ?_, .cons hderives .nil, ?_, ?_⟩
      · rwa [List.append_nil]
      · rw [encodeAll_cons, encodeAll_cons, hencode]
      · simp only [nestingAll, hnesting]
    | cons s ts =>
      refine ⟨ws ++ ws', u :: us, ?_, .cons hderives hderives', ?_, ?_⟩
      · rw [piecesAll, chars_append, chars_cons]
        exact tokenizes_blank htokens htokens'
      · rw [encodeAll_cons, encodeAll_cons, hencode, hencode']
      · rw [nestingAll, nestingAll, hnesting, hnesting']

theorem written_quote {t : Tree} {flat : Bool} {indent : Nat} (h : t.Written (t.pieces flat indent))
    :
    (composite .quote [t]).Written ((composite .quote [t]).pieces flat indent) := by
  obtain ⟨ws, u, htokens, hderives, hencode, hnesting⟩ := h
  have hchars : chars ((composite .quote [t]).pieces flat indent) =
      '\x27' :: (chars (t.pieces flat indent) ++ ['\x27']) := by
    simp [pieces, piecesAll]
  refine ⟨_, _, ?_, .quote hderives, ?_, ?_⟩
  · rw [hchars]
    exact (htokens.append_delimiter (by decide)).delimiter (by decide)
  · rw [encode_composite, encode_composite, encodeAll_cons, encodeAll_cons, hencode]
  · simp only [nesting, nestingAll, hnesting]

theorem written_list {ts : List Tree} {flat : Bool} {indent : Nat}
    (h : ∀ t ∈ ts, t.Written (t.pieces flat indent)) :
    (composite .list ts).Written ((composite .list ts).pieces flat indent) := by
  obtain ⟨ws, us, htokens, hderives, hencode, hnesting⟩ := writtenAll_piecesAll h
  have hopen : Tokenizes ['\x7b'] ["\x7b"] := tokenizes_delimiter (by decide)
  have hclose : Tokenizes ['\x7d'] ["\x7d"] := tokenizes_delimiter (by decide)
  cases ts with
  | nil =>
    refine ⟨["\x7b"] ++ ["\x7d"], .composite .list [], ?_, .list .nil, rfl, rfl⟩
    exact tokenizes_blank hopen hclose
  | cons t ts =>
    refine ⟨_, _, ?_, .list hderives, ?_, ?_⟩
    · have := tokenizes_blank hopen (tokenizes_blank htokens hclose)
      simpa [pieces] using this
    · rw [encode_composite, encode_composite, hencode]
    · simp only [nesting, hnesting]

theorem written_program {ts : List Tree} {flat : Bool} {indent : Nat}
    (h : ∀ t ∈ ts, t.Written (t.pieces flat (indent + 1))) :
    (composite .program ts).Written ((composite .program ts).pieces flat indent) := by
  obtain ⟨ws, us, htokens, hderives, hencode, hnesting⟩ := writtenAll_piecesAll h
  have hopen : Tokenizes (chars ["«"]) ["«"] := tokenizes_delimiter (by decide)
  have hclose : Tokenizes (chars ["»"]) ["»"] := tokenizes_delimiter (by decide)
  cases ts with
  | nil =>
    refine ⟨["«"] ++ ["»"], .composite .program [], ?_, .program (.inl rfl) .nil (.inl rfl), rfl, rfl⟩
    exact tokenizes_blank hopen hclose
  | cons t ts =>
    refine ⟨_, _, ?_, .program (.inl rfl) hderives (.inl rfl), ?_, ?_⟩
    · have := tokenizes_newline flat (indent + 1) hopen
        (tokenizes_newline flat indent htokens hclose)
      simpa [pieces] using this
    · rw [encode_composite, encode_composite, hencode]
    · simp only [nesting, hnesting]

/-- A word with its clause, before the next word. -/
theorem tokenizes_clause {word : String} (hword : word ∈ Start.vocabulary) {ts : List Tree}
    {flat : Bool} {indent : Nat} {ws vs : List String} {rest : List String}
    (h : Tokenizes (chars (piecesAll flat (indent + 1) ts)) ws) (hrest : Tokenizes (chars rest) vs) :
    Tokenizes (chars (word :: piecesBody flat (indent + 1) (.composite .program ts) ++
      newline flat indent ++ rest)) (word :: (ws ++ vs)) := by
  have hopener : Tokenizes (chars [word]) [word] := by
    rw [chars_cons, chars_nil, List.append_nil]
    exact tokenizes_vocabulary hword
  cases ts with
  | nil =>
    obtain rfl := eq_nil_of_lexes_nil h.lexes
    simpa [piecesBody] using tokenizes_newline flat indent hopener hrest
  | cons t ts =>
    have := tokenizes_newline flat (indent + 1) hopener (tokenizes_newline flat indent h hrest)
    simpa [piecesBody] using this

theorem writtenClauses_piecesClauses {bodies : List (List Tree)} (hne : bodies ≠ [])
    {opener : String} {closers : List String} {flat : Bool} {indent : Nat}
    (hwords : ∀ word ∈ opener :: closers, word ∈ Start.vocabulary)
    (hlength : closers.length = bodies.length)
    (h : ∀ ts ∈ bodies, WrittenAll ts (piecesAll flat (indent + 1) ts)) :
    WrittenClauses opener closers (bodies.map (composite .program))
      (piecesClauses flat indent (opener :: closers) (bodies.map (composite .program))) := by
  induction bodies generalizing opener closers with
  | nil => exact absurd rfl hne
  | cons ts bodies ih =>
    obtain ⟨closer, closers, rfl⟩ := List.exists_cons_of_length_pos (l := closers) (by simp [hlength])
    obtain ⟨ws, us, htokens, hderives, hencode, hnesting⟩ := h ts (by simp)
    have hopener : opener ∈ Start.vocabulary := hwords opener (by simp)
    have hprogram : (composite .program us).encode = (composite .program ts).encode := by
      rw [encode_composite, encode_composite, hencode]
    cases bodies with
    | nil =>
      obtain rfl : closers = [] := List.eq_nil_of_length_eq_zero (by simpa using hlength)
      have hcloser : Tokenizes (chars [closer]) [closer] := by
        rw [chars_cons, chars_nil, List.append_nil]
        exact tokenizes_vocabulary (hwords closer (by simp))
      refine ⟨ws ++ [closer], [.composite .program us], tokenizes_clause hopener htokens hcloser,
        .lastClause hderives (by simp [sameWord]), ?_, ?_⟩
      · rw [List.map_cons, encodeAll_cons, encodeAll_cons, hprogram]
        rfl
      · simp only [List.map_cons, nestingClauses, nestingClause, hnesting]
        rfl
    | cons ts' bodies =>
      have hclosers : ∀ word ∈ closer :: closers, word ∈ Start.vocabulary :=
        fun word hword => hwords word (by simp [hword])
      obtain ⟨ws', us', htokens', hderives', hencode', hnesting'⟩ := ih (by simp) hclosers
        (by simpa using hlength) fun ts hts => h ts (by simp [hts])
      refine ⟨ws ++ closer :: ws', .composite .program us :: us',
        tokenizes_clause hopener htokens htokens',
        .clause hderives (by simp [sameWord]) hderives', ?_, ?_⟩
      · rw [List.map_cons, encodeAll_cons, encodeAll_cons, hprogram, hencode']
      · rw [List.map_cons, nestingClauses, nestingClauses, nestingClause, nestingClause, hnesting,
          hnesting']

theorem written_control {c : Control} {bodies : List (List Tree)} {flat : Bool} {indent : Nat}
    (hlength : c.words.length = bodies.length + 1)
    (h : ∀ ts ∈ bodies, ∀ t ∈ ts, t.Written (t.pieces flat (indent + 1))) :
    (composite (.control c) (bodies.map (composite .program))).Written
      ((composite (.control c) (bodies.map (composite .program))).pieces flat indent) := by
  have hwords : (∀ word ∈ c.words, word ∈ Start.vocabulary) ∧ 1 < c.words.length := by
    cases c <;> decide
  obtain ⟨opener, closers, hc⟩ := List.exists_cons_of_length_pos (l := c.words) (by omega)
  rw [hc, List.length_cons] at hlength hwords
  have hne : bodies ≠ [] := List.length_pos_iff.mp (by omega)
  obtain ⟨ws, us, htokens, hderives, hencode, hnesting⟩ := writtenClauses_piecesClauses hne
    hwords.1 (by omega) fun ts hts => writtenAll_piecesAll (h ts hts)
  refine ⟨opener :: ws, _, ?_, .control hc (by simp [sameWord]) hderives, ?_, ?_⟩
  · rwa [pieces, hc]
  · rw [encode_composite, encode_composite, hencode]
  · rw [nesting, nesting, hnesting]

/-- An object that can be written is derived from its text, in either layout. -/
theorem Legible.written {t : Tree} (h : t.Legible)
    (hread : ∀ bits ∈ t.decimals, Number.ReadsBack bits) (flat : Bool) (indent : Nat) :
    t.Written (t.pieces flat indent) := by
  have hinside : ∀ {t s : Tree}, (∀ bits ∈ t.decimals, Number.ReadsBack bits) → s ∈ t.children →
      ∀ bits ∈ s.decimals, Number.ReadsBack bits :=
    fun hread hs bits hbits => hread bits (mem_decimals_of_mem_children hs hbits)
  induction h generalizing indent with
  | integer negative magnitude => exact written_integer negative magnitude flat indent
  | decimal h => exact written_decimal h (hread _ (by simp [decimals])) flat indent
  | text s => exact written_text s flat indent
  | symbol h hkeyword hcommand => exact written_symbol h hkeyword hcommand flat indent
  | command c => exact written_command c flat indent
  | quote _ ih => exact written_quote (ih (hinside hread (by simp [children])) indent)
  | list _ ih => exact written_list fun t ht => ih t ht (hinside hread ht) indent
  | program _ ih => exact written_program fun t ht => ih t ht (hinside hread ht) (indent + 1)
  | control hlength _ ih =>
    refine written_control hlength fun ts hts t ht => ih ts hts t ht ?_ (indent + 1)
    have hclause : ∀ bits ∈ (composite .program ts).decimals, Number.ReadsBack bits :=
      hinside hread (List.mem_map_of_mem hts)
    exact hinside hclause ht

theorem toList_foldl_append (pieces : List String) (s : String) :
    (pieces.foldl (· ++ ·) s).toList = s.toList ++ chars pieces := by
  induction pieces generalizing s with
  | nil => simp
  | cons piece pieces ih => simp [ih]

theorem Legible.exists_derives {t : Tree} (h : t.Legible)
    (hread : ∀ bits ∈ t.decimals, Number.ReadsBack bits) (flat : Bool) :
    ∃ ws u, Token.words? (t.rendering flat) = some ws ∧ Derives ws (.object u) ∧
      u.encode = t.encode ∧ u.nesting = t.nesting := by
  obtain ⟨ws, u, htokens, hderives, hencode, hnesting⟩ := h.written hread flat 0
  refine ⟨ws, u, ?_, hderives, hencode, hnesting⟩
  apply Lexes.words?
  rw [rendering, toList_foldl_append]
  exact htokens.lexes

end Tree
end RpnMachine
