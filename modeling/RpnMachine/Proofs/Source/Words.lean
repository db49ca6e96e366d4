import RpnMachine.Proofs.Number.Literal
import RpnMachine.Proofs.Source.Assembly

/-! What single words mean: which object a word is on its own, and which structure it opens. No word
means two things. -/
namespace RpnMachine

namespace Text.Ranges

/-- Some character may be in both. -/
def meets (rs ss : Ranges) : Bool := rs.any fun r => ss.any fun s => s.1 ≤ r.2 && r.1 ≤ s.2

theorem has_eq_false_of_meets {rs ss : Ranges} (h : rs.meets ss = false) {c : Char}
    (hc : rs.has c) : ss.has c = false := by
  obtain ⟨r, hr, hrc⟩ := has_iff.mp hc
  rw [Bool.eq_false_iff]
  intro hss
  obtain ⟨s, hs, hsc⟩ := has_iff.mp hss
  have hmeet := List.any_eq_false.mp (Bool.eq_false_iff.mpr (List.any_eq_false.mp h r hr)) s hs
  simp only [Bool.and_eq_true, decide_eq_true_eq] at hmeet
  omega

end Text.Ranges

theorem Text.has_of_isDigit {c : Char} (h : c.isDigit) : Ranges.has [(0x30, 0x39)] c := by
  simp only [Char.isDigit, Bool.and_eq_true, decide_eq_true_eq, UInt32.le_iff_toNat_le,
    ge_iff_le] at h
  exact Ranges.has_iff.mpr ⟨_, List.mem_singleton_self _, h⟩

namespace Token

/-! Words in any case. -/

def lower (word : String) : List Char := word.toList.map Char.toLower

theorem sameWord_iff {a b : String} : sameWord a b ↔ lower a = lower b := beq_iff_eq

theorem sameWord_congr {a b : String} (h : sameWord a b) (word : String) :
    sameWord a word = sameWord b word := by
  have h : lower a = lower b := sameWord_iff.mp h
  exact congrArg (· == lower word) h

theorem sameWord_comm (a b : String) : sameWord a b = sameWord b a := Bool.beq_comm

theorem isKeyword_congr {a b : String} (h : sameWord a b) : isKeyword a = isKeyword b := by
  simp only [isKeyword, sameWord_comm _ a, sameWord_comm _ b, sameWord_congr h]

/-- Only letters have another case. -/
theorem toLower_eq_self {c : Char} (h : c.isUpper = false) : c.toLower = c :=
  Char.toLower_eq_of_not_isUpper (by simp [h])

theorem isUpper_of_isDigit {c : Char} (h : c.isDigit) : c.isUpper = false := by
  by_contra hupper
  simp only [Char.isUpper, Char.isDigit, Bool.not_eq_false, Bool.and_eq_true, decide_eq_true_eq,
    UInt32.le_iff_toNat_le, ge_iff_le] at hupper h
  have : 'A'.val.toNat = 65 := rfl
  have : '9'.val.toNat = 57 := rfl
  omega

theorem isNumberChar_toLower {c : Char} (h : Number.Literal.isNumberChar c) :
    Number.Literal.isNumberChar c.toLower := by
  by_cases hc : c = 'E'
  · subst hc
    rfl
  · have hupper : c.isUpper = false := by
      simp only [Number.Literal.isNumberChar, Bool.or_eq_true, beq_iff_eq, hc, or_false] at h
      rcases h with ((((h | rfl) | rfl) | rfl) | rfl)
      · exact isUpper_of_isDigit h
      all_goals rfl
    rwa [toLower_eq_self hupper]

/-- What the small letters of a number word look like. -/
def looksNumeric (cs : List Char) : Bool :=
  cs.all Number.Literal.isNumberChar &&
    match cs with
    | [] => false
    | c :: cs => c.isDigit || c == '.' || (c == '-' && !cs.isEmpty)

theorem looksNumeric_lower {l : Number.Literal} {word : String} (h : l.Spells word.toList) :
    looksNumeric (lower word) := by
  have hall : (lower word).all Number.Literal.isNumberChar := by
    rw [List.all_eq_true]
    intro c hc
    obtain ⟨d, hd, rfl⟩ := List.mem_map.mp hc
    exact isNumberChar_toLower (h.isNumberChar d hd)
  obtain ⟨c, cs, hword, hc⟩ := h.head
  have hupper : c.isUpper = false := by
    rcases hc with hc | rfl | ⟨rfl, -⟩
    · exact isUpper_of_isDigit hc
    · rfl
    · rfl
  rw [looksNumeric.eq_def, hall, Bool.true_and, lower, hword, List.map_cons, toLower_eq_self hupper]
  rcases hc with hc | rfl | ⟨rfl, hcs⟩
  · simp [hc]
  · simp
  · simpa using hcs

theorem width_append (xs ys : List Char) : width (xs ++ ys) = width xs + width ys := by
  simp [width, String.ofList_append]

/-! Texts. -/

/-- How a text is written: in quotes, with those inside it doubled. -/
def quoted (cs : List Char) : List Char :=
  '"' :: cs.flatMap (fun c => if c = '"' then [c, c] else [c]) ++ ['"']

theorem undouble_doubled (cs : List Char) :
    undouble (cs.flatMap fun c => if c = '"' then [c, c] else [c]) = cs := by
  induction cs with
  | nil => rfl
  | cons c cs ih =>
    by_cases hc : c = '"'
    · subst hc
      simpa [undouble] using ih
    · have hne : ∀ ds : List Char, undouble (c :: ds) = c :: undouble ds := by
        intro ds
        rw [undouble]
        rintro ds' rfl
        exact absurd rfl hc
      simp [hc, hne, ih]

theorem content?_quoted {word : String} {s : String} (h : word.toList = quoted s.toList) :
    content? word = some s := by
  rw [content?, h]
  simp only [quoted, List.cons_append, List.dropLast_concat, undouble_doubled, String.ofList_toList]

/-- Texts come with both of their quotes. -/
def IsLexed (word : String) : Prop :=
  word.toList.head? = some '"' → ∃ s : String, word.toList = quoted s.toList

theorem content?_eq_some_iff {word : String} (hword : IsLexed word) {s : String} :
    content? word = some s ↔ word.toList = quoted s.toList := by
  constructor
  · intro h
    have hhead : word.toList.head? = some '"' := by
      rw [content?] at h
      split at h
      · next hcs => simp [hcs]
      · cases h
    obtain ⟨s', hs'⟩ := hword hhead
    rw [content?_quoted hs', Option.some_inj] at h
    rw [hs', h]
  · exact content?_quoted

theorem exists_of_textTail? {cs l r : List Char} (h : textTail? cs = some (l, r)) :
    ∃ s : List Char, '"' :: l = quoted s := by
  fun_induction textTail? cs generalizing l with
  | case1 => cases h
  | case2 cs ih =>
    obtain ⟨⟨l', r'⟩, h', he⟩ := Option.map_eq_some_iff.mp h
    cases he
    obtain ⟨s, hs⟩ := ih h'
    refine ⟨'"' :: s, ?_⟩
    simp only [quoted, List.cons_append, List.cons.injEq, true_and] at hs
    simp [quoted, hs]
  | case3 cs _ =>
    cases h
    exact ⟨[], rfl⟩
  | case4 c cs _ hc ih =>
    obtain ⟨⟨l', r'⟩, h', he⟩ := Option.map_eq_some_iff.mp h
    cases he
    obtain ⟨s, hs⟩ := ih h'
    refine ⟨c :: s, ?_⟩
    simp only [quoted, List.cons_append, List.cons.injEq, true_and] at hs
    simp [quoted, hs, hc]

theorem isLexed_of_lexeme? {c : Char} {cs l r : List Char} (h : lexeme? c cs = some (l, r)) :
    IsLexed (String.ofList l) := by
  intro hhead
  rw [String.toList_ofList] at hhead ⊢
  have happend := append_lexeme? h
  obtain ⟨l', rfl⟩ := List.head?_eq_some_iff.mp hhead
  cases happend
  rw [lexeme?, if_neg (by decide), if_pos rfl] at h
  obtain ⟨⟨l'', r'⟩, h', he⟩ := Option.map_eq_some_iff.mp h
  cases he
  obtain ⟨s, hs⟩ := exists_of_textTail? h'
  exact ⟨String.ofList s, by rw [String.toList_ofList, ← hs]⟩

theorem isLexed_of_mem_scanFrom (position : Nat) (cs : List Char) :
    ∀ t ∈ (scanFrom position cs).1, IsLexed t.text := by
  fun_induction scanFrom position cs with
  | case1 => simp
  | case2 => simp
  | case3 position cs start c rest hc l r h _ stop tokens ending hscan ih =>
    rw [hscan] at ih
    exact List.forall_mem_cons.mpr ⟨isLexed_of_lexeme? h, ih⟩

theorem isLexed_of_scan {source : String} {tokens : List Token} {ending : Ending}
    (h : scan source = (tokens, ending)) : ∀ t ∈ tokens, IsLexed t.text := by
  have hscan := isLexed_of_mem_scanFrom 0 source.toList
  rwa [← scan, h] at hscan

end Token

def Command.IsNamed (c : Command) (word : String) : Prop :=
  ∃ name ∈ c.name :: c.aliases, Token.sameWord word name

/-- The object that a word is on its own. Integers that need more than 64 bits are decimals. -/
inductive Denotes : String → Tree → Prop
  | integer {word : String} {l : Number.Literal} (hl : l.Spells word.toList)
    (hinteger : l.fraction = none) (hfits : Number.Literal.value l.whole < Word.bound 8) :
    Denotes word (.integer l.negative (Number.Literal.value l.whole).toUInt64)
  | decimal {word : String} {l : Number.Literal} (hl : l.Spells word.toList)
    (hwide : l.fraction = none → Word.bound 8 ≤ Number.Literal.value l.whole)
    (hfinite : l.toFloat.isFinite) : Denotes word (.decimal l.toFloat.toBits)
  | text {word s : String} (h : word.toList = Token.quoted s.toList) : Denotes word (.text s)
  | command {word : String} {c : Command} (h : c.IsNamed word) : Denotes word (.command c)
  | symbol {word : String} (h : Token.isSymbolWord word) (hkeyword : Token.isKeyword word = false)
    (hcommand : ∀ c : Command, ¬c.IsNamed word) : Denotes word (.symbol word)

inductive Opens : String → Frame → Prop
  | quote : Opens "'" .quote
  | list : Opens "\x7b" .list
  | program {word : String} (h : word = "«" ∨ word = "<<") : Opens word .program
  | clause {word opener : String} {k : Clause} (hk : (opener, k) ∈ Start.openings)
    (h : Token.sameWord word opener) : Opens word (.clause k)

namespace Start

open Token

/-- What a word is that is neither a number nor a text nor a delimiter. -/
def ofWord (word : String) : Start :=
  match openings.find? (sameWord word ·.1) with
  | some (_, c) => opening 2 (.clause c)
  | none =>
  match command? word with
  | some c => leaf (.command c)
  | none => if isSymbolWord word ∧ ¬isKeyword word then leaf (.symbol word) else mistake (.unexpected word)

theorem ofToken_eq_ofWord {word : String} (hnumber : ∀ l, ¬Number.Literal.Spells l word.toList)
    (htext : word.toList.head? ≠ some '"')
    (hdelimiter : word ∉ ["'", "\x7b", "«", "<<"]) : ofToken word = ofWord word := by
  have hparse : Number.Literal.parse? word.toList = none := by
    rw [Option.eq_none_iff_forall_ne_some]
    intro l hl
    exact hnumber l (Number.Literal.parse?_eq_some_iff.mp hl)
  have hcontent : content? word = none := by
    rw [content?]
    split
    · next hcs => simp [hcs] at htext
    · rfl
  simp only [List.mem_cons, List.not_mem_nil, or_false, not_or] at hdelimiter
  obtain ⟨hquote, hlist, hprogram, hprogram'⟩ := hdelimiter
  rw [ofToken, hparse, hcontent]
  simp only [hquote, hlist, hprogram, hprogram', if_false, or_self]
  rfl

/-- The words that are no names for objects. -/
def vocabulary : List String :=
  keywords ++ Command.all.flatMap fun c => c.name :: c.aliases

theorem ofToken_eq_of_vocabulary {word entry : String} (hentry : entry ∈ vocabulary)
    (h : sameWord word entry) : ofToken word = ofWord word := by
  have hlower : lower word = lower entry := sameWord_iff.mp h
  have hcheck : ∀ entry ∈ vocabulary, looksNumeric (lower entry) = false ∧
      (lower entry).head? ≠ some '"' ∧
      lower entry ∉ [lower "'", lower "\x7b", lower "«", lower "<<"] := by decide +kernel
  obtain ⟨hnumber, htext, hdelimiter⟩ := hcheck entry hentry
  rw [← hlower] at hnumber htext hdelimiter
  apply ofToken_eq_ofWord
  · intro l hl
    rw [looksNumeric_lower hl] at hnumber
    cases hnumber
  · intro hhead
    obtain ⟨cs, hcs⟩ := List.head?_eq_some_iff.mp hhead
    exact htext (by simp [lower, hcs, toLower_eq_self])
  · intro hmem
    refine hdelimiter ?_
    simp only [List.mem_cons, List.not_mem_nil, or_false] at hmem ⊢
    rcases hmem with rfl | rfl | rfl | rfl
    all_goals simp

theorem command?_eq_some_iff {word : String} {c : Command} :
    command? word = some c ↔ c.IsNamed word := by
  have hcheck : ∀ c ∈ Command.all, ∀ name ∈ c.name :: c.aliases, command? name = some c := by
    decide +kernel
  constructor
  · intro h
    have hany := List.find?_some h
    exact List.any_eq_true.mp hany
  · intro h
    obtain ⟨name, hname, hsame⟩ := h
    have hcongr : sameWord word = sameWord name := funext (sameWord_congr hsame)
    rw [command?, hcongr]
    exact hcheck c (by cases c <;> decide) name hname

theorem ofToken_of_isNamed {word : String} {c : Command} (h : c.IsNamed word) :
    ofToken word = .leaf (.command c) := by
  obtain ⟨name, hname, hsame⟩ := h
  have hentry : ∀ c ∈ Command.all, ∀ name ∈ c.name :: c.aliases, name ∈ vocabulary ∧
      openings.find? (sameWord name ·.1) = none := by decide +kernel
  obtain ⟨hmem, hopening⟩ := hentry c (by cases c <;> decide) name hname
  simp only [ofToken_eq_of_vocabulary hmem hsame, ofWord, sameWord_congr hsame, hopening,
    command?_eq_some_iff.mpr ⟨name, hname, hsame⟩]

theorem ofToken_of_opens {word : String} {f : Frame} (h : Opens word f) :
    ofToken word = .opening f.marks f := by
  cases h with
  | quote => decide +kernel
  | list => decide +kernel
  | program h => rcases h with rfl | rfl <;> decide +kernel
  | @clause _ opener k hk h =>
    have hentry : ∀ entry ∈ openings, entry.1 ∈ vocabulary ∧
        openings.find? (sameWord entry.1 ·.1) = some entry := by decide +kernel
    obtain ⟨hmem, hopening⟩ := hentry _ hk
    simp only [ofToken_eq_of_vocabulary hmem h, ofWord, sameWord_congr h, hopening]
    rfl

/-- The words inside and at the end of control structures do not start an object. -/
theorem ofToken_of_ending {word ending : String} {k : Clause} {next : Clause.Sequel}
    (hk : (ending, next) ∈ k.endings) (h : sameWord word ending) :
    ofToken word = .mistake (.unexpected word) := by
  have hentry : ∀ k ∈ [Clause.ifTest, .ifThen, .ifElse, .doBody, .doTest, .whileTest, .whileBody,
      .startBody], ∀ entry ∈ k.endings, entry.1 ∈ vocabulary ∧ isKeyword entry.1 ∧
        openings.find? (sameWord entry.1 ·.1) = none ∧ command? entry.1 = none := by decide +kernel
  obtain ⟨hmem, hkeyword, hopening, hcommand⟩ := hentry k (by cases k <;> decide) _ hk
  have hcongr : sameWord word = sameWord ending := funext (sameWord_congr h)
  have hcommand' : command? word = none := by
    rw [command?, hcongr]
    exact hcommand
  have hkeyword' : isKeyword word := by rwa [isKeyword_congr h]
  simp only [ofToken_eq_of_vocabulary hmem h, ofWord, sameWord_congr h, hopening, hcommand',
    hkeyword', not_true_eq_false, and_false, if_false]

/-! Names. -/

theorem head_of_isSymbolWord {word : String} (h : isSymbolWord word) :
    ∃ c cs, word.toList = c :: cs ∧ (Text.isLetter c ∨ c = '_') := by
  rw [isSymbolWord] at h
  split at h
  · cases h
  · next c cs hcs =>
    simp only [Bool.and_eq_true, Bool.or_eq_true, beq_iff_eq] at h
    exact ⟨c, cs, hcs, h.1⟩

theorem isLetter_of_isDigit {c : Char} (h : c.isDigit) : Text.isLetter c = false :=
  Text.Ranges.has_eq_false_of_meets (by decide +kernel) (Text.has_of_isDigit h)

theorem ofToken_of_symbol {word : String} (h : isSymbolWord word)
    (hkeyword : isKeyword word = false) (hcommand : ∀ c : Command, ¬c.IsNamed word) :
    ofToken word = .leaf (.symbol word) := by
  obtain ⟨c, cs, hcs, hc⟩ := head_of_isSymbolWord h
  have hno : ∀ d, Text.Ranges.has [(0x22, 0x22), (0x2d, 0x2e)] d → c ≠ d := by
    rintro d hd rfl
    have hletter : Text.isLetter c = false :=
      Text.Ranges.has_eq_false_of_meets (by decide +kernel) hd
    rcases hc with hc | rfl
    · rw [hletter] at hc
      cases hc
    · cases hd
  have hword : ofToken word = ofWord word := by
    apply ofToken_eq_ofWord
    · intro l hl
      obtain ⟨d, ds, hds, hd⟩ := hl.head
      rw [hcs] at hds
      cases hds
      rcases hd with hd | rfl | ⟨rfl, -⟩
      · rcases hc with hc | rfl
        · rw [isLetter_of_isDigit hd] at hc
          cases hc
        · cases hd
      · exact hno '.' (by decide) rfl
      · exact hno '-' (by decide) rfl
    · rw [hcs]
      intro hhead
      exact hno '"' (by decide) (Option.some_inj.mp hhead)
    · intro hmem
      simp only [List.mem_cons, List.not_mem_nil, or_false] at hmem
      rcases hmem with rfl | rfl | rfl | rfl
      all_goals exact absurd h (by decide +kernel)
  have hopening : openings.find? (sameWord word ·.1) = none := by
    rw [List.find?_eq_none]
    intro entry hentry hsame
    have hkeywords : ∀ entry ∈ openings, isKeyword entry.1 := by decide +kernel
    rw [isKeyword_congr hsame, hkeywords entry hentry] at hkeyword
    cases hkeyword
  have hnone : command? word = none := by
    rw [Option.eq_none_iff_forall_ne_some]
    intro c hc
    exact hcommand c (command?_eq_some_iff.mp hc)
  simp only [hword, ofWord, hopening, hnone, h, hkeyword, Bool.false_eq_true, not_false_eq_true,
    and_self, if_true]

/-! All words. -/

theorem ofToken_of_spells {word : String} {l : Number.Literal} (h : l.Spells word.toList) :
    ofToken word = ofLiteral word l := by
  rw [ofToken, Number.Literal.parse?_eq_some_iff.mpr h]

theorem ofToken_of_quoted {word s : String} (h : word.toList = quoted s.toList) :
    ofToken word = .leaf (.text s) := by
  have hparse : Number.Literal.parse? word.toList = none := by
    rw [Option.eq_none_iff_forall_ne_some]
    intro l hl
    obtain ⟨c, cs, hcs, hc⟩ := (Number.Literal.parse?_eq_some_iff.mp hl).head
    rw [h] at hcs
    cases hcs
    simp +decide at hc
  rw [ofToken, hparse, content?_quoted h]

theorem ofToken_of_denotes {word : String} {t : Tree} (h : Denotes word t) :
    ofToken word = .leaf t.recipe := by
  cases h with
  | integer hl hinteger hfits =>
    rw [ofToken_of_spells hl, ofLiteral, if_pos ⟨by simp [Number.Literal.isInteger, hinteger], hfits⟩]
    rfl
  | @decimal l hl hwide hfinite =>
    have hnot : ¬(l.isInteger = true ∧ Number.Literal.value l.whole < Word.bound 8) := by
      rintro ⟨hinteger, hlt⟩
      have := hwide (by simpa [Number.Literal.isInteger] using hinteger)
      omega
    rw [ofToken_of_spells hl, ofLiteral, if_neg hnot, ofFloat, if_pos hfinite]
    rfl
  | text h => exact ofToken_of_quoted h
  | command h => exact ofToken_of_isNamed h
  | symbol h hkeyword hcommand => exact ofToken_of_symbol h hkeyword hcommand

theorem exists_denotes_of_ofLiteral {word : String} {l : Number.Literal} {r : Recipe}
    (hl : l.Spells word.toList) (h : ofLiteral word l = .leaf r) :
    ∃ t, Denotes word t ∧ t.recipe = r := by
  rw [ofLiteral] at h
  split_ifs at h with hfits
  · cases h
    exact ⟨_, .integer hl (by simpa [Number.Literal.isInteger] using hfits.1) hfits.2, rfl⟩
  · rw [ofFloat] at h
    split_ifs at h with hfinite
    cases h
    refine ⟨_, .decimal hl (fun hinteger => ?_) hfinite, rfl⟩
    rw [not_and] at hfits
    have := hfits (by simp [Number.Literal.isInteger, hinteger])
    omega

/-- Only a word that is an object is read as one. -/
theorem exists_denotes_of_ofToken {word : String} {r : Recipe} (hword : IsLexed word)
    (h : ofToken word = .leaf r) : ∃ t, Denotes word t ∧ t.recipe = r := by
  rw [ofToken] at h
  split at h
  · next l hl => exact exists_denotes_of_ofLiteral (Number.Literal.parse?_eq_some_iff.mp hl) h
  split at h
  · next s hs =>
    cases h
    exact ⟨_, .text ((content?_eq_some_iff hword).mp hs), rfl⟩
  iterate 4
    split at h
    · cases h
  split at h
  · next c hc =>
    cases h
    exact ⟨_, .command (command?_eq_some_iff.mp hc), rfl⟩
  · next hnone =>
    split_ifs at h with hsymbol
    cases h
    refine ⟨_, .symbol hsymbol.1 (by simpa using hsymbol.2) fun c hc => ?_, rfl⟩
    rw [command?_eq_some_iff.mpr hc] at hnone
    cases hnone

theorem opens_of_ofToken {word : String} {n : Nat} {f : Frame} (h : ofToken word = .opening n f) :
    Opens word f := by
  rw [ofToken] at h
  split at h
  · exact absurd h (ofLiteral_ne_opening _ _)
  split at h
  · cases h
  split at h
  · next hquote =>
    cases h
    exact hquote ▸ .quote
  split at h
  · next hlist =>
    cases h
    exact hlist ▸ .list
  split at h
  · next hprogram =>
    cases h
    exact .program hprogram
  split at h
  · next opener k hfind =>
    cases h
    exact .clause (List.mem_of_find?_eq_some hfind) (by simpa using List.find?_some hfind)
  split at h
  · cases h
  · split_ifs at h

/-- A word that starts an object closes no structure, except for the quote after another one. -/
theorem close?_eq_none {f : Frame} {t : Token} (hf : f ≠ .filledQuote)
    (h : ∀ cause, ofToken t.text ≠ .mistake cause) : f.close? t = none := by
  have hclosers : ∀ word ∈ ["\x7d", "»", ">>"], ofToken word = .mistake (.unexpected word) := by
    decide +kernel
  have hno : ∀ word ∈ ["\x7d", "»", ">>"], t.text ≠ word := by
    intro word hword htext
    exact h _ (htext ▸ hclosers word hword)
  cases f with
  | list => rw [Frame.close?, if_neg (hno _ (by simp))]
  | program =>
    rw [Frame.close?, if_neg]
    rw [not_or]
    exact ⟨hno _ (by simp), hno _ (by simp)⟩
  | clause k =>
    have hnone : k.endings.find? (t.spells ·.1) = none := by
      rw [List.find?_eq_none]
      intro entry hentry hspells
      exact h _ (ofToken_of_ending hentry hspells)
    rw [Frame.close?, hnone]
  | filledQuote => exact absurd rfl hf
  | quote | source => rfl

end Start
end RpnMachine
