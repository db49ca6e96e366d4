import RpnMachine.Text.Blank
import RpnMachine.Text.Letter
import RpnMachine.Text.Numeral

/-! The tokens of a source text: words between blanks, delimiters that stand alone, and texts in
double quotes. -/
namespace RpnMachine

structure Token where
  text : String
  start : Nat
  stop : Nat
  deriving DecidableEq, Repr

namespace Token

def isDelimiter (c : Char) : Bool :=
  c == '{' || c == '}' || c == '«' || c == '»' || c == '\x27'

def isWordChar (c : Char) : Bool := !(Text.isBlank c || isDelimiter c || c == '"')

/-- The rest of a text after its opening quote, up to the closing one. A doubled quote stands for
one inside the text. -/
def textTail? : List Char → Option (List Char × List Char)
  | [] => none
  | '"' :: '"' :: cs => (textTail? cs).map fun r => ('"' :: '"' :: r.1, r.2)
  | c :: cs => if c = '"' then some ([c], cs) else (textTail? cs).map fun r => (c :: r.1, r.2)

/-- The rest of a word after its first character. A closing `>>` ends it. -/
def wordTail : List Char → List Char × List Char
  | [] => ([], [])
  | '>' :: '>' :: cs => ([], '>' :: '>' :: cs)
  | c :: cs =>
    if isWordChar c then
      let r := wordTail cs
      (c :: r.1, r.2)
    else ([], c :: cs)

/-- The first token and what follows it: none if it is a text without its closing quote. -/
def lexeme? (c : Char) (cs : List Char) : Option (List Char × List Char) :=
  if isDelimiter c then some ([c], cs)
  else if c = '"' then (textTail? cs).map fun r => (c :: r.1, r.2)
  else if (c = '<' ∨ c = '>') ∧ cs.head? = some c then some ([c, c], cs.tail)
  else
    let r := wordTail cs
    some (c :: r.1, r.2)

theorem append_textTail? {cs l r : List Char} (h : textTail? cs = some (l, r)) : l ++ r = cs := by
  fun_induction textTail? cs generalizing l with
  | case1 => simp at h
  | case2 cs ih =>
    obtain ⟨⟨l', r'⟩, h', e⟩ := Option.map_eq_some_iff.1 h
    cases e
    simpa using ih h'
  | case3 cs _ => cases h; rfl
  | case4 c cs _ _ ih =>
    obtain ⟨⟨l', r'⟩, h', e⟩ := Option.map_eq_some_iff.1 h
    cases e
    simpa using ih h'

theorem append_wordTail (cs : List Char) : (wordTail cs).1 ++ (wordTail cs).2 = cs := by
  fun_induction wordTail cs with
  | case3 c cs _ _ r ih => simpa [r] using ih
  | _ => rfl

theorem append_lexeme? {c : Char} {cs l r : List Char} (h : lexeme? c cs = some (l, r)) :
    l ++ r = c :: cs := by
  unfold lexeme? at h
  split at h
  · cases h; rfl
  split at h
  · obtain ⟨⟨l', r'⟩, h', e⟩ := Option.map_eq_some_iff.1 h
    cases e
    simpa using append_textTail? h'
  split at h
  · next hc =>
    cases h
    cases cs <;> simp_all
  · cases h
    simpa using append_wordTail cs

theorem lexeme?_ne_nil {c : Char} {cs l r : List Char} (h : lexeme? c cs = some (l, r)) :
    l ≠ [] := by
  unfold lexeme? at h
  split at h
  · cases h; simp
  split at h
  · obtain ⟨⟨l', r'⟩, h', e⟩ := Option.map_eq_some_iff.1 h
    cases e
    simp
  split at h <;> cases h <;> simp

inductive Ending where
  | finished (position : Nat)
  /-- A text starts there and is not closed. -/
  | openText (position : Nat)
  deriving DecidableEq, Repr

def width (cs : List Char) : Nat := (String.ofList cs).utf8ByteSize

theorem length_lt_of_lexeme? {c : Char} {cs rest l r : List Char}
    (hc : cs.dropWhile Text.isBlank = c :: rest) (h : lexeme? c rest = some (l, r)) :
    r.length < cs.length := by
  have h₁ := congrArg List.length (append_lexeme? h)
  have h₂ := List.length_pos_iff.mpr (lexeme?_ne_nil h)
  have h₃ := (List.dropWhile_suffix Text.isBlank (l := cs)).length_le
  simp only [List.length_append, List.length_cons, hc] at h₁ h₃
  omega

/-- The tokens of characters whose first one is byte `position` of the source. -/
def scanFrom (position : Nat) (cs : List Char) : List Token × Ending :=
  let start := position + width (cs.takeWhile Text.isBlank)
  match hc : cs.dropWhile Text.isBlank with
  | [] => ([], .finished start)
  | c :: rest =>
    match h : lexeme? c rest with
    | none => ([], .openText start)
    | some (l, r) =>
      have := length_lt_of_lexeme? hc h
      let stop := start + width l
      let (tokens, ending) := scanFrom stop r
      (⟨String.ofList l, start, stop⟩ :: tokens, ending)
termination_by cs.length

def scan (source : String) : List Token × Ending := scanFrom 0 source.toList

/-- Words are compared without regard to the case of ASCII letters. -/
def sameWord (a b : String) : Bool :=
  a.toList.map Char.toLower == b.toList.map Char.toLower

def spells (t : Token) (word : String) : Bool := sameWord t.text word

def undouble : List Char → List Char
  | '"' :: '"' :: cs => '"' :: undouble cs
  | c :: cs => c :: undouble cs
  | [] => []

/-- What a text token says: none for a token of another sort. -/
def content? (token : String) : Option String :=
  match token.toList with
  | '"' :: cs => some (String.ofList (undouble cs.dropLast))
  | _ => none

/-- Names start with a letter or an underscore and go on with these or numerals. -/
def isSymbolWord (word : String) : Bool :=
  match word.toList with
  | [] => false
  | c :: cs =>
    (Text.isLetter c || c == '_') &&
      cs.all fun c => Text.isLetter c || Text.isNumeral c || c == '_'

/-- Words that belong to control structures and name nothing. -/
def keywords : List String :=
  ["IF", "THEN", "ELSE", "END", "DO", "UNTIL", "WHILE", "REPEAT", "START", "NEXT", "STEP"]

def isKeyword (word : String) : Bool := keywords.any (sameWord · word)

end Token
end RpnMachine
