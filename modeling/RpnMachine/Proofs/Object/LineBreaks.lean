import RpnMachine.Proofs.Number.Spelling
import RpnMachine.Proofs.Object.Pieces

/-! On one line the text of an object has no line breaks but those in the texts and symbols that it
is drawn with, and it has all of these. -/
namespace RpnMachine

namespace Text

def lineBreaks (s : String) : Nat := s.toList.count '\n'

def lineBreaksAll (ss : List String) : Nat := (ss.map lineBreaks).sum

theorem lineBreaks_eq_zero {s : String} : lineBreaks s = 0 ↔ '\n' ∉ s.toList := List.count_eq_zero

@[simp] theorem lineBreaks_append (s s' : String) :
    lineBreaks (s ++ s') = lineBreaks s + lineBreaks s' := by
  rw [lineBreaks, String.toList_append, List.count_append]
  rfl

@[simp] theorem lineBreaksAll_nil : lineBreaksAll [] = 0 := rfl

@[simp] theorem lineBreaksAll_cons (s : String) (ss : List String) :
    lineBreaksAll (s :: ss) = lineBreaks s + lineBreaksAll ss := by
  rw [lineBreaksAll, List.map_cons, List.sum_cons]
  rfl

@[simp] theorem lineBreaksAll_append (ss ss' : List String) :
    lineBreaksAll (ss ++ ss') = lineBreaksAll ss + lineBreaksAll ss' := by
  rw [lineBreaksAll, List.map_append, List.sum_append]
  rfl

theorem lineBreaksAll_eq_zero {ss : List String} :
    lineBreaksAll ss = 0 ↔ ∀ s ∈ ss, lineBreaks s = 0 := by
  rw [lineBreaksAll, List.sum_eq_zero_iff, List.forall_mem_map]

theorem lineBreaks_foldl_append (pieces : List String) (s : String) :
    lineBreaks (pieces.foldl (· ++ ·) s) = lineBreaks s + lineBreaksAll pieces := by
  induction pieces generalizing s with
  | nil => rfl
  | cons piece pieces ih =>
    rw [List.foldl_cons, ih, lineBreaks_append, lineBreaksAll_cons, Nat.add_assoc]

end Text

namespace Number

open Literal Text

theorem Literal.Spells.lineBreaks {l : Literal} {s : String} (h : l.Spells s.toList) :
    lineBreaks s = 0 := by
  rw [lineBreaks_eq_zero]
  intro hbreak
  exact absurd (h.isNumberChar _ hbreak) (by decide)

theorem lineBreaks_toString (i : Int) : lineBreaks (toString i) = 0 :=
  (spells_toString i).lineBreaks

theorem lineBreaks_toString_nat (n : Nat) : lineBreaks (toString n) = 0 := lineBreaks_toString n

/-- Also if the decimal is infinite or not a number. -/
theorem lineBreaks_decimalText (bits : UInt64) : lineBreaks (decimalText bits) = 0 := by
  have hpositional : ∀ n d, lineBreaks (positional (Nat.toDigits 10 n) d) = 0 := by
    intro n d
    obtain ⟨l, hl, -⟩ := spellsDecimal_positional false Nat.toDigits_ne_nil (digits_toDigits n) d
    exact hl.lineBreaks
  have hscientific : ∀ n d, lineBreaks (scientific (Nat.toDigits 10 n) d) = 0 := by
    intro n d
    obtain ⟨l, hl, -⟩ := spellsDecimal_scientific false Nat.toDigits_ne_nil (digits_toDigits n) d
    exact hl.lineBreaks
  have hsign : lineBreaks (if bits < 0x8000000000000000 then "" else "-") = 0 := by
    split_ifs <;> rfl
  simp only [decimalText]
  generalize (if bits < 0x8000000000000000 then "" else "-") = sign at hsign ⊢
  split_ifs
  · rfl
  · rw [lineBreaks_append, hsign]
    rfl
  · rw [lineBreaks_append, hsign]
    rfl
  · rw [lineBreaks_append, hsign, hpositional]
  · rw [lineBreaks_append, hsign, hscientific]

end Number

namespace Layout

open Text

theorem lineBreaks_doubled (s : String) : lineBreaks (doubled s) = lineBreaks s := by
  rw [lineBreaks, doubled, String.toList_ofList, lineBreaks]
  induction s.toList with
  | nil => rfl
  | cons c cs ih =>
    rw [List.flatMap_cons, List.count_append, ih, List.count_cons, Nat.add_comm]
    by_cases hquote : c = '"'
    · rw [hquote]
      rfl
    · rw [if_neg hquote, List.count_singleton]

end Layout

theorem Command.lineBreaks_name (c : Command) : Text.lineBreaks c.name = 0 := by cases c <;> rfl

theorem Control.lineBreaks_name (c : Control) : Text.lineBreaks c.name = 0 := by cases c <;> rfl

theorem Control.lineBreaks_of_mem_words (c : Control) :
    ∀ word ∈ c.words, Text.lineBreaks word = 0 := by
  cases c <;> decide

namespace Tree

open Text

mutual

/-- The texts and symbols that an object is drawn with. -/
def contents : Tree → List String
  | composite (.control _) ts => contentsClauses ts
  | composite _ ts => contentsAll ts
  | text s | symbol s => [s]
  | _ => []

def contentsAll : List Tree → List String
  | [] => []
  | t :: ts => t.contents ++ contentsAll ts

def contentsBody : Tree → List String
  | composite _ ts => contentsAll ts
  | _ => []

/-- Of clauses only what they hold is drawn. -/
def contentsClauses : List Tree → List String
  | [] => []
  | t :: ts => contentsBody t ++ contentsClauses ts

end

variable {indent : Nat} {t : Tree} {ts : List Tree}

theorem lineBreaksAll_pieces_atom (h : ∀ c, t.kind ≠ .composite c) :
    lineBreaksAll (t.pieces true indent) = lineBreaksAll t.contents := by
  cases t with
  | composite c ts => exact absurd rfl (h c)
  | integer negative magnitude =>
    simp only [pieces, value, Layout.pieces, contents, lineBreaksAll_cons, lineBreaksAll_nil,
      Number.lineBreaks_toString]
  | decimal bits => simp [pieces, value, Layout.pieces, contents, Number.lineBreaks_decimalText]
  | command c => simp [pieces, value, Layout.pieces, contents, Command.lineBreaks_name]
  | symbol s => simp [pieces, value, Layout.pieces, contents]
  | text s =>
    have hquote : lineBreaks "\"" = 0 := rfl
    simp [pieces, value, Layout.pieces, contents, Layout.lineBreaks_doubled, hquote]

theorem lineBreaksAll_piecesAll
    (h : ∀ t ∈ ts, lineBreaksAll (t.pieces true indent) = lineBreaksAll t.contents) :
    lineBreaksAll (piecesAll true indent ts) = lineBreaksAll (contentsAll ts) := by
  induction ts with
  | nil => rfl
  | cons t ts ih =>
    have ht := h t (by simp)
    have hts := ih fun t ht => h t (by simp [ht])
    cases ts with
    | nil => rw [piecesAll, contentsAll, contentsAll, List.append_nil, ht]
    | cons u us =>
      have hblank : lineBreaks " " = 0 := rfl
      rw [piecesAll, contentsAll, lineBreaksAll_append, lineBreaksAll_append, lineBreaksAll_cons,
        hblank, ht, hts, Nat.zero_add]

theorem lineBreaksAll_newline : lineBreaksAll (Layout.newline true indent) = 0 := rfl

theorem lineBreaksAll_piecesBody
    (h : ∀ s ∈ t.children, lineBreaksAll (s.pieces true indent) = lineBreaksAll s.contents) :
    lineBreaksAll (t.piecesBody true indent) = lineBreaksAll (contentsBody t) := by
  cases t with
  | composite c ts =>
    have hts := lineBreaksAll_piecesAll h
    cases ts with
    | nil => rfl
    | cons t ts =>
      rw [piecesBody, contentsBody, lineBreaksAll_append, lineBreaksAll_newline, Nat.zero_add]
      exact hts
  | _ => rfl

theorem lineBreaksAll_piecesClauses {words : List String} (hlength : words.length = ts.length + 1)
    (hwords : ∀ word ∈ words, lineBreaks word = 0)
    (h : ∀ t ∈ ts, ∀ s ∈ t.children,
      lineBreaksAll (s.pieces true (indent + 1)) = lineBreaksAll s.contents) :
    lineBreaksAll (piecesClauses true indent words ts) = lineBreaksAll (contentsClauses ts) := by
  induction ts generalizing words with
  | nil =>
    obtain ⟨word, rfl⟩ := List.length_eq_one_iff.mp hlength
    simp [piecesClauses, contentsClauses, hwords word (by simp)]
  | cons t ts ih =>
    cases words with
    | nil => cases hlength
    | cons word words =>
      have hbody := lineBreaksAll_piecesBody (h t (by simp))
      have hrest := ih (Nat.succ.inj hlength) (fun word hword => hwords word (by simp [hword]))
        fun t ht => h t (by simp [ht])
      simp only [piecesClauses, contentsClauses, lineBreaksAll_append, lineBreaksAll_cons,
        lineBreaksAll_newline, hwords word (by simp), hbody, hrest, Nat.zero_add, Nat.add_zero]

theorem Drawable.lineBreaksAll_pieces (h : t.Drawable) (indent : Nat) :
    lineBreaksAll (t.pieces true indent) = lineBreaksAll t.contents := by
  induction h generalizing indent with
  | atom h => exact lineBreaksAll_pieces_atom h
  | @plain c ts hc _ ih =>
    have hall : ∀ indent,
        lineBreaksAll (piecesAll true indent ts) = lineBreaksAll (contentsAll ts) := fun indent =>
      lineBreaksAll_piecesAll fun t ht => ih t ht indent
    cases c with
    | control k => exact absurd rfl (hc k)
    | quote =>
      have hmark : lineBreaks "'" = 0 := rfl
      simp [pieces, contents, hall, hmark]
    | list =>
      cases ts with
      | nil => rfl
      | cons t ts =>
        have hopen : lineBreaks "\x7b " = 0 := rfl
        have hclose : lineBreaks " \x7d" = 0 := rfl
        simp [pieces, contents, hall, hopen, hclose]
    | program =>
      cases ts with
      | nil => rfl
      | cons t ts =>
        have hopen : lineBreaks "«" = 0 := rfl
        have hclose : lineBreaks "»" = 0 := rfl
        simp [pieces, contents, hall, hopen, hclose, lineBreaksAll_newline]
  | @control k ts hlength _ ih =>
    rw [pieces, contents]
    apply lineBreaksAll_piecesClauses hlength k.lineBreaks_of_mem_words
    exact fun t ht s hs => ih t ht s hs _

/-- On one line no line breaks are added, and none are left out. -/
theorem Drawable.lineBreaks_rendering (h : t.Drawable) :
    lineBreaks (t.rendering true) = lineBreaksAll t.contents := by
  rw [rendering, lineBreaks_foldl_append, h.lineBreaksAll_pieces 0]
  exact Nat.zero_add _

end Tree
end RpnMachine
