import RpnMachine.Machine.Rendering
import RpnMachine.Proofs.Object.Tree

/-! The text of an object, read off its tree. -/
namespace RpnMachine.Tree

mutual

def pieces (flat : Bool) (indent : Nat) : Tree → List String
  | composite .quote ts => "'" :: piecesAll flat indent ts ++ ["'"]
  | composite .list [] => ["\x7b \x7d"]
  | composite .list (t :: ts) => "\x7b " :: piecesAll flat indent (t :: ts) ++ [" \x7d"]
  | composite .program [] => ["« »"]
  | composite .program (t :: ts) =>
    "«" :: Layout.newline flat (indent + 1) ++ piecesAll flat (indent + 1) (t :: ts) ++
      Layout.newline flat indent ++ ["»"]
  | composite (.control c) ts => piecesClauses flat indent c.words ts
  | integer negative magnitude => Layout.pieces (integer negative magnitude).value
  | decimal bits => Layout.pieces (decimal bits).value
  | text s => Layout.pieces (text s).value
  | symbol s => Layout.pieces (symbol s).value
  | command c => Layout.pieces (command c).value

def piecesAll (flat : Bool) (indent : Nat) : List Tree → List String
  | [] => []
  | [t] => t.pieces flat indent
  | t :: u :: ts => t.pieces flat indent ++ " " :: piecesAll flat indent (u :: ts)

/-- The objects of a clause on a new line, if there are any. -/
def piecesBody (flat : Bool) (indent : Nat) : Tree → List String
  | composite _ (t :: ts) => Layout.newline flat indent ++ piecesAll flat indent (t :: ts)
  | _ => []

def piecesClauses (flat : Bool) (indent : Nat) : List String → List Tree → List String
  | word :: words, t :: ts =>
    word :: piecesBody flat (indent + 1) t ++ Layout.newline flat indent ++
      piecesClauses flat indent words ts
  | words, _ => words.take 1

end

theorem piecesBody_eq (flat : Bool) (indent : Nat) (t : Tree) :
    t.piecesBody flat indent = if t.children.isEmpty then []
      else Layout.newline flat indent ++ piecesAll flat indent t.children := by
  cases t with
  | composite c ts => cases ts <;> simp [piecesBody, children]
  | _ => simp [piecesBody, children]

def rendering (flat : Bool) (t : Tree) : String := (t.pieces flat 0).foldl (· ++ ·) ""

theorem utf8_foldl_append (pieces : List String) (s : String) :
    Text.utf8 (pieces.foldl (· ++ ·) s) = Text.utf8 s ++ pieces.flatMap Text.utf8 := by
  induction pieces generalizing s with
  | nil => simp
  | cons piece pieces ih => simp [ih]

theorem utf8_rendering (flat : Bool) (t : Tree) :
    Text.utf8 (t.rendering flat) = (t.pieces flat 0).flatMap Text.utf8 := by
  rw [rendering, utf8_foldl_append, Text.utf8_empty, List.nil_append]

/-- The pieces of a composite, less the marks on both sides. -/
def piecesInside (flat : Bool) (indent : Nat) : Composite → List Tree → List String
  | .quote, ts => piecesAll flat indent ts
  | .list, [] => ["\x7b \x7d"]
  | .list, ts => "\x7b " :: piecesAll flat indent ts ++ [" \x7d"]
  | .program, [] => ["« »"]
  | .program, ts =>
    "«" :: Layout.newline flat (indent + 1) ++ piecesAll flat (indent + 1) ts ++
      Layout.newline flat indent ++ ["»"]
  | .control c, ts => piecesClauses flat indent c.words ts

theorem pieces_composite (flat : Bool) (indent : Nat) (c : Composite) (ts : List Tree) :
    (composite c ts).pieces flat indent =
      Run.quoteMark c ++ piecesInside flat indent c ts ++ Run.quoteMark c := by
  cases c with
  | quote => simp [pieces, piecesInside, Run.quoteMark]
  | list => cases ts <;> simp [pieces, piecesInside, Run.quoteMark]
  | program => cases ts <;> simp [pieces, piecesInside, Run.quoteMark]
  | control c => simp [pieces, piecesInside, Run.quoteMark]

/-- Every control structure inside has as many clauses as it has words for. -/
def Complete (t : Tree) : Prop :=
  ∀ offset c ts, t.At offset (composite (.control c) ts) → c.words.length = ts.length + 1

theorem Complete.of_mem_children {t s : Tree} (h : t.Complete) (hs : s ∈ t.children) :
    s.Complete := by
  intro offset c ts hat
  obtain ⟨i, hi⟩ := hat.of_mem_children hs
  exact h i c ts hi

theorem Complete.of_encode_eq {t t' : Tree} (h : t.Complete) (ht : t'.Fits)
    (he : t'.encode = t.encode) : t'.Complete := by
  intro offset c ts hat
  obtain ⟨s, hs, hencode⟩ := hat.of_encode_eq ht he.symm
  have hfits : (composite (.control c) ts).Fits := by
    have := hat.add_size_le
    unfold Fits at *
    omega
  have hlength : s.children.length = ts.length := by
    have hmap := congrArg List.length (map_encode_children_of_encode_eq hfits hencode)
    rwa [List.length_map, List.length_map] at hmap
  rw [eq_composite_of_kind (kind_eq_of_encode_eq hencode)] at hs
  rw [h offset c s.children hs, hlength]

/-- There is nothing to keep the object from being drawn. Of a clause only what it holds is drawn,
whatever the clause is itself. -/
inductive Drawable : Tree → Prop
  | atom {t : Tree} (h : ∀ c, t.kind ≠ .composite c) : Drawable t
  | plain {c : Composite} {ts : List Tree} (hc : ∀ k, c ≠ .control k) (h : ∀ t ∈ ts, Drawable t) :
      Drawable (composite c ts)
  | control {k : Control} {ts : List Tree} (hlength : k.words.length = ts.length + 1)
      (h : ∀ t ∈ ts, ∀ s ∈ t.children, Drawable s) : Drawable (composite (.control k) ts)

theorem drawable_control_iff {k : Control} {ts : List Tree} :
    (composite (.control k) ts).Drawable ↔
      k.words.length = ts.length + 1 ∧ ∀ t ∈ ts, ∀ s ∈ t.children, s.Drawable := by
  constructor
  · intro h
    cases h with
    | atom h => exact absurd rfl (h (.control k))
    | plain hc => exact absurd rfl (hc k)
    | control hlength h => exact ⟨hlength, h⟩
  · exact fun h => .control h.1 h.2

theorem drawable_plain_iff {c : Composite} {ts : List Tree} (hc : ∀ k, c ≠ .control k) :
    (composite c ts).Drawable ↔ ∀ t ∈ ts, t.Drawable := by
  constructor
  · intro h
    cases h with
    | atom h => exact absurd rfl (h c)
    | plain _ h => exact h
    | control => exact absurd rfl (hc _)
  · exact .plain hc

theorem Complete.drawable {t : Tree} (h : t.Complete) : t.Drawable := by
  -- What is drawn of a clause is two levels further in, hence the induction on the height.
  induction hn : t.height using Nat.strong_induction_on generalizing t with
  | _ n ih =>
    have hchild : ∀ s ∈ t.children, s.Drawable := fun s hs =>
      ih _ (hn ▸ height_lt_of_mem_children hs) (h.of_mem_children hs) rfl
    cases t with
    | composite c ts =>
      by_cases hc : ∃ k, c = .control k
      · obtain ⟨k, rfl⟩ := hc
        refine .control (h 0 k ts (.self _)) fun t ht s hs => ?_
        have ht' := height_lt_of_mem_children (t := composite (.control k) ts) ht
        have hs' := height_lt_of_mem_children hs
        exact ih _ (by omega) ((h.of_mem_children ht).of_mem_children hs) rfl
      · rw [not_exists] at hc
        exact .plain hc hchild
    | integer negative magnitude =>
      refine .atom fun c hc => ?_
      rw [kind, recipe, Recipe.kind] at hc
      split_ifs at hc
    | _ => exact .atom fun c hc => by cases hc

/-! The bytes of an object tell its text. -/

variable {flat : Bool} {indent : Nat}

theorem piecesAll_congr {ts ts' : List Tree}
    (h : List.Forall₂ (fun t' t => t'.pieces flat indent = t.pieces flat indent) ts' ts) :
    piecesAll flat indent ts' = piecesAll flat indent ts := by
  induction h with
  | nil => rfl
  | cons ht hts ih =>
    cases hts with
    | nil => rw [piecesAll, piecesAll, ht]
    | cons => rw [piecesAll, piecesAll, ht, ih]

theorem piecesClauses_congr {words : List String} {ts ts' : List Tree}
    (h : List.Forall₂ (fun t' t => t'.piecesBody flat (indent + 1) = t.piecesBody flat (indent + 1))
      ts' ts) : piecesClauses flat indent words ts' = piecesClauses flat indent words ts := by
  induction h generalizing words with
  | nil => rfl
  | cons ht _ ih =>
    cases words with
    | nil => rfl
    | cons word words => rw [piecesClauses, piecesClauses, ht, ih]

theorem pieces_eq_of_kind {t : Tree} (h : ∀ c, t.kind ≠ .composite c) :
    t.pieces flat indent = Layout.pieces t.value := by
  cases t with
  | composite c ts => exact absurd rfl (h c)
  | _ => rw [pieces]

theorem piecesBody_eq_of_encode_eq {t t' : Tree} (ht : t.Fits) (he : t'.encode = t.encode)
    (h : ∀ s ∈ t.children, ∀ s' : Tree, s'.encode = s.encode →
      s'.pieces flat indent = s.pieces flat indent) :
    t'.piecesBody flat indent = t.piecesBody flat indent := by
  have hchildren := map_encode_children_of_encode_eq ht he
  have hempty : t'.children.isEmpty = t.children.isEmpty := by
    rw [← List.isEmpty_map (f := encode), hchildren, List.isEmpty_map]
  rw [piecesBody_eq, piecesBody_eq, hempty, piecesAll_congr (forall₂_of_map_encode_eq hchildren h)]

theorem pieces_composite_congr {c : Composite} {ts ts' : List Tree}
    (h : ∀ indent, List.Forall₂ (fun t' t => t'.pieces flat indent = t.pieces flat indent) ts' ts)
    (hbody : List.Forall₂
      (fun t' t => t'.piecesBody flat (indent + 1) = t.piecesBody flat (indent + 1)) ts' ts) :
    (composite c ts').pieces flat indent = (composite c ts).pieces flat indent := by
  cases c with
  | quote => rw [pieces, pieces, piecesAll_congr (h indent)]
  | list =>
    have hall := piecesAll_congr (h indent)
    cases h indent with
    | nil => rfl
    | cons => rw [pieces, pieces, hall]
  | program =>
    have hall := piecesAll_congr (h (indent + 1))
    cases h (indent + 1) with
    | nil => rfl
    | cons => rw [pieces, pieces, hall]
  | control c => rw [pieces, pieces, piecesClauses_congr hbody]

theorem pieces_eq_of_encode_eq {t t' : Tree} (ht : t.Fits) (he : t'.encode = t.encode) :
    t'.pieces flat indent = t.pieces flat indent := by
  -- The children of a clause are two levels further in, hence the induction on the height.
  induction hn : t.height using Nat.strong_induction_on generalizing t t' indent with
  | _ n ih =>
    have hkind := kind_eq_of_encode_eq he
    by_cases hc : ∃ c, t.kind = .composite c
    · obtain ⟨c, hc⟩ := hc
      have hchildren := map_encode_children_of_encode_eq ht he
      have hinside : ∀ s ∈ t.children, s.Fits ∧ s.height < n :=
        fun s hs => ⟨ht.of_mem_children hs, hn ▸ height_lt_of_mem_children hs⟩
      rw [eq_composite_of_kind (hkind.trans hc), eq_composite_of_kind hc]
      apply pieces_composite_congr
      · intro indent
        apply forall₂_of_map_encode_eq hchildren
        intro s hs s' hs'
        exact ih _ (hinside s hs).2 (hinside s hs).1 hs' rfl
      · apply forall₂_of_map_encode_eq hchildren
        intro s hs s' hs'
        apply piecesBody_eq_of_encode_eq (hinside s hs).1 hs'
        intro u hu u' hu'
        have hheight := height_lt_of_mem_children hu
        exact ih _ (hheight.trans (hinside s hs).2) ((hinside s hs).1.of_mem_children hu) hu' rfl
    · rw [not_exists] at hc
      rw [pieces_eq_of_kind hc, pieces_eq_of_kind (hkind ▸ hc), value_eq_of_encode_eq ht he]

theorem rendering_eq_of_encode_eq {t t' : Tree} (ht : t.Fits) (he : t'.encode = t.encode) :
    t'.rendering flat = t.rendering flat := by
  rw [rendering, rendering, pieces_eq_of_encode_eq ht he]

end RpnMachine.Tree
