import RpnMachine.Proofs.Object.Shape
import RpnMachine.Proofs.Source.Words

/-! The grammar of source texts. -/
namespace RpnMachine

namespace Tree

mutual

/-- How many levels of objects there are. The clauses of a control structure are no level of their
own. -/
def nesting : Tree → Nat
  | composite (.control _) ts => 1 + nestingClauses ts
  | composite _ ts => 1 + nestingAll ts
  | _ => 1

def nestingAll : List Tree → Nat
  | [] => 0
  | t :: ts => max t.nesting (nestingAll ts)

def nestingClause : Tree → Nat
  | composite _ ts => nestingAll ts
  | _ => 0

def nestingClauses : List Tree → Nat
  | [] => 0
  | t :: ts => max t.nestingClause (nestingClauses ts)

end

end Tree

/-- What words can be derived for: one object, any number of them, or the clauses of a control
structure, each of which is followed by one of the words given. -/
inductive Phrase where
  | object (t : Tree)
  | body (ts : List Tree)
  | clauses (closers : List String) (ts : List Tree)

inductive Derives : List String → Phrase → Prop
  | word {w : String} {t : Tree} (h : Denotes w t) : Derives [w] (.object t)
  | quote {ws : List String} {t : Tree} (h : Derives ws (.object t)) :
    Derives ("'" :: ws ++ ["'"]) (.object (.composite .quote [t]))
  | list {ws : List String} {ts : List Tree} (h : Derives ws (.body ts)) :
    Derives ("\x7b" :: ws ++ ["\x7d"]) (.object (.composite .list ts))
  | program {opener closer : String} {ws : List String} {ts : List Tree}
    (hopener : opener = "«" ∨ opener = "<<") (h : Derives ws (.body ts))
    (hcloser : closer = "»" ∨ closer = ">>") :
    Derives (opener :: ws ++ [closer]) (.object (.composite .program ts))
  | control {c : Control} {opener w : String} {closers ws : List String} {ts : List Tree}
    (hc : c.words = opener :: closers) (hw : Token.sameWord w opener)
    (h : Derives ws (.clauses closers ts)) :
    Derives (w :: ws) (.object (.composite (.control c) ts))
  | nil : Derives [] (.body [])
  | cons {ws us : List String} {t : Tree} {ts : List Tree} (h : Derives ws (.object t))
    (hs : Derives us (.body ts)) : Derives (ws ++ us) (.body (t :: ts))
  | lastClause {closer w : String} {ws : List String} {ts : List Tree} (h : Derives ws (.body ts))
    (hw : Token.sameWord w closer) :
    Derives (ws ++ [w]) (.clauses [closer] [.composite .program ts])
  | clause {closer w : String} {closers ws us : List String} {ts cs : List Tree}
    (h : Derives ws (.body ts)) (hw : Token.sameWord w closer)
    (hs : Derives us (.clauses closers cs)) :
    Derives (ws ++ w :: us) (.clauses (closer :: closers) (.composite .program ts :: cs))

theorem not_derives_nil {ws : List String} {ts : List Tree} : ¬Derives ws (.clauses [] ts) := by
  intro h
  cases h

namespace Clause

/-- The words after this clause and those that follow it, up to the end of the structure. -/
inductive Leads : Clause → List String → Control → Prop
  | done {k : Clause} {closer : String} {c : Control} (h : (closer, .done c) ∈ k.endings) :
    Leads k [closer] c
  | next {k k' : Clause} {closer : String} {closers : List String} {c : Control}
    (h : (closer, .clause k') ∈ k.endings) (hs : Leads k' closers c) : Leads k (closer :: closers) c

/-- The words of a structure up to this clause. -/
def before : Clause → List String
  | ifTest => ["IF"]
  | ifThen => ["IF", "THEN"]
  | ifElse => ["IF", "THEN", "ELSE"]
  | doBody => ["DO"]
  | doTest => ["DO", "UNTIL"]
  | whileTest => ["WHILE"]
  | whileBody => ["WHILE", "REPEAT"]
  | startBody => ["START"]

def Sequel.before : Sequel → List String
  | clause k => k.before
  | done c => c.words

theorem before_append {k : Clause} {closer : String} {next : Sequel}
    (h : (closer, next) ∈ k.endings) : next.before = k.before ++ [closer] := by
  have hcheck : ∀ k : Clause, ∀ entry ∈ k.endings, entry.2.before = k.before ++ [entry.1] := by
    intro k
    cases k <;> decide
  exact hcheck k _ h

theorem Leads.words {k : Clause} {closers : List String} {c : Control} (h : k.Leads closers c) :
    c.words = k.before ++ closers := by
  induction h with
  | done h => exact before_append h
  | next h _ ih =>
    have hbefore := before_append h
    rw [Sequel.before] at hbefore
    rw [ih, hbefore, List.append_assoc, List.singleton_append]

theorem before_of_mem_openings {k : Clause} {opener : String} (h : (opener, k) ∈ Start.openings) :
    k.before = [opener] := by
  have hcheck : ∀ entry ∈ Start.openings, entry.2.before = [entry.1] := by decide
  exact hcheck _ h

theorem exists_leads {opener : String} {closers : List String} {c : Control}
    (h : c.words = opener :: closers) : ∃ k, (opener, k) ∈ Start.openings ∧ k.Leads closers c := by
  cases c with
  | ifThen =>
    cases h
    have hthen : Leads .ifThen ["END"] .ifThen := .done (by decide)
    exact ⟨.ifTest, by decide, .next (by decide) hthen⟩
  | ifThenElse =>
    cases h
    have helse : Leads .ifElse ["END"] .ifThenElse := .done (by decide)
    have hthen : Leads .ifThen ["ELSE", "END"] .ifThenElse := .next (by decide) helse
    exact ⟨.ifTest, by decide, .next (by decide) hthen⟩
  | doUntil =>
    cases h
    have htest : Leads .doTest ["END"] .doUntil := .done (by decide)
    exact ⟨.doBody, by decide, .next (by decide) htest⟩
  | whileRepeat =>
    cases h
    have hbody : Leads .whileBody ["END"] .whileRepeat := .done (by decide)
    exact ⟨.whileTest, by decide, .next (by decide) hbody⟩
  | startNext =>
    cases h
    exact ⟨.startBody, by decide, .done (by decide)⟩
  | startStep =>
    cases h
    exact ⟨.startBody, by decide, .done (by decide)⟩

end Clause

theorem Denotes.nesting {word : String} {t : Tree} (h : Denotes word t) : t.nesting = 1 := by
  cases h <;> rfl

theorem Denotes.ofRecipe?_recipe {word : String} {t : Tree} (h : Denotes word t) :
    Tree.ofRecipe? t.recipe = some t := by
  cases h <;> rfl

theorem Tree.nesting_pos (t : Tree) : 0 < t.nesting := by
  cases t with
  | composite c ts => cases c <;> simp [nesting]
  | _ => simp [nesting]

theorem Denotes.sound {word : String} {t : Tree} (h : Denotes word t) : t.Sound := by
  have hshaped : t.Shaped ∧ t.children = [] := by
    cases h with
    | symbol hword =>
      refine ⟨?_, rfl⟩
      rintro rfl
      cases hword
    | _ => exact ⟨trivial, rfl⟩
  apply Tree.sound_of_children hshaped.1
  rw [hshaped.2]
  simp

def Phrase.Sound : Phrase → Prop
  | object t => t.Sound
  | body ts => ∀ t ∈ ts, t.Sound
  | clauses closers ts => closers.length = ts.length ∧ ∀ t ∈ ts, t.Sound

theorem Derives.sound {ws : List String} {phrase : Phrase} (h : Derives ws phrase) :
    phrase.Sound := by
  have hprogram : ∀ {ts : List Tree}, Phrase.Sound (.body ts) → (Tree.composite .program ts).Sound :=
    fun hts => Tree.sound_of_children trivial hts
  induction h with
  | word h => exact h.sound
  | quote _ ih => exact Tree.sound_of_children (List.cons_ne_nil _ _) (List.forall_mem_singleton.mpr ih)
  | list _ ih => exact Tree.sound_of_children trivial ih
  | program _ _ _ ih => exact hprogram ih
  | @control c opener w closers ws ts hc _ _ ih =>
    refine Tree.sound_of_children ?_ ih.2
    rw [Tree.Shaped, hc, List.length_cons, ih.1]
  | nil => exact fun t ht => nomatch ht
  | cons _ _ ih ihs => exact List.forall_mem_cons.mpr ⟨ih, ihs⟩
  | lastClause _ _ ih => exact ⟨rfl, List.forall_mem_singleton.mpr (hprogram ih)⟩
  | clause _ _ _ ih ihs =>
    exact ⟨congrArg (· + 1) ihs.1, List.forall_mem_cons.mpr ⟨hprogram ih, ihs.2⟩⟩

def Token.words? (source : String) : Option (List String) :=
  match scan source with
  | (tokens, .finished _) => some (tokens.map Token.text)
  | (_, .openText _) => none

/-- The source text is derived for objects, with at most so many levels. -/
def Writes (source : String) (levels : Nat) (ts : List Tree) : Prop :=
  ∃ ws, Token.words? source = some ws ∧ Derives ws (.body ts) ∧ Tree.nestingAll ts ≤ levels

theorem Writes.sound {source : String} {levels : Nat} {ts : List Tree} (h : Writes source levels ts)
    :
    (Tree.composite .program ts).Sound := by
  obtain ⟨ws, -, hderives, -⟩ := h
  exact Tree.sound_of_children trivial hderives.sound

theorem Token.exists_scan_of_words? {source : String} {ws : List String}
    (h : words? source = some ws) :
    ∃ tokens p, scan source = (tokens, .finished p) ∧ tokens.map text = ws := by
  rw [words?] at h
  split at h
  · next tokens p hscan => exact ⟨tokens, p, hscan, Option.some_inj.mp h⟩
  · cases h

end RpnMachine
