import RpnMachine.Proofs.Object.LineBreaks
import RpnMachine.Proofs.Run.Capacity
import RpnMachine.Proofs.Run.View

/-! Where the objects of the stack are to be shown on one line each, an entry has no line breaks but
those in the texts and symbols of its object. These are not replaced, so that such an entry takes
several lines. -/
namespace RpnMachine

open Run Text

theorem Defect.lineBreaks_clauses (c : Control) (n : Nat) :
    lineBreaks (Defect.clauses c n).message = 0 := by
  have hwith : lineBreaks " with " = 0 := rfl
  have hclauses : lineBreaks " clauses" = 0 := rfl
  rw [message, lineBreaks_append, lineBreaks_append, lineBreaks_append, c.lineBreaks_name, hwith,
    hclauses, Number.lineBreaks_toString_nat n]

/-- To say what is wrong with clauses takes one line. -/
theorem Failure.lineBreaks_message {e : Error} (h : (Failure.error e).blamesClauses) :
    lineBreaks e.message = 0 := by
  cases e with
  | invalidObject d =>
    cases d with
    | clauses c n =>
      have hinvalid : lineBreaks "invalid object: " = 0 := rfl
      change lineBreaks ("invalid object: " ++ (Defect.clauses c n).message) = 0
      rw [lineBreaks_append, hinvalid, Defect.lineBreaks_clauses]
    | _ => cases h
  | _ => cases h

namespace StackView

def columns (settings : Settings) (level : Nat) : Nat :=
  max 1 (settings.width - (label level).utf8ByteSize)

/-- The entry of an object: what is seen of its text, or why it cannot be drawn. -/
inductive Enters (width : Nat) (flat : Bool) (t : Tree) : String → Prop
  | drawn (h : t.Drawable) : Enters width flat t (entry width (t.window width flat))
  | blamed {e : Error} (h : ¬t.Drawable) (he : (Failure.error e).blamesClauses) :
      Enters width flat t ("<" ++ e.message ++ ">")

def labelled (level : Nat) (entry : String) : String := label level ++ entry ++ "\n"

def lines (entries : List String) : String := String.join (entries.mapIdx labelled).reverse

theorem zipWith_labelled_range (entries : List String) :
    List.zipWith labelled (List.range entries.length) entries = entries.mapIdx labelled := by
  apply List.ext_getElem
  · simp
  · simp

theorem join_zipWith_reverse (entries : List String) :
    String.join (List.zipWith labelled (List.range entries.length).reverse entries) =
      lines entries.reverse := by
  rw [lines, ← zipWith_labelled_range, List.reverse_zipWith (by simp), List.reverse_reverse,
    List.length_reverse]

theorem lineBreaks_label (level : Nat) : lineBreaks (label level) = 0 := by
  have hcolon : lineBreaks ": " = 0 := rfl
  rw [label, lineBreaks_append, Number.lineBreaks_toString_nat, hcolon]

/-- One line break stands after every entry. -/
theorem lineBreaks_lines (entries : List String) :
    lineBreaks (lines entries) = entries.length + lineBreaksAll entries := by
  have hlabelled : ∀ labels : Nat → String, (∀ level, lineBreaks (labels level) = 0) →
      lineBreaksAll (entries.mapIdx fun level entry => labels level ++ entry ++ "\n") =
        entries.length + lineBreaksAll entries := by
    intro labels hlabels
    induction entries generalizing labels with
    | nil => rfl
    | cons entry entries ih =>
      have hbreak : lineBreaks "\n" = 1 := rfl
      rw [List.mapIdx_cons, lineBreaksAll_cons, ih _ fun level => hlabels (level + 1),
        lineBreaks_append, lineBreaks_append, hlabels 0, hbreak, List.length_cons,
        lineBreaksAll_cons]
      omega
  rw [lines, String.join, lineBreaks_foldl_append, lineBreaksAll, List.map_reverse,
    List.sum_reverse]
  exact (Nat.zero_add _).trans (hlabelled label lineBreaks_label)

/-- What is cut from a text has no more line breaks than the text. -/
theorem lineBreaks_entry_le (width : Nat) (text : String) :
    lineBreaks (entry width (.ofText width text)) ≤ lineBreaks text := by
  by_cases hfits : text.utf8ByteSize ≤ width
  · rw [entry_of_le hfits]
  · obtain ⟨rest, hrest⟩ := (isHead_head width text).exists_rest
    have hblanks : ∀ n, lineBreaks (String.ofList (List.replicate n '\x00')) = 0 := by
      intro n
      rw [lineBreaks_eq_zero, String.toList_ofList]
      intro hbreak
      exact absurd (List.eq_of_mem_replicate hbreak) (by decide)
    have hellipsis : lineBreaks "…" = 0 := rfl
    have htake : lineBreaks (String.ofList ((head width text).toList.take (width - 1))) ≤
        lineBreaks (head width text) := by
      rw [lineBreaks, lineBreaks, String.toList_ofList]
      exact (List.take_sublist _ _).count_le _
    have htext : lineBreaks text = lineBreaks (head width text) + lineBreaks rest := by
      rw [← lineBreaks_append, ← hrest]
    rw [entry_of_lt (Nat.not_le.mp hfits), shortened, lineBreaks_append, lineBreaks_append, hblanks,
      hellipsis]
    omega

/-- Line breaks in the texts and symbols of an object are in its entry if the text fits. Where the
entry is cut, some may be missing, and there are none if the object cannot be drawn. -/
structure KeepsLineBreaks (width : Nat) (t : Tree) (s : String) : Prop where
  le : lineBreaks s ≤ lineBreaksAll t.contents
  whole : t.Drawable → (t.rendering true).utf8ByteSize ≤ width →
    s = t.rendering true ∧ lineBreaks s = lineBreaksAll t.contents
  none : ¬t.Drawable → lineBreaks s = 0

theorem Enters.keepsLineBreaks {width : Nat} {t : Tree} {s : String}
    (h : Enters width true t s) : KeepsLineBreaks width t s := by
  cases h with
  | drawn h =>
    rw [Tree.window_eq_ofText]
    refine ⟨?_, fun _ hfits => ?_, fun hnot => absurd h hnot⟩
    · rw [← h.lineBreaks_rendering]
      exact lineBreaks_entry_le width _
    · rw [entry_of_le hfits]
      exact ⟨rfl, h.lineBreaks_rendering⟩
  | @blamed e h he =>
    have hopen : lineBreaks "<" = 0 := rfl
    have hclose : lineBreaks ">" = 0 := rfl
    have hnone : lineBreaks ("<" ++ e.message ++ ">") = 0 := by
      rw [lineBreaks_append, lineBreaks_append, hopen, hclose, Failure.lineBreaks_message he]
    exact ⟨hnone.trans_le (Nat.zero_le _), fun hdrawable => absurd hdrawable h, fun _ => hnone⟩

end StackView

namespace Machine

variable {m : Machine} {c : Nat} {v : Image}

theorem Represents.exists_exec_showLevel (hm : m.Represents c v) (settings : Settings) {level : Nat}
    (hl : level < v.stack.length) : ∃ entry m',
      exec (showLevel settings level) m = (.ok (StackView.label level ++ entry ++ "\n"), m') ∧
      m'.Represents c v ∧ StackView.Enters (StackView.columns settings level) settings.flat
        v.stack[level].tree entry := by
  obtain ⟨o, m', w, he, hm', hpost, -⟩ := agree_peek_draw (c := c) Window.put settings.flat
    (.ofWidth (StackView.columns settings level)) hl m m hm hm
  have hattempt : exec (attempt (acquiring (peek level)
      (renderWithin (StackView.columns settings level) settings.flat))) m = (.ok o, m') := by
    rw [exec_attempt]
    exact congrArg (fun r => (Except.ok r.1, r.2)) he
  cases o with
  | ok window =>
    obtain ⟨rfl, rfl, hdrawable⟩ := hpost
    exact ⟨_, m', exec_bind_ok hattempt _, hm', .drawn hdrawable⟩
  | error e =>
    obtain ⟨hnot, rfl, hblames⟩ := hpost
    cases e with
    | error e =>
      refine ⟨"<" ++ e.message ++ ">", m', (exec_bind_ok hattempt _).trans ?_, hm', ?_⟩
      · simp [String.append_assoc]
      · exact .blamed hnot hblames
    | corrupt | exhausted => cases hblames

theorem Represents.exists_exec_mapM_showLevel (hm : m.Represents c v) (settings : Settings)
    {levels : List Nat} (hlevels : ∀ level ∈ levels, level < v.stack.length) :
    ∃ entries m', exec (levels.mapM (showLevel settings)) m =
        (.ok (List.zipWith StackView.labelled levels entries), m') ∧ m'.Represents c v ∧
      List.Forall₂ (fun level entry => ∃ q, v.stack[level]? = some q ∧
        StackView.Enters (StackView.columns settings level) settings.flat q.tree entry)
        levels entries := by
  induction levels generalizing m with
  | nil => exact ⟨[], m, rfl, hm, .nil⟩
  | cons level levels ih =>
    have hl := hlevels level (by simp)
    obtain ⟨entry, m₁, he, hm₁, hentry⟩ := hm.exists_exec_showLevel settings hl
    obtain ⟨entries, m₂, he', hm₂, hentries⟩ := ih hm₁ fun level h => hlevels level (by simp [h])
    refine ⟨entry :: entries, m₂, ?_, hm₂, .cons ⟨_, List.getElem?_eq_getElem hl, hentry⟩ hentries⟩
    rw [List.mapM_cons, exec_bind_ok he, exec_bind_ok he']
    rfl

/-- Every level of the stack is shown, and nothing changes. -/
theorem Represents.exists_exec_showStack (hm : m.Represents c v) (settings : Settings) :
    ∃ entries m', exec (showStack settings) m = (.ok (StackView.lines entries), m') ∧
      m'.Represents c v ∧
      List.Forall₂ (fun e => StackView.Enters (StackView.columns settings e.2) settings.flat e.1)
        (v.stack.map Place.tree).zipIdx entries := by
  have hlevels : ∀ level ∈ (List.range v.stack.length).reverse, level < v.stack.length := by simp
  obtain ⟨m₁, hdepth, hm₁⟩ := yields_depth m hm
  obtain ⟨entries, m₂, hlines, hm₂, hentries⟩ := hm₁.exists_exec_mapM_showLevel settings hlevels
  have hlength := hentries.length_eq
  rw [List.length_reverse, List.length_range] at hlength
  rw [← List.forall₂_reverse_iff, List.reverse_reverse] at hentries
  refine ⟨entries.reverse, m₂, ?_, hm₂, List.forall₂_iff_get.mpr ⟨?_, fun level hl hl' => ?_⟩⟩
  · rw [showStack, exec_bind_ok hdepth, exec_bind_ok hlines, hlength,
      StackView.join_zipWith_reverse]
    rfl
  · simpa using hlength
  · obtain ⟨q, hq, henters⟩ := (List.forall₂_iff_get.mp hentries).2 level (by simpa using hl) hl'
    simp only [List.get_eq_getElem, List.getElem_range, List.getElem?_eq_some_iff] at hq henters
    obtain ⟨_, rfl⟩ := hq
    simpa only [List.get_eq_getElem, List.getElem_zipIdx, List.getElem_map, Nat.zero_add] using
      henters

/-- The stack is shown on as many lines as it has levels, each with the label of its level. -/
def ShowsOneLineEach (m : Machine) (settings : Settings) : Prop :=
  ∃ entries, entries.length = m.heap.depth ∧
    (exec (showStack settings) m).1 = .ok (StackView.lines entries) ∧
    ∀ entry ∈ entries, Text.lineBreaks entry = 0

/-- The stack has these objects, and an entry is shown for each of them after the label of its
level. The entries have no line breaks but those in the texts and symbols of the objects. -/
structure ShowsFlat (m : Machine) (settings : Settings) (ts : List Tree) (entries : List String) :
    Prop where
  stackBytes : m.stackBytes = ts.map fun t => some t.encode
  length : entries.length = m.heap.depth
  showStack : (exec (showStack settings) m).1 = .ok (StackView.lines entries)
  lineBreaks : Text.lineBreaks (StackView.lines entries) = m.heap.depth + lineBreaksAll entries
  keeps : List.Forall₂ (fun e => StackView.KeepsLineBreaks (StackView.columns settings e.2) e.1)
    ts.zipIdx entries
  oneLineEach : (∀ t ∈ ts, lineBreaksAll t.contents = 0) → m.ShowsOneLineEach settings

theorem Represents.exists_showsFlat (hm : m.Represents c v) {settings : Settings}
    (hflat : settings.flat = true) :
    ∃ entries, m.ShowsFlat settings (v.stack.map Place.tree) entries := by
  obtain ⟨entries, m', he, -, hentries⟩ := hm.exists_exec_showStack settings
  rw [hflat] at hentries
  have hkeeps := hentries.imp fun _ _ henters => henters.keepsLineBreaks
  have hlength : entries.length = m.heap.depth := by
    obtain ⟨kept, free, hl⟩ := hm
    rw [← hentries.length_eq, List.length_zipIdx, List.length_map, hl.depth_eq]
  refine ⟨entries, hm.stackBytes_eq_trees, hlength, by rw [he], ?_, hkeeps, fun hnone => ?_⟩
  · rw [StackView.lineBreaks_lines, hlength]
  · refine ⟨entries, hlength, by rw [he], fun entry hentry => ?_⟩
    obtain ⟨level, hlevel, rfl⟩ := List.mem_iff_getElem.mp hentry
    have hkept := (List.forall₂_iff_get.mp hkeeps).2 level (hkeeps.length_eq ▸ hlevel) hlevel
    rw [List.get_eq_getElem, List.get_eq_getElem, List.getElem_zipIdx] at hkept
    exact Nat.le_zero.mp (hkept.le.trans_eq (hnone _ (List.getElem_mem _)))

/-- Whatever is on the stack and however many columns there are, it is shown on one line each, but
for the line breaks in texts and symbols. -/
theorem exists_showsFlat_of_acts (hc : c < Word.bound Heap.slotSize) {actions : List Action}
    (h : Acts (ofCapacity c) actions m) {settings : Settings} (hflat : settings.flat = true) :
    ∃ ts entries, m.ShowsFlat settings ts entries := by
  obtain ⟨v, hm, -⟩ := h.exists_represents (represents_ofCapacity hc)
  exact ⟨_, hm.exists_showsFlat hflat⟩

/-- A program lies below a list, whose text has a line break. -/
def lineBroken : List Action := [.line 1 "« 1 \"a\" » \x7b \"b\nc\" \x7d"]

theorem exists_showsFlat_lineBroken : ∃ m, Acts (ofCapacity 64) lineBroken m ∧
    (exec (showStack {}) m).1 = .ok "2: « 1 \"a\" »\n1: \x7b \"b\nc\" \x7d\n" ∧
    ∃ ts entries, m.ShowsFlat {} ts entries := by
  have hacts : Acts (ofCapacity 64) lineBroken _ := .cons ⟨by decide, trivial⟩ (.nil _)
  exact ⟨_, hacts, by decide +kernel, exists_showsFlat_of_acts (by decide) hacts rfl⟩

/-- A text that is given on two lines is shown on two lines. -/
theorem not_showsOneLineEach_text : ∃ m, Acts (ofCapacity 64) [.line 1 "\"a\nb\""] m ∧
    (exec (showStack { flat := true }) m).1 = .ok "1: \"a\nb\"\n" ∧
    ¬m.ShowsOneLineEach { flat := true } := by
  have hshown : (exec (showStack { flat := true })
      ((ofCapacity 64).act (.line 1 "\"a\nb\""))).1 = .ok "1: \"a\nb\"\n" := by decide +kernel
  refine ⟨_, .cons ⟨by decide, trivial⟩ (.nil _), hshown, fun h => ?_⟩
  obtain ⟨entries, hlength, hlines, hnone⟩ := h
  have hdepth : ((ofCapacity 64).act (.line 1 "\"a\nb\"")).heap.depth = 1 := by decide +kernel
  have htext : "1: \"a\nb\"\n" = StackView.lines entries :=
    Except.ok.inj (hshown.symm.trans hlines)
  have hbreaks : Text.lineBreaks "1: \"a\nb\"\n" = 2 := rfl
  rw [htext, StackView.lineBreaks_lines, hlength, hdepth, lineBreaksAll_eq_zero.mpr hnone]
    at hbreaks
  cases hbreaks

end Machine
end RpnMachine
