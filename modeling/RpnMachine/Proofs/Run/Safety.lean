import RpnMachine.Console.StackView
import RpnMachine.Proofs.Run.WellFormed

/-! No source text can break a machine. Whatever lines it is given, a line fails only for a reason
that has to do with what it says or with lack of memory, and the stack can be shown at any time. -/
namespace RpnMachine

namespace Token

/-- The token is what the source has between two of its characters, and its bytes are those there.
-/
def Cuts (source : List Char) (t : Token) : Prop :=
  ∃ before after, source = before ++ t.text.toList ++ after ∧ t.start = width before ∧
    t.stop = width (before ++ t.text.toList)

theorem cuts_of_mem_scanFrom (position : Nat) (cs before : List Char)
    (hwidth : position = width before) :
    ∀ t ∈ (scanFrom position cs).1, t.Cuts (before ++ cs) := by
  fun_induction scanFrom position cs generalizing before with
  | case1 => simp
  | case2 => simp
  | case3 position cs start c rest hc l r h _ stop tokens ending hscan ih =>
    rw [hscan] at ih
    have hsource : before ++ cs = before ++ cs.takeWhile Text.isBlank ++ l ++ r := by
      rw [List.append_assoc, append_lexeme? h, ← hc, List.append_assoc, List.takeWhile_append_dropWhile]
    have hstart : start = width (before ++ cs.takeWhile Text.isBlank) := by
      rw [width_append, ← hwidth]
    have hstop : stop = width (before ++ cs.takeWhile Text.isBlank ++ l) := by
      rw [width_append, ← hstart]
    rw [hsource]
    refine List.forall_mem_cons.mpr ⟨?_, ?_⟩
    · exact ⟨_, r, by rw [String.toList_ofList], hstart, by rw [String.toList_ofList, hstop]⟩
    · exact ih _ hstop

theorem cuts_of_mem_scan {source : String} {t : Token} (h : t ∈ (scan source).1) :
    t.Cuts source.toList := cuts_of_mem_scanFrom 0 source.toList [] rfl t h

end Token

/-- What is seen of an object through a window. -/
def Tree.window (width : Nat) (flat : Bool) (t : Tree) : Window :=
  (t.pieces flat 0).foldl Window.put (.ofWidth width)

namespace StackView

def line (settings : Settings) (level : Nat) (t : Tree) : String :=
  let width := max 1 (settings.width - (label level).utf8ByteSize)
  label level ++ entry width (t.window width settings.flat) ++ "\n"

def text (settings : Settings) (ts : List Tree) : String :=
  String.join (ts.zipIdx.map fun entry => line settings entry.2 entry.1).reverse

end StackView

namespace Run

variable {α β : Type} {c : Nat} {v w : Image}

theorem Agree.yields {act : Run α} {a : α}
    (h : Agree c c v act act (fun b v' => b = a ∧ v' = w) fun _ _ => False) :
    Yields c v act (.ok a) w := by
  intro m hm
  obtain ⟨o, m', v', he, hm', hpost, -⟩ := h m m hm hm
  cases o with
  | ok b =>
    obtain ⟨rfl, rfl⟩ := hpost
    exact ⟨m', he, hm'⟩
  | error e => exact hpost.elim

theorem yields_mapM {f : α → Run β} {xs : List α} {bs : List β}
    (h : List.Forall₂ (fun x b => Yields c v (f x) (.ok b) v) xs bs) :
    Yields c v (xs.mapM f) (.ok bs) v := by
  induction h with
  | nil =>
    rw [List.mapM_nil]
    exact .pure []
  | cons hx _ ih =>
    rw [List.mapM_cons]
    exact hx.bind (ih.bind (.pure _))

/-- An object on the stack is drawn, and given back, without use of memory. -/
theorem agree_peek_draw {σ : Type} (h : σ → String → σ) (flat : Bool) (s : σ) {level : Nat}
    (hl : level < v.stack.length) :
    Agree c c v (acquiring (peek level) (draw (fun s piece => pure (h s piece)) flat · s))
      (acquiring (peek level) (draw (fun s piece => pure (h s piece)) flat · s))
      (fun s' v' => s' = (v.stack[level].tree.pieces flat 0).foldl h s ∧ v' = v ∧
        v.stack[level].tree.Drawable)
      fun e v' => ¬v.stack[level].tree.Drawable ∧ v' = v ∧ e.blamesClauses := by
  apply Agree.of_valid
  intro hv
  apply Agree.bind_yields fun _ => yields_peek hl
  apply Agree.holding
  apply (agree_draw h flat (v.deref_hold_self v.stack[level]) s).mono
  · intro s' u hu
    obtain ⟨rfl, rfl, hdrawable⟩ := hu
    exact ⟨v.lt_length_slots rfl, rfl, Image.release_hold_self hv _, hdrawable⟩
  · intro e u hu
    obtain ⟨hnot, rfl, hblames⟩ := hu
    exact ⟨v.lt_length_slots rfl, hnot, Image.release_hold_self hv _, hblames⟩

/-- An object on the stack is seen through a window of any width. -/
theorem yields_renderWithin (width : Nat) (flat : Bool) {level : Nat} (hl : level < v.stack.length)
    (hdrawable : v.stack[level].tree.Drawable) :
    Yields c v (acquiring (peek level) (renderWithin width flat))
      (.ok (v.stack[level].tree.window width flat)) v := by
  apply Agree.yields
  apply (agree_peek_draw Window.put flat (.ofWidth width) hl).mono
  · intro window u hu
    exact ⟨hu.1, hu.2.1⟩
  · intro e u hu
    exact hu.1 hdrawable

theorem yields_showLevel (settings : Settings) {level : Nat} (hl : level < v.stack.length)
    (hdrawable : v.stack[level].tree.Drawable) : Yields c v (showLevel settings level)
      (.ok (StackView.line settings level v.stack[level].tree)) v :=
  (yields_renderWithin _ settings.flat hl hdrawable).attempt.bind (.pure _)

/-- A stack of sound objects is shown, and nothing changes. -/
theorem yields_showStack (hs : v.Sound) (settings : Settings) :
    Yields c v (showStack settings) (.ok (StackView.text settings (v.stack.map Place.tree))) v := by
  have hlines : List.Forall₂ (fun level text => Yields c v (showLevel settings level) (.ok text) v)
      (List.range v.stack.length)
      ((v.stack.map Place.tree).zipIdx.map fun entry => StackView.line settings entry.2 entry.1) := by
    refine List.forall₂_iff_get.mpr ⟨by simp, fun level hl _ => ?_⟩
    rw [List.length_range] at hl
    have hdrawable := (hs.stack _ (List.getElem_mem hl)).complete.drawable
    simpa using yields_showLevel (c := c) settings hl hdrawable
  exact yields_depth.bind ((yields_mapM (List.forall₂_reverse_iff.mpr hlines)).bind (.pure _))

end Run

/-- What a user can ask of a machine. -/
inductive Request where
  | line (source : String)
  | display (settings : Settings)

namespace Request

def perform (passes : Nat) : Request → Run String
  | line source => do
    Run.line passes source
    return ""
  | display settings => Run.showStack settings

/-- The memory is in order afterwards. A line is cut between characters, and its failure, if it is
one, does not blame the memory or the objects in it; what is on the stack is shown. -/
def Safe (r : Request) (done : Except Failure String × Machine) : Prop :=
  done.2.WellFormed ∧
    match r with
    | line source => (∀ e, done.1 = .error e → e.isExpected) ∧
      ∀ t ∈ (Token.scan source).1, t.Cuts source.toList
    | display _ => ∃ text, done.1 = .ok text

end Request

namespace Machine

open Run

def answers (passes : Nat) (m : Machine) : List Request → List (Except Failure String × Machine)
  | [] => []
  | r :: rs =>
    let done := exec (r.perform passes) m
    done :: answers passes done.2 rs

variable {c : Nat} {v : Image} {m : Machine}

/-- A line leaves sound objects if there were such, and then its failure has a reason. -/
theorem Represents.exists_exec_line (hm : m.Represents c v) (hs : v.Sound) (passes : Nat)
    (source : String) : ∃ o m' w, exec (Run.line passes source) m = (o, m') ∧
      m'.Represents c w ∧ w.Sound ∧ ∀ e, o = .error e → e.isExpected := by
  obtain ⟨o, m', w, he, hw, hpost, -⟩ :=
    tame_line le_rfl (Repertoire.attuned_run c) passes source m m hm hm
  refine ⟨o, m', w, he, hw, ?_⟩
  cases o with
  | ok a => exact ⟨hpost.sound hs, fun e he => nomatch he⟩
  | error e =>
    refine ⟨hpost.1.sound hs, fun e' he' => ?_⟩
    cases he'
    exact hpost.2.expected hs

/-- One request leaves sound objects if there were such. -/
theorem Represents.safe (hm : m.Represents c v) (hs : v.Sound) (passes : Nat) (r : Request) :
    r.Safe (exec (r.perform passes) m) ∧
      ∃ v', (exec (r.perform passes) m).2.Represents c v' ∧ v'.Sound := by
  cases r with
  | line source =>
    obtain ⟨o, m', w, he, hw, hsw, ho⟩ := hm.exists_exec_line hs passes source
    have hperform : ∃ o', exec ((Request.line source).perform passes) m = (o', m') ∧
        ∀ e, o' = .error e → e.isExpected := by
      cases o with
      | ok a => exact ⟨.ok "", exec_bind_ok he _, fun e he => nomatch he⟩
      | error e => exact ⟨.error e, exec_bind_error he _, fun e' he' => ho e' (by cases he'; rfl)⟩
    obtain ⟨o', he', ho'⟩ := hperform
    rw [he']
    exact ⟨⟨hw.wellFormed, ho', fun t ht => Token.cuts_of_mem_scan ht⟩, w, hw, hsw⟩
  | display settings =>
    obtain ⟨m', he, hm'⟩ := yields_showStack (c := c) hs settings m hm
    have hperform : exec ((Request.display settings).perform passes) m =
        (.ok (StackView.text settings (v.stack.map Place.tree)), m') := he
    rw [hperform]
    exact ⟨⟨hm'.wellFormed, _, rfl⟩, v, hm', hs⟩

/-- From a machine with sound objects on, every request is answered safely. -/
theorem Represents.forall₂_safe_answers (hm : m.Represents c v) (hs : v.Sound) (passes : Nat)
    (requests : List Request) : List.Forall₂ Request.Safe requests (m.answers passes requests) := by
  induction requests generalizing m v with
  | nil => exact .nil
  | cons r rs ih =>
    obtain ⟨hsafe, v', hm', hs'⟩ := hm.safe hs passes r
    exact .cons hsafe (ih hm' hs')

/-- Whatever lines a new machine is given, and whenever it shows its stack, it does so safely. -/
theorem safe_answers (hc : c < Word.bound Heap.slotSize) (passes : Nat) (requests : List Request) :
    List.Forall₂ Request.Safe requests ((ofCapacity c).answers passes requests) :=
  (represents_ofCapacity hc).forall₂_safe_answers Image.sound_empty passes requests

/-- Also with no memory at all. -/
theorem safe_answers_no_memory : List.Forall₂ Request.Safe
    [.line "1 'x' STO", .display { width := 8 }, .line "\x7b"]
    ((ofCapacity 0).answers 1 [.line "1 'x' STO", .display { width := 8 }, .line "\x7b"]) :=
  safe_answers (by decide) 1 _

end Machine
end RpnMachine
