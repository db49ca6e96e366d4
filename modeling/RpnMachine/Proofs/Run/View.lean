import RpnMachine.Proofs.Display.Window
import RpnMachine.Proofs.Machine.Drawing
import RpnMachine.Proofs.Machine.Survivors
import RpnMachine.Proofs.Run.Safety

/-! What is seen of an object through a window is the start of its text, as far as whole characters of
it fit, and to look at an object changes nothing. An entry of the stack is the whole text, or what is
seen of it with an ellipsis, but with null characters in between where the window is not full. -/
namespace RpnMachine

open Run

theorem Tree.window_eq_ofText (t : Tree) (width : Nat) (flat : Bool) :
    t.window width flat = .ofText width (t.rendering flat) := by
  rw [window, ← Window.ofText_empty, Window.foldl_put_ofText, rendering]

theorem Window.onto_ofText (buffer : List UInt8) (width : Nat) (text : String) :
    (ofText width text).onto buffer =
      Text.utf8 (Text.head width text) ++ buffer.drop (Text.head width text).utf8ByteSize := rfl

namespace StackView

/-- An entry that is the whole text or a start of it with an ellipsis, and keeps to its columns. -/
structure Abbreviates (width : Nat) (text entry : String) : Prop where
  whole : text.utf8ByteSize ≤ width → entry = text
  cut : width < text.utf8ByteSize → ∃ start rest, text = start ++ rest ∧ entry = start ++ "…"
  length_le : entry.length ≤ width

theorem Abbreviates.mem {width : Nat} {text entry : String} (h : Abbreviates width text entry)
    {x : Char} (hx : x ∈ entry.toList) : x ∈ text.toList ∨ x = '…' := by
  by_cases hfits : text.utf8ByteSize ≤ width
  · rw [h.whole hfits] at hx
    exact .inl hx
  · obtain ⟨start, rest, rfl, rfl⟩ := h.cut (Nat.not_le.mp hfits)
    have hellipsis : "…".toList = ['…'] := rfl
    rw [String.toList_append, List.mem_append, hellipsis, List.mem_singleton] at hx
    rw [String.toList_append, List.mem_append]
    exact hx.imp_left .inl

/-- Null characters between what is seen of a text and the ellipsis. They stand for the bytes that no
whole character was left for, as far as there are columns for them. -/
def blanks (width : Nat) (head : String) : Nat :=
  min (width - head.utf8ByteSize) (width - 1 - head.length)

def shortened (width : Nat) (head : String) : String :=
  String.ofList (head.toList.take (width - 1)) ++
    String.ofList (List.replicate (blanks width head) '\x00') ++ "…"

theorem entry_of_le {width : Nat} {text : String} (h : text.utf8ByteSize ≤ width) :
    entry width (.ofText width text) = text := by
  rw [entry, if_pos (by exact h), Window.ofText, Text.head_eq_self h]

theorem entry_of_lt {width : Nat} {text : String} (h : width < text.utf8ByteSize) :
    entry width (.ofText width text) = shortened width (Text.head width text) := by
  have hlong : ¬(Window.ofText width text).length ≤ width := Nat.not_le.mpr h
  rw [entry, if_neg hlong, Window.filled, List.take_append, List.take_replicate, String.length_toList,
    Nat.min_comm, String.ofList_append, String.ofList_append]
  rfl

theorem length_shortened_le {width : Nat} (hwidth : 0 < width) (head : String) :
    (shortened width head).length ≤ width := by
  rw [shortened, String.length_append, String.length_append, String.length_ofList,
    String.length_ofList, List.length_take, List.length_replicate, String.length_toList, blanks]
  have hellipsis : "…".length = 1 := rfl
  omega

/-- Without null characters the entry is as it should be. -/
theorem abbreviates_shortened {width : Nat} (hwidth : 0 < width) {text head : String}
    (h : width < text.utf8ByteSize) (hhead : Text.IsHead width text head)
    (hblanks : blanks width head = 0) : Abbreviates width text (shortened width head) where
  whole hle := absurd h (Nat.not_lt.mpr hle)
  cut _ := by
    obtain ⟨rest, hrest⟩ := hhead.exists_rest
    refine ⟨String.ofList (head.toList.take (width - 1)),
      String.ofList (head.toList.drop (width - 1)) ++ rest, ?_, ?_⟩
    · rw [← String.append_assoc, ← String.ofList_append, List.take_append_drop, String.ofList_toList,
        hrest]
    · rw [shortened, hblanks, List.replicate_zero, String.ofList_nil, String.append_empty]
  length_le := length_shortened_le hwidth head

/-- What an entry makes of a text. One that fits is there as it is. Of one that is too long there is
what is seen of it, but the ellipsis comes only after the null characters. -/
structure Displays (width : Nat) (text entry : String) : Prop where
  whole : text.utf8ByteSize ≤ width → entry = text
  cut : width < text.utf8ByteSize → ∃ head, Text.IsHead width text head ∧
    entry = shortened width head ∧ (blanks width head = 0 → Abbreviates width text entry)
  length_le : entry.length ≤ width

theorem displays_entry {width : Nat} (hwidth : 0 < width) (text : String) :
    Displays width text (entry width (.ofText width text)) := by
  by_cases hfits : text.utf8ByteSize ≤ width
  · rw [entry_of_le hfits]
    refine ⟨fun _ => rfl, fun hlong => absurd hfits (Nat.not_le.mpr hlong), ?_⟩
    exact (Text.length_le_utf8ByteSize text).trans hfits
  · have hlong : width < text.utf8ByteSize := Nat.not_le.mp hfits
    have hhead := Text.isHead_head width text
    rw [entry_of_lt hlong]
    refine ⟨fun h => absurd h hfits, fun _ => ⟨_, hhead, rfl, ?_⟩, length_shortened_le hwidth _⟩
    exact abbreviates_shortened hwidth hlong hhead

end StackView

namespace Machine

/-- The object has this text, whichever way it is asked for: a buffer gets the longest run of whole
characters that fits, and is told the length of the whole text; the scratchpad gets the whole text, just
if there is room for it. -/
structure Renders (m : Machine) (flat : Bool) (p : Pointer) (text : String) : Prop where
  window : ∀ buffer : List UInt8, ∃ w m' head,
    exec (renderWithin buffer.length flat p) m = (.ok w, m') ∧ m'.heap = m.heap ∧
      w.length = text.utf8ByteSize ∧ Text.IsHead buffer.length text head ∧
      w.onto buffer = Text.utf8 head ++ buffer.drop head.utf8ByteSize
  toScratch : ∀ o m', exec (renderToScratch flat p) m = (o, m') →
    (o = .ok text.utf8ByteSize ∧ ¬m.Lacks text.utf8ByteSize ∧
        m'.heap.scratchpad = m.heap.scratchpad ++ Text.utf8 text) ∨
      ∃ e, o = .error e ∧ e.lacksMemory ∧ m.Lacks text.utf8ByteSize ∧
        m'.heap.scratchpad = m.heap.scratchpad
  throughScratch : ∀ o m', exec (renderThroughScratch flat p) m = (o, m') →
    m'.heap.scratchpad = m.heap.scratchpad ∧
      ((o = .ok text ∧ ¬m.Lacks text.utf8ByteSize) ∨
        ∃ e, o = .error e ∧ e.lacksMemory ∧ m.Lacks text.utf8ByteSize)

variable {m m' : Machine} {c : Nat} {v : Image} {p : Pointer} {q : Place}

/-- Whether an object can be seen through a window depends neither on the width nor on the layout. -/
theorem Represents.exec_renderWithin (hm : m.Represents c v) (hp : v.deref p = some q) (width : Nat)
    (flat : Bool) {o : Except Failure Window} (h : exec (renderWithin width flat p) m = (o, m')) :
    (o = .ok (.ofText width (q.tree.rendering flat)) ∧ q.tree.Drawable) ∨
      ∃ e, o = .error e ∧ ¬q.tree.Drawable := by
  obtain ⟨o, m₁, w, he, -, hpost, -⟩ := agree_draw Window.put flat hp (.ofWidth width) m m hm hm
  cases he.symm.trans h
  cases o with
  | ok window =>
    obtain ⟨rfl, -, hdrawable⟩ := hpost
    exact .inl ⟨by rw [← Tree.window_eq_ofText, Tree.window], hdrawable⟩
  | error e => exact .inr ⟨e, rfl, hpost.1⟩

theorem Represents.renders (hm : m.Represents c v) (hp : v.deref p = some q)
    (hq : q.tree.Drawable) (flat : Bool) : m.Renders flat p (q.tree.rendering flat) := by
  refine ⟨fun buffer => ?_, fun o m' h => ?_, fun o m' h => ?_⟩
  · cases he : exec (renderWithin buffer.length flat p) m with
    | mk o m' =>
      have hheap : m'.heap = m.heap := by
        rw [← sparesHeap_renderWithin buffer.length flat p m, he]
      obtain ⟨rfl, -⟩ | ⟨e, rfl, hnot⟩ := hm.exec_renderWithin hp buffer.length flat he
      · exact ⟨_, m', _, rfl, hheap, rfl, Text.isHead_head _ _, Window.onto_ofText _ _ _⟩
      · exact absurd hq hnot
  · obtain ⟨o, m₁, w, he, hm', hpost, -⟩ := agree_renderToScratch le_rfl flat hp m m hm hm
    cases he.symm.trans h
    rw [hm.lacks_iff, hm'.scratchpad_eq, hm.scratchpad_eq]
    cases o with
    | ok n =>
      obtain ⟨rfl, rfl⟩ := hpost
      have hroom := hm'.used_le
      rw [Image.used_scribble, Text.length_utf8] at hroom
      exact .inl ⟨rfl, not_not_intro hroom, rfl⟩
    | error e =>
      obtain ⟨hoverruns | ⟨hnot, -⟩, rfl⟩ := hpost
      · exact .inr ⟨e, rfl, hoverruns.1, hoverruns.2, rfl⟩
      · exact absurd hq hnot
  · obtain ⟨o, m₁, w, he, hm', hpost, -⟩ := agree_renderThroughScratch le_rfl flat hp m m hm hm
    cases he.symm.trans h
    rw [hm.lacks_iff, hm'.scratchpad_eq, hm.scratchpad_eq]
    cases o with
    | ok s =>
      obtain ⟨⟨rfl, rfl⟩, hroom⟩ := hpost
      exact ⟨rfl, .inl ⟨rfl, not_not_intro hroom⟩⟩
    | error e =>
      obtain ⟨hoverruns | ⟨hnot, -⟩, rfl⟩ := hpost
      · exact ⟨rfl, .inr ⟨e, rfl, hoverruns⟩⟩
      · exact absurd hq hnot

/-- An object that can be seen at all has a text in each layout, and what a buffer shows is the start
of that. -/
theorem exists_renders_of_seen (hc : c < Word.bound Heap.slotSize) {actions : List Action}
    (h : Acts (ofCapacity c) actions m) (hp : (m.registry.position? p).isSome) {width : Nat}
    {flat : Bool} {w : Window} (hseen : (exec (renderWithin width flat p) m).1 = .ok w) :
    ∀ flat, ∃ text, m.Renders flat p text := by
  obtain ⟨v, hm, -⟩ := h.exists_represents (represents_ofCapacity hc)
  obtain ⟨q, hq⟩ : ∃ q, v.deref p = some q := by
    obtain ⟨kept, free, hl⟩ := hm
    exact hl.exists_deref hp
  obtain ⟨-, hdrawable⟩ | ⟨e, he, -⟩ := hm.exec_renderWithin hq width flat (Prod.ext hseen rfl)
  · exact fun flat => ⟨_, hm.renders hq hdrawable flat⟩
  · cases he

/-- Three of the eight bytes of a list are seen in four: the accented letter after them takes two, so the
last byte is left as it is. -/
theorem exists_renders_straddling :
    ∃ m, Acts (ofCapacity 64) [.make (Tree.composite .list [.text "é"]).recipe] m ∧
      (∀ flat, ∃ text, m.Renders flat ⟨0⟩ text) ∧
      ∃ w m', exec (renderWithin 4 true ⟨0⟩) m = (.ok w, m') ∧ w.length = 8 ∧
        w.onto [1, 2, 3, 4] = [0x7b, 0x20, 0x22, 4] := by
  have hacts : Acts (ofCapacity 64) [.make (Tree.composite .list [.text "é"]).recipe]
      ((ofCapacity 64).act (.make (Tree.composite .list [.text "é"]).recipe)) :=
    .cons ⟨by decide, _, Tree.encode_eq _⟩ (.nil _)
  have hseen : (exec (renderWithin 4 true ⟨0⟩)
      ((ofCapacity 64).act (.make (Tree.composite .list [.text "é"]).recipe))).1 =
        .ok { shown := "\x7b \"", room := 1, length := 8, full := true } := by decide +kernel
  refine ⟨_, hacts, ?_, _, _, Prod.ext hseen rfl, rfl, by decide +kernel⟩
  exact exists_renders_of_seen (by decide) hacts (by decide +kernel) hseen

/-- The entry of an object on the stack is made of its text, whatever the settings. -/
theorem exists_displays_of_rendered (hc : c < Word.bound Heap.slotSize) {actions : List Action}
    (h : Acts (ofCapacity c) actions m) (settings : Settings) {level : Nat} {text : String}
    (hrendered : (exec (acquiring (peek level) (render settings.flat)) m).1 = .ok text) :
    ∃ entry,
      (exec (showLevel settings level) m).1 = .ok (StackView.label level ++ entry ++ "\n") ∧
      StackView.Displays (max 1 (settings.width - (StackView.label level).utf8ByteSize)) text
        entry := by
  obtain ⟨v, hm, -⟩ := h.exists_represents (represents_ofCapacity hc)
  by_cases hl : level < v.stack.length
  · obtain ⟨o, m₁, w, he, -, hpost, -⟩ :=
      agree_peek_draw (c := c) (· ++ ·) settings.flat "" hl m m hm hm
    have hrender : exec (acquiring (peek level) (render settings.flat)) m = (o, m₁) := he
    rw [hrender] at hrendered
    subst hrendered
    obtain ⟨rfl, -, hdrawable⟩ := hpost
    obtain ⟨m₂, hshow, -⟩ := yields_showLevel settings hl hdrawable m hm
    refine ⟨_, ?_, StackView.displays_entry (Nat.le_max_left 1 _) _⟩
    rw [hshow, StackView.line, Tree.window_eq_ofText, Tree.rendering]
  · obtain ⟨m₁, hpeek, -⟩ := yields_peek_error level hl m hm
    rw [acquiring, exec_bind_error hpeek] at hrendered
    cases hrendered

/-- Both letters fit and the window is full with them, so the ellipsis comes next. -/
theorem exists_displays_accented :
    ∃ m, Acts (ofCapacity 64) [.make (Tree.text "áé").recipe, .push ⟨0⟩] m ∧
      (exec (showLevel { width := 8 } 0) m).1 = .ok "1: \"áé…\n" ∧
      ∃ entry, (exec (showLevel { width := 8 } 0) m).1 =
        .ok (StackView.label 0 ++ entry ++ "\n") ∧ StackView.Displays 5 "\"áé\"" entry := by
  have hacts : Acts (ofCapacity 64) [.make (Tree.text "áé").recipe, .push ⟨0⟩]
      (((ofCapacity 64).act (.make (Tree.text "áé").recipe)).act (.push ⟨0⟩)) :=
    .cons ⟨by decide, _, Tree.encode_eq _⟩ (.cons ⟨by decide +kernel, trivial⟩ (.nil _))
  have hrendered : (exec (acquiring (peek 0) (render true))
      (((ofCapacity 64).act (.make (Tree.text "áé").recipe)).act (.push ⟨0⟩))).1 =
        .ok "\"áé\"" := by decide +kernel
  refine ⟨_, hacts, by decide +kernel, ?_⟩
  exact exists_displays_of_rendered (by decide) hacts { width := 8 } hrendered

/-- The closing quotation mark of the empty program, which takes two bytes, straddles the end of the
window. -/
theorem not_abbreviates_straddling : ∃ m text entry,
    Acts (ofCapacity 64) [.make (Tree.composite .program []).recipe, .push ⟨0⟩] m ∧
      (exec (acquiring (peek 0) (render true)) m).1 = .ok text ∧
      (exec (showLevel { width := 7, flat := true } 0) m).1 =
        .ok (StackView.label 0 ++ entry ++ "\n") ∧
      ¬StackView.Abbreviates 4 text entry := by
  refine ⟨_, "« »", "« \x00…", .cons ⟨by decide, _, Tree.encode_eq _⟩
    (.cons ⟨by decide +kernel, trivial⟩ (.nil _)), by decide +kernel, by decide +kernel, fun h => ?_⟩
  have hnull := h.mem (x := '\x00') (by decide)
  revert hnull
  decide

end Machine
end RpnMachine
