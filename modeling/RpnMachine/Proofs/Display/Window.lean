import Mathlib
import RpnMachine.Display.Window

/-! What is seen of a text through a window is its longest run of whole characters from the start that
fits, in whatever pieces the text comes. -/
namespace RpnMachine

namespace Text

/-- `head` is the longest run of whole characters from the start of a text that takes no more than
`width` bytes. -/
structure IsHead (width : Nat) (text head : String) : Prop where
  exists_rest : ∃ rest, text = head ++ rest
  fits : head.utf8ByteSize ≤ width
  longest : ∀ other rest, text = other ++ rest → other.utf8ByteSize ≤ width →
    other.utf8ByteSize ≤ head.utf8ByteSize

theorem utf8ByteSize_ofList_cons (c : Char) (cs : List Char) :
    (String.ofList (c :: cs)).utf8ByteSize = c.utf8Size + (String.ofList cs).utf8ByteSize := by
  rw [String.ofList_cons, String.utf8ByteSize_append, String.utf8ByteSize_singleton]

theorem length_le_utf8ByteSize (s : String) : s.length ≤ s.utf8ByteSize := by
  obtain ⟨cs, rfl⟩ : ∃ cs, s = String.ofList cs := ⟨s.toList, String.ofList_toList.symm⟩
  rw [String.length_ofList]
  induction cs with
  | nil => exact Nat.zero_le _
  | cons c cs ih =>
    have hpos := c.utf8Size_pos
    rw [utf8ByteSize_ofList_cons, List.length_cons]
    omega

theorem exists_append_headWithin (room : Nat) (cs : List Char) :
    ∃ rest, headWithin room cs ++ rest = cs := by
  induction cs generalizing room with
  | nil => exact ⟨[], rfl⟩
  | cons c cs ih =>
    rw [headWithin]
    split_ifs
    · obtain ⟨rest, hrest⟩ := ih (room - c.utf8Size)
      exact ⟨rest, by rw [List.cons_append, hrest]⟩
    · exact ⟨c :: cs, rfl⟩

theorem utf8ByteSize_headWithin_le (room : Nat) (cs : List Char) :
    (String.ofList (headWithin room cs)).utf8ByteSize ≤ room := by
  induction cs generalizing room with
  | nil => exact Nat.zero_le _
  | cons c cs ih =>
    rw [headWithin]
    split_ifs with hc
    · have hrest := ih (room - c.utf8Size)
      rw [utf8ByteSize_ofList_cons]
      omega
    · exact Nat.zero_le _

/-- Characters that fit are seen with as many of the next ones as still fit. -/
theorem headWithin_append_of_le {room : Nat} {xs : List Char} (ys : List Char)
    (h : (String.ofList xs).utf8ByteSize ≤ room) :
    headWithin room (xs ++ ys) =
      xs ++ headWithin (room - (String.ofList xs).utf8ByteSize) ys := by
  induction xs generalizing room with
  | nil => rfl
  | cons x xs ih =>
    rw [utf8ByteSize_ofList_cons] at h ⊢
    have hx : x.utf8Size ≤ room := by omega
    have hxs : (String.ofList xs).utf8ByteSize ≤ room - x.utf8Size := by omega
    rw [List.cons_append, headWithin, if_pos hx, ih hxs, Nat.sub_sub, List.cons_append]

/-- After characters that do not fit, nothing more is seen. -/
theorem headWithin_append_of_lt {room : Nat} {xs : List Char} (ys : List Char)
    (h : room < (String.ofList xs).utf8ByteSize) :
    headWithin room (xs ++ ys) = headWithin room xs := by
  induction xs generalizing room with
  | nil => exact absurd h (Nat.not_lt_zero room)
  | cons x xs ih =>
    rw [utf8ByteSize_ofList_cons] at h
    rw [List.cons_append, headWithin, headWithin]
    by_cases hx : x.utf8Size ≤ room
    · rw [if_pos hx, if_pos hx, ih (by omega)]
    · rw [if_neg hx, if_neg hx]

def head (width : Nat) (text : String) : String := String.ofList (headWithin width text.toList)

theorem isHead_head (width : Nat) (text : String) : IsHead width text (head width text) where
  exists_rest := by
    obtain ⟨rest, hrest⟩ := exists_append_headWithin width text.toList
    refine ⟨String.ofList rest, ?_⟩
    rw [head, ← String.ofList_append, hrest, String.ofList_toList]
  fits := utf8ByteSize_headWithin_le width text.toList
  longest := by
    intro other rest htext hfits
    have hother : (String.ofList other.toList).utf8ByteSize ≤ width := by
      rwa [String.ofList_toList]
    rw [head, htext, String.toList_append, headWithin_append_of_le _ hother, String.ofList_append,
      String.utf8ByteSize_append, String.ofList_toList]
    exact Nat.le_add_right _ _

theorem head_append_of_le {width : Nat} {s : String} (piece : String) (h : s.utf8ByteSize ≤ width) :
    head width (s ++ piece) = s ++ head (width - s.utf8ByteSize) piece := by
  have hs : (String.ofList s.toList).utf8ByteSize ≤ width := by rwa [String.ofList_toList]
  rw [head, String.toList_append, headWithin_append_of_le _ hs, String.ofList_append,
    String.ofList_toList, head]

theorem head_append_of_lt {width : Nat} {s : String} (piece : String) (h : width < s.utf8ByteSize) :
    head width (s ++ piece) = head width s := by
  have hs : width < (String.ofList s.toList).utf8ByteSize := by rwa [String.ofList_toList]
  rw [head, String.toList_append, headWithin_append_of_lt _ hs, head]

theorem head_eq_self {width : Nat} {s : String} (h : s.utf8ByteSize ≤ width) : head width s = s := by
  have happend := head_append_of_le "" h
  rwa [String.append_empty, show head (width - s.utf8ByteSize) "" = "" from rfl,
    String.append_empty] at happend

end Text

namespace Window

open Text

def ofText (width : Nat) (text : String) : Window where
  shown := head width text
  room := width - (head width text).utf8ByteSize
  length := text.utf8ByteSize
  full := decide (width < text.utf8ByteSize)

theorem put_of_not_full {w : Window} (h : w.full = false) (piece : String) : w.put piece =
    { shown := w.shown ++ head w.room piece
      room := w.room - (head w.room piece).utf8ByteSize
      length := w.length + piece.utf8ByteSize
      full := decide ((head w.room piece).utf8ByteSize < piece.utf8ByteSize) } := by
  rw [put, h]
  rfl

theorem put_of_full {w : Window} (h : w.full = true) (piece : String) :
    w.put piece = { w with length := w.length + piece.utf8ByteSize } := by
  rw [put, h]
  rfl

/-- One more piece is seen as if the text had come as a whole. -/
theorem put_ofText (width : Nat) (s piece : String) :
    (ofText width s).put piece = ofText width (s ++ piece) := by
  by_cases hs : s.utf8ByteSize ≤ width
  · have hroom : (ofText width s).room = width - s.utf8ByteSize := by rw [ofText, head_eq_self hs]
    have hfull : (ofText width s).full = false := decide_eq_false (by omega)
    have hpiece : (head (width - s.utf8ByteSize) piece).utf8ByteSize < piece.utf8ByteSize ↔
        width < s.utf8ByteSize + piece.utf8ByteSize := by
      have hfits := (isHead_head (width - s.utf8ByteSize) piece).fits
      constructor
      · intro hlt
        by_contra hle
        rw [head_eq_self (by omega)] at hlt
        exact Nat.lt_irrefl _ hlt
      · intro hlt
        omega
    rw [put_of_not_full hfull, hroom]
    simp only [ofText, head_append_of_le piece hs, head_eq_self hs, String.utf8ByteSize_append,
      hpiece, Nat.sub_sub]
  · have hlt : width < s.utf8ByteSize := by omega
    have hfull : (ofText width s).full = true := decide_eq_true hlt
    have hfull' : width < s.utf8ByteSize + piece.utf8ByteSize := by omega
    rw [put_of_full hfull]
    simp only [ofText, head_append_of_lt piece hlt, String.utf8ByteSize_append, hlt, hfull',
      decide_true]

theorem ofText_empty (width : Nat) : ofText width "" = ofWidth width := rfl

/-- It does not matter in which pieces a text comes. -/
theorem foldl_put_ofText (width : Nat) (pieces : List String) (s : String) :
    pieces.foldl put (ofText width s) = ofText width (pieces.foldl (· ++ ·) s) := by
  induction pieces generalizing s with
  | nil => rfl
  | cons piece pieces ih => rw [List.foldl_cons, List.foldl_cons, put_ofText, ih]

end Window
end RpnMachine
