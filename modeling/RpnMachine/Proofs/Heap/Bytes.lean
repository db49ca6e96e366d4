import Mathlib
import RpnMachine.Heap.Memory

/-! Memory that is cut into pieces: what is read of it, and what is written in the place of a piece. -/
namespace RpnMachine.Memory

variable {m : Memory}

theorem exists_append_of_length {bytes : List UInt8} {a b : Nat} (h : bytes.length = a + b) :
    ∃ x y, bytes = x ++ y ∧ x.length = a ∧ y.length = b := by
  refine ⟨bytes.take a, bytes.drop a, (List.take_append_drop _ _).symm, ?_, ?_⟩
  · rw [List.length_take_of_le (by omega)]
  · rw [List.length_drop, h, Nat.add_sub_cancel_left]

theorem length_slice (m : Memory) (start : Nat) {stop : Nat} (h : stop ≤ m.size) :
    (m.slice start stop).length = stop - start := by
  rw [slice_eq, List.length_drop, List.length_take, length_toList, min_eq_left h]

theorem slice_append_slice (m : Memory) {start middle stop : Nat} (h₁ : start ≤ middle)
    (h₂ : middle ≤ stop) : m.slice start middle ++ m.slice middle stop = m.slice start stop := by
  have hfirst : (m.toList.take middle).drop start =
      ((m.toList.take stop).drop start).take (middle - start) := by
    rw [← List.drop_take, List.take_take, min_eq_left h₂]
  have hsecond : (m.toList.take stop).drop middle =
      ((m.toList.take stop).drop start).drop (middle - start) := by
    rw [List.drop_drop, Nat.add_sub_cancel' h₁]
  rw [slice_eq, slice_eq, slice_eq, hfirst, hsecond, List.take_append_drop]

theorem slice_zero_size (m : Memory) : m.slice 0 m.size = m.toList := by
  rw [slice_eq, List.drop_zero, ← length_toList, List.take_length]

theorem slice?_eq {start stop : Nat} (hle : start ≤ stop) (hstop : stop ≤ m.size) :
    m.slice? start stop = some (m.slice start stop) := if_pos ⟨hle, hstop⟩

section Pieces

variable {before middle after : List UInt8} {start stop : Nat}

theorem slice_middle (before after : List UInt8) (h : m.toList = before ++ middle ++ after)
    (hstart : start = before.length) (hstop : stop = start + middle.length) :
    m.slice start stop = middle := by
  subst hstart hstop
  rw [slice_eq, h, ← List.length_append, List.take_left, List.drop_left]

theorem size_pieces (h : m.toList = before ++ middle ++ after) :
    m.size = before.length + middle.length + after.length := by
  rw [← length_toList, h, List.length_append, List.length_append]

theorem slice?_middle (before after : List UInt8) (h : m.toList = before ++ middle ++ after)
    (hstart : start = before.length) (hstop : stop = start + middle.length) :
    m.slice? start stop = some middle := by
  have hsize := size_pieces h
  rw [slice?_eq (by omega) (by omega), slice_middle before after h hstart hstop]

theorem write?_middle (start stop : Nat) (new : List UInt8)
    (h : m.toList = before ++ middle ++ after)
    (hlen : new.length = middle.length) (hstart : start = before.length)
    (hstop : stop = start + middle.length) :
    ∃ m', m.write? start stop new = some m' ∧ m'.toList = before ++ new ++ after := by
  have hsize := size_pieces h
  refine ⟨m.write start new, if_pos (by omega), ?_⟩
  subst hstart
  rw [toList_write, h, hlen, ← List.length_append, List.drop_left, List.append_assoc before,
    List.take_left]

theorem copy?_middle {moved : List UInt8} (target : Nat)
    (h : m.toList = before ++ middle ++ after) (hle : start ≤ stop) (hstop : stop ≤ m.size)
    (hmoved : m.slice start stop = moved) (hlen : moved.length = middle.length)
    (htarget : target = before.length) :
    ∃ m', m.copy? start stop target = some m' ∧ m'.toList = before ++ moved ++ after := by
  have hsize := size_pieces h
  have hcount : stop - start = moved.length := by rw [← hmoved, length_slice m start hstop]
  refine ⟨m.copy start stop target, if_pos (by omega), ?_⟩
  subst htarget
  rw [copy_eq_write, hmoved, toList_write, h, hlen, ← List.length_append, List.drop_left,
    List.append_assoc before, List.take_left]

/-- A piece moves up over `n` of the bytes after it and leaves any bytes behind. -/
theorem copy?_up {free : List UInt8} (start stop : Nat) {target n : Nat}
    (h : m.toList = before ++ middle ++ free ++ after) (hn : n ≤ free.length)
    (hstart : start = before.length) (hstop : stop = start + middle.length)
    (htarget : target = start + n) :
    ∃ m' junk, m.copy? start stop target = some m' ∧ junk.length = n ∧
      m'.toList = before ++ junk ++ middle ++ free.drop n ++ after := by
  have hlen : (middle ++ free.take n).length = n + middle.length := by
    rw [List.length_append, List.length_take_of_le hn, Nat.add_comm]
  -- What is left behind, and what is written over.
  obtain ⟨junk, covered, hsplit, hjunk, hcovered⟩ := exists_append_of_length hlen
  have hpieces : m.toList = (before ++ junk) ++ covered ++ (free.drop n ++ after) := by
    calc m.toList = before ++ (middle ++ free.take n) ++ (free.drop n ++ after) := by
          rw [h, ← List.append_assoc _ (free.drop n), List.append_assoc before _ (free.drop n),
            List.append_assoc middle, List.take_append_drop]
          simp only [List.append_assoc]
      _ = (before ++ junk) ++ covered ++ (free.drop n ++ after) := by
          rw [hsplit, List.append_assoc before junk]
  have hsize := size_pieces hpieces
  have hmiddle : m.slice start stop = middle :=
    slice_middle before (free ++ after) (by rw [h]; simp only [List.append_assoc]) hstart hstop
  rw [List.length_append] at hsize
  obtain ⟨m', hcopy, hm'⟩ := copy?_middle target hpieces (by omega) (by omega) hmiddle
    hcovered.symm (by rw [List.length_append]; omega)
  refine ⟨m', junk, hcopy, hjunk, ?_⟩
  rw [hm']
  simp only [List.append_assoc]

/-- A piece moves down over the one before it and leaves any bytes behind. -/
theorem copy?_down {gone : List UInt8} (start stop : Nat) {target : Nat}
    (h : m.toList = before ++ gone ++ middle ++ after) (htarget : target = before.length)
    (hstart : start = target + gone.length) (hstop : stop = start + middle.length) :
    ∃ m' junk, m.copy? start stop target = some m' ∧ junk.length = gone.length ∧
      m'.toList = before ++ middle ++ junk ++ after := by
  have hlen : (gone ++ middle).length = middle.length + gone.length := by
    rw [List.length_append, Nat.add_comm]
  -- What is written over, and what is left behind.
  obtain ⟨covered, junk, hsplit, hcovered, hjunk⟩ := exists_append_of_length hlen
  have hpieces : m.toList = before ++ covered ++ (junk ++ after) := by
    rw [h, List.append_assoc before, hsplit]
    simp only [List.append_assoc]
  have hmiddle : m.slice start stop = middle :=
    slice_middle (before ++ gone) after h (by rw [List.length_append, hstart, htarget]) hstop
  have hsize := size_pieces h
  obtain ⟨m', hcopy, hm'⟩ := copy?_middle target hpieces (by omega) (by
    rw [hsize, List.length_append]
    omega) hmiddle hcovered.symm htarget
  refine ⟨m', junk, hcopy, hjunk, ?_⟩
  rw [hm']
  simp only [List.append_assoc]

end Pieces

end RpnMachine.Memory
