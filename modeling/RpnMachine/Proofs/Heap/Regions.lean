import RpnMachine.Proofs.Heap.Parts

/-! A heap whose regions lie in order consists of what is read in each of them. -/
namespace RpnMachine

namespace Heap

variable {h : Heap}

/-- Every level of the stack lies in memory. -/
theorem slot_le_capacity (hle : h.stackStart ≤ h.capacity) {level : Nat} (hl : level < h.depth) :
    h.stackStart + slotSize * level + slotSize ≤ h.capacity := by
  have hdepth : slotSize * h.depth ≤ h.capacity - h.stackStart := Nat.mul_div_le _ _
  have hnext : slotSize * level + slotSize ≤ slotSize * h.depth := Nat.mul_le_mul_left slotSize hl
  omega

/-- The levels of the stack are what lies in its region. -/
theorem words_stack (h : Heap) (hle : h.stackStart ≤ h.capacity)
    (haligned : slotSize ∣ h.capacity - h.stackStart) :
    words h.stack = h.memory.slice h.stackStart h.capacity := by
  have hlevels (n : Nat) (hn : n ≤ h.depth) :
      words ((List.range n).map h.slot) =
        h.memory.slice h.stackStart (h.stackStart + slotSize * n) := by
    induction n with
    | zero => simp [Memory.slice_eq]
    | succ n ih =>
      have hn' : h.stackStart + slotSize * n + slotSize ≤ h.memory.size := slot_le_capacity hle hn
      have hlevel : Word.encode slotSize (h.slot n) = h.memory.slice (h.stackStart + slotSize * n)
          (h.stackStart + slotSize * n + slotSize) := by
        have hlen := h.memory.length_slice (h.stackStart + slotSize * n) hn'
        rw [Nat.add_sub_cancel_left] at hlen
        have := Word.encode_decode (h.memory.slice (h.stackStart + slotSize * n)
          (h.stackStart + slotSize * n + slotSize))
        rwa [hlen] at this
      rw [List.range_succ, List.map_append, words_append, ih (Nat.le_of_succ_le hn),
        List.map_singleton, words_cons, words_nil, List.append_nil, hlevel, Nat.mul_succ, ← Nat.add_assoc]
      exact h.memory.slice_append_slice (Nat.le_add_right _ _) (Nat.le_add_right _ _)
  have hdepth : h.stackStart + slotSize * h.depth = h.capacity := by
    rw [depth, Nat.mul_div_cancel' haligned]
    omega
  have := hlevels h.depth le_rfl
  rwa [hdepth] at this

/-- Regions that lie in order fill the memory. -/
theorem consists_of_le (h₁ : h.permanentEnd ≤ h.temporaryEnd) (h₂ : h.temporaryEnd ≤ h.scratchEnd)
    (h₃ : h.scratchEnd ≤ h.stackStart) (h₄ : h.stackStart ≤ h.capacity)
    (haligned : slotSize ∣ h.capacity - h.stackStart) :
    h.Consists
      { permanent := h.permanent
        temporaries := h.temporaries
        scratch := h.scratchpad
        free := h.memory.slice h.scratchEnd h.stackStart
        stack := h.stack } := by
  have hsize : h.capacity = h.memory.size := rfl
  have hpermanent : h.permanent.length = h.permanentEnd :=
    (h.memory.length_slice 0 (by omega)).trans (Nat.sub_zero _)
  have htemporaries : h.temporaries.length = h.temporaryEnd - h.permanentEnd :=
    h.memory.length_slice _ (by omega)
  have hscratch : h.scratchpad.length = h.scratchEnd - h.temporaryEnd :=
    h.memory.length_slice _ (by omega)
  have hfree := h.memory.length_slice h.scratchEnd h₄
  refine ⟨?_, ?_, ?_, ?_, ?_, fun position hposition => ?_⟩
  · rw [Parts.bytes, Parts.front, words_stack h h₄ haligned, permanent, temporaries, scratchpad,
      h.memory.slice_append_slice (Nat.zero_le _) h₁,
      h.memory.slice_append_slice (Nat.zero_le _) h₂,
      h.memory.slice_append_slice (Nat.zero_le _) h₃,
      h.memory.slice_append_slice (Nat.zero_le _) h₄, hsize, Memory.slice_zero_size]
  · exact hpermanent.symm
  · simp only
    omega
  · simp only
    omega
  · simp only
    omega
  · obtain ⟨level, hlevel, rfl⟩ := List.mem_map.mp hposition
    have hlen := h.memory.length_slice (h.stackStart + slotSize * level)
      (slot_le_capacity h₄ (List.mem_range.mp hlevel))
    have := Word.decode_lt_bound (h.memory.slice (h.stackStart + slotSize * level)
      (h.stackStart + slotSize * level + slotSize))
    rwa [hlen, Nat.add_sub_cancel_left] at this

end Heap
end RpnMachine
