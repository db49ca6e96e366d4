import RpnMachine.Heap.Basic
import RpnMachine.Proofs.Heap.Bytes

/-! The stack as the positions that it holds, whatever else lies in memory. Its operations write to
levels that are there, and to nothing else. -/
namespace RpnMachine

theorem Word.encode_decode (bs : List UInt8) : encode bs.length (decode bs) = bs := by
  induction bs with
  | nil => rfl
  | cons b bs ih =>
    have hlt : b.toNat < 256 := b.toNat_lt
    have hlow : (b.toNat + 256 * decode bs) % 256 = b.toNat := by omega
    have hhigh : (b.toNat + 256 * decode bs) / 256 = decode bs := by omega
    rw [List.length_cons, decode, encode, hlow, hhigh, ih]
    simp

namespace Heap

/-- Positions as levels of the stack. -/
def words (stack : List Nat) : List UInt8 := stack.flatMap (Word.encode slotSize)

@[simp] theorem words_nil : words [] = [] := rfl

@[simp] theorem words_cons (p : Nat) (ps : List Nat) :
    words (p :: ps) = Word.encode slotSize p ++ words ps := rfl

@[simp] theorem words_append (ps qs : List Nat) : words (ps ++ qs) = words ps ++ words qs := by
  simp [words]

@[simp] theorem length_words (ps : List Nat) : (words ps).length = slotSize * ps.length := by
  induction ps with
  | nil => rfl
  | cons p ps ih =>
    rw [words_cons, List.length_append, ih, Word.length_encode, List.length_cons]
    ring

theorem words_take_append_drop (n : Nat) (ps : List Nat) :
    words (ps.take n) ++ words (ps.drop n) = words ps := by
  rw [← words_append, List.take_append_drop]

/-- `h.Stacks front stack`: the stack holds these positions, the top first, and these bytes lie
before it. -/
structure Stacks (h : Heap) (front : List UInt8) (stack : List Nat) : Prop where
  memory : h.memory.toList = front ++ words stack
  stackStart : h.stackStart = front.length
  /-- Every position fits in its level. -/
  fits : ∀ p ∈ stack, p < Word.bound slotSize

namespace Stacks

variable {h : Heap} {front : List UInt8} {stack above below : List Nat} {p q n : Nat}

theorem capacity_eq (hs : h.Stacks front stack) :
    h.capacity = h.stackStart + slotSize * stack.length := by
  rw [capacity, ← Memory.length_toList, hs.memory, List.length_append, length_words, hs.stackStart]

theorem stackStart_le (hs : h.Stacks front stack) : h.stackStart ≤ h.capacity := by
  rw [hs.capacity_eq]
  exact Nat.le_add_right _ _

theorem aligned (hs : h.Stacks front stack) : (h.capacity - h.stackStart) % slotSize = 0 := by
  rw [hs.capacity_eq, Nat.add_sub_cancel_left, Nat.mul_mod_right]

theorem depth_eq (hs : h.Stacks front stack) : h.depth = stack.length := by
  rw [depth, hs.capacity_eq, Nat.add_sub_cancel_left]
  exact Nat.mul_div_cancel_left _ (by decide)

theorem depth?_eq (hs : h.Stacks front stack) : h.depth? = some stack.length := by
  rw [depth?, Word.minus?_eq hs.stackStart_le, ← hs.depth_eq]
  rfl

theorem slotStart?_eq (hs : h.Stacks front stack) {level : Nat} (hl : level < stack.length) :
    h.slotStart? level = some (h.stackStart + slotSize * level) := by
  rw [slotStart?, hs.depth?_eq]
  exact if_pos hl

theorem memory_level (hs : h.Stacks front (above ++ p :: below)) :
    h.memory.toList = (front ++ words above) ++ Word.encode slotSize p ++ words below ∧
      h.stackStart + slotSize * above.length = (front ++ words above).length := by
  rw [hs.memory, hs.stackStart, words_append, words_cons, List.length_append, length_words]
  simp only [List.append_assoc, true_and]

theorem slot_length (hs : h.Stacks front (above ++ p :: below)) : h.slot above.length = p := by
  obtain ⟨hm, hstart⟩ := hs.memory_level
  rw [slot, Memory.slice_middle _ _ hm hstart (by rw [Word.length_encode])]
  exact Word.decode_encode (hs.fits p (by simp))

theorem slot?_length (hs : h.Stacks front (above ++ p :: below)) :
    h.slot? above.length = some p := by
  obtain ⟨hm, hstart⟩ := hs.memory_level
  rw [slot?, hs.slotStart?_eq (by simp)]
  simp only [Option.bind_eq_bind, Option.bind_some]
  rw [Memory.slice?_middle _ _ hm hstart (by rw [Word.length_encode]), Option.bind_some,
    Word.decode_encode (hs.fits p (by simp))]
  rfl

theorem slot_eq (hs : h.Stacks front stack) {level : Nat} (hl : level < stack.length) :
    h.slot level = stack[level] := by
  have hsplit : h.Stacks front (stack.take level ++ stack[level] :: stack.drop (level + 1)) := by
    rwa [List.getElem_cons_drop, List.take_append_drop]
  simpa only [List.length_take_of_le hl.le] using hsplit.slot_length

theorem slot?_eq (hs : h.Stacks front stack) {level : Nat} (hl : level < stack.length) :
    h.slot? level = some stack[level] := by
  have hsplit : h.Stacks front (stack.take level ++ stack[level] :: stack.drop (level + 1)) := by
    rwa [List.getElem_cons_drop, List.take_append_drop]
  simpa only [List.length_take_of_le hl.le] using hsplit.slot?_length

theorem stack_eq (hs : h.Stacks front stack) : h.stack = stack := by
  refine List.ext_getElem (by simp [Heap.stack, hs.depth_eq]) fun i hi hi' => ?_
  rw [← hs.slot_eq hi']
  simp [Heap.stack]

theorem stack?_eq (hs : h.Stacks front stack) : h.stack? = some stack := by
  have hlevels (levels : List Nat) (hl : ∀ level ∈ levels, level < stack.length) :
      levels.mapM h.slot? = some (levels.map h.slot) := by
    induction levels with
    | nil => rfl
    | cons level levels ih =>
      rw [List.forall_mem_cons] at hl
      rw [List.mapM_cons, hs.slot?_eq hl.1, ih hl.2, List.map_cons, hs.slot_eq hl.1]
      rfl
  rw [stack?, hs.depth?_eq]
  simp only [Option.bind_eq_bind, Option.bind_some]
  rw [hlevels _ fun level hl => List.mem_range.mp hl, ← hs.depth_eq, ← Heap.stack, hs.stack_eq]

theorem setSlot? (hs : h.Stacks front (above ++ q :: below)) (hp : p < Word.bound slotSize) :
    ∃ memory, h.setSlot? above.length p = some { h with memory } ∧
      { h with memory }.Stacks front (above ++ p :: below) := by
  obtain ⟨hm, hstart⟩ := hs.memory_level
  obtain ⟨memory, hwrite, hmemory⟩ := Memory.write?_middle
    (h.stackStart + slotSize * above.length) (h.stackStart + slotSize * above.length + slotSize)
    (Word.encode slotSize p) hm
    (by rw [Word.length_encode, Word.length_encode]) hstart (by rw [Word.length_encode])
  refine ⟨memory, ?_, ?_, hs.stackStart, fun p' hp' => ?_⟩
  · rw [Heap.setSlot?, hs.slotStart?_eq (by simp)]
    simp only [Option.bind_eq_bind, Option.bind_some]
    rw [hwrite]
    rfl
  · simp only [hmemory, words_append, words_cons, List.append_assoc]
  · simp only [List.mem_append, List.mem_cons] at hp'
    rcases hp' with hp' | rfl | hp'
    · exact hs.fits p' (by simp [hp'])
    · exact hp
    · exact hs.fits p' (by simp [hp'])

theorem setSlot?_zero (hs : h.Stacks front (q :: below)) (hp : p < Word.bound slotSize) :
    ∃ memory, h.setSlot? 0 p = some { h with memory } ∧
      { h with memory }.Stacks front (p :: below) :=
  have hs : h.Stacks front ([] ++ q :: below) := hs
  hs.setSlot? hp

theorem mapStack? {f : Nat → Option Nat} {g : Nat → Nat} (hs : h.Stacks front stack)
    (hf : ∀ p ∈ stack, f p = some (g p)) (hg : ∀ p ∈ stack, g p < Word.bound slotSize) :
    ∃ memory, h.mapStack? f = some { h with memory } ∧
      { h with memory }.Stacks front (stack.map g) := by
  -- The levels above have been overwritten already.
  have hloop (above below : List Nat) (h : Heap) (hs : h.Stacks front (above ++ below))
      (hf : ∀ p ∈ below, f p = some (g p)) (hg : ∀ p ∈ below, g p < Word.bound slotSize) :
      ∃ memory, (List.range' above.length below.length).foldlM
        (fun h level => do h.setSlot? level (← f (← h.slot? level))) h = some { h with memory } ∧
          { h with memory }.Stacks front (above ++ below.map g) := by
    induction below generalizing above h with
    | nil => exact ⟨h.memory, rfl, hs⟩
    | cons p below ih =>
      rw [List.forall_mem_cons] at hf hg
      obtain ⟨memory, hset, hs'⟩ := hs.setSlot? hg.1
      rw [List.append_cons] at hs'
      obtain ⟨memory', hrest, hs''⟩ := ih _ _ hs' hf.2 hg.2
      rw [List.length_append, List.length_singleton] at hrest
      refine ⟨memory', ?_, by rwa [List.map_cons, List.append_cons]⟩
      rw [List.length_cons, List.range'_succ, List.foldlM_cons, hs.slot?_length]
      simp only [Option.bind_eq_bind, Option.bind_some, hf.1, hset]
      exact hrest
  rw [Heap.mapStack?, hs.depth?_eq]
  simp only [Option.bind_eq_bind, Option.bind_some, List.range_eq_range']
  exact hloop [] stack h hs hf hg

theorem copySlot? (hs : h.Stacks front (above ++ p :: q :: below)) :
    ∃ memory, h.setSlot? (above.length + 1) p = some { h with memory } ∧
      { h with memory }.Stacks front (above ++ p :: p :: below) := by
  have hp : p < Word.bound slotSize := hs.fits p (by simp)
  rw [List.append_cons above p] at hs ⊢
  simpa using hs.setSlot? hp

/-- Levels are lowered over the one below them: each is copied before it is overwritten itself. -/
theorem lower? (hs : h.Stacks front (above ++ q :: below)) :
    ∃ memory top, h.lower? above.length = some { h with memory } ∧
      { h with memory }.Stacks front (top :: above ++ below) := by
  -- The lowest of them comes first, so the induction takes it off the end.
  induction above using List.reverseRecOn generalizing h q below with
  | nil => exact ⟨h.memory, q, rfl, hs⟩
  | append_singleton above p ih =>
    rw [← List.append_cons] at hs
    obtain ⟨memory, hcopy, hs'⟩ := hs.copySlot?
    obtain ⟨memory', top, hrest, hs''⟩ := ih hs'
    refine ⟨memory', top, ?_, by simpa using hs''⟩
    rw [List.length_append, List.length_singleton, Heap.lower?, hs.slot?_length]
    simp only [Option.bind_eq_bind, Option.bind_some, hcopy]
    exact hrest

/-- What is held at a level goes to the top, and what is held above it one level down. -/
theorem roll? (hs : h.Stacks front stack) (hn : n < stack.length) :
    ∃ memory, h.roll? n = some { h with memory } ∧ { h with memory }.Stacks front
      (stack[n] :: stack.take n ++ stack.drop (n + 1)) := by
  have hsplit : h.Stacks front (stack.take n ++ stack[n] :: stack.drop (n + 1)) := by
    rwa [List.getElem_cons_drop, List.take_append_drop]
  obtain ⟨memory, top, hlower, hs'⟩ := hsplit.lower?
  rw [List.length_take_of_le hn.le] at hlower
  obtain ⟨memory', hset, hs''⟩ := hs'.setSlot?_zero (hs.fits _ (List.getElem_mem hn))
  refine ⟨memory', ?_, hs''⟩
  rw [Heap.roll?, hs.slot?_eq hn]
  simp only [Option.bind_eq_bind, Option.bind_some, hlower]
  exact hset

/-- One level more, in the place of bytes before the stack. -/
theorem push? {gone : List UInt8} (hs : h.Stacks (front ++ gone) stack)
    (hgone : gone.length = slotSize) (hfree : h.scratchEnd + slotSize ≤ h.stackStart)
    (hp : p < Word.bound slotSize) :
    ∃ memory, h.push? p = some { h with memory, stackStart := h.stackStart - slotSize } ∧
      { h with memory, stackStart := h.stackStart - slotSize }.Stacks front (p :: stack) := by
  have hword : Word.encode slotSize (Word.decode gone) = gone := by
    rw [← hgone, Word.encode_decode]
  have hraised : { h with stackStart := h.stackStart - slotSize }.Stacks front
      (Word.decode gone :: stack) := by
    refine ⟨?_, ?_, List.forall_mem_cons.mpr ⟨?_, hs.fits⟩⟩
    · rw [hs.memory, words_cons, hword, List.append_assoc]
    · simp only [hs.stackStart, List.length_append, hgone, Nat.add_sub_cancel]
    · rw [← hgone]
      exact Word.decode_lt_bound gone
  obtain ⟨memory, hset, hs'⟩ := hraised.setSlot?_zero hp
  refine ⟨memory, ?_, hs'⟩
  rw [Heap.push?, free?, Word.minus?_eq (by omega)]
  simp only [Option.bind_eq_bind, Option.bind_some]
  rw [if_neg (by omega)]
  exact hset

theorem drop?_eq (hs : h.Stacks front stack) (hn : n ≤ stack.length) :
    h.drop? n = some { h with stackStart := h.stackStart + slotSize * n } := by
  rw [drop?, hs.depth?_eq]
  exact if_pos hn

theorem drop (hs : h.Stacks front stack) (hn : n ≤ stack.length) :
    { h with stackStart := h.stackStart + slotSize * n }.Stacks
      (front ++ words (stack.take n)) (stack.drop n) where
  memory := by rw [hs.memory, List.append_assoc, words_take_append_drop]
  stackStart := by
    simp only [hs.stackStart, List.length_append, length_words, List.length_take, min_eq_left hn]
  fits p hp := hs.fits p (List.mem_of_mem_drop hp)

end Stacks
end Heap
end RpnMachine
