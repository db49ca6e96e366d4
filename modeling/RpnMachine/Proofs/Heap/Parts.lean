import RpnMachine.Proofs.Heap.Slots

/-! The heap as its parts one right after the other. Every operation on the heap puts new parts in
the place of old ones, and where there is room for them its checks pass. -/
namespace RpnMachine.Heap

def permanent (h : Heap) : List UInt8 := h.memory.slice 0 h.permanentEnd

def temporaries (h : Heap) : List UInt8 := h.memory.slice h.permanentEnd h.temporaryEnd

def scratchpad (h : Heap) : List UInt8 := h.memory.slice h.temporaryEnd h.scratchEnd

/-- What lies in each region. The stack is given by the positions that it holds, the top first. -/
structure Parts where
  permanent : List UInt8
  temporaries : List UInt8
  scratch : List UInt8
  free : List UInt8
  stack : List Nat

namespace Parts

/-- All that lies before the stack. -/
def front (x : Parts) : List UInt8 := x.permanent ++ x.temporaries ++ x.scratch ++ x.free

def bytes (x : Parts) : List UInt8 := x.front ++ words x.stack

end Parts

/-- `h.Consists x`: the parts `x` lie one right after the other and fill the memory. -/
structure Consists (h : Heap) (x : Parts) : Prop where
  memory : h.memory.toList = x.bytes
  permanentEnd : h.permanentEnd = x.permanent.length
  temporaryEnd : h.temporaryEnd = x.permanent.length + x.temporaries.length
  scratchEnd : h.scratchEnd = x.permanent.length + x.temporaries.length + x.scratch.length
  stackStart : h.stackStart =
    x.permanent.length + x.temporaries.length + x.scratch.length + x.free.length
  /-- Every position on the stack fits in its level. -/
  fits : ∀ p ∈ x.stack, p < Word.bound slotSize

namespace Consists

variable {h : Heap} {x : Parts} {n : Nat}

theorem toStacks (hx : h.Consists x) : h.Stacks x.front x.stack where
  memory := hx.memory
  stackStart := by rw [hx.stackStart, Parts.front]; simp only [List.length_append]
  fits := hx.fits

theorem capacity_eq_stackStart_add (hx : h.Consists x) :
    h.capacity = h.stackStart + slotSize * x.stack.length := hx.toStacks.capacity_eq

theorem capacity_eq (hx : h.Consists x) : h.capacity = x.permanent.length + x.temporaries.length +
    x.scratch.length + x.free.length + slotSize * x.stack.length := by
  rw [hx.capacity_eq_stackStart_add, hx.stackStart]

theorem stackStart_le (hx : h.Consists x) : h.stackStart ≤ h.capacity := hx.toStacks.stackStart_le

theorem permanentEnd_le (hx : h.Consists x) : h.permanentEnd ≤ h.temporaryEnd := by
  rw [hx.permanentEnd, hx.temporaryEnd]
  exact Nat.le_add_right _ _

theorem temporaryEnd_le (hx : h.Consists x) : h.temporaryEnd ≤ h.scratchEnd := by
  rw [hx.temporaryEnd, hx.scratchEnd]
  exact Nat.le_add_right _ _

theorem scratchEnd_le (hx : h.Consists x) : h.scratchEnd ≤ h.stackStart := by
  rw [hx.scratchEnd, hx.stackStart]
  exact Nat.le_add_right _ _

theorem check?_eq (hx : h.Consists x) : h.check? = some h :=
  if_pos ⟨hx.permanentEnd_le, hx.temporaryEnd_le, hx.scratchEnd_le, hx.stackStart_le,
    hx.toStacks.aligned⟩

theorem free_eq (hx : h.Consists x) : h.free = x.free.length := by
  rw [free, hx.stackStart, hx.scratchEnd]
  omega

theorem free?_eq (hx : h.Consists x) : h.free? = some x.free.length := by
  rw [← hx.free_eq]
  exact Word.minus?_eq hx.scratchEnd_le

theorem scratchLength_eq (hx : h.Consists x) : h.scratchLength = x.scratch.length := by
  rw [scratchLength, hx.scratchEnd, hx.temporaryEnd]
  omega

theorem scratchLength?_eq (hx : h.Consists x) : h.scratchLength? = some x.scratch.length := by
  rw [← hx.scratchLength_eq]
  exact Word.minus?_eq hx.temporaryEnd_le

theorem depth_eq (hx : h.Consists x) : h.depth = x.stack.length := hx.toStacks.depth_eq

theorem depth?_eq (hx : h.Consists x) : h.depth? = some x.stack.length := hx.toStacks.depth?_eq

theorem slot_eq (hx : h.Consists x) {level : Nat} (hl : level < x.stack.length) :
    h.slot level = x.stack[level] := hx.toStacks.slot_eq hl

theorem slot?_eq (hx : h.Consists x) {level : Nat} (hl : level < x.stack.length) :
    h.slot? level = some x.stack[level] := hx.toStacks.slot?_eq hl

theorem stack_eq (hx : h.Consists x) : h.stack = x.stack := hx.toStacks.stack_eq

theorem stack?_eq (hx : h.Consists x) : h.stack? = some x.stack := hx.toStacks.stack?_eq

/-! Each region is a piece of the memory. -/

theorem memory_permanent (hx : h.Consists x) : h.memory.toList =
    [] ++ x.permanent ++ (x.temporaries ++ x.scratch ++ x.free ++ words x.stack) := by
  rw [hx.memory, Parts.bytes, Parts.front]
  simp only [List.nil_append, List.append_assoc]

theorem memory_temporaries (hx : h.Consists x) : h.memory.toList =
    x.permanent ++ x.temporaries ++ (x.scratch ++ x.free ++ words x.stack) := by
  rw [hx.memory, Parts.bytes, Parts.front]
  simp only [List.append_assoc]

theorem memory_scratch (hx : h.Consists x) : h.memory.toList =
    (x.permanent ++ x.temporaries) ++ x.scratch ++ (x.free ++ words x.stack) := by
  rw [hx.memory, Parts.bytes, Parts.front]
  simp only [List.append_assoc]

theorem temporaryEnd_eq_length (hx : h.Consists x) :
    h.temporaryEnd = (x.permanent ++ x.temporaries).length := by
  rw [hx.temporaryEnd, List.length_append]

theorem permanent_eq (hx : h.Consists x) : h.permanent = x.permanent :=
  Memory.slice_middle [] _ hx.memory_permanent rfl (by rw [hx.permanentEnd, Nat.zero_add])

theorem temporaries_eq (hx : h.Consists x) : h.temporaries = x.temporaries :=
  Memory.slice_middle _ _ hx.memory_temporaries hx.permanentEnd
    (by rw [hx.temporaryEnd, hx.permanentEnd])

theorem scratchpad_eq (hx : h.Consists x) : h.scratchpad = x.scratch :=
  Memory.slice_middle _ _ hx.memory_scratch hx.temporaryEnd_eq_length
    (by rw [hx.scratchEnd, hx.temporaryEnd])

theorem slice?_permanent (hx : h.Consists x) :
    h.memory.slice? 0 h.permanentEnd = some x.permanent :=
  Memory.slice?_middle [] _ hx.memory_permanent rfl (by rw [hx.permanentEnd, Nat.zero_add])

theorem above?_eq (hx : h.Consists x) {mark : Nat} (hm : mark ≤ x.scratch.length) :
    h.above? mark = some (x.scratch.drop mark) := by
  have hs : h.memory.toList = (x.permanent ++ x.temporaries ++ x.scratch.take mark) ++
      x.scratch.drop mark ++ (x.free ++ words x.stack) := by
    rw [hx.memory_scratch, ← List.append_assoc, List.append_assoc _ (x.scratch.take mark),
      List.take_append_drop]
    simp only [List.append_assoc]
  refine Memory.slice?_middle _ _ hs ?_ ?_
  · simp only [hx.temporaryEnd_eq_length, List.length_append, List.length_take_of_le hm]
  · rw [hx.scratchEnd, hx.temporaryEnd, List.length_drop]
    omega

/-! What the operations do to the parts. -/

theorem withStack (hx : h.Consists x) {memory : Memory} {stack : List Nat}
    (hs : { h with memory }.Stacks x.front stack) :
    { h with memory }.Consists { x with stack } where
  memory := hs.memory
  permanentEnd := hx.permanentEnd
  temporaryEnd := hx.temporaryEnd
  scratchEnd := hx.scratchEnd
  stackStart := hx.stackStart
  fits := hs.fits

theorem setSlot? (hx : h.Consists x) {level p : Nat} (hl : level < x.stack.length)
    (hp : p < Word.bound slotSize) :
    ∃ memory, h.setSlot? level p = some { h with memory } ∧ { h with memory }.Consists
      { x with stack := x.stack.take level ++ p :: x.stack.drop (level + 1) } := by
  have hsplit : h.Stacks x.front
      (x.stack.take level ++ x.stack[level] :: x.stack.drop (level + 1)) := by
    rw [List.getElem_cons_drop, List.take_append_drop]
    exact hx.toStacks
  obtain ⟨memory, hset, hs⟩ := hsplit.setSlot? hp
  rw [List.length_take_of_le hl.le] at hset
  exact ⟨memory, hset, hx.withStack hs⟩

theorem roll? (hx : h.Consists x) (hn : n < x.stack.length) :
    ∃ memory, h.roll? n = some { h with memory } ∧ { h with memory }.Consists
      { x with stack := x.stack[n] :: x.stack.take n ++ x.stack.drop (n + 1) } := by
  obtain ⟨memory, hroll, hs⟩ := hx.toStacks.roll? hn
  exact ⟨memory, hroll, hx.withStack hs⟩

theorem push? (hx : h.Consists x) {position : Nat} (hp : position < Word.bound slotSize)
    (hfree : slotSize ≤ x.free.length) :
    ∃ h', h.push? position = some h' ∧ h'.Consists
      { x with
        free := x.free.take (x.free.length - slotSize)
        stack := position :: x.stack } := by
  have hsplit : h.Stacks (x.permanent ++ x.temporaries ++ x.scratch ++
      x.free.take (x.free.length - slotSize) ++ x.free.drop (x.free.length - slotSize))
      x.stack := by
    rw [List.append_assoc _ (x.free.take _), List.take_append_drop]
    exact hx.toStacks
  obtain ⟨memory, hpush, hs⟩ := hsplit.push? (by rw [List.length_drop]; omega)
    (by rw [hx.scratchEnd, hx.stackStart]; omega) hp
  refine ⟨_, hpush, hs.memory, hx.permanentEnd, hx.temporaryEnd, hx.scratchEnd, ?_, hs.fits⟩
  simp only [hx.stackStart, List.length_take]
  omega

theorem drop? (hx : h.Consists x) (hn : n ≤ x.stack.length) :
    ∃ h', h.drop? n = some h' ∧ h'.Consists
      { x with free := x.free ++ words (x.stack.take n), stack := x.stack.drop n } := by
  have hs := hx.toStacks.drop hn
  refine ⟨_, hx.toStacks.drop?_eq hn, ?_, hx.permanentEnd, hx.temporaryEnd, hx.scratchEnd, ?_,
    hs.fits⟩
  · rw [hs.memory, Parts.bytes, Parts.front, Parts.front]
    simp only [List.append_assoc]
  · rw [hs.stackStart, Parts.front]
    simp only [List.length_append, Nat.add_assoc]

theorem writeTemporaries {old : List UInt8} (temporaries new : List UInt8)
    (hx : h.Consists { x with temporaries := temporaries ++ old }) (hlen : new.length = old.length)
    {memory : Memory} (hm : memory.toList = x.permanent ++ temporaries ++ new ++
      (x.scratch ++ x.free ++ words x.stack)) :
    { h with memory }.Consists { x with temporaries := temporaries ++ new } where
  memory := by
    rw [hm, Parts.bytes, Parts.front]
    simp only [List.append_assoc]
  permanentEnd := hx.permanentEnd
  temporaryEnd := by simpa [hlen] using hx.temporaryEnd
  scratchEnd := by simpa [hlen] using hx.scratchEnd
  stackStart := by simpa [hlen] using hx.stackStart
  fits := hx.fits

/-- Any bytes may lie in the new place among the temporaries. -/
theorem extend? (hx : h.Consists x) (hn : n ≤ x.free.length) :
    ∃ h' junk, h.extend? n = some (h.temporaryEnd, h') ∧ junk.length = n ∧ h'.Consists
      { x with temporaries := x.temporaries ++ junk, free := x.free.drop n } := by
  have hmemory : h.memory.toList =
      (x.permanent ++ x.temporaries) ++ x.scratch ++ x.free ++ words x.stack := by
    rw [hx.memory_scratch, List.append_assoc _ x.free]
  obtain ⟨memory, junk, hcopy, hjunk, hm⟩ := Memory.copy?_up h.temporaryEnd h.scratchEnd
    hmemory hn hx.temporaryEnd_eq_length (by rw [hx.scratchEnd, hx.temporaryEnd]) rfl
  have hc : Consists
      { h with memory, temporaryEnd := h.temporaryEnd + n, scratchEnd := h.scratchEnd + n }
      { x with temporaries := x.temporaries ++ junk, free := x.free.drop n } := by
    refine ⟨?_, hx.permanentEnd, ?_, ?_, ?_, hx.fits⟩
    · rw [hm, Parts.bytes, Parts.front]
      simp only [List.append_assoc]
    · simp only [hx.temporaryEnd, List.length_append, hjunk]
      omega
    · simp only [hx.scratchEnd, List.length_append, hjunk]
      omega
    · simp only [hx.stackStart, List.length_append, List.length_drop, hjunk]
      omega
  refine ⟨_, junk, ?_, hjunk, hc⟩
  rw [Heap.extend?, hx.free?_eq]
  simp only [Option.bind_eq_bind, Option.bind_some]
  rw [if_neg (by omega), hcopy, Option.bind_some, hc.check?_eq]
  rfl

theorem grow? (hx : h.Consists x) (hn : n ≤ x.free.length) :
    h.grow? n = some (h.scratchEnd, { h with scratchEnd := h.scratchEnd + n }) ∧
      { h with scratchEnd := h.scratchEnd + n }.Consists
        { x with scratch := x.scratch ++ x.free.take n, free := x.free.drop n } := by
  refine ⟨?_, ?_, hx.permanentEnd, hx.temporaryEnd, ?_, ?_, hx.fits⟩
  · rw [Heap.grow?, hx.free?_eq]
    exact if_neg (by omega)
  · rw [hx.memory, Parts.bytes, Parts.bytes, Parts.front, Parts.front]
    rw [List.append_assoc _ (x.scratch ++ _), List.append_assoc x.scratch, List.take_append_drop]
    simp only [List.append_assoc]
  · simp only [hx.scratchEnd, List.length_append, List.length_take]
    omega
  · simp only [hx.stackStart, List.length_append, List.length_take, List.length_drop]
    omega

theorem withScratch {old new : List UInt8} (hx : h.Consists { x with scratch := x.scratch ++ old })
    (hlen : new.length = old.length) {memory : Memory}
    (hm : memory.toList = (x.permanent ++ x.temporaries ++ x.scratch) ++ new ++
      (x.free ++ words x.stack)) :
    { h with memory }.Consists { x with scratch := x.scratch ++ new } where
  memory := by
    rw [hm, Parts.bytes, Parts.front]
    simp only [List.append_assoc]
  permanentEnd := hx.permanentEnd
  temporaryEnd := hx.temporaryEnd
  scratchEnd := by simpa [hlen] using hx.scratchEnd
  stackStart := by simpa [hlen] using hx.stackStart
  fits := hx.fits

theorem append? (hx : h.Consists x) {new : List UInt8} (hn : new.length ≤ x.free.length) :
    ∃ h', h.append? new = some h' ∧ h'.Consists
      { x with scratch := x.scratch ++ new, free := x.free.drop new.length } := by
  obtain ⟨hgrow, hc⟩ := hx.grow? hn
  have hlen : (x.free.take new.length).length = new.length := List.length_take_of_le hn
  have hmemory : h.memory.toList = (x.permanent ++ x.temporaries ++ x.scratch) ++
      x.free.take new.length ++ (x.free.drop new.length ++ words x.stack) := by
    rw [hx.memory, Parts.bytes, Parts.front, ← List.append_assoc _ (x.free.drop _),
      List.append_assoc _ (x.free.take _), List.take_append_drop]
  obtain ⟨memory, hwrite, hm⟩ := Memory.write?_middle h.scratchEnd
    (h.scratchEnd + new.length) new hmemory hlen.symm
    (by rw [hx.scratchEnd]; simp only [List.length_append]) (by rw [hlen])
  refine ⟨{ h with memory, scratchEnd := h.scratchEnd + new.length }, ?_,
    hc.withScratch (x := { x with free := x.free.drop new.length }) hlen.symm hm⟩
  rw [Heap.append?, hgrow]
  simp only [Option.bind_eq_bind, Option.bind_some]
  rw [hwrite]
  rfl

/-- Bytes that lie before the stack can be copied to the scratchpad. -/
theorem appendCopy? (hx : h.Consists x) {start : Nat} {new : List UInt8}
    (hn : new.length ≤ x.free.length) (hstop : start + new.length ≤ h.capacity)
    (hnew : h.memory.slice start (start + new.length) = new) :
    ∃ h', h.appendCopy? start new.length = some h' ∧ h'.Consists
      { x with scratch := x.scratch ++ new, free := x.free.drop new.length } := by
  obtain ⟨hgrow, hc⟩ := hx.grow? hn
  have hlen : (x.free.take new.length).length = new.length := List.length_take_of_le hn
  have hmemory : h.memory.toList = (x.permanent ++ x.temporaries ++ x.scratch) ++
      x.free.take new.length ++ (x.free.drop new.length ++ words x.stack) := by
    rw [hx.memory, Parts.bytes, Parts.front, ← List.append_assoc _ (x.free.drop _),
      List.append_assoc _ (x.free.take _), List.take_append_drop]
  obtain ⟨memory, hcopy, hm⟩ := Memory.copy?_middle h.scratchEnd hmemory
    (Nat.le_add_right _ _) hstop hnew hlen.symm
    (by rw [hx.scratchEnd]; simp only [List.length_append])
  refine ⟨{ h with memory, scratchEnd := h.scratchEnd + new.length }, ?_,
    hc.withScratch (x := { x with free := x.free.drop new.length }) hlen.symm hm⟩
  rw [Heap.appendCopy?, hgrow]
  simp only [Option.bind_eq_bind, Option.bind_some]
  rw [hcopy]
  rfl

theorem truncate? (hx : h.Consists x) {length : Nat} (hl : length ≤ x.scratch.length) :
    ∃ h', h.truncate? length = some h' ∧ h'.Consists
      { x with scratch := x.scratch.take length, free := x.scratch.drop length ++ x.free } := by
  refine ⟨{ h with scratchEnd := h.temporaryEnd + length }, ?_, ?_, hx.permanentEnd,
    hx.temporaryEnd, ?_, ?_, hx.fits⟩
  · rw [Heap.truncate?, hx.scratchLength?_eq]
    exact if_pos hl
  · rw [hx.memory, Parts.bytes, Parts.bytes, Parts.front, Parts.front,
      ← List.append_assoc _ (x.scratch.drop _), List.append_assoc _ (x.scratch.take _),
      List.take_append_drop]
  · simp only [hx.temporaryEnd, List.length_take]
    omega
  · simp only [hx.stackStart, List.length_append, List.length_take, List.length_drop]
    omega

theorem truncate?_eq_none (hx : h.Consists x) {length : Nat} (hl : ¬length ≤ x.scratch.length) :
    h.truncate? length = none := by
  rw [Heap.truncate?, hx.scratchLength?_eq]
  exact if_neg hl

end Consists
end RpnMachine.Heap
