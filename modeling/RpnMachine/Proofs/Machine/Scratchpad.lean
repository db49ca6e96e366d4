import RpnMachine.Proofs.Machine.Room

/-! What is written to the scratchpad, and what is cut from it. -/
namespace RpnMachine

namespace Machine.Lays

variable {m : Machine} {c : Nat} {v : Image} {kept : List Item} {free : List UInt8}

theorem withHeap (h : m.Lays c v kept free) {heap : Heap} {free' : List UInt8}
    (scratch : List UInt8) (stack : List Place)
    (hc : heap.Consists (Image.arrangement { v with scratch, stack } kept free').parts)
    (hheld : ∀ q ∈ stack, q.item ∈ v.permanent ++ kept)
    (hlen : scratch.length + free'.length + Heap.slotSize * stack.length =
      v.scratch.length + free.length + Heap.slotSize * v.stack.length) :
    { m with heap }.Lays c { v with scratch, stack } kept free' := by
  have hcap : heap.capacity = c := by
    have hsum := hc.capacity_eq
    have hold := h.capacity_eq
    simp only [Image.arrangement, Arrangement.parts, List.length_map] at hsum
    have hp : Image.permanent { v with scratch, stack } = v.permanent := rfl
    rw [hp] at hsum
    omega
  refine ⟨h.valid.withRest _ _ _ _, h.sublist,
    ⟨hc, h.arranged.registered, h.arranged.distinct, fun q hq => ?_, ?_⟩, hcap, h.interrupted,
    h.nesting⟩
  · rcases List.mem_append.mp hq with hq | hq
    · exact hheld q hq
    · exact h.arranged.held q (List.mem_append_right _ hq)
  · have := h.arranged.capacity
    rw [h.capacity] at this
    simpa [hcap] using this

theorem scratchpad_eq (h : m.Lays c v kept free) : m.heap.scratchpad = v.scratch :=
  h.arranged.parts.scratchpad_eq

theorem withScratch (h : m.Lays c v kept free) {heap : Heap} {new : List UInt8}
    (hn : new.length ≤ free.length)
    (hc : heap.Consists
      (Image.arrangement { v with scratch := v.scratch ++ new } kept (free.drop new.length)).parts) :
    { m with heap }.Lays c { v with scratch := v.scratch ++ new } kept (free.drop new.length) := by
  refine h.withHeap _ v.stack hc (fun q hq => h.mem_of_mem_places (List.mem_append_left _ hq)) ?_
  simp only [List.length_append, List.length_drop]
  omega

theorem exec_scratchMark (h : m.Lays c v kept free) :
    Run.exec Run.scratchMark m = (.ok v.scratch.length, m) :=
  Run.exec_readHeap_some h.arranged.parts.scratchLength?_eq

theorem exec_scratchRelease (h : m.Lays c v kept free) {mark : Nat} (hm : mark ≤ v.scratch.length) :
    ∃ m' free', Run.exec (Run.scratchRelease mark) m = (.ok (), m') ∧
      m'.Lays c { v with scratch := v.scratch.take mark } kept free' := by
  obtain ⟨heap, he, hc⟩ := h.arranged.parts.truncate? hm
  refine ⟨{ m with heap }, _, Run.exec_updateHeap_some he, h.withHeap _ v.stack hc
    (fun q hq => h.mem_of_mem_places (List.mem_append_left _ hq)) ?_⟩
  simp only [Image.arrangement, Arrangement.parts, List.length_append, List.length_take,
    List.length_drop]
  omega

theorem exec_scratchRelease_error (h : m.Lays c v kept free) {mark : Nat}
    (hm : ¬mark ≤ v.scratch.length) :
    Run.exec (Run.scratchRelease mark) m = (.error .corrupt, m) := by
  rw [Run.scratchRelease, Run.exec_updateHeap, h.arranged.parts.truncate?_eq_none hm]

theorem exec_scratchAbove (h : m.Lays c v kept free) {mark : Nat} (hm : mark ≤ v.scratch.length) :
    Run.exec (Run.scratchAbove mark) m = (.ok (v.scratch.drop mark), m) :=
  Run.exec_readHeap_some (h.arranged.parts.above?_eq hm)

theorem exec_scratchAppend_error (h : m.Lays c v kept free) {new : List UInt8}
    (hn : ¬v.used + new.length ≤ c) :
    ∃ m' kept' free', Run.exec (Run.scratchAppend new) m =
      (.error (.error (.outOfMemory new.length)), m') ∧ m'.Lays c v kept' free' := by
  obtain ⟨m', kept', free', he, h'⟩ := h.exec_reserve_error hn
  exact ⟨m', kept', free', Run.exec_bind_error he _, h'⟩

theorem slice_eq (h : m.Lays c v kept free) {q : Place} (hq : q ∈ v.places) :
    m.heap.memory.slice (q.position (v.permanent ++ kept))
      (q.position (v.permanent ++ kept) + q.tree.size) = q.tree.encode := by
  obtain ⟨rest, hrest⟩ := h.encode_at_position hq
  rw [Memory.slice_eq, List.drop_take, Nat.add_sub_cancel_left, ← hrest]
  exact List.take_left' rfl

theorem exec_scratchAppendObject (h : m.Lays c v kept free) {p : Pointer} {q : Place}
    (hp : v.deref p = some q) (hn : v.used + q.tree.size ≤ c) :
    ∃ m' kept' free', Run.exec (Run.scratchAppendObject p) m = (.ok (), m') ∧
      m'.Lays c { v with scratch := v.scratch ++ q.tree.encode } kept' free' := by
  obtain ⟨m', kept', free', he, h', hfree⟩ := h.exec_reserve hn
  have hq := Image.mem_places_of_deref hp
  have hroom : q.tree.encode.length ≤ free'.length := hfree
  obtain ⟨heap, happend, hc⟩ := h'.arranged.parts.appendCopy? hroom
    (h'.arranged.position_add_size_le (h'.mem_of_mem_places hq)) (h'.slice_eq hq)
  refine ⟨_, kept', _, ?_, h'.withScratch hfree hc⟩
  rw [Run.scratchAppendObject, Run.exec_bind_ok (h.exec_size hp), Run.exec_bind_ok he,
    Run.exec_bind_ok (h'.exec_position hp)]
  exact Run.exec_updateHeap_some happend

theorem exec_scratchAppendObject_error (h : m.Lays c v kept free) {p : Pointer} {q : Place}
    (hp : v.deref p = some q) (hn : ¬v.used + q.tree.size ≤ c) :
    ∃ m' kept' free', Run.exec (Run.scratchAppendObject p) m =
      (.error (.error (.outOfMemory q.tree.size)), m') ∧ m'.Lays c v kept' free' := by
  obtain ⟨m', kept', free', he, h'⟩ := h.exec_reserve_error hn
  refine ⟨m', kept', free', ?_, h'⟩
  rw [Run.scratchAppendObject, Run.exec_bind_ok (h.exec_size hp), Run.exec_bind_error he]

theorem exec_scratchAppend (h : m.Lays c v kept free) {new : List UInt8}
    (hn : v.used + new.length ≤ c) :
    ∃ m' kept' free', Run.exec (Run.scratchAppend new) m = (.ok (), m') ∧
      m'.Lays c { v with scratch := v.scratch ++ new } kept' free' := by
  obtain ⟨m', kept', free', he, h', hfree⟩ := h.exec_reserve hn
  obtain ⟨heap, happend, hc⟩ := h'.arranged.parts.append? hfree
  refine ⟨_, kept', _, ?_, h'.withScratch hfree hc⟩
  rw [Run.scratchAppend, Run.exec_bind_ok he]
  exact Run.exec_updateHeap_some happend

theorem exec_lengthAbove (h : m.Lays c v kept free) {mark : Nat} (hm : mark ≤ v.scratch.length) :
    Run.exec (Run.readHeap fun h => do Word.minus? (← h.scratchLength?) mark) m =
      (.ok (v.scratch.drop mark).length, m) := h.arranged.exec_lengthAbove hm

theorem exec_lengthAbove_error (h : m.Lays c v kept free) {mark : Nat}
    (hm : ¬mark ≤ v.scratch.length) :
    Run.exec (Run.readHeap fun h => do Word.minus? (← h.scratchLength?) mark) m =
      (.error .corrupt, m) := by
  have hshort : Word.minus? v.scratch.length mark = none := if_neg hm
  rw [Run.exec_readHeap, h.arranged.parts.scratchLength?_eq]
  exact congrArg (fun n => Run.exec (Run.ofOption n) m) hshort

end Machine.Lays
end RpnMachine
