import RpnMachine.Proofs.Machine.Scratchpad

/-! The stack: what its operations do to the image. -/
namespace RpnMachine

/-- The failure where there is no such level. -/
def unreached (level depth : Nat) : Failure :=
  if level + 1 < Word.bound 8 then .error (.tooFewArguments (level + 1) depth) else .corrupt

namespace Run

variable {m : Machine} {d n : Nat}

theorem exec_args_of_le (hd : m.heap.depth? = some d) (hn : n ≤ d) :
    exec (args n) m = (.ok (), m) := by
  rw [args, depth, exec_bind_ok (exec_readHeap_some hd), if_neg (Nat.not_lt.mpr hn)]
  rfl

theorem exec_args_of_lt (hd : m.heap.depth? = some d) (hn : d < n) :
    exec (args n) m = (.error (.error (.tooFewArguments n d)), m) := by
  rw [args, depth, exec_bind_ok (exec_readHeap_some hd), if_pos hn]
  rfl

end Run

namespace Machine.Lays

variable {m : Machine} {c : Nat} {v : Image} {kept : List Item} {free : List UInt8}

theorem mem_of_mem_stack (h : m.Lays c v kept free) {q : Place} (hq : q ∈ v.stack) :
    q.item ∈ v.permanent ++ kept := h.mem_of_mem_places (List.mem_append_left _ hq)

theorem length_stack_lt (h : m.Lays c v kept free) : v.stack.length + 1 < Word.bound 8 := by
  have hcap := h.capacity_eq
  have hlt := h.arranged.capacity
  rw [h.capacity] at hlt
  have hb : Word.bound Heap.slotSize = 4294967296 := by decide
  have hb' : Word.bound 8 = 18446744073709551616 := by decide
  simp only [Heap.slotSize] at hcap
  omega

theorem slot?_eq (h : m.Lays c v kept free) {level : Nat} (hl : level < v.stack.length) :
    m.heap.slot? level = some (v.stack[level].position (v.permanent ++ kept)) := by
  rw [h.arranged.parts.slot?_eq (by simpa [Arrangement.parts, Image.arrangement] using hl)]
  simp [Arrangement.parts, Image.arrangement, Arrangement.items]

theorem depth?_eq (h : m.Lays c v kept free) : m.heap.depth? = some v.stack.length := by
  rw [h.arranged.parts.depth?_eq]
  simp [Arrangement.parts, Image.arrangement]

theorem exec_depth (h : m.Lays c v kept free) :
    Run.exec Run.depth m = (.ok v.stack.length, m) := Run.exec_readHeap_some h.depth?_eq

theorem exec_args (h : m.Lays c v kept free) {n : Nat} (hn : n ≤ v.stack.length) :
    Run.exec (Run.args n) m = (.ok (), m) := Run.exec_args_of_le h.depth?_eq hn

theorem exec_args_error (h : m.Lays c v kept free) {n : Nat} (hn : ¬n ≤ v.stack.length) :
    Run.exec (Run.args n) m = (.error (.error (.tooFewArguments n v.stack.length)), m) :=
  Run.exec_args_of_lt h.depth?_eq (Nat.not_le.mp hn)

theorem exec_reach (h : m.Lays c v kept free) {level : Nat} (hl : level < v.stack.length) :
    Run.exec (Run.reach level) m = (.ok (), m) := by
  have := h.length_stack_lt
  rw [Run.reach, if_pos (by omega)]
  exact h.exec_args (by omega)

theorem exec_reach_error (h : m.Lays c v kept free) {level : Nat} (hl : ¬level < v.stack.length) :
    Run.exec (Run.reach level) m = (.error (unreached level v.stack.length), m) := by
  rw [Run.reach, unreached]
  split_ifs
  · exact h.exec_args_error (by omega)
  · rfl

theorem exec_peek (h : m.Lays c v kept free) (level : Nat) (hl : level < v.stack.length) :
    ∃ m', Run.exec (Run.peek level) m = (.ok ⟨v.slots.length⟩, m') ∧
      m'.Lays c (v.hold v.stack[level]) kept free := by
  rw [Run.peek, Run.exec_bind_ok (h.exec_reach hl),
    Run.exec_bind_ok (Run.exec_readHeap_some (h.slot?_eq hl))]
  exact h.exec_register (h.mem_of_mem_stack (List.getElem_mem hl))

theorem withStack (h : m.Lays c v kept free) {heap : Heap} {stack : List Place} {free' : List UInt8}
    (hc : heap.Consists (Image.arrangement { v with stack } kept free').parts)
    (hheld : ∀ q ∈ stack, q.item ∈ v.permanent ++ kept)
    (hlen : free'.length + Heap.slotSize * stack.length =
      free.length + Heap.slotSize * v.stack.length) :
    { m with heap }.Lays c { v with stack } kept free' :=
  h.withHeap v.scratch stack hc hheld (by rw [Nat.add_assoc, hlen, Nat.add_assoc])

theorem drop? (h : m.Lays c v kept free) {n : Nat} (hn : n ≤ v.stack.length) :
    ∃ heap free', m.heap.drop? n = some heap ∧
      { m with heap }.Lays c { v with stack := v.stack.drop n } kept free' := by
  obtain ⟨heap, hdrop, hc⟩ := h.arranged.parts.drop? (n := n)
    (by simpa [Arrangement.parts, Image.arrangement] using hn)
  refine ⟨heap, free ++ Heap.words ((v.stack.take n).map (·.position (v.permanent ++ kept))), hdrop,
    h.withStack ?_ (fun q hq => h.mem_of_mem_stack (List.mem_of_mem_drop hq)) ?_⟩
  · simp only [Arrangement.parts, Image.arrangement, Arrangement.items, List.map_drop,
      List.map_take] at hc ⊢
    exact hc
  · simp only [List.length_append, List.length_drop, Heap.length_words, List.length_take,
      List.length_map, min_eq_left hn]
    have : Heap.slotSize * v.stack.length =
        Heap.slotSize * n + Heap.slotSize * (v.stack.length - n) := by
      rw [← Nat.mul_add]
      congr 1
      omega
    omega

theorem setSlot? (h : m.Lays c v kept free) {level : Nat} {q : Place} (hl : level < v.stack.length)
    (hq : q.item ∈ v.permanent ++ kept) :
    ∃ heap, m.heap.setSlot? level (q.position (v.permanent ++ kept)) = some heap ∧
      { m with heap }.Lays c { v with stack := v.stack.set level q } kept free := by
  have hlevel : level < (v.arrangement kept free).parts.stack.length := by
    simpa [Arrangement.parts, Image.arrangement] using hl
  obtain ⟨memory, hset, hc⟩ := h.arranged.parts.setSlot? hlevel (h.position_lt hq)
  refine ⟨_, hset, h.withStack ?_ (fun q' hq' => ?_) (by rw [List.length_set])⟩
  · have hmap := List.set_eq_take_append_cons_drop
      (l := v.stack.map (·.position (v.permanent ++ kept))) (i := level)
      (a := q.position (v.permanent ++ kept))
    rw [List.length_map, if_pos hl, ← List.map_set] at hmap
    simp only [Arrangement.parts, Image.arrangement, Arrangement.items] at hc ⊢
    rw [← hmap] at hc
    exact hc
  · rcases List.mem_or_eq_of_mem_set hq' with hq' | rfl
    · exact h.mem_of_mem_stack hq'
    · exact hq

theorem exec_pop (h : m.Lays c v kept free) {q : Place} {qs : List Place}
    (hs : v.stack = q :: qs) :
    ∃ m' free', Run.exec Run.pop m = (.ok ⟨v.slots.length⟩, m') ∧
      m'.Lays c { v.hold q with stack := qs } kept free' := by
  obtain ⟨m₁, he₁, h₁⟩ := h.exec_peek 0 (by simp [hs])
  simp only [hs, List.getElem_cons_zero] at h₁
  have hs₁ : (v.hold q).stack = q :: qs := hs
  obtain ⟨heap, free', hdrop, h₂⟩ := h₁.drop? (n := 1) (by simp [hs₁])
  refine ⟨_, free', ?_, by simpa only [hs₁, List.drop_one, List.tail_cons] using h₂⟩
  rw [Run.pop, Run.exec_bind_ok he₁, Run.exec_bind_ok (Run.exec_updateHeap_some hdrop)]
  rfl

theorem exec_put (h : m.Lays c v kept free) {level : Nat} {p : Pointer} {q : Place}
    (hl : level < v.stack.length) (hp : v.deref p = some q) :
    ∃ m', Run.exec (Run.put level p) m = (.ok (), m') ∧
      m'.Lays c { v with stack := v.stack.set level q } kept free := by
  obtain ⟨heap, hset, h'⟩ := h.setSlot? hl (h.mem_of_mem_places (Image.mem_places_of_deref hp))
  refine ⟨_, ?_, h'⟩
  rw [Run.put, Run.exec_bind_ok (h.exec_reach hl), Run.exec_bind_ok (h.exec_position hp)]
  exact Run.exec_updateHeap_some hset

theorem exec_discard (h : m.Lays c v kept free) {n : Nat} (hn : n ≤ v.stack.length) :
    ∃ m' free', Run.exec (Run.discard n) m = (.ok (), m') ∧
      m'.Lays c { v with stack := v.stack.drop n } kept free' := by
  obtain ⟨heap, free', hdrop, h'⟩ := h.drop? hn
  refine ⟨_, free', ?_, h'⟩
  rw [Run.discard, Run.exec_bind_ok (h.exec_args hn)]
  exact Run.exec_updateHeap_some hdrop

theorem exec_clear (h : m.Lays c v kept free) :
    ∃ m' free', Run.exec Run.clear m = (.ok (), m') ∧
      m'.Lays c { v with stack := [] } kept free' := by
  obtain ⟨heap, free', hdrop, h'⟩ := h.drop? (le_refl _)
  refine ⟨_, free', Run.exec_updateHeap_some ?_, by simpa only [List.drop_length] using h'⟩
  rw [h.depth?_eq]
  exact hdrop

theorem exec_roll (h : m.Lays c v kept free) {n : Nat} (hn : n < v.stack.length) :
    ∃ m', Run.exec (Run.roll (n + 1)) m = (.ok (), m') ∧
      m'.Lays c { v with stack := v.stack[n] :: v.stack.take n ++ v.stack.drop (n + 1) } kept
        free := by
  obtain ⟨heap, hroll, hcap, harranged⟩ := h.arranged.roll? hn
  refine ⟨{ m with heap }, ?_, h.valid.withRest _ _ _ _, h.sublist, harranged,
    hcap.trans h.capacity, h.interrupted, h.nesting⟩
  rw [Run.roll, Run.exec_bind_ok (h.exec_args hn)]
  exact Run.exec_updateHeap_some hroll

theorem exec_push (h : m.Lays c v kept free) {p : Pointer} {q : Place}
    (hn : v.used + Heap.slotSize ≤ c) (hp : v.deref p = some q) :
    ∃ m' kept' free', Run.exec (Run.push p) m = (.ok (), m') ∧
      m'.Lays c { v with stack := q :: v.stack } kept' free' := by
  obtain ⟨m₁, kept₁, free₁, he₁, h₁, hfree⟩ := h.exec_reserve hn
  have hq := h₁.mem_of_mem_places (Image.mem_places_of_deref hp)
  obtain ⟨heap, hpush, hc⟩ := h₁.arranged.parts.push? (h₁.position_lt hq) hfree
  refine ⟨_, kept₁, _, ?_, h₁.withStack hc (fun q' hq' => ?_) ?_⟩
  · rw [Run.push, Run.exec_bind_ok he₁, Run.exec_bind_ok (h₁.exec_position hp)]
    exact Run.exec_updateHeap_some hpush
  · rcases List.mem_cons.mp hq' with rfl | hq'
    · exact hq
    · exact h₁.mem_of_mem_stack hq'
  · simp only [Arrangement.parts, Image.arrangement, List.length_take, List.length_cons,
      Heap.slotSize] at hfree ⊢
    omega

theorem exec_push_error (h : m.Lays c v kept free) (p : Pointer)
    (hn : ¬v.used + Heap.slotSize ≤ c) :
    ∃ m' kept' free', Run.exec (Run.push p) m =
      (.error (.error (.outOfMemory Heap.slotSize)), m') ∧ m'.Lays c v kept' free' := by
  obtain ⟨m', kept', free', he, h'⟩ := h.exec_reserve_error hn
  exact ⟨m', kept', free', Run.exec_bind_error he _, h'⟩

end Machine.Lays
end RpnMachine
