import RpnMachine.Proofs.Machine.Pointer

/-! Collections, and room that they make. There is room exactly if what is in use leaves it, no matter
when temporaries were dropped. -/
namespace RpnMachine

namespace Heap

theorem Consists.exists_stats {h : Heap} {x : Parts} (hx : h.Consists x) (r : Registry) :
    ∃ stats, Stats.of? h r = some stats ∧ stats.free = x.free.length := by
  rw [Stats.of?, Word.minus?_eq hx.permanentEnd_le, hx.scratchLength?_eq, hx.depth?_eq, hx.free?_eq]
  exact ⟨_, rfl, rfl⟩

end Heap

namespace Run

/-- A collection takes the statistics before it changes the heap. -/
theorem exec_collect {m : Machine} {x : Heap.Parts} {heap : Heap} {registry : Registry}
    {done : Collection} (hx : m.heap.Consists x)
    (h : m.heap.collect? m.registry = some (done, heap, registry)) :
    exec collect m = (.ok done, { m.sample with heap, registry }) := by
  obtain ⟨stats, hstats, -⟩ := hx.exists_stats m.registry
  rw [collect, exec_bind_ok (exec_sample hstats)]
  exact exec_changeBoth_some h

/-- Where there is no room before a collection, there may be after it. -/
theorem exec_reserve_of_lt {m m' : Machine} {x x' : Heap.Parts} {done : Collection} {n : Nat}
    (hx : m.heap.Consists x) (hlt : x.free.length < n) (h : exec collect m = (.ok done, m'))
    (hx' : m'.heap.Consists x') :
    exec (reserve n) m =
      (if x'.free.length < n then .error (.error (.outOfMemory n)) else .ok (), m') := by
  rw [reserve, exec_bind_ok (exec_readHeap_some hx.free?_eq), if_pos hlt, exec_bind_ok h,
    exec_bind_ok (exec_readHeap_some hx'.free?_eq)]
  split_ifs <;> rfl

theorem exec_reserve_of_le {m : Machine} {x : Heap.Parts} {n : Nat} (hx : m.heap.Consists x)
    (hle : n ≤ x.free.length) : exec (reserve n) m = (.ok (), m) := by
  rw [reserve, exec_bind_ok (exec_readHeap_some hx.free?_eq), if_neg (by omega)]
  rfl

end Run

namespace Heap.Arranged

variable {m : Machine} {a : Arrangement}

/-- A collection keeps the items that something refers to. -/
theorem exec_collect (ha : m.heap.Arranged m.registry a) :
    ∃ heap registry free,
      Run.exec Run.collect m = (.ok a.collection, { m.sample with heap, registry }) ∧
      heap.capacity = m.heap.capacity ∧
      heap.Arranged registry { a with temporaries := a.kept, free } := by
  obtain ⟨heap, registry, free, he, hcap, ha'⟩ := ha.collect?
  exact ⟨heap, registry, free, Run.exec_collect ha.parts he, hcap, ha'⟩

theorem exec_lengthAbove (ha : m.heap.Arranged m.registry a) {mark : Nat}
    (hm : mark ≤ a.scratch.length) :
    Run.exec (Run.readHeap fun h => do Word.minus? (← h.scratchLength?) mark) m =
      (.ok (a.scratch.drop mark).length, m) := by
  refine Run.exec_readHeap_some ?_
  rw [ha.parts.scratchLength?_eq, List.length_drop]
  exact Word.minus?_eq hm

end Heap.Arranged

namespace Machine.Lays

variable {m : Machine} {c : Nat} {v : Image} {kept : List Item} {free : List UInt8}

/-- A collection keeps what is live, and nothing else changes. -/
theorem exec_collect (h : m.Lays c v kept free) :
    ∃ done m' free', Run.exec Run.collect m = (.ok done, m') ∧ m'.Lays c v v.live free' := by
  obtain ⟨heap, registry, free', he, hcap, ha⟩ := h.arranged.exec_collect
  refine ⟨_, { m.sample with heap, registry }, free', he, h.valid, List.filter_sublist, ?_,
    hcap.trans h.capacity, h.interrupted, h.nesting⟩
  rw [h.live_eq]
  exact ha

/-- There is room exactly if what is in use leaves it. -/
theorem exec_reserve (h : m.Lays c v kept free) {n : Nat} (hn : v.used + n ≤ c) :
    ∃ m' kept' free', Run.exec (Run.reserve n) m = (.ok (), m') ∧ m'.Lays c v kept' free' ∧
      n ≤ free'.length := by
  rcases Nat.lt_or_ge free.length n with hlt | hle
  · obtain ⟨done, m', free', he, h'⟩ := h.exec_collect
    have hfree := h'.used_add_free_eq
    have hle : n ≤ free'.length := by omega
    refine ⟨m', v.live, free', ?_, h', hle⟩
    rw [Run.exec_reserve_of_lt h.arranged.parts hlt he h'.arranged.parts]
    exact congrArg (·, m') (if_neg (Nat.not_lt.mpr hle))
  · exact ⟨m, kept, free, Run.exec_reserve_of_le h.arranged.parts hle, h, hle⟩

theorem exec_reserve_error (h : m.Lays c v kept free) {n : Nat} (hn : ¬v.used + n ≤ c) :
    ∃ m' kept' free', Run.exec (Run.reserve n) m = (.error (.error (.outOfMemory n)), m') ∧
      m'.Lays c v kept' free' := by
  have hle := h.used_add_free
  obtain ⟨done, m', free', he, h'⟩ := h.exec_collect
  have hfree := h'.used_add_free_eq
  have hlt : free'.length < n := by omega
  refine ⟨m', v.live, free', ?_, h'⟩
  rw [Run.exec_reserve_of_lt h.arranged.parts (show free.length < n by omega) he h'.arranged.parts]
  exact congrArg (·, m') (if_pos hlt)

end Machine.Lays
end RpnMachine
