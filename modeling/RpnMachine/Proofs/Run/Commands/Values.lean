import RpnMachine.Proofs.Run.Commands.Results

/-! Commands that compute a number or a truth value, and those that ask the machine for a number. -/
namespace RpnMachine

namespace Run

variable {c₁ c₂ : Nat} {v : Image}

theorem exchanges_unary (hc : c₁ ≤ c₂) {op : Number → Except Failure Number}
    (hop : ∀ x e, x.IsWord → op x = .error e → e.isExpected) :
    Exchanges c₁ c₂ v (unary op) 1 LoneAtom := by
  apply Exchanges.reading (reads_args 1)
  intro _ hn
  apply Exchanges.reading (Reads.peeking hn (reads_number (v.deref_hold_self _)))
  intro x hx
  apply Exchanges.reading (Reads.ofOutcome fun e he => hop x e hx he)
  intro y _
  exact exchanges_makingNumber hc y hn

theorem exchanges_binary (hc : c₁ ≤ c₂) {op : Number → Number → Except Failure Number}
    (hop : ∀ x y e, x.IsWord → op x y = .error e → e.isExpected) :
    Exchanges c₁ c₂ v (binary op) 2 LoneAtom := by
  apply Exchanges.reading (reads_args 2)
  intro _ hn
  have hn₀ : 0 < v.stack.length := by omega
  apply Exchanges.reading (Reads.peeking hn (reads_number (v.deref_hold_self _)))
  intro x hx
  apply Exchanges.reading (Reads.peeking hn₀ (reads_number (v.deref_hold_self _)))
  intro y _
  apply Exchanges.reading (Reads.ofOutcome fun e he => hop x y e hx he)
  intro z _
  exact exchanges_makingNumber hc z hn

theorem exchanges_compareWith (hc : c₁ ≤ c₂) {test : Pointer → Pointer → Run Bool}
    (htest : ∀ v p q p' q', Image.deref v p = some q → v.deref p' = some q' →
      Reads c₁ c₂ v (test p p') fun _ => True) :
    Exchanges c₁ c₂ v (compareWith test) 2 LoneAtom := by
  apply Exchanges.reading (reads_args 2)
  intro _ hn
  have hn₀ : 0 < (v.hold v.stack[1]).stack.length := by
    simp only [Image.hold]
    omega
  have hp := Image.deref_hold (v.deref_hold_self v.stack[1]) (v.hold v.stack[1]).stack[0]
  have hp' := (v.hold v.stack[1]).deref_hold_self (v.hold v.stack[1]).stack[0]
  apply Exchanges.reading (Reads.peeking hn (Reads.peeking hn₀ (htest _ _ _ _ _ hp hp')))
  intro b _
  exact exchanges_makingBool hc b hn

theorem exchanges_ordered (hc : c₁ ≤ c₂) (test : Ordering → Bool) :
    Exchanges c₁ c₂ v (ordered test) 2 LoneAtom := by
  apply exchanges_compareWith hc
  intro v p q p' q' hp hp'
  exact (reads_order hp hp').bind fun _ _ => .pure trivial

theorem exchanges_logic (hc : c₁ ≤ c₂) (op : Bool → Bool → Bool) :
    Exchanges c₁ c₂ v (logic op) 2 LoneAtom := by
  apply Exchanges.reading (reads_args 2)
  intro _ hn
  have hn₀ : 0 < v.stack.length := by omega
  apply Exchanges.reading (Reads.peeking hn (reads_truth (v.deref_hold_self _)))
  intro x _
  apply Exchanges.reading (Reads.peeking hn₀ (reads_truth (v.deref_hold_self _)))
  intro y _
  exact exchanges_makingBool hc (op x y) hn

theorem exchanges_negate (hc : c₁ ≤ c₂) : Exchanges c₁ c₂ v negate 1 LoneAtom := by
  apply Exchanges.reading (reads_args 1)
  intro _ hn
  apply Exchanges.reading (Reads.peeking hn (reads_truth (v.deref_hold_self _)))
  intro x _
  exact exchanges_makingBool hc (!x) hn

theorem exchanges_depth (hc : c₁ ≤ c₂) :
    Exchanges c₁ c₂ v (do making (.ofNat (← depth)) push) 0 LoneAtom := by
  apply Exchanges.bind_yields fun _ => yields_depth
  apply exchanges_making (t := .integer false v.stack.length.toUInt64) hc trivial
  exact exchanges_push hc ((v.add _).deref_hold_self _)

/-- What is free is what is not in use. -/
theorem exchanges_mem (c : Nat) : Exchanges c c v mem 0 LoneAtom := by
  have hmem : ∀ m, Machine.Represents m c v → ∃ m',
      exec mem m = exec (making (.ofNat (c - v.used)) push) m' ∧ m'.Represents c v := by
    intro m hm
    obtain ⟨kept, free, h⟩ := hm
    obtain ⟨done, m', free', he, h'⟩ := h.exec_collect
    obtain ⟨stats, hstats, hfree⟩ := h'.arranged.parts.exists_stats m'.registry
    have hleft : stats.free = c - v.used := by
      have := h'.used_add_free_eq
      rw [hfree]
      exact Nat.eq_sub_of_add_eq' this
    refine ⟨m'.sample, ?_, v.live, free', h'.valid, h'.sublist, h'.arranged, h'.capacity,
      h'.interrupted, h'.nesting⟩
    rw [mem, exec_bind_ok he, exec_bind_ok (exec_sample hstats), hleft]
  apply Agree.after_exec hmem hmem
  apply exchanges_making (t := .integer false (c - v.used).toUInt64) le_rfl trivial
  exact exchanges_push le_rfl ((v.add _).deref_hold_self _)

end Run

end RpnMachine
