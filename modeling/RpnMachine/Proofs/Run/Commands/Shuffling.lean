import RpnMachine.Proofs.Run.Commands.Results
import RpnMachine.Proofs.Run.Tame

/-! Commands that move, copy and remove what is on the stack. -/
namespace RpnMachine

namespace Run

variable {c₁ c₂ : Nat} {v : Image} {p : Pointer} {q : Place}

theorem exchanges_discard (n : Nat) : Exchanges c₁ c₂ v (discard n) n (· = []) := by
  by_cases hn : n ≤ v.stack.length
  · exact .of_yields (fun _ => yields_discard hn) rfl ⟨hn, rfl, by simp⟩
  · exact .of_yields_error (fun _ => yields_discard_error hn) rfl

theorem exchanges_clear : Exchanges c₁ c₂ v clear v.stack.length (· = []) := by
  refine .of_yields (fun _ => yields_clear) rfl ?_
  refine ⟨le_rfl, ?_, by simp⟩
  rw [List.drop_length]
  rfl

theorem exchanges_roll (n : Nat) :
    Exchanges c₁ c₂ v (roll (n + 1)) (n + 1) (·.Perm (v.stack.take (n + 1))) := by
  by_cases hn : n < v.stack.length
  · have hperm : (v.stack[n] :: v.stack.take n).Perm (v.stack.take (n + 1)) := by
      rw [List.take_succ_eq_append_getElem hn]
      exact List.perm_append_singleton _ _ |>.symm
    refine .of_yields (fun _ => yields_roll hn) hperm ⟨hn, rfl, ?_⟩
    intro hs q hq
    exact hs.stack q (List.mem_of_mem_take (hperm.mem_iff.mp hq))
  · exact .of_yields_error (fun _ => yields_roll_error hn) rfl

theorem exchanges_copy (hc : c₁ ≤ c₂) {level : Nat} (hlevel : level + 1 < Word.bound 8) :
    Exchanges c₁ c₂ v (acquiring (peek level) push) 0
      fun new => ∃ hl : level < v.stack.length, new = [v.stack[level]] := by
  by_cases hl : level < v.stack.length
  · apply Exchanges.peeking hl
    exact (exchanges_push hc (v.deref_hold_self _)).mono fun _ hnew => ⟨hl, hnew⟩
  · apply Agree.bind_yields_error fun _ => yields_peek_error level hl
    refine ⟨rfl, .of_isExpected ?_⟩
    rw [unreached, if_pos hlevel]
    rfl

theorem exchanges_pick :
    Exchanges c₁ c₂ v pick 1 fun new => ∃ (n : Nat) (hn : n < v.stack.length),
      v.top? = some (.integer n) ∧ new = [v.stack[n]] := by
  apply Exchanges.reading (reads_args 1)
  intro _ hn
  apply Exchanges.reading (Reads.peeking hn (reads_natural (v.deref_hold_self _)))
  intro n hvalue
  by_cases hzero : n = 0
  · rw [if_pos hzero]
    exact Exchanges.fail_bind rfl
  · rw [if_neg hzero]
    apply Exchanges.reading (reads_argsBelow n)
    intro _ hlt
    apply Exchanges.peeking hlt
    apply (exchanges_put (v := v.hold v.stack[n]) hn (v.deref_hold_self _)).mono
    intro new hnew
    exact ⟨n, hlt, (Image.top?_eq hn).trans (congrArg some hvalue), hnew⟩

theorem agree_dropN : Agree c₁ c₂ v dropN dropN
    (fun _ v' => ∃ n : Nat, v.top? = some (.integer n) ∧ v.Replaces (n + 1) [] v') (Spares v) := by
  apply Reads.sparing (reads_args 1)
  intro _ hn
  apply Reads.sparing (Reads.peeking hn (reads_natural (v.deref_hold_self _)))
  intro n hvalue
  apply Reads.sparing (reads_argsBelow n)
  intro _ _
  apply Agree.mono (exchanges_discard (n + 1))
  · intro _ w hw
    obtain ⟨_, rfl, hreplaces⟩ := hw
    exact ⟨n, (Image.top?_eq hn).trans (congrArg some hvalue), hreplaces⟩
  · exact fun _ _ h => h

/-- An object is pushed, or some of those on the stack are removed. -/
theorem agree_push_or_discard (hc : c₁ ≤ c₂) (hp : v.deref p = some q) {n : Nat}
    (hn : n ≤ v.stack.length) :
    Agree c₁ c₂ v (onFailure (discard n) (push p)) (onFailure (discard n) (push p))
      (fun _ v' => v' = { v with stack := q :: v.stack })
      fun e v' => e.lacksMemory ∧ v' = { v with stack := v.stack.drop n } := by
  apply Agree.onFailure ((agree_push hc hp).mono (fun _ _ h => h.2) fun _ _ h => h)
  intro e w hw
  obtain ⟨he, rfl⟩ := hw
  exact ⟨_, fun _ => yields_discard hn, he.lacksMemory, rfl⟩

theorem exchanges_dup2 (hc : c₁ ≤ c₂) :
    Exchanges c₁ c₂ v dup2 0 fun new => 1 < v.stack.length ∧ new = v.stack.take 2 := by
  apply Exchanges.reading (reads_args 2)
  intro _ hn
  have hn₀ : 0 < v.stack.length := by omega
  have hfirst : Exchanges c₁ c₂ v (acquiring (peek 1) push) 0 (· = [v.stack[1]]) :=
    .peeking hn (exchanges_push hc (v.deref_hold_self _))
  apply Agree.bind hfirst
  intro _ w hw
  obtain ⟨_, rfl, hreplaces⟩ := hw
  have hstack : w.stack = v.stack[1] :: v.stack := congrArg Content.stack hreplaces.content
  have hn₁ : 1 < w.stack.length := by
    rw [hstack, List.length_cons]
    omega
  have htop : w.stack[1] = v.stack[0] := by simp [hstack]
  -- The second object is pushed, or the first one is removed again.
  apply Agree.of_valid
  intro hw'
  apply Agree.bind_yields (fun _ => yields_peek hn₁)
  apply Agree.holding
  apply (agree_push_or_discard hc (w.deref_hold_self _) (n := 1) hn₁.le).mono
  · intro _ u hu
    have hheld : u.content = { (w.hold w.stack[1]).content with stack := w.stack[1] :: w.stack } := by
      rw [hu]
      rfl
    have hcontent := Image.content_release_hold hw' hheld
    have htake : v.stack.take 2 = [v.stack[0], v.stack[1]] := by
      rw [List.take_succ_eq_append_getElem hn, List.take_succ_eq_append_getElem hn₀]
      rfl
    refine ⟨w.lt_length_slots (q := w.stack[1]) (by rw [hu]), _, ⟨hn, rfl⟩, Nat.zero_le _, ?_,
      fun hs q hq => hs.stack q (List.mem_of_mem_take hq)⟩
    rw [hcontent, htop, hstack, hreplaces.content, htake]
    rfl
  · intro e u hu
    have hheld : u.content = { (w.hold w.stack[1]).content with stack := w.stack.drop 1 } := by
      rw [hu.2]
      rfl
    have hcontent := Image.content_release_hold hw' hheld
    refine ⟨w.lt_length_slots (q := w.stack[1]) (by rw [hu.2]), .of_lacksMemory hu.1 ?_⟩
    rw [hcontent, hstack, hreplaces.content]
    rfl

theorem supplies_pop : Supplies c₁ c₂ v pop pop := by
  cases hs : v.stack with
  | nil =>
    apply Agree.of_yields_error (yields_pop_error hs) (yields_pop_error hs)
    exact ⟨.refl v, .of_isExpected rfl⟩
  | cons q qs =>
    apply Agree.of_yields (yields_pop hs) (yields_pop hs)
    refine ⟨rfl, q, rfl, fun hsound => ?_⟩
    have hq : q.tree.Sound := hsound.stack q (by simp [hs])
    have hhold := hsound.hold hq
    exact ⟨fun r hr => hsound.stack r (by simp [hs, hr]), hhold.slots, hhold.directory⟩

end Run

end RpnMachine
