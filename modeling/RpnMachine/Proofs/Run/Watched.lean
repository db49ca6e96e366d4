import RpnMachine.Proofs.Run.Levels

/-! An evaluator that counts the levels of nesting in the machine, and looks at the machine at each of
them, does the same as the one that is made for as many levels as are left. -/
namespace RpnMachine

namespace Run

variable {may : Prop} {k : Nat} {m : Machine}

section

variable {f₁ f₂ : Pointer → Run Unit} {passes₁ passes₂ : Nat}

theorem follows_evaluateAll (hf : ∀ p, Follows may k (f₁ p) (f₂ p)) (ps : List Pointer) :
    Follows may k (evaluateAll f₁ ps) (evaluateAll f₂ ps) := by
  induction ps with
  | nil => exact (Detached.pure ()).follows
  | cons p ps ih =>
    have hturn : Follows may k (do checkInterrupt; f₁ p) (do checkInterrupt; f₂ p) :=
      detached_checkInterrupt.follows.bind fun _ => hf p
    apply (hturn.holding.onFailure (restores_releaseAll ps)).bind
    intro _
    exact ih

theorem follows_sequence (hf : ∀ p, Follows may k (f₁ p) (f₂ p)) (p : Pointer) :
    Follows may k (sequence f₁ p) (sequence f₂ p) :=
  (detached_children p).follows.bind fun ps => follows_evaluateAll hf ps

theorem follows_test (hf : ∀ p, Follows may k (f₁ p) (f₂ p)) (p : Pointer) :
    Follows may k (test f₁ p) (test f₂ p) := by
  apply detached_depth.follows.bind
  intro before
  apply (follows_sequence hf p).bind
  intro _
  apply detached_depth.follows.bind
  intro after
  apply Detached.follows
  dsimp only
  split_ifs
  · exact .fail_bind _ _
  · exact .acquiring detached_pop detached_truth

/-- Fewer passes are enough if the run may stop. -/
theorem follows_iterate {σ : Type} {pass₁ pass₂ : σ → Run (Option σ)}
    (hpass : ∀ s, Follows may k (pass₁ s) (pass₂ s))
    (hpasses : passes₁ = passes₂ ∨ may ∧ passes₁ ≤ passes₂) (s : σ) :
    Follows may k (iterate pass₁ passes₁ s) (iterate pass₂ passes₂ s) := by
  induction passes₁ generalizing passes₂ s with
  | zero =>
    rcases hpasses with rfl | ⟨hmay, -⟩
    · exact fun m => .inr rfl
    · exact .stopped hmay _
  | succ n ih =>
    obtain ⟨n', rfl⟩ : ∃ n', passes₂ = n' + 1 := ⟨passes₂ - 1, by omega⟩
    have hn : n = n' ∨ may ∧ n ≤ n' := by
      rcases hpasses with h | ⟨hmay, h⟩
      · exact .inl (Nat.succ.inj h)
      · exact .inr ⟨hmay, Nat.le_of_succ_le_succ h⟩
    apply detached_checkInterrupt.follows.bind
    intro _
    apply (hpass s).bind
    intro next
    cases next with
    | none => exact (Detached.pure ()).follows
    | some s => exact ih hn s

theorem follows_count (hf : ∀ p, Follows may k (f₁ p) (f₂ p))
    (hpasses : passes₁ = passes₂ ∨ may ∧ passes₁ ≤ passes₂) (stepped : Bool) (p : Pointer) :
    Follows may k (count f₁ passes₁ stepped p) (count f₂ passes₂ stepped p) := by
  apply (detached_args 2).follows.bind
  intro _
  apply (Detached.acquiring (detached_peek 0) detached_number).follows.bind
  intro stop
  apply (Detached.acquiring (detached_peek 1) detached_number).follows.bind
  intro start
  apply (detached_discard 2).follows.bind
  intro _
  apply follows_iterate _ hpasses
  intro counter
  apply (follows_sequence hf p).bind
  intro _
  apply Detached.follows
  dsimp only
  split_ifs
  · exact (Detached.acquiring detached_pop detached_number).bind fun _ => .pure _
  · exact (Detached.pure _).bind fun _ => .pure _

theorem follows_control (hf : ∀ p, Follows may k (f₁ p) (f₂ p))
    (hpasses : passes₁ = passes₂ ∨ may ∧ passes₁ ≤ passes₂) (c : Control) (p : Pointer) :
    Follows may k (control f₁ passes₁ c p) (control f₂ passes₂ c p) := by
  apply (detached_children p).follows.bind
  intro clauses
  apply Follows.holdingAll
  split
  · apply (follows_test hf _).bind
    intro holds
    split_ifs
    · exact follows_sequence hf _
    · exact (Detached.pure ()).follows
  · apply (follows_test hf _).bind
    intro holds
    split_ifs
    · exact follows_sequence hf _
    · exact follows_sequence hf _
  · apply follows_iterate _ hpasses
    intro _
    apply (follows_sequence hf _).bind
    intro _
    exact (follows_test hf _).bind fun _ => (Detached.pure _).follows
  · apply follows_iterate _ hpasses
    intro _
    apply (follows_test hf _).bind
    intro holds
    split_ifs
    · exact (follows_sequence hf _).bind fun _ => (Detached.pure _).follows
    · exact (Detached.pure _).follows
  · exact follows_count hf hpasses false _
  · exact follows_count hf hpasses true _
  · exact (Detached.fail _).follows

end

end Run

open Run

variable {may : Prop} {k : Nat}

/-- Commands follow others if what EVAL does with an object does. -/
def Repertoire.Follows (may : Prop) (k : Nat) (commands₁ commands₂ : Repertoire) : Prop :=
  ∀ f₁ f₂, (∀ p, Run.Follows may k (f₁ p) (f₂ p)) →
    ∀ c, Run.Follows may k (commands₁ f₁ c) (commands₂ f₂ c)

theorem Repertoire.follows_run : Repertoire.Follows may k Command.run Command.run := by
  intro f₁ f₂ hf c
  by_cases hc : c = .eval
  · subst hc
    exact .acquiring detached_pop hf
  · have hsame : c.run f₁ = c.run f₂ := by cases c <;> first | rfl | exact absurd rfl hc
    rw [hsame]
    exact (Command.detached_run f₂ hc).follows

namespace Evaluator

/-- Both ways to run an object. -/
structure Follows (may : Prop) (k : Nat) (e₁ e₂ : Evaluator) : Prop where
  evaluate : ∀ p, Run.Follows may k (e₁.evaluate p) (e₂.evaluate p)
  execute : ∀ p, Run.Follows may k (e₁.execute p) (e₂.execute p)

variable {e₁ e₂ : Evaluator} {commands₁ commands₂ : Repertoire} {passes₁ passes₂ : Nat}

theorem Follows.run (h : Follows may k e₁ e₂) (p : Pointer) (mode : Mode) :
    Run.Follows may k (e₁.run p mode) (e₂.run p mode) := by
  cases mode with
  | evaluate => exact h.evaluate p
  | execute => exact h.execute p
  | sequence => exact follows_sequence h.evaluate p

theorem follows_stuck : Follows may k stuck stuck :=
  ⟨fun _ => (Detached.fail _).follows, fun _ => (Detached.fail _).follows⟩

theorem Follows.evaluateName (h : Follows may k e₁ e₂) (p : Pointer) (name : String) :
    Run.Follows may k (evaluateName e₁ p name) (e₂.evaluateName p name) := by
  apply (detached_lookup name).follows.bind
  intro found
  cases found with
  | none => exact (detached_push p).follows
  | some object =>
    apply Run.Follows.holding
    apply (detached_kind object).follows.bind
    intro kind
    split_ifs
    · exact h.execute object
    · exact h.evaluate object

theorem Follows.evaluateNext (h : Follows may k e₁ e₂)
    (hcommands : Repertoire.Follows may k commands₁ commands₂)
    (hpasses : passes₁ = passes₂ ∨ may ∧ passes₁ ≤ passes₂) (p : Pointer) :
    Run.Follows may k (evaluateNext commands₁ passes₁ e₁ p) (e₂.evaluateNext commands₂ passes₂ p) := by
  apply (detached_kind p).follows.bind
  intro kind
  split
  · exact follows_control h.evaluate hpasses _ p
  · exact hcommands _ _ h.execute _
  · apply (detached_value p).follows.bind
    intro x
    split
    · exact h.evaluateName p _
    · exact fun m => .inr rfl
  · exact (detached_push p).follows

theorem Follows.executeNext (h : Follows may k e₁ e₂)
    (hcommands : Repertoire.Follows may k commands₁ commands₂)
    (hpasses : passes₁ = passes₂ ∨ may ∧ passes₁ ≤ passes₂) (p : Pointer) :
    Run.Follows may k (executeNext commands₁ passes₁ e₁ p) (e₂.executeNext commands₂ passes₂ p) := by
  apply (detached_kind p).follows.bind
  intro kind
  split
  · apply (detached_children p).follows.bind
    intro inner
    apply Run.Follows.holdingAll
    cases inner with
    | nil => exact (Detached.fail _).follows
    | cons q _ => exact h.evaluate q
  · exact follows_sequence h.evaluate p
  · exact follows_sequence h.evaluate p
  · exact h.evaluateNext hcommands hpasses p

theorem follows_ofRoom (hcommands : Repertoire.Follows may k commands₁ commands₂)
    (hpasses : passes₁ = passes₂ ∨ may ∧ passes₁ ≤ passes₂) (n : Nat) :
    Follows may k (ofRoom commands₁ passes₁ n) (ofRoom commands₂ passes₂ n) := by
  induction n with
  | zero => exact follows_stuck
  | succ n ih => exact ⟨ih.evaluateNext hcommands hpasses, ih.executeNext hcommands hpasses⟩

theorem stuck_of_maxNesting_le {act : Run Unit} (hk : Machine.maxNesting ≤ k) :
    Run.Follows may k (nested act) (fail .tooDeep) := fun _ => .inr (exec_nested_full hk)

/-- Counting levels does the same as having so many levels as are left. -/
theorem follows_watched {fine : Pointer → Machine → Prop} [∀ p, DecidablePred (fine p)]
    (hfine : ∀ p, may ∨ ∀ m, fine p m)
    (hcommands : ∀ k, Repertoire.Follows may k commands₁ commands₂)
    (hpasses : passes₁ = passes₂ ∨ may ∧ passes₁ ≤ passes₂) {n : Nat}
    (hn : Machine.maxNesting ≤ k + n) :
    Follows may k (watched fine commands₁ passes₁ n)
      (ofRoom commands₂ passes₂ (Machine.maxNesting - k)) := by
  induction n generalizing k with
  | zero =>
    have hk : Machine.maxNesting ≤ k := hn
    rw [Nat.sub_eq_zero_of_le hk]
    exact follows_stuck
  | succ n ih =>
    by_cases hk : Machine.maxNesting ≤ k
    · rw [Nat.sub_eq_zero_of_le hk]
      exact ⟨fun _ => stuck_of_maxNesting_le hk, fun _ => stuck_of_maxNesting_le hk⟩
    · have hinner := ih (k := k + 1) (by omega)
      have hlevels : Machine.maxNesting - k = Machine.maxNesting - (k + 1) + 1 := by omega
      rw [Nat.not_le] at hk
      rw [hlevels]
      constructor
      · intro p
        exact ((hinner.evaluateNext (hcommands _) hpasses p).watching (hfine p)).nested hk
      · intro p
        exact ((hinner.executeNext (hcommands _) hpasses p).watching (hfine p)).nested hk

/-- The levels that a machine has left. -/
theorem follows_room {fine : Pointer → Machine → Prop} [∀ p, DecidablePred (fine p)]
    (hfine : ∀ p, may ∨ ∀ m, fine p m) (hpasses : passes₁ = passes₂ ∨ may ∧ passes₁ ≤ passes₂)
    {m : Machine} {n : Nat} (hn : m.room ≤ n) :
    Follows may m.nesting (watched fine Command.run passes₁ n) (ofRoom Command.run passes₂ m.room) := by
  apply follows_watched hfine (fun _ => Repertoire.follows_run) hpasses
  unfold Machine.room at hn
  omega

/-- An evaluator leaves the levels alone. -/
theorem follows_self (k passes n : Nat) :
    Follows False k (ofRoom Command.run passes n) (ofRoom Command.run passes n) :=
  follows_ofRoom Repertoire.follows_run (.inl rfl) n

end Evaluator
end RpnMachine
