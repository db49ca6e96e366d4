import RpnMachine.Proofs.Run.Watched

/-! Runs that do without MEM. A repertoire in which MEM ends the run at once tells whether a run
evaluates it: if the run gets to its end, it is the same with the real MEM. -/
namespace RpnMachine

/-- All commands but MEM, which a run does not survive. -/
def Repertoire.sparing : Repertoire := fun execute c =>
  if c = .mem then throw .exhausted else c.run execute

theorem Repertoire.follows_sparing {k : Nat} : Repertoire.Follows True k .sparing Command.run := by
  intro f₁ f₂ hf c
  unfold Repertoire.sparing
  split_ifs
  · exact .stopped trivial _
  · exact Repertoire.follows_run f₁ f₂ hf c

namespace Run

variable {α : Type}

/-- The first run stops before its end, or the second one does just the same. -/
def Shadows (act₁ act₂ : Run α) : Prop :=
  ∀ m, isStop (exec act₁ m).1 ∨ exec act₁ m = exec act₂ m

theorem Follows.shadows {act₁ act₂ : Run α} (h : ∀ k, Follows True k act₁ act₂)
    (hself : ∀ k, Follows False k act₂ act₂) : Shadows act₁ act₂ := by
  intro m
  by_cases hstop : isStop (exec act₁ m).1
  · exact .inl hstop
  · exact .inr ((h m.nesting).exec_eq (hself m.nesting) fun _ => hstop)

/-- What is given back afterwards makes no difference. -/
theorem Shadows.holding {act₁ act₂ : Run α} (h : Shadows act₁ act₂) (p : Pointer) :
    Shadows (holding p act₁) (Run.holding p act₂) := by
  intro m
  rcases h m with hstop | heq
  · exact .inl (Follows.isStop_ensuring (restores_release p) hstop)
  · exact .inr (exec_ensuring_congr heq _)

theorem shadows_sequence (passes n : Nat) (p : Pointer) :
    Shadows (sequence (Evaluator.ofRoom .sparing passes n).evaluate p)
      (sequence (Evaluator.ofRoom Command.run passes n).evaluate p) := by
  apply Follows.shadows
  · intro k
    apply follows_sequence
    exact (Evaluator.follows_ofRoom Repertoire.follows_sparing (.inl rfl) n).evaluate
  · intro k
    apply follows_sequence
    exact (Evaluator.follows_self k passes n).evaluate

theorem shadows_line (passes : Nat) (source : String) :
    Shadows (line passes source .sparing) (line passes source) := by
  intro m
  unfold line acquiring
  cases hread : exec (readBody source) m with
  | mk o m' =>
    cases o with
    | error e => exact .inr (by rw [exec_bind_error hread, exec_bind_error hread])
    | ok p =>
      have he : ∀ commands, exec (Run.evaluator passes commands >>= fun e => sequence e.evaluate p) m' =
          exec (sequence (Evaluator.ofRoom commands passes m'.room).evaluate p) m' := fun _ => rfl
      rw [exec_bind_ok hread, exec_bind_ok hread]
      have hshadows := (shadows_sequence passes m'.room p).holding p m'
      unfold holding at hshadows ⊢
      rwa [exec_ensuring_congr (he _), exec_ensuring_congr (he _)]

end Run
end RpnMachine
