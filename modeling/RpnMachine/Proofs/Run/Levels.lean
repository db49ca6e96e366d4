import RpnMachine.Proofs.Run.Detached

/-! Levels of nesting that are counted in the machine while a run goes on. A run that counts them
follows one that does not, unless it is stopped. -/
namespace RpnMachine

/-- Nothing else was wrong before the run stopped. What is given back after that may be found to be
corrupt. -/
def Failure.isStop : Failure → Bool
  | error _ => false
  | corrupt | exhausted => true

theorem Failure.not_isStop {e : Failure} (h : e ≠ .exhausted) (h' : e ≠ .corrupt) : ¬e.isStop := by
  cases e with
  | error e => exact Bool.false_ne_true
  | corrupt => exact absurd rfl h'
  | exhausted => exact absurd rfl h

namespace Run

variable {α β : Type}

def nested (act : Run α) : Run α := do
  if Machine.maxNesting ≤ (← get).nesting then
    fail .tooDeep
  modify fun m => { m with nesting := m.nesting + 1 }
  ensuring (modify fun m => { m with nesting := m.nesting - 1 }) act

/-- Stops the run at a machine that is not as it should be. -/
def watch (fine : Machine → Prop) [DecidablePred fine] : Run Unit := do
  if ¬fine (← get) then
    throw .exhausted

def watching (fine : Machine → Prop) [DecidablePred fine] (act : Run α) : Run α := do
  watch fine
  let a ← act
  watch fine
  return a

end Run

/-- The evaluator that takes a level for every object, and looks at the machine there, before and after.
It has `n` levels of its own at most, so that it ends whatever the machine counts. -/
def Evaluator.watched (fine : Pointer → Machine → Prop) [∀ p, DecidablePred (fine p)]
    (commands : Repertoire) (passes : Nat) : Nat → Evaluator
  | 0 => stuck
  | n + 1 =>
    let inner := watched fine commands passes n
    ⟨fun p => Run.nested (Run.watching (fine p) (evaluateNext commands passes inner p)),
      fun p => Run.nested (Run.watching (fine p) (executeNext commands passes inner p))⟩

inductive Mode where
  | evaluate | execute | sequence

def Evaluator.run (e : Evaluator) (p : Pointer) : Mode → Run Unit
  | .evaluate => e.evaluate p
  | .execute => e.execute p
  | .sequence => Run.sequence e.evaluate p

namespace Run

variable {α β : Type} {may : Prop} {k : Nat} {m : Machine}

/-- A machine has the evaluator for the levels that it has left. -/
theorem exec_evaluator (passes : Nat) (commands : Repertoire) (m : Machine) :
    exec (evaluator passes commands) m = (.ok (.ofRoom commands passes m.room), m) := rfl

theorem exec_nested {act : Run α} (hm : m.nesting < Machine.maxNesting) :
    exec (nested act) m = exec (ensuring (modify fun m => { m with nesting := m.nesting - 1 }) act)
      (m.withNesting (m.nesting + 1)) := by
  unfold nested
  rw [exec_bind_ok (exec_get m), if_neg (Nat.not_le.mpr hm)]
  rfl

theorem exec_nested_full {act : Run α} (hm : Machine.maxNesting ≤ m.nesting) :
    exec (nested act) m = (.error (.error .tooDeep), m) := by
  unfold nested
  rw [exec_bind_ok (exec_get m), if_pos hm]
  rfl

theorem exec_watch {fine : Machine → Prop} [DecidablePred fine] (hm : fine m) :
    exec (watch fine) m = (.ok (), m) := by
  unfold watch
  rw [exec_bind_ok (exec_get m), if_neg (not_not.mpr hm)]
  rfl

theorem exec_watch_stopped {fine : Machine → Prop} [DecidablePred fine] (hm : ¬fine m) :
    exec (watch fine) m = (.error .exhausted, m) := by
  unfold watch
  rw [exec_bind_ok (exec_get m), if_pos hm]
  rfl

/-- The run was stopped on its way. -/
def isStop : Except Failure α → Bool
  | .ok _ => false
  | .error e => e.isStop

/-- With `k` levels taken the first run does what the second one does with whatever levels, and leaves
the levels alone; or, if it may, it stops before its end. -/
def Follows (may : Prop) (k : Nat) (act₁ act₂ : Run α) : Prop :=
  ∀ m, (may ∧ isStop (exec act₁ (Machine.withNesting k m)).1) ∨
    exec act₁ (Machine.withNesting k m) = ((exec act₂ m).1, (exec act₂ m).2.withNesting k)

/-- What gives something back leaves the levels alone. If it fails, the memory is corrupt. -/
structure Restores (after : Run Unit) : Prop where
  detached : Detached after
  corrupt : ∀ m e, (exec after m).1 = .error e → e = .corrupt

theorem restores_release (p : Pointer) : Restores (release p) := by
  refine ⟨.release p, fun m e he => ?_⟩
  rw [release, exec_changeRegistry] at he
  cases hr : m.registry.release? p with
  | some r =>
    rw [hr] at he
    cases he
  | none =>
    rw [hr] at he
    cases he
    rfl

theorem restores_releaseAll (ps : List Pointer) : Restores (ps.forM release) := by
  refine ⟨.releaseAll ps, ?_⟩
  induction ps with
  | nil => exact fun _ _ he => nomatch he
  | cons p ps ih =>
    intro m e he
    have hhead := (restores_release p).corrupt m
    have hcons : (p :: ps).forM release = (release p >>= fun _ => ps.forM release) := rfl
    rw [hcons, exec_bind] at he
    cases hp : exec (release p) m with
    | mk o m' =>
      rw [hp] at he hhead
      cases o with
      | ok _ => exact ih m' e he
      | error e' => exact hhead e he

/-- With the levels that are taken anyway, a run that follows another does just the same, since the
other leaves them alone. -/
theorem Follows.exec_eq {m : Machine} {act₁ act₂ : Run α} (h : Follows may m.nesting act₁ act₂)
    (hself : Follows False m.nesting act₂ act₂) (hends : may → ¬isStop (exec act₁ m).1) :
    exec act₁ m = exec act₂ m := by
  have hm : m.withNesting m.nesting = m := rfl
  have hlevels : exec act₂ m = ((exec act₂ m).1, (exec act₂ m).2.withNesting m.nesting) := by
    rcases hself m with ⟨hno, -⟩ | heq
    · exact hno.elim
    · exact heq
  rcases h m with ⟨hmay, hstop⟩ | heq
  · exact absurd hstop (hends hmay)
  · rwa [hm, ← hlevels] at heq

theorem Detached.follows {act : Run α} (h : Detached act) : Follows may k act act :=
  fun m => .inr (h.levels k m)

namespace Follows

variable {act₁ act₂ : Run α} {f₁ f₂ : α → Run β}

theorem stopped (h : may) (act : Run α) : Follows may k (throw .exhausted) act := fun _ => .inl ⟨h, rfl⟩

theorem bind (h : Follows may k act₁ act₂) (hf : ∀ a, Follows may k (f₁ a) (f₂ a)) :
    Follows may k (act₁ >>= f₁) (act₂ >>= f₂) := by
  intro m
  rw [exec_bind, exec_bind]
  rcases h m with ⟨hmay, hstop⟩ | heq
  · left
    refine ⟨hmay, ?_⟩
    cases he : exec act₁ (m.withNesting k) with
    | mk o m' =>
      rw [he] at hstop
      cases o with
      | ok a => cases hstop
      | error e => exact hstop
  · rw [heq]
    cases exec act₂ m with
    | mk o m' =>
      cases o with
      | ok a => exact hf a m'
      | error e => exact .inr rfl

/-- A run that was stopped stays so, whatever becomes of giving back. -/
theorem isStop_ensuring {after : Run Unit} (hafter : Restores after) {act : Run α} {m : Machine}
    (h : isStop (exec act m).1) : isStop (exec (ensuring after act) m).1 := by
  cases he : exec after (exec act m).2 with
  | mk o m' =>
    cases o with
    | ok _ => rwa [exec_ensuring he]
    | error e =>
      rw [exec_ensuring_error he, hafter.corrupt _ e (by rw [he])]
      rfl

theorem ensuring {after : Run Unit} (hafter : Restores after) (h : Follows may k act₁ act₂) :
    Follows may k (ensuring after act₁) (Run.ensuring after act₂) := by
  intro m
  rcases h m with ⟨hmay, hstop⟩ | heq
  · exact .inl ⟨hmay, isStop_ensuring hafter hstop⟩
  · right
    have hlevels := hafter.detached.levels k (exec act₂ m).2
    cases he : exec after (exec act₂ m).2 with
    | mk o m' =>
      rw [he] at hlevels
      cases o with
      | ok _ => rw [exec_ensuring he, exec_ensuring (by rw [heq]; exact hlevels), heq]
      | error e => rw [exec_ensuring_error he, exec_ensuring_error (by rw [heq]; exact hlevels)]

theorem onFailure {after : Run Unit} (hafter : Restores after) (h : Follows may k act₁ act₂) :
    Follows may k (onFailure after act₁) (Run.onFailure after act₂) := by
  intro m
  rcases h m with ⟨hmay, hstop⟩ | heq
  · left
    refine ⟨hmay, ?_⟩
    cases he : exec act₁ (m.withNesting k) with
    | mk o m' =>
      rw [he] at hstop
      cases o with
      | ok a => cases hstop
      | error e =>
        rw [exec_onFailure_error he]
        cases he' : exec after m' with
        | mk o' m'' =>
          cases o' with
          | ok _ =>
            rw [exec_bind_ok he']
            exact hstop
          | error e' =>
            rw [exec_bind_error he', hafter.corrupt _ e' (by rw [he'])]
            rfl
  · right
    cases he : exec act₂ m with
    | mk o m' =>
      rw [he] at heq
      cases o with
      | ok a => rw [exec_onFailure_ok he, exec_onFailure_ok heq]
      | error e =>
        rw [exec_onFailure_error he, exec_onFailure_error heq]
        rw [exec_bind, exec_bind, hafter.detached.levels]
        cases exec after m' with
        | mk o' m'' => cases o' <;> rfl

theorem holding {p : Pointer} (h : Follows may k act₁ act₂) :
    Follows may k (holding p act₁) (Run.holding p act₂) := ensuring (restores_release p) h

theorem holdingAll {ps : List Pointer} (h : Follows may k act₁ act₂) :
    Follows may k (holdingAll ps act₁) (Run.holdingAll ps act₂) :=
  ensuring (restores_releaseAll ps) h

theorem acquiring {acquire : Run Pointer} (hacquire : Detached acquire) {g₁ g₂ : Pointer → Run α}
    (h : ∀ p, Follows may k (g₁ p) (g₂ p)) :
    Follows may k (acquiring acquire g₁) (Run.acquiring acquire g₂) :=
  hacquire.follows.bind fun p => (h p).holding

theorem nested (hk : k < Machine.maxNesting) (h : Follows may (k + 1) act₁ act₂) :
    Follows may k (nested act₁) act₂ := by
  intro m
  have hexec : exec (Run.nested act₁) (m.withNesting k) =
      exec (Run.ensuring (modify fun m => { m with nesting := m.nesting - 1 }) act₁)
        (m.withNesting (k + 1)) := exec_nested hk
  rw [hexec, exec_ensuring (exec_modify _ _)]
  rcases h m with hstop | heq
  · exact .inl hstop
  · right
    rw [heq]
    rfl

theorem watching {fine : Machine → Prop} [DecidablePred fine] (hfine : may ∨ ∀ m, fine m)
    (h : Follows may k act₁ act₂) : Follows may k (watching fine act₁) act₂ := by
  have hwatch : Follows may k (watch fine) (pure ()) := by
    intro m
    by_cases hm : fine (m.withNesting k)
    · exact .inr (exec_watch hm)
    · have hmay : may := hfine.resolve_right fun hall => hm (hall _)
      exact .inl ⟨hmay, by rw [exec_watch_stopped hm]; rfl⟩
  have hact : act₂ = (Pure.pure () >>= fun _ => act₂ >>= fun a => Pure.pure () >>= fun _ =>
      Pure.pure a) := by simp
  rw [hact]
  apply hwatch.bind
  intro _
  apply h.bind
  intro a
  exact hwatch.bind fun _ => (Detached.pure a).follows

end Follows

end Run
end RpnMachine
