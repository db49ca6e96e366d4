import RpnMachine.Proofs.Machine.Exec

/-! Runs that are the same whatever the number of levels that are taken, and leave that number alone.
Parts of them put together are such runs again. -/
namespace RpnMachine

def Machine.withNesting (k : Nat) (m : Machine) : Machine := { m with nesting := k }

namespace Run

variable {α β : Type}

/-- The run neither asks for the levels that are taken nor changes them, and it does not run out of
passes. -/
structure Detached (act : Run α) : Prop where
  levels : ∀ k m, exec act (Machine.withNesting k m) =
    ((exec act m).1, (exec act m).2.withNesting k)
  passes : ∀ m, (exec act m).1 ≠ .error .exhausted

namespace Detached

variable {act : Run α} {f : α → Run β}

theorem pure (a : α) : Detached (pure a : Run α) := by
  constructor
  · intro k m
    rfl
  · intro m h
    cases h

theorem throw {e : Failure} (he : e ≠ .exhausted) : Detached (throw e : Run α) := by
  constructor
  · intro k m
    rfl
  · intro m h
    cases h
    exact he rfl

theorem fail (e : Error) : Detached (fail e : Run α) := throw fun h => by cases h

theorem fail_bind (e : Error) (f : α → Run β) : Detached (Run.fail e >>= f) := by
  constructor
  · intro k m
    rfl
  · intro m h
    cases h

theorem ofOption (a : Option α) : Detached (ofOption a) := by
  cases a with
  | some a => exact pure a
  | none => exact throw fun h => by cases h

theorem ofExcept (a : Except Error α) : Detached (ofExcept a) := by
  cases a with
  | ok a => exact pure a
  | error e => exact fail e

theorem ofOutcome {o : Except Failure α} (ho : o ≠ .error .exhausted) : Detached (ofOutcome o) := by
  cases o with
  | ok a => exact pure a
  | error e =>
    apply throw
    rintro rfl
    exact ho rfl

theorem bind (h : Detached act) (hf : ∀ a, Detached (f a)) : Detached (act >>= f) := by
  constructor
  · intro k m
    rw [exec_bind, exec_bind, h.levels]
    cases exec act m with
    | mk o m' =>
      cases o with
      | ok a => exact (hf a).levels k m'
      | error e => rfl
  · intro m
    rw [exec_bind]
    have hpasses := h.passes m
    cases he : exec act m with
    | mk o m' =>
      rw [he] at hpasses
      cases o with
      | ok a => exact (hf a).passes m'
      | error e =>
        intro heq
        cases heq
        exact hpasses rfl

/-- A question to the machine, but not for the levels. -/
theorem get {g : Machine → Run α} (hg : ∀ k m, g (Machine.withNesting k m) = g m)
    (h : ∀ m, Detached (g m)) : Detached (get >>= g) := by
  constructor
  · intro k m
    rw [exec_bind_ok (exec_get _), exec_bind_ok (exec_get _), hg]
    exact (h m).levels k m
  · intro m
    rw [exec_bind_ok (exec_get _)]
    exact (h m).passes m

theorem modify {g : Machine → Machine}
    (hg : ∀ k m, g (Machine.withNesting k m) = (g m).withNesting k) : Detached (modify g) := by
  constructor
  · intro k m
    rw [exec_modify, exec_modify, hg]
  · intro m h
    cases h

theorem ensuring {after : Run Unit} (hafter : Detached after) (h : Detached act) :
    Detached (ensuring after act) := by
  constructor
  · intro k m
    rw [Run.ensuring, exec_bind_ok (exec_attempt act _), exec_bind_ok (exec_attempt act m), h.levels,
      exec_bind, exec_bind, hafter.levels]
    cases exec after (exec act m).2 with
    | mk o m' =>
      cases o with
      | error e => rfl
      | ok _ => cases (exec act m).1 <;> rfl
  · intro m
    rw [Run.ensuring, exec_bind_ok (exec_attempt act m)]
    exact (hafter.bind fun _ => ofOutcome (h.passes m)).passes _

theorem onFailure {after : Run Unit} (hafter : Detached after) (h : Detached act) :
    Detached (onFailure after act) := by
  constructor
  · intro k m
    have hlevels := h.levels k m
    cases he : exec act m with
    | mk o m' =>
      rw [he] at hlevels
      cases o with
      | ok a => rw [exec_onFailure_ok he, exec_onFailure_ok hlevels]
      | error e =>
        rw [exec_onFailure_error he, exec_onFailure_error hlevels, exec_bind, exec_bind, hafter.levels]
        cases exec after m' with
        | mk o' m'' => cases o' <;> rfl
  · intro m
    have hpasses := h.passes m
    cases he : exec act m with
    | mk o m' =>
      rw [he] at hpasses
      cases o with
      | ok a =>
        rw [exec_onFailure_ok he]
        exact hpasses
      | error e =>
        have hthrow : Detached (do after; MonadExcept.throw e : Run α) := by
          apply hafter.bind
          intro _
          apply throw
          rintro rfl
          exact hpasses rfl
        rw [exec_onFailure_error he]
        exact hthrow.passes m'

theorem mapM {g : α → Run β} (hg : ∀ a, Detached (g a)) (l : List α) : Detached (l.mapM g) := by
  induction l with
  | nil => exact pure _
  | cons a l ih =>
    rw [List.mapM_cons]
    apply (hg a).bind
    intro b
    exact ih.bind fun _ => pure _

/-! Whatever is read or changed is not the levels. -/

theorem readHeap (f : Heap → Option α) : Detached (readHeap f) := by
  constructor
  · intro k m
    rw [exec_readHeap, exec_readHeap]
    exact (ofOption (f m.heap)).levels k m
  · intro m
    rw [exec_readHeap]
    exact (ofOption _).passes m

theorem readRegistry (f : Registry → Option α) : Detached (readRegistry f) := by
  constructor
  · intro k m
    rw [exec_readRegistry, exec_readRegistry]
    exact (ofOption (f m.registry)).levels k m
  · intro m
    rw [exec_readRegistry]
    exact (ofOption _).passes m

theorem readBoth (f : Heap → Registry → Option α) : Detached (readBoth f) := by
  constructor
  · intro k m
    rw [exec_readBoth, exec_readBoth]
    exact (ofOption (f m.heap m.registry)).levels k m
  · intro m
    rw [exec_readBoth]
    exact (ofOption _).passes m

theorem changeBoth (f : Heap → Registry → Option (α × Heap × Registry)) :
    Detached (changeBoth f) := by
  constructor
  · intro k m
    rw [exec_changeBoth, exec_changeBoth]
    have hsame : f (m.withNesting k).heap (m.withNesting k).registry = f m.heap m.registry := rfl
    rw [hsame]
    cases f m.heap m.registry <;> rfl
  · intro m
    rw [exec_changeBoth]
    cases f m.heap m.registry <;> simp

theorem changeHeap (f : Heap → Option (α × Heap)) : Detached (changeHeap f) := by
  constructor
  · intro k m
    rw [exec_changeHeap, exec_changeHeap]
    have hsame : f (m.withNesting k).heap = f m.heap := rfl
    rw [hsame]
    cases f m.heap <;> rfl
  · intro m
    rw [exec_changeHeap]
    cases f m.heap <;> simp

theorem changeRegistry (f : Registry → Option (α × Registry)) : Detached (changeRegistry f) := by
  constructor
  · intro k m
    rw [exec_changeRegistry, exec_changeRegistry]
    have hsame : f (m.withNesting k).registry = f m.registry := rfl
    rw [hsame]
    cases f m.registry <;> rfl
  · intro m
    rw [exec_changeRegistry]
    cases f m.registry <;> simp

theorem updateHeap (f : Heap → Option Heap) : Detached (updateHeap f) := changeHeap _

theorem updateBoth (f : Heap → Registry → Option (Heap × Registry)) : Detached (updateBoth f) :=
  changeBoth _

theorem sample : Detached Run.sample := by
  apply (readBoth _).bind
  intro stats
  exact (modify fun _ _ => rfl).bind fun _ => pure _

/-! Pointers are given back. -/

theorem release (p : Pointer) : Detached (release p) := changeRegistry _

theorem releaseAll (ps : List Pointer) : Detached (ps.forM Run.release) := by
  induction ps with
  | nil => exact pure ()
  | cons p ps ih => exact (release p).bind fun _ => ih

theorem holding {p : Pointer} (h : Detached act) : Detached (holding p act) :=
  ensuring (release p) h

theorem holdingAll {ps : List Pointer} (h : Detached act) : Detached (holdingAll ps act) :=
  ensuring (releaseAll ps) h

theorem acquiring {acquire : Run Pointer} {g : Pointer → Run α} (h : Detached acquire)
    (hg : ∀ p, Detached (g p)) : Detached (acquiring acquire g) := by
  apply h.bind
  intro p
  exact (hg p).holding

end Detached

end Run

end RpnMachine
