import Mathlib
import RpnMachine.Machine.Building
import RpnMachine.Machine.Directory
import RpnMachine.Machine.Stack

/-! A run as a function from machines to outcomes and machines. -/
namespace RpnMachine.Run

variable {α β : Type}

/-- The outcome of a run on a machine, and the machine afterwards. -/
def exec (act : Run α) (m : Machine) : Except Failure α × Machine := act.run m

@[simp] theorem exec_pure (a : α) (m : Machine) : exec (pure a) m = (.ok a, m) := rfl

@[simp] theorem exec_throw (e : Failure) (m : Machine) :
    exec (throw e : Run α) m = (.error e, m) := rfl

@[simp] theorem exec_fail (e : Error) (m : Machine) :
    exec (fail e : Run α) m = (.error (.error e), m) := rfl

@[simp] theorem exec_ofOption_some (a : α) (m : Machine) :
    exec (ofOption (some a)) m = (.ok a, m) := rfl

@[simp] theorem exec_get (m : Machine) : exec get m = (.ok m, m) := rfl

@[simp] theorem exec_set (m m' : Machine) : exec (set m') m = (.ok (), m') := rfl

@[simp] theorem exec_modify (f : Machine → Machine) (m : Machine) :
    exec (modify f) m = (.ok (), f m) := rfl

@[simp] theorem exec_modifyGet (f : Machine → α × Machine) (m : Machine) :
    exec (modifyGet f) m = (.ok (f m).1, (f m).2) := rfl

theorem exec_bind (x : Run α) (f : α → Run β) (m : Machine) :
    exec (x >>= f) m =
      match exec x m with
      | (.ok a, m') => exec (f a) m'
      | (.error e, m') => (.error e, m') := by
  show StateT.run (ExceptT.run (x (fun _ => .free) >>= fun a => f a fun _ => .free)) m = _
  change _ = match StateT.run (ExceptT.run (x fun _ => .free)) m with
    | (.ok a, m') => exec (f a) m'
    | (.error e, m') => (.error e, m')
  cases h : StateT.run (ExceptT.run (x fun _ => .free)) m with
  | mk o m' => cases o <;> simp only [ExceptT.run_bind, StateT.run_bind, h] <;> rfl

theorem exec_bind_ok {x : Run α} {m m' : Machine} {a : α} (h : exec x m = (.ok a, m'))
    (f : α → Run β) : exec (x >>= f) m = exec (f a) m' := by
  rw [exec_bind, h]

theorem exec_bind_error {x : Run α} {m m' : Machine} {e : Failure} (h : exec x m = (.error e, m'))
    (f : α → Run β) : exec (x >>= f) m = (.error e, m') := by
  rw [exec_bind, h]

/-- A run in two parts that succeeds does so in both. -/
theorem exists_of_exec_bind_ok {x : Run α} {f : α → Run β} {m m' : Machine} {b : β}
    (h : exec (x >>= f) m = (.ok b, m')) :
    ∃ a m₁, exec x m = (.ok a, m₁) ∧ exec (f a) m₁ = (.ok b, m') := by
  cases hx : exec x m with
  | mk o m₁ =>
    cases o with
    | ok a => exact ⟨a, m₁, rfl, (exec_bind_ok hx f).symm.trans h⟩
    | error e =>
      rw [exec_bind_error hx] at h
      cases h

/-! Memory and the registry are borrowed for no longer than they are used. -/

section Cells

variable {m : Machine} {a : α}

theorem exec_readHeap (f : Heap → Option α) (m : Machine) :
    exec (readHeap f) m = exec (ofOption (f m.heap)) m := by
  show StateT.run (ExceptT.run (ofOption (f m.heap) _)) m = _
  cases f m.heap <;> rfl

theorem exec_readRegistry (f : Registry → Option α) (m : Machine) :
    exec (readRegistry f) m = exec (ofOption (f m.registry)) m := by
  show StateT.run (ExceptT.run (ofOption (f m.registry) _)) m = _
  cases f m.registry <;> rfl

theorem exec_readBoth (f : Heap → Registry → Option α) (m : Machine) :
    exec (readBoth f) m = exec (ofOption (f m.heap m.registry)) m := by
  show StateT.run (ExceptT.run (ofOption (f m.heap m.registry) _)) m = _
  cases f m.heap m.registry <;> rfl

theorem exec_readHeap_some {f : Heap → Option α} (h : f m.heap = some a) :
    exec (readHeap f) m = (.ok a, m) := by
  rw [exec_readHeap, h]
  rfl

theorem exec_readRegistry_some {f : Registry → Option α} (h : f m.registry = some a) :
    exec (readRegistry f) m = (.ok a, m) := by
  rw [exec_readRegistry, h]
  rfl

theorem exec_readBoth_some {f : Heap → Registry → Option α} (h : f m.heap m.registry = some a) :
    exec (readBoth f) m = (.ok a, m) := by
  rw [exec_readBoth, h]
  rfl

theorem exec_changeBoth (f : Heap → Registry → Option (α × Heap × Registry)) (m : Machine) :
    exec (changeBoth f) m = match f m.heap m.registry with
      | some (a, heap, registry) => (.ok a, { m with heap, registry })
      | none => (.error .corrupt, m) := by
  show StateT.run (ExceptT.run ((ofOption (f m.heap m.registry) >>= fun r => do
    set { m with heap := r.2.1, registry := r.2.2 }
    return r.1) _)) m = _
  cases f m.heap m.registry <;> rfl

theorem exec_changeHeap (f : Heap → Option (α × Heap)) (m : Machine) :
    exec (changeHeap f) m = match f m.heap with
      | some (a, heap) => (.ok a, { m with heap })
      | none => (.error .corrupt, m) := by
  show StateT.run (ExceptT.run ((ofOption (f m.heap) >>= fun r => do
    set { m with heap := r.2 }
    return r.1) _)) m = _
  cases f m.heap <;> rfl

theorem exec_changeRegistry (f : Registry → Option (α × Registry)) (m : Machine) :
    exec (changeRegistry f) m = match f m.registry with
      | some (a, registry) => (.ok a, { m with registry })
      | none => (.error .corrupt, m) := by
  show StateT.run (ExceptT.run ((ofOption (f m.registry) >>= fun r => do
    set { m with registry := r.2 }
    return r.1) _)) m = _
  cases f m.registry <;> rfl

theorem exec_changeHeap_some {f : Heap → Option (α × Heap)} {heap : Heap}
    (h : f m.heap = some (a, heap)) : exec (changeHeap f) m = (.ok a, { m with heap }) := by
  rw [exec_changeHeap, h]

theorem exec_changeRegistry_some {f : Registry → Option (α × Registry)} {registry : Registry}
    (h : f m.registry = some (a, registry)) :
    exec (changeRegistry f) m = (.ok a, { m with registry }) := by
  rw [exec_changeRegistry, h]

theorem exec_changeBoth_some {f : Heap → Registry → Option (α × Heap × Registry)} {heap : Heap}
    {registry : Registry} (h : f m.heap m.registry = some (a, heap, registry)) :
    exec (changeBoth f) m = (.ok a, { m with heap, registry }) := by
  rw [exec_changeBoth, h]

theorem exec_updateHeap (f : Heap → Option Heap) (m : Machine) :
    exec (updateHeap f) m = match f m.heap with
      | some heap => (.ok (), { m with heap })
      | none => (.error .corrupt, m) := by
  rw [updateHeap, exec_changeHeap]
  cases f m.heap <;> rfl

theorem exec_updateHeap_some {f : Heap → Option Heap} {heap : Heap} (h : f m.heap = some heap) :
    exec (updateHeap f) m = (.ok (), { m with heap }) :=
  exec_changeHeap_some (by rw [h]; rfl)

theorem exec_updateBoth_some {f : Heap → Registry → Option (Heap × Registry)} {heap : Heap}
    {registry : Registry} (h : f m.heap m.registry = some (heap, registry)) :
    exec (updateBoth f) m = (.ok (), { m with heap, registry }) :=
  exec_changeBoth_some (by rw [h]; rfl)

theorem exec_sample {stats : Stats} (h : Stats.of? m.heap m.registry = some stats) :
    exec sample m = (.ok stats, m.sample) := by
  rw [sample, exec_bind_ok (exec_readBoth_some h), Machine.sample, Machine.stats, h]
  rfl

end Cells

@[simp] theorem exec_attempt (act : Run α) (m : Machine) :
    exec (attempt act) m = (.ok (exec act m).1, (exec act m).2) := by
  rfl

theorem exec_ensuring {after : Run Unit} {act : Run α} {m m' : Machine}
    (h : exec after (exec act m).2 = (.ok (), m')) :
    exec (ensuring after act) m = ((exec act m).1, m') := by
  rw [ensuring, exec_bind_ok (exec_attempt act m), exec_bind_ok h]
  cases (exec act m).1 <;> rfl

theorem exec_ensuring_error {after : Run Unit} {act : Run α} {m m' : Machine} {e : Failure}
    (h : exec after (exec act m).2 = (.error e, m')) :
    exec (ensuring after act) m = (.error e, m') := by
  rw [ensuring, exec_bind_ok (exec_attempt act m), exec_bind_error h]

theorem exists_of_exec_ensuring_ok {after : Run Unit} {act : Run α} {m m' : Machine} {a : α}
    (h : exec (ensuring after act) m = (.ok a, m')) :
    ∃ m₁, exec act m = (.ok a, m₁) ∧ exec after m₁ = (.ok (), m') := by
  cases hafter : exec after (exec act m).2 with
  | mk o m₂ =>
    cases o with
    | error e =>
      rw [exec_ensuring_error hafter] at h
      cases h
    | ok u =>
      obtain ⟨hact, hm⟩ := Prod.mk.inj ((exec_ensuring hafter).symm.trans h)
      exact ⟨(exec act m).2, Prod.ext hact rfl, hm ▸ hafter⟩

/-- What is done afterwards depends on what the run did, and not on how. -/
theorem exec_ensuring_congr {act₁ act₂ : Run α} {m₁ m₂ : Machine} (h : exec act₁ m₁ = exec act₂ m₂)
    (after : Run Unit) : exec (ensuring after act₁) m₁ = exec (ensuring after act₂) m₂ := by
  rw [ensuring, ensuring, exec_bind_ok (exec_attempt act₁ m₁), exec_bind_ok (exec_attempt act₂ m₂), h]

theorem exec_onFailure_ok {after : Run Unit} {act : Run α} {m m' : Machine} {a : α}
    (h : exec act m = (.ok a, m')) : exec (onFailure after act) m = (.ok a, m') := by
  rw [onFailure, exec_bind_ok (exec_attempt act m), h]
  rfl

theorem exec_onFailure_error {after : Run Unit} {act : Run α} {m m' : Machine} {e : Failure}
    (h : exec act m = (.error e, m')) :
    exec (onFailure after act) m = exec (do after; throw e) m' := by
  rw [onFailure, exec_bind_ok (exec_attempt act m), h]

theorem exec_of_exec_onFailure_ok {after : Run Unit} {act : Run α} {m m' : Machine} {a : α}
    (h : exec (onFailure after act) m = (.ok a, m')) : exec act m = (.ok a, m') := by
  cases hact : exec act m with
  | mk o m₁ =>
    cases o with
    | ok b => rw [← h, exec_onFailure_ok hact]
    | error e =>
      rw [exec_onFailure_error hact] at h
      obtain ⟨_, _, _, h⟩ := exists_of_exec_bind_ok h
      cases h

end RpnMachine.Run
