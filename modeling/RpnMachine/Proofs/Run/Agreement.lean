import RpnMachine.Proofs.Machine.Directory
import RpnMachine.Proofs.Machine.Stack

/-! Two machines that hold the same take the same run. The one with less memory may have to stop for
lack of it; otherwise both end alike and hold the same again. -/
namespace RpnMachine

def Error.lacksMemory : Error → Bool
  | outOfMemory _ => true
  | read e =>
    match e.cause with
    | .outOfMemory _ => true
    | _ => false
  | _ => false

def Failure.lacksMemory : Failure → Bool
  | error e => e.lacksMemory
  | corrupt | exhausted => false

/-- The run stopped for lack of memory or of passes. -/
def Failure.isShortage : Failure → Bool
  | error e => e.lacksMemory
  | corrupt => false
  | exhausted => true

theorem Failure.isShortage_of_lacksMemory {e : Failure} (h : e.lacksMemory) : e.isShortage := by
  cases e with
  | error e => exact h
  | corrupt | exhausted => cases h

namespace Run

variable {α β : Type} {c c₁ c₂ : Nat} {v v' : Image}

/-- Every machine with `c` bytes that holds `v` ends the run with the outcome `o` and holds `v'`. -/
def Yields (c : Nat) (v : Image) (act : Run α) (o : Except Failure α) (v' : Image) : Prop :=
  ∀ m : Machine, m.Represents c v → ∃ m', exec act m = (o, m') ∧ m'.Represents c v'

/-- Two machines with `c₁` and `c₂` bytes that hold `v` take a run each. Where the first one ends
with a result, `ok` holds of it and of what the machine holds then, and where it fails, `error`
does. Unless it stopped for a shortage, the second one ends alike and holds the same. -/
def Agree (c₁ c₂ : Nat) (v : Image) (act₁ act₂ : Run α) (ok : α → Image → Prop)
    (error : Failure → Image → Prop) : Prop :=
  ∀ m₁ m₂ : Machine, m₁.Represents c₁ v → m₂.Represents c₂ v →
    ∃ o m₁' v', exec act₁ m₁ = (o, m₁') ∧ m₁'.Represents c₁ v' ∧
      (match o with
        | .ok a => ok a v'
        | .error e => error e v') ∧
      ((∀ e, o = .error e → ¬e.isShortage) →
        ∃ m₂', exec act₂ m₂ = (o, m₂') ∧ m₂'.Represents c₂ v')

namespace Yields

variable {act : Run α} {a : α} {o : Except Failure α}

theorem bind {f : α → Run β} {o : Except Failure β} {w : Image} (h : Yields c v act (.ok a) v')
    (hf : Yields c v' (f a) o w) : Yields c v (act >>= f) o w := by
  intro m hm
  obtain ⟨m₁, he, hm₁⟩ := h m hm
  obtain ⟨m₂, he', hm₂⟩ := hf m₁ hm₁
  exact ⟨m₂, (exec_bind_ok he f).trans he', hm₂⟩

theorem pure (a : α) : Yields c v (pure a) (.ok a) v := fun m hm => ⟨m, rfl, hm⟩

theorem attempt (h : Yields c v act o v') : Yields c v (attempt act) (.ok o) v' := by
  intro m hm
  obtain ⟨m', he, hm'⟩ := h m hm
  refine ⟨m', ?_, hm'⟩
  rw [exec_attempt, he]

theorem of_valid (h : v.Valid → Yields c v act o v') : Yields c v act o v' := by
  intro m hm
  obtain ⟨kept, free, hl⟩ := hm
  exact h hl.valid m hl.represents

end Yields

namespace Agree

variable {act₁ act₂ : Run α} {ok ok' : α → Image → Prop} {error error' : Failure → Image → Prop}

theorem of_valid (h : v.Valid → Agree c₁ c₂ v act₁ act₂ ok error) :
    Agree c₁ c₂ v act₁ act₂ ok error := by
  intro m₁ m₂ h₁ h₂
  obtain ⟨kept, free, hl⟩ := h₁
  exact h hl.valid m₁ m₂ hl.represents h₂

theorem of_yields {a : α} (h₁ : Yields c₁ v act₁ (.ok a) v') (h₂ : Yields c₂ v act₂ (.ok a) v')
    (hok : ok a v') : Agree c₁ c₂ v act₁ act₂ ok error := by
  intro m₁ m₂ hm₁ hm₂
  obtain ⟨m₁', he₁, hm₁'⟩ := h₁ m₁ hm₁
  exact ⟨_, m₁', v', he₁, hm₁', hok, fun _ => h₂ m₂ hm₂⟩

theorem of_yields_error {e : Failure} (h₁ : Yields c₁ v act₁ (.error e) v')
    (h₂ : Yields c₂ v act₂ (.error e) v') (herror : error e v') :
    Agree c₁ c₂ v act₁ act₂ ok error := by
  intro m₁ m₂ hm₁ hm₂
  obtain ⟨m₁', he₁, hm₁'⟩ := h₁ m₁ hm₁
  exact ⟨_, m₁', v', he₁, hm₁', herror, fun _ => h₂ m₂ hm₂⟩

theorem of_shortage {e : Failure} (h₁ : Yields c₁ v act₁ (.error e) v') (he : e.isShortage)
    (herror : error e v') : Agree c₁ c₂ v act₁ act₂ ok error := by
  intro m₁ m₂ hm₁ hm₂
  obtain ⟨m₁', he₁, hm₁'⟩ := h₁ m₁ hm₁
  exact ⟨_, m₁', v', he₁, hm₁', herror, fun hno => absurd he (hno e rfl)⟩

theorem mono (h : Agree c₁ c₂ v act₁ act₂ ok error) (hok : ∀ a v', ok a v' → ok' a v')
    (herror : ∀ e v', error e v' → error' e v') : Agree c₁ c₂ v act₁ act₂ ok' error' := by
  intro m₁ m₂ hm₁ hm₂
  obtain ⟨o, m₁', v', he, hm', hpost, hagree⟩ := h m₁ m₂ hm₁ hm₂
  refine ⟨o, m₁', v', he, hm', ?_, hagree⟩
  cases o with
  | ok a => exact hok a v' hpost
  | error e => exact herror e v' hpost

theorem bind {f₁ f₂ : α → Run β} {ok' : β → Image → Prop}
    (h : Agree c₁ c₂ v act₁ act₂ ok error)
    (hf : ∀ a v', ok a v' → Agree c₁ c₂ v' (f₁ a) (f₂ a) ok' error) :
    Agree c₁ c₂ v (act₁ >>= f₁) (act₂ >>= f₂) ok' error := by
  intro m₁ m₂ hm₁ hm₂
  obtain ⟨o, m₁', v', he, hm', hpost, hagree⟩ := h m₁ m₂ hm₁ hm₂
  cases o with
  | error e =>
    refine ⟨.error e, m₁', v', exec_bind_error he _, hm', hpost, fun hno => ?_⟩
    obtain ⟨m₂', he₂, hm₂'⟩ := hagree fun e' h => hno e' (by cases h; rfl)
    exact ⟨m₂', exec_bind_error he₂ _, hm₂'⟩
  | ok a =>
    obtain ⟨m₂', he₂, hm₂'⟩ := hagree fun e' h => by cases h
    obtain ⟨o, m₁'', v'', he', hm'', hpost', hagree'⟩ := hf a v' hpost m₁' m₂' hm' hm₂'
    refine ⟨o, m₁'', v'', (exec_bind_ok he _).trans he', hm'', hpost', fun hno => ?_⟩
    obtain ⟨m₂'', he₂', hm₂''⟩ := hagree' hno
    exact ⟨m₂'', (exec_bind_ok he₂ _).trans he₂', hm₂''⟩

/-- Runs whose first part leads to other machines and then to other runs. -/
theorem after_exec {act₁' act₂' : Run α}
    (h₁ : ∀ m, Machine.Represents m c₁ v → ∃ m', exec act₁ m = exec act₁' m' ∧ m'.Represents c₁ v')
    (h₂ : ∀ m, Machine.Represents m c₂ v → ∃ m', exec act₂ m = exec act₂' m' ∧ m'.Represents c₂ v')
    (h : Agree c₁ c₂ v' act₁' act₂' ok error) : Agree c₁ c₂ v act₁ act₂ ok error := by
  intro m₁ m₂ hm₁ hm₂
  obtain ⟨m₁', he₁, hm₁'⟩ := h₁ m₁ hm₁
  obtain ⟨m₂', he₂, hm₂'⟩ := h₂ m₂ hm₂
  rw [he₁, he₂]
  exact h m₁' m₂' hm₁' hm₂'

theorem pure {a : α} (h : ok a v) : Agree c₁ c₂ v (pure a) (pure a) ok error :=
  of_yields (fun m hm => ⟨m, rfl, hm⟩) (fun m hm => ⟨m, rfl, hm⟩) h

theorem throw {e : Failure} (h : error e v) : Agree c₁ c₂ v (throw e) (throw e) ok error :=
  of_yields_error (fun m hm => ⟨m, rfl, hm⟩) (fun m hm => ⟨m, rfl, hm⟩) h

theorem fail {e : Error} (h : error (.error e) v) :
    Agree c₁ c₂ v (fail e) (Run.fail e) ok error := throw h

theorem of_used_le (h : v.used ≤ c₁ → Agree c₁ c₂ v act₁ act₂ ok error) :
    Agree c₁ c₂ v act₁ act₂ ok error :=
  fun m₁ m₂ h₁ h₂ => h h₁.used_le m₁ m₂ h₁ h₂

/-- What both do afterwards in any case has to succeed, so that the outcome stays what it is. -/
theorem ensuring {after : Run Unit} {f : Image → Image} {safe : Image → Prop}
    (hafter : ∀ c v, safe v → Yields c v after (.ok ()) (f v))
    (h : Agree c₁ c₂ v act₁ act₂ (fun a v' => safe v' ∧ ok a (f v'))
      fun e v' => safe v' ∧ error e (f v')) :
    Agree c₁ c₂ v (ensuring after act₁) (Run.ensuring after act₂) ok error := by
  intro m₁ m₂ hm₁ hm₂
  obtain ⟨o, m₁', v', he, hm', hpost, hagree⟩ := h m₁ m₂ hm₁ hm₂
  have hsafe : safe v' := by
    cases o with
    | ok a => exact hpost.1
    | error e => exact hpost.1
  have hensured : ∀ c act m m', exec act m = (o, m') → m'.Represents c v' →
      ∃ m'', exec (Run.ensuring after act) m = (o, m'') ∧ m''.Represents c (f v') := by
    intro c act m m' hact hm'
    obtain ⟨m'', hexec, hm''⟩ := hafter c v' hsafe m' hm'
    refine ⟨m'', ?_, hm''⟩
    rw [exec_ensuring (by rw [hact]; exact hexec), hact]
  obtain ⟨m₁'', he', hm''⟩ := hensured c₁ act₁ m₁ m₁' he hm'
  refine ⟨o, m₁'', f v', he', hm'', ?_, fun hno => ?_⟩
  · cases o with
    | ok a => exact hpost.2
    | error e => exact hpost.2
  · obtain ⟨m₂', he₂, hm₂'⟩ := hagree hno
    exact hensured c₂ act₂ m₂ m₂' he₂ hm₂'

/-- What both do after a failure has to succeed, so that the failure stays what it is. -/
theorem onFailure {after : Run Unit} {error' : Failure → Image → Prop}
    (h : Agree c₁ c₂ v act₁ act₂ ok error')
    (hafter : ∀ e v', error' e v' → ∃ v'', (∀ c, Yields c v' after (.ok ()) v'') ∧ error e v'') :
    Agree c₁ c₂ v (onFailure after act₁) (Run.onFailure after act₂) ok error := by
  intro m₁ m₂ hm₁ hm₂
  obtain ⟨o, m₁', v', he, hm', hpost, hagree⟩ := h m₁ m₂ hm₁ hm₂
  cases o with
  | ok a =>
    refine ⟨.ok a, m₁', v', exec_onFailure_ok he, hm', hpost, fun hno => ?_⟩
    obtain ⟨m₂', he₂, hm₂'⟩ := hagree hno
    exact ⟨m₂', exec_onFailure_ok he₂, hm₂'⟩
  | error e =>
    obtain ⟨v'', hyields, herror⟩ := hafter e v' hpost
    obtain ⟨m₁'', he', hm''⟩ := hyields c₁ m₁' hm'
    refine ⟨.error e, m₁'', v'', ?_, hm'', herror, fun hno => ?_⟩
    · rw [exec_onFailure_error he, exec_bind_ok he']
      rfl
    · obtain ⟨m₂', he₂, hm₂'⟩ := hagree hno
      obtain ⟨m₂'', he₂', hm₂''⟩ := hyields c₂ m₂' hm₂'
      refine ⟨m₂'', ?_, hm₂''⟩
      rw [exec_onFailure_error he₂, exec_bind_ok he₂']
      rfl

theorem bind_yields {x : Run α} {a : α} {f₁ f₂ : α → Run β} {ok : β → Image → Prop}
    (h : ∀ c, Yields c v x (.ok a) v') (hf : Agree c₁ c₂ v' (f₁ a) (f₂ a) ok error) :
    Agree c₁ c₂ v (x >>= f₁) (x >>= f₂) ok error := by
  have hx : Agree c₁ c₂ v x x (fun b w => b = a ∧ w = v') error :=
    of_yields (h c₁) (h c₂) ⟨rfl, rfl⟩
  refine hx.bind ?_
  rintro _ _ ⟨rfl, rfl⟩
  exact hf

theorem bind_yields_error {x : Run α} {e : Failure} {f₁ f₂ : α → Run β} {ok : β → Image → Prop}
    (h : ∀ c, Yields c v x (.error e) v') (herror : error e v') :
    Agree c₁ c₂ v (x >>= f₁) (x >>= f₂) ok error :=
  of_yields_error
    (fun m hm => by
      obtain ⟨m', he, hm'⟩ := h c₁ m hm
      exact ⟨m', exec_bind_error he _, hm'⟩)
    (fun m hm => by
      obtain ⟨m', he, hm'⟩ := h c₂ m hm
      exact ⟨m', exec_bind_error he _, hm'⟩) herror

/-- Lack of memory stays a shortage when it becomes an error in reading. -/
theorem readingAt {position : Nat} (h : Agree c₁ c₂ v act₁ act₂ ok error)
    (hmemory : ∀ n v', error (.error (.outOfMemory n)) v' →
      error' (.error (.read { cause := .outOfMemory n, position })) v')
    (herror : ∀ e v', error e v' → error' e v') :
    Agree c₁ c₂ v (readingAt position act₁) (Run.readingAt position act₂) ok error' := by
  intro m₁ m₂ hm₁ hm₂
  obtain ⟨o, m₁', v', he, hm', hpost, hagree⟩ := h m₁ m₂ hm₁ hm₂
  by_cases hmem : ∃ n, o = .error (.error (.outOfMemory n))
  · obtain ⟨n, rfl⟩ := hmem
    refine ⟨.error (.error (.read { cause := .outOfMemory n, position })), m₁', v', ?_, hm',
      hmemory n v' hpost, fun hno => absurd rfl (hno _ rfl)⟩
    rw [Run.readingAt, exec_bind_ok (exec_attempt act₁ m₁), he]
    rfl
  · have hreading : ∀ act m m', exec act m = (o, m') →
        exec (Run.readingAt position act) m = (o, m') := fun act m m' hexec => by
      rw [Run.readingAt, exec_bind_ok (exec_attempt act m), hexec]
      rcases o with (e | _ | _) | a
      · cases e with
        | outOfMemory n => exact absurd ⟨n, rfl⟩ hmem
        | _ => rfl
      all_goals rfl
    refine ⟨o, m₁', v', hreading _ _ _ he, hm', ?_, fun hno => ?_⟩
    · cases o with
      | ok a => exact hpost
      | error e => exact herror e v' hpost
    · obtain ⟨m₂', he₂, hm₂'⟩ := hagree hno
      exact ⟨m₂', hreading _ _ _ he₂, hm₂'⟩

end Agree

end Run
end RpnMachine
