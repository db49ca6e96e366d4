import RpnMachine.Proofs.Object.Shape
import RpnMachine.Proofs.Run.Scratchpad

/-! What a run can change apart from where things lie: the stack, the directory, and the setting. -/
namespace RpnMachine

/-- Failures that a program can bring about by what it does. The others blame the memory or the
objects in it. -/
def Failure.isExpected : Failure → Bool
  | .error (.invalidObject _) | .error (.notImplemented _ _) | .error .invalidName | .corrupt => false
  | _ => true

theorem Failure.isExpected_of_lacksMemory {e : Failure} (h : e.lacksMemory) : e.isExpected := by
  cases e with
  | error e =>
    cases e with
    | outOfMemory | read => rfl
    | _ => cases h
  | corrupt => cases h
  | exhausted => rfl

/-- The memory is not to blame, and the objects in it are not either if they are sound. -/
structure Failure.IsDue (sound : Prop) (e : Failure) : Prop where
  ne_corrupt : e ≠ .corrupt
  expected : sound → e.isExpected

theorem Failure.IsDue.of_isExpected {sound : Prop} {e : Failure} (h : e.isExpected) :
    e.IsDue sound := by
  refine ⟨?_, fun _ => h⟩
  rintro rfl
  cases h

theorem Failure.IsDue.of_lacksMemory {sound : Prop} {e : Failure} (h : e.lacksMemory) :
    e.IsDue sound := of_isExpected (isExpected_of_lacksMemory h)

theorem Failure.IsDue.mono {sound sound' : Prop} {e : Failure} (h : e.IsDue sound)
    (hs : sound' → sound) : e.IsDue sound' := ⟨h.ne_corrupt, fun h' => h.expected (hs h')⟩

/-- What an image holds, without the temporaries that nothing refers to. -/
structure Content where
  setting : Setting
  stack : List Place
  directory : List Entry

namespace Image

variable {v v' v'' : Image} {p : Pointer} {q : Place}

def content (v : Image) : Content := ⟨v.setting, v.stack, v.directory⟩

theorem content_eq {c : Content} (hsetting : v.setting = c.setting) (hstack : v.stack = c.stack)
    (hdirectory : v.directory = c.directory) : v.content = c := by
  rw [content, hsetting, hstack, hdirectory]

/-- Every object that can be reached is sound. -/
structure Sound (v : Image) : Prop where
  stack : ∀ q ∈ v.stack, q.tree.Sound
  slots : ∀ q, some q ∈ v.slots → q.tree.Sound
  directory : ∀ e ∈ v.directory, e.object.tree.Sound

theorem sound_empty : Image.empty.Sound := by
  constructor <;> simp [Image.empty]

theorem Sound.of_deref (h : v.Sound) (hp : v.deref p = some q) : q.tree.Sound := by
  rw [deref, Option.join_eq_some_iff] at hp
  exact h.slots q (List.mem_of_getElem? hp)

theorem Sound.holdAll (h : v.Sound) {qs : List Place} (hqs : ∀ q ∈ qs, q.tree.Sound) :
    (v.holdAll qs).Sound := by
  refine ⟨h.stack, fun q hq => ?_, h.directory⟩
  rcases List.mem_append.mp hq with hq | hq
  · exact h.slots q hq
  · exact hqs q (by simpa using hq)

theorem Sound.of_holdAll {qs : List Place} (h : (v.holdAll qs).Sound) : v.Sound :=
  ⟨h.stack, fun q hq => h.slots q (List.mem_append_left _ hq), h.directory⟩

theorem Sound.holdAll_children (h : v.Sound) (hp : v.deref p = some q) :
    (v.holdAll q.children).Sound := by
  apply h.holdAll
  intro r hr
  exact (h.of_deref hp).of_mem_children (Place.tree_mem_children hr)

theorem Sound.hold (h : v.Sound) (hq : q.tree.Sound) : (v.hold q).Sound := by
  have hqs : ∀ r ∈ [q], r.tree.Sound := by simpa using hq
  exact h.holdAll hqs

theorem Sound.release (h : v.Sound) (p : Pointer) : (v.release p).Sound := by
  refine ⟨h.stack, fun q hq => h.slots q ?_, h.directory⟩
  have hset : some q ∈ v.slots.set p.slot none := (List.rdropWhile_prefix _ _).subset hq
  rcases List.mem_or_eq_of_mem_set hset with hmem | hnone
  · exact hmem
  · cases hnone

/-- What an image tells stays so when pointers are given back. -/
def Lasting (I : Image → Prop) : Prop := ∀ v p, I v → I (v.release p)

theorem Lasting.releaseAll {I : Image → Prop} (hI : Lasting I) (h : I v) (ps : List Pointer) :
    I (v.releaseAll ps) := by
  induction ps generalizing v with
  | nil => exact h
  | cons p ps ih => exact ih (hI v p h)

/-- Soundness lasts, also as far as something else depends on it. -/
theorem lasting_sound (S : Prop) : Lasting fun v => S → v.Sound := by
  intro v p h hs
  exact (h hs).release p

theorem Sound.of_content (h : v.Sound) (hv : v'.content = v.content) : v'.Sound := by
  injection hv with hsetting hstack hdirectory
  have hslots : v'.slots = v.slots := slots_eq_of_setting hsetting
  exact ⟨hstack ▸ h.stack, hslots ▸ h.slots, hdirectory ▸ h.directory⟩

theorem setting_eq_of_content (h : v'.content = v.content) : v'.setting = v.setting :=
  congrArg Content.setting h

theorem lt_length_of_content {q : Place} {w : Image} (h : w.content = (v.hold q).content) :
    v.slots.length < w.slots.length :=
  v.lt_length_slots (slots_eq_of_setting (setting_eq_of_content h))

/-- What can be held after a run that held `v` at its start: the setting is as it was, and objects
are sound if they were. -/
structure After (v' v : Image) : Prop where
  setting : v'.setting = v.setting
  sound : v.Sound → v'.Sound

theorem After.refl (v : Image) : v.After v := ⟨rfl, id⟩

theorem After.trans (h : v'.After v) (h' : v''.After v') : v''.After v :=
  ⟨h'.setting.trans h.setting, h'.sound ∘ h.sound⟩

theorem After.of_content (h : v'.content = v.content) : v'.After v :=
  ⟨setting_eq_of_content h, fun hs => hs.of_content h⟩

theorem After.deref (h : v'.After v) (hp : v.deref p = some q) : v'.deref p = some q :=
  deref_of_setting h.setting hp

/-- The top `n` objects of the stack gave way to others, and nothing else changed. -/
structure Replaces (v : Image) (n : Nat) (new : List Place) (v' : Image) : Prop where
  le : n ≤ v.stack.length
  content : v'.content = { v.content with stack := new ++ v.stack.drop n }
  sound : v.Sound → ∀ q ∈ new, q.tree.Sound

theorem Replaces.after {n : Nat} {new : List Place} (h : v.Replaces n new v') : v'.After v := by
  have hcontent := h.content
  injection hcontent with hsetting hstack hdirectory
  refine ⟨hsetting, fun hs => ⟨?_, ?_, ?_⟩⟩
  · intro q hq
    rw [hstack, List.mem_append] at hq
    rcases hq with hq | hq
    · exact h.sound hs q hq
    · exact hs.stack q (List.mem_of_mem_drop hq)
  · rw [slots_eq_of_setting hsetting]
    exact hs.slots
  · rw [hdirectory]
    exact hs.directory

theorem releaseAll_holdAll_self (hv : v.Valid) (qs : List Place) :
    (v.holdAll qs).releaseAll (pointers v.slots.length qs) = v := by
  have := releaseAll_scribble hv qs []
  rwa [scribble_nil, scribble_nil] at this

theorem stack_releaseAll (v : Image) (ps : List Pointer) : (v.releaseAll ps).stack = v.stack := by
  induction ps generalizing v with
  | nil => rfl
  | cons p ps ih => exact ih (v.release p)

theorem directory_releaseAll (v : Image) (ps : List Pointer) :
    (v.releaseAll ps).directory = v.directory := by
  induction ps generalizing v with
  | nil => rfl
  | cons p ps ih => exact ih (v.release p)

theorem content_releaseAll_holdAll (hv : v.Valid) {qs : List Place} {stack : List Place}
    (hw : v'.content = { (v.holdAll qs).content with stack }) :
    (v'.releaseAll (pointers v.slots.length qs)).content = { v.content with stack } := by
  injection hw with hsetting hstack hdirectory
  apply content_eq (releaseAll_holdAll hv qs hsetting)
  · rw [stack_releaseAll, hstack]
  · rw [directory_releaseAll, hdirectory]
    rfl

theorem release_hold_self (hv : v.Valid) (q : Place) : (v.hold q).release ⟨v.slots.length⟩ = v :=
  releaseAll_holdAll_self hv [q]

theorem content_release_hold (hv : v.Valid) {stack : List Place}
    (hw : v'.content = { (v.hold q).content with stack }) :
    (v'.release ⟨v.slots.length⟩).content = { v.content with stack } := by
  have hheld : v'.content = { (v.holdAll [q]).content with stack } := hw
  exact content_releaseAll_holdAll hv hheld

end Image

end RpnMachine
