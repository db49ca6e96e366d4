import RpnMachine.Proofs.Run.Operations

/-! Runs that leave the pointers and the scratchpad as they found them, whether they succeed or
fail. What the stack and the directory hold may change. -/
namespace RpnMachine

structure Setting where
  slots : List (Option Place)
  scratch : List UInt8
  interrupted : Bool
  nesting : Nat

namespace Image

variable {v v' : Image} {p : Pointer} {q r : Place}

def setting (v : Image) : Setting := ⟨v.slots, v.scratch, v.interrupted, v.nesting⟩

theorem slots_eq_of_setting (h : v'.setting = v.setting) :
    v'.slots = v.slots := congrArg Setting.slots h

theorem scratch_eq_of_setting (h : v'.setting = v.setting) : v'.scratch = v.scratch :=
  congrArg Setting.scratch h

theorem deref_eq_of_setting (h : v'.setting = v.setting) (p : Pointer) :
    v'.deref p = v.deref p := by
  rw [deref, deref, slots_eq_of_setting h]

theorem deref_of_setting (h : v'.setting = v.setting) (hp : v.deref p = some q) :
    v'.deref p = some q := (deref_eq_of_setting h p).trans hp

theorem lt_length_slots {w : Image} (hw : w.slots = (v.hold q).slots) :
    (Pointer.mk v.slots.length).slot < w.slots.length := by
  simp [hw, hold]

theorem setting_hold (v : Image) (q : Place) :
    (v.hold q).setting = { v.setting with slots := v.setting.slots ++ [some q] } := rfl

theorem setting_release (v : Image) (p : Pointer) :
    (v.release p).setting = { v.setting with slots := vacate v.setting.slots p.slot } := rfl

theorem deref_hold_self (v : Image) (q : Place) : (v.hold q).deref ⟨v.slots.length⟩ = some q := by
  simp [deref, hold]

theorem slot_lt_of_deref (hp : v.deref p = some q) : p.slot < v.slots.length := by
  rw [deref, Option.join_eq_some_iff] at hp
  exact (List.getElem?_eq_some_iff.mp hp).1

theorem deref_holdAll (hp : v.deref p = some q) (qs : List Place) :
    (v.holdAll qs).deref p = some q := by
  have hlt := slot_lt_of_deref hp
  rw [deref, Option.join_eq_some_iff] at hp ⊢
  rw [holdAll]
  simp only
  rwa [List.getElem?_append_left hlt]

theorem deref_hold (hp : v.deref p = some q) (r : Place) : (v.hold r).deref p = some q :=
  deref_holdAll hp [r]

/-- The pointers to children lead to them. -/
theorem deref_holdAll_getElem (v : Image) (qs : List Place) {i : Nat} (hi : i < qs.length) :
    (v.holdAll qs).deref ⟨v.slots.length + i⟩ = some qs[i] := by
  rw [deref, Option.join_eq_some_iff, holdAll]
  simp [hi]

def releaseAll (v : Image) (ps : List Pointer) : Image := ps.foldl release v

@[simp] theorem releaseAll_cons (v : Image) (p : Pointer) (ps : List Pointer) :
    v.releaseAll (p :: ps) = (v.release p).releaseAll ps := rfl

def pointers (start : Nat) (qs : List Place) : List Pointer :=
  (List.range' start qs.length).map Pointer.mk

theorem pointers_cons (start : Nat) (q : Place) (qs : List Place) :
    pointers start (q :: qs) = ⟨start⟩ :: pointers (start + 1) qs := by
  simp [pointers, List.range'_succ]

/-- With the first pending pointers given back, the slots of the rest are left. -/
theorem releaseAll_pending_append {base : List (Option Place)} (hb : Trimmed base) (n : Nat)
    (qs rest : List Place) (hs : v.slots = pending base n (qs ++ rest)) :
    v.releaseAll (pointers (base.length + n) qs) =
      { v with slots := pending base (n + qs.length) rest } := by
  induction qs generalizing v n with
  | nil =>
    rw [List.nil_append] at hs
    rw [List.length_nil, Nat.add_zero, ← hs]
    rfl
  | cons q qs ih =>
    have hnext : (v.release ⟨base.length + n⟩).slots = pending base (n + 1) (qs ++ rest) := by
      rw [release, hs]
      exact vacate_pending hb n q (qs ++ rest)
    rw [pointers_cons, releaseAll_cons, Nat.add_assoc, ih (n + 1) hnext, List.length_cons,
      Nat.add_assoc, Nat.add_comm 1]
    rfl

/-- With all pending pointers given back, the slots below them are left. -/
theorem releaseAll_pending {base : List (Option Place)} (hb : Trimmed base) (n : Nat)
    (qs : List Place) (hs : v.slots = pending base n qs) :
    v.releaseAll (pointers (base.length + n) qs) = { v with slots := base } :=
  releaseAll_pending_append hb n qs [] (by rwa [List.append_nil])

theorem releaseAll_holdAll (hv : v.Valid) (qs : List Place) {w : Image}
    (hw : w.setting = (v.holdAll qs).setting) :
    (w.releaseAll (pointers v.slots.length qs)).setting = v.setting := by
  have hslots : w.slots = pending v.slots 0 qs := by
    rw [slots_eq_of_setting hw]
    cases qs <;> simp [holdAll, pending]
  have hrest : w.setting = { v.setting with slots := v.slots ++ qs.map some } := hw
  have := releaseAll_pending hv.trimmed 0 qs hslots
  rw [Nat.add_zero] at this
  rw [this]
  injection hrest with _ hs hi hn
  simp only [setting, hs, hi, hn]

theorem release_hold (hv : v.Valid) (q : Place) {w : Image} (hw : w.setting = (v.hold q).setting) :
    (w.release ⟨v.slots.length⟩).setting = v.setting := releaseAll_holdAll hv [q] hw

/-- Pointers lead to places, one to each. -/
def Refers (v : Image) (ps : List Pointer) (qs : List Place) : Prop :=
  List.Forall₂ (fun p q => v.deref p = some q) ps qs

theorem refers_holdAll (v : Image) (qs : List Place) :
    (v.holdAll qs).Refers (pointers v.slots.length qs) qs := by
  refine List.forall₂_iff_get.mpr ⟨by simp [pointers], fun i hi hi' => ?_⟩
  simpa [pointers] using v.deref_holdAll_getElem qs hi'

theorem Refers.of_setting {ps : List Pointer} {qs : List Place} {w : Image} (h : v.Refers ps qs)
    (hw : w.setting = v.setting) : w.Refers ps qs :=
  h.imp fun _ _ hp => deref_of_setting hw hp

theorem Refers.exists_deref {ps : List Pointer} {qs : List Place} (h : v.Refers ps qs) {p : Pointer}
    (hp : p ∈ ps) : ∃ q ∈ qs, v.deref p = some q := by
  obtain ⟨i, hi, rfl⟩ := List.getElem_of_mem hp
  have hi' : i < qs.length := h.length_eq ▸ hi
  exact ⟨qs[i], List.getElem_mem hi', (List.forall₂_iff_get.mp h).2 i hi hi'⟩

theorem Refers.exists_deref_of_mem {ps : List Pointer} {qs : List Place} (h : v.Refers ps qs)
    (hq : q ∈ qs) : ∃ p, v.deref p = some q := by
  obtain ⟨i, hi, rfl⟩ := List.getElem_of_mem hq
  exact ⟨_, (List.forall₂_iff_get.mp h).2 i (h.length_eq ▸ hi) hi⟩

theorem Refers.hold {ps : List Pointer} {qs : List Place} (h : v.Refers ps qs) (q : Place) :
    (v.hold q).Refers (ps ++ [⟨v.slots.length⟩]) (qs ++ [q]) :=
  List.rel_append (h.imp fun _ _ hp => deref_hold hp q) (.cons (v.deref_hold_self q) .nil)

end Image

namespace Run

variable {α : Type} {c c₁ c₂ : Nat} {v v' : Image}

/-- The first pending pointers can be given back. -/
theorem yields_releasePending {base : List (Option Place)} (hb : Trimmed base) (n : Nat)
    (qs rest : List Place) (hs : v.slots = pending base n (qs ++ rest)) :
    Yields c v ((Image.pointers (base.length + n) qs).forM release) (.ok ())
      (v.releaseAll (Image.pointers (base.length + n) qs)) := by
  induction qs generalizing v n with
  | nil => exact Yields.pure ()
  | cons q qs ih =>
    have hlt : base.length + n < v.slots.length := by simp [hs, pending]
    have hnext : (v.release ⟨base.length + n⟩).slots = pending base (n + 1) (qs ++ rest) := by
      rw [Image.release, hs]
      exact vacate_pending hb n q (qs ++ rest)
    rw [Image.pointers_cons, Image.releaseAll_cons]
    exact (yields_release hlt).bind (ih (n + 1) hnext)

/-- The newest pointers can be given back. -/
theorem yields_releaseAll (hv : v.Valid) (qs : List Place) {w : Image}
    (hw : w.slots = (v.holdAll qs).slots) :
    Yields c w ((Image.pointers v.slots.length qs).forM release) (.ok ())
      (w.releaseAll (Image.pointers v.slots.length qs)) := by
  refine yields_releasePending hv.trimmed 0 qs [] ?_
  rw [hw, List.append_nil]
  cases qs <;> simp [Image.holdAll, pending]

theorem Agree.holdingAll (hv : v.Valid) (qs : List Place) {w : Image} {act₁ act₂ : Run α}
    {ok : α → Image → Prop} {error : Failure → Image → Prop}
    (h : Agree c₁ c₂ w act₁ act₂
      (fun a w' => w'.slots = (v.holdAll qs).slots ∧
        ok a (w'.releaseAll (Image.pointers v.slots.length qs)))
      fun e w' => w'.slots = (v.holdAll qs).slots ∧
        error e (w'.releaseAll (Image.pointers v.slots.length qs))) :
    Agree c₁ c₂ w (holdingAll (Image.pointers v.slots.length qs) act₁)
      (Run.holdingAll (Image.pointers v.slots.length qs) act₂) ok error :=
  .ensuring (fun _ _ hw => yields_releaseAll hv qs hw) h

/-- Both runs agree and leave the setting as it was. -/
def Steady (c₁ c₂ : Nat) (v : Image) (act₁ act₂ : Run α) : Prop :=
  Agree c₁ c₂ v act₁ act₂ (fun _ v' => v'.setting = v.setting) fun _ v' => v'.setting = v.setting

def Gives (c₁ c₂ : Nat) (v : Image) (act₁ act₂ : Run Pointer) : Prop :=
  Agree c₁ c₂ v act₁ act₂
    (fun p v' => p = ⟨v.slots.length⟩ ∧ ∃ q, v'.setting = (v.hold q).setting)
    fun _ v' => v'.setting = v.setting

namespace Steady

theorem pure (a : α) : Steady c₁ c₂ v (pure a) (pure a) := Agree.pure rfl

theorem fail (e : Error) : Steady c₁ c₂ v (fail e : Run α) (Run.fail e) := Agree.fail rfl

theorem of_yields {x : Run α} {a : α} (h : ∀ c, Yields c v x (.ok a) v')
    (hset : v'.setting = v.setting) : Steady c₁ c₂ v x x := Agree.of_yields (h _) (h _) hset

theorem of_yields_error {x : Run α} {e : Failure} (h : ∀ c, Yields c v x (.error e) v')
    (hset : v'.setting = v.setting) : Steady c₁ c₂ v x x := Agree.of_yields_error (h _) (h _) hset

end Steady

/-! Single operations. -/

section Operations

variable {p : Pointer} {q : Place}

theorem gives_peek (level : Nat) : Gives c₁ c₂ v (peek level) (peek level) := by
  by_cases hl : level < v.stack.length
  · exact Agree.of_yields (yields_peek hl) (yields_peek hl) ⟨rfl, _, rfl⟩
  · exact Agree.of_yields_error (yields_peek_error level hl) (yields_peek_error level hl) rfl

theorem gives_pop : Gives c₁ c₂ v pop pop := by
  cases hs : v.stack with
  | nil => exact Agree.of_yields_error (yields_pop_error hs) (yields_pop_error hs) rfl
  | cons q qs => exact Agree.of_yields (yields_pop hs) (yields_pop hs) ⟨rfl, q, rfl⟩

theorem steady_put (level : Nat) (hp : v.deref p = some q) :
    Steady c₁ c₂ v (put level p) (put level p) := by
  by_cases hl : level < v.stack.length
  · exact .of_yields (fun _ => yields_put hl hp) rfl
  · exact .of_yields_error (fun _ => yields_put_error hl p) rfl

theorem steady_discard (n : Nat) : Steady c₁ c₂ v (discard n) (discard n) := by
  by_cases hn : n ≤ v.stack.length
  · exact .of_yields (fun _ => yields_discard hn) rfl
  · exact .of_yields_error (fun _ => yields_discard_error hn) rfl

theorem steady_clear : Steady c₁ c₂ v clear clear := .of_yields (fun _ => yields_clear) rfl

theorem steady_roll (n : Nat) : Steady c₁ c₂ v (roll n) (roll n) := by
  cases n with
  | zero => exact .pure ()
  | succ n =>
    by_cases hn : n < v.stack.length
    · exact .of_yields (fun _ => yields_roll hn) rfl
    · exact .of_yields_error (fun _ => yields_roll_error hn) rfl

theorem steady_push (hc : c₁ ≤ c₂) (hp : v.deref p = some q) :
    Steady c₁ c₂ v (push p) (push p) := by
  refine (agree_push hc hp).mono ?_ ?_
  · rintro _ _ ⟨-, rfl⟩
    rfl
  · rintro _ _ ⟨-, rfl⟩
    rfl

theorem gives_make (hc : c₁ ≤ c₂) (t : Tree) : Gives c₁ c₂ v (make t.recipe) (make t.recipe) := by
  refine (agree_make hc t).mono ?_ ?_
  · rintro _ _ ⟨rfl, rfl⟩
    exact ⟨rfl, _, rfl⟩
  · rintro _ _ ⟨-, rfl⟩
    rfl

theorem gives_clone (hp : v.deref p = some q) : Gives c₁ c₂ v (clone p) (clone p) :=
  Agree.of_yields (yields_clone hp) (yields_clone hp) ⟨rfl, q, rfl⟩

theorem steady_store (hc : c₁ ≤ c₂) (name : String) (hp : v.deref p = some q) :
    Steady c₁ c₂ v (store name p) (store name p) := by
  by_cases hname : name = ""
  · have hfail : ∀ c, Yields c v (store name p) (.error (.error .invalidName)) v := fun c m hm => by
      refine ⟨m, ?_, hm⟩
      rw [store, if_pos (by simpa using hname)]
      rfl
    exact .of_yields_error hfail rfl
  · refine (agree_store hc hname hp).mono ?_ ?_
    · rintro _ _ ⟨-, rfl⟩
      rfl
    · rintro _ _ ⟨-, rfl⟩
      rfl

theorem steady_purge (hc : c₁ ≤ c₂) (name : String) :
    Steady c₁ c₂ v (purge name) (purge name) := by
  refine (agree_purge hc name).mono ?_ ?_
  · rintro _ _ ⟨-, rfl⟩
    rfl
  · rintro _ _ ⟨-, rfl⟩
    rfl

end Operations
end Run
end RpnMachine
