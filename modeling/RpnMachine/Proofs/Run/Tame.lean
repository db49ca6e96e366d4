import RpnMachine.Proofs.Run.Exchanges

/-! Runs that leave things in order, whether they succeed or fail. -/
namespace RpnMachine

namespace Run

variable {α β : Type} {c₁ c₂ : Nat} {v w : Image} {p : Pointer} {q : Place}

/-! Runs that preserve something, whether they succeed or fail. -/

/-- Both runs agree, end with the setting `s` and what `I` tells, and fail only for reasons in `E`. -/
def Preserves (I : Image → Prop) (E : Failure → Prop) (c₁ c₂ : Nat) (v : Image) (s : Setting)
    (act₁ act₂ : Run α) : Prop :=
  Agree c₁ c₂ v act₁ act₂ (fun _ v' => v'.setting = s ∧ I v') fun e v' => (v'.setting = s ∧ I v') ∧ E e

namespace Preserves

variable {I : Image → Prop} {E : Failure → Prop} {s : Setting} {act₁ act₂ : Run α}

theorem bind {f₁ f₂ : α → Run β} (h : Preserves I E c₁ c₂ v v.setting act₁ act₂)
    (hf : ∀ a w, w.setting = v.setting → I w → Preserves I E c₁ c₂ w w.setting (f₁ a) (f₂ a)) :
    Preserves I E c₁ c₂ v v.setting (act₁ >>= f₁) (act₂ >>= f₂) := by
  apply Agree.bind h
  intro a w hw
  have hrest := hf a w hw.1 hw.2
  rwa [hw.1] at hrest

theorem holding (hI : Image.Lasting I) (hv : v.Valid) (hw : w.setting = (v.hold q).setting)
    (h : Preserves I E c₁ c₂ w w.setting act₁ act₂) :
    Preserves I E c₁ c₂ w v.setting (holding ⟨v.slots.length⟩ act₁)
      (Run.holding ⟨v.slots.length⟩ act₂) := by
  have hlt : ∀ u : Image, u.setting = w.setting → v.slots.length < u.slots.length :=
    fun u hu => v.lt_length_slots (Image.slots_eq_of_setting (hu.trans hw))
  have hrelease : ∀ u : Image, u.setting = w.setting ∧ I u →
      (u.release ⟨v.slots.length⟩).setting = v.setting ∧ I (u.release ⟨v.slots.length⟩) := by
    intro u hu
    exact ⟨Image.release_hold hv q (hu.1.trans hw), hI u _ hu.2⟩
  apply Agree.holding
  apply Agree.mono h fun _ u hu => ⟨hlt u hu.1, hrelease u hu⟩
  intro e u hu
  exact ⟨hlt u hu.1.1, hrelease u hu.1, hu.2⟩

theorem children {g₁ g₂ : List Pointer → Run α} (hI : Image.Lasting I) (hp : v.deref p = some q)
    (h : Preserves I E c₁ c₂ (v.holdAll q.children) (v.holdAll q.children).setting
      (g₁ (Image.pointers v.slots.length q.children))
      (g₂ (Image.pointers v.slots.length q.children))) :
    Preserves I E c₁ c₂ v v.setting (do let ps ← children p; Run.holdingAll ps (g₁ ps))
      (do let ps ← children p; Run.holdingAll ps (g₂ ps)) := by
  apply Agree.of_valid
  intro hv
  have hrelease : ∀ u : Image, u.setting = (v.holdAll q.children).setting ∧ I u →
      (u.releaseAll (Image.pointers v.slots.length q.children)).setting = v.setting ∧
        I (u.releaseAll (Image.pointers v.slots.length q.children)) := by
    intro u hu
    exact ⟨Image.releaseAll_holdAll hv q.children hu.1, hI.releaseAll hu.2 _⟩
  apply Agree.bind_yields (fun _ => yields_children hp)
  apply Agree.holdingAll hv _
  apply Agree.mono h fun _ u hu => ⟨Image.slots_eq_of_setting hu.1, hrelease u hu⟩
  intro e u hu
  exact ⟨Image.slots_eq_of_setting hu.1.1, hrelease u hu.1, hu.2⟩

end Preserves

/-! Runs that leave things in order, whether they succeed or fail. -/

/-- Both runs agree, leave the setting as it was and objects sound if they were, and then fail only
for a reason to expect. -/
def Tame (c₁ c₂ : Nat) (v : Image) (act₁ act₂ : Run α) : Prop :=
  Agree c₁ c₂ v act₁ act₂ (fun _ v' => v'.After v) fun e v' => v'.After v ∧ e.IsDue v.Sound

/-- Both runs agree and give a pointer in the next slot, to a sound object if objects were sound. -/
def Supplies (c₁ c₂ : Nat) (v : Image) (act₁ act₂ : Run Pointer) : Prop :=
  Agree c₁ c₂ v act₁ act₂
    (fun p v' => p = ⟨v.slots.length⟩ ∧
      ∃ q, v'.setting = (v.hold q).setting ∧ (v.Sound → v'.Sound))
    fun e v' => v'.After v ∧ e.IsDue v.Sound

theorem Supplies.gives {act₁ act₂ : Run Pointer} (h : Supplies c₁ c₂ v act₁ act₂) :
    Gives c₁ c₂ v act₁ act₂ :=
  h.mono (fun _ _ h => ⟨h.1, h.2.imp fun _ hq => hq.1⟩) fun _ _ h => h.1.setting

namespace Tame

variable {act₁ act₂ : Run α} {f₁ f₂ : α → Run β} {act : Run α}

theorem steady (h : Tame c₁ c₂ v act₁ act₂) : Steady c₁ c₂ v act₁ act₂ :=
  h.mono (fun _ _ h => h.setting) fun _ _ h => h.1.setting

theorem of_sparing (h : Agree c₁ c₂ v act₁ act₂ (fun _ v' => v'.After v) (Spares v)) :
    Tame c₁ c₂ v act₁ act₂ := h.mono (fun _ _ h => h) fun _ _ h => ⟨.of_content h.1, h.2⟩

theorem of_reads {P : α → Prop} (h : Reads c₁ c₂ v act P) : Tame c₁ c₂ v act act :=
  Agree.mono h (fun _ _ h => h.1 ▸ .refl v) fun _ _ h => ⟨h.1 ▸ .refl v, .of_isExpected h.2⟩

/-- What follows a run that leaves things in order. -/
theorem mono_after {ok : α → Image → Prop} (hw : w.After v)
    (h : Agree c₁ c₂ w act₁ act₂ ok fun e v' => v'.After w ∧ e.IsDue w.Sound) :
    Agree c₁ c₂ w act₁ act₂ ok fun e v' => v'.After v ∧ e.IsDue v.Sound :=
  h.mono (fun _ _ h => h) fun _ _ h => ⟨hw.trans h.1, h.2.mono hw.sound⟩

theorem bind (h : Tame c₁ c₂ v act₁ act₂)
    (hf : ∀ a w, w.After v → Tame c₁ c₂ w (f₁ a) (f₂ a)) :
    Tame c₁ c₂ v (act₁ >>= f₁) (act₂ >>= f₂) := by
  apply Agree.bind h
  intro a w hw
  apply mono_after hw
  exact (hf a w hw).mono (fun _ _ h => hw.trans h) fun _ _ h => h

theorem reading {x : Run β} {R : β → Prop} {g₁ g₂ : β → Run α} (h : Reads c₁ c₂ v x R)
    (hg : ∀ b, R b → Tame c₁ c₂ v (g₁ b) (g₂ b)) : Tame c₁ c₂ v (x >>= g₁) (x >>= g₂) := by
  have hx : Agree c₁ c₂ v x x (fun b w => w = v ∧ R b)
      fun e w => w.After v ∧ e.IsDue v.Sound := by
    apply Agree.mono h (fun _ _ h => h)
    intro e w hw
    exact ⟨hw.1 ▸ .refl v, .of_isExpected hw.2⟩
  apply Agree.bind hx
  intro b w hw
  obtain ⟨rfl, hb⟩ := hw
  exact hg b hb

theorem pure (a : α) : Tame c₁ c₂ v (pure a) (pure a) := Agree.pure (.refl v)

theorem throw {e : Failure} (he : e.IsDue v.Sound) :
    Tame c₁ c₂ v (throw e : Run α) (throw e) := Agree.throw ⟨.refl v, he⟩

theorem fail {e : Error} (he : (Failure.error e).IsDue v.Sound) :
    Tame c₁ c₂ v (fail e : Run α) (Run.fail e) := throw he

theorem fail_bind {e : Error} (he : (Failure.error e).isExpected) :
    Tame c₁ c₂ v (Run.fail e >>= f₁) (Run.fail e >>= f₂) :=
  Agree.bind_yields_error (fun _ m hm => ⟨m, rfl, hm⟩) ⟨.refl v, .of_isExpected he⟩

theorem bind_yields {x : Run α} {a : α} (h : ∀ c, Yields c v x (.ok a) v)
    (hf : Tame c₁ c₂ v (f₁ a) (f₂ a)) : Tame c₁ c₂ v (x >>= f₁) (x >>= f₂) :=
  Agree.bind_yields h hf

/-- Things are in order afterwards if they were in order in what came before. -/
theorem preserves {S : Prop} (hw : S → w.Sound) (h : Tame c₁ c₂ w act₁ act₂) :
    Preserves (fun u => S → u.Sound) (Failure.IsDue S) c₁ c₂ w w.setting act₁ act₂ := by
  apply Agree.mono h
  · intro _ u hu
    exact ⟨hu.setting, fun hs => hu.sound (hw hs)⟩
  · intro e u hu
    exact ⟨⟨hu.1.setting, fun hs => hu.1.sound (hw hs)⟩, hu.2.mono hw⟩

theorem of_preserves (h : Preserves (fun u => v.Sound → u.Sound) (Failure.IsDue v.Sound)
      c₁ c₂ w v.setting act₁ act₂) :
    Agree c₁ c₂ w act₁ act₂ (fun _ v' => v'.After v)
      fun e v' => v'.After v ∧ e.IsDue v.Sound :=
  Agree.mono h (fun _ _ h => ⟨h.1, h.2⟩) fun _ _ h => ⟨⟨h.1.1, h.1.2⟩, h.2⟩

theorem holding (hv : v.Valid) (hw : w.setting = (v.hold q).setting) (hs : v.Sound → w.Sound)
    (h : Tame c₁ c₂ w act₁ act₂) :
    Agree c₁ c₂ w (holding ⟨v.slots.length⟩ act₁) (Run.holding ⟨v.slots.length⟩ act₂)
      (fun _ v' => v'.After v) fun e v' => v'.After v ∧ e.IsDue v.Sound :=
  of_preserves ((h.preserves hs).holding (Image.lasting_sound v.Sound) hv hw)

theorem acquiring {acquire₁ acquire₂ : Run Pointer} {g₁ g₂ : Pointer → Run α}
    (h : Supplies c₁ c₂ v acquire₁ acquire₂)
    (hg : ∀ q w, w.setting = (v.hold q).setting →
      Tame c₁ c₂ w (g₁ ⟨v.slots.length⟩) (g₂ ⟨v.slots.length⟩)) :
    Tame c₁ c₂ v (acquiring acquire₁ g₁) (Run.acquiring acquire₂ g₂) := by
  apply Agree.of_valid
  intro hv
  apply Agree.bind h
  intro p w hw
  obtain ⟨rfl, q, hw, hs⟩ := hw
  exact (hg q w hw).holding hv hw hs

theorem children {g₁ g₂ : List Pointer → Run α} (hp : v.deref p = some q)
    (h : Tame c₁ c₂ (v.holdAll q.children) (g₁ (Image.pointers v.slots.length q.children))
      (g₂ (Image.pointers v.slots.length q.children))) :
    Tame c₁ c₂ v (do let ps ← children p; Run.holdingAll ps (g₁ ps))
      (do let ps ← children p; Run.holdingAll ps (g₂ ps)) := by
  have hsound : v.Sound → (v.holdAll q.children).Sound := fun hs => hs.holdAll_children hp
  exact of_preserves ((h.preserves hsound).children (Image.lasting_sound v.Sound) hp)

theorem lookup {g₁ g₂ : Option Pointer → Run α} (name : String)
    (hnone : Tame c₁ c₂ v (g₁ none) (g₂ none))
    (hsome : v.Valid → ∀ q : Place, (v.Sound → q.tree.Sound) →
      Agree c₁ c₂ (v.hold q) (g₁ (some ⟨v.slots.length⟩)) (g₂ (some ⟨v.slots.length⟩))
        (fun _ v' => v'.After v) fun e v' => v'.After v ∧ e.IsDue v.Sound) :
    Tame c₁ c₂ v (lookup name >>= g₁) (Run.lookup name >>= g₂) := by
  rcases v.named_or_not name with hn | ⟨before, e, after, hs, rfl⟩
  · exact bind_yields (fun _ => yields_lookup_none hn) hnone
  · apply Agree.of_valid
    intro hv
    apply Agree.bind_yields fun _ => yields_lookup hs
    exact hsome hv _ fun hsound => hsound.directory e (by simp [hs])

end Tame
end Run
end RpnMachine
