import RpnMachine.Proofs.Run.Content

/-! Runs that change nothing, and runs that put objects in the place of others. Where they fail,
nothing can be seen of it. -/
namespace RpnMachine

namespace Run

variable {α β : Type} {c₁ c₂ : Nat} {v w : Image} {p : Pointer} {q : Place}

theorem Agree.of_lays {act₁ act₂ : Run α} {ok : α → Image → Prop} {error : Failure → Image → Prop}
    (h : ∀ m kept free, Machine.Lays m c₁ v kept free → Agree c₁ c₂ v act₁ act₂ ok error) :
    Agree c₁ c₂ v act₁ act₂ ok error := by
  intro m₁ m₂ hm₁ hm₂
  obtain ⟨kept, free, hl⟩ := hm₁
  exact h m₁ kept free hl m₁ m₂ hl.represents hm₂

/-! Runs that change nothing at all. -/

/-- The run changes nothing. Its result has a property, or there is a reason to expect why it has
none. -/
def Reads (c₁ c₂ : Nat) (v : Image) (act : Run α) (P : α → Prop) : Prop :=
  Agree c₁ c₂ v act act (fun a v' => v' = v ∧ P a) fun e v' => v' = v ∧ e.isExpected

namespace Reads

variable {act : Run α} {P : α → Prop} {f : α → Run β} {Q : β → Prop}

theorem pure {a : α} (h : P a) : Reads c₁ c₂ v (pure a) P := Agree.pure ⟨rfl, h⟩

theorem fail {e : Error} (he : (Failure.error e).isExpected) : Reads c₁ c₂ v (fail e : Run α) P :=
  Agree.fail ⟨rfl, he⟩

theorem of_yields {a : α} (h : ∀ c, Yields c v act (.ok a) v) (hP : P a) : Reads c₁ c₂ v act P :=
  Agree.of_yields (h _) (h _) ⟨rfl, hP⟩

theorem ofOutcome {o : Except Failure α} (h : ∀ e, o = .error e → e.isExpected) :
    Reads c₁ c₂ v (ofOutcome o) fun a => o = .ok a := by
  cases o with
  | ok a => exact pure rfl
  | error e => exact Agree.throw ⟨rfl, h e rfl⟩

theorem ofExcept {o : Except Error α} (h : ∀ e, o = .error e → (Failure.error e).isExpected) :
    Reads c₁ c₂ v (ofExcept o) fun a => o = .ok a := by
  cases o with
  | ok a => exact pure rfl
  | error e => exact fail (h e rfl)

theorem bind_yields {x : Run β} {b : β} {g : β → Run α} (h : ∀ c, Yields c v x (.ok b) v)
    (hg : Reads c₁ c₂ v (g b) P) : Reads c₁ c₂ v (x >>= g) P := Agree.bind_yields h hg

theorem bind (h : Reads c₁ c₂ v act P) (hf : ∀ a, P a → Reads c₁ c₂ v (f a) Q) :
    Reads c₁ c₂ v (act >>= f) Q := by
  apply Agree.bind h
  intro a w hw
  obtain ⟨rfl, ha⟩ := hw
  exact hf a ha

theorem peeking {level : Nat} (hl : level < v.stack.length) {f : Pointer → Run α}
    (h : Reads c₁ c₂ (v.hold v.stack[level]) (f ⟨v.slots.length⟩) P) :
    Reads c₁ c₂ v (acquiring (peek level) f) P := by
  apply Agree.of_valid
  intro hv
  apply Agree.bind_yields (fun _ => yields_peek hl)
  apply Agree.holding
  have hlt := v.lt_length_slots (q := v.stack[level]) rfl
  have hrelease := Image.release_hold_self hv v.stack[level]
  apply Agree.mono h
  · intro a w hw
    exact ⟨hw.1 ▸ hlt, hw.1 ▸ hrelease, hw.2⟩
  · intro e w hw
    exact ⟨hw.1 ▸ hlt, hw.1 ▸ hrelease, hw.2⟩

theorem children (hp : v.deref p = some q) {f : List Pointer → Run α}
    (h : Reads c₁ c₂ (v.holdAll q.children) (f (Image.pointers v.slots.length q.children)) P) :
    Reads c₁ c₂ v (do let ps ← children p; holdingAll ps (f ps)) P := by
  apply Agree.of_valid
  intro hv
  apply Agree.bind_yields (fun _ => yields_children hp)
  apply Agree.holdingAll hv _
  have hrelease := Image.releaseAll_holdAll_self hv q.children
  apply Agree.mono h
  · intro a w hw
    exact ⟨hw.1 ▸ rfl, hw.1 ▸ hrelease, hw.2⟩
  · intro e w hw
    exact ⟨hw.1 ▸ rfl, hw.1 ▸ hrelease, hw.2⟩

end Reads

theorem Yields.peeking {c level : Nat} (hl : level < v.stack.length) {f : Pointer → Run α}
    {o : Except Failure α}
    (h : Yields c (v.hold v.stack[level]) (f ⟨v.slots.length⟩) o (v.hold v.stack[level])) :
    Yields c v (Run.acquiring (peek level) f) o v := by
  apply Yields.of_valid
  intro hv
  have hread := (yields_peek hl).acquiring h (v.lt_length_slots rfl)
  rwa [Image.release_hold_self hv] at hread

theorem toOption_peek_value {m : Machine} {c : Nat} (hm : m.Represents c v) (level : Nat) :
    (exec (acquiring (peek level) value) m).1.toOption = v.stack[level]?.map fun q => q.tree.value := by
  by_cases hl : level < v.stack.length
  · obtain ⟨m₁, he, -⟩ := Yields.peeking hl (yields_value (v.deref_hold_self _)) m hm
    rw [he, List.getElem?_eq_getElem hl]
    rfl
  · obtain ⟨m₁, he, -⟩ := yields_peek_error level hl m hm
    rw [acquiring, exec_bind_error he, List.getElem?_eq_none (Nat.not_lt.mp hl)]
    rfl

theorem reads_args (n : Nat) : Reads c₁ c₂ v (args n) fun _ => n ≤ v.stack.length := by
  by_cases hn : n ≤ v.stack.length
  · exact .of_yields (fun _ => yields_args hn) hn
  · exact Agree.of_yields_error (yields_args_error hn) (yields_args_error hn) ⟨rfl, rfl⟩

/-! Runs that do what they should, or change nothing that can be seen. -/

/-- A failure that left the contents of `v`, with a reason to expect if the objects there are
sound. -/
def Spares (v : Image) (e : Failure) (v' : Image) : Prop :=
  v'.content = v.content ∧ e.IsDue v.Sound

theorem Spares.of_lacksMemory {e : Failure} (he : e.lacksMemory) (hw : w.content = v.content) :
    Spares v e w := ⟨hw, .of_lacksMemory he⟩

/-- A run that reads comes first. -/
theorem Reads.sparing {act : Run α} {P : α → Prop} {f : α → Run β} {ok : β → Image → Prop}
    (h : Reads c₁ c₂ v act P) (hf : ∀ a, P a → Agree c₁ c₂ v (f a) (f a) ok (Spares v)) :
    Agree c₁ c₂ v (act >>= f) (act >>= f) ok (Spares v) := by
  have hact : Agree c₁ c₂ v act act (fun a v' => v' = v ∧ P a) (Spares v) := by
    apply Agree.mono h (fun _ _ h => h)
    intro e w hw
    exact ⟨by rw [hw.1], .of_isExpected hw.2⟩
  apply Agree.bind hact
  intro a w hw
  obtain ⟨rfl, ha⟩ := hw
  exact hf a ha

/-- The run puts objects with a property in the place of the top `n` ones of the stack, or it fails
and there is nothing to be seen of it. -/
def Exchanges (c₁ c₂ : Nat) (v : Image) (act : Run α) (n : Nat) (P : List Place → Prop) : Prop :=
  Agree c₁ c₂ v act act (fun _ w => ∃ new, P new ∧ v.Replaces n new w) (Spares v)

namespace Exchanges

variable {n : Nat} {P Q : List Place → Prop} {act : Run α}

theorem mono (h : Exchanges c₁ c₂ v act n P) (hP : ∀ new, P new → Q new) :
    Exchanges c₁ c₂ v act n Q := by
  apply Agree.mono h
  · intro a w hw
    obtain ⟨new, hnew, hreplaces⟩ := hw
    exact ⟨new, hP new hnew, hreplaces⟩
  · exact fun _ _ h => h

theorem of_yields {a : α} {w : Image} {new : List Place} (h : ∀ c, Yields c v act (.ok a) w)
    (hnew : P new) (hw : v.Replaces n new w) : Exchanges c₁ c₂ v act n P :=
  Agree.of_yields (h _) (h _) ⟨new, hnew, hw⟩

theorem of_yields_error {e : Failure} (h : ∀ c, Yields c v act (.error e) v) (he : e.isExpected) :
    Exchanges c₁ c₂ v act n P :=
  Agree.of_yields_error (h _) (h _) ⟨rfl, .of_isExpected he⟩

theorem sparing (h : Exchanges c₁ c₂ v act n P) :
    Agree c₁ c₂ v act act (fun _ w => w.After v) (Spares v) := by
  apply Agree.mono h
  · intro a w hw
    obtain ⟨new, -, hreplaces⟩ := hw
    exact hreplaces.after
  · exact fun _ _ h => h

theorem reading {x : Run β} {R : β → Prop} {f : β → Run α} (h : Reads c₁ c₂ v x R)
    (hf : ∀ b, R b → Exchanges c₁ c₂ v (f b) n P) : Exchanges c₁ c₂ v (x >>= f) n P :=
  h.sparing hf

theorem bind_yields {x : Run β} {b : β} {f : β → Run α} (h : ∀ c, Yields c v x (.ok b) v)
    (hf : Exchanges c₁ c₂ v (f b) n P) : Exchanges c₁ c₂ v (x >>= f) n P := Agree.bind_yields h hf

theorem fail_bind {e : Error} {f : β → Run α} (he : (Failure.error e).isExpected) :
    Exchanges c₁ c₂ v (Run.fail e >>= f) n P :=
  Agree.bind_yields_error (fun _ m hm => ⟨m, rfl, hm⟩) ⟨rfl, .of_isExpected he⟩

theorem holding (hv : v.Valid) (hq : v.Sound → q.tree.Sound)
    (h : Exchanges c₁ c₂ (v.hold q) act n P) :
    Agree c₁ c₂ (v.hold q) (holding ⟨v.slots.length⟩ act) (Run.holding ⟨v.slots.length⟩ act)
      (fun _ w => ∃ new, P new ∧ v.Replaces n new w) (Spares v) := by
  apply Agree.holding
  apply Agree.mono h
  · intro a w hw
    obtain ⟨new, hnew, hreplaces⟩ := hw
    exact ⟨v.lt_length_slots (Image.slots_eq_of_setting hreplaces.after.setting), new, hnew, hreplaces.le,
      Image.content_release_hold hv hreplaces.content,
      fun hs => hreplaces.sound (hs.hold (hq hs))⟩
  · intro e w hw
    exact ⟨Image.lt_length_of_content hw.1, Image.content_release_hold hv hw.1,
      hw.2.mono fun hs => hs.hold (hq hs)⟩

theorem peeking {level : Nat} (hl : level < v.stack.length) {f : Pointer → Run α}
    (h : Exchanges c₁ c₂ (v.hold v.stack[level]) (f ⟨v.slots.length⟩) n P) :
    Exchanges c₁ c₂ v (acquiring (peek level) f) n P := by
  apply Agree.of_valid
  intro hv
  apply Agree.bind_yields (fun _ => yields_peek hl)
  exact h.holding hv fun hs => hs.stack _ (List.getElem_mem hl)

theorem children (hp : v.deref p = some q) {f : List Pointer → Run α}
    (h : Exchanges c₁ c₂ (v.holdAll q.children) (f (Image.pointers v.slots.length q.children)) n P) :
    Exchanges c₁ c₂ v (do let ps ← children p; holdingAll ps (f ps)) n P := by
  have hsound : v.Sound → (v.holdAll q.children).Sound := fun hs => hs.holdAll_children hp
  apply Agree.of_valid
  intro hv
  apply Agree.bind_yields (fun _ => yields_children hp)
  apply Agree.holdingAll hv _
  apply Agree.mono h
  · intro a w hw
    obtain ⟨new, hnew, hreplaces⟩ := hw
    exact ⟨Image.slots_eq_of_setting hreplaces.after.setting, new, hnew, hreplaces.le,
      Image.content_releaseAll_holdAll hv hreplaces.content, fun hs => hreplaces.sound (hsound hs)⟩
  · intro e w hw
    exact ⟨Image.slots_eq_of_setting (Image.setting_eq_of_content hw.1),
      Image.content_releaseAll_holdAll hv hw.1, hw.2.mono hsound⟩

theorem made (hv : v.Valid) {t : Tree} (ht : v.Sound → t.Sound)
    (h : Exchanges c₁ c₂ (v.make t) act n P) :
    Agree c₁ c₂ (v.make t) (Run.holding ⟨v.slots.length⟩ act) (Run.holding ⟨v.slots.length⟩ act)
      (fun _ w => ∃ new, P new ∧ v.Replaces n new w) (Spares v) := by
  -- With one more temporary there is nothing else to be seen.
  have hadd : v.Sound → (v.add t).Sound := fun hs => hs.of_content rfl
  have hadd' : (v.add t).Sound → v.Sound := fun hs => hs.of_content rfl
  apply (h.holding (v := v.add t) (hv.add t) fun hs => ht (hadd' hs)).mono
  · intro a w hw
    obtain ⟨new, hnew, hreplaces⟩ := hw
    exact ⟨new, hnew, hreplaces.le, hreplaces.content, fun hs => hreplaces.sound (hadd hs)⟩
  · intro e w hw
    exact ⟨hw.1, hw.2.mono hadd⟩

theorem making (hc : c₁ ≤ c₂) {t : Tree} (ht : t.Sound) {f : Pointer → Run α}
    (h : Exchanges c₁ c₂ (v.make t) (f ⟨v.slots.length⟩) n P) :
    Exchanges c₁ c₂ v (acquiring (make t.recipe) f) n P := by
  apply Agree.of_valid
  intro hv
  have hmake : Agree c₁ c₂ v (make t.recipe) (make t.recipe)
      (fun p v' => p = ⟨v.slots.length⟩ ∧ v' = v.make t) (Spares v) := by
    apply (agree_make hc t).mono (fun _ _ h => h)
    intro e w hw
    exact .of_lacksMemory hw.1.lacksMemory (by rw [hw.2])
  apply Agree.bind hmake
  intro p w hw
  obtain ⟨rfl, rfl⟩ := hw
  exact h.made hv fun _ => ht

end Exchanges

end Run
end RpnMachine
