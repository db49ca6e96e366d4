import RpnMachine.Machine.Building
import RpnMachine.Proofs.Run.Tame
import RpnMachine.Proofs.Source.Completeness

/-! Building objects in memory: the scratchpad holds the children of the open structures, and what
is finished is the tree that the steps tell. A text gives just the objects that it is derived for.
-/
namespace RpnMachine

namespace Site

def content : List (List Tree) → List UInt8
  | [] => []
  | ts :: forest => content forest ++ Tree.encodeAll ts

def starts (base : Nat) : List (List Tree) → List Nat
  | [] => []
  | _ :: forest => (base + (content forest).length) :: starts base forest

end Site

namespace Image

variable {v w : Image}

theorem content_hold (h : w.content = v.content) (q : Place) :
    (w.hold q).content = (v.hold q).content := by
  injection h with hsetting hstack hdirectory
  apply content_eq _ hstack hdirectory
  rw [setting_hold, hsetting]
  rfl

/-- What holds some more bytes on the scratchpad holds more than something. -/
theorem exists_eq_scribble {xs : List UInt8} (hw : w.content = (v.scribble xs).content) :
    ∃ u : Image, w = u.scribble xs ∧ u.content = v.content := by
  injection hw with hsetting hstack hdirectory
  injection hsetting with hslots hscratch hinterrupted hnesting
  have hscratch : w.scratch = v.scratch ++ xs := hscratch
  refine ⟨{ w with scratch := v.scratch }, ?_, ?_⟩
  · simp only [scribble, ← hscratch]
  · exact content_eq (by rw [setting, hslots, hinterrupted, hnesting]; rfl) hstack hdirectory

end Image

namespace Run

variable {c₁ c₂ : Nat} {v w : Image} {made : Run Pointer} {t : Tree}

theorem exists_yields_scratchRelease {xs : List UInt8} (hw : w.content = (v.scribble xs).content) :
    ∃ w', (∀ c, Yields c w (scratchRelease v.scratch.length) (.ok ()) w') ∧
      w'.content = v.content := by
  obtain ⟨u, rfl, hu⟩ := Image.exists_eq_scribble hw
  refine ⟨u, fun c => ?_, hu⟩
  rw [← Image.scratch_eq_of_setting (Image.setting_eq_of_content hu)]
  exact yields_scratchRelease_scribble c xs

/-- Both runs agree and give a pointer to the object `t` in the next slot of `v`, which they held
but for the scratchpad. -/
def Makes (c₁ c₂ : Nat) (v w : Image) (t : Tree) (act : Run Pointer) : Prop :=
  Agree c₁ c₂ w act act
    (fun p v' => p = ⟨v.slots.length⟩ ∧ ∃ q, q.tree = t ∧ v'.content = (v.hold q).content)
    fun e v' => e.lacksMemory ∧ v'.content = v.content

theorem makes_make (hc : c₁ ≤ c₂) (hw : w.content = v.content) (t : Tree) :
    Makes c₁ c₂ v w t (make t.recipe) := by
  have hslots := Image.slots_eq_of_setting (Image.setting_eq_of_content hw)
  apply (agree_make hc t).mono
  · intro p u hu
    obtain ⟨rfl, rfl⟩ := hu
    exact ⟨by rw [hslots], .whole (w.newest t), rfl, Image.content_hold hw _⟩
  · intro e u hu
    obtain ⟨he, rfl⟩ := hu
    exact ⟨he.lacksMemory, hw⟩

theorem makes_makeFromScratch (hc : c₁ ≤ c₂) {xs : List UInt8} {k : Kind}
    (hw : w.content = (v.scribble xs).content)
    (ht : t.encode = Encoding.mark k ++ Encoding.sized xs) :
    Makes c₁ c₂ v w t (makeFromScratch k v.scratch.length) := by
  obtain ⟨u, rfl, hu⟩ := Image.exists_eq_scribble hw
  have hsetting := Image.setting_eq_of_content hu
  rw [← Image.scratch_eq_of_setting hsetting]
  apply (agree_makeFromScratch_written hc ht).mono
  · intro p w hw
    obtain ⟨rfl, rfl⟩ := hw
    exact ⟨by rw [Image.slots_eq_of_setting hsetting], .whole (u.newest t), rfl,
      Image.content_hold hu _⟩
  · intro e w hw
    exact ⟨hw.1, hw.2 ▸ hu⟩

/-- A copy of an object is added, and the pointer to the object is given back. -/
theorem agree_append_held (hc : c₁ ≤ c₂) (hv : v.Valid) {q : Place}
    (hw : w.content = (v.hold q).content) :
    Agree c₁ c₂ w (holding ⟨v.slots.length⟩ (scratchAppendObject ⟨v.slots.length⟩))
      (holding ⟨v.slots.length⟩ (scratchAppendObject ⟨v.slots.length⟩))
      (fun _ v' => v'.content = (v.scribble q.tree.encode).content)
      fun e v' => e.lacksMemory ∧ v'.content = v.content := by
  have hp := Image.deref_of_setting (Image.setting_eq_of_content hw) (v.deref_hold_self q)
  have hlt := Image.lt_length_of_content hw
  apply Agree.holding
  apply (agree_scratchAppendObject hc hp).mono
  · intro a u hu
    obtain ⟨-, rfl⟩ := hu
    have hscribble : (w.scribble q.tree.encode).content =
        ((v.scribble q.tree.encode).hold q).content := by
      injection hw with hsetting hstack hdirectory
      injection hsetting with hslots hscratch hinterrupted hnesting
      apply Image.content_eq _ hstack hdirectory
      have hscratch : w.scratch = v.scratch := hscratch
      simp only [Image.setting, Image.scribble, hslots, hscratch, hinterrupted, hnesting]
      rfl
    exact ⟨hlt, Image.content_release_hold (hv.scribble _) hscribble⟩
  · intro e u hu
    obtain ⟨he, rfl⟩ := hu
    exact ⟨hlt, he.lacksMemory, Image.content_release_hold hv hw⟩

theorem agree_place_result (h : Makes c₁ c₂ v w t made) (position : Nat) :
    Agree c₁ c₂ w (place position [] made) (place position [] made)
      (fun o v' => o = some ⟨v.slots.length⟩ ∧ ∃ q, q.tree = t ∧ v'.content = (v.hold q).content)
      fun e v' => e.lacksMemory ∧ v'.content = v.content := by
  apply Agree.readingAt _ (fun _ _ h => ⟨rfl, h.2⟩) fun _ _ h => h
  apply Agree.bind h
  intro p u hu
  obtain ⟨rfl, hq⟩ := hu
  exact Agree.pure ⟨rfl, hq⟩

theorem agree_place_child (hc : c₁ ≤ c₂) (hv : v.Valid) (h : Makes c₁ c₂ v w t made)
    (position mark : Nat) (marks : List Nat) :
    Agree c₁ c₂ w (place position (mark :: marks) made) (place position (mark :: marks) made)
      (fun o v' => o = none ∧ v'.content = (v.scribble t.encode).content)
      fun e v' => e.lacksMemory ∧ v'.content = v.content := by
  apply Agree.readingAt _ (fun _ _ h => ⟨rfl, h.2⟩) fun _ _ h => h
  apply Agree.bind h
  intro p u hu
  obtain ⟨rfl, q, rfl, hu⟩ := hu
  apply Agree.bind (agree_append_held hc hv hu)
  exact fun _ _ h => Agree.pure ⟨rfl, h⟩

/-- What a site at the end of the steps tells of the machine. -/
def Built (v : Image) : Site → Option Pointer → Image → Prop
  | .building forest, o, w => o = none ∧ w.content = (v.scribble (Site.content forest)).content
  | .finished t, o, w =>
    o = some ⟨v.slots.length⟩ ∧ ∃ q, q.tree = t ∧ w.content = (v.hold q).content

theorem agree_place (hc : c₁ ≤ c₂) (hv : v.Valid) {forest : List (List Tree)}
    (h : Makes c₁ c₂ (v.scribble (Site.content forest)) w t made) (position : Nat) :
    Agree c₁ c₂ w (place position (Site.starts v.scratch.length forest) made)
      (place position (Site.starts v.scratch.length forest) made) (Built v (.add t forest))
      fun e v' => e.lacksMemory ∧ ∃ extra, v'.content = (v.scribble extra).content := by
  cases forest with
  | nil =>
    rw [Site.content, Image.scribble_nil] at h
    refine (agree_place_result h position).mono (fun _ _ h => h) fun _ _ h => ⟨h.1, [], ?_⟩
    rw [h.2, Image.scribble_nil]
  | cons ts forest =>
    refine (agree_place_child hc (hv.scribble _) h position _ _).mono ?_ fun _ _ h => ⟨h.1, _, h.2⟩
    rintro _ w' ⟨rfl, hw'⟩
    refine ⟨rfl, ?_⟩
    rw [hw', Image.scribble_scribble]
    simp [Site.content]

/-- What the steps from a site on do. The scratchpad holds the open structures above what it held
before. -/
theorem agree_takeSteps (hc : c₁ ≤ c₂) (hv : v.Valid) {steps : List Step}
    {forest : List (List Tree)} {s : Site} (hs : (Site.building forest).takeAll steps = some s)
    (hw : w.content = (v.scribble (Site.content forest)).content) :
    Agree c₁ c₂ w (takeSteps steps (Site.starts v.scratch.length forest) none)
      (takeSteps steps (Site.starts v.scratch.length forest) none) (Built v s)
      fun e v' => e.lacksMemory ∧ ∃ extra, v'.content = (v.scribble extra).content := by
  induction steps generalizing w forest with
  | nil =>
    cases hs
    exact Agree.pure ⟨rfl, hw⟩
  | cons step steps ih =>
    have hplace : ∀ {t made forest} position,
        Makes c₁ c₂ (v.scribble (Site.content forest)) w t made →
        (Site.add t forest).takeAll steps = some s →
        Agree c₁ c₂ w
          (place position (Site.starts v.scratch.length forest) made >>=
            takeSteps steps (Site.starts v.scratch.length forest))
          (place position (Site.starts v.scratch.length forest) made >>=
            takeSteps steps (Site.starts v.scratch.length forest)) (Built v s)
          fun e v' => e.lacksMemory ∧ ∃ extra, v'.content = (v.scribble extra).content := by
      intro t made forest position hmade hs
      refine (agree_place hc hv hmade position).bind fun o w' hbuilt => ?_
      cases forest with
      | nil =>
        obtain ⟨rfl, rfl⟩ := Site.takeAll_finished hs
        exact Agree.pure hbuilt
      | cons ts forest =>
        obtain ⟨rfl, hw'⟩ := hbuilt
        have hs' : (Site.building ((ts ++ [t]) :: forest)).takeAll steps = some s := hs
        have := ih hs' hw'
        exact this
    cases step with
    | make r position =>
      cases hr : Tree.ofRecipe? r with
      | none => simp [Site.takeAll, Site.take, hr] at hs
      | some t =>
        obtain rfl := Tree.recipe_of_ofRecipe? hr
        refine hplace (t := t) position ?_ (by simpa [Site.takeAll, Site.take, hr] using hs)
        exact makes_make hc hw t
    | enter =>
      refine Agree.bind_yields (fun _ => yields_scratchMark) ?_
      rw [Image.scratch_eq_of_setting (Image.setting_eq_of_content hw)]
      have hs' : (Site.building ([] :: forest)).takeAll steps = some s := hs
      have := ih hs' (w := w) (by simpa [Site.content] using hw)
      simpa [Site.starts, Image.scribble] using this
    | wrap c position =>
      cases forest with
      | nil => cases hs
      | cons ts forest =>
        have hmark : v.scratch.length + (Site.content forest).length =
            (v.scribble (Site.content forest)).scratch.length := by simp [Image.scribble]
        have hw' : w.content =
            ((v.scribble (Site.content forest)).scribble (Tree.encodeAll ts)).content := by
          rw [hw, Image.scribble_scribble]
          rfl
        refine hplace (t := .composite c ts) position ?_ hs
        rw [hmark]
        exact makes_makeFromScratch hc hw' (Tree.encode_composite c ts)

/-- A reading is built, or there is no trace of it, and either memory was lacking or it has a
mistake. -/
theorem agree_build {α : Type} (hc : c₁ ≤ c₂) {r : Reading α} {s : Site}
    (hs : (Site.building []).takeAll r.steps = some s)
    (hfinished : ∀ a, r.result = .ok a → ∃ t, s = .finished t) :
    Agree c₁ c₂ v (build r) (build r)
      (fun x v' => r.result = .ok x.2 ∧ x.1 = ⟨v.slots.length⟩ ∧
        ∃ q, s = .finished q.tree ∧ v'.content = (v.hold q).content)
      fun e v' => v'.content = v.content ∧
        (e.lacksMemory ∨ ∃ mistake, r.result = .error mistake ∧ e = .error (.read mistake)) := by
  apply Agree.of_valid
  intro hv
  apply Agree.bind_yields (fun _ => yields_scratchMark)
  have hempty : v.content = (v.scribble (Site.content [])).content := by
    rw [Site.content, Image.scribble_nil]
  have hsteps : Agree c₁ c₂ v (takeSteps r.steps [] none) (takeSteps r.steps [] none) (Built v s)
      (fun e w => (∃ extra, w.content = (v.scribble extra).content) ∧
        (e.lacksMemory ∨ ∃ mistake, r.result = .error mistake ∧ e = .error (.read mistake))) :=
    (agree_takeSteps hc hv hs hempty).mono (fun _ _ h => h) fun _ _ h => ⟨h.2, .inl h.1⟩
  apply Agree.onFailure
  · apply Agree.bind hsteps
    intro o w hbuilt
    cases s with
    | building forest =>
      obtain ⟨rfl, hw⟩ := hbuilt
      cases hr : r.result with
      | ok a =>
        obtain ⟨t, ht⟩ := hfinished a hr
        cases ht
      | error e => exact Agree.fail ⟨⟨_, hw⟩, .inr ⟨e, rfl, rfl⟩⟩
    | finished t =>
      obtain ⟨rfl, q, rfl, hw⟩ := hbuilt
      cases hr : r.result with
      | ok a => exact Agree.pure ⟨rfl, rfl, q, rfl, hw⟩
      | error e =>
        apply Agree.bind_yields fun _ => yields_release (Image.lt_length_of_content hw)
        apply Agree.fail
        refine ⟨⟨[], ?_⟩, .inr ⟨e, rfl, rfl⟩⟩
        rw [Image.scribble_nil]
        exact Image.content_release_hold hv hw
  · intro e w hw
    obtain ⟨⟨extra, hw⟩, he⟩ := hw
    obtain ⟨w', hyields, hw'⟩ := exists_yields_scratchRelease hw
    exact ⟨w', hyields, hw', he⟩

theorem agree_read (hc : c₁ ≤ c₂) (script : Nat → Script) {s : Site}
    (hs : (Site.building []).takeAll (script (Machine.maxNesting - v.nesting)).steps = some s)
    (hfinished : (script (Machine.maxNesting - v.nesting)).result = .ok () → ∃ t, s = .finished t) :
    Agree c₁ c₂ v (do return (← build (script (← get).room)).1)
      (do return (← build (script (← get).room)).1)
      (fun p v' => (script (Machine.maxNesting - v.nesting)).result = .ok () ∧
        p = ⟨v.slots.length⟩ ∧ ∃ q, s = .finished q.tree ∧ v'.content = (v.hold q).content)
      fun e v' => v'.content = v.content ∧ (e.lacksMemory ∨ ∃ mistake,
        (script (Machine.maxNesting - v.nesting)).result = .error mistake ∧
          e = .error (.read mistake)) := by
  have hexec : ∀ c m, Machine.Represents m c v →
      exec (do return (← build (script (← get).room)).1) m =
        exec (do return (← build (script (Machine.maxNesting - v.nesting))).1) m := by
    rintro c m ⟨kept, free, h⟩
    rw [exec_bind_ok (exec_get m), Machine.room, h.nesting]
  apply Agree.after_exec (fun m hm => ⟨m, hexec _ m hm, hm⟩) (fun m hm => ⟨m, hexec _ m hm, hm⟩)
  apply Agree.bind (agree_build hc hs fun _ hr => hfinished hr)
  intro x w hx
  obtain ⟨hr, hp, hq⟩ := hx
  exact Agree.pure ⟨hr, hp, hq⟩

/-- A text is read as a program if it is derived for objects, and is in error otherwise. -/
theorem agree_readBody (hc : c₁ ≤ c₂) (source : String) :
    Agree c₁ c₂ v (readBody source) (readBody source)
      (fun p v' => p = ⟨v.slots.length⟩ ∧ ∃ q ts, q.tree = .composite .program ts ∧
        Writes source (Machine.maxNesting - v.nesting) ts ∧ v'.content = (v.hold q).content)
      fun e v' => v'.content = v.content ∧ (e.lacksMemory ∨ (∃ mistake, e = .error (.read mistake)) ∧
        ∀ ts, ¬Writes source (Machine.maxNesting - v.nesting) ts) := by
  obtain ⟨s, hs⟩ := Script.exists_takeAll_body (Machine.maxNesting - v.nesting) source
  have hwrites := Script.exists_finished_of_body hs
  apply (agree_read hc (Script.body · source) hs fun hr => (hwrites hr).imp' _ fun _ h => h.2).mono
  · intro p w hw
    obtain ⟨hr, hp, q, hq, hw⟩ := hw
    obtain ⟨ts, hts, hfinished⟩ := hwrites hr
    rw [hq, Site.finished.injEq] at hfinished
    exact ⟨hp, q, ts, hfinished, hts, hw⟩
  · intro e w hw
    obtain ⟨hw, he | ⟨mistake, hr, rfl⟩⟩ := hw
    · exact ⟨hw, .inl he⟩
    refine ⟨hw, .inr ⟨⟨mistake, rfl⟩, fun ts hts => ?_⟩⟩
    have hok := (Script.body_of_writes hts).1
    rw [hr] at hok
    cases hok

/-- A text that is derived for one object is read as that. -/
theorem agree_readObject_of_derives (hc : c₁ ≤ c₂) {source : String} {ws : List String}
    (hws : Token.words? source = some ws) (hderives : Derives ws (.object t))
    (hnesting : t.nesting ≤ Machine.maxNesting - v.nesting) :
    Makes c₁ c₂ v v t (readObject source) := by
  obtain ⟨hresult, hs⟩ := Script.object_of_derives hws hderives hnesting
  apply (agree_read hc (Script.object · source) hs fun _ => ⟨t, rfl⟩).mono
  · intro p w hw
    obtain ⟨-, hp, q, hq, hw⟩ := hw
    exact ⟨hp, q, (Site.finished.inj hq).symm, hw⟩
  · intro e w hw
    obtain ⟨hw, he | ⟨mistake, hr, -⟩⟩ := hw
    · exact ⟨he, hw⟩
    · rw [hresult] at hr
      cases hr

theorem gives_readObject (hc : c₁ ≤ c₂) (source : String) :
    Gives c₁ c₂ v (readObject source) (readObject source) := by
  obtain ⟨s, hs⟩ := Script.exists_takeAll_object (Machine.maxNesting - v.nesting) source
  apply (agree_read hc (Script.object · source) hs (Script.exists_finished_of_object hs)).mono
  · intro p w hw
    obtain ⟨-, hp, q, -, hw⟩ := hw
    exact ⟨hp, q, Image.setting_eq_of_content hw⟩
  · exact fun _ _ h => Image.setting_eq_of_content h.1

theorem supplies_readBody (hc : c₁ ≤ c₂) (source : String) :
    Supplies c₁ c₂ v (readBody source) (readBody source) := by
  apply (agree_readBody hc source).mono
  · intro p w hw
    obtain ⟨hp, q, ts, hq, hts, hw⟩ := hw
    refine ⟨hp, q, Image.setting_eq_of_content hw, fun hs => ?_⟩
    exact (hs.hold (hq ▸ hts.sound)).of_content hw
  · intro e w hw
    obtain ⟨hw, he | ⟨⟨mistake, rfl⟩, -⟩⟩ := hw
    · exact ⟨.of_content hw, .of_lacksMemory he⟩
    · exact ⟨.of_content hw, .of_isExpected rfl⟩

end Run
end RpnMachine
