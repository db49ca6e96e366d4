import RpnMachine.Proofs.Run.Commands.Results
import RpnMachine.Proofs.Run.Rendering

/-! Commands that make a number or a text of the object on top. -/
namespace RpnMachine

namespace Run

variable {c₁ c₂ : Nat} {v : Image}

theorem exchanges_measure (hc : c₁ ≤ c₂) : Exchanges c₁ c₂ v measure 1 LoneAtom := by
  apply Exchanges.reading (reads_args 1)
  intro _ hn
  have hput : ∀ n : Nat, Exchanges c₁ c₂ (v.hold v.stack[0]) (making (.ofNat n) (put 0)) 1
      LoneAtom := by
    intro n
    apply exchanges_making (t := .integer false n.toUInt64) hc trivial
    exact exchanges_put (v := (v.hold v.stack[0]).make _) hn
      (((v.hold v.stack[0]).add _).deref_hold_self _)
  apply Exchanges.peeking hn
  apply Exchanges.bind_yields fun _ => yields_value (v.deref_hold_self _)
  dsimp only
  split
  · exact hput _
  · exact hput _
  · exact Exchanges.fail_bind rfl

/-- The text of an object is made while a pointer to the object is held, so it has the slot after
that one. -/
theorem agree_peek_toText (hc : c₁ ≤ c₂) (hn : 0 < v.stack.length) :
    Agree c₁ c₂ v (acquiring (peek 0) toText) (acquiring (peek 0) toText)
      (fun p w => p = ⟨v.slots.length + 1⟩ ∧ ∃ q : Place,
        q.tree = .text (v.stack[0].tree.rendering false) ∧ w.content =
          { v.content with setting := { v.setting with slots := pending v.slots 1 [q] } })
      fun e w => w.content = v.content ∧
        (e.lacksMemory ∨ ¬v.stack[0].tree.Drawable ∧ e.blamesClauses) := by
  apply Agree.of_valid
  intro hv
  apply Agree.bind_yields fun _ => yields_peek hn
  apply Agree.holding
  apply (agree_toText hc (v.deref_hold_self _)).mono
  · intro p w hw
    obtain ⟨rfl, rfl⟩ := hw
    obtain ⟨q, hq⟩ : ∃ q, q = Place.whole ((v.hold v.stack[0]).newest
        (.text (v.stack[0].tree.rendering false))) := ⟨_, rfl⟩
    have hvacate : vacate (v.slots ++ [some v.stack[0]] ++ [some q]) v.slots.length =
        pending v.slots 1 [q] := by
      simpa [pending] using vacate_pending hv.trimmed 0 v.stack[0] [q]
    refine ⟨by simp [Image.make, Image.add, Image.hold], by simp [Image.hold], q, hq ▸ rfl, ?_⟩
    rw [← hvacate, hq]
    rfl
  · intro e w hw
    obtain ⟨he, rfl⟩ := hw
    exact ⟨v.lt_length_slots rfl, by rw [Image.release_hold_self hv], he⟩

/-- The text of the top object takes its place. Only for lack of memory there is none, if the object
can be drawn. -/
theorem agree_describe (hc : c₁ ≤ c₂) (hn : 0 < v.stack.length) :
    Agree c₁ c₂ v describe describe (fun _ w => ∃ q : Place,
        q.tree = .text (v.stack[0].tree.rendering false) ∧ v.Replaces 1 [q] w)
      fun e w => w.content = v.content ∧
        (e.lacksMemory ∨ ¬v.stack[0].tree.Drawable ∧ e.blamesClauses) := by
  apply Agree.bind_yields fun _ => yields_args hn
  apply Agree.of_valid
  intro hv
  apply Agree.bind (agree_peek_toText hc hn)
  intro p w hw
  obtain ⟨rfl, q, hq, hw⟩ := hw
  injection hw with hsetting hstack hdirectory
  have hslots : w.slots = pending v.slots 1 [q] := congrArg Setting.slots hsetting
  have hp : w.deref ⟨v.slots.length + 1⟩ = some q := by
    simp [Image.deref, hslots, pending]
  have hput : ∀ c, Yields c w (holding ⟨v.slots.length + 1⟩ (put 0 ⟨v.slots.length + 1⟩)) (.ok ())
      (Image.release { w with stack := w.stack.set 0 q } ⟨v.slots.length + 1⟩) := fun c =>
    (yields_put (hstack ▸ hn) hp).holding (Image.slot_lt_of_deref hp)
  apply Agree.of_yields (hput _) (hput _)
  refine ⟨q, hq, hn, Image.content_eq ?_ ?_ hdirectory, fun _ => ?_⟩
  · have hvacate : vacate w.slots (v.slots.length + 1) = v.slots := by
      rw [hslots]
      exact vacate_pending hv.trimmed 1 q []
    have hset : (Image.release { w with stack := w.stack.set 0 q } ⟨v.slots.length + 1⟩).setting =
        { w.setting with slots := vacate w.slots (v.slots.length + 1) } := rfl
    rw [hset, hvacate, hsetting]
    rfl
  · exact (congrArg (List.set · 0 q) hstack).trans (drop_set_self hn q)
  · have hatom : q.tree.IsAtom := hq ▸ trivial
    simpa using hatom.sound

theorem exchanges_describe (hc : c₁ ≤ c₂) : Exchanges c₁ c₂ v describe 1 LoneAtom := by
  by_cases hn : 0 < v.stack.length
  · apply (agree_describe hc hn).mono
    · intro _ w hw
      obtain ⟨q, hq, hreplaces⟩ := hw
      exact ⟨[q], ⟨q, rfl, hq ▸ trivial⟩, hreplaces⟩
    · intro e w hw
      rcases hw with ⟨hw, hlacks | ⟨hnot, hblames⟩⟩
      · exact .of_lacksMemory hlacks hw
      · refine ⟨hw, Failure.ne_corrupt_of_blamesClauses hblames, fun hs => absurd ?_ hnot⟩
        exact (hs.stack _ (List.getElem_mem hn)).complete.drawable
  · exact Agree.bind_yields_error (fun _ => yields_args_error hn) ⟨rfl, .of_isExpected rfl⟩

end Run

end RpnMachine
