import RpnMachine.Proofs.Run.Commands.Shuffling

/-! Commands for the directory. -/
namespace RpnMachine

namespace Run

variable {c₁ c₂ : Nat} {v : Image} {p : Pointer} {q : Place}

/-- An object gets a name, unless the name is empty. -/
theorem agree_store_named (hc : c₁ ≤ c₂) {name : String} (hname : v.Sound → name ≠ "")
    (hp : v.deref p = some q) :
    Agree c₁ c₂ v (store name p) (store name p)
      (fun _ w => w = (v.forget name).enter name q.tree) (Spares v) := by
  by_cases hempty : name = ""
  · have hfail : ∀ c, Yields c v (store name p) (.error (.error .invalidName)) v := by
      intro c m hm
      refine ⟨m, ?_, hm⟩
      rw [store, if_pos (by simpa using hempty)]
      rfl
    exact Agree.of_yields_error (hfail _) (hfail _)
      ⟨rfl, Failure.noConfusion, fun hs => absurd hempty (hname hs)⟩
  · apply (agree_store hc hempty hp).mono
    · exact fun _ _ h => h.2
    · intro e w hw
      exact .of_lacksMemory hw.1.lacksMemory (by rw [hw.2])

theorem agree_sto (hc : c₁ ≤ c₂) :
    Agree c₁ c₂ v sto sto (fun _ w => ∃ (hn : 1 < v.stack.length) (e : Entry),
      e.object.tree = v.stack[1].tree ∧ w.content = { v.content with
        stack := v.stack.drop 2, directory := v.directory.filter (·.name ≠ e.name) ++ [e] })
      (Spares v) := by
  apply Reads.sparing (reads_args 2)
  intro _ hn
  have hn₀ : 0 < v.stack.length := by omega
  apply Reads.sparing (Reads.peeking hn₀ (reads_nameOf (v.deref_hold_self _)))
  intro name hname
  apply Agree.of_valid
  intro hv
  have hstore : Agree c₁ c₂ v (acquiring (peek 1) (store name)) (acquiring (peek 1) (store name))
      (fun _ w => ∃ e : Entry, e.name = name ∧ e.object.tree = v.stack[1].tree ∧ w.content =
        { v.content with directory := v.directory.filter (·.name ≠ name) ++ [e] }) (Spares v) := by
    apply Agree.bind_yields fun _ => yields_peek hn
    apply Agree.holding
    have hsound : (v.hold v.stack[1]).Sound → name ≠ "" := fun hs =>
      hname (hs.stack _ (List.getElem_mem hn₀))
    apply (agree_store_named hc hsound (v.deref_hold_self _)).mono
    · intro _ w hw
      refine ⟨v.lt_length_slots (q := v.stack[1]) (by rw [hw]; rfl),
        (v.forget name).newEntry name v.stack[1].tree, rfl, rfl, ?_⟩
      rw [hw]
      exact Image.content_eq (Image.release_hold hv v.stack[1] rfl) rfl rfl
    · intro e w hw
      refine ⟨Image.lt_length_of_content hw.1, Image.content_release_hold hv hw.1,
      hw.2.mono fun hs => ?_⟩
      exact hs.hold (hs.stack _ (List.getElem_mem hn))
  apply Agree.bind hstore
  intro _ w hw
  obtain ⟨e, rfl, htree, hw⟩ := hw
  injection hw with hsetting hstack hdirectory
  have hle : 2 ≤ w.stack.length := by
    rw [hstack]
    exact hn
  apply Agree.of_yields (yields_discard hle) (yields_discard hle)
  exact ⟨hn, e, htree, Image.content_eq hsetting (congrArg (List.drop 2) hstack) hdirectory⟩

theorem exchanges_rcl : Exchanges c₁ c₂ v rcl 1 fun new =>
    ∃ e ∈ v.directory, ∃ q : Place, q.tree = e.object.tree ∧ new = [q] := by
  apply Exchanges.reading (reads_args 1)
  intro _ hn
  apply Exchanges.reading (Reads.peeking hn (reads_nameOf (v.deref_hold_self _)))
  intro name _
  rcases v.named_or_not name with habsent | ⟨before, e, after, hs, rfl⟩
  · apply Exchanges.bind_yields fun _ => yields_lookup_none habsent
    exact Agree.fail ⟨rfl, .of_isExpected rfl⟩
  · apply Agree.of_valid
    intro hv
    apply Agree.bind_yields fun _ => yields_lookup hs
    have hput : Exchanges c₁ c₂ (v.hold (.whole e.object)) (put 0 ⟨v.slots.length⟩) 1
        fun new => ∃ e ∈ v.directory, ∃ q : Place, q.tree = e.object.tree ∧ new = [q] := by
      apply (exchanges_put (v := v.hold _) hn (v.deref_hold_self _)).mono
      intro new hnew
      exact ⟨e, by simp [hs], .whole e.object, rfl, hnew⟩
    apply hput.holding hv
    intro hsound
    exact hsound.directory e (by simp [hs])

theorem agree_purgeName (hc : c₁ ≤ c₂) :
    Agree c₁ c₂ v purgeName purgeName (fun _ w => 0 < v.stack.length ∧ ∃ name, w.content =
      { v.content with stack := v.stack.drop 1, directory := v.directory.filter (·.name ≠ name) })
      (Spares v) := by
  apply Reads.sparing (reads_args 1)
  intro _ hn
  apply Reads.sparing (Reads.peeking hn (reads_nameOf (v.deref_hold_self _)))
  intro name _
  apply Agree.bind ((agree_purge hc name).mono (fun _ _ h => h) ?_)
  · intro found w hw
    obtain ⟨hfound, rfl⟩ := hw
    cases found with
    | true =>
      have hyields := fun c => yields_discard (c := c) (v := v.forget name) hn
      exact Agree.of_yields (hyields _) (hyields _) ⟨hn, name, rfl⟩
    | false =>
      -- What is not there is not removed either.
      have hfilter : v.directory.filter (·.name ≠ name) = v.directory := by
        rw [List.filter_eq_self]
        intro e he
        simpa using List.any_eq_false.mp hfound.symm e he
      refine Agree.fail ⟨?_, .of_isExpected rfl⟩
      exact congrArg (Content.mk v.setting v.stack) hfilter
  · intro e w hw
    exact .of_lacksMemory hw.1 (by rw [hw.2])

end Run

end RpnMachine
