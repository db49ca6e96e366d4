import RpnMachine.Proofs.Run.Commands.Shuffling

/-! Commands that take lists apart and put them together. -/
namespace RpnMachine

namespace Run

variable {c₁ c₂ : Nat} {v : Image} {q : Place}

/-- Objects are pushed, or those before one that fails are removed again. -/
theorem agree_pushAll (hc : c₁ ≤ c₂) {ps : List Pointer} {qs : List Place} (hr : v.Refers ps qs)
    {pushed : Nat} (hn : pushed ≤ v.stack.length) :
    Agree c₁ c₂ v (pushAll pushed ps) (pushAll pushed ps)
      (fun _ v' => v' = { v with stack := qs.reverse ++ v.stack })
      fun e v' => e.lacksMemory ∧ v' = { v with stack := v.stack.drop pushed } := by
  induction ps generalizing v pushed qs with
  | nil =>
    cases hr
    exact Agree.pure rfl
  | cons p ps ih =>
    cases hr with
    | @cons _ q _ qs hp hr =>
      apply Agree.bind (agree_push_or_discard hc hp hn)
      intro _ w hw
      subst hw
      have hrest := ih (v := { v with stack := q :: v.stack }) hr (Nat.succ_le_succ hn)
      apply hrest.mono
      · intro _ u hu
        rw [hu, List.reverse_cons, List.append_assoc]
        rfl
      · intro e u hu
        exact ⟨hu.1, hu.2⟩

/-- Objects above another one take its place. -/
theorem yields_roll_discard {new rest : List Place} (hs : v.stack = new ++ q :: rest) (c : Nat) :
    Yields c v (do roll (new.length + 1); discard 1) (.ok ()) { v with stack := new ++ rest } := by
  intro m hm
  have hn : new.length < v.stack.length := by simp [hs]
  obtain ⟨m₁, he₁, hm₁⟩ := yields_roll hn m hm
  have hstack : v.stack[new.length] :: v.stack.take new.length ++ v.stack.drop (new.length + 1) =
      q :: (new ++ rest) := by
    simp [hs]
  rw [hstack] at hm₁
  have hle : 1 ≤ ({ v with stack := q :: (new ++ rest) } : Image).stack.length := by simp
  obtain ⟨m₂, he₂, hm₂⟩ := yields_discard hle m₁ hm₁
  exact ⟨m₂, (exec_bind_ok he₁ _).trans he₂, hm₂⟩

theorem exchanges_unpack (hc : c₁ ≤ c₂) {ps : List Pointer} {qs : List Place} {n : Nat}
    (hr : v.Refers ps qs) (hlength : ps.length = n + 1) (hn : 0 < v.stack.length) :
    Exchanges c₁ c₂ v (do pushAll 0 ps; roll (n + 2); discard 1) 1 (· = qs.reverse) := by
  have hs : v.stack = v.stack[0] :: v.stack.drop 1 := (List.getElem_cons_drop hn).symm
  apply Agree.bind ((agree_pushAll hc hr (Nat.zero_le v.stack.length)).mono (fun _ _ h => h) ?_)
  · intro _ w hw
    have hstack : w.stack = qs.reverse ++ v.stack[0] :: v.stack.drop 1 := by rw [hw, ← hs]
    have hyields := yields_roll_discard hstack
    rw [List.length_reverse, ← hr.length_eq, hlength] at hyields
    apply Agree.of_yields (hyields _) (hyields _)
    refine ⟨_, rfl, hn, by rw [hw]; rfl, fun hsound q hq => ?_⟩
    obtain ⟨p, hp⟩ := Image.Refers.exists_deref_of_mem hr (List.mem_reverse.mp hq)
    exact hsound.of_deref hp
  · intro e w hw
    exact .of_lacksMemory hw.1 (by rw [hw.2]; rfl)

theorem exchanges_fromList (hc : c₁ ≤ c₂) :
    Exchanges c₁ c₂ v fromList 1 fun new => ∃ hn : 0 < v.stack.length, ∃ count : Place,
      v.stack[0].tree.kind = .composite .list ∧
      count.tree = .integer false v.stack[0].tree.children.length.toUInt64 ∧
      new = count :: v.stack[0].children.reverse := by
  apply Exchanges.reading (reads_args 1)
  intro _ hn
  apply Exchanges.peeking hn
  apply Exchanges.bind_yields fun _ => yields_kind (v.deref_hold_self _)
  dsimp only
  split_ifs with hkind
  · exact Exchanges.fail_bind rfl
  · apply Exchanges.children (v.deref_hold_self v.stack[0])
    obtain ⟨w, hw⟩ : ∃ w, w = (v.hold v.stack[0]).holdAll v.stack[0].children := ⟨_, rfl⟩
    obtain ⟨ps, hps⟩ : ∃ ps, ps =
        Image.pointers (v.hold v.stack[0]).slots.length v.stack[0].children := ⟨_, rfl⟩
    have hr : w.Refers ps v.stack[0].children := by
      rw [hw, hps]
      exact (v.hold v.stack[0]).refers_holdAll _
    have hstack : w.stack = v.stack := by rw [hw]; rfl
    rw [← hw, ← hps]
    obtain ⟨t, ht⟩ : ∃ t, t = Tree.integer false ps.length.toUInt64 := ⟨_, rfl⟩
    have hatom : t.IsAtom := ht ▸ trivial
    apply Exchanges.making (t := .integer false ps.length.toUInt64) hc (ht ▸ hatom.sound)
    rw [← ht]
    have hrefers : (w.make t).Refers (ps ++ [⟨w.slots.length⟩])
        (v.stack[0].children ++ [.whole (w.newest t)]) :=
      Image.Refers.hold (v := w.add t) (hr.of_setting rfl) _
    have hcount : ps.length = v.stack[0].tree.children.length :=
      hr.length_eq.trans (Place.length_children _)
    apply (exchanges_unpack hc hrefers (by simp) (hstack ▸ hn)).mono
    intro new hnew
    refine ⟨hn, .whole (w.newest t), not_not.mp hkind, by rw [← hcount]; exact ht, ?_⟩
    rw [hnew, List.reverse_append]
    rfl

theorem agree_copyLevel (hc : c₁ ≤ c₂) {level : Nat} (hl : level < v.stack.length) :
    Agree c₁ c₂ v (acquiring (peek level) scratchAppendObject)
      (acquiring (peek level) scratchAppendObject)
      (fun _ w => w = v.scribble v.stack[level].tree.encode) fun e w => e.lacksMemory ∧ w = v := by
  apply Agree.of_valid
  intro hv
  apply Agree.bind_yields fun _ => yields_peek hl
  apply Agree.holding
  apply (agree_scratchAppendObject hc (v.deref_hold_self _)).mono
  · intro _ w hw
    rw [hw.2]
    exact ⟨v.lt_length_slots rfl, Image.releaseAll_scribble hv [v.stack[level]] _⟩
  · intro e w hw
    rw [hw.2]
    exact ⟨v.lt_length_slots rfl, hw.1.lacksMemory, Image.release_hold_self hv _⟩

theorem agree_copyLevels (hc : c₁ ≤ c₂) {n : Nat} (hn : n < v.stack.length) :
    Agree c₁ c₂ v (copyLevels n) (copyLevels n)
      (fun _ w => w = v.scribble (Tree.encodeAll (v.below n)))
      fun e w => e.lacksMemory ∧ ∃ xs, w = v.scribble xs := by
  induction n generalizing v with
  | zero => exact Agree.pure (by simp [Image.below])
  | succ n ih =>
    apply Agree.bind ((agree_copyLevel hc hn).mono (fun _ _ h => h) ?_)
    · intro _ w hw
      subst hw
      apply (ih (v := v.scribble v.stack[n + 1].tree.encode) (Nat.lt_of_succ_lt hn)).mono
      · intro _ w hw
        rw [hw, Image.scribble_scribble, Image.below_succ hn, Tree.encodeAll_cons]
        rfl
      · intro e w hw
        obtain ⟨he, xs, hw⟩ := hw
        exact ⟨he, _, hw.trans (Image.scribble_scribble _ _ _)⟩
    · intro e w hw
      exact ⟨hw.1, [], hw.2.trans v.scribble_nil.symm⟩

theorem agree_toList (hc : c₁ ≤ c₂) :
    Agree c₁ c₂ v toList toList (fun _ w => ∃ (n : Nat) (q : Place), v.top? = some (.integer n) ∧
      q.tree = .composite .list (v.below n) ∧ v.Replaces (n + 1) [q] w) (Spares v) := by
  apply Reads.sparing (reads_args 1)
  intro _ hpos
  apply Reads.sparing (Reads.peeking hpos (reads_natural (v.deref_hold_self _)))
  intro n hvalue
  apply Reads.sparing (reads_argsBelow n)
  intro _ hn
  apply Agree.of_valid
  intro hv
  apply Agree.bind_yields fun _ => yields_scratchMark
  have hcopy : Agree c₁ c₂ v (onFailure (scratchRelease v.scratch.length) (copyLevels n))
      (onFailure (scratchRelease v.scratch.length) (copyLevels n))
      (fun _ w => w = v.scribble (Tree.encodeAll (v.below n))) (Spares v) := by
    apply Agree.onFailure (agree_copyLevels hc hn)
    intro e w hw
    obtain ⟨he, xs, rfl⟩ := hw
    exact ⟨v, fun c => yields_scratchRelease_scribble c xs, .of_lacksMemory he rfl⟩
  apply Agree.bind hcopy
  intro _ w hw
  subst hw
  obtain ⟨t, ht⟩ : ∃ t, t = Tree.composite .list (v.below n) := ⟨_, rfl⟩
  have hencode : t.encode =
      Encoding.mark (.composite .list) ++ Encoding.sized (Tree.encodeAll (v.below n)) := by
    rw [ht]
    exact Tree.encode_composite _ _
  have hsound : v.Sound → t.Sound := by
    intro hs
    rw [ht]
    apply Tree.sound_list
    intro s hmem
    obtain ⟨q, hq, rfl⟩ := List.mem_map.mp hmem
    exact hs.stack q (List.mem_of_mem_drop (List.mem_of_mem_take (List.mem_reverse.mp hq)))
  apply Agree.bind ((agree_makeFromScratch_written hc hencode).mono (fun _ _ h => h) ?_)
  · intro p w hw
    obtain ⟨rfl, rfl⟩ := hw
    have hreplace : Exchanges c₁ c₂ (v.make t) (replace (n + 1) ⟨v.slots.length⟩) (n + 1)
        (· = [.whole (v.newest t)]) :=
      exchanges_replace (v := v.make t) hn ((v.add t).deref_hold_self _)
    apply (hreplace.made hv hsound).mono
    · intro _ w hw
      obtain ⟨_, rfl, hreplaces⟩ := hw
      exact ⟨n, _, (Image.top?_eq hpos).trans (congrArg some hvalue), ht, hreplaces⟩
    · exact fun _ _ h => h
  · intro e w hw
    exact .of_lacksMemory hw.1 (by rw [hw.2])

end Run

end RpnMachine
