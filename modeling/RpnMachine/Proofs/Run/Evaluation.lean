import RpnMachine.Eval.Evaluator
import RpnMachine.Proofs.Run.Building
import RpnMachine.Proofs.Run.Commands

/-! Evaluation does the same on two machines that hold the same, whatever it runs: every level of
nesting, every structure and every pass of a loop leaves the pointers and the scratchpad as they
were, and objects sound if they were. -/
namespace RpnMachine
namespace Run

variable {c c₁ c₂ : Nat} {v : Image} {p : Pointer} {q : Place}

/-- Both runs leave things in order on every object that there is a pointer to. -/
def Attuned (c₁ c₂ : Nat) (f₁ f₂ : Pointer → Run Unit) : Prop :=
  ∀ v p q, Image.deref v p = some q → Tame c₁ c₂ v (f₁ p) (f₂ p)

/-- Nothing changes, and the run goes on unless it is asked to stop. -/
theorem agree_checkInterrupt :
    Agree c₁ c₂ v checkInterrupt checkInterrupt (fun _ w => w = v)
      fun e w => e = .error .interrupted ∧ w = v := by
  have hexec : ∀ c m, Machine.Represents m c v → exec checkInterrupt m =
      exec (if v.interrupted then fail .interrupted else pure ()) m := by
    intro c m hm
    obtain ⟨kept, free, h⟩ := hm
    rw [checkInterrupt, exec_bind_ok (exec_get m), h.interrupted]
  apply Agree.after_exec (fun m hm => ⟨m, hexec _ m hm, hm⟩) (fun m hm => ⟨m, hexec _ m hm, hm⟩)
  split_ifs
  · exact Agree.fail ⟨rfl, rfl⟩
  · exact Agree.pure rfl

theorem reads_checkInterrupt : Reads c₁ c₂ v checkInterrupt fun _ => True := by
  apply agree_checkInterrupt.mono fun _ _ hw => ⟨hw, trivial⟩
  intro e w hw
  rw [hw.1]
  exact ⟨hw.2, rfl⟩

section

variable {f₁ f₂ : Pointer → Run Unit}

/-- Of the pointers on top of the slots, the first `n` are given back already. Those of the objects
that are evaluated are too at the end, and the rest stays. -/
theorem preserves_evaluateAll {I : Image → Prop} {E : Failure → Prop} (hI : Image.Lasting I)
    (hE : E (.error .interrupted)) {base : List (Option Place)} (hb : Trimmed base) (n : Nat)
    (qs rest : List Place) (hf : ∀ q ∈ qs, ∀ w p, I w → Image.deref w p = some q →
      Preserves I E c₁ c₂ w w.setting (f₁ p) (f₂ p))
    (hs : v.slots = pending base n (qs ++ rest)) (hv : I v) :
    Preserves I E c₁ c₂ v { v.setting with slots := pending base (n + qs.length) rest }
      (evaluateAll f₁ (Image.pointers (base.length + n) qs))
      (evaluateAll f₂ (Image.pointers (base.length + n) qs)) := by
  induction qs generalizing v n with
  | nil => exact Agree.pure ⟨congrArg (fun slots => { v.setting with slots }) hs, hv⟩
  | cons q qs ih =>
    obtain ⟨p, hp⟩ : ∃ p, p = Pointer.mk (base.length + n) := ⟨_, rfl⟩
    have hderef : v.deref p = some q := by simp [hp, Image.deref, hs, pending]
    have hturn : Preserves I E c₁ c₂ v v.setting (do checkInterrupt; f₁ p)
        (do checkInterrupt; f₂ p) := by
      have hcheck : Preserves I E c₁ c₂ v v.setting checkInterrupt checkInterrupt := by
        apply agree_checkInterrupt.mono
        · intro _ w hw
          exact ⟨by rw [hw], hw ▸ hv⟩
        · intro e w hw
          exact ⟨⟨by rw [hw.2], hw.2 ▸ hv⟩, hw.1 ▸ hE⟩
      apply hcheck.bind
      intro _ w hw hI
      exact hf q (by simp) w p hI (Image.deref_of_setting hw hderef)
    have hnext : ∀ w : Image, w.setting = v.setting ∧ I w → (w.release p).setting =
        { v.setting with slots := pending base (n + 1) (qs ++ rest) } ∧ I (w.release p) := by
      intro w hw
      refine ⟨?_, hI w p hw.2⟩
      rw [Image.setting_release, hw.1, ← vacate_pending hb n q, ← List.cons_append, ← hs, hp]
      rfl
    have hheld : Preserves I E c₁ c₂ v
        { v.setting with slots := pending base (n + 1) (qs ++ rest) }
        (holding p do checkInterrupt; f₁ p) (holding p do checkInterrupt; f₂ p) := by
      have hlt : ∀ w : Image, w.setting = v.setting → p.slot < w.slots.length := fun w hw =>
        Image.slot_lt_of_deref (Image.deref_of_setting hw hderef)
      apply Agree.holding
      exact Agree.mono hturn (fun _ w hw => ⟨hlt w hw.1, hnext w hw⟩)
        fun _ w hw => ⟨hlt w hw.1.1, hnext w hw.1, hw.2⟩
    have hlength : n + (q :: qs).length = n + 1 + qs.length := by
      rw [List.length_cons]
      omega
    have hset : ∀ w : Image, w.setting = { v.setting with slots := pending base (n + 1) (qs ++ rest) } →
        { w.setting with slots := pending base (n + 1 + qs.length) rest } =
          { v.setting with slots := pending base (n + 1 + qs.length) rest } := by
      intro w hw
      exact congrArg (fun s => { s with slots := pending base (n + 1 + qs.length) rest }) hw
    rw [Image.pointers_cons, Nat.add_assoc, hlength, ← hp]
    apply Agree.bind (Agree.onFailure hheld ?_) ?_
    · intro e w hw
      obtain ⟨hw, he⟩ := hw
      have hslots := congrArg Setting.slots hw.1
      refine ⟨_, fun _ => yields_releasePending hb (n + 1) qs rest hslots, ⟨?_, hI.releaseAll hw.2 _⟩, he⟩
      rw [Image.releaseAll_pending_append hb (n + 1) qs rest hslots]
      exact hset w hw.1
    · intro _ w hw
      have hrest := ih (n + 1) (fun r hr => hf r (List.mem_cons_of_mem q hr))
        (congrArg Setting.slots hw.1) hw.2
      rwa [hset w hw.1] at hrest

theorem preserves_sequence {I : Image → Prop} {E : Failure → Prop} (hI : Image.Lasting I)
    (hE : E (.error .interrupted)) (hp : v.deref p = some q) (hv : I (v.holdAll q.children))
    (hf : ∀ r ∈ q.children, ∀ w p, I w → Image.deref w p = some r →
      Preserves I E c₁ c₂ w w.setting (f₁ p) (f₂ p)) :
    Preserves I E c₁ c₂ v v.setting (sequence f₁ p) (sequence f₂ p) := by
  apply Agree.of_valid
  intro hvalid
  apply Agree.bind_yields fun _ => yields_children hp
  have hs : (v.holdAll q.children).slots = pending v.slots 0 (q.children ++ []) := by
    cases hq : q.children <;> simp [Image.holdAll, pending]
  exact preserves_evaluateAll hI hE hvalid.trimmed 0 q.children [] hf hs hv

theorem tame_sequence (hf : Attuned c₁ c₂ f₁ f₂) (hp : v.deref p = some q) :
    Tame c₁ c₂ v (sequence f₁ p) (sequence f₂ p) := by
  apply Tame.of_preserves
  apply preserves_sequence (Image.lasting_sound v.Sound) (.of_isExpected rfl) hp
  · exact fun hs => hs.holdAll_children hp
  · intro r _ w p' hw hp'
    exact (hf w p' r hp').preserves hw

theorem tame_test (hf : Attuned c₁ c₂ f₁ f₂) (hp : v.deref p = some q) :
    Tame c₁ c₂ v (test f₁ p) (test f₂ p) := by
  apply Tame.bind_yields fun _ => yields_depth
  apply (tame_sequence hf hp).bind
  intro _ w _
  apply Tame.bind_yields fun _ => yields_depth
  dsimp only
  split_ifs
  · exact .fail_bind rfl
  · apply Tame.acquiring supplies_pop
    intro q w' hw'
    exact .of_reads (reads_truth (Image.deref_of_setting hw' (w.deref_hold_self q)))

theorem tame_iterate {σ : Type} {pass₁ pass₂ : σ → Run (Option σ)}
    (hpass : ∀ s w, w.After v → Tame c₁ c₂ w (pass₁ s) (pass₂ s)) (n : Nat) (s : σ) :
    Tame c₁ c₂ v (iterate pass₁ n s) (iterate pass₂ n s) := by
  induction n generalizing v s with
  | zero => exact .throw (.of_isExpected rfl)
  | succ n ih =>
    apply Tame.reading reads_checkInterrupt
    intro _ _
    apply (hpass s v (.refl v)).bind
    intro next w hw
    cases next with
    | none => exact .pure ()
    | some s => exact ih (fun s u hu => hpass s u (hw.trans hu)) s

theorem tame_count (hf : Attuned c₁ c₂ f₁ f₂) (passes : Nat) (stepped : Bool)
    (hp : v.deref p = some q) :
    Tame c₁ c₂ v (count f₁ passes stepped p) (count f₂ passes stepped p) := by
  apply Tame.reading (reads_args 2)
  intro _ hn
  have hn₀ : 0 < v.stack.length := by omega
  apply Tame.reading (Reads.peeking hn₀ (reads_number (v.deref_hold_self _)))
  intro stop _
  apply Tame.reading (Reads.peeking hn (reads_number (v.deref_hold_self _)))
  intro start _
  apply Tame.bind (.of_sparing (exchanges_discard 2).sparing)
  intro _ w hw
  apply tame_iterate
  intro counter u hu
  apply (tame_sequence hf ((hw.trans hu).deref hp)).bind
  intro _ u' _
  dsimp only
  split_ifs
  · apply Tame.bind (.acquiring supplies_pop fun q w hw => ?_) fun _ _ _ => .pure _
    exact .of_reads (reads_number (Image.deref_of_setting hw (u'.deref_hold_self q)))
  · exact (Tame.pure _).bind fun _ _ _ => .pure _

theorem tame_control (hf : Attuned c₁ c₂ f₁ f₂) (passes : Nat) {k : Control}
    (hp : v.deref p = some q) (hk : q.tree.kind = .composite (.control k)) :
    Tame c₁ c₂ v (control f₁ passes k p) (control f₂ passes k p) := by
  have hlength : v.Sound → k.words.length = q.children.length + 1 := by
    intro hs
    rw [← List.length_map (f := Place.tree), Place.map_tree_children]
    exact (hs.of_deref hp).length_children hk
  have hall : ∀ p ∈ Image.pointers v.slots.length q.children,
      ∃ q', (v.holdAll q.children).deref p = some q' := by
    intro p hp
    obtain ⟨q', -, hq'⟩ := (v.refers_holdAll q.children).exists_deref hp
    exact ⟨q', hq'⟩
  have hclauses : (v.holdAll q.children).Sound →
      k.words.length = (Image.pointers v.slots.length q.children).length + 1 := by
    intro hs
    rw [hlength hs.of_holdAll, Image.pointers, List.length_map, List.length_range']
  apply Tame.children hp
  generalize Image.pointers v.slots.length q.children = clauses at hall hclauses ⊢
  generalize v.holdAll q.children = v at hall hclauses ⊢
  split
  · next condition yes =>
    obtain ⟨_, hcondition⟩ := hall condition (by simp)
    obtain ⟨_, hyes⟩ := hall yes (by simp)
    apply (tame_test hf hcondition).bind
    intro holds w hw
    split_ifs
    · exact tame_sequence hf (hw.deref hyes)
    · exact .pure ()
  · next condition yes no =>
    obtain ⟨_, hcondition⟩ := hall condition (by simp)
    obtain ⟨_, hyes⟩ := hall yes (by simp)
    obtain ⟨_, hno⟩ := hall no (by simp)
    apply (tame_test hf hcondition).bind
    intro holds w hw
    split_ifs
    · exact tame_sequence hf (hw.deref hyes)
    · exact tame_sequence hf (hw.deref hno)
  · next body condition =>
    obtain ⟨_, hcondition⟩ := hall condition (by simp)
    obtain ⟨_, hbody⟩ := hall body (by simp)
    apply tame_iterate
    intro _ w hw
    apply (tame_sequence hf (hw.deref hbody)).bind
    intro _ w' hw'
    exact (tame_test hf (hw'.deref (hw.deref hcondition))).bind fun _ _ _ => .pure _
  · next condition body =>
    obtain ⟨_, hcondition⟩ := hall condition (by simp)
    obtain ⟨_, hbody⟩ := hall body (by simp)
    apply tame_iterate
    intro _ w hw
    apply (tame_test hf (hw.deref hcondition)).bind
    intro holds w' hw'
    split_ifs
    · exact (tame_sequence hf (hw'.deref (hw.deref hbody))).bind fun _ _ _ => .pure _
    · exact .pure _
  · next body =>
    obtain ⟨_, hbody⟩ := hall body (by simp)
    exact tame_count hf passes false hbody
  · next body =>
    obtain ⟨_, hbody⟩ := hall body (by simp)
    exact tame_count hf passes true hbody
  · next hifThen hifThenElse hdoUntil hwhileRepeat hstartNext hstartStep =>
    -- Every structure has its own count, so the clauses are among the cases above.
    refine Tame.fail ⟨Failure.noConfusion, fun hs => ?_⟩
    exfalso
    have hcount : clauses.length = k.words.length - 1 := Nat.eq_sub_of_add_eq (hclauses hs).symm
    cases k with
    | ifThen =>
      obtain ⟨a, b, rfl⟩ := List.length_eq_two.mp hcount
      exact hifThen a b rfl rfl
    | ifThenElse =>
      obtain ⟨a, b, d, rfl⟩ := List.length_eq_three.mp hcount
      exact hifThenElse a b d rfl rfl
    | doUntil =>
      obtain ⟨a, b, rfl⟩ := List.length_eq_two.mp hcount
      exact hdoUntil a b rfl rfl
    | whileRepeat =>
      obtain ⟨a, b, rfl⟩ := List.length_eq_two.mp hcount
      exact hwhileRepeat a b rfl rfl
    | startNext =>
      obtain ⟨a, rfl⟩ := List.length_eq_one_iff.mp hcount
      exact hstartNext a rfl rfl
    | startStep =>
      obtain ⟨a, rfl⟩ := List.length_eq_one_iff.mp hcount
      exact hstartStep a rfl rfl

end

end Run

/-- Commands leave things in order if what EVAL does with an object does. -/
def Repertoire.Attuned (c₁ c₂ : Nat) (commands₁ commands₂ : Repertoire) : Prop :=
  ∀ execute₁ execute₂, Run.Attuned c₁ c₂ execute₁ execute₂ → ∀ v c,
    Run.Tame c₁ c₂ v (commands₁ execute₁ c) (commands₂ execute₂ c)

theorem Repertoire.attuned_run (c : Nat) : Repertoire.Attuned c c Command.run Command.run :=
  fun _ _ h _ k => k.tame_run le_rfl h fun _ => rfl

structure Evaluator.Attuned (c₁ c₂ : Nat) (e₁ e₂ : Evaluator) : Prop where
  evaluate : Run.Attuned c₁ c₂ e₁.evaluate e₂.evaluate
  execute : Run.Attuned c₁ c₂ e₁.execute e₂.execute

namespace Evaluator

open Run

variable {c₁ c₂ : Nat} {v : Image} {e₁ e₂ : Evaluator} {commands₁ commands₂ : Repertoire}
  {p : Pointer} {q : Place}

theorem attuned_stuck : stuck.Attuned c₁ c₂ stuck :=
  ⟨fun _ _ _ _ => .fail (.of_isExpected rfl), fun _ _ _ _ => .fail (.of_isExpected rfl)⟩

theorem tame_push (hc : c₁ ≤ c₂) (hp : v.deref p = some q) : Tame c₁ c₂ v (push p) (push p) :=
  .of_sparing (exchanges_push hc hp).sparing

theorem Attuned.evaluateName (h : e₁.Attuned c₁ c₂ e₂) (hc : c₁ ≤ c₂) (hp : v.deref p = some q)
    (name : String) : Tame c₁ c₂ v (evaluateName e₁ p name) (e₂.evaluateName p name) := by
  apply Tame.lookup name (tame_push hc hp)
  intro hv q hq
  apply Tame.holding hv rfl fun hs => hs.hold (hq hs)
  have hobject := v.deref_hold_self q
  apply Tame.bind_yields fun _ => yields_kind hobject
  split_ifs
  · exact h.execute _ _ q hobject
  · exact h.evaluate _ _ q hobject

theorem Attuned.evaluateNext (h : e₁.Attuned c₁ c₂ e₂) (hc : c₁ ≤ c₂)
    (hcommands : Repertoire.Attuned c₁ c₂ commands₁ commands₂) (passes : Nat) :
    Run.Attuned c₁ c₂ (evaluateNext commands₁ passes e₁) (evaluateNext commands₂ passes e₂) := by
  intro v p q hp
  apply Tame.bind_yields fun _ => yields_kind hp
  split
  · next hk => exact tame_control h.evaluate passes hp hk
  · exact hcommands _ _ h.execute v _
  · next hk =>
    obtain ⟨name, hname⟩ := Tree.exists_value_of_symbol hk
    apply Tame.bind_yields fun _ => yields_value hp
    rw [hname]
    exact h.evaluateName hc hp name
  · exact tame_push hc hp

theorem Attuned.executeNext (h : e₁.Attuned c₁ c₂ e₂) (hc : c₁ ≤ c₂)
    (hcommands : Repertoire.Attuned c₁ c₂ commands₁ commands₂) (passes : Nat) :
    Run.Attuned c₁ c₂ (executeNext commands₁ passes e₁) (executeNext commands₂ passes e₂) := by
  intro v p q hp
  apply Tame.bind_yields fun _ => yields_kind hp
  split
  · next hk =>
    apply Tame.children hp
    cases hq : q.children with
    | nil =>
      refine Tame.fail ⟨Failure.noConfusion, fun hs => ?_⟩
      refine absurd ?_ ((hs.of_holdAll.of_deref hp).children_ne_nil hk)
      rw [← Place.map_tree_children, hq, List.map_nil]
    | cons r rs =>
      rw [Image.pointers_cons]
      exact h.evaluate _ _ r (v.deref_holdAll_getElem (r :: rs) (i := 0) (by simp))
  · exact tame_sequence h.evaluate hp
  · exact tame_sequence h.evaluate hp
  · exact h.evaluateNext hc hcommands passes v p q hp

theorem Attuned.next (h : e₁.Attuned c₁ c₂ e₂) (hc : c₁ ≤ c₂)
    (hcommands : Repertoire.Attuned c₁ c₂ commands₁ commands₂) (passes : Nat) :
    (e₁.next commands₁ passes).Attuned c₁ c₂ (e₂.next commands₂ passes) :=
  ⟨h.evaluateNext hc hcommands passes, h.executeNext hc hcommands passes⟩

theorem attuned_ofRoom (hc : c₁ ≤ c₂) (hcommands : Repertoire.Attuned c₁ c₂ commands₁ commands₂)
    (passes n : Nat) : (ofRoom commands₁ passes n).Attuned c₁ c₂ (ofRoom commands₂ passes n) := by
  induction n with
  | zero => exact attuned_stuck
  | succ n ih => exact ih.next hc hcommands passes

theorem attuned_ofRoom_run (c passes n : Nat) :
    (ofRoom Command.run passes n).Attuned c c (ofRoom Command.run passes n) :=
  attuned_ofRoom le_rfl (Repertoire.attuned_run c) passes n

end Evaluator

namespace Run

variable {c₁ c₂ : Nat} {v : Image} {p : Pointer} {q : Place} {commands₁ commands₂ : Repertoire}

/-- What is run with the evaluator for the levels that are left. -/
theorem Tame.evaluator {α : Type} {passes : Nat} {f₁ f₂ : Evaluator → Run α}
    (h : ∀ n, Tame c₁ c₂ v (f₁ (.ofRoom commands₁ passes n)) (f₂ (.ofRoom commands₂ passes n))) :
    Tame c₁ c₂ v (Run.evaluator passes commands₁ >>= f₁) (Run.evaluator passes commands₂ >>= f₂) := by
  have hexec : ∀ c m (commands : Repertoire) (f : Evaluator → Run α), Machine.Represents m c v →
      exec (Run.evaluator passes commands >>= f) m =
        exec (f (.ofRoom commands passes (Machine.maxNesting - v.nesting))) m := by
    intro c m commands f hm
    obtain ⟨kept, free, hl⟩ := hm
    have he : exec (Run.evaluator passes commands) m =
        (.ok (.ofRoom commands passes (Machine.maxNesting - v.nesting)), m) := by
      rw [Run.evaluator, exec_bind_ok (exec_get m), Machine.room, hl.nesting]
      rfl
    exact exec_bind_ok he f
  exact Agree.after_exec (fun m hm => ⟨m, hexec _ m _ _ hm, hm⟩)
    (fun m hm => ⟨m, hexec _ m _ _ hm, hm⟩) (h _)

theorem tame_evaluate (c passes : Nat) (hp : v.deref p = some q) :
    Tame c c v (evaluate passes p) (evaluate passes p) :=
  .evaluator fun n => (Evaluator.attuned_ofRoom_run c passes n).evaluate v p q hp

theorem tame_execute (c passes : Nat) (hp : v.deref p = some q) :
    Tame c c v (execute passes p) (execute passes p) :=
  .evaluator fun n => (Evaluator.attuned_ofRoom_run c passes n).execute v p q hp

theorem steady_command (c passes : Nat) (k : Kind) :
    Steady c c v (command passes k) (command passes k) := by
  cases k with
  | command k =>
    apply Tame.steady
    apply Tame.evaluator
    intro n
    exact k.tame_run le_rfl (Evaluator.attuned_ofRoom_run c passes n).execute fun _ => rfl
  | _ => exact .fail _

theorem tame_line (hc : c₁ ≤ c₂) (hcommands : Repertoire.Attuned c₁ c₂ commands₁ commands₂)
    (passes : Nat) (source : String) :
    Tame c₁ c₂ v (line passes source commands₁) (line passes source commands₂) := by
  apply Tame.acquiring (supplies_readBody hc source)
  intro q w hw
  apply Tame.evaluator
  intro n
  exact tame_sequence (Evaluator.attuned_ofRoom hc hcommands passes n).evaluate
    (Image.deref_of_setting hw (v.deref_hold_self q))

end Run
end RpnMachine
