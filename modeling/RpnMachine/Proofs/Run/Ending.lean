import RpnMachine.Proofs.Run.Action
import RpnMachine.Proofs.Run.Watched

/-! Runs on objects without a loop. What they do on their own comes to an end, and no command makes a
loop out of other objects. -/
namespace RpnMachine

def Control.isLoop : Control → Bool
  | ifThen | ifThenElse => false
  | doUntil | whileRepeat | startNext | startStep => true

def Kind.isLoop : Kind → Bool
  | composite (.control c) => c.isLoop
  | _ => false

namespace Tree

variable {t t' s : Tree}

/-- The object is no loop, and there is none in it. -/
def Loopless (t : Tree) : Prop := ∀ offset s, t.At offset s → s.kind.isLoop = false

theorem Loopless.of_mem_children (h : t.Loopless) (hs : s ∈ t.children) : s.Loopless := by
  intro offset u hu
  obtain ⟨i, hi⟩ := hu.of_mem_children hs
  exact h i u hi

theorem loopless_of_children (hkind : t.kind.isLoop = false) (h : ∀ s ∈ t.children, s.Loopless) :
    t.Loopless := by
  intro offset s hs
  rcases hs.eq_or_mem_children with rfl | ⟨u, hu, i, hi⟩
  · exact hkind
  · exact h u hu i s hi

theorem IsAtom.loopless (h : t.IsAtom) : t.Loopless := by
  apply loopless_of_children
  · cases t with
    | integer negative magnitude =>
      simp only [kind, recipe, Recipe.kind]
      split_ifs <;> rfl
    | decimal | text => rfl
    | _ => exact h.elim
  · rw [h.children_eq]
    intro s hs
    cases hs

theorem loopless_list {ts : List Tree} (h : ∀ t ∈ ts, t.Loopless) : (composite .list ts).Loopless :=
  loopless_of_children rfl h

/-- Whether there is a loop in an object can be told from its bytes. -/
theorem Loopless.of_encode_eq (h : t.Loopless) (ht : t'.Fits) (he : t.encode = t'.encode) :
    t'.Loopless := by
  intro offset s hs
  obtain ⟨s', hs', he'⟩ := hs.of_encode_eq ht he
  rw [← kind_eq_of_encode_eq he']
  exact h offset s' hs'

end Tree

namespace Image

variable {v w : Image}

/-- No loop is on the stack or has a name. Pointers that nobody follows may still lead to one. -/
structure Loopless (v : Image) : Prop where
  stack : ∀ q ∈ v.stack, q.tree.Loopless
  directory : ∀ e ∈ v.directory, e.object.tree.Loopless

theorem lasting_loopless : Lasting Loopless := fun _ _ h => ⟨h.stack, h.directory⟩

theorem Reworks.loopless (h : v.Reworks w) (hv : v.Loopless) : w.Loopless := by
  have hloopless : ∀ t, v.Provides t → t.Loopless := by
    intro t ht
    apply ht.induct hv.stack hv.directory
    · exact fun _ hatom => hatom.loopless
    · exact fun _ _ ht hs => ht.of_mem_children hs
    · exact fun _ hts => Tree.loopless_list hts
  constructor
  · exact fun q hq => hloopless _ (h.stack q hq)
  · exact fun e he => hloopless _ (h.directory e he)

end Image

namespace Run

variable {α β : Type} {c : Nat} {v w : Image} {p : Pointer} {q : Place}

/-- The run ends without having to stop for lack of passes, and leaves the setting as it was and no
loop. -/
def Ends (c : Nat) (v : Image) (act : Run α) : Prop :=
  Preserves Image.Loopless (¬·.isStop) c c v v.setting act act

def Ending (c : Nat) (f : Pointer → Run Unit) : Prop :=
  ∀ v p q, Image.Loopless v → v.deref p = some q → q.tree.Loopless → Ends c v (f p)

/-- What never stops for lack of passes fails for other reasons. -/
theorem Detached.agree {act : Run α} {ok : α → Image → Prop} {error : Failure → Image → Prop}
    (hd : Detached act) (h : Agree c c v act act ok error) :
    Agree c c v act act ok fun e w => error e w ∧ e ≠ .exhausted := by
  intro m₁ m₂ hm₁ hm₂
  obtain ⟨o, m₁', v', he, hm', hpost, hagree⟩ := h m₁ m₂ hm₁ hm₂
  refine ⟨o, m₁', v', he, hm', ?_, hagree⟩
  cases o with
  | ok a => exact hpost
  | error e =>
    refine ⟨hpost, ?_⟩
    rintro rfl
    exact hd.passes m₁ (by rw [he])

namespace Ends

variable {act : Run α} {f : α → Run β}

theorem pure (hv : v.Loopless) (a : α) : Ends c v (pure a) := Agree.pure ⟨rfl, hv⟩

theorem fail (hv : v.Loopless) (e : Error) : Ends c v (fail e : Run α) :=
  Agree.fail ⟨⟨rfl, hv⟩, Bool.false_ne_true⟩

theorem of_reworks (hv : v.Loopless) (hd : Detached act)
    (h : Agree c c v act act (fun _ w => v.Reworks w) (Spares v)) : Ends c v act := by
  apply (hd.agree h).mono
  · intro _ w hw
    exact ⟨hw.setting, hw.loopless hv⟩
  · intro e w hw
    have hsame := Image.Reworks.of_content hw.1.1
    exact ⟨⟨hsame.setting, hsame.loopless hv⟩, Failure.not_isStop hw.2 hw.1.2.ne_corrupt⟩

theorem of_reads {P : α → Prop} (hv : v.Loopless) (hd : Detached act) (h : Reads c c v act P) :
    Ends c v act := by
  apply (hd.agree h).mono
  · intro _ w hw
    exact ⟨by rw [hw.1], hw.1 ▸ hv⟩
  · intro e w hw
    have hdue : e.IsDue True := .of_isExpected hw.1.2
    exact ⟨⟨by rw [hw.1.1], hw.1.1 ▸ hv⟩, Failure.not_isStop hw.2 hdue.ne_corrupt⟩

theorem popping {g : Pointer → Run α} (hv : v.Loopless)
    (hg : ∀ q w, q.tree.Loopless → w.Loopless → w.setting = (v.hold q).setting →
      Ends c w (g ⟨v.slots.length⟩)) : Ends c v (acquiring pop g) := by
  cases hs : v.stack with
  | nil =>
    apply Agree.bind_yields_error fun _ => yields_pop_error hs
    exact ⟨⟨rfl, hv⟩, by decide⟩
  | cons q qs =>
    have hq : q.tree.Loopless := hv.stack q (by simp [hs])
    have hrest : Image.Loopless { v.hold q with stack := qs } :=
      ⟨fun r hr => hv.stack r (by simp [hs, hr]), hv.directory⟩
    apply Agree.of_valid
    intro hvalid
    apply Agree.bind_yields fun _ => yields_pop hs
    exact (hg q _ hq hrest rfl).holding Image.lasting_loopless hvalid rfl

theorem nested (hv : v.Loopless)
    (h : v.nesting < Machine.maxNesting → Ends c { v with nesting := v.nesting + 1 } act) :
    Ends c v (nested act) := by
  by_cases hn : v.nesting < Machine.maxNesting
  · have hstart : ∀ m, Machine.Represents m c v → ∃ m',
        exec (Run.nested act) m =
          exec (ensuring (modify fun m => { m with nesting := m.nesting - 1 }) act) m' ∧
          m'.Represents c { v with nesting := v.nesting + 1 } := by
      intro m hm
      rw [← hm.nesting_eq] at hn ⊢
      exact ⟨_, exec_nested hn, represents_nest _ hm⟩
    have hback : ∀ c w, True → Yields c w (modify fun m => { m with nesting := m.nesting - 1 })
        (.ok ()) { w with nesting := w.nesting - 1 } := by
      intro c w _ m hm
      refine ⟨_, exec_modify _ m, ?_⟩
      rw [← hm.nesting_eq]
      exact represents_nest _ hm
    have hleave : ∀ w : Image, w.setting = Image.setting { v with nesting := v.nesting + 1 } →
        Image.setting { w with nesting := w.nesting - 1 } = v.setting := by
      intro w hw
      exact congrArg (fun s => { s with nesting := s.nesting - 1 }) hw
    apply Agree.after_exec hstart hstart
    apply Agree.ensuring hback
    apply Agree.mono (h hn)
    · intro _ w hw
      exact ⟨trivial, hleave w hw.1, hw.2.stack, hw.2.directory⟩
    · intro e w hw
      exact ⟨trivial, ⟨hleave w hw.1.1, hw.1.2.stack, hw.1.2.directory⟩, hw.2⟩
  · have hfail : ∀ c, Yields c v (Run.nested act) (.error (.error .tooDeep)) v := by
      intro c m hm
      rw [← hm.nesting_eq, Nat.not_lt] at hn
      exact ⟨m, exec_nested_full hn, hm⟩
    exact Agree.of_yields_error (hfail c) (hfail c) ⟨⟨rfl, hv⟩, by decide⟩

/-- A machine that is looked at is as it should be. -/
theorem watching {fine : Machine → Prop} [DecidablePred fine] (hv : v.Loopless)
    (hfine : ∀ c m w, Machine.Represents m c w → w.setting = v.setting → w.Loopless → fine m)
    (h : Ends c v act) : Ends c v (watching fine act) := by
  have hwatch : ∀ w, w.setting = v.setting → w.Loopless →
      ∀ c, Yields c w (watch fine) (.ok ()) w := by
    intro w hw hloopless c m hm
    exact ⟨m, exec_watch (hfine c m w hm hw hloopless), hm⟩
  apply Agree.bind_yields (hwatch v rfl hv)
  apply Preserves.bind h
  intro a w hw hloopless
  apply Agree.bind_yields (hwatch w hw hloopless)
  exact pure hloopless a

end Ends

section

variable {f : Pointer → Run Unit}

theorem ends_sequence (hf : Ending c f) (hv : v.Loopless) (hp : v.deref p = some q)
    (hq : q.tree.Loopless) : Ends c v (sequence f p) := by
  have hheld : (v.holdAll q.children).Loopless := ⟨hv.stack, hv.directory⟩
  apply preserves_sequence Image.lasting_loopless (by decide) hp hheld
  intro r hr w p' hw hp'
  exact hf w p' r hw hp' (hq.of_mem_children (Place.tree_mem_children hr))

theorem ends_test (hf : Ending c f) (hv : v.Loopless) (hp : v.deref p = some q)
    (hq : q.tree.Loopless) : Ends c v (test f p) := by
  apply Agree.bind_yields fun _ => yields_depth
  apply Preserves.bind (ends_sequence hf hv hp hq)
  intro _ w _ hw
  apply Agree.bind_yields fun _ => yields_depth
  dsimp only
  split_ifs
  · exact Agree.bind_yields_error (fun _ m hm => ⟨m, rfl, hm⟩) ⟨⟨rfl, hw⟩, Bool.false_ne_true⟩
  · apply Ends.popping hw
    intro r u _ hu hsetting
    have hr := Image.deref_of_setting hsetting (w.deref_hold_self r)
    exact .of_reads hu (detached_truth _) (reads_truth hr)

/-- A control structure that is no loop makes no passes. -/
theorem ends_control (hf : Ending c f) (passes : Nat) {k : Control} (hk : k.isLoop = false)
    (hv : v.Loopless) (hp : v.deref p = some q) (hq : q.tree.Loopless) :
    Ends c v (control f passes k p) := by
  have hheld : (v.holdAll q.children).Loopless := ⟨hv.stack, hv.directory⟩
  have hclauses : ∀ p ∈ Image.pointers v.slots.length q.children,
      ∃ r, (v.holdAll q.children).deref p = some r ∧ r.tree.Loopless := by
    intro p' hp'
    obtain ⟨r, hr, hderef⟩ := (v.refers_holdAll q.children).exists_deref hp'
    exact ⟨r, hderef, hq.of_mem_children (Place.tree_mem_children hr)⟩
  apply Preserves.children Image.lasting_loopless hp
  generalize Image.pointers v.slots.length q.children = clauses at hclauses ⊢
  generalize v.holdAll q.children = v at hheld hclauses ⊢
  split
  · next condition yes =>
    obtain ⟨_, hcondition, hloopless⟩ := hclauses condition (by simp)
    obtain ⟨_, hyes, hloopless'⟩ := hclauses yes (by simp)
    apply Preserves.bind (ends_test hf hheld hcondition hloopless)
    intro holds w hw hI
    split_ifs
    · exact ends_sequence hf hI (Image.deref_of_setting hw hyes) hloopless'
    · exact Ends.pure hI ()
  · next condition yes no =>
    obtain ⟨_, hcondition, hloopless⟩ := hclauses condition (by simp)
    obtain ⟨_, hyes, hloopless'⟩ := hclauses yes (by simp)
    obtain ⟨_, hno, hloopless''⟩ := hclauses no (by simp)
    apply Preserves.bind (ends_test hf hheld hcondition hloopless)
    intro holds w hw hI
    split_ifs
    · exact ends_sequence hf hI (Image.deref_of_setting hw hyes) hloopless'
    · exact ends_sequence hf hI (Image.deref_of_setting hw hno) hloopless''
  · cases hk
  · cases hk
  · cases hk
  · cases hk
  · exact Ends.fail hheld _

theorem ends_push (hv : v.Loopless) (hp : v.deref p = some q) (hq : q.tree.Loopless) :
    Ends c v (push p) := by
  apply ((detached_push p).agree (agree_push le_rfl hp)).mono
  · intro _ w hw
    rw [hw.2]
    refine ⟨rfl, fun r hr => ?_, hv.directory⟩
    rcases List.mem_cons.mp hr with rfl | hr
    · exact hq
    · exact hv.stack r hr
  · intro e w hw
    refine ⟨⟨by rw [hw.1.2], hw.1.2 ▸ hv⟩, ?_⟩
    rw [hw.1.1.1]
    exact Bool.false_ne_true

/-- The commands end if what EVAL runs does, and leave no loop. -/
theorem ends_command (hf : Ending c f) (hv : v.Loopless) (k : Command) : Ends c v (k.run f) := by
  by_cases heval : k = .eval
  · subst heval
    apply Ends.popping hv
    intro q w hq hw hsetting
    exact hf w _ q hw (Image.deref_of_setting hsetting (v.deref_hold_self q)) hq
  · exact .of_reworks hv (Command.detached_run f heval)
      (k.reworks_run le_rfl f f heval fun _ => rfl)

end
end Run

namespace Evaluator

open Run

variable {c : Nat} {v : Image} {p : Pointer} {q : Place} {e : Evaluator}

structure Ending (c : Nat) (e : Evaluator) : Prop where
  evaluate : Run.Ending c e.evaluate
  execute : Run.Ending c e.execute

theorem Ending.evaluateName (h : e.Ending c) (hv : v.Loopless) (hp : v.deref p = some q)
    (hq : q.tree.Loopless) (name : String) : Ends c v (e.evaluateName p name) := by
  rcases v.named_or_not name with habsent | ⟨before, entry, after, hs, rfl⟩
  · apply Agree.bind_yields fun _ => yields_lookup_none habsent
    exact ends_push hv hp hq
  · have hentry : entry.object.tree.Loopless := hv.directory entry (by simp [hs])
    have hheld : (v.hold (.whole entry.object)).Loopless := ⟨hv.stack, hv.directory⟩
    have hobject := v.deref_hold_self (.whole entry.object)
    have hrun : Ends c (v.hold (.whole entry.object)) (do
        if (← kind ⟨v.slots.length⟩) = .composite .program then e.execute ⟨v.slots.length⟩
        else e.evaluate ⟨v.slots.length⟩) := by
      apply Agree.bind_yields fun _ => yields_kind hobject
      split_ifs
      · exact h.execute _ _ _ hheld hobject hentry
      · exact h.evaluate _ _ _ hheld hobject hentry
    apply Agree.of_valid
    intro hvalid
    apply Agree.bind_yields fun _ => yields_lookup hs
    exact hrun.holding Image.lasting_loopless hvalid rfl

theorem Ending.evaluateNext (h : e.Ending c) (passes : Nat) :
    Run.Ending c (e.evaluateNext Command.run passes) := by
  intro v p q hv hp hq
  apply Agree.bind_yields fun _ => yields_kind hp
  split
  · next k hk =>
    have hloop : k.isLoop = false := by
      have hself := hq 0 q.tree (.self _)
      rwa [hk] at hself
    exact ends_control h.evaluate passes hloop hv hp hq
  · exact ends_command h.execute hv _
  · next hk =>
    obtain ⟨name, hname⟩ := Tree.exists_value_of_symbol hk
    apply Agree.bind_yields fun _ => yields_value hp
    rw [hname]
    exact h.evaluateName hv hp hq name
  · exact ends_push hv hp hq

theorem Ending.executeNext (h : e.Ending c) (passes : Nat) :
    Run.Ending c (e.executeNext Command.run passes) := by
  intro v p q hv hp hq
  have hheld : (v.holdAll q.children).Loopless := ⟨hv.stack, hv.directory⟩
  apply Agree.bind_yields fun _ => yields_kind hp
  split
  · apply Preserves.children Image.lasting_loopless hp
    cases hchildren : q.children with
    | nil => exact Ends.fail (hchildren ▸ hheld) _
    | cons r rs =>
      have hr : r.tree.Loopless :=
        hq.of_mem_children (Place.tree_mem_children (by rw [hchildren]; simp))
      rw [Image.pointers_cons]
      apply h.evaluate _ _ r (hchildren ▸ hheld) _ hr
      exact v.deref_holdAll_getElem (r :: rs) (i := 0) (by simp)
  · exact ends_sequence h.evaluate hv hp hq
  · exact ends_sequence h.evaluate hv hp hq
  · exact h.evaluateNext passes v p q hv hp hq

end Evaluator

end RpnMachine
