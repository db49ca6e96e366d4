import RpnMachine.Console.Dialogue
import RpnMachine.Proofs.Run.Watched
import RpnMachine.Proofs.Run.Safety

/-! Whatever is asked of a machine, it takes back all that it lent: levels of nesting, pointers, and
room on the scratchpad, however deep inside the run failed. So a dialogue has nothing lent out between
two lines, and after a line that is done there is nothing to collect. -/
namespace RpnMachine

/-- What can be asked of a machine. -/
inductive Errand where
  | readObject (source : String)
  | readBody (source : String)
  | line (source : String)
  | run (mode : Mode) (p : Pointer)
  | test (p : Pointer)
  | render (flat : Bool) (p : Pointer)
  | renderWithin (width : Nat) (flat : Bool) (p : Pointer)
  | renderThroughScratch (flat : Bool) (p : Pointer)
  | toText (p : Pointer)

namespace Errand

/-- What is done for it, by the evaluator that a machine has. Of its result only a pointer counts. -/
def perform (evaluator : Run Evaluator) : Errand → Run (Option Pointer)
  | readObject source => do return some (← Run.readObject source)
  | readBody source => do return some (← Run.readBody source)
  | line source => do
    Run.acquiring (Run.readBody source) fun p => do Run.sequence (← evaluator).evaluate p
    return none
  | run mode p => do
    (← evaluator).run p mode
    return none
  | test p => do
    let _ ← Run.test (← evaluator).evaluate p
    return none
  | render flat p => do
    let _ ← Run.render flat p
    return none
  | renderWithin width flat p => do
    let _ ← Run.renderWithin width flat p
    return none
  | renderThroughScratch flat p => do
    let _ ← Run.renderThroughScratch flat p
    return none
  | toText p => do return some (← Run.toText p)

def operands : Errand → List Pointer
  | run _ p | test p | render _ p | renderWithin _ _ p | renderThroughScratch _ p | toText p => [p]
  | readObject _ | readBody _ | line _ => []

def returned : Except Failure (Option Pointer) → Option Pointer
  | .ok r => r
  | .error _ => none

end Errand

/-- The evaluator that counts the levels in the machine, and has `n` of its own at most. -/
def Evaluator.counted (passes n : Nat) : Evaluator := watched (fun _ _ => True) Command.run passes n

/-- The second machine has the levels and the scratchpad of the first one, and the pointers of the first
one and perhaps one more. -/
structure Machine.Repays (m : Machine) (r : Option Pointer) (m' : Machine) : Prop where
  nesting : m'.nesting = m.nesting
  scratchpad : m'.heap.scratchpad = m.heap.scratchpad
  pointers : m'.registry.live.map Prod.fst = m.registry.live.map Prod.fst ++ r.toList.map Pointer.slot

/-! Slots that are taken. -/

def taken {α : Type} (slots : List (Option α)) : List Nat :=
  slots.zipIdx.filterMap fun s => s.1.map fun _ => s.2

theorem taken_map {α β : Type} (f : α → β) (slots : List (Option α)) :
    taken (slots.map (Option.map f)) = taken slots := by
  unfold taken
  rw [List.zipIdx_map, List.filterMap_map]
  congr 1
  funext s
  cases s with
  | mk a i => cases a <;> rfl

theorem taken_append_some {α : Type} (slots : List (Option α)) (a : α) :
    taken (slots ++ [some a]) = taken slots ++ [slots.length] := by
  simp [taken, List.zipIdx_append]

theorem Registry.map_fst_live (r : Registry) : r.live.map Prod.fst = taken r.slots.toList := by
  unfold live taken
  rw [List.map_filterMap]
  congr 1
  funext s
  cases s with
  | mk a i => cases a <;> rfl

namespace Run

variable {α : Type} {c : Nat} {v : Image} {p : Pointer} {q : Place}

/-- The run leaves the setting as it was, but for the pointer that it gives. -/
def Returns (c : Nat) (v : Image) (act : Run (Option Pointer)) : Prop :=
  Agree c c v act act
    (fun r v' => (r = none ∧ v'.setting = v.setting) ∨
      (r = some ⟨v.slots.length⟩ ∧ ∃ q, v'.setting = (v.hold q).setting))
    fun _ v' => v'.setting = v.setting

theorem Steady.returns {act : Run α} (h : Steady c c v act act) :
    Returns c v (do let _ ← act; return none) :=
  Agree.bind (h.mono (fun _ _ h => h) fun _ _ h => h) fun _ _ h => Agree.pure (.inl ⟨rfl, h⟩)

theorem Gives.returns {act : Run Pointer} (h : Gives c c v act act) :
    Returns c v (do return some (← act)) := by
  apply Agree.bind (h.mono (fun _ _ h => h) fun _ _ h => h)
  intro p w hw
  obtain ⟨rfl, hq⟩ := hw
  exact Agree.pure (.inr ⟨rfl, hq⟩)

/-- A run that does nothing to the image at all. -/
theorem returns_of_same {act : Run α} {ok : α → Image → Prop} {error : Failure → Image → Prop}
    (h : Agree c c v act act ok error) (hok : ∀ a w, ok a w → w = v)
    (herror : ∀ e w, error e w → w = v) : Returns c v (do let _ ← act; return none) := by
  have hsteady : Steady c c v act act :=
    h.mono (fun a w hw => by rw [hok a w hw]) fun e w hw => by rw [herror e w hw]
  exact hsteady.returns

theorem returns_perform (passes : Nat) {e : Errand}
    (he : ∀ p ∈ e.operands, ∃ q, v.deref p = some q) :
    Returns c v (e.perform (evaluator passes)) := by
  have hattuned := fun n => Evaluator.attuned_ofRoom_run c passes n
  cases e with
  | readObject source => exact (gives_readObject le_rfl source).returns
  | readBody source => exact (supplies_readBody le_rfl source).gives.returns
  | line source => exact (tame_line le_rfl (Repertoire.attuned_run c) passes source).steady.returns
  | run mode p =>
    obtain ⟨q, hp⟩ := he p (by simp [Errand.operands])
    have hrun : Tame c c v (do (← evaluator passes).run p mode)
        (do (← evaluator passes).run p mode) := by
      apply Tame.evaluator
      intro n
      cases mode with
      | evaluate => exact (hattuned n).evaluate v p q hp
      | execute => exact (hattuned n).execute v p q hp
      | sequence => exact tame_sequence (hattuned n).evaluate hp
    have hreturns := hrun.steady.returns
    rwa [bind_assoc] at hreturns
  | test p =>
    obtain ⟨q, hp⟩ := he p (by simp [Errand.operands])
    have htest : Tame c c v (do Run.test (← evaluator passes).evaluate p)
        (do Run.test (← evaluator passes).evaluate p) :=
      .evaluator fun n => tame_test (hattuned n).evaluate hp
    have hreturns := htest.steady.returns
    rwa [bind_assoc] at hreturns
  | render flat p =>
    obtain ⟨q, hp⟩ := he p (by simp [Errand.operands])
    exact returns_of_same (agree_draw _ flat hp _) (fun _ _ h => h.2.1) fun _ _ h => h.2.1
  | renderWithin width flat p =>
    obtain ⟨q, hp⟩ := he p (by simp [Errand.operands])
    exact returns_of_same (agree_draw _ flat hp _) (fun _ _ h => h.2.1) fun _ _ h => h.2.1
  | renderThroughScratch flat p =>
    obtain ⟨q, hp⟩ := he p (by simp [Errand.operands])
    exact returns_of_same (agree_renderThroughScratch le_rfl flat hp) (fun _ _ h => h.1.2)
      fun _ _ h => h.2
  | toText p =>
    obtain ⟨q, hp⟩ := he p (by simp [Errand.operands])
    have hgives : Gives c c v (toText p) (toText p) := by
      apply (agree_toText le_rfl hp).mono
      · intro p' w hw
        rw [hw.2]
        exact ⟨hw.1, _, rfl⟩
      · intro e w hw
        rw [hw.2]
    exact hgives.returns

end Run

namespace Machine

open Run

variable {α β : Type} {m m' : Machine} {c passes n : Nat} {v v' : Image}

theorem Represents.repays (hm : m.Represents c v) (hm' : m'.Represents c v')
    {o : Except Failure (Option Pointer)}
    (h : (Errand.returned o = none ∧ v'.setting = v.setting) ∨
      (Errand.returned o = some ⟨v.slots.length⟩ ∧ ∃ q, v'.setting = (v.hold q).setting)) :
    m.Repays (Errand.returned o) m' := by
  obtain ⟨kept, free, hl⟩ := hm
  obtain ⟨kept', free', hl'⟩ := hm'
  have hlive : m.registry.live.map Prod.fst = taken v.slots := by
    rw [Registry.map_fst_live, hl.slots_eq, taken_map]
  have hlive' : m'.registry.live.map Prod.fst = taken v'.slots := by
    rw [Registry.map_fst_live, hl'.slots_eq, taken_map]
  have hnesting : v'.nesting = v.nesting := by
    rcases h with ⟨-, hs⟩ | ⟨-, q, hs⟩
    · exact congrArg Setting.nesting hs
    · exact congrArg Setting.nesting hs
  have hscratch : v'.scratch = v.scratch := by
    rcases h with ⟨-, hs⟩ | ⟨-, q, hs⟩
    · exact congrArg Setting.scratch hs
    · exact congrArg Setting.scratch hs
  constructor
  · rw [hl'.nesting, hl.nesting, hnesting]
  · rw [hl'.scratchpad_eq, hl.scratchpad_eq, hscratch]
  · rw [hlive, hlive']
    rcases h with ⟨hr, hs⟩ | ⟨hr, q, hs⟩
    · rw [hr, Image.slots_eq_of_setting hs]
      simp
    · have hslots : v'.slots = v.slots ++ [some q] := congrArg Setting.slots hs
      rw [hr, hslots, taken_append_some]
      rfl

theorem exec_bind_congr {x y : Run α} (h : exec x m = exec y m) (f : α → Run β) :
    exec (x >>= f) m = exec (y >>= f) m := by
  rw [exec_bind, exec_bind, h]

theorem Represents.nesting_readBody (hm : m.Represents c v) {source : String}
    {o : Except Failure Pointer} (h : exec (readBody source) m = (o, m')) :
    m'.nesting = m.nesting := by
  have hgives : Gives c c v (readBody source) (readBody source) :=
    (supplies_readBody le_rfl source).gives
  obtain ⟨o', m₁, v', hexec, hm', hpost, -⟩ := hgives m m hm hm
  rw [h] at hexec
  cases hexec
  have hnesting : v'.nesting = v.nesting := by
    cases o with
    | ok p =>
      obtain ⟨-, q, hsetting⟩ := hpost
      exact congrArg Setting.nesting hsetting
    | error e => exact congrArg Setting.nesting hpost
  rw [hm'.nesting_eq, hm.nesting_eq, hnesting]

/-- Levels can as well be counted in the machine. -/
theorem Represents.exec_perform_counted (hm : m.Represents c v) (hn : m.room ≤ n) (e : Errand) :
    exec (e.perform (pure (.counted passes n))) m = exec (e.perform (evaluator passes)) m := by
  have hfollows : ∀ m : Machine, m.room ≤ n → Evaluator.Follows False m.nesting
      (.counted passes n) (.ofRoom Command.run passes m.room) := by
    intro m hn
    exact Evaluator.follows_room (fun _ => .inr fun _ => trivial) (.inl rfl) hn
  have hself := fun m : Machine => Evaluator.follows_self m.nesting passes m.room
  have hgiven : ∀ m, exec (Pure.pure (.counted passes n) : Run Evaluator) m =
      (.ok (.counted passes n), m) := fun m => exec_pure _ m
  have hmade := exec_evaluator passes Command.run
  cases e with
  | line source =>
    unfold Errand.perform acquiring
    refine exec_bind_congr ?_ _
    cases hread : exec (readBody source) m with
    | mk o m₁ =>
      cases o with
      | error e => rw [exec_bind_error hread, exec_bind_error hread]
      | ok p =>
        have hroom : m₁.room = m.room := by
          unfold room
          rw [hm.nesting_readBody hread]
        have hrun := (follows_sequence (hfollows m₁ (hroom ▸ hn)).evaluate p).exec_eq
          (follows_sequence (hself m₁).evaluate p) fun h => h.elim
        rw [exec_bind_ok hread, exec_bind_ok hread]
        refine exec_ensuring_congr ?_ _
        rw [exec_bind_ok (hgiven m₁), exec_bind_ok (hmade m₁), hrun]
  | run mode p =>
    have hrun := ((hfollows m hn).run p mode).exec_eq ((hself m).run p mode) fun h => h.elim
    unfold Errand.perform
    rw [exec_bind_ok (hgiven m), exec_bind_ok (hmade m)]
    exact exec_bind_congr hrun _
  | test p =>
    have htest := (follows_test (hfollows m hn).evaluate p).exec_eq
      (follows_test (hself m).evaluate p) fun h => h.elim
    unfold Errand.perform
    rw [exec_bind_ok (hgiven m), exec_bind_ok (hmade m)]
    exact exec_bind_congr htest _
  | _ => rfl

end Machine

/-! Collections that find nothing. -/

namespace Image

variable {v : Image}

/-- Something refers to every temporary. -/
def Tidy (v : Image) : Prop := v.live = v.temporaries

def tidied (v : Image) : Image := { v with temporaries := v.live }

theorem tidy_tidied (v : Image) : v.tidied.Tidy := by
  unfold Tidy
  have hplaces : v.tidied.places = v.places := rfl
  rw [live, hplaces, tidied, live, List.filter_filter]
  simp only [Bool.and_self]

theorem Valid.tidied (hv : v.Valid) : v.tidied.Valid := by
  have hsublist : (v.permanent ++ v.live).Sublist (v.permanent ++ v.temporaries) :=
    List.filter_sublist.append_left _
  exact ⟨hv.distinct.sublist hsublist, fun i hi => hv.fresh i (hsublist.subset hi), hv.labelled,
    hv.names, hv.trimmed⟩

end Image

namespace Machine

open Run

variable {m m' : Machine} {c : Nat} {v : Image} {kept : List Item} {free : List UInt8}

theorem Lays.tidied (h : m.Lays c v v.live free) : m.Represents c v.tidied :=
  ⟨v.live, free, h.valid.tidied, List.Sublist.refl _, h.arranged, h.capacity, h.interrupted, h.nesting⟩

/-- A machine keeps all of a tidy image. -/
theorem Lays.kept_eq (h : m.Lays c v kept free) (hv : v.Tidy) : kept = v.live := by
  have hlive : v.live.Sublist kept := by
    rw [h.live_eq]
    exact List.filter_sublist
  have hkept : kept.Sublist v.live := by
    rw [hv]
    exact h.sublist
  exact hkept.antisymm hlive

/-- There is nothing to collect from a tidy image. -/
theorem Represents.exec_collect_tidy (hm : m.Represents c v) (hv : v.Tidy) :
    ∃ done m', exec collect m = (.ok done, m') ∧ done.reclaimed = 0 := by
  obtain ⟨kept, free, hl⟩ := hm
  obtain ⟨heap, registry, free', hcollect, -⟩ := hl.arranged.collect?
  refine ⟨_, _, exec_collect hl.arranged.parts hcollect, ?_⟩
  have hkept : (v.arrangement kept free).kept = kept := hl.live_eq.symm.trans (hl.kept_eq hv).symm
  rw [Arrangement.collection, hkept]
  exact Nat.sub_self _

end Machine

/-! The dialogue. -/

/-- A dialogue and its machine after some lines. Before each of them someone may ask for a stop. -/
inductive Dialogue.Reached (c : Nat) : Dialogue → Machine → Prop
  | start : Reached c {} (.ofCapacity c)
  | interrupt {d : Dialogue} {m : Machine} (asked : Bool) :
      Reached c d m → Reached c d { m with interrupted := asked }
  | enter {d d' : Dialogue} {m m' : Machine} (passes : Nat) (settings : Settings) (line : String) :
      Reached c d m → Run.exec (d.enter passes settings line) m = (.ok d', m') → Reached c d' m'

/-- Nothing is lent out, and all objects are sound. -/
structure Image.Settled (v : Image) : Prop where
  slots : v.slots = []
  scratch : v.scratch = []
  nesting : v.nesting = 0
  sound : v.Sound

namespace Dialogue

open Run

variable {c passes : Nat} {v : Image} {m m' : Machine} {d d' : Dialogue} {settings : Settings}

/-- A line that is done is answered with a machine from which there is nothing to collect. -/
theorem exists_exec_answer (hm : m.Represents c v) (hv : v.Settled) :
    ∃ text m' v', exec (enter.answer settings d) m = (.ok { d with output := d.output ++ text }, m') ∧
      m'.Represents c v' ∧ v'.Settled ∧ v'.Tidy := by
  obtain ⟨m₁, he₁, ⟨kept, free, hl₁⟩⟩ := yields_interrupt false m hm
  obtain ⟨done, m₂, free', he₂, hl₂⟩ := hl₁.exec_collect
  have hsettled : (Image.tidied { v with interrupted := false }).Settled :=
    ⟨hv.slots, hv.scratch, hv.nesting, hv.sound.stack, hv.sound.slots, hv.sound.directory⟩
  obtain ⟨m₃, he₃, hm₃⟩ := yields_showStack hsettled.sound settings m₂ hl₂.tidied
  refine ⟨StackView.text settings (v.stack.map Place.tree), m₃, _, ?_, hm₃, hsettled,
    Image.tidy_tidied _⟩
  unfold enter.answer
  rw [exec_bind_ok he₁, exec_bind_ok he₂, exec_bind_ok he₃]
  rfl

/-- What becomes of a dialogue at one more line: it waits for the next one, or the line is done. -/
theorem exec_enter_cases {line : String} (h : exec (d.enter passes settings line) m = (.ok d', m')) :
    ∃ o m₁, exec (Run.line passes (d.pending ++ line ++ "\n")) m = (o, m₁) ∧
      (d' = { d with pending := d.pending ++ line ++ "\n" } ∧ m' = m₁ ∨
        ∃ errors, exec (enter.answer settings { d with pending := "", errors }) m₁ = (.ok d', m')) := by
  cases hline : exec (Run.line passes (d.pending ++ line ++ "\n")) m with
  | mk o m₁ =>
    refine ⟨o, m₁, rfl, ?_⟩
    unfold enter at h
    rw [exec_bind_ok (exec_attempt _ m), hline] at h
    rcases o with (e | _ | _) | _
    · cases e with
      | read r =>
        by_cases hr : r.isIncomplete
        · left
          simp only [hr, if_true] at h
          cases h
          exact ⟨rfl, rfl⟩
        · right
          simp only [hr] at h
          exact ⟨_, h⟩
      | _ => exact .inr ⟨_, h⟩
    · cases h
    · cases h
    · exact .inr ⟨d.errors, h⟩

/-- Between two lines nothing is lent out, and if no line waits there is nothing to collect. -/
theorem Reached.exists_represents (hc : c < Word.bound Heap.slotSize) (h : Reached c d m) :
    ∃ v, m.Represents c v ∧ v.Settled ∧ (d.pending = "" → v.Tidy) := by
  induction h with
  | start =>
    have hsettled : Image.empty.Settled := ⟨rfl, rfl, rfl, Image.sound_empty⟩
    exact ⟨.empty, Machine.represents_ofCapacity hc, hsettled, fun _ => rfl⟩
  | interrupt asked _ ih =>
    obtain ⟨v, hm, hv, htidy⟩ := ih
    obtain ⟨m', he, hm'⟩ := yields_interrupt asked _ hm
    cases he
    exact ⟨_, hm', ⟨hv.slots, hv.scratch, hv.nesting, hv.sound.stack, hv.sound.slots,
      hv.sound.directory⟩, htidy⟩
  | @enter d d' m m' passes settings line _ hexec ih =>
    obtain ⟨v, hm, hv, -⟩ := ih
    obtain ⟨o, m₁, hline, hcases⟩ := exec_enter_cases hexec
    obtain ⟨o', m₁', v₁, hline', hm₁, hpost, -⟩ :=
      tame_line le_rfl (Repertoire.attuned_run c) passes _ m m hm hm
    rw [hline] at hline'
    cases hline'
    have hafter : v₁.After v := by
      cases o with
      | ok a => exact hpost
      | error e => exact hpost.1
    have hsettled : v₁.Settled := by
      refine ⟨?_, ?_, ?_, hafter.sound hv.sound⟩
      · rw [Image.slots_eq_of_setting hafter.setting, hv.slots]
      · rw [Image.scratch_eq_of_setting hafter.setting, hv.scratch]
      · exact (congrArg Setting.nesting hafter.setting).trans hv.nesting
    rcases hcases with ⟨rfl, rfl⟩ | ⟨errors, hanswer⟩
    · refine ⟨v₁, hm₁, hsettled, fun hpending => ?_⟩
      have hlength := congrArg String.length hpending
      simp at hlength
    · obtain ⟨text, m₂, v₂, hexec₂, hm₂, hv₂, htidy⟩ := exists_exec_answer hm₁ hsettled
      rw [hanswer] at hexec₂
      cases hexec₂
      exact ⟨v₂, hm₂, hv₂, fun _ => htidy⟩

end Dialogue

namespace Machine

open Run

variable {c : Nat}

/-- However a machine got where it is, whatever it is asked then, and however that ends, with levels that
are counted in the machine or not: it has the levels, the scratchpad and the pointers that it had, and
one pointer more if it gives one. So between two lines of a dialogue there are no pointers, nothing is on
the scratchpad and no level is taken, and if no line waits for more a collection reclaims nothing. -/
theorem repays_errands (hc : c < Word.bound Heap.slotSize) :
    (∀ actions m, Acts (ofCapacity c) actions m → ∀ e : Errand,
      (∀ p ∈ e.operands, (m.registry.position? p).isSome) → ∀ passes n, m.room ≤ n →
      ∃ o m', exec (e.perform (evaluator passes)) m = (o, m') ∧
        exec (e.perform (pure (.counted passes n))) m = (o, m') ∧ m.Repays (Errand.returned o) m') ∧
    ∀ d m, Dialogue.Reached c d m →
      m.registry.positions = [] ∧ m.heap.scratchLength = 0 ∧ m.nesting = 0 ∧
      (d.pending = "" → ∃ done m', exec collect m = (.ok done, m') ∧ done.reclaimed = 0) := by
  constructor
  · intro actions m h e he passes n hn
    obtain ⟨v, hm, -⟩ := h.exists_represents (represents_ofCapacity hc)
    have hlive : ∀ p ∈ e.operands, ∃ q, v.deref p = some q := by
      intro p hp
      obtain ⟨kept, free, hl⟩ := hm
      exact hl.exists_deref (he p hp)
    obtain ⟨o, m', v', hexec, hm', hpost, -⟩ := returns_perform passes hlive m m hm hm
    refine ⟨o, m', hexec, (hm.exec_perform_counted hn e).trans hexec, hm.repays hm' ?_⟩
    cases o with
    | ok r => exact hpost
    | error e => exact .inl ⟨rfl, hpost⟩
  · intro d m h
    obtain ⟨v, hm, hv, htidy⟩ := h.exists_represents hc
    have hcollect : d.pending = "" → ∃ done m', exec collect m = (.ok done, m') ∧ done.reclaimed = 0 :=
      fun hpending => hm.exec_collect_tidy (htidy hpending)
    obtain ⟨kept, free, hl⟩ := hm
    refine ⟨?_, ?_, ?_, hcollect⟩
    · rw [Registry.positions, hl.slots_eq, hv.slots]
      rfl
    · rw [hl.scratchLength_eq, hv.scratch]
      rfl
    · rw [hl.nesting, hv.nesting]

/-- A program in which another one fails. -/
def faulty : Tree := .composite .program [.composite .program [.command .drop], .command .eval]

/-- Something is on the scratchpad, a pointer leads to the program, and levels are taken. -/
def encumbered : Machine :=
  (((ofCapacity 64).act (.scratchAppend [7])).act (.make faulty.recipe)).act (.nest 3)

theorem acts_encumbered :
    Acts (ofCapacity 64) [.scratchAppend [7], .make faulty.recipe, .nest 3] encumbered :=
  .cons ⟨by decide, trivial⟩ <| .cons ⟨by decide, faulty, faulty.encode_eq⟩ <|
    .cons ⟨by decide, trivial⟩ <| .nil _

/-- The failure of the inner program leaves all that as it was, and so does that of a line. -/
theorem repays_faulty : ∃ m₁ d m₂,
    exec ((Errand.run .execute ⟨0⟩).perform (evaluator 0)) encumbered =
      (.error (.error (.tooFewArguments 1 0)), m₁) ∧ encumbered.Repays none m₁ ∧
    exec (Dialogue.enter 0 {} {} "DROP") (ofCapacity 64) = (.ok d, m₂) ∧
      m₂.registry.positions = [] ∧ m₂.heap.scratchLength = 0 ∧ m₂.nesting = 0 := by
  obtain ⟨hrepays, hreached⟩ := repays_errands (c := 64) (by decide)
  obtain ⟨o, m₁, hexec, -, hm₁⟩ := hrepays _ _ acts_encumbered (.run .execute ⟨0⟩)
    (by decide +kernel) 0 _ le_rfl
  have hfails : (exec ((Errand.run .execute ⟨0⟩).perform (evaluator 0)) encumbered).1 =
      .error (.error (.tooFewArguments 1 0)) := by decide +kernel
  rw [hexec] at hfails
  cases hfails
  have henter : (exec (Dialogue.enter 0 {} {} "DROP") (ofCapacity 64)).1 =
      .ok { errors := "error: too few arguments: need 1, stack has 0\n" } := by decide +kernel
  have hline := Dialogue.Reached.enter 0 {} "DROP" (.start (c := 64)) (Prod.ext henter rfl)
  obtain ⟨hpointers, hscratch, hnesting, -⟩ := hreached _ _ hline
  exact ⟨m₁, _, _, hexec, hm₁, Prod.ext henter rfl, hpointers, hscratch, hnesting⟩

end Machine
end RpnMachine
