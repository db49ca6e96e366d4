import RpnMachine.Proofs.Run.Dictionary
import RpnMachine.Proofs.Run.Ending

/-! Evaluation without loops comes to its end. Names may stand for programs that call them, change what
they stand for while these run, and lists may be built to be run: what is evaluated at each level is
fixed at its start, and there are only so many levels. No command makes a loop out of other objects, so
none appears on the way either. -/
namespace RpnMachine

namespace Machine

open Run

variable {m : Machine} {c : Nat} {v : Image} {p : Pointer}

/-- No loop is on the stack or has a name. -/
structure Loopless (m : Machine) : Prop where
  stack : ∃ ts : List Tree, m.stackBytes = ts.map (fun t => some t.encode) ∧ ∀ t ∈ ts, t.Loopless
  directory : ∃ named : List (String × Tree),
    m.entries? = some (named.map fun e => (e.1, e.2.encode)) ∧ ∀ e ∈ named, e.2.Loopless

theorem Represents.loopless (hm : m.Represents c v) (hv : v.Loopless) : m.Loopless := by
  obtain ⟨kept, free, hl⟩ := hm
  constructor
  · refine ⟨v.stack.map Place.tree, ?_, by simpa using hv.stack⟩
    rw [hl.stackBytes_eq, List.map_map]
    rfl
  · refine ⟨v.entries, ?_, by simpa [Image.entries] using hv.directory⟩
    rw [hl.entries?_eq, Image.listing, Image.entries, List.map_map]
    rfl

/-- Whether there is a loop can be told from the bytes of the machine. -/
theorem Represents.image_loopless (hm : m.Represents c v) (h : m.Loopless) : v.Loopless := by
  obtain ⟨kept, free, hl⟩ := hm
  obtain ⟨⟨ts, hstack, hts⟩, named, hnamed, hentries⟩ := h
  constructor
  · intro q hq
    have hmem : some q.tree.encode ∈ m.stackBytes := by
      rw [hl.stackBytes_eq]
      exact List.mem_map.mpr ⟨q, hq, rfl⟩
    rw [hstack, List.mem_map] at hmem
    obtain ⟨t, ht, he⟩ := hmem
    have hfits : q.tree.Fits := hl.fits (List.mem_append_left _ hq)
    exact (hts t ht).of_encode_eq hfits (Option.some_inj.mp he)
  · intro e he
    have hmem : (e.name, e.object.tree.encode) ∈ v.listing := List.mem_map.mpr ⟨e, he, rfl⟩
    rw [hl.entries?_eq, Option.some_inj] at hnamed
    rw [hnamed, List.mem_map] at hmem
    obtain ⟨b, hb, hencode⟩ := hmem
    have hfits : e.object.tree.Fits := by
      apply hl.arranged.fits_of_mem (List.mem_append_left _ (List.mem_flatMap.mpr ⟨e, he, ?_⟩))
      simp [Entry.items]
    exact (hentries b hb).of_encode_eq hfits (Prod.mk.inj hencode).2

/-- There are no more levels taken than there may be, and no loop is on the stack, under a name, or in
the object of the pointer. -/
structure Clear (p : Pointer) (m : Machine) : Prop where
  nesting : m.nesting ≤ maxNesting
  loopless : m.Loopless
  object : ∃ t : Tree, exec (bytes p) m = (.ok t.encode, m) ∧ t.Loopless

noncomputable instance (p : Pointer) : DecidablePred (Clear p) := fun _ => Classical.propDecidable _

end Machine

namespace Evaluator

open Run

variable {c : Nat}

/-- At each level the machine is clear when the object is met and when it is done. -/
theorem ending_watching {act : Pointer → Run Unit} (h : Run.Ending c act) :
    Run.Ending c fun p => nested (watching (Machine.Clear p) (act p)) := by
  intro v p q hv hp hq
  apply Ends.nested hv
  intro hroom
  have hv' : Image.Loopless { v with nesting := v.nesting + 1 } := ⟨hv.stack, hv.directory⟩
  apply Ends.watching hv'
  · intro c m w hm hw hloopless
    have hnesting : w.nesting = v.nesting + 1 := congrArg Setting.nesting hw
    have hderef : w.deref p = some q := Image.deref_of_setting hw hp
    constructor
    · rw [hm.nesting_eq, hnesting]
      exact hroom
    · exact hm.loopless hloopless
    · obtain ⟨kept, free, hl⟩ := hm
      exact ⟨q.tree, hl.exec_bytes hderef, hq⟩
  · exact h _ p q hv' hp hq

/-- All levels of evaluation end, whatever the passes that a loop would have. -/
theorem ending_watched (c passes n : Nat) : (watched Machine.Clear Command.run passes n).Ending c := by
  induction n with
  | zero => exact ⟨fun v p q hv _ _ => .fail hv _, fun v p q hv _ _ => .fail hv _⟩
  | succ n ih =>
    constructor
    · exact ending_watching (ih.evaluateNext passes)
    · exact ending_watching (ih.executeNext passes)

theorem Ending.run {e : Evaluator} (h : e.Ending c) {v : Image} {p : Pointer} {q : Place}
    (hv : v.Loopless) (hp : v.deref p = some q) (hq : q.tree.Loopless) (mode : Mode) :
    Ends c v (e.run p mode) := by
  cases mode with
  | evaluate => exact h.evaluate v p q hv hp hq
  | execute => exact h.execute v p q hv hp hq
  | sequence => exact ends_sequence h.evaluate hv hp hq

end Evaluator

namespace Machine

open Run

variable {m : Machine} {c : Nat} {p : Pointer}

/-- A run that is watched and does not have to stop is the run. -/
theorem exec_watched_eq {fine : Pointer → Machine → Prop} [∀ p, DecidablePred (fine p)]
    {passes₁ passes₂ n : Nat} (hpasses : passes₁ ≤ passes₂) (hn : m.room ≤ n) {mode : Mode}
    (hends : ¬isStop (exec ((Evaluator.watched fine Command.run passes₁ n).run p mode) m).1) :
    exec ((Evaluator.watched fine Command.run passes₁ n).run p mode) m =
      exec (do (← evaluator passes₂).run p mode) m := by
  have hfollows : Evaluator.Follows True m.nesting (.watched fine Command.run passes₁ n)
      (.ofRoom Command.run passes₂ m.room) :=
    Evaluator.follows_room (fun _ => .inl trivial) (.inr ⟨trivial, hpasses⟩) hn
  have hself := Evaluator.follows_self m.nesting passes₂ m.room
  exact (hfollows.run p mode).exec_eq (hself.run p mode) fun _ => hends

/-- The watched run of an object without a loop ends with no loop, whatever the passes and levels. -/
theorem Represents.exists_exec_watched {v : Image} {q : Place} (hm : m.Represents c v)
    (hv : v.Loopless) (hp : v.deref p = some q) (hq : q.tree.Loopless) (passes n : Nat) (mode : Mode) :
    ∃ o m' v', exec ((Evaluator.watched Clear Command.run passes n).run p mode) m = (o, m') ∧
      m'.Represents c v' ∧ v'.setting = v.setting ∧ v'.Loopless ∧ ¬isStop o := by
  have hends := (Evaluator.ending_watched c passes n).run hv hp hq mode
  obtain ⟨o, m', v', hexec, hm', hpost, -⟩ := hends m m hm hm
  refine ⟨o, m', v', hexec, hm', ?_⟩
  cases o with
  | ok a => exact ⟨hpost.1, hpost.2, by simp [isStop]⟩
  | error e => exact ⟨hpost.1.1, hpost.1.2, hpost.2⟩

/-- Where no loop is in the object, on the stack or under a name, each way to run the object ends. Its
outcome and the machine that it leaves are the same whatever the number of passes, even if there are
none, and it never stops for lack of them. They are the same too if levels are counted in the machine,
with no bound but that count, and the run stops wherever an object is met or done while too many levels
are taken or there is a loop: so neither ever happens. -/
theorem run_ends_of_loopless (hc : c < Word.bound Heap.slotSize) {actions : List Action}
    (h : Acts (ofCapacity c) actions m) (hm : m.Loopless) {t : Tree}
    (hp : (exec (bytes p) m).1 = .ok t.encode) (ht : t.Loopless) (mode : Mode) :
    ∃ o m', o ≠ .error .exhausted ∧ m'.Loopless ∧ m'.nesting = m.nesting ∧
      (∀ passes, exec (do (← evaluator passes).run p mode) m = (o, m')) ∧
      ∀ passes n, m.room ≤ n →
        exec ((Evaluator.watched Clear Command.run passes n).run p mode) m = (o, m') := by
  obtain ⟨v, hrep, -⟩ := h.exists_represents (represents_ofCapacity hc)
  obtain ⟨q, hderef, hfits, hencode⟩ := hrep.exists_deref_of_bytes hp
  have hends := hrep.exists_exec_watched (hrep.image_loopless hm) hderef
    (ht.of_encode_eq hfits hencode.symm)
  obtain ⟨o, m', v', hexec, hm', hsetting, hloopless, ho⟩ := hends 0 m.room mode
  have hplain : ∀ passes, exec (do (← evaluator passes).run p mode) m = (o, m') := by
    intro passes
    rw [← hexec]
    exact (exec_watched_eq (Nat.zero_le passes) le_rfl (by rw [hexec]; exact ho)).symm
  have hne : o ≠ .error .exhausted := by
    rintro rfl
    exact ho rfl
  refine ⟨o, m', hne, hm'.loopless hloopless, ?_, hplain, ?_⟩
  · rw [hm'.nesting_eq, hrep.nesting_eq]
    exact congrArg Setting.nesting hsetting
  · intro passes n hn
    obtain ⟨o', m'', -, hexec', -, -, -, ho'⟩ := hends passes n mode
    rw [exec_watched_eq le_rfl hn (by rw [hexec']; exact ho'), hplain]

/-- A program that calls itself by the name `X`. -/
def recurring : Tree := .composite .program [.symbol "X"]

theorem loopless_recurring : recurring.Loopless := by
  apply Tree.loopless_of_children rfl
  intro s hs
  rw [List.mem_singleton.mp hs]
  exact Tree.loopless_of_children rfl fun _ h => nomatch h

/-- The program has that name, and all levels but four are taken. -/
def recurrence : Machine :=
  (((ofCapacity 32).act (.make recurring.recipe)).act (.store "X" ⟨0⟩)).act (.nest 252)

theorem acts_recurrence :
    Acts (ofCapacity 32) [.make recurring.recipe, .store "X" ⟨0⟩, .nest 252] recurrence :=
  .cons ⟨by decide, recurring, recurring.encode_eq⟩ <| .cons ⟨by decide +kernel, trivial⟩ <|
    .cons ⟨by decide, trivial⟩ <| .nil _

theorem loopless_recurrence : recurrence.Loopless := by
  refine ⟨⟨[], ?_, by simp⟩, [("X", recurring)], ?_, by simpa using loopless_recurring⟩
  · decide +kernel
  · decide +kernel

/-- It runs out of levels. -/
theorem run_ends_recurring : ∃ m', ∀ passes,
    exec (do (← evaluator passes).run ⟨0⟩ .execute) recurrence = (.error (.error .tooDeep), m') := by
  have hbytes : (exec (bytes ⟨0⟩) recurrence).1 = .ok recurring.encode := by decide +kernel
  obtain ⟨o, m', -, -, -, hruns, -⟩ := run_ends_of_loopless (by decide) acts_recurrence
    loopless_recurrence hbytes loopless_recurring .execute
  have hdeep : (exec (do (← evaluator 0).run ⟨0⟩ .execute) recurrence).1 =
      .error (.error .tooDeep) := by decide +kernel
  rw [hruns 0] at hdeep
  cases hdeep
  exact ⟨m', hruns⟩

end Machine
end RpnMachine
