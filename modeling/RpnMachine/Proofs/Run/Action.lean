import RpnMachine.Proofs.Run.Evaluation

/-! What can be done with a machine from outside, step by step. Each step leaves a machine that
holds something again, and every pointer that is not given back leads to what it led to. -/
namespace RpnMachine

inductive Action where
  | make (r : Recipe)
  | readObject (source : String)
  | readBody (source : String)
  | scratchAppend (bytes : List UInt8)
  | scratchAppendObject (p : Pointer)
  | scratchRelease (mark : Nat)
  | makeFromScratch (k : Kind) (mark : Nat)
  | clone (p : Pointer)
  | within (p : Pointer) (offset : Nat)
  | children (p : Pointer)
  | release (p : Pointer)
  | push (p : Pointer)
  | pop
  | peek (level : Nat)
  | put (level : Nat) (p : Pointer)
  | discard (n : Nat)
  | roll (n : Nat)
  | swap
  | clear
  | lookup (name : String)
  | store (name : String) (p : Pointer)
  | purge (name : String)
  | collect
  | render (flat : Bool) (p : Pointer)
  | renderWithin (width : Nat) (flat : Bool) (p : Pointer)
  | renderToScratch (flat : Bool) (p : Pointer)
  | renderThroughScratch (flat : Bool) (p : Pointer)
  | toText (p : Pointer)
  | command (passes : Nat) (k : Kind)
  | evaluate (passes : Nat) (p : Pointer)
  | execute (passes : Nat) (p : Pointer)
  | sequence (passes : Nat) (p : Pointer)
  | test (passes : Nat) (p : Pointer)
  | line (passes : Nat) (source : String)
  /-- Asks for a run to stop, or takes that back. -/
  | interrupt (asked : Bool)
  /-- Takes this many levels of nesting. -/
  | nest (levels : Nat)

namespace Action

def perform : Action → Run Unit
  | make r => do let _ ← Run.make r
  | readObject source => do let _ ← Run.readObject source
  | readBody source => do let _ ← Run.readBody source
  | scratchAppend bytes => Run.scratchAppend bytes
  | scratchAppendObject p => Run.scratchAppendObject p
  | scratchRelease mark => Run.scratchRelease mark
  | makeFromScratch k mark => do let _ ← Run.makeFromScratch k mark
  | clone p => do let _ ← Run.clone p
  | within p offset => do let _ ← Run.within p offset
  | children p => do let _ ← Run.children p
  | release p => Run.release p
  | push p => Run.push p
  | pop => do let _ ← Run.pop
  | peek level => do let _ ← Run.peek level
  | put level p => Run.put level p
  | discard n => Run.discard n
  | roll n => Run.roll n
  | swap => Run.swap
  | clear => Run.clear
  | lookup name => do let _ ← Run.lookup name
  | store name p => Run.store name p
  | purge name => do let _ ← Run.purge name
  | collect => do let _ ← Run.collect
  | render flat p => do let _ ← Run.render flat p
  | renderWithin width flat p => do let _ ← Run.renderWithin width flat p
  | renderToScratch flat p => do let _ ← Run.renderToScratch flat p
  | renderThroughScratch flat p => do let _ ← Run.renderThroughScratch flat p
  | toText p => do let _ ← Run.toText p
  | command passes k => Run.command passes k
  | evaluate passes p => Run.evaluate passes p
  | execute passes p => Run.execute passes p
  | sequence passes p => do Run.sequence (← Run.evaluator passes).evaluate p
  | test passes p => do let _ ← Run.test (← Run.evaluator passes).evaluate p
  | line passes source => Run.line passes source
  | interrupt asked => modify fun m => { m with interrupted := asked }
  | nest levels => modify fun m => { m with nesting := levels }

def operands : Action → List Pointer
  | scratchAppendObject p | clone p | within p _ | children p | release p | push p | put _ p
  | store _ p | render _ p | renderWithin _ _ p | renderToScratch _ p | renderThroughScratch _ p
  | toText p | evaluate _ p | execute _ p | sequence _ p | test _ p => [p]
  | _ => []

/-- The pointers are not given back yet. New objects are whole ones, and pointers into an object
lead to where another one starts. -/
def Admissible (m : Machine) (a : Action) : Prop :=
  (∀ p ∈ a.operands, (m.registry.position? p).isSome) ∧
    match a with
    | make r => ∃ t : Tree, t.encode = r.encode
    | makeFromScratch k mark =>
      ∃ t : Tree, t.encode = Encoding.mark k ++ Encoding.sized (m.heap.scratchpad.drop mark)
    | within p offset =>
      ∃ t s : Tree, (Run.exec (Run.bytes p) m).1 = .ok t.encode ∧ t.At offset s
    | _ => True

end Action

/-- The machine after an action, whether it succeeded or failed. -/
def Machine.act (m : Machine) (a : Action) : Machine := (Run.exec a.perform m).2

/-- From one machine to another by admissible actions in order. -/
inductive Machine.Acts : Machine → List Action → Machine → Prop
  | nil (m : Machine) : Acts m [] m
  | cons {m m' : Machine} {a : Action} {actions : List Action} :
      a.Admissible m → Acts (m.act a) actions m' → Acts m (a :: actions) m'

/-- Pointers lead to the same in both images. -/
def Image.Extends (v v' : Image) : Prop := ∀ p q, v.deref p = some q → v'.deref p = some q

namespace Run

variable {α : Type} {c : Nat} {v : Image} {p : Pointer} {q : Place}

/-- However the run ends, pointers lead to what they led to. -/
def Extending (c : Nat) (v : Image) (act : Run α) : Prop :=
  Agree c c v act act (fun _ v' => v.Extends v') fun _ v' => v.Extends v'

theorem Extending.discard {act : Run α} (h : Extending c v act) :
    Extending c v (do let _ ← act) := Agree.bind h fun _ _ h => Agree.pure h

theorem Steady.extending {act : Run α} (h : Steady c c v act act) : Extending c v act :=
  h.mono (fun _ _ h _ _ hp => Image.deref_of_setting h hp)
    fun _ _ h _ _ hp => Image.deref_of_setting h hp

theorem Extending.of_gives {act : Run Pointer} (h : Gives c c v act act) :
    Extending c v (do let _ ← act) := by
  refine Extending.discard (h.mono ?_ ?_)
  · rintro _ _ ⟨-, q, hw⟩ p r hp
    exact Image.deref_of_setting hw (Image.deref_hold hp q)
  · exact fun _ _ h _ _ hp => Image.deref_of_setting h hp

/-- Nothing is done to the pointers. -/
theorem Extending.of_slots {act : Run α} {ok : α → Image → Prop} {error : Failure → Image → Prop}
    (h : Agree c c v act act ok error) (hok : ∀ a w, ok a w → w.slots = v.slots)
    (herror : ∀ e w, error e w → w.slots = v.slots) : Extending c v act := by
  have hextends : ∀ w : Image, w.slots = v.slots → v.Extends w := fun w hw p q hp => by
    rwa [Image.deref, hw]
  exact h.mono (fun a w h => hextends w (hok a w h)) fun e w h => hextends w (herror e w h)

/-- A run that ends in one machine ends there whatever the machine is compared with. -/
theorem Extending.exists_represents {act : Run α} (h : Extending c v act) {m : Machine}
    (hm : m.Represents c v) : ∃ v', (exec act m).2.Represents c v' ∧ v.Extends v' := by
  obtain ⟨o, m', v', he, hm', hpost, -⟩ := h m m hm hm
  rw [he]
  refine ⟨v', hm', ?_⟩
  cases o with
  | ok a => exact hpost
  | error e => exact hpost

theorem make_eq_of_encode_eq {r : Recipe} {t : Tree} (h : t.encode = r.encode) :
    make r = make t.recipe := by
  rw [make, make, ← Recipe.length_encode_eq_requiredMemory,
    ← Recipe.length_encode_eq_requiredMemory, ← h, Tree.encode_eq]

theorem extending_lookup (name : String) : Extending c v (lookup name) := by
  rcases v.named_or_not name with hn | ⟨before, e, after, hs, rfl⟩
  · exact Agree.of_yields (yields_lookup_none hn) (yields_lookup_none hn) fun _ _ hp => hp
  · exact Agree.of_yields (yields_lookup hs) (yields_lookup hs) fun _ _ hp => Image.deref_hold hp _

theorem extending_within (hp : v.deref p = some q) {offset : Nat} {t : Tree}
    (ht : q.tree.At offset t) : Extending c v (within p offset) := by
  have hyields : Yields c v (within p offset) (.ok ⟨v.slots.length⟩)
      (v.hold ⟨q.item, q.offset + offset, t, q.held.trans ht⟩) := fun m ⟨_, _, h⟩ => by
    obtain ⟨m', he, h'⟩ := h.exec_within hp ht
    exact ⟨m', he, h'.represents⟩
  exact Agree.of_yields hyields hyields fun _ _ hp => Image.deref_hold hp _

theorem extending_scratchRelease (mark : Nat) : Extending c v (scratchRelease mark) := by
  by_cases hm : mark ≤ v.scratch.length
  · exact Agree.of_yields (yields_scratchRelease hm) (yields_scratchRelease hm) fun _ _ hp => hp
  · exact Agree.of_yields_error (yields_scratchRelease_error hm) (yields_scratchRelease_error hm)
      fun _ _ hp => hp

theorem extending_makeFromScratch {k : Kind} {mark : Nat} {t : Tree}
    (ht : t.encode = Encoding.mark k ++ Encoding.sized (v.scratch.drop mark)) :
    Extending c v (makeFromScratch k mark) := by
  by_cases hm : mark ≤ v.scratch.length
  · refine (agree_makeFromScratch le_rfl hm ht).mono ?_ ?_
    · rintro _ _ ⟨-, rfl⟩ p q hp
      exact Image.deref_hold hp _
    · rintro _ _ ⟨-, rfl⟩ p q hp
      exact hp
  · have hfail : Yields c v (makeFromScratch k mark) (.error .corrupt) v := fun m hrep => by
      obtain ⟨_, _, h⟩ := hrep
      exact ⟨m, exec_bind_error (h.exec_lengthAbove_error hm) _, h.represents⟩
    exact Agree.of_yields_error hfail hfail fun _ _ hp => hp

theorem yields_interrupt (asked : Bool) :
    Yields c v (modify fun m => { m with interrupted := asked })
    (.ok ()) { v with interrupted := asked } := fun _ ⟨kept, free, h⟩ =>
  ⟨_, rfl, kept, free, h.valid.withRest _ _ _ _, h.sublist, h.arranged, h.capacity, rfl, h.nesting⟩

theorem represents_nest (levels : Nat) {m : Machine} (hm : m.Represents c v) :
    { m with nesting := levels }.Represents c { v with nesting := levels } := by
  obtain ⟨kept, free, h⟩ := hm
  exact ⟨kept, free, h.valid.withRest _ _ _ _, h.sublist, h.arranged, h.capacity, h.interrupted,
    rfl⟩

theorem yields_nest (levels : Nat) : Yields c v (modify fun m => { m with nesting := levels })
    (.ok ()) { v with nesting := levels } := fun _ hm => ⟨_, rfl, represents_nest levels hm⟩

end Run

namespace Image

variable {v : Image} {p p' : Pointer} {q : Place}

/-- Other pointers stay when one is given back. -/
theorem deref_release (hne : p' ≠ p) (hp : v.deref p' = some q) :
    (v.release p).deref p' = some q := by
  have hslot : p.slot ≠ p'.slot := fun h => hne (by cases p; cases p'; cases h; rfl)
  rw [deref, Option.join_eq_some_iff] at hp ⊢
  refine getElem?_rdropWhile_isNone ?_
  rwa [List.getElem?_set_ne hslot]

end Image

namespace Action

open Run

variable {c : Nat} {v : Image} {m : Machine}

/-- What an action other than giving back a pointer does. -/
theorem extending_perform {a : Action} (hm : m.Represents c v) (ha : a.Admissible m)
    (hrelease : ∀ p, a ≠ .release p) : Extending c v a.perform := by
  obtain ⟨kept, free, hl⟩ := hm
  have hlive : ∀ p ∈ a.operands, ∃ q, v.deref p = some q :=
    fun p hp => hl.exists_deref (ha.1 p hp)
  have hadmissible := ha.2
  cases a with
  | make r =>
    obtain ⟨t, ht⟩ := hadmissible
    rw [perform, make_eq_of_encode_eq ht]
    exact .of_gives (gives_make le_rfl t)
  | readObject source => exact .of_gives (gives_readObject le_rfl source)
  | readBody source => exact .of_gives (supplies_readBody le_rfl source).gives
  | scratchAppend bytes =>
    exact .of_slots (agree_scratchAppend le_rfl bytes) (fun _ _ h => h.2 ▸ rfl) fun _ _ h => h.2 ▸ rfl
  | scratchAppendObject p =>
    obtain ⟨q, hp⟩ := hlive p (by simp [operands])
    exact .of_slots (agree_scratchAppendObject le_rfl hp) (fun _ _ h => h.2 ▸ rfl)
      fun _ _ h => h.2 ▸ rfl
  | scratchRelease mark => exact extending_scratchRelease mark
  | makeFromScratch k mark =>
    obtain ⟨t, ht⟩ := hadmissible
    rw [hl.scratchpad_eq] at ht
    exact (extending_makeFromScratch ht).discard
  | clone p =>
    obtain ⟨q, hp⟩ := hlive p (by simp [operands])
    exact .of_gives (gives_clone hp)
  | within p offset =>
    obtain ⟨q, hp⟩ := hlive p (by simp [operands])
    obtain ⟨t, s, hbytes, hs⟩ := hadmissible
    rw [hl.exec_bytes hp, Except.ok.injEq] at hbytes
    have hfits : t.Fits := by
      have := hl.fits (Image.mem_places_of_deref hp)
      rwa [Tree.Fits, Tree.size, hbytes] at this
    obtain ⟨s', hs', -⟩ := hs.of_encode_eq hfits hbytes
    exact (extending_within hp hs').discard
  | children p =>
    obtain ⟨q, hp⟩ := hlive p (by simp [operands])
    refine Extending.discard (Agree.of_yields (yields_children hp) (yields_children hp) ?_)
    exact fun _ _ hp => Image.deref_holdAll hp _
  | release p => exact absurd rfl (hrelease p)
  | push p =>
    obtain ⟨q, hp⟩ := hlive p (by simp [operands])
    exact (steady_push le_rfl hp).extending
  | pop => exact .of_gives gives_pop
  | peek level => exact .of_gives (gives_peek level)
  | put level p =>
    obtain ⟨q, hp⟩ := hlive p (by simp [operands])
    exact (steady_put level hp).extending
  | discard n => exact (steady_discard n).extending
  | roll n => exact (steady_roll n).extending
  | swap => exact (steady_roll 2).extending
  | clear => exact steady_clear.extending
  | lookup name => exact (extending_lookup name).discard
  | store name p =>
    obtain ⟨q, hp⟩ := hlive p (by simp [operands])
    exact (steady_store le_rfl name hp).extending
  | purge name => exact (steady_purge le_rfl name).extending.discard
  | collect => exact .of_slots agree_collect (fun _ _ h => h ▸ rfl) fun _ _ h => h.elim
  | render flat p =>
    obtain ⟨q, hp⟩ := hlive p (by simp [operands])
    exact Extending.discard (.of_slots (agree_draw _ flat hp "") (fun _ _ h => h.2.1 ▸ rfl)
      fun _ _ h => h.2.1 ▸ rfl)
  | renderWithin width flat p =>
    obtain ⟨q, hp⟩ := hlive p (by simp [operands])
    exact Extending.discard (.of_slots (agree_draw _ flat hp _) (fun _ _ h => h.2.1 ▸ rfl)
      fun _ _ h => h.2.1 ▸ rfl)
  | renderToScratch flat p =>
    obtain ⟨q, hp⟩ := hlive p (by simp [operands])
    exact Extending.discard (.of_slots (agree_renderToScratch le_rfl flat hp) (fun _ _ h => h.2 ▸ rfl)
      fun _ _ h => h.2 ▸ rfl)
  | renderThroughScratch flat p =>
    obtain ⟨q, hp⟩ := hlive p (by simp [operands])
    exact Extending.discard (.of_slots (agree_renderThroughScratch le_rfl flat hp)
      (fun _ _ h => h.1.2 ▸ rfl) fun _ _ h => h.2 ▸ rfl)
  | toText p =>
    obtain ⟨q, hp⟩ := hlive p (by simp [operands])
    refine .of_gives ((agree_toText le_rfl hp).mono ?_ fun _ _ h => h.2 ▸ rfl)
    rintro _ _ ⟨rfl, rfl⟩
    exact ⟨rfl, _, rfl⟩
  | command passes k => exact (steady_command c passes k).extending
  | evaluate passes p =>
    obtain ⟨q, hp⟩ := hlive p (by simp [operands])
    exact (tame_evaluate c passes hp).steady.extending
  | execute passes p =>
    obtain ⟨q, hp⟩ := hlive p (by simp [operands])
    exact (tame_execute c passes hp).steady.extending
  | sequence passes p =>
    obtain ⟨q, hp⟩ := hlive p (by simp [operands])
    refine (Tame.evaluator fun n => ?_).steady.extending
    exact tame_sequence (Evaluator.attuned_ofRoom_run c passes n).evaluate hp
  | test passes p =>
    obtain ⟨q, hp⟩ := hlive p (by simp [operands])
    refine (Tame.evaluator fun n => ?_).steady.extending
    exact (tame_test (Evaluator.attuned_ofRoom_run c passes n).evaluate hp).bind fun _ _ _ => .pure _
  | line passes source =>
    exact (tame_line le_rfl (Repertoire.attuned_run c) passes source).steady.extending
  | interrupt asked =>
    exact Agree.of_yields (yields_interrupt asked) (yields_interrupt asked) fun _ _ hp => hp
  | nest levels =>
    exact Agree.of_yields (yields_nest levels) (yields_nest levels) fun _ _ hp => hp

/-- One action leaves a machine that holds something again, and every pointer that is not given
back leads to what it led to. -/
theorem exists_represents_act {a : Action} (hm : m.Represents c v) (ha : a.Admissible m) :
    ∃ v', (m.act a).Represents c v' ∧
      ∀ p q, a ≠ .release p → v.deref p = some q → v'.deref p = some q := by
  by_cases hrelease : ∃ p, a = .release p
  · obtain ⟨p, rfl⟩ := hrelease
    have hlive := ha.1 p (by simp [operands])
    obtain ⟨kept, free, hl⟩ := hm
    obtain ⟨q, hp⟩ := hl.exists_deref hlive
    obtain ⟨m', he, hm'⟩ := yields_release (Image.slot_lt_of_deref hp) m hl.represents
    refine ⟨v.release p, ?_, fun p' q hne hp => Image.deref_release ?_ hp⟩
    · rw [Machine.act, perform, he]
      exact hm'
    · rintro rfl
      exact hne rfl
  · rw [not_exists] at hrelease
    obtain ⟨v', hm', hextends⟩ := (extending_perform hm ha hrelease).exists_represents hm
    exact ⟨v', hm', fun p q _ hp => hextends p q hp⟩

end Action
end RpnMachine
