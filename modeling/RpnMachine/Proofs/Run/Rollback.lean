import RpnMachine.Proofs.Run.Dictionary

/-! A command that fails leaves no trace, whichever of its steps it was that failed: what it pushed
is off the stack again, and what it wrote is off the scratchpad. EVAL is no such command, since what
it runs has effects of its own. -/
namespace RpnMachine

namespace Machine

open Run

variable {m m' : Machine} {c : Nat} {v v' : Image} {kept : List Item} {free : List UInt8}

/-- Nothing can be told from what a machine holds that could not be told before. -/
structure Restored (m m' : Machine) : Prop extends m.Keeps m' where
  depth : m'.heap.depth = m.heap.depth
  objects : ∃ objects : List (List UInt8), m.stackBytes = objects.map some
  entries : ∃ entries, m.entries? = some entries ∧ m'.entries? = some entries

theorem Lays.restored (h : m.Lays c v kept free) (hm' : m'.Represents c v')
    (hcontent : v'.content = v.content) : m.Restored m' := by
  obtain ⟨kept', free', h'⟩ := hm'
  injection hcontent with hsetting hstack hdirectory
  have hscratch := Image.scratch_eq_of_setting hsetting
  constructor
  · exact h.keeps h'.represents hscratch hstack fun _ _ hp => Image.deref_of_setting hsetting hp
  · rw [h'.depth_eq, h.depth_eq, hstack]
  · exact h.represents.exists_objects
  · refine ⟨v.listing, h.entries?_eq, ?_⟩
    rw [h'.entries?_eq, Image.listing, Image.listing, hdirectory]

/-- What EVAL would do only matters for EVAL itself. -/
theorem exists_exec_run {k : Command} {passes : Nat} {o : Except Failure Unit}
    (h : exec (command passes (.command k)) m = (o, m')) :
    ∃ execute, exec (k.run execute) m = (o, m') := by
  have hevaluator : exec (evaluator passes) m =
      (.ok (.ofRoom Command.run passes m.room), m) := exec_bind_ok (exec_get m) _
  exact ⟨_, (exec_bind_ok hevaluator _).symm.trans h⟩

/-- A command other than EVAL either succeeds or changes nothing. -/
theorem restored_of_failed_command (hc : c < Word.bound Heap.slotSize) {actions : List Action}
    (h : Acts (ofCapacity c) actions m) {k : Command} (hk : k ≠ .eval) {passes : Nat} {e : Failure}
    (hfails : exec (command passes (.command k)) m = (.error e, m')) : m.Restored m' := by
  obtain ⟨v, hm, -⟩ := h.exists_represents (represents_ofCapacity hc)
  obtain ⟨kept, free, hl⟩ := hm
  obtain ⟨execute, hrun⟩ := exists_exec_run hfails
  obtain ⟨o, m₁, v', hexec, hm', hpost, -⟩ :=
    k.sparing_run le_rfl execute execute hk (fun _ => rfl) m m hl.represents hl.represents
  rw [hrun] at hexec
  cases hexec
  exact hl.restored hm' hpost.1

/-- A named object is on the stack twice, in a memory where there is room for one more slot. -/
def crowded : List Action :=
  [.make (Tree.integer false 5).recipe, .store "x" ⟨0⟩, .release ⟨0⟩, .lookup "x", .push ⟨0⟩,
    .push ⟨0⟩]

theorem acts_crowded : ∃ m, Acts (ofCapacity 20) crowded m ∧
    (exec (command 1 (.command .dup2)) m).1 = .error (.error (.outOfMemory 4)) :=
  ⟨_, .cons ⟨by decide, .integer false 5, Tree.encode_eq _⟩ <| .cons ⟨by decide +kernel, trivial⟩ <|
    .cons ⟨by decide +kernel, trivial⟩ <| .cons ⟨by decide, trivial⟩ <|
    .cons ⟨by decide +kernel, trivial⟩ <| .cons ⟨by decide +kernel, trivial⟩ <| .nil _,
    by decide +kernel⟩

/-- DUP2 copies one of two objects and has no room for the other. -/
theorem restored_crowded_dup2 : ∃ m m', Acts (ofCapacity 20) crowded m ∧
    exec (command 1 (.command .dup2)) m = (.error (.error (.outOfMemory 4)), m') ∧ m.Restored m' := by
  obtain ⟨m, hm, hfails⟩ := acts_crowded
  exact ⟨m, _, hm, Prod.ext hfails rfl,
    restored_of_failed_command (by decide) hm (by decide) (Prod.ext hfails rfl)⟩

end Machine
end RpnMachine
