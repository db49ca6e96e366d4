import RpnMachine.Proofs.Run.WellFormed

/-! A pointer that is not given back leads to the same bytes, whatever is done with the machine. So
a program goes on with the children that it had, even if it changes what its own name stands for. -/
namespace RpnMachine

namespace Image

variable {v : Image}

theorem take_pointers (start i : Nat) (qs : List Place) :
    (pointers start qs).take i = pointers start (qs.take i) := by
  induction qs generalizing start i with
  | nil => simp [pointers]
  | cons q qs ih =>
    cases i with
    | zero => rfl
    | succ i => rw [pointers_cons, List.take_succ_cons, ih, List.take_succ_cons, pointers_cons]

theorem drop_pointers (start i : Nat) (qs : List Place) :
    (pointers start qs).drop i = pointers (start + (qs.take i).length) (qs.drop i) := by
  induction qs generalizing start i with
  | nil => simp [pointers]
  | cons q qs ih =>
    cases i with
    | zero => rfl
    | succ i =>
      rw [pointers_cons, List.drop_succ_cons, ih, List.take_succ_cons, List.length_cons,
        List.drop_succ_cons, Nat.add_assoc, Nat.add_comm 1]

theorem refers_pending {base : List (Option Place)} {n : Nat} {qs : List Place}
    (hs : v.slots = pending base n qs) : v.Refers (pointers (base.length + n) qs) qs := by
  refine List.forall₂_iff_get.mpr ⟨by simp [pointers], fun i hi hi' => ?_⟩
  have hslots : v.slots = base ++ List.replicate n none ++ qs.map some := by
    rw [hs]
    cases qs with
    | nil => cases hi'
    | cons q qs => rfl
  have hlength : base.length + n = (base ++ List.replicate n (none : Option Place)).length := by simp
  rw [deref, hslots, Option.join_eq_some_iff]
  simp only [pointers, List.get_eq_getElem, List.getElem_map, List.getElem_range', Nat.one_mul]
  rw [hlength, List.getElem?_append_right (Nat.le_add_right _ _), Nat.add_sub_cancel_left,
    List.getElem?_map, List.getElem?_eq_getElem hi', Option.map_some]

end Image

namespace Run

/-- Objects that are evaluated after others find the machine as these left it. -/
theorem exec_evaluateAll_append {evaluate : Pointer → Run Unit} {ps : List Pointer} {m m' : Machine}
    (h : exec (evaluateAll evaluate ps) m = (.ok (), m')) (rest : List Pointer) :
    exec (evaluateAll evaluate (ps ++ rest)) m = exec (evaluateAll evaluate rest) m' := by
  induction ps generalizing m with
  | nil =>
    cases h
    rfl
  | cons p ps ih =>
    obtain ⟨_, m₁, hfirst, hrest⟩ := exists_of_exec_bind_ok h
    have hturn := exec_of_exec_onFailure_ok hfirst
    exact (exec_bind_ok (exec_onFailure_ok hturn) _).trans (ih hrest)

/-- Running an object evaluates `ts` in order. Wherever it is, the pointers that it still has to go
through lead to the rest of `ts`. -/
def Sequences (evaluate : Pointer → Run Unit) (p : Pointer) (ts : List Tree) (m : Machine) : Prop :=
  ∃ ps m₁, exec (children p) m = (.ok ps, m₁) ∧
    ∀ i m₂, exec (evaluateAll evaluate (ps.take i)) m₁ = (.ok (), m₂) →
      exec (sequence evaluate p) m = exec (evaluateAll evaluate (ps.drop i)) m₂ ∧
      (ps.drop i).map (fun q => (exec (bytes q) m₂).1) = (ts.drop i).map fun t => .ok t.encode

variable {c : Nat} {v : Image} {m : Machine} {p : Pointer} {q : Place}

theorem map_bytes_of_refers {ps : List Pointer} {qs : List Place} (hm : m.Represents c v)
    (h : v.Refers ps qs) :
    ps.map (fun p => (exec (bytes p) m).1) = qs.map fun q => .ok q.tree.encode := by
  obtain ⟨kept, free, hl⟩ := hm
  induction h with
  | nil => rfl
  | cons hp _ ih => rw [List.map_cons, List.map_cons, ih, hl.exec_bytes hp]

theorem sequences_children {evaluate : Pointer → Run Unit} (hf : Attuned c c evaluate evaluate)
    (hm : m.Represents c v) (hp : v.deref p = some q) :
    Sequences evaluate p q.tree.children m := by
  obtain ⟨m₁, he₁, hm₁⟩ := yields_children hp m hm
  refine ⟨_, m₁, he₁, fun i m₂ he₂ => ⟨?_, ?_⟩⟩
  · rw [sequence, exec_bind_ok he₁, ← exec_evaluateAll_append he₂, List.take_append_drop]
  · obtain ⟨kept, free, hl⟩ := hm
    have hs : (v.holdAll q.children).slots =
        pending v.slots 0 (q.children.take i ++ q.children.drop i) := by
      rw [List.take_append_drop]
      cases q.children <;> simp [Image.holdAll, pending]
    change exec (evaluateAll evaluate ((Image.pointers v.slots.length q.children).take i)) m₁ = _ at he₂
    change ((Image.pointers v.slots.length q.children).drop i).map _ = _
    rw [Image.take_pointers] at he₂
    have hall := preserves_evaluateAll (Image.lasting_sound False) (E := Failure.IsDue False)
      (.of_isExpected rfl) hl.valid.trimmed 0 _ _ (fun r _ w p' hw hp' => (hf w p' r hp').preserves hw)
      hs (fun h => h.elim)
    obtain ⟨o, m₂', v₂, he₂', hm₂, hleft, -⟩ := hall m₁ m₁ hm₁ hm₁
    rw [Nat.add_zero, he₂] at he₂'
    cases he₂'
    have hr := Image.refers_pending (congrArg Setting.slots hleft.1)
    rw [Image.drop_pointers, ← Place.map_tree_children, ← List.map_drop, List.map_map]
    rw [Nat.zero_add] at hr
    exact map_bytes_of_refers hm₂ hr

end Run

namespace Machine

open Run

variable {m : Machine} {c : Nat} {p : Pointer}

/-- However a machine got where it is, a pointer keeps its bytes under all further actions that do
not give it back, and running its object goes through the children that it had at the start. -/
theorem bytes_stable_of_acts (hc : c < Word.bound Heap.slotSize) {before : List Action}
    (h : Acts (ofCapacity c) before m) (hp : (m.registry.position? p).isSome) :
    ∃ t : Tree, exec (bytes p) m = (.ok t.encode, m) ∧
      (∀ after m', Acts m after m' → .release p ∉ after → exec (bytes p) m' = (.ok t.encode, m')) ∧
      ∀ passes n, Sequences (Evaluator.ofRoom Command.run passes n).evaluate p t.children m := by
  obtain ⟨v, hm, -⟩ := h.exists_represents (represents_ofCapacity hc)
  obtain ⟨kept, free, hl⟩ := hm
  obtain ⟨q, hp⟩ := hl.exists_deref hp
  refine ⟨q.tree, hl.exec_bytes hp, fun after m' hacts hkeep => ?_, fun passes n => ?_⟩
  · obtain ⟨v', ⟨kept', free', hl'⟩, hderef⟩ := hacts.exists_represents hl.represents
    exact hl'.exec_bytes (hderef p q hkeep hp)
  · exact sequences_children (Evaluator.attuned_ofRoom_run c passes n).evaluate hl.represents hp

/-- A program that overwrites what it was stored as, and then is removed, is what it was. -/
theorem bytes_stable_overwriting : ∃ m m' t, Acts (ofCapacity 64) binding m ∧
    Acts m [.execute 1 ⟨0⟩, .purge "X", .collect] m' ∧
    exec (bytes ⟨0⟩) m = (.ok (Tree.encode t), m) ∧ exec (bytes ⟨0⟩) m' = (.ok t.encode, m') := by
  obtain ⟨m, hm, hp⟩ := acts_binding
  have hrest : Acts m [.execute 1 ⟨0⟩, .purge "X", .collect] _ :=
    .cons ⟨by simpa [Action.operands] using hp, trivial⟩ <| .cons ⟨by simp [Action.operands], trivial⟩ <|
      .cons ⟨by simp [Action.operands], trivial⟩ <| .nil _
  obtain ⟨t, hbefore, hafter, -⟩ := bytes_stable_of_acts (by decide) hm hp
  exact ⟨m, _, t, hm, hrest, hbefore, hafter _ _ hrest (by simp)⟩

end Machine
end RpnMachine
