import RpnMachine.Proofs.Run.Bare

/-! A counted loop removes its two bounds and then runs its body as often as the bounds and the step say,
once at least. The counter is kept beside the stack, so the body may do what it likes to the stack. -/
namespace RpnMachine

namespace Run

variable {m m' : Machine} {i : Int}

def times (act : Run Unit) : Nat → Run Unit
  | 0 => pure ()
  | n + 1 => do
    act
    times act n

def turn (evaluate : Pointer → Run Unit) (clauses : List Pointer) : Run Unit := do
  checkInterrupt
  clauses.forM (sequence evaluate)

def pass (evaluate : Pointer → Run Unit) (stepped : Bool) (clauses : List Pointer) : Run Unit := do
  turn evaluate clauses
  if stepped then shed

def unbound (p : Pointer) : Run (List Pointer) := do
  let clauses ← children p
  shed
  shed
  return clauses

/-- A loop without its counter: the bounds are removed, and then the body is run `n` times. -/
def unrolled (evaluate : Pointer → Run Unit) (stepped : Bool) (n : Nat) (p : Pointer) : Run Unit := do
  let clauses ← unbound p
  holdingAll clauses (times (pass evaluate stepped clauses) n)

/-- Each of the first `n` passes leaves the step `k` on top, if it gets that far. -/
def Steps (k : Int) (evaluate : Pointer → Run Unit) (clauses : List Pointer) (n : Nat) (m : Machine) :
    Prop :=
  ∀ i < n, ∀ m₁ m₂, exec (times (pass evaluate true clauses) i) m = (.ok (), m₁) →
    exec (turn evaluate clauses) m₁ = (.ok (), m₂) →
    (exec (acquiring (peek 0) value) m₂).1 = .ok (.integer k)

/-- How many passes there are with the counter at `i`: one, and one more for each step that does not go
past the end `e`. -/
def remaining (e i k : Int) : Nat := 1 + ((e - i).fdiv k).toNat

variable {e k : Int} {n passes : Nat} {body : Pointer} {clauses : List Pointer}
  {evaluate : Pointer → Run Unit} {stepped : Bool}

theorem Steps.tail (h : Steps k evaluate clauses (n + 1) m)
    (hpass : exec (pass evaluate true clauses) m = (.ok (), m')) : Steps k evaluate clauses n m' := by
  intro i hi m₁ m₂ htimes hturn
  refine h (i + 1) (by omega) m₁ m₂ ?_ hturn
  rw [times, exec_bind_ok hpass, htimes]

/-- The counter is past the end. -/
def Past (e i k : Int) : Prop := if k < 0 then i < e else e < i

theorem one_le_fdiv_iff (hk : k ≠ 0) (j : Int) : 1 ≤ j.fdiv k ↔ if k < 0 then j ≤ k else k ≤ j := by
  split_ifs with hneg
  · rw [← Int.neg_fdiv_neg, Int.fdiv_eq_ediv_of_nonneg _ (by omega),
      Int.le_ediv_iff_mul_le (by omega)]
    omega
  · rw [Int.fdiv_eq_ediv_of_nonneg _ (by omega), Int.le_ediv_iff_mul_le (by omega)]
    omega

theorem past_iff (hk : k ≠ 0) : Past e (i + k) k ↔ (e - i).fdiv k < 1 := by
  rw [← not_le, one_le_fdiv_iff hk, Past]
  split_ifs <;> omega

theorem remaining_of_past (hk : k ≠ 0) (h : Past e (i + k) k) : remaining e i k = 1 := by
  rw [past_iff hk] at h
  rw [remaining]
  omega

theorem remaining_of_not_past (hk : k ≠ 0) (h : ¬Past e (i + k) k) :
    remaining e i k = remaining e (i + k) k + 1 := by
  rw [past_iff hk] at h
  have hnext : (e - (i + k)).fdiv k = (e - i).fdiv k - 1 := by
    rw [← Int.sub_mul_fdiv_right _ _ hk]
    congr 1
    omega
  rw [remaining, remaining, hnext]
  omega

instance : Decidable (Past e i k) := inferInstanceAs (Decidable (if k < 0 then i < e else e < i))

/-- A counter that is not past the end has 64 bits as before. -/
theorem natAbs_lt_of_not_past (he : e.natAbs < Word.bound 8) (hi : i.natAbs < Word.bound 8)
    (h : ¬Past e (i + k) k) : (i + k).natAbs < Word.bound 8 := by
  rw [Past] at h
  split_ifs at h <;> omega

/-- With one clause, the body of a loop, a turn is what a pass begins with. -/
theorem turn_singleton : turn evaluate [body] = (do checkInterrupt; sequence evaluate body) := by
  simp [turn]

/-- A pass that leaves the step `k` goes on with the counter `i + k`, if it goes on. -/
theorem exec_count_pass (hi : i.natAbs < Word.bound 8) (hk : k.natAbs < Word.bound 8)
    (hstep : if stepped then m'.heap.Holds 0 (.integer k) else k = 1)
    (hturn : exec (turn evaluate [body]) m = (.ok (), m')) :
    ∃ m₁, exec (pass evaluate stepped [body]) m = (.ok (), m₁) ∧
      exec (do checkInterrupt; count.pass evaluate stepped body (.integer e) (.integer i)) m =
        (.ok (if Past e (i + k) k then none else some (.integer (i + k))), m₁) := by
  have hadd : Number.add (.integer i) (.integer k) = .integer (i + k) := by
    rw [Number.add, Number.exactly, if_pos (Number.fits_add hi hk)]
  have hpast : (Number.compare? (.integer (i + k)) (.integer e) =
      some (if (Number.integer k).isNegative then Ordering.lt else Ordering.gt)) ↔ Past e (i + k) k := by
    simp only [Number.compare?, Number.isNegative, Past, Option.some.injEq, decide_eq_true_eq]
    split_ifs
    · exact compare_lt_iff_lt
    · exact compare_gt_iff_gt
  refine ⟨if stepped then m'.pare else m', ?_, ?_⟩
  · rw [pass, exec_bind_ok hturn]
    cases stepped with
    | true => exact exec_shed hstep.bounded hstep.depth
    | false => rfl
  · have hrun : (do checkInterrupt; count.pass evaluate stepped body (.integer e) (.integer i)) = (do
        turn evaluate [body]
        let step ← if stepped then acquiring pop number else pure (.integer 1)
        let counter := Number.add (.integer i) step
        return if counter.compare? (.integer e) = some (if step.isNegative then Ordering.lt else .gt)
          then none else some counter) := by
      simp only [turn_singleton, count.pass, bind_assoc]
    rw [hrun, exec_bind_ok hturn]
    cases stepped with
    | true =>
      refine (exec_bind_ok (exec_pop_number hstep) _).trans ?_
      simp only [hadd, hpast, exec_pure, if_true]
    | false =>
      cases hstep
      refine (exec_bind_ok (exec_pure (Number.integer 1) m') _).trans ?_
      simp only [hadd, hpast, exec_pure, Bool.false_eq_true, if_false]

theorem exec_iterate_succ {σ : Type} (step : σ → Run (Option σ)) (n : Nat) (s : σ) (m : Machine) :
    exec (iterate step (n + 1) s) m =
      match exec (do checkInterrupt; step s) m with
      | (.ok none, m') => (.ok (), m')
      | (.ok (some s'), m') => exec (iterate step n s') m'
      | (.error f, m') => (.error f, m') := by
  rw [iterate, ← bind_assoc, exec_bind]
  rcases exec (do checkInterrupt; step s) m with ⟨_ | _ | _, _⟩ <;> rfl

/-- The counter of a loop counts the passes that remain. A step is known only where the body ran to its
end, so the bound on the step is read off the object that it left. -/
theorem exec_iterate_count (hk : k ≠ 0) (hi : i.natAbs < Word.bound 8) (he : e.natAbs < Word.bound 8)
    (hstep : if stepped then Steps k evaluate [body] (remaining e i k) m else k = 1)
    (hn : remaining e i k ≤ passes) :
    exec (iterate (count.pass evaluate stepped body (.integer e)) passes (.integer i)) m =
      exec (times (pass evaluate stepped [body]) (remaining e i k)) m := by
  induction passes generalizing i m with
  | zero => simp [remaining] at hn
  | succ passes ih =>
    obtain ⟨r, hr⟩ : ∃ r, remaining e i k = r + 1 := ⟨((e - i).fdiv k).toNat, Nat.add_comm _ _⟩
    rw [exec_iterate_succ, hr, times]
    cases hturn : exec (turn evaluate [body]) m with
    | mk o m' =>
      cases o with
      | error f =>
        have hpass : exec (pass evaluate stepped [body]) m = (.error f, m') := exec_bind_error hturn _
        have hcount : exec (do
            checkInterrupt
            count.pass evaluate stepped body (.integer e) (.integer i)) m = (.error f, m') := by
          unfold count.pass
          rw [← bind_assoc, ← turn_singleton]
          exact exec_bind_error hturn _
        rw [hcount, exec_bind_error hpass]
      | ok u =>
        have hholds : if stepped then m'.heap.Holds 0 (.integer k) else k = 1 := by
          cases stepped with
          | true => exact holds_of_peek (hstep 0 (by omega) m m' rfl hturn)
          | false => exact hstep
        have hbound : k.natAbs < Word.bound 8 := by
          cases stepped with
          | true => exact hholds.natAbs_lt
          | false =>
            cases hholds
            decide
        obtain ⟨m₁, hpass, hcount⟩ := exec_count_pass (e := e) hi hbound hholds hturn
        rw [hcount, exec_bind_ok hpass]
        split_ifs with hpast
        · have : r = 0 := by
            have := remaining_of_past hk hpast
            omega
          rw [this]
          rfl
        · have hrest : r = remaining e (i + k) k := by
            have := remaining_of_not_past hk hpast
            omega
          rw [hrest]
          apply ih (natAbs_lt_of_not_past he hi hpast)
          · cases stepped with
            | true =>
              rw [hr, hrest] at hstep
              exact hstep.tail hpass
            | false => exact hstep
          · omega

/-- The bounds are read before they are removed. -/
theorem exec_count {s : Int} (hs : m.heap.Holds 1 (.integer s)) (he : m.heap.Holds 0 (.integer e)) :
    exec (count evaluate passes stepped body) m =
      exec (iterate (count.pass evaluate stepped body (.integer e)) passes (.integer s)) m.pare.pare := by
  have hargs : ∀ m₁ : Machine, m₁.heap = m.heap → exec (args 2) m₁ = (.ok (), m₁) := by
    intro m₁ hheap
    apply exec_args_of_le (d := m.heap.depth) _ hs.depth
    rw [hheap, hs.bounded.depth?_eq]
  have hdrop : m.touch.touch.heap.drop? 2 = some m.pare.pare.heap := by
    show m.heap.drop? 2 = some ((m.heap.below 1).below 1)
    rw [hs.bounded.drop?_eq hs.depth, Heap.below_below]
  have hdiscard : exec (discard 2) m.touch.touch = (.ok (), m.pare.pare) := by
    rw [discard, exec_bind_ok (hargs m.touch.touch rfl), exec_updateHeap_some hdrop]
    rfl
  rw [count, exec_bind_ok (hargs m rfl), exec_bind_ok (exec_peek_number he),
    exec_bind_ok (exec_peek_number (m := m.touch) hs), exec_bind_ok hdiscard]

theorem exec_unbound {s : Int} {p : Pointer} {m₁ : Machine}
    (hchildren : exec (children p) m = (.ok clauses, m₁)) (hs : m₁.heap.Holds 1 (.integer s)) :
    exec (unbound p) m = (.ok clauses, m₁.pare.pare) := by
  have htwo : 0 < m₁.heap.depth := Nat.zero_lt_of_lt hs.depth
  have hone : 0 < m₁.pare.heap.depth := by
    have := hs.depth
    rw [Machine.pare, Heap.depth_below_one]
    omega
  rw [unbound, exec_bind_ok hchildren, exec_bind_ok (exec_shed hs.bounded htwo),
    exec_bind_ok (exec_shed (hs.bounded.below htwo) hone)]
  rfl

theorem exists_exec_children {p : Pointer} {c : Composite} {t : Tree}
    (hp : (exec (bytes p) m).1 = .ok (Tree.composite c [t]).encode) :
    ∃ b m₁, exec (children p) m = (.ok [b], m₁) ∧ m₁.heap = m.heap := by
  obtain ⟨start, hstart, hobject⟩ := exists_position_of_bytes hp
  have hfits := Memory.fits_of_object? hobject
  rw [children, exec_bind_ok (exec_position_of_some hstart),
    exec_bind_ok (Machine.exec_bytes_eq hstart hobject), Tree.children?_encode hfits]
  exact ⟨_, _, rfl, rfl⟩

end Run

open Run Evaluator

variable {m : Machine} {p : Pointer} {levels passes : Nat} {commands : Repertoire}

theorem evaluate_unrolled {c : Control} {t : Tree} {s e k : Int} (stepped : Bool)
    (hcontrol : c = if stepped then .startStep else .startNext)
    (hp : (exec (bytes p) m).1 = .ok (Tree.composite (.control c) [t]).encode)
    (hs : (exec (acquiring (peek 1) value) m).1 = .ok (.integer s))
    (he : (exec (acquiring (peek 0) value) m).1 = .ok (.integer e)) (hk : k ≠ 0)
    (hstep : if stepped then ∀ clauses m₀, exec (unbound p) m = (.ok clauses, m₀) →
        Steps k (ofRoom commands passes levels).evaluate clauses (remaining e s k) m₀ else k = 1)
    (hn : remaining e s k ≤ passes) :
    exec ((ofRoom commands passes (levels + 1)).evaluate p) m =
      exec (unrolled (ofRoom commands passes levels).evaluate stepped (remaining e s k) p) m := by
  obtain ⟨b, m₁, hchildren, hheap⟩ := exists_exec_children hp
  have hs : m₁.heap.Holds 1 (.integer s) := hheap ▸ holds_of_peek hs
  have he : m₁.heap.Holds 0 (.integer e) := hheap ▸ holds_of_peek he
  have hunbound := exec_unbound hchildren hs
  have hkind : exec (kind p) m = (.ok (.composite (.control c)), m) := by
    obtain ⟨start, hstart, hobject⟩ := exists_position_of_bytes hp
    have hkind := Tree.kind?_encode (.composite (.control c) [t]) []
    rw [List.append_nil] at hkind
    rw [kind, exec_bind_ok (Machine.exec_bytes_eq hstart hobject), hkind]
    rfl
  have hcount : exec (count (ofRoom commands passes levels).evaluate passes stepped b) m₁ =
      exec (times (pass (ofRoom commands passes levels).evaluate stepped [b]) (remaining e s k))
        m₁.pare.pare := by
    rw [exec_count hs he]
    apply exec_iterate_count hk hs.natAbs_lt he.natAbs_lt _ hn
    cases stepped with
    | true => exact hstep _ _ hunbound
    | false => exact hstep
  rw [unrolled, exec_bind_ok hunbound, holdingAll, ← exec_ensuring_congr hcount]
  show exec (evaluateNext commands passes (ofRoom commands passes levels) p) m = _
  rw [evaluateNext, exec_bind_ok hkind]
  show exec (Run.control (ofRoom commands passes levels).evaluate passes c p) m = _
  rw [Run.control, exec_bind_ok hchildren, holdingAll]
  cases stepped <;> cases hcontrol <;> rfl

/-- With a level of nesting left, START body NEXT removes its bounds `s` and `e` and runs its body
`max 1 (e - s + 1)` times; START body STEP, whose passes leave the step `k`, as often as steps from `s`
reach `e`, and once more. With no level left, neither does anything. -/
theorem evaluate_counted {c : Control} {t : Tree} {s e : Int}
    (hp : (exec (bytes p) m).1 = .ok (Tree.composite (.control c) [t]).encode)
    (hs : (exec (acquiring (peek 1) value) m).1 = .ok (.integer s))
    (he : (exec (acquiring (peek 0) value) m).1 = .ok (.integer e)) :
    (c = .startNext → ∀ n : Nat, (n : Int) = max 1 (e - s + 1) → n ≤ passes →
      exec ((ofRoom commands passes (levels + 1)).evaluate p) m =
        exec (unrolled (ofRoom commands passes levels).evaluate false n p) m) ∧
    (c = .startStep → ∀ (k : Int) (n : Nat), k ≠ 0 → (n : Int) = 1 + max 0 ((e - s).fdiv k) →
      n ≤ passes →
      (∀ clauses m₀, exec (unbound p) m = (.ok clauses, m₀) →
        Steps k (ofRoom commands passes levels).evaluate clauses n m₀) →
      exec ((ofRoom commands passes (levels + 1)).evaluate p) m =
        exec (unrolled (ofRoom commands passes levels).evaluate true n p) m) ∧
    exec ((ofRoom commands passes 0).evaluate p) m = (.error (.error .tooDeep), m) := by
  refine ⟨fun hc n hn hpasses => ?_, fun hc k n hk hn hpasses hsteps => ?_, rfl⟩
  · obtain rfl : n = remaining e s 1 := by
      rw [remaining, Int.fdiv_one]
      omega
    exact evaluate_unrolled false hc hp hs he one_ne_zero rfl hpasses
  · obtain rfl : n = remaining e s k := by
      rw [remaining]
      omega
    exact evaluate_unrolled true hc hp hs he hk hsteps hpasses

/-- A loop whose body is the number three, with its bounds on the stack. -/
def bounded (c : Control) (s e : UInt64) : Machine :=
  [.make (Tree.composite (.control c) [.composite .program [.integer false 3]]).recipe,
    .make (Tree.integer false s).recipe, .push ⟨1⟩, .make (Tree.integer false e).recipe, .push ⟨2⟩].foldl
    Machine.act (.ofCapacity 64)

/-- From five to seven there are three passes, and from one to seven in steps of three as well. -/
theorem evaluate_three_times :
    exec ((ofRoom Command.run 3 2).evaluate ⟨0⟩) (bounded .startNext 5 7) =
        exec (unrolled (ofRoom Command.run 3 1).evaluate false 3 ⟨0⟩) (bounded .startNext 5 7) ∧
      exec ((ofRoom Command.run 3 2).evaluate ⟨0⟩) (bounded .startStep 1 7) =
        exec (unrolled (ofRoom Command.run 3 1).evaluate true 3 ⟨0⟩) (bounded .startStep 1 7) := by
  have hnext : (exec (bytes ⟨0⟩) (bounded .startNext 5 7)).1 =
        .ok (Tree.composite (.control .startNext) [.composite .program [.integer false 3]]).encode ∧
      (exec (acquiring (peek 1) value) (bounded .startNext 5 7)).1 = .ok (.integer 5) ∧
      (exec (acquiring (peek 0) value) (bounded .startNext 5 7)).1 = .ok (.integer 7) := by
    decide +kernel
  have hstep : (exec (bytes ⟨0⟩) (bounded .startStep 1 7)).1 =
        .ok (Tree.composite (.control .startStep) [.composite .program [.integer false 3]]).encode ∧
      (exec (acquiring (peek 1) value) (bounded .startStep 1 7)).1 = .ok (.integer 1) ∧
      (exec (acquiring (peek 0) value) (bounded .startStep 1 7)).1 = .ok (.integer 7) := by
    decide +kernel
  refine ⟨(evaluate_counted hnext.1 hnext.2.1 hnext.2.2).1 rfl 3 (by decide) (by decide),
    (evaluate_counted hstep.1 hstep.2.1 hstep.2.2).2.1 rfl 3 3 (by decide) (by decide) (by decide)
    ?_⟩
  intro clauses m₀ hunbound i hi m₁ m₂ htimes hturn
  obtain ⟨hclauses, hleaves⟩ : (exec (unbound ⟨0⟩) (bounded .startStep 1 7)).1 = .ok [⟨3⟩] ∧
      ∀ i < 3, (exec (acquiring (peek 0) value)
        (exec (turn (ofRoom Command.run 3 1).evaluate [⟨3⟩])
          (exec (times (pass (ofRoom Command.run 3 1).evaluate true [⟨3⟩]) i)
            (exec (unbound ⟨0⟩) (bounded .startStep 1 7)).2).2).2).1 = .ok (.integer 3) := by
    decide +kernel
  rw [hunbound] at hclauses hleaves
  cases hclauses
  simpa only [htimes, hturn] using hleaves i hi

/-- With all levels of nesting taken, the loop fails where removing its bounds and running its empty body
once does not. -/
theorem not_evaluate_counted_without_levels : ∃ m : Machine,
    (exec (bytes ⟨0⟩) m).1 = .ok (Tree.composite (.control .startNext) [.composite .program []]).encode ∧
      (exec (acquiring (peek 1) value) m).1 = .ok (.integer 1) ∧
      (exec (acquiring (peek 0) value) m).1 = .ok (.integer 1) ∧
      (exec (evaluate 1 ⟨0⟩) m).1 = .error (.error .tooDeep) ∧
      (exec (unrolled (evaluate 1) false 1 ⟨0⟩) m).1 = .ok () :=
  ⟨[.make (Tree.composite (.control .startNext) [.composite .program []]).recipe,
    .make (Tree.integer false 1).recipe, .push ⟨1⟩, .push ⟨1⟩, .nest 256].foldl
    Machine.act (.ofCapacity 64), by decide +kernel⟩

end RpnMachine
