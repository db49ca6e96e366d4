import RpnMachine.Eval.Evaluator
import RpnMachine.Proofs.Run.Detached.Machine

/-! Commands that make a number or a text of their arguments do not depend on the levels that are
taken. -/
namespace RpnMachine

namespace Number

theorem checked_ne_exhausted (i : Int) : checked i ≠ .error .exhausted := by
  unfold checked
  split_ifs <;> simp

theorem div_ne_exhausted (x y : Number) : x.div y ≠ .error .exhausted := by
  unfold div
  split_ifs
  · simp
  · split
    · split_ifs
      · exact checked_ne_exhausted _
      · simp
    · simp

theorem neg_ne_exhausted (x : Number) : x.neg ≠ .error .exhausted := by
  cases x with
  | integer i => exact checked_ne_exhausted _
  | decimal x => simp [neg]

theorem abs_ne_exhausted (x : Number) : x.abs ≠ .error .exhausted := by
  cases x with
  | integer i => exact checked_ne_exhausted _
  | decimal x => simp [abs]

end Number

namespace Run

variable {α : Type}

theorem detached_checkInterrupt : Detached checkInterrupt := by
  apply Detached.get fun _ _ => rfl
  intro m
  split_ifs
  · exact .fail _
  · exact .pure _

theorem detached_number (p : Pointer) : Detached (number p) := by
  apply (detached_value p).bind
  intro x
  split
  · exact .pure _
  · exact .fail _

theorem detached_truth (p : Pointer) : Detached (truth p) := by
  apply (detached_value p).bind
  intro x
  split
  · exact .pure _
  · exact .fail _

theorem detached_natural (p : Pointer) : Detached (natural p) := by
  apply (detached_value p).bind
  intro x
  split
  · exact .pure _
  · exact .fail _

theorem detached_replace (n : Nat) (p : Pointer) : Detached (replace n p) :=
  (detached_put _ p).bind fun _ => detached_discard _

theorem detached_making {r : Recipe} {act : Pointer → Run α} (h : ∀ p, Detached (act p)) :
    Detached (making r act) := .acquiring (detached_make r) h

theorem detached_unary {op : Number → Except Failure Number}
    (hop : ∀ x, op x ≠ .error .exhausted) : Detached (unary op) := by
  apply (detached_args 1).bind
  intro _
  apply (Detached.acquiring (detached_peek 0) detached_number).bind
  intro x
  apply (Detached.ofOutcome (hop x)).bind
  intro y
  apply (Detached.ofExcept _).bind
  intro r
  exact detached_making (detached_replace 1)

theorem detached_binary {op : Number → Number → Except Failure Number}
    (hop : ∀ x y, op x y ≠ .error .exhausted) : Detached (binary op) := by
  apply (detached_args 2).bind
  intro _
  apply (Detached.acquiring (detached_peek 1) detached_number).bind
  intro x
  apply (Detached.acquiring (detached_peek 0) detached_number).bind
  intro y
  apply (Detached.ofOutcome (hop x y)).bind
  intro z
  apply (Detached.ofExcept _).bind
  intro r
  exact detached_making (detached_replace 2)

theorem detached_order (p q : Pointer) : Detached (order p q) := by
  apply (detached_value p).bind
  intro x
  apply (detached_value q).bind
  intro y
  split
  · exact .pure _
  · apply (detached_number p).bind
    intro x
    exact (detached_number q).bind fun _ => .pure _

theorem detached_same (p q : Pointer) : Detached (same p q) := by
  have hnumber : ∀ bytes, Detached (same.number? bytes) := by
    intro bytes
    apply (Detached.ofOption _).bind
    intro x
    split <;> exact .pure _
  apply (detached_bytes p).bind
  intro a
  apply (detached_bytes q).bind
  intro b
  apply (hnumber a).bind
  intro x
  apply (hnumber b).bind
  intro y
  split <;> exact .pure _

theorem detached_compareWith {test : Pointer → Pointer → Run Bool}
    (htest : ∀ p q, Detached (test p q)) : Detached (compareWith test) := by
  apply (detached_args 2).bind
  intro _
  apply (Detached.acquiring (detached_peek 1) fun p =>
    Detached.acquiring (detached_peek 0) (htest p)).bind
  intro holds
  exact detached_making (detached_replace 2)

theorem detached_ordered (test : Ordering → Bool) : Detached (ordered test) := by
  apply detached_compareWith
  intro p q
  exact (detached_order p q).bind fun _ => .pure _

theorem detached_logic (op : Bool → Bool → Bool) : Detached (logic op) := by
  apply (detached_args 2).bind
  intro _
  apply (Detached.acquiring (detached_peek 1) detached_truth).bind
  intro x
  apply (Detached.acquiring (detached_peek 0) detached_truth).bind
  intro y
  exact detached_making (detached_replace 2)

theorem detached_negate : Detached negate := by
  apply (detached_args 1).bind
  intro _
  apply (Detached.acquiring (detached_peek 0) detached_truth).bind
  intro x
  exact detached_making (detached_replace 1)

theorem detached_measure : Detached measure := by
  apply (detached_args 1).bind
  intro _
  apply Detached.acquiring (detached_peek 0)
  intro p
  apply (detached_value p).bind
  intro x
  split
  · exact detached_making (detached_put 0)
  · exact detached_making (detached_put 0)
  · exact .fail_bind _ _

theorem detached_describe : Detached describe := by
  apply (detached_args 1).bind
  intro _
  apply (Detached.acquiring (detached_peek 0) detached_toText).bind
  intro text
  exact (detached_put 0 text).holding

theorem detached_mem : Detached mem := by
  apply detached_collect.bind
  intro _
  exact Detached.sample.bind fun _ => detached_making detached_push

end Run

end RpnMachine
