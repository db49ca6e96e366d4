import RpnMachine.Proofs.Run.Detached.Values

/-! What a machine does apart from reading and evaluation: all of it is the same whatever the number of
levels that are taken, and leaves that number alone. -/
namespace RpnMachine

namespace Run

theorem detached_pick : Detached pick := by
  apply (detached_args 1).bind
  intro _
  apply (Detached.acquiring (detached_peek 0) detached_natural).bind
  intro n
  dsimp only
  split_ifs
  · exact .fail_bind _ _
  · apply (detached_args _).bind
    intro _
    exact .acquiring (detached_peek n) (detached_put 0)

theorem detached_dropN : Detached dropN := by
  apply (detached_args 1).bind
  intro _
  apply (Detached.acquiring (detached_peek 0) detached_natural).bind
  intro n
  apply (detached_args _).bind
  intro _
  exact detached_discard _

theorem detached_dup2 : Detached dup2 := by
  apply (detached_args 2).bind
  intro _
  apply (Detached.acquiring (detached_peek 1) detached_push).bind
  intro _
  apply Detached.acquiring (detached_peek 1)
  intro p
  exact .onFailure (detached_discard 1) (detached_push p)

theorem detached_copyLevels (n : Nat) : Detached (copyLevels n) := by
  induction n with
  | zero => exact .pure ()
  | succ n ih =>
    apply (Detached.acquiring (detached_peek _) detached_scratchAppendObject).bind
    intro _
    exact ih

theorem detached_toList : Detached toList := by
  apply (detached_args 1).bind
  intro _
  apply (Detached.acquiring (detached_peek 0) detached_natural).bind
  intro n
  apply (detached_args _).bind
  intro _
  apply detached_scratchMark.bind
  intro mark
  apply (Detached.onFailure (detached_scratchRelease mark) (detached_copyLevels n)).bind
  intro _
  apply Detached.acquiring (detached_makeFromScratch _ mark)
  intro list
  exact (detached_put n list).bind fun _ => detached_discard n

theorem detached_pushAll (pushed : Nat) (ps : List Pointer) : Detached (pushAll pushed ps) := by
  induction ps generalizing pushed with
  | nil => exact .pure ()
  | cons p ps ih =>
    apply (Detached.onFailure (detached_discard pushed) (detached_push p)).bind
    intro _
    exact ih _

theorem detached_fromList : Detached fromList := by
  apply (detached_args 1).bind
  intro _
  apply Detached.acquiring (detached_peek 0)
  intro list
  apply (detached_kind list).bind
  intro k
  dsimp only
  split_ifs
  · exact .fail_bind _ _
  · apply (detached_children list).bind
    intro elements
    apply Detached.holdingAll
    apply detached_making
    intro count
    apply (detached_pushAll 0 _).bind
    intro _
    apply (detached_roll _).bind
    intro _
    exact detached_discard 1

theorem detached_nameOf_first (ps : List Pointer) : Detached (holdingAll ps do
    match ps with
    | [] => fail (.badArgument .name)
    | p :: _ =>
      match ← value p with
      | .symbol name => return name
      | _ => fail (.badArgument .name)) := by
  apply Detached.holdingAll
  cases ps with
  | nil => exact .fail _
  | cons p ps =>
    apply (detached_value p).bind
    intro x
    split
    · exact .pure _
    · exact .fail _

theorem detached_nameOf (p : Pointer) : Detached (nameOf p) := by
  apply (detached_kind p).bind
  intro k
  split
  · exact (detached_children p).bind detached_nameOf_first
  · apply (detached_clone p).bind
    intro p'
    exact (Detached.pure [p']).bind detached_nameOf_first

theorem detached_sto : Detached sto := by
  apply (detached_args 2).bind
  intro _
  apply (Detached.acquiring (detached_peek 0) detached_nameOf).bind
  intro name
  apply (Detached.acquiring (detached_peek 1) (detached_store name)).bind
  intro _
  exact detached_discard 2

theorem detached_rcl : Detached rcl := by
  apply (detached_args 1).bind
  intro _
  apply (Detached.acquiring (detached_peek 0) detached_nameOf).bind
  intro name
  apply (detached_lookup name).bind
  intro found
  cases found with
  | some p => exact (detached_put 0 p).holding
  | none => exact .fail _

theorem detached_purgeName : Detached purgeName := by
  apply (detached_args 1).bind
  intro _
  apply (Detached.acquiring (detached_peek 0) detached_nameOf).bind
  intro name
  apply (detached_purge name).bind
  intro found
  split_ifs
  · exact detached_discard 1
  · exact .fail _

end Run

open Run

/-- Every command but EVAL. -/
theorem Command.detached_run (execute : Pointer → Run Unit) {c : Command} (hc : c ≠ .eval) :
    Detached (c.run execute) := by
  cases c with
  | dup => exact .acquiring (detached_peek 0) detached_push
  | drop => exact detached_discard 1
  | swap => exact detached_roll 2
  | copyOver => exact .acquiring (detached_peek 1) detached_push
  | rot => exact detached_roll 3
  | depth => exact detached_depth.bind fun _ => detached_making detached_push
  | clear => exact detached_clear
  | pick => exact detached_pick
  | dropN => exact detached_dropN
  | dup2 => exact detached_dup2
  | drop2 => exact detached_discard 2
  | add | sub | mul =>
    apply detached_binary
    intro x y h
    cases h
  | div => exact detached_binary Number.div_ne_exhausted
  | neg => exact detached_unary Number.neg_ne_exhausted
  | abs => exact detached_unary Number.abs_ne_exhausted
  | eq => exact detached_compareWith detached_same
  | ne =>
    apply detached_compareWith
    intro p q
    exact (detached_same p q).bind fun _ => .pure _
  | lt | gt | le | ge => exact detached_ordered _
  | and | or => exact detached_logic _
  | not => exact detached_negate
  | eval => exact absurd rfl hc
  | sto => exact detached_sto
  | rcl => exact detached_rcl
  | purge => exact detached_purgeName
  | toList => exact detached_toList
  | fromList => exact detached_fromList
  | size => exact detached_measure
  | toText => exact detached_describe
  | mem => exact detached_mem
  | gc => exact detached_collect.bind fun _ => .pure _

end RpnMachine
