import RpnMachine.Proofs.Machine.Drawing
import RpnMachine.Proofs.Run.Detached.Basic

/-! What a machine does on its own does not depend on the levels that are taken: pointers, memory, the
stack, the directory, and texts of objects. -/
namespace RpnMachine

namespace Run

/-! Pointers. -/

theorem detached_register (start : Nat) : Detached (register start) := .changeRegistry _

theorem detached_position (p : Pointer) : Detached (position p) := .readRegistry _

theorem detached_bytes (p : Pointer) : Detached (bytes p) := by
  apply (detached_position p).bind
  intro start
  exact .readHeap _

theorem detached_size (p : Pointer) : Detached (size p) := by
  apply (detached_position p).bind
  intro start
  exact (Detached.readHeap _).bind fun _ => .pure _

theorem detached_kind (p : Pointer) : Detached (kind p) :=
  (detached_bytes p).bind fun _ => .ofOption _

theorem detached_value (p : Pointer) : Detached (value p) := by
  apply (detached_bytes p).bind
  intro bytes
  apply (Detached.ofOption _).bind
  intro outcome
  split
  · exact .pure _
  · exact .fail _

theorem detached_clone (p : Pointer) : Detached (clone p) :=
  (detached_position p).bind fun start => detached_register start

theorem detached_children (p : Pointer) : Detached (children p) := by
  apply (detached_position p).bind
  intro start
  apply (detached_bytes p).bind
  intro bytes
  apply (Detached.ofOption _).bind
  intro spans
  exact .mapM (fun _ => detached_register _) spans

/-! Memory. -/

theorem detached_collect : Detached collect :=
  Detached.sample.bind fun _ => .changeBoth _

theorem detached_reserve (n : Nat) : Detached (reserve n) := by
  apply (Detached.readHeap _).bind
  intro free
  split_ifs
  · apply detached_collect.bind
    intro _
    apply (Detached.readHeap _).bind
    intro free'
    split_ifs
    · exact .fail _
    · exact .pure _
  · exact .pure _

theorem detached_allocate (n : Nat) : Detached (allocate n) :=
  (detached_reserve n).bind fun _ => .changeHeap _

theorem detached_make (r : Recipe) : Detached (make r) := by
  apply (detached_allocate _).bind
  intro start
  apply (Detached.updateHeap _).bind
  intro _
  exact detached_register start

theorem detached_scratchMark : Detached scratchMark := .readHeap _

theorem detached_scratchRelease (mark : Nat) : Detached (scratchRelease mark) := .updateHeap _

theorem detached_scratchAppend (new : List UInt8) : Detached (scratchAppend new) :=
  (detached_reserve _).bind fun _ => .updateHeap _

theorem detached_scratchAppendObject (p : Pointer) : Detached (scratchAppendObject p) := by
  apply (detached_size p).bind
  intro n
  apply (detached_reserve n).bind
  intro _
  apply (detached_position p).bind
  intro start
  exact .updateHeap _

theorem detached_makeFromScratch (k : Kind) (mark : Nat) : Detached (makeFromScratch k mark) := by
  apply (Detached.readHeap _).bind
  intro length
  apply (Detached.onFailure (detached_scratchRelease mark) (detached_allocate _)).bind
  intro start
  apply (Detached.updateHeap _).bind
  intro _
  exact detached_register start

/-! The stack. -/

theorem detached_depth : Detached depth := .readHeap _

theorem detached_args (n : Nat) : Detached (args n) := by
  apply detached_depth.bind
  intro d
  split_ifs
  · exact .fail _
  · exact .pure _

theorem detached_reach (level : Nat) : Detached (reach level) := by
  unfold reach
  split_ifs
  · exact detached_args _
  · exact .throw fun h => by cases h

theorem detached_push (p : Pointer) : Detached (push p) := by
  apply (detached_reserve _).bind
  intro _
  apply (detached_position p).bind
  intro start
  exact .updateHeap _

theorem detached_peek (level : Nat) : Detached (peek level) := by
  apply (detached_reach level).bind
  intro _
  exact (Detached.readHeap _).bind fun _ => detached_register _

theorem detached_pop : Detached pop := by
  apply (detached_peek 0).bind
  intro p
  exact (Detached.updateHeap _).bind fun _ => .pure p

theorem detached_put (level : Nat) (p : Pointer) : Detached (put level p) := by
  apply (detached_reach level).bind
  intro _
  apply (detached_position p).bind
  intro start
  exact .updateHeap _

theorem detached_discard (n : Nat) : Detached (discard n) :=
  (detached_args n).bind fun _ => .updateHeap _

theorem detached_clear : Detached clear := .updateHeap _

theorem detached_roll (n : Nat) : Detached (roll n) := by
  cases n with
  | zero => exact .pure ()
  | succ n => exact (detached_args _).bind fun _ => .updateHeap _

/-! The directory. -/

theorem detached_findBinding (name : String) : Detached (findBinding name) := .readHeap _

theorem detached_lookup (name : String) : Detached (lookup name) := by
  apply (detached_findBinding name).bind
  intro found
  cases found with
  | some b => exact (detached_register _).bind fun _ => .pure _
  | none => exact .pure none

theorem detached_purge (name : String) : Detached (purge name) := by
  apply (detached_findBinding name).bind
  intro found
  cases found with
  | none => exact .pure false
  | some b =>
    have hclose : ∀ _ : Unit, Detached (do
        updateBoth fun h r => h.closeGap? r b
        return true) := fun _ => (Detached.updateBoth _).bind fun _ => .pure true
    apply (Detached.readBoth _).bind
    intro refers
    dsimp only
    split_ifs
    · apply (detached_allocate _).bind
      intro new
      exact (Detached.updateBoth _).bind hclose
    · exact hclose ()

theorem detached_replacementSize (total : Nat) (old : Option Binding) :
    Detached (replacementSize total old) := by
  cases old with
  | none => exact .pure _
  | some b => exact (Detached.readBoth _).bind fun _ => .pure _

theorem detached_store (name : String) (p : Pointer) : Detached (store name p) := by
  unfold store
  split_ifs
  · exact .fail_bind _ _
  · apply (detached_size p).bind
    intro length
    apply (detached_findBinding name).bind
    intro old
    apply (detached_replacementSize _ old).bind
    intro total
    apply (detached_reserve _).bind
    intro _
    apply (detached_purge name).bind
    intro _
    exact (detached_reserve _).bind fun _ => .updateBoth _

/-! Texts of objects. -/

theorem inherited_detached : Inherited Detached where
  pure := .pure
  bind := .bind
  fail := .fail
  corrupt := .throw fun h => by cases h
  capacity h := .get (fun _ _ => rfl) fun _ => h _
  kind := detached_kind
  value := detached_value
  children := detached_children
  holdingAll _ _ := .holdingAll

theorem detached_renderToScratch (flat : Bool) (p : Pointer) : Detached (renderToScratch flat p) := by
  apply detached_scratchMark.bind
  intro mark
  apply Detached.onFailure (detached_scratchRelease mark)
  apply inherited_detached.draw
  intro length piece
  exact (detached_scratchAppend _).bind fun _ => .pure _

theorem detached_toText (p : Pointer) : Detached (toText p) := by
  apply detached_scratchMark.bind
  intro mark
  apply (detached_renderToScratch false p).bind
  intro _
  exact detached_makeFromScratch .text mark

end Run

end RpnMachine
