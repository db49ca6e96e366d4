import RpnMachine.Machine.Rendering
import RpnMachine.Proofs.Machine.Exec

/-! What all the steps of a drawing have in common, the whole drawing has. So a drawing that needs no
memory leaves the memory alone. -/
namespace RpnMachine.Run

/-- A property of runs that the steps of a drawing have, and that goes from runs to what is made up of
them. -/
structure Inherited (P : ∀ {α : Type}, Run α → Prop) : Prop where
  pure : ∀ {α : Type} (a : α), P (pure a : Run α)
  bind : ∀ {α β : Type} {x : Run α} {f : α → Run β}, P x → (∀ a, P (f a)) → P (x >>= f)
  fail : ∀ {α : Type} (e : Error), P (fail e : Run α)
  corrupt : ∀ {α : Type}, P (throw .corrupt : Run α)
  capacity : ∀ {α : Type} {f : Nat → Run α}, (∀ n, P (f n)) → P (do f (← get).heap.capacity)
  kind : ∀ p, P (kind p)
  value : ∀ p, P (value p)
  children : ∀ p, P (children p)
  holdingAll : ∀ {α : Type} (ps : List Pointer) {x : Run α}, P x → P (holdingAll ps x)

namespace Inherited

variable {P : ∀ {α : Type}, Run α → Prop} {σ : Type} {put : Sink σ}

theorem putAll (hP : Inherited P) (hput : ∀ s piece, P (put s piece)) (pieces : List String) (s : σ) :
    P (putAll put pieces s) := by
  induction pieces generalizing s with
  | nil => exact hP.pure s
  | cons piece pieces ih =>
    rw [Run.putAll, List.foldlM_cons]
    exact hP.bind (hput s piece) ih

theorem drawAll (hP : Inherited P) (hput : ∀ s piece, P (put s piece)) {draw : Pointer → σ → Run σ}
    (hdraw : ∀ p s, P (draw p s)) (ps : List Pointer) (s : σ) : P (drawAll put draw ps s) := by
  induction ps generalizing s with
  | nil => exact hP.pure s
  | cons p ps ih =>
    cases ps with
    | nil => exact hdraw p s
    | cons p' ps => exact hP.bind (hdraw p s) fun s => hP.bind (hput s _) ih

theorem drawBody (hP : Inherited P) (hput : ∀ s piece, P (put s piece))
    {draw : Nat → Pointer → σ → Run σ} (hdraw : ∀ indent p s, P (draw indent p s)) (flat : Bool)
    (indent : Nat) (p : Pointer) (s : σ) : P (drawBody put draw flat indent p s) := by
  apply hP.bind (hP.children p)
  intro body
  apply hP.holdingAll
  split_ifs
  · exact hP.pure s
  · exact hP.bind (hP.putAll hput _ s) (hP.drawAll hput (hdraw indent) body)

theorem drawClauses (hP : Inherited P) (hput : ∀ s piece, P (put s piece))
    {draw : Nat → Pointer → σ → Run σ} (hdraw : ∀ indent p s, P (draw indent p s)) (flat : Bool)
    (indent : Nat) (words : List String) (ps : List Pointer) (s : σ) :
    P (drawClauses put draw flat indent words ps s) := by
  induction ps generalizing words s with
  | nil => cases words <;> exact hP.putAll hput _ s
  | cons p ps ih =>
    cases words with
    | nil => exact hP.putAll hput _ s
    | cons word words =>
      apply hP.bind (hput s word)
      intro s
      apply hP.bind (hP.drawBody hput hdraw flat _ p s)
      intro s
      exact hP.bind (hP.putAll hput _ s) (ih words)

theorem drawComposite (hP : Inherited P) (hput : ∀ s piece, P (put s piece))
    {draw : Nat → Pointer → σ → Run σ} (hdraw : ∀ indent p s, P (draw indent p s)) (flat : Bool)
    (indent : Nat) (c : Composite) (ps : List Pointer) (s : σ) :
    P (drawComposite put draw flat indent c ps s) := by
  unfold Run.drawComposite
  split
  · exact hP.drawAll hput (hdraw indent) _ s
  · exact hput s _
  · apply hP.bind (hput s _)
    intro s
    exact hP.bind (hP.drawAll hput (hdraw indent) _ s) fun s => hput s _
  · exact hput s _
  · apply hP.bind (hP.putAll hput _ s)
    intro s
    exact hP.bind (hP.drawAll hput (hdraw (indent + 1)) _ s) (hP.putAll hput _)
  · split_ifs
    · exact hP.drawClauses hput hdraw flat indent _ _ s
    · exact hP.fail _

theorem drawWithin (hP : Inherited P) (hput : ∀ s piece, P (put s piece)) (flat : Bool)
    (depth indent : Nat) (p : Pointer) (s : σ) : P (drawWithin put flat depth indent p s) := by
  induction depth generalizing indent p s with
  | zero => exact hP.corrupt
  | succ depth ih =>
    apply hP.bind (hP.kind p)
    intro k
    split
    · apply hP.bind (hP.putAll hput _ s)
      intro s
      apply hP.bind (hP.children p)
      intro ps
      apply hP.bind (hP.holdingAll ps (hP.drawComposite hput ih flat indent _ ps s))
      exact hP.putAll hput _
    · exact hP.bind (hP.value p) fun x => hP.putAll hput _ s

theorem draw (hP : Inherited P) (hput : ∀ s piece, P (put s piece)) (flat : Bool) (p : Pointer)
    (s : σ) : P (draw put flat p s) :=
  hP.capacity fun n => hP.drawWithin hput flat (n + 1) 0 p s

end Inherited

/-- The memory is afterwards what it was before. -/
def SparesHeap {α : Type} (act : Run α) : Prop := ∀ m, (exec act m).2.heap = m.heap

namespace SparesHeap

variable {α β : Type} {act : Run α} {f : α → Run β}

theorem pure (a : α) : SparesHeap (pure a : Run α) := fun _ => rfl

theorem throw (e : Failure) : SparesHeap (throw e : Run α) := fun _ => rfl

theorem bind (h : SparesHeap act) (hf : ∀ a, SparesHeap (f a)) : SparesHeap (act >>= f) := by
  intro m
  have hact := h m
  cases he : exec act m with
  | mk o m' =>
    rw [he] at hact
    cases o with
    | ok a => rw [exec_bind_ok he, hf a m', hact]
    | error e => rw [exec_bind_error he, hact]

theorem get {g : Machine → Run α} (h : ∀ m, SparesHeap (g m)) : SparesHeap (get >>= g) := by
  intro m
  rw [exec_bind_ok (exec_get m)]
  exact h m m

theorem ofOption (a : Option α) : SparesHeap (ofOption a) := by
  cases a with
  | some a => exact pure a
  | none => exact throw _

theorem mapM {β : Type} {g : α → Run β} (h : ∀ a, SparesHeap (g a)) (as : List α) :
    SparesHeap (as.mapM g) := by
  induction as with
  | nil => exact pure []
  | cons a as ih =>
    rw [List.mapM_cons]
    exact (h a).bind fun b => ih.bind fun bs => pure (b :: bs)

theorem readHeap (g : Heap → Option α) : SparesHeap (readHeap g) := fun m => by
  rw [exec_readHeap]
  exact ofOption _ m

theorem readRegistry (g : Registry → Option α) : SparesHeap (readRegistry g) := fun m => by
  rw [exec_readRegistry]
  exact ofOption _ m

/-- Pointers are no part of the memory. -/
theorem changeRegistry (g : Registry → Option (α × Registry)) : SparesHeap (changeRegistry g) :=
  fun m => by
    rw [exec_changeRegistry]
    cases g m.registry <;> rfl

theorem position (p : Pointer) : SparesHeap (position p) := readRegistry _

theorem bytes (p : Pointer) : SparesHeap (bytes p) := (position p).bind fun _ => readHeap _

theorem kind (p : Pointer) : SparesHeap (kind p) := (bytes p).bind fun _ => ofOption _

theorem value (p : Pointer) : SparesHeap (value p) := by
  apply (bytes p).bind
  intro bs
  apply (ofOption _).bind
  intro v
  cases v with
  | ok v => exact pure v
  | error d => exact throw _

theorem children (p : Pointer) : SparesHeap (children p) := by
  apply (position p).bind
  intro start
  apply (bytes p).bind
  intro bs
  exact (ofOption _).bind fun spans => mapM (fun _ => changeRegistry _) spans

theorem attempt (h : SparesHeap act) : SparesHeap (attempt act) := h

theorem forM {g : α → Run Unit} (h : ∀ a, SparesHeap (g a)) (as : List α) :
    SparesHeap (as.forM g) := by
  induction as with
  | nil => exact pure ()
  | cons a as ih => exact (h a).bind fun _ => ih

theorem holdingAll (ps : List Pointer) (h : SparesHeap act) : SparesHeap (holdingAll ps act) := by
  apply h.attempt.bind
  intro outcome
  apply (forM (fun _ => changeRegistry _) ps).bind
  intro
  cases outcome with
  | ok a => exact pure a
  | error e => exact throw e

end SparesHeap

theorem inherited_sparesHeap : Inherited SparesHeap where
  pure := .pure
  bind := .bind
  fail _ := .throw _
  corrupt := .throw _
  capacity h := .get fun _ => h _
  kind := .kind
  value := .value
  children := .children
  holdingAll ps _ h := h.holdingAll ps

/-- An object is seen through a window without a change in memory. -/
theorem sparesHeap_renderWithin (width : Nat) (flat : Bool) (p : Pointer) :
    SparesHeap (renderWithin width flat p) :=
  inherited_sparesHeap.draw (fun _ _ => .pure _) flat p _

end RpnMachine.Run
