import RpnMachine.Proofs.Run.Building
import RpnMachine.Proofs.Run.Evaluation

/-! Runs that have enough memory. The bytes in use are bounded by a sum that counts every place with
the whole of its item, so that there is room for the next step whatever a collection would keep. -/
namespace RpnMachine

theorem Place.size_le (q : Place) : q.tree.size ≤ q.item.size :=
  (Nat.le_add_left _ _).trans q.held.add_size_le

theorem Place.exists_children_eq_pair {q : Place} {t u : Tree} (h : q.tree.children = [t, u]) :
    ∃ r r', q.children = [r, r'] ∧ r.tree = t ∧ r'.tree = u ∧ r.item = q.item ∧ r'.item = q.item := by
  have htrees := q.map_tree_children
  rw [h] at htrees
  obtain ⟨r, rs, hchildren, hr, hrs⟩ := List.map_eq_cons_iff.mp htrees
  obtain ⟨r', rs, rfl, hr', hrs⟩ := List.map_eq_cons_iff.mp hrs
  rw [List.map_eq_nil_iff] at hrs
  subst hrs
  refine ⟨r, r', hchildren, hr, hr', ?_, ?_⟩
  · exact item_of_mem_children (by simp [hchildren])
  · exact item_of_mem_children (by simp [hchildren])

namespace Image

def weight (v : Image) : Nat :=
  (Item.bytes v.permanent).length + (v.places.map (·.item.size)).sum + v.scratch.length +
    Heap.slotSize * v.stack.length

theorem weight_holdAll (v : Image) (qs : List Place) :
    (v.holdAll qs).weight = v.weight + (qs.map (·.item.size)).sum := by
  simp only [weight, places, permanent, holdAll, List.filterMap_append, List.map_append,
    List.sum_append, List.filterMap_map]
  simp only [Function.comp_def, id_eq, List.filterMap_some]
  omega

@[simp] theorem weight_hold (v : Image) (q : Place) : (v.hold q).weight = v.weight + q.item.size :=
  (v.weight_holdAll [q]).trans (by simp)

@[simp] theorem weight_add (v : Image) (t : Tree) : (v.add t).weight = v.weight := rfl

@[simp] theorem weight_make (v : Image) (t : Tree) : (v.make t).weight = v.weight + t.size :=
  (v.add t).weight_hold _

@[simp] theorem weight_scribble (v : Image) (xs : List UInt8) :
    (v.scribble xs).weight = v.weight + xs.length := by
  simp only [weight, places, permanent, scribble, List.length_append]
  omega

theorem weight_push (v : Image) (q : Place) :
    weight { v with stack := q :: v.stack } = v.weight + q.item.size + Heap.slotSize := by
  simp only [weight, places, permanent, List.cons_append, List.map_cons, List.sum_cons,
    List.length_cons, Nat.mul_add]
  omega

/-- With a pointer given back below another one. -/
theorem weight_pending (v : Image) (q : Place) :
    weight { v with slots := pending v.slots 1 [q] } = v.weight + q.item.size := by
  have hslots : (pending v.slots 1 [q]).filterMap id = v.slots.filterMap id ++ [q] := by
    simp [pending]
  simp only [weight, places, permanent, hslots, List.map_append, List.sum_append, List.map_cons,
    List.map_nil, List.sum_cons, List.sum_nil]
  omega

end Image

theorem Machine.Lays.used_le_weight {m : Machine} {c : Nat} {v : Image} {kept : List Item}
    {free : List UInt8} (h : m.Lays c v kept free) : v.used ≤ v.weight := by
  -- No item is live twice, and each of them is the item of a place.
  have hsub : v.live.Subperm (v.places.map Place.item) := by
    apply List.Nodup.subperm
    · exact (List.Nodup.of_map _ h.valid.distinct.right).filter _
    · intro i hi
      obtain ⟨hmem, hheld⟩ := List.mem_filter.mp hi
      obtain ⟨p, hp, rfl⟩ := h.exists_place_of_isHeld hmem hheld
      exact List.mem_map_of_mem hp
  obtain ⟨items, hperm, hsublist⟩ := hsub
  have hlive : (Item.bytes v.live).length ≤ (v.places.map (·.item.size)).sum := by
    calc (Item.bytes v.live).length = (v.live.map Item.size).sum := by
          rw [Item.bytes, List.length_flatMap]
          rfl
      _ = (items.map Item.size).sum := (hperm.map _).sum_eq.symm
      _ ≤ ((v.places.map Place.item).map Item.size).sum := (hsublist.map _).sum_le_sum (by simp)
      _ = (v.places.map (·.item.size)).sum := by
          rw [List.map_map]
          rfl
  rw [Image.used, Image.weight]
  omega

namespace Run

variable {α β : Type} {c n passes : Nat} {v w : Image} {p : Pointer} {q : Place} {t : Tree}

namespace Yields

variable {act : Run α} {a : α} {o : Except Failure α}

/-- What needs room for `n` bytes has it. -/
theorem of_weight (hn : v.weight + n ≤ c) (h : v.used + n ≤ c → Yields c v act o w) :
    Yields c v act o w := by
  intro m hm
  obtain ⟨kept, free, hl⟩ := hm
  have hle := hl.used_le_weight
  exact h (by omega) m hl.represents

theorem onFailure (h : Yields c v act (.ok a) w) (after : Run Unit) :
    Yields c v (onFailure after act) (.ok a) w := by
  intro m hm
  obtain ⟨m', he, hm'⟩ := h m hm
  exact ⟨m', exec_onFailure_ok he, hm'⟩

theorem readingAt (h : Yields c v act (.ok a) w) (position : Nat) :
    Yields c v (readingAt position act) (.ok a) w := h.attempt.bind (.pure a)

end Yields

/-! Reading a text with objects next to each other. -/

theorem yields_place_child (hn : v.weight + 2 * t.size ≤ c) (position mark : Nat)
    (marks : List Nat) : Yields c v (place position (mark :: marks) (make t.recipe)) (.ok none)
      ((v.add t).scribble t.encode) := by
  apply Yields.of_valid
  intro hv
  have hmake : Yields c v (make t.recipe) (.ok ⟨v.slots.length⟩) (v.make t) :=
    .of_weight (by omega) yields_make
  have happend : Yields c (v.make t) (scratchAppendObject ⟨v.slots.length⟩) (.ok ())
      ((v.make t).scribble t.encode) :=
    .of_weight (n := t.size) (by simp only [Image.weight_make]; omega)
      (yields_scratchAppendObject ((v.add t).deref_hold_self (.whole (v.newest t))))
  have hrelease : ((v.make t).scribble t.encode).release ⟨v.slots.length⟩ =
      (v.add t).scribble t.encode :=
    Image.releaseAll_scribble (hv.add t) [.whole (v.newest t)] t.encode
  have hlt : v.slots.length < ((v.make t).scribble t.encode).slots.length :=
    (v.add t).lt_length_slots (q := .whole (v.newest t)) rfl
  have hheld := happend.holding (p := ⟨v.slots.length⟩) hlt
  rw [hrelease] at hheld
  exact (hmake.bind (hheld.bind (.pure none))).readingAt position

theorem yields_takeSteps_make {steps : List Step} {mark position : Nat} {marks : List Nat}
    {o : Except Failure (Option Pointer)} {result : Option Pointer}
    (hn : v.weight + 2 * t.size ≤ c) (h : Yields c ((v.add t).scribble t.encode)
      (takeSteps steps (mark :: marks) none) o w) :
    Yields c v (takeSteps (.make t.recipe position :: steps) (mark :: marks) result) o w :=
  (yields_place_child hn position mark marks).bind h

/-- A program with two objects that are one token each. -/
theorem yields_readBody {source : String} {t u : Tree} {i j k : Nat}
    (hscript : Script.body (Machine.maxNesting - v.nesting) source =
      ⟨[.enter, .make t.recipe i, .make u.recipe j, .wrap .program k], .ok ()⟩)
    (hn : v.weight + 3 * (Tree.composite .program [t, u]).size ≤ c) :
    Yields c v (readBody source) (.ok ⟨v.slots.length⟩)
      (((v.add t).add u).make (.composite .program [t, u])) := by
  obtain ⟨b, hb⟩ : ∃ b, b = Tree.composite .program [t, u] := ⟨_, rfl⟩
  have hencode : b.encode =
      Encoding.mark (.composite .program) ++ Encoding.sized (t.encode ++ u.encode) := by
    simpa [hb, Tree.encodeAll] using Tree.encode_composite .program [t, u]
  have hsize : t.size + u.size ≤ b.size := by
    rw [hb, Tree.size_composite]
    simp
  obtain ⟨x, hx⟩ : ∃ x, x = (v.add t).add u := ⟨_, rfl⟩
  rw [← hb] at hn
  rw [← hb, ← hx]
  have hscribbles : (((v.add t).scribble t.encode).add u).scribble u.encode =
      x.scribble (t.encode ++ u.encode) := by
    rw [hx, ← Image.scribble_scribble]
    rfl
  have hwrap : Yields c (x.scribble (t.encode ++ u.encode))
      (takeSteps [.wrap .program k] [v.scratch.length] none) (.ok (some ⟨v.slots.length⟩))
      (x.make b) := by
    have hmake : Yields c (x.scribble (t.encode ++ u.encode))
        (makeFromScratch (.composite .program) v.scratch.length) (.ok ⟨v.slots.length⟩)
        (x.make b) := by
      rw [hx]
      apply Yields.of_weight (n := b.size) _ (yields_makeFromScratch_written hencode)
      simp
      omega
    have hplace : Yields c (x.scribble (t.encode ++ u.encode))
        (place k [] (makeFromScratch (.composite .program) v.scratch.length))
        (.ok (some ⟨v.slots.length⟩)) (x.make b) := by
      apply Yields.readingAt
      exact hmake.bind (.pure (some _))
    exact hplace.bind (.pure (some _))
  have hsteps : Yields c v (takeSteps [.enter, .make t.recipe i, .make u.recipe j, .wrap .program k]
      [] none) (.ok (some ⟨v.slots.length⟩)) (x.make b) := by
    apply yields_scratchMark.bind
    apply yields_takeSteps_make (by omega)
    apply yields_takeSteps_make _ (hscribbles ▸ hwrap)
    simp
    omega
  have hbuild : Yields c v
      (build ⟨[.enter, .make t.recipe i, .make u.recipe j, .wrap .program k], .ok ()⟩)
      (.ok (⟨v.slots.length⟩, ())) (x.make b) := by
    apply yields_scratchMark.bind
    apply Yields.onFailure
    exact hsteps.bind (.pure (_, ()))
  have hresult := hbuild.bind (f := fun x => pure x.1) (.pure _)
  intro m hm
  rw [readBody, exec_bind_ok (exec_get m), Machine.room, hm.nesting_eq, hscript]
  exact hresult m hm

/-! Lists of the objects on the stack. -/

theorem yields_copyLevels {s : Nat} (hn : n < v.stack.length) (hs : ∀ q ∈ v.stack, q.item.size ≤ s)
    (hroom : v.weight + (n + 1) * s ≤ c) :
    Yields c v (copyLevels n) (.ok ()) (v.scribble (Tree.encodeAll (v.below n))) := by
  apply Yields.of_valid
  intro hv
  induction n generalizing v with
  | zero =>
    have hbelow : v.scribble (Tree.encodeAll (v.below 0)) = v := by simp [Image.below]
    rw [hbelow]
    exact .pure ()
  | succ n ih =>
    have hitem := hs _ (List.getElem_mem hn)
    have htree := v.stack[n + 1].size_le
    rw [Nat.succ_mul] at hroom
    have happend : Yields c (v.hold v.stack[n + 1]) (scratchAppendObject ⟨v.slots.length⟩) (.ok ())
        ((v.hold v.stack[n + 1]).scribble v.stack[n + 1].tree.encode) := by
      apply Yields.of_weight _ (yields_scratchAppendObject (v.deref_hold_self _))
      rw [Image.weight_hold]
      have hle : s ≤ (n + 1) * s := Nat.le_mul_of_pos_left s n.succ_pos
      omega
    have hlevel := (yields_peek hn).acquiring happend (v.lt_length_slots (q := v.stack[n + 1]) rfl)
    have hrelease : ((v.hold v.stack[n + 1]).scribble v.stack[n + 1].tree.encode).release
        ⟨v.slots.length⟩ = v.scribble v.stack[n + 1].tree.encode :=
      Image.releaseAll_scribble hv [v.stack[n + 1]] _
    rw [hrelease] at hlevel
    rw [Image.below_succ hn, Tree.encodeAll_cons, ← Image.scribble_scribble]
    refine hlevel.bind (ih (v := v.scribble v.stack[n + 1].tree.encode) (Nat.lt_of_succ_lt hn) hs ?_
      (hv.scribble _))
    rw [Image.weight_scribble, Tree.length_encode]
    omega

theorem yields_toList {s : Nat} {qs : List Place} (hstack : v.stack = q :: qs)
    (hvalue : q.tree.value = .integer n) (hn : n ≤ qs.length)
    (ht : t = .composite .list ((qs.take n).reverse.map Place.tree))
    (hs : ∀ q ∈ v.stack, q.item.size ≤ s) (hroom : v.weight + (n + 1) * s ≤ c)
    (hlist : v.weight + 2 * t.size ≤ c) : Yields c v toList (.ok ())
      { v.add t with stack := .whole (v.newest t) :: qs.drop n } := by
  apply Yields.of_valid
  intro hv
  have hlength : v.stack.length = qs.length + 1 := congrArg List.length hstack
  have hpos : 0 < v.stack.length := by omega
  have htop : v.stack[0] = q := by simp [hstack]
  have hbelow : v.below n = (qs.take n).reverse.map Place.tree := by
    rw [Image.below, hstack, List.drop_one, List.tail_cons]
  have hcount : Yields c v (acquiring (peek 0) natural) (.ok n) v := by
    apply Yields.peeking hpos
    apply (yields_value (v.deref_hold_self _)).bind
    rw [htop, hvalue]
    exact .pure n
  have hargs : Yields c v (argsBelow n) (.ok ()) v :=
    yields_args ((Nat.min_le_left _ _).trans (by omega))
  have hcopy := yields_copyLevels (by omega) hs hroom
  rw [hbelow] at hcopy
  have hmake : Yields c (v.scribble (Tree.encodeAll ((qs.take n).reverse.map Place.tree)))
      (makeFromScratch (.composite .list) v.scratch.length) (.ok ⟨v.slots.length⟩) (v.make t) := by
    apply Yields.of_weight (n := t.size) _
      (yields_makeFromScratch_written (ht ▸ Tree.encode_composite .list _))
    have hsize : (Tree.encodeAll ((qs.take n).reverse.map Place.tree)).length ≤ t.size := by
      rw [ht, Tree.size_composite]
      omega
    rw [Image.weight_scribble]
    omega
  have hreplace : Yields c (v.make t) (replace (n + 1) ⟨v.slots.length⟩) (.ok ())
      { v.make t with stack := .whole (v.newest t) :: qs.drop n } := by
    have hlt : n < (v.make t).stack.length := by
      show n < v.stack.length
      omega
    have := yields_replace hlt ((v.add t).deref_hold_self _) c
    rwa [show (v.make t).stack = q :: qs from hstack, List.drop_succ_cons] at this
  have hvalid : Image.Valid { v.add t with stack := .whole (v.newest t) :: qs.drop n } :=
    (hv.add t).withRest _ _ _ _
  have hrelease : Image.release { v.make t with stack := .whole (v.newest t) :: qs.drop n }
      ⟨v.slots.length⟩ = { v.add t with stack := .whole (v.newest t) :: qs.drop n } :=
    Image.release_hold_self hvalid (.whole (v.newest t))
  rw [← hrelease]
  apply (yields_args hpos).bind
  apply hcount.bind
  apply hargs.bind
  apply yields_scratchMark.bind
  exact (hcopy.onFailure _).bind
    (hmake.acquiring hreplace ((v.add t).lt_length_slots (q := .whole (v.newest t)) rfl))

/-! A line with a count and →LIST. -/

theorem yields_checkInterrupt (h : v.interrupted = false) :
    Yields c v checkInterrupt (.ok ()) v := by
  intro m hm
  obtain ⟨kept, free, hl⟩ := hm
  refine ⟨m, ?_, hl.represents⟩
  rw [checkInterrupt, exec_bind_ok (exec_get m), hl.interrupted, h]
  rfl

theorem yields_evaluator (commands : Repertoire) : Yields c v (evaluator passes commands)
    (.ok (.ofRoom commands passes (Machine.maxNesting - v.nesting))) v := by
  intro m hm
  refine ⟨m, ?_, hm⟩
  rw [evaluator, exec_bind_ok (exec_get m), Machine.room, hm.nesting_eq]
  rfl

/-- Of the pointers on top of the slots, the first `n` are given back already. The object of the next
one is evaluated. -/
theorem yields_evaluateAll_cons {base : List (Option Place)} {qs : List Place}
    {f : Pointer → Run Unit} {o : Except Failure Unit} {u v' : Image} (hb : Trimmed base)
    (hs : v.slots = pending base n (q :: qs)) (hinterrupted : v.interrupted = false)
    (hf : Yields c v (f ⟨base.length + n⟩) (.ok ()) w) (hw : w.slots = v.slots)
    (hu : u = { w with slots := pending base (n + 1) qs })
    (h : Yields c u (evaluateAll f (Image.pointers (base.length + (n + 1)) qs)) o v') :
    Yields c v (evaluateAll f (Image.pointers (base.length + n) (q :: qs))) o v' := by
  have hturn : Yields c v
      (holding ⟨base.length + n⟩ do checkInterrupt; f ⟨base.length + n⟩) (.ok ())
      (w.release ⟨base.length + n⟩) :=
    ((yields_checkInterrupt hinterrupted).bind hf).holding (by simp [hw, hs, pending])
  have hrelease : w.release ⟨base.length + n⟩ = u := by
    rw [hu, Image.release, hw, hs, vacate_pending hb]
  rw [hrelease] at hturn
  rw [Image.pointers_cons]
  exact (hturn.onFailure _).bind h

theorem yields_evaluateNext_integer {commands : Repertoire} {e : Evaluator}
    (hp : v.deref p = some q) (hk : q.tree.kind = .integer)
    (hn : v.weight + Heap.slotSize ≤ c) : Yields c v (e.evaluateNext commands passes p) (.ok ())
      { v with stack := q :: v.stack } := by
  apply (yields_kind hp).bind
  rw [hk]
  exact .of_weight hn fun hn => yields_push hn hp

theorem yields_evaluateNext_command {commands : Repertoire} {e : Evaluator} {k : Command}
    {o : Except Failure Unit} (hp : v.deref p = some q) (hk : q.tree.kind = .command k)
    (h : Yields c v (commands e.execute k) o w) :
    Yields c v (e.evaluateNext commands passes p) o w := by
  apply (yields_kind hp).bind
  rw [hk]
  exact h

/-- A program of a count and →LIST makes a list of as many objects. -/
theorem yields_sequence_toList {e : Evaluator} {s : Nat} {count l : Tree} {b : Place}
    (hinterrupted : v.interrupted = false) (hp : v.deref p = some b)
    (hb : b.tree.children = [count, .command .toList]) (hkind : count.kind = .integer)
    (hvalue : count.value = .integer n) (hn : n ≤ v.stack.length)
    (hl : l = .composite .list ((v.stack.take n).reverse.map Place.tree))
    (hs : ∀ q ∈ v.stack, q.item.size ≤ s)
    (hroom : v.weight + 3 * b.item.size + Heap.slotSize + (n + 1) * (s + b.item.size) ≤ c)
    (hlist : v.weight + 3 * b.item.size + Heap.slotSize + 2 * l.size ≤ c) :
    Yields c v (sequence (e.evaluateNext Command.run passes) p) (.ok ())
      { v.add l with stack := .whole (v.newest l) :: v.stack.drop n } := by
  apply Yields.of_valid
  intro hv
  obtain ⟨r, r', hchildren, hr, hr', hitem, hitem'⟩ := Place.exists_children_eq_pair hb
  have hheld : (v.holdAll [r, r']).weight = v.weight + 2 * b.item.size := by
    rw [Image.weight_holdAll, List.map_cons, List.map_cons, hitem, hitem']
    simp
    omega
  have hpush : Yields c (v.holdAll [r, r'])
      (e.evaluateNext Command.run passes ⟨v.slots.length⟩) (.ok ())
      { v.holdAll [r, r'] with stack := r :: v.stack } := by
    apply yields_evaluateNext_integer (v.deref_holdAll_getElem [r, r'] (i := 0) (by simp))
    · rwa [List.getElem_cons_zero, hr]
    · omega
  have hslots : (v.holdAll [r, r']).slots = pending v.slots 0 [r, r'] := by
    simp [Image.holdAll, pending]
  -- What is held while →LIST runs.
  obtain ⟨u, hu⟩ : ∃ u : Image, u = { v with stack := r :: v.stack, slots := pending v.slots 1 [r'] } :=
    ⟨_, rfl⟩
  have hstack : u.stack = r :: v.stack := by rw [hu]
  have hweight : u.weight = v.weight + 2 * b.item.size + Heap.slotSize := by
    have hpending := Image.weight_pending { v with stack := r :: v.stack } r'
    rw [v.weight_push r, hitem, hitem'] at hpending
    rw [hu, hpending]
    omega
  have hgather : Yields c u (e.evaluateNext Command.run passes ⟨v.slots.length + 1⟩) (.ok ())
      { u.add l with stack := .whole (u.newest l) :: v.stack.drop n } := by
    have hderef : u.deref ⟨v.slots.length + 1⟩ = some r' := by
      simp [Image.deref, hu, pending]
    have hitems : ∀ q ∈ u.stack, q.item.size ≤ s + b.item.size := by
      rw [hstack]
      intro q hq
      rcases List.mem_cons.mp hq with rfl | hq
      · rw [hitem]
        exact Nat.le_add_left _ _
      · exact (hs q hq).trans (Nat.le_add_right _ _)
    have hlist : Yields c u toList (.ok ())
        { u.add l with stack := .whole (u.newest l) :: v.stack.drop n } :=
      yields_toList hstack (hr ▸ hvalue) hn hl hitems (by omega) (by omega)
    exact yields_evaluateNext_command (k := .toList) hderef (by rw [hr']; rfl) hlist
  have hsecond : Yields c u (evaluateAll (e.evaluateNext Command.run passes)
      (Image.pointers (v.slots.length + 1) [r'])) (.ok ())
      { v.add l with stack := .whole (v.newest l) :: v.stack.drop n } := by
    have hslots : u.slots = pending v.slots 1 [r'] := by rw [hu]
    have hinterrupted : u.interrupted = false := by rw [hu, hinterrupted]
    apply yields_evaluateAll_cons hv.trimmed hslots hinterrupted hgather rfl _ (.pure ())
    rw [hu]
    rfl
  have hfirst := yields_evaluateAll_cons hv.trimmed hslots hinterrupted hpush rfl hu hsecond
  rw [← hchildren] at hfirst
  exact (yields_children hp).bind hfirst

/-- The text is a count and →LIST. -/
structure Gathers (source : String) (n : Nat) (count : Tree) : Prop where
  kind : count.kind = .integer
  value : count.value = .integer n
  script : ∃ i j k, Script.body Machine.maxNesting source =
    ⟨[.enter, .make count.recipe i, .make (Tree.command .toList).recipe j, .wrap .program k], .ok ()⟩

/-- The text is a count of one digit and →LIST. -/
theorem Gathers.of_digit {source : String} {n : Nat} {count : Tree} (hkind : count.kind = .integer)
    (hvalue : count.value = .integer n)
    (hsteps : (Script.body Machine.maxNesting source).steps = [.enter, .make count.recipe 1,
      .make (Tree.command .toList).recipe 9, .wrap .program 9])
    (hresult : (Script.body Machine.maxNesting source).result = .ok ()) : Gathers source n count := by
  refine ⟨hkind, hvalue, 1, 9, 9, ?_⟩
  rw [← hsteps, ← hresult]

theorem gathers_none : Gathers "0 →LIST" 0 (.integer false 0) :=
  .of_digit rfl rfl (by decide +kernel) (by decide +kernel)

theorem gathers_one : Gathers "1 →LIST" 1 (.integer false 1) :=
  .of_digit rfl rfl (by decide +kernel) (by decide +kernel)

theorem yields_line {source : String} {s : Nat} {count l : Tree} (hsource : Gathers source n count)
    (hnesting : v.nesting = 0) (hinterrupted : v.interrupted = false)
    (ht : t = .composite .program [count, .command .toList]) (hn : n ≤ v.stack.length)
    (hl : l = .composite .list ((v.stack.take n).reverse.map Place.tree))
    (hw : w = ((v.add count).add (.command .toList)).add t)
    (hs : ∀ q ∈ v.stack, q.item.size ≤ s)
    (hroom : v.weight + 4 * t.size + Heap.slotSize + (n + 1) * (s + t.size) ≤ c)
    (hlist : v.weight + 4 * t.size + Heap.slotSize + 2 * l.size ≤ c) :
    Yields c v (line passes source) (.ok ())
      { w.add l with stack := .whole (w.newest l) :: v.stack.drop n } := by
  apply Yields.of_valid
  intro hv
  obtain ⟨b, hb⟩ : ∃ b, b = Place.whole (((v.add count).add (.command .toList)).newest t) := ⟨_, rfl⟩
  have hsize : b.item.size = t.size := by
    rw [hb]
    rfl
  have hread : Yields c v (readBody source) (.ok ⟨v.slots.length⟩) (w.hold b) := by
    obtain ⟨i, j, k, hscript⟩ := hsource.script
    have := yields_readBody (c := c) (v := v) (by rwa [hnesting]) (by rw [← ht]; omega)
    rwa [← ht, Image.make, ← hb, ← hw] at this
  have hstack : (w.hold b).stack = v.stack := by
    rw [hw]
    rfl
  have hweight : (w.hold b).weight = v.weight + t.size := by
    rw [Image.weight_hold, hsize, hw]
    rfl
  have hslots : w.slots = v.slots := by
    rw [hw]
    rfl
  have hsequence : ∀ e : Evaluator, Yields c (w.hold b)
      (sequence (e.evaluateNext Command.run passes) ⟨v.slots.length⟩) (.ok ())
      { (w.hold b).add l with stack := .whole (w.newest l) :: v.stack.drop n } := by
    intro e
    have hderef : (w.hold b).deref ⟨v.slots.length⟩ = some b := hslots ▸ w.deref_hold_self b
    have hchildren : b.tree.children = [count, .command .toList] := by
      rw [hb, Place.whole]
      exact congrArg Tree.children ht
    have hfree : (w.hold b).interrupted = false := by
      rw [hw]
      exact hinterrupted
    rw [← hstack] at hn hl hs ⊢
    apply yields_sequence_toList hfree hderef hchildren hsource.kind hsource.value hn hl hs
    · rw [hweight, hsize]
      omega
    · rw [hweight, hsize]
      omega
  have hrun : Yields c (w.hold b)
      (do sequence (← evaluator passes).evaluate ⟨v.slots.length⟩) (.ok ())
      { (w.hold b).add l with stack := .whole (w.newest l) :: v.stack.drop n } := by
    apply (yields_evaluator Command.run).bind
    have hroom : Machine.maxNesting - (w.hold b).nesting = 255 + 1 := by
      rw [hw]
      exact congrArg (Machine.maxNesting - ·) hnesting
    rw [hroom]
    exact hsequence _
  have hvalid : Image.Valid { w.add l with stack := .whole (w.newest l) :: v.stack.drop n } := by
    have hvw : (w.add l).Valid := hw ▸ (((hv.add _).add _).add _).add _
    exact hvw.withRest _ _ _ _
  have hrelease : Image.release
      { (w.hold b).add l with stack := .whole (w.newest l) :: v.stack.drop n } ⟨v.slots.length⟩ =
      { w.add l with stack := .whole (w.newest l) :: v.stack.drop n } :=
    hslots ▸ Image.release_hold_self hvalid b
  rw [← hrelease]
  exact hread.acquiring hrun (by simp [← hslots, Image.add, Image.hold])

theorem exists_yields_line {source : String} {s : Nat} {count l : Tree}
    (hsource : Gathers source n count) (hnesting : v.nesting = 0)
    (hinterrupted : v.interrupted = false)
    (ht : t = .composite .program [count, .command .toList]) (hn : n ≤ v.stack.length)
    (hl : l = .composite .list ((v.stack.take n).reverse.map Place.tree))
    (hs : ∀ q ∈ v.stack, q.item.size ≤ s)
    (hroom : v.weight + 4 * t.size + Heap.slotSize + (n + 1) * (s + t.size) ≤ c)
    (hlist : v.weight + 4 * t.size + Heap.slotSize + 2 * l.size ≤ c) (passes : Nat) :
    ∃ w, ∃ i : Item, Yields c v (line passes source) (.ok ()) w ∧ i.tree = l ∧
      w.content = { v.content with stack := .whole i :: v.stack.drop n } :=
  ⟨_, _, yields_line hsource hnesting hinterrupted ht hn hl rfl hs hroom hlist, rfl, rfl⟩

end Run
end RpnMachine
