import RpnMachine.Proofs.Object.Pieces
import RpnMachine.Proofs.Run.Scratchpad

/-! Drawing an object puts the pieces of its text in order, however deep its parts are looked for
and wherever they lie. -/
namespace RpnMachine

/-- A control structure has more or fewer clauses than its words ask for. -/
def Failure.blamesClauses : Failure → Bool
  | error (.invalidObject (.clauses _ _)) => true
  | _ => false

theorem Failure.ne_corrupt_of_blamesClauses {e : Failure} (h : e.blamesClauses) : e ≠ .corrupt := by
  rintro rfl
  cases h

/-- An object is as large as it is deep, and no larger than the memory. -/
theorem Machine.Lays.height_le {m : Machine} {c : Nat} {v : Image} {kept : List Item}
    {free : List UInt8} (h : m.Lays c v kept free) {q : Place} (hq : q ∈ v.places) :
    q.tree.height ≤ c := by
  have := h.arranged.position_add_size_le (h.mem_of_mem_places hq)
  have := q.tree.height_le_size
  have := h.capacity
  omega

namespace Run

section

variable {σ : Type} {c₁ c₂ : Nat} {g : String → List UInt8} {h : σ → String → σ}
  {lack : Nat → String → Failure → Prop} {v v' : Image} {e : Failure}

/-- A sink that adds the bytes `g` to the scratchpad and `h` to what there is so far, or fails for
a reason `lack` that has to do with the bytes in use and the piece. -/
def Adds (c₁ c₂ : Nat) (put : Sink σ) (g : String → List UInt8) (h : σ → String → σ)
    (lack : Nat → String → Failure → Prop) : Prop :=
  ∀ v s piece, Agree c₁ c₂ v (put s piece) (put s piece)
    (fun s' v' => s' = h s piece ∧ v' = v.scribble (g piece)) fun e v' => lack v.used piece e ∧ v' = v

/-- With the first pieces on the scratchpad there was a reason not to put the next one. -/
def Stops (g : String → List UInt8) (lack : Nat → String → Failure → Prop) (v : Image)
    (pieces : List String) (e : Failure) (v' : Image) : Prop :=
  ∃ done piece rest, pieces = done ++ piece :: rest ∧ v' = v.scribble (done.flatMap g) ∧
    lack v'.used piece e

theorem Stops.append {xs : List String} (hs : Stops g lack v xs e v') (ys : List String) :
    Stops g lack v (xs ++ ys) e v' := by
  obtain ⟨done, piece, rest, rfl, hv', hlack⟩ := hs
  exact ⟨done, piece, rest ++ ys, by simp, hv', hlack⟩

theorem Stops.prepend {xs ys : List String}
    (hs : Stops g lack (v.scribble (xs.flatMap g)) ys e v') : Stops g lack v (xs ++ ys) e v' := by
  obtain ⟨done, piece, rest, rfl, hv', hlack⟩ := hs
  refine ⟨xs ++ done, piece, rest, (List.append_assoc _ _ _).symm, ?_, hlack⟩
  rw [hv', Image.scribble_scribble, List.flatMap_append]

/-- Both runs put the same pieces, and the object is `whole`. If they fail, one of the pieces could not
be put, or the object is not `whole` and clauses are to blame. -/
def Prints (c₁ c₂ : Nat) (g : String → List UInt8) (h : σ → String → σ)
    (lack : Nat → String → Failure → Prop) (whole : Prop) (v : Image) (s : σ)
    (pieces : List String) (act₁ act₂ : Run σ) : Prop :=
  Agree c₁ c₂ v act₁ act₂
    (fun s' v' => (s' = pieces.foldl h s ∧ v' = v.scribble (pieces.flatMap g)) ∧ whole)
    fun e v' => Stops g lack v pieces e v' ∨
      (¬whole ∧ e.blamesClauses) ∧ ∃ done : List String, v' = v.scribble (done.flatMap g)

namespace Prints

variable {whole whole' : Prop} {s : σ} {xs ys : List String} {act₁ act₂ : Run σ} {f₁ f₂ : σ → Run σ}

theorem of_iff (hwhole : whole' ↔ whole) (hx : Prints c₁ c₂ g h lack whole v s xs act₁ act₂) :
    Prints c₁ c₂ g h lack whole' v s xs act₁ act₂ := by rwa [propext hwhole]

theorem pure : Prints c₁ c₂ g h lack True v s [] (pure s) (pure s) :=
  Agree.pure ⟨⟨rfl, (Image.scribble_nil v).symm⟩, trivial⟩

theorem bind (hx : Prints c₁ c₂ g h lack whole v s xs act₁ act₂)
    (hf : Prints c₁ c₂ g h lack whole' (v.scribble (xs.flatMap g)) (xs.foldl h s) ys
      (f₁ (xs.foldl h s)) (f₂ (xs.foldl h s))) :
    Prints c₁ c₂ g h lack (whole ∧ whole') v s (xs ++ ys) (act₁ >>= f₁) (act₂ >>= f₂) := by
  apply Agree.bind (hx.mono (fun _ _ hdone => hdone) fun e v' hfailed => ?_)
  · rintro _ _ ⟨⟨rfl, rfl⟩, hwhole⟩
    refine hf.mono ?_ ?_
    · rintro _ _ ⟨⟨rfl, rfl⟩, hwhole'⟩
      refine ⟨⟨by rw [List.foldl_append], ?_⟩, hwhole, hwhole'⟩
      rw [Image.scribble_scribble, List.flatMap_append]
    · rintro e v' (hstops | ⟨⟨hnot, hblames⟩, done, rfl⟩)
      · exact .inl hstops.prepend
      · refine .inr ⟨⟨fun hw => hnot hw.2, hblames⟩, xs ++ done, ?_⟩
        rw [Image.scribble_scribble, List.flatMap_append]
  · obtain hstops | ⟨⟨hnot, hblames⟩, hdone⟩ := hfailed
    · exact .inl (hstops.append ys)
    · exact .inr ⟨⟨fun hw => hnot hw.1, hblames⟩, hdone⟩

theorem before (hx : Prints c₁ c₂ g h lack True v s xs act₁ act₂)
    (hf : Prints c₁ c₂ g h lack whole (v.scribble (xs.flatMap g)) (xs.foldl h s) ys
      (f₁ (xs.foldl h s)) (f₂ (xs.foldl h s))) :
    Prints c₁ c₂ g h lack whole v s (xs ++ ys) (act₁ >>= f₁) (act₂ >>= f₂) :=
  of_iff (by simp) (hx.bind hf)

theorem after (hx : Prints c₁ c₂ g h lack whole v s xs act₁ act₂)
    (hf : Prints c₁ c₂ g h lack True (v.scribble (xs.flatMap g)) (xs.foldl h s) ys
      (f₁ (xs.foldl h s)) (f₂ (xs.foldl h s))) :
    Prints c₁ c₂ g h lack whole v s (xs ++ ys) (act₁ >>= f₁) (act₂ >>= f₂) :=
  of_iff (by simp) (hx.bind hf)

theorem put {put : Sink σ} (hput : Adds c₁ c₂ put g h lack) (piece : String) :
    Prints c₁ c₂ g h lack True v s [piece] (put s piece) (put s piece) := by
  refine (hput v s piece).mono ?_ ?_
  · rintro _ _ ⟨rfl, rfl⟩
    exact ⟨⟨rfl, by simp⟩, trivial⟩
  · rintro e _ ⟨he, rfl⟩
    exact .inl ⟨[], piece, [], rfl, (Image.scribble_nil _).symm, he⟩

theorem putAll {put : Sink σ} (hput : Adds c₁ c₂ put g h lack) (pieces : List String) :
    Prints c₁ c₂ g h lack True v s pieces (putAll put pieces s) (Run.putAll put pieces s) := by
  induction pieces generalizing v s with
  | nil => exact pure
  | cons piece pieces ih =>
    rw [Run.putAll, List.foldlM_cons]
    exact (Prints.put hput piece).before ih

theorem children {p : Pointer} {q : Place} {k₁ k₂ : List Pointer → Run σ} (hp : v.deref p = some q)
    (hk : Prints c₁ c₂ g h lack whole (v.holdAll q.children) s xs
      (k₁ (Image.pointers v.slots.length q.children))
      (k₂ (Image.pointers v.slots.length q.children))) :
    Prints c₁ c₂ g h lack whole v s xs (do let ps ← children p; holdingAll ps (k₁ ps))
      (do let ps ← Run.children p; holdingAll ps (k₂ ps)) := by
  refine Agree.of_valid fun hv => Agree.bind_yields (fun _ => yields_children hp) ?_
  have hchildren : ∀ r ∈ q.children, ∃ r' ∈ v.places, r'.item = r.item := fun r hr =>
    ⟨q, Image.mem_places_of_deref hp, (Place.item_of_mem_children hr).symm⟩
  refine Agree.holdingAll hv _ (hk.mono ?_ ?_)
  · rintro _ _ ⟨⟨rfl, rfl⟩, hwhole⟩
    exact ⟨rfl, ⟨rfl, Image.releaseAll_scribble hv _ _⟩, hwhole⟩
  · rintro e _ (⟨done, piece, rest, rfl, rfl, hlack⟩ | ⟨hnot, done, rfl⟩)
    · have hreleased := Image.releaseAll_scribble hv q.children (done.flatMap g)
      refine ⟨rfl, .inl ⟨done, piece, rest, rfl, hreleased, ?_⟩⟩
      rw [Image.used_scribble, Image.used_holdAll hchildren] at hlack
      rw [← v.used_scribble, ← hreleased] at hlack
      exact hlack
    · exact ⟨rfl, .inr ⟨hnot, done, Image.releaseAll_scribble hv _ _⟩⟩

/-- Both runs draw the object that a pointer leads to, in whatever state they find the machine. -/
def Draws (c₁ c₂ : Nat) (g : String → List UInt8) (h : σ → String → σ) (lack : Nat → String → Failure → Prop)
    (flat : Bool) (indent : Nat) (q : Place) (d₁ d₂ : Pointer → σ → Run σ) : Prop :=
  ∀ v p s, Image.deref v p = some q →
    Prints c₁ c₂ g h lack q.tree.Drawable v s (q.tree.pieces flat indent) (d₁ p s) (d₂ p s)

theorem drawAll {put : Sink σ} (hput : Adds c₁ c₂ put g h lack) {flat : Bool} {indent : Nat}
    {d₁ d₂ : Pointer → σ → Run σ} {ps : List Pointer} {qs : List Place} (hr : v.Refers ps qs)
    (hd : ∀ q ∈ qs, Draws c₁ c₂ g h lack flat indent q d₁ d₂) :
    Prints c₁ c₂ g h lack (∀ q ∈ qs, q.tree.Drawable) v s
      (Tree.piecesAll flat indent (qs.map Place.tree)) (drawAll put d₁ ps s)
      (Run.drawAll put d₂ ps s) := by
  induction qs generalizing v s ps with
  | nil =>
    cases hr
    exact .of_iff (by simp) pure
  | cons q qs ih =>
    cases hr with
    | @cons p _ ps _ hp hr =>
      have hq := hd q (by simp) v p s hp
      cases hr with
      | nil =>
        rw [List.map_cons, List.map_nil, Tree.piecesAll]
        exact hq.of_iff (by simp)
      | @cons p' q' ps qs hp' hr =>
        rw [List.map_cons, List.map_cons, Tree.piecesAll]
        refine .of_iff List.forall_mem_cons (hq.bind ((Prints.put hput " ").before ?_))
        exact ih (.cons hp' hr) fun q hq => hd q (List.mem_cons_of_mem _ hq)

theorem drawBody {put : Sink σ} (hput : Adds c₁ c₂ put g h lack) {flat : Bool} {indent : Nat}
    {d₁ d₂ : Nat → Pointer → σ → Run σ} {p : Pointer} {q : Place} (hp : v.deref p = some q)
    (hd : ∀ r ∈ q.children, Draws c₁ c₂ g h lack flat indent r (d₁ indent) (d₂ indent)) :
    Prints c₁ c₂ g h lack (∀ r ∈ q.children, r.tree.Drawable) v s (q.tree.piecesBody flat indent)
      (drawBody put d₁ flat indent p s) (Run.drawBody put d₂ flat indent p s) := by
  have hempty : (Image.pointers v.slots.length q.children).isEmpty = q.children.isEmpty := by
    cases q.children <;> rfl
  refine children hp ?_
  rw [Tree.piecesBody_eq, ← Place.map_tree_children, List.isEmpty_map]
  simp only [hempty]
  split_ifs with he
  · rw [List.isEmpty_iff.mp he]
    exact .of_iff (by simp) pure
  · exact (Prints.putAll hput _).before (drawAll hput (v.refers_holdAll q.children) hd)

theorem drawClauses {put : Sink σ} (hput : Adds c₁ c₂ put g h lack) {flat : Bool} {indent : Nat}
    {d₁ d₂ : Nat → Pointer → σ → Run σ} {words : List String} {ps : List Pointer}
    {qs : List Place} (hr : v.Refers ps qs) (hlength : words.length = qs.length + 1)
    (hd : ∀ q ∈ qs, ∀ r ∈ q.children,
      Draws c₁ c₂ g h lack flat (indent + 1) r (d₁ (indent + 1)) (d₂ (indent + 1))) :
    Prints c₁ c₂ g h lack (∀ q ∈ qs, ∀ r ∈ q.children, r.tree.Drawable) v s
      (Tree.piecesClauses flat indent words (qs.map Place.tree))
      (drawClauses put d₁ flat indent words ps s) (Run.drawClauses put d₂ flat indent words ps s) := by
  induction words generalizing v s ps qs with
  | nil => cases hlength
  | cons word words ih =>
    cases hr with
    | nil => exact .of_iff (by simp) (Prints.putAll hput [word])
    | @cons p q ps qs hp hr =>
      have hbody : ∀ extra s, Prints c₁ c₂ g h lack (∀ r ∈ q.children, r.tree.Drawable)
          (v.scribble extra) s (q.tree.piecesBody flat (indent + 1))
          (Run.drawBody put d₁ flat (indent + 1) p s) (Run.drawBody put d₂ flat (indent + 1) p s) :=
        fun _ _ => drawBody hput hp (hd q (by simp))
      rw [List.map_cons, Tree.piecesClauses, List.cons_append, List.cons_append, List.append_assoc]
      refine (Prints.put hput word).before (.of_iff List.forall_mem_cons ((hbody _ _).bind ?_))
      refine (Prints.putAll hput _).before (ih hr (Nat.succ.inj hlength) ?_)
      exact fun q hq => hd q (List.mem_cons_of_mem _ hq)

theorem drawComposite {put : Sink σ} (hput : Adds c₁ c₂ put g h lack) {flat : Bool} {indent : Nat}
    {d₁ d₂ : Nat → Pointer → σ → Run σ} (c : Composite) {ps : List Pointer}
    {qs : List Place} (hr : v.Refers ps qs)
    (hd : ∀ indent, ∀ q ∈ qs, Draws c₁ c₂ g h lack flat indent q (d₁ indent) (d₂ indent))
    (hbody : ∀ indent, ∀ q ∈ qs, ∀ r ∈ q.children,
      Draws c₁ c₂ g h lack flat indent r (d₁ indent) (d₂ indent)) :
    Prints c₁ c₂ g h lack (Tree.composite c (qs.map Place.tree)).Drawable v s
      (Tree.piecesInside flat indent c (qs.map Place.tree))
      (drawComposite put d₁ flat indent c ps s) (Run.drawComposite put d₂ flat indent c ps s) := by
  have hall : ∀ indent extra s, Prints c₁ c₂ g h lack (∀ q ∈ qs, q.tree.Drawable)
      (v.scribble extra) s (Tree.piecesAll flat indent (qs.map Place.tree))
      (Run.drawAll put (d₁ indent) ps s) (Run.drawAll put (d₂ indent) ps s) :=
    fun indent _ _ => drawAll hput hr (hd indent)
  have hplain : (∀ k, c ≠ .control k) →
      ((Tree.composite c (qs.map Place.tree)).Drawable ↔ ∀ q ∈ qs, q.tree.Drawable) := fun hc => by
    rw [Tree.drawable_plain_iff hc, List.forall_mem_map]
  cases c with
  | quote => exact .of_iff (hplain (by simp)) (drawAll hput hr (hd indent))
  | list =>
    refine .of_iff (hplain (by simp)) ?_
    cases hr with
    | nil => exact .of_iff (by simp) (Prints.put hput _)
    | cons hp hr =>
      rw [List.map_cons, Tree.piecesInside, List.cons_append]
      · exact (Prints.put hput _).before ((hall indent _ _).after (Prints.put hput _))
      · simp
  | program =>
    refine .of_iff (hplain (by simp)) ?_
    cases hr with
    | nil => exact .of_iff (by simp) (Prints.put hput _)
    | cons hp hr =>
      rw [List.map_cons, Tree.piecesInside, List.append_assoc, List.append_assoc]
      · exact (Prints.putAll hput _).before ((hall (indent + 1) _ _).after (Prints.putAll hput _))
      · simp
  | control k =>
    have hcontrol : (Tree.composite (.control k) (qs.map Place.tree)).Drawable ↔
        k.words.length = qs.length + 1 ∧ ∀ q ∈ qs, ∀ r ∈ q.children, r.tree.Drawable := by
      rw [Tree.drawable_control_iff, List.length_map, List.forall_mem_map]
      simp only [← Place.map_tree_children, List.forall_mem_map]
    rw [Run.drawComposite, Run.drawComposite, Tree.piecesInside, hr.length_eq]
    split_ifs with hlen
    · refine .of_iff (hcontrol.trans (and_iff_right hlen)) ?_
      exact drawClauses hput hr hlen (hbody (indent + 1))
    · refine Agree.fail (.inr ⟨⟨fun hw => hlen (hcontrol.mp hw).1, rfl⟩, [], ?_⟩)
      exact (Image.scribble_nil v).symm

theorem drawWithin {put : Sink σ} (hput : Adds c₁ c₂ put g h lack) (flat : Bool) {d₁ d₂ : Nat}
    {indent : Nat} {q : Place} (h₁ : q.tree.height ≤ d₁) (h₂ : q.tree.height ≤ d₂) :
    Draws c₁ c₂ g h lack flat indent q (drawWithin put flat d₁ indent)
      (Run.drawWithin put flat d₂ indent) := by
  intro v p s hp
  induction d₁ generalizing d₂ v s indent p q with
  | zero => exact absurd h₁ (Nat.not_le.mpr q.tree.height_pos)
  | succ d₁ ih =>
    obtain ⟨d₂, rfl⟩ := Nat.exists_eq_add_of_lt (q.tree.height_pos.trans_le h₂)
    rw [Nat.zero_add] at h₂ ⊢
    rw [Run.drawWithin, Run.drawWithin]
    refine Agree.bind_yields (fun _ => yields_kind hp) ?_
    obtain ⟨item, offset, t, held⟩ := q
    cases t with
    | composite c ts =>
      have hchild : ∀ q ∈ Place.children ⟨item, offset, .composite c ts, held⟩,
          q.tree.height ≤ d₁ ∧ q.tree.height ≤ d₂ := fun q hq => by
        have hlt := Tree.height_lt_of_mem_children (Place.tree_mem_children hq)
        exact ⟨by omega, by omega⟩
      rw [Tree.pieces_composite, List.append_assoc]
      refine (Prints.putAll hput _).before ?_
      simp only [← bind_assoc]
      refine Prints.after ?_ (Prints.putAll hput _)
      have htrees : ts = (Place.children ⟨item, offset, .composite c ts, held⟩).map Place.tree := by
        rw [Place.map_tree_children]
        rfl
      have hwhole : (Tree.composite c ts).Drawable ↔ (Tree.composite c
          ((Place.children ⟨item, offset, .composite c ts, held⟩).map Place.tree)).Drawable := by
        rw [← htrees]
      have hpieces : Tree.piecesInside flat indent c ts = Tree.piecesInside flat indent c
          ((Place.children ⟨item, offset, .composite c ts, held⟩).map Place.tree) := by
        rw [← htrees]
      rw [hpieces]
      refine .of_iff hwhole (children hp (drawComposite hput c (Image.refers_holdAll _ _) ?_ ?_))
      · intro indent q hq v p s hp
        obtain ⟨h₁, h₂⟩ := hchild q hq
        exact ih h₁ h₂ v p s hp
      · intro indent q hq r hr v p s hp
        obtain ⟨h₁, h₂⟩ := hchild q hq
        have hlt := Tree.height_lt_of_mem_children (Place.tree_mem_children hr)
        exact ih (by omega) (by omega) v p s hp
    | integer negative magnitude =>
      have hk : (Tree.integer negative magnitude).kind = .integer ∨
          (Tree.integer negative magnitude).kind = .negative := by
        simp only [Tree.kind, Tree.recipe, Recipe.kind]
        split_ifs <;> simp
      have hwhole : (Tree.integer negative magnitude).Drawable := by
        refine .atom fun c hc => ?_
        rcases hk with hk | hk
        · cases hk.symm.trans hc
        · cases hk.symm.trans hc
      refine Prints.of_iff (iff_true_intro hwhole) ?_
      rcases hk with hk | hk
      all_goals
        simp only [hk]
        exact Agree.bind_yields (fun _ => yields_value hp) (Prints.putAll hput _)
    | _ =>
      refine Prints.of_iff (iff_true_intro (.atom fun c hc => by cases hc)) ?_
      exact Agree.bind_yields (fun _ => yields_value hp) (Prints.putAll hput _)

theorem draw {put : Sink σ} (hput : Adds c₁ c₂ put g h lack) (flat : Bool) {p : Pointer} {q : Place}
    (hp : v.deref p = some q) :
    Prints c₁ c₂ g h lack q.tree.Drawable v s (q.tree.pieces flat 0) (draw put flat p s)
      (Run.draw put flat p s) := by
  -- Each machine has its own bound for the depth; the object fits in both.
  have hdraw : ∀ c m, Machine.Represents m c v → q.tree.height ≤ c + 1 ∧
      exec (Run.draw put flat p s) m = exec (Run.drawWithin put flat (c + 1) 0 p s) m := by
    rintro c m ⟨kept, free, hl⟩
    have := hl.height_le (Image.mem_places_of_deref hp)
    exact ⟨by omega, by rw [Run.draw, exec_bind_ok (exec_get m), hl.capacity]⟩
  intro m₁ m₂ hm₁ hm₂
  obtain ⟨h₁, he₁⟩ := hdraw c₁ m₁ hm₁
  obtain ⟨h₂, he₂⟩ := hdraw c₂ m₂ hm₂
  rw [he₁, he₂]
  exact drawWithin hput flat h₁ h₂ v p s hp m₁ m₂ hm₁ hm₂

end Prints

/-- A sink that keeps the text to itself. -/
theorem adds_pure (h : σ → String → σ) :
    Adds c₁ c₂ (fun s piece => pure (h s piece)) (fun _ => []) h fun _ _ _ => False :=
  fun v _ _ => Agree.pure ⟨rfl, v.scribble_nil.symm⟩

/-- A sink that writes to the scratchpad and counts the bytes. -/
theorem adds_scratch (hc : c₁ ≤ c₂) :
    Adds c₁ c₂ (fun length piece => do
      scratchAppend (Text.utf8 piece)
      return length + piece.utf8ByteSize) Text.utf8 (fun length piece => length + piece.utf8ByteSize)
      fun used piece e => e = .error (.outOfMemory (Text.utf8 piece).length) ∧
        ¬used + (Text.utf8 piece).length ≤ c₁ := fun v s piece => by
  refine Agree.bind (agree_scratchAppend hc _) ?_
  rintro _ _ ⟨-, rfl⟩
  exact Agree.pure ⟨rfl, rfl⟩

end

variable {c₁ c₂ : Nat} {v : Image} {p : Pointer} {q : Place}

/-- A drawing that does without memory. It succeeds with just the objects that can be drawn. -/
theorem agree_draw {σ : Type} (h : σ → String → σ) (flat : Bool) (hp : v.deref p = some q) (s : σ) :
    Agree c₁ c₂ v (draw (fun s piece => pure (h s piece)) flat p s)
      (draw (fun s piece => pure (h s piece)) flat p s)
      (fun s' v' => s' = (q.tree.pieces flat 0).foldl h s ∧ v' = v ∧ q.tree.Drawable)
      fun e v' => ¬q.tree.Drawable ∧ v' = v ∧ e.blamesClauses := by
  have hempty : ∀ pieces : List String, v.scribble (pieces.flatMap fun _ => []) = v := fun pieces => by
    rw [List.flatMap_eq_nil_iff.mpr fun _ _ => rfl, Image.scribble_nil]
  refine (Prints.draw (adds_pure h) flat hp).mono ?_ ?_
  · rintro _ _ ⟨⟨rfl, rfl⟩, hwhole⟩
    exact ⟨rfl, hempty _, hwhole⟩
  · rintro e _ (⟨_, _, _, _, _, hlack⟩ | ⟨⟨hnot, hblames⟩, done, rfl⟩)
    · exact hlack.elim
    · exact ⟨hnot, hempty done, hblames⟩

theorem foldl_utf8ByteSize (pieces : List String) (s : String) :
    pieces.foldl (fun length piece => length + piece.utf8ByteSize) s.utf8ByteSize =
      (pieces.foldl (· ++ ·) s).utf8ByteSize := by
  induction pieces generalizing s with
  | nil => rfl
  | cons piece pieces ih => rw [List.foldl_cons, List.foldl_cons, ← ih, String.utf8ByteSize_append]

def Overruns (c : Nat) (v : Image) (text : String) (e : Failure) : Prop :=
  e.lacksMemory ∧ ¬v.used + text.utf8ByteSize ≤ c

theorem overruns_of_stops {flat : Bool} {e : Failure} {v' : Image}
    (hs : Stops Text.utf8 (fun used piece e => e = .error (.outOfMemory (Text.utf8 piece).length) ∧
      ¬used + (Text.utf8 piece).length ≤ c₁) v (q.tree.pieces flat 0) e v') :
    Overruns c₁ v (q.tree.rendering flat) e := by
  obtain ⟨done, piece, rest, hpieces, rfl, rfl, hroom⟩ := hs
  refine ⟨rfl, ?_⟩
  rw [← Text.length_utf8, Tree.utf8_rendering, hpieces]
  rw [Image.used_scribble] at hroom
  simp only [List.flatMap_append, List.flatMap_cons, List.length_append]
  omega

theorem agree_renderToScratch (hc : c₁ ≤ c₂) (flat : Bool) (hp : v.deref p = some q) :
    Agree c₁ c₂ v (renderToScratch flat p) (renderToScratch flat p)
      (fun n v' => n = (q.tree.rendering flat).utf8ByteSize ∧
        v' = v.scribble (Text.utf8 (q.tree.rendering flat)))
      fun e v' => (Overruns c₁ v (q.tree.rendering flat) e ∨ ¬q.tree.Drawable ∧ e.blamesClauses) ∧
        v' = v := by
  refine Agree.bind_yields (fun _ => yields_scratchMark) ?_
  refine Agree.onFailure ((Prints.draw (adds_scratch hc) flat hp).mono ?_ fun _ _ h => h) ?_
  · rintro _ _ ⟨⟨rfl, rfl⟩, -⟩
    exact ⟨foldl_utf8ByteSize _ "", by rw [Tree.utf8_rendering]⟩
  · rintro e _ (hstops | ⟨hblames, done, rfl⟩)
    · have hover := overruns_of_stops hstops
      obtain ⟨done, _, _, -, rfl, -⟩ := hstops
      exact ⟨v, fun c => yields_scratchRelease_scribble c _, .inl hover, rfl⟩
    · exact ⟨v, fun c => yields_scratchRelease_scribble c _, .inr hblames, rfl⟩

theorem agree_renderThroughScratch (hc : c₁ ≤ c₂) (flat : Bool) (hp : v.deref p = some q) :
    Agree c₁ c₂ v (renderThroughScratch flat p) (renderThroughScratch flat p)
      (fun s v' => (s = q.tree.rendering flat ∧ v' = v) ∧
        v.used + (q.tree.rendering flat).utf8ByteSize ≤ c₁)
      fun e v' => (Overruns c₁ v (q.tree.rendering flat) e ∨ ¬q.tree.Drawable ∧ e.blamesClauses) ∧
        v' = v := by
  refine Agree.bind_yields (fun _ => yields_scratchMark) ?_
  refine (agree_renderToScratch hc flat hp).bind ?_
  rintro _ _ ⟨-, rfl⟩
  apply Agree.of_used_le
  rw [Image.used_scribble, Text.length_utf8]
  intro hroom
  apply Agree.bind_yields fun _ => yields_scratchAbove (v.length_scratch_le_scribble _)
  apply Agree.bind_yields (fun c => yields_scratchRelease_scribble c _)
  rw [Image.drop_scratch_scribble, Text.ofUtf8?_utf8]
  exact Agree.pure ⟨⟨rfl, rfl⟩, hroom⟩

theorem agree_toText (hc : c₁ ≤ c₂) (hp : v.deref p = some q) :
    Agree c₁ c₂ v (toText p) (toText p)
      (fun p v' => p = ⟨v.slots.length⟩ ∧ v' = v.make (.text (q.tree.rendering false)))
      fun e v' => (e.lacksMemory ∨ ¬q.tree.Drawable ∧ e.blamesClauses) ∧ v' = v := by
  refine Agree.bind_yields (fun _ => yields_scratchMark) ?_
  refine ((agree_renderToScratch hc false hp).mono (fun _ _ h => h)
    fun _ _ h => ⟨h.1.imp_left And.left, h.2⟩).bind ?_
  rintro _ _ ⟨-, rfl⟩
  have ht : (Tree.text (q.tree.rendering false)).encode =
      Encoding.mark .text ++ Encoding.sized (Text.utf8 (q.tree.rendering false)) := by
    rw [Tree.encode]
    rfl
  exact (agree_makeFromScratch_written hc ht).mono (fun _ _ h => h) fun _ _ h => ⟨.inl h.1, h.2⟩

end Run
end RpnMachine
