import RpnMachine.Proofs.Run.Agreement

/-! What single operations make of what a machine holds. Those that need memory may lack it on the
smaller one of two machines. -/
namespace RpnMachine

namespace Run

variable {α β : Type} {c c₁ c₂ : Nat} {v v' : Image}

section Yields

variable {p : Pointer} {q : Place}

theorem yields_bytes (hp : v.deref p = some q) : Yields c v (bytes p) (.ok q.tree.encode) v :=
  fun m hm => let ⟨_, _, h⟩ := hm; ⟨m, h.exec_bytes hp, hm⟩

theorem yields_kind (hp : v.deref p = some q) : Yields c v (kind p) (.ok q.tree.kind) v :=
  fun m hm => let ⟨_, _, h⟩ := hm; ⟨m, h.exec_kind hp, hm⟩

theorem yields_value (hp : v.deref p = some q) : Yields c v (value p) (.ok q.tree.value) v :=
  fun m hm => let ⟨_, _, h⟩ := hm; ⟨m, h.exec_value hp, hm⟩

theorem yields_clone (hp : v.deref p = some q) :
    Yields c v (clone p) (.ok ⟨v.slots.length⟩) (v.hold q) := fun m hm => by
  obtain ⟨_, _, h⟩ := hm
  obtain ⟨m', he, h'⟩ := h.exec_clone hp
  exact ⟨m', he, h'.represents⟩

theorem yields_children (hp : v.deref p = some q) :
    Yields c v (children p) (.ok ((List.range' v.slots.length q.children.length).map Pointer.mk))
      (v.holdAll q.children) := fun m hm => by
  obtain ⟨_, _, h⟩ := hm
  obtain ⟨m', he, h'⟩ := h.exec_children hp
  exact ⟨m', he, h'.represents⟩

theorem yields_release {p : Pointer} (hp : p.slot < v.slots.length) :
    Yields c v (release p) (.ok ()) (v.release p) := fun m hm => by
  obtain ⟨_, _, h⟩ := hm
  obtain ⟨m', he, h'⟩ := h.exec_release hp
  exact ⟨m', he, h'.represents⟩

theorem Yields.ensuring {act : Run α} {after : Run Unit} {o : Except Failure α} {w : Image}
    (h : Yields c v act o v') (hafter : Yields c v' after (.ok ()) w) :
    Yields c v (ensuring after act) o w := by
  intro m hm
  obtain ⟨m', he, hm'⟩ := h m hm
  obtain ⟨m'', he', hm''⟩ := hafter m' hm'
  refine ⟨m'', ?_, hm''⟩
  rw [exec_ensuring (by rw [he]; exact he'), he]

theorem Yields.holding {act : Run α} {o : Except Failure α} (h : Yields c v act o v')
    {p : Pointer} (hp : p.slot < v'.slots.length) :
    Yields c v (holding p act) o (v'.release p) := h.ensuring (yields_release hp)

theorem Yields.acquiring {acquire : Run Pointer} {f : Pointer → Run α} {o : Except Failure α}
    {w : Image} (h : Yields c v acquire (.ok p) v') (hf : Yields c v' (f p) o w)
    (hp : p.slot < w.slots.length) : Yields c v (acquiring acquire f) o (w.release p) :=
  h.bind (hf.holding hp)

theorem Agree.holding {act₁ act₂ : Run α} {ok : α → Image → Prop} {error : Failure → Image → Prop}
    (h : Agree c₁ c₂ v act₁ act₂ (fun a v' => p.slot < v'.slots.length ∧ ok a (v'.release p))
      fun e v' => p.slot < v'.slots.length ∧ error e (v'.release p)) :
    Agree c₁ c₂ v (holding p act₁) (Run.holding p act₂) ok error :=
  have hafter : ∀ (c : Nat) (w : Image), p.slot < w.slots.length →
      Yields c w (release p) (.ok ()) (w.release p) := fun _ _ => yields_release
  .ensuring hafter h

theorem yields_scratchMark : Yields c v scratchMark (.ok v.scratch.length) v :=
  fun m hm => let ⟨_, _, h⟩ := hm; ⟨m, h.exec_scratchMark, hm⟩

theorem yields_scratchRelease {mark : Nat} (hm : mark ≤ v.scratch.length) :
    Yields c v (scratchRelease mark) (.ok ()) { v with scratch := v.scratch.take mark } :=
  fun m ⟨_, _, h⟩ => by
    obtain ⟨m', _, he, h'⟩ := h.exec_scratchRelease hm
    exact ⟨m', he, h'.represents⟩

theorem yields_scratchRelease_error {mark : Nat} (hm : ¬mark ≤ v.scratch.length) :
    Yields c v (scratchRelease mark) (.error .corrupt) v :=
  fun m hrep => let ⟨_, _, h⟩ := hrep; ⟨m, h.exec_scratchRelease_error hm, hrep⟩

theorem yields_scratchAbove {mark : Nat} (hm : mark ≤ v.scratch.length) :
    Yields c v (scratchAbove mark) (.ok (v.scratch.drop mark)) v :=
  fun m hrep => let ⟨_, _, h⟩ := hrep; ⟨m, h.exec_scratchAbove hm, hrep⟩

theorem yields_depth : Yields c v depth (.ok v.stack.length) v :=
  fun m hm => let ⟨_, _, h⟩ := hm; ⟨m, h.exec_depth, hm⟩

theorem yields_args {n : Nat} (hn : n ≤ v.stack.length) : Yields c v (args n) (.ok ()) v :=
  fun m hm => let ⟨_, _, h⟩ := hm; ⟨m, h.exec_args hn, hm⟩

theorem yields_args_error {n : Nat} (hn : ¬n ≤ v.stack.length) :
    Yields c v (args n) (.error (.error (.tooFewArguments n v.stack.length))) v :=
  fun m hm => let ⟨_, _, h⟩ := hm; ⟨m, h.exec_args_error hn, hm⟩

theorem yields_peek {level : Nat} (hl : level < v.stack.length) :
    Yields c v (peek level) (.ok ⟨v.slots.length⟩) (v.hold v.stack[level]) :=
  fun m ⟨_, _, h⟩ => by
    obtain ⟨m', he, h'⟩ := h.exec_peek level hl
    exact ⟨m', he, h'.represents⟩

theorem yields_peek_error (level : Nat) (hl : ¬level < v.stack.length) :
    Yields c v (peek level) (.error (unreached level v.stack.length)) v :=
  fun m hm => by
    obtain ⟨_, _, h⟩ := hm
    exact ⟨m, exec_bind_error (h.exec_reach_error hl) _, h.represents⟩

theorem yields_pop {qs : List Place} (hs : v.stack = q :: qs) :
    Yields c v pop (.ok ⟨v.slots.length⟩) { v.hold q with stack := qs } :=
  fun m ⟨_, _, h⟩ => by
    obtain ⟨m', _, he, h'⟩ := h.exec_pop hs
    exact ⟨m', he, h'.represents⟩

theorem yields_pop_error (hs : v.stack = []) : Yields c v pop (.error (unreached 0 0)) v :=
  fun m hm => by
    obtain ⟨m', he, hm'⟩ := yields_peek_error 0 (by simp [hs]) m hm
    rw [hs] at he
    exact ⟨m', exec_bind_error he _, hm'⟩

theorem yields_put {level : Nat} (hl : level < v.stack.length) (hp : v.deref p = some q) :
    Yields c v (put level p) (.ok ()) { v with stack := v.stack.set level q } :=
  fun m ⟨_, _, h⟩ => by
    obtain ⟨m', he, h'⟩ := h.exec_put hl hp
    exact ⟨m', he, h'.represents⟩

theorem yields_put_error {level : Nat} (hl : ¬level < v.stack.length) (p : Pointer) :
    Yields c v (put level p) (.error (unreached level v.stack.length)) v :=
  fun m hm => by
    obtain ⟨_, _, h⟩ := hm
    exact ⟨m, exec_bind_error (h.exec_reach_error hl) _, h.represents⟩

theorem yields_discard {n : Nat} (hn : n ≤ v.stack.length) :
    Yields c v (discard n) (.ok ()) { v with stack := v.stack.drop n } :=
  fun m ⟨_, _, h⟩ => by
    obtain ⟨m', _, he, h'⟩ := h.exec_discard hn
    exact ⟨m', he, h'.represents⟩

theorem yields_discard_error {n : Nat} (hn : ¬n ≤ v.stack.length) :
    Yields c v (discard n) (.error (.error (.tooFewArguments n v.stack.length))) v :=
  fun m hm => by
    obtain ⟨m', he, hm'⟩ := yields_args_error hn m hm
    exact ⟨m', exec_bind_error he _, hm'⟩

theorem yields_clear : Yields c v clear (.ok ()) { v with stack := [] } :=
  fun m ⟨_, _, h⟩ => by
    obtain ⟨m', _, he, h'⟩ := h.exec_clear
    exact ⟨m', he, h'.represents⟩

theorem yields_roll {n : Nat} (hn : n < v.stack.length) :
    Yields c v (roll (n + 1)) (.ok ())
      { v with stack := v.stack[n] :: v.stack.take n ++ v.stack.drop (n + 1) } :=
  fun m ⟨_, _, h⟩ => by
    obtain ⟨m', he, h'⟩ := h.exec_roll hn
    exact ⟨m', he, h'.represents⟩

theorem yields_roll_error {n : Nat} (hn : ¬n < v.stack.length) :
    Yields c v (roll (n + 1)) (.error (.error (.tooFewArguments (n + 1) v.stack.length))) v :=
  fun m hm => by
    obtain ⟨m', he, hm'⟩ := yields_args_error (n := n + 1) hn m hm
    exact ⟨m', exec_bind_error he _, hm'⟩

theorem yields_lookup_none {name : String} (hn : name ∉ v.directory.map Entry.name) :
    Yields c v (lookup name) (.ok none) v :=
  fun m hm => let ⟨_, _, h⟩ := hm; ⟨m, h.exec_lookup_none hn, hm⟩

theorem yields_lookup {e : Entry} {before after : List Entry}
    (hs : v.directory = before ++ e :: after) :
    Yields c v (lookup e.name) (.ok (some ⟨v.slots.length⟩)) (v.hold (.whole e.object)) :=
  fun m ⟨_, _, h⟩ => by
    obtain ⟨m', he, h'⟩ := h.exec_lookup hs
    exact ⟨m', he, h'.represents⟩

end Yields

/-! Operations that need memory. -/

section Memory

variable {p : Pointer} {q : Place}

def Denied (c : Nat) (v : Image) (n : Nat) (e : Failure) : Prop :=
  e = .error (.outOfMemory n) ∧ ¬v.used + n ≤ c

theorem Denied.lacksMemory {n : Nat} {e : Failure} (h : Denied c v n e) : e.lacksMemory := by
  rw [h.1]
  rfl

/-- An operation that needs room for `n` bytes. -/
theorem Agree.of_room (hc : c₁ ≤ c₂) {act : Run α} {n : Nat} {a : α} {ok : α → Image → Prop}
    {failed : Image} (hok : ∀ c, v.used + n ≤ c → Yields c v act (.ok a) v')
    (herror : ∀ c, ¬v.used + n ≤ c → Yields c v act (.error (.error (.outOfMemory n))) failed)
    (hpost : v.used + n ≤ c₁ → ok a v') :
    Agree c₁ c₂ v act act ok fun e w => Denied c₁ v n e ∧ w = failed := by
  by_cases hn : v.used + n ≤ c₁
  · exact .of_yields (hok _ hn) (hok _ (hn.trans hc)) (hpost hn)
  · exact .of_shortage (e := .error (.outOfMemory n)) (herror _ hn) rfl ⟨⟨rfl, hn⟩, rfl⟩

theorem yields_make {t : Tree} (hn : v.used + t.size ≤ c) :
    Yields c v (make t.recipe) (.ok ⟨v.slots.length⟩) (v.make t) := fun m ⟨_, _, h⟩ => by
  obtain ⟨m', _, _, he, h'⟩ := h.exec_make hn
  exact ⟨m', he, h'.represents⟩

theorem yields_make_error {t : Tree} (hn : ¬v.used + t.size ≤ c) :
    Yields c v (make t.recipe) (.error (.error (.outOfMemory t.size))) v := fun m ⟨_, _, h⟩ => by
  obtain ⟨m', _, _, he, h'⟩ := h.exec_make_error hn
  exact ⟨m', he, h'.represents⟩

theorem agree_make (hc : c₁ ≤ c₂) (t : Tree) :
    Agree c₁ c₂ v (make t.recipe) (make t.recipe)
      (fun p v' => p = ⟨v.slots.length⟩ ∧ v' = v.make t)
      fun e v' => Denied c₁ v t.size e ∧ v' = v :=
  .of_room hc (fun _ => yields_make) (fun _ => yields_make_error) fun _ => ⟨rfl, rfl⟩

theorem yields_push (hn : v.used + Heap.slotSize ≤ c) (hp : v.deref p = some q) :
    Yields c v (push p) (.ok ()) { v with stack := q :: v.stack } := fun m ⟨_, _, h⟩ => by
  obtain ⟨m', _, _, he, h'⟩ := h.exec_push hn hp
  exact ⟨m', he, h'.represents⟩

theorem agree_push (hc : c₁ ≤ c₂) (hp : v.deref p = some q) :
    Agree c₁ c₂ v (push p) (push p) (fun u v' => u = () ∧ v' = { v with stack := q :: v.stack })
      fun e v' => Denied c₁ v Heap.slotSize e ∧ v' = v :=
  .of_room hc (fun c hn => yields_push hn hp)
    (fun c hn m ⟨_, _, h⟩ => by
      obtain ⟨m', _, _, he, h'⟩ := h.exec_push_error p hn
      exact ⟨m', he, h'.represents⟩)
    fun _ => ⟨rfl, rfl⟩

theorem agree_scratchAppend (hc : c₁ ≤ c₂) (new : List UInt8) :
    Agree c₁ c₂ v (scratchAppend new) (scratchAppend new)
      (fun u v' => u = () ∧ v' = { v with scratch := v.scratch ++ new })
      fun e v' => Denied c₁ v new.length e ∧ v' = v :=
  .of_room hc
    (fun c hn m ⟨_, _, h⟩ => by
      obtain ⟨m', _, _, he, h'⟩ := h.exec_scratchAppend hn
      exact ⟨m', he, h'.represents⟩)
    (fun c hn m ⟨_, _, h⟩ => by
      obtain ⟨m', _, _, he, h'⟩ := h.exec_scratchAppend_error hn
      exact ⟨m', he, h'.represents⟩)
    fun _ => ⟨rfl, rfl⟩

theorem yields_scratchAppendObject (hp : v.deref p = some q) (hn : v.used + q.tree.size ≤ c) :
    Yields c v (scratchAppendObject p) (.ok ())
      { v with scratch := v.scratch ++ q.tree.encode } := fun m ⟨_, _, h⟩ => by
  obtain ⟨m', _, _, he, h'⟩ := h.exec_scratchAppendObject hp hn
  exact ⟨m', he, h'.represents⟩

theorem agree_scratchAppendObject (hc : c₁ ≤ c₂) (hp : v.deref p = some q) :
    Agree c₁ c₂ v (scratchAppendObject p) (scratchAppendObject p)
      (fun u v' => u = () ∧ v' = { v with scratch := v.scratch ++ q.tree.encode })
      fun e v' => Denied c₁ v q.tree.size e ∧ v' = v :=
  .of_room hc (fun c hn => yields_scratchAppendObject hp hn)
    (fun c hn m ⟨_, _, h⟩ => by
      obtain ⟨m', _, _, he, h'⟩ := h.exec_scratchAppendObject_error hp hn
      exact ⟨m', he, h'.represents⟩)
    fun _ => ⟨rfl, rfl⟩

theorem yields_makeFromScratch {k : Kind} {mark : Nat} {t : Tree} (hm : mark ≤ v.scratch.length)
    (ht : t.encode = Encoding.mark k ++ Encoding.sized (v.scratch.drop mark))
    (hn : v.used + t.size ≤ c) :
    Yields c v (makeFromScratch k mark) (.ok ⟨v.slots.length⟩)
      { v.make t with scratch := v.scratch.take mark } := fun m ⟨_, _, h⟩ => by
  obtain ⟨m', _, _, he, h'⟩ := h.exec_makeFromScratch hm ht hn
  exact ⟨m', he, h'.represents⟩

theorem agree_makeFromScratch (hc : c₁ ≤ c₂) {k : Kind} {mark : Nat} {t : Tree}
    (hm : mark ≤ v.scratch.length)
    (ht : t.encode = Encoding.mark k ++ Encoding.sized (v.scratch.drop mark)) :
    Agree c₁ c₂ v (makeFromScratch k mark) (makeFromScratch k mark)
      (fun p v' => p = ⟨v.slots.length⟩ ∧ v' = { v.make t with scratch := v.scratch.take mark })
      fun e v' => Denied c₁ v t.size e ∧ v' = { v with scratch := v.scratch.take mark } :=
  .of_room hc (fun c hn => yields_makeFromScratch hm ht hn)
    (fun c hn m ⟨_, _, h⟩ => by
      obtain ⟨m', _, _, he, h'⟩ := h.exec_makeFromScratch_error hm ht hn
      exact ⟨m', he, h'.represents⟩)
    fun _ => ⟨rfl, rfl⟩

theorem agree_store (hc : c₁ ≤ c₂) {name : String} (hname : name ≠ "") (hp : v.deref p = some q) :
    Agree c₁ c₂ v (store name p) (store name p)
      (fun u v' => u = () ∧ v' = (v.forget name).enter name q.tree)
      fun e v' => Denied c₁ v (v.demand name (v.newEntry name q.tree).size) e ∧ v' = v :=
  .of_room hc
    (fun c hn m ⟨_, _, h⟩ => by
      obtain ⟨m', _, _, he, h'⟩ := h.exec_store hname hp hn
      exact ⟨m', he, h'.represents⟩)
    (fun c hn m ⟨_, _, h⟩ => by
      obtain ⟨m', _, _, he, h'⟩ := h.exec_store_error hname hp hn
      exact ⟨m', he, h'.represents⟩)
    fun _ => ⟨rfl, rfl⟩

theorem agree_purge (hc : c₁ ≤ c₂) (name : String) :
    Agree c₁ c₂ v (purge name) (purge name)
      (fun b v' => b = v.directory.any (·.name = name) ∧ v' = v.forget name)
      fun e v' => e.lacksMemory ∧ v' = v := by
  have hok : ∀ c, (∀ e ∈ v.directory, e.name = name → v.refersTo e = true → v.used + e.size ≤ c) →
      Yields c v (purge name) (.ok (v.directory.any (·.name = name))) (v.forget name) :=
    fun c hroom m ⟨_, _, h⟩ => by
      obtain ⟨m', _, _, he, h'⟩ := h.exec_purge name hroom
      exact ⟨m', he, h'.represents⟩
  by_cases hroom : ∀ e ∈ v.directory, e.name = name → v.refersTo e = true → v.used + e.size ≤ c₁
  · exact .of_yields (hok _ hroom)
      (hok _ fun e he hname href => (hroom e he hname href).trans hc) ⟨rfl, rfl⟩
  · push Not at hroom
    obtain ⟨e, he, rfl, href, hlt⟩ := hroom
    obtain ⟨before, after, hs⟩ := List.append_of_mem he
    refine .of_shortage (e := .error (.outOfMemory e.size)) (fun m ⟨_, _, h⟩ => ?_) rfl ⟨rfl, rfl⟩
    obtain ⟨m', _, _, he, h'⟩ := h.exec_purge_error hs href (by omega)
    exact ⟨m', he, h'.represents⟩

/-- A collection changes nothing but where things lie. What it says of itself may differ. -/
theorem agree_collect :
    Agree c₁ c₂ v (do let _ ← collect) (do let _ ← collect) (fun _ v' => v' = v) fun _ _ => False :=
  have hyields : ∀ c, Yields c v (do let _ ← collect) (.ok ()) v := fun c m ⟨_, _, h⟩ => by
    obtain ⟨done, m', _, he, h'⟩ := h.exec_collect
    exact ⟨m', exec_bind_ok he _, h'.represents⟩
  .of_yields (hyields _) (hyields _) rfl

end Memory
end Run
end RpnMachine
