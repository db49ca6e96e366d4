import RpnMachine.Proofs.Run.Rollback

/-! A command that succeeds touches its arguments and nothing else: how many levels it takes and how
many it leaves is known from its name and the object on top, and what is deeper stays, whatever was
moved in memory meanwhile. EVAL and CLEAR are no such commands. -/
namespace RpnMachine

/-- What a command does to the stack: it removes levels from the top, reads some below those, and adds
new ones. -/
structure Extent where
  removes : Nat
  reads : Nat
  adds : Nat
  deriving DecidableEq, Repr

def Extent.takes (e : Extent) : Nat := e.removes + e.reads

def Extent.counted? (top : Option Value) (f : Nat → Extent) : Option Extent :=
  match top with
  | some (.integer (.ofNat n)) => some (f n)
  | _ => none

/-- What a command does to a stack with this value on top. PICK, DROPN and →LIST refuse what is no
count, and LIST→ what is no list. -/
def Command.extent? (top : Option Value) : Command → Option Extent
  | dup => some ⟨0, 1, 1⟩
  | drop => some ⟨1, 0, 0⟩
  | swap => some ⟨2, 0, 2⟩
  | copyOver => some ⟨0, 2, 1⟩
  | rot => some ⟨3, 0, 3⟩
  | depth | mem => some ⟨0, 0, 1⟩
  | gc => some ⟨0, 0, 0⟩
  | pick => Extent.counted? top fun n => ⟨1, n, 1⟩
  | dropN => Extent.counted? top fun n => ⟨n + 1, 0, 0⟩
  | toList => Extent.counted? top fun n => ⟨n + 1, 0, 1⟩
  | fromList =>
    match top with
    | some (.composite .list n) => some ⟨1, 0, n + 1⟩
    | _ => none
  | dup2 => some ⟨0, 2, 2⟩
  | drop2 | sto => some ⟨2, 0, 0⟩
  | add | sub | mul | div => some ⟨2, 0, 1⟩
  | eq | ne | lt | gt | le | ge => some ⟨2, 0, 1⟩
  | and | or => some ⟨2, 0, 1⟩
  | neg | abs | not => some ⟨1, 0, 1⟩
  | rcl | size | toText => some ⟨1, 0, 1⟩
  | purge => some ⟨1, 0, 0⟩
  | eval | clear => none

/-- What a command made of an image goes no further than its effect on the stack. -/
structure Image.Spans (v : Image) (k : Command) (e : Extent) (w : Image) : Prop where
  extent : k.extent? v.top? = some e
  takes_le : e.takes ≤ v.stack.length
  stack : ∃ new, new.length = e.adds ∧ w.stack = new ++ v.stack.drop e.removes
  setting : w.setting = v.setting
  directory : k ≠ .sto → k ≠ .purge → w.directory = v.directory

namespace Run

variable {c₁ c₂ : Nat} {v w : Image} {k : Command} {n reads : Nat} {new : List Place}

theorem spans_of_replaces (h : v.Replaces n new w)
    (hextent : k.extent? v.top? = some ⟨n, reads, new.length⟩) (hreads : n + reads ≤ v.stack.length) :
    ∃ e, v.Spans k e w := by
  have hcontent := h.content
  injection hcontent with hsetting hstack hdirectory
  exact ⟨_, hextent, hreads, ⟨new, rfl, hstack⟩, hsetting, fun _ _ => hdirectory⟩

theorem Exchanges.spans {act : Run Unit} {P : List Place → Prop} (h : Exchanges c₁ c₂ v act n P)
    (hP : ∀ new, P new → n ≤ v.stack.length →
      ∃ reads, k.extent? v.top? = some ⟨n, reads, new.length⟩ ∧ n + reads ≤ v.stack.length) :
    Agree c₁ c₂ v act act (fun _ w => ∃ e, v.Spans k e w) fun _ _ => True := by
  apply Agree.mono h
  · intro _ w hw
    obtain ⟨new, hnew, hreplaces⟩ := hw
    obtain ⟨reads, hextent, hreads⟩ := hP new hnew hreplaces.le
    exact spans_of_replaces hreplaces hextent hreads
  · exact fun _ _ _ => trivial

/-- A command of which all arguments are removed. -/
theorem Exchanges.spans_removing {act : Run Unit} {P : List Place → Prop} {adds : Nat}
    (h : Exchanges c₁ c₂ v act n P)
    (hadds : ∀ new, P new → n ≤ v.stack.length → new.length = adds)
    (hextent : k.extent? v.top? = some ⟨n, 0, adds⟩) :
    Agree c₁ c₂ v act act (fun _ w => ∃ e, v.Spans k e w) fun _ _ => True :=
  h.spans fun new hnew hn => ⟨0, by rw [hextent, hadds new hnew hn], hn⟩

theorem LoneAtom.length_eq (h : LoneAtom new) : new.length = 1 := by
  obtain ⟨q, rfl, -⟩ := h
  rfl

end Run

namespace Command

open Run

variable {c₁ c₂ : Nat} {v : Image}

theorem extent?_of_operands? {k : Command} {n : Nat} (h : k.operands? = some n)
    (top : Option Value) : k.extent? top = some ⟨n, 0, 1⟩ := by
  cases k <;> cases h <;> rfl

/-- Every command but EVAL and CLEAR keeps to its effect on the stack, and only STO and PURGE change
the directory. -/
theorem spans_run (hc : c₁ ≤ c₂) (execute : Pointer → Run Unit) {k : Command} (heval : k ≠ .eval)
    (hclear : k ≠ .clear) (hmem : k = .mem → c₁ = c₂) :
    Agree c₁ c₂ v (k.run execute) (k.run execute) (fun _ w => ∃ e, v.Spans k e w)
      fun _ _ => True := by
  have hnil : ∀ (n : Nat) (new : List Place), new = [] → n ≤ v.stack.length → new.length = 0 :=
    fun _ _ h _ => congrArg List.length h
  have hroll : ∀ (n : Nat) (new : List Place), new.Perm (v.stack.take n) → n ≤ v.stack.length →
      new.length = n := fun _ _ h hn => h.length_eq.trans (List.length_take_of_le hn)
  cases hoperands : k.operands? with
  | some n =>
    apply (exchanges_run hc execute hoperands hmem).spans_removing
    · exact fun _ hnew _ => hnew.length_eq
    · exact extent?_of_operands? hoperands _
  | none =>
    cases k with
    | dup =>
      apply (exchanges_copy hc (by decide)).spans
      rintro new ⟨hl, rfl⟩
      exact fun _ => ⟨1, rfl, by omega⟩
    | copyOver =>
      apply (exchanges_copy hc (by decide)).spans
      rintro new ⟨hl, rfl⟩
      exact fun _ => ⟨2, rfl, by omega⟩
    | dup2 =>
      apply (exchanges_dup2 hc).spans
      rintro new ⟨hl, rfl⟩
      have hlength : (v.stack.take 2).length = 2 := by
        rw [List.length_take]
        omega
      exact fun _ => ⟨2, by rw [hlength]; rfl, by omega⟩
    | pick =>
      apply exchanges_pick.spans
      rintro new ⟨n, hn, hvalue, rfl⟩
      exact fun _ => ⟨n, by rw [hvalue]; rfl, by omega⟩
    | drop => exact (exchanges_discard 1).spans_removing (hnil _) rfl
    | drop2 => exact (exchanges_discard 2).spans_removing (hnil _) rfl
    | dropN =>
      apply agree_dropN.mono
      · rintro _ w ⟨n, hvalue, hreplaces⟩
        exact spans_of_replaces hreplaces (by rw [hvalue]; rfl) hreplaces.le
      · exact fun _ _ _ => trivial
    | swap => exact (exchanges_roll 1).spans_removing (hroll 2) rfl
    | rot => exact (exchanges_roll 2).spans_removing (hroll 3) rfl
    | clear => exact absurd rfl hclear
    | eval => exact absurd rfl heval
    | sto =>
      apply (agree_sto hc).mono
      · rintro _ w ⟨hn, e, -, hcontent⟩
        injection hcontent with hsetting hstack
        exact ⟨_, rfl, hn, ⟨[], rfl, hstack⟩, hsetting, fun h => absurd rfl h⟩
      · exact fun _ _ _ => trivial
    | rcl =>
      apply exchanges_rcl.spans_removing _ rfl
      rintro _ ⟨e, -, q, -, rfl⟩ -
      rfl
    | purge =>
      apply (agree_purgeName hc).mono
      · rintro _ w ⟨hn, name, hcontent⟩
        injection hcontent with hsetting hstack
        exact ⟨_, rfl, hn, ⟨[], rfl, hstack⟩, hsetting, fun _ h => absurd rfl h⟩
      · exact fun _ _ _ => trivial
    | toList =>
      apply (agree_toList hc).mono
      · rintro _ w ⟨n, q, hvalue, -, hreplaces⟩
        exact spans_of_replaces hreplaces (by rw [hvalue]; rfl) hreplaces.le
      · exact fun _ _ _ => trivial
    | fromList =>
      apply (exchanges_fromList hc).spans
      rintro _ ⟨hn, count, hkind, -, rfl⟩
      have hvalue : v.stack[0].tree.value = .composite .list v.stack[0].tree.children.length := by
        rw [Tree.eq_composite_of_kind hkind]
        rfl
      refine fun _ => ⟨0, ?_, hn⟩
      rw [Image.top?_eq hn, hvalue, List.length_cons, List.length_reverse, Place.length_children]
      rfl
    | gc =>
      apply agree_collect.mono
      · rintro _ w rfl
        exact ⟨_, rfl, Nat.zero_le _, ⟨[], rfl, rfl⟩, rfl, fun _ _ => rfl⟩
      · exact fun _ _ _ => trivial
    | _ => cases hoperands

end Command

namespace Machine

open Run

variable {m m' : Machine} {c : Nat} {v w : Image} {k : Command} {e : Extent}

def top? (m : Machine) : Option Value := (exec (acquiring (peek 0) value) m).1.toOption

theorem Represents.top?_eq (hm : m.Represents c v) : m.top? = v.top? := by
  rw [top?, toOption_peek_value hm, Image.top?, List.head?_eq_getElem?]

/-- A command with this effect may have made the second machine of the first one: what lies deeper than
the levels that it removes is there byte by byte, below the levels that it adds. -/
structure Spans (m : Machine) (k : Command) (e : Extent) (m' : Machine) : Prop where
  extent : k.extent? m.top? = some e
  takes_le : e.takes ≤ m.heap.depth
  depth : m'.heap.depth + e.removes = m.heap.depth + e.adds
  deeper : m'.stackBytes.drop e.adds = m.stackBytes.drop e.removes
  objects : ∃ objects : List (List UInt8), m.stackBytes = objects.map some
  scratchpad : m'.heap.scratchpad = m.heap.scratchpad
  entries : k ≠ .sto → k ≠ .purge →
    ∃ entries, m.entries? = some entries ∧ m'.entries? = some entries

theorem Represents.spans (hm : m.Represents c v) (hm' : m'.Represents c w) (h : v.Spans k e w) :
    m.Spans k e m' := by
  have htop := hm.top?_eq
  obtain ⟨kept, free, hl⟩ := hm
  obtain ⟨kept', free', hl'⟩ := hm'
  obtain ⟨new, hnew, hstack⟩ := h.stack
  have htakes := h.takes_le
  rw [Extent.takes] at htakes
  constructor
  · rw [htop, h.extent]
  · rw [hl.depth_eq]
    exact h.takes_le
  · rw [hl.depth_eq, hl'.depth_eq, hstack, List.length_append, List.length_drop, hnew]
    omega
  · have hlength : (new.map fun q => some q.tree.encode).length = e.adds := by
      rw [List.length_map, hnew]
    rw [hl'.stackBytes_eq, hl.stackBytes_eq, hstack, List.map_append, ← hlength, List.drop_left,
      List.map_drop]
  · exact hl.represents.exists_objects
  · rw [hl'.scratchpad_eq, hl.scratchpad_eq, Image.scratch_eq_of_setting h.setting]
  · intro hsto hpurge
    refine ⟨v.listing, hl.entries?_eq, ?_⟩
    rw [hl'.entries?_eq, Image.listing, Image.listing, h.directory hsto hpurge]

/-- A command that succeeds does no more than its effect on the stack says, and only STO and PURGE
change the directory. -/
theorem spans_of_command (hc : c < Word.bound Heap.slotSize) {actions : List Action}
    (h : Acts (ofCapacity c) actions m) (heval : k ≠ .eval) (hclear : k ≠ .clear) {passes : Nat}
    (hsucceeds : exec (command passes (.command k)) m = (.ok (), m')) : ∃ e, m.Spans k e m' := by
  obtain ⟨v, hm, -⟩ := h.exists_represents (represents_ofCapacity hc)
  obtain ⟨execute, hrun⟩ := exists_exec_run hsucceeds
  obtain ⟨o, m₁, w, hexec, hm', hpost, -⟩ :=
    k.spans_run le_rfl execute heval hclear (fun _ => rfl) m m hm hm
  cases hrun.symm.trans hexec
  exact hpost.imp fun _ hspans => hm.spans hm' hspans

def counted : List Action :=
  [.make (Tree.integer false 5).recipe, .push ⟨0⟩, .make (Tree.integer true 6).recipe, .push ⟨1⟩,
    .make (Tree.integer false 1).recipe, .push ⟨2⟩]

theorem acts_counted : ∃ m, Acts (ofCapacity 32) counted m ∧ m.top? = some (.integer 1) ∧
    (exec (command 1 (.command .toList)) m).1 = .ok () :=
  ⟨_, .cons ⟨by decide, .integer false 5, Tree.encode_eq _⟩ <| .cons ⟨by decide +kernel, trivial⟩ <|
    .cons ⟨by decide, .integer true 6, Tree.encode_eq _⟩ <| .cons ⟨by decide +kernel, trivial⟩ <|
    .cons ⟨by decide, .integer false 1, Tree.encode_eq _⟩ <| .cons ⟨by decide +kernel, trivial⟩ <|
    .nil _, by decide +kernel, by decide +kernel⟩

/-- The number below the one that is gathered is still itself. -/
theorem spans_counted_toList : ∃ m m', Acts (ofCapacity 32) counted m ∧
    exec (command 1 (.command .toList)) m = (.ok (), m') ∧ m.Spans .toList ⟨2, 0, 1⟩ m' := by
  obtain ⟨m, hm, htop, hsucceeds⟩ := acts_counted
  obtain ⟨e, hspans⟩ := spans_of_command (by decide) hm (by decide) (by decide) (Prod.ext hsucceeds rfl)
  have hextent := hspans.extent
  rw [htop] at hextent
  cases hextent
  exact ⟨m, _, hm, Prod.ext hsucceeds rfl, hspans⟩

end Machine
end RpnMachine
