import RpnMachine.Proofs.Run.Rollback

/-! The arithmetic commands on two integers leave the exact result, as an integer if it has 64 bits and
otherwise as a decimal. Apart from a division by zero, they fail only where the object of the result
finds no room. -/
namespace RpnMachine

namespace Run

variable {c c₁ c₂ : Nat} {v : Image} {n : Nat} {x y z : Number} {t : Tree}

/-- An object takes the place of the top `n` ones, or there is no room for it. -/
def Supplants (c₁ c₂ : Nat) (v : Image) (n : Nat) (t : Tree) (act : Run Unit) : Prop :=
  Agree c₁ c₂ v act act
    (fun _ w => v.used + t.size ≤ c₁ ∧ ∃ q : Place, q.tree = t ∧
      w.content = { v.content with stack := q :: v.stack.drop n })
    fun e w => Denied c₁ v t.size e ∧ w = v

theorem supplants_making (hc : c₁ ≤ c₂) (t : Tree) (hn : n < v.stack.length) :
    Supplants c₁ c₂ v (n + 1) t (making t.recipe (replace (n + 1))) := by
  apply Agree.of_valid
  intro hv
  have hlt : v.slots.length < (v.make t).slots.length :=
    (v.add t).lt_length_slots (q := .whole (v.newest t)) rfl
  have hreplace := fun c => (yields_replace (v := v.make t) hn ((v.add t).deref_hold_self _) c).holding
    (p := ⟨v.slots.length⟩) hlt
  apply Agree.of_room hc
  · exact fun c hroom => (yields_make hroom).bind (hreplace c)
  · intro c hroom m hm
    obtain ⟨m', he, hm'⟩ := yields_make_error hroom m hm
    exact ⟨m', exec_bind_error he _, hm'⟩
  · exact fun hroom => ⟨hroom, .whole (v.newest t), rfl, Image.content_release_hold (hv.add t) rfl⟩

theorem yields_number {p : Pointer} {q : Place} (hp : v.deref p = some q)
    (hx : Number.ofValue? q.tree.value = some x) : Yields c v (number p) (.ok x) v := by
  apply (yields_value hp).bind
  rw [hx]
  exact .pure x

theorem yields_peek_number {level : Nat} (hl : level < v.stack.length)
    (hx : Number.ofValue? v.stack[level].tree.value = some x) :
    Yields c v (acquiring (peek level) number) (.ok x) v :=
  Yields.peeking hl (yields_number (v.deref_hold_self _) hx)

theorem supplants_unary (hc : c₁ ≤ c₂) {op : Number → Except Failure Number}
    (hn : 0 < v.stack.length) (hx : Number.ofValue? v.stack[0].tree.value = some x)
    (hz : op x = .ok z) (ht : z.recipe = .ok t.recipe) : Supplants c₁ c₂ v 1 t (unary op) := by
  apply Agree.bind_yields fun _ => yields_args hn
  apply Agree.bind_yields fun _ => yields_peek_number hn hx
  rw [hz]
  apply Agree.bind_yields fun _ => Yields.pure z
  rw [ht]
  apply Agree.bind_yields fun _ => Yields.pure t.recipe
  exact supplants_making hc t hn

theorem supplants_binary (hc : c₁ ≤ c₂) {op : Number → Number → Except Failure Number}
    (hn : 1 < v.stack.length) (hx : Number.ofValue? v.stack[1].tree.value = some x)
    (hy : Number.ofValue? v.stack[0].tree.value = some y) (hz : op x y = .ok z)
    (ht : z.recipe = .ok t.recipe) : Supplants c₁ c₂ v 2 t (binary op) := by
  apply Agree.bind_yields fun _ => yields_args hn
  apply Agree.bind_yields fun _ => yields_peek_number hn hx
  apply Agree.bind_yields fun _ => yields_peek_number (Nat.zero_lt_of_lt hn) hy
  rw [hz]
  apply Agree.bind_yields fun _ => Yields.pure z
  rw [ht]
  apply Agree.bind_yields fun _ => Yields.pure t.recipe
  exact supplants_making hc t hn

theorem yields_binary_error {op : Number → Number → Except Failure Number} {e : Failure}
    (hn : 1 < v.stack.length) (hx : Number.ofValue? v.stack[1].tree.value = some x)
    (hy : Number.ofValue? v.stack[0].tree.value = some y) (he : op x y = .error e) :
    Yields c v (binary op) (.error e) v := by
  apply (yields_args hn).bind
  apply (yields_peek_number hn hx).bind
  apply (yields_peek_number (Nat.zero_lt_of_lt hn) hy).bind
  rw [he]
  exact fun m hm => ⟨m, rfl, hm⟩

end Run

namespace Machine

open Run

variable {m m' : Machine} {c passes : Nat} {v w : Image} {x y : Int}

/-- The command puts an object with such bytes in the place of the top `n` ones. Just if there is no room
for the bytes, it fails, and the stack stays as it is. -/
def Leaves (m : Machine) (passes : Nat) (k : Command) (n : Nat) (P : List UInt8 → Prop) : Prop :=
  ∃ bytes, P bytes ∧ ∀ o m', exec (command passes (.command k)) m = (o, m') →
    (o = .ok () ∧ ¬m.Lacks bytes.length ∧ m'.stackBytes = some bytes :: m.stackBytes.drop n) ∨
      (o = .error (.error (.outOfMemory bytes.length)) ∧ m.Lacks bytes.length ∧
        m'.stackBytes = m.stackBytes)

/-- What the arithmetic commands make of the integers `x` and `y`, which lie on top of the stack with `y`
above `x`. -/
structure Computes (m : Machine) (passes : Nat) (x y : Int) : Prop where
  add : m.Leaves passes .add 2 (Number.Exact (x + y))
  sub : m.Leaves passes .sub 2 (Number.Exact (x - y))
  mul : m.Leaves passes .mul 2 (Number.Exact (x * y))
  div : y ≠ 0 → m.Leaves passes .div 2 (Number.Quotient x y)
  div_zero : ∀ o m', exec (command passes (.command .div)) m = (o, m') →
    (o = .error (.error .divideByZero) ↔ y = 0) ∧ (y = 0 → m'.stackBytes = m.stackBytes)
  neg : m.Leaves passes .neg 1 (Number.IsInteger (-y))
  abs : m.Leaves passes .abs 1 (Number.IsInteger |y|)
  /-- No other result on the way needs more than 128 bits. -/
  fits : ∀ i ∈ [x + y, x - y, x.tmod y, x.tdiv y, -y, |y|], Number.fits i

theorem Represents.value_of_peek (hm : m.Represents c v) {level : Nat} {a : Value}
    (h : (exec (acquiring (peek level) value) m).1 = .ok a) :
    ∃ hl : level < v.stack.length, v.stack[level].tree.value = a := by
  have hvalue := toOption_peek_value hm level
  rw [h] at hvalue
  obtain ⟨q, hq, rfl⟩ := Option.map_eq_some_iff.mp hvalue.symm
  obtain ⟨hl, rfl⟩ := List.getElem?_eq_some_iff.mp hq
  exact ⟨hl, rfl⟩

theorem Represents.leaves (hm : m.Represents c v) {k : Command} {n : Nat} {t : Tree}
    {P : List UInt8 → Prop} (h : ∀ execute, Supplants c c v n t (k.run execute)) (hP : P t.encode) :
    m.Leaves passes k n P := by
  refine ⟨t.encode, hP, fun o m' hexec => ?_⟩
  obtain ⟨execute, hrun⟩ := exists_exec_run hexec
  obtain ⟨o', m₁, w, hexec', hm', hpost, -⟩ := h execute m m hm hm
  cases hrun.symm.trans hexec'
  rw [hm.lacks_iff, Tree.length_encode]
  cases o with
  | ok u =>
    obtain ⟨hroom, q, rfl, hcontent⟩ := hpost
    have hstack : w.stack = q :: v.stack.drop n := congrArg Content.stack hcontent
    refine .inl ⟨rfl, not_not_intro hroom, ?_⟩
    rw [hm.stackBytes_eq, hm'.stackBytes_eq, hstack, List.map_cons, List.map_drop]
  | error e =>
    obtain ⟨⟨rfl, hroom⟩, rfl⟩ := hpost
    exact .inr ⟨rfl, hroom, by rw [hm.stackBytes_eq, hm'.stackBytes_eq]⟩

/-- A division by zero is told as such, and changes nothing. -/
theorem Represents.div_zero (hm : m.Represents c v) (hn : 1 < v.stack.length) {a : Number}
    (hx : Number.ofValue? v.stack[1].tree.value = some a)
    (hy : Number.ofValue? v.stack[0].tree.value = some (.integer 0)) {o : Except Failure Unit}
    (h : exec (command passes (.command .div)) m = (o, m')) :
    o = .error (.error .divideByZero) ∧ m'.stackBytes = m.stackBytes := by
  obtain ⟨execute, hrun⟩ := exists_exec_run h
  obtain ⟨m₁, hexec, hm'⟩ := yields_binary_error hn hx hy a.div_zero m hm
  cases hrun.symm.trans hexec
  exact ⟨rfl, by rw [hm.stackBytes_eq, hm'.stackBytes_eq]⟩

theorem Represents.computes (hm : m.Represents c v) (hn : 1 < v.stack.length)
    (hx : v.stack[1].tree.value = .integer x) (hy : v.stack[0].tree.value = .integer y) :
    m.Computes passes x y := by
  have hn₀ : 0 < v.stack.length := Nat.zero_lt_of_lt hn
  have hnx : Number.ofValue? v.stack[1].tree.value = some (.integer x) := by rw [hx]; rfl
  have hny : Number.ofValue? v.stack[0].tree.value = some (.integer y) := by rw [hy]; rfl
  have hwx : x.natAbs < Word.bound 8 := Number.isWord_of_value hnx
  have hwy : y.natAbs < Word.bound 8 := Number.isWord_of_value hny
  have hneg : (-y).natAbs < Word.bound 8 := by rwa [Int.natAbs_neg]
  have habs : |y|.natAbs < Word.bound 8 := by rwa [Int.natAbs_abs]
  have hdiv : y ≠ 0 → m.Leaves passes .div 2 (Number.Quotient x y) := fun hzero => by
    obtain ⟨z, t, hz, ht, hquotient⟩ := Number.exists_tree_div hwx hwy hzero
    exact hm.leaves (fun _ => supplants_binary le_rfl hn hnx hny hz ht) hquotient
  constructor
  case add =>
    obtain ⟨t, ht, hexact⟩ := Number.exists_tree_add hwx hwy
    exact hm.leaves (fun _ => supplants_binary le_rfl hn hnx hny rfl ht) hexact
  case sub =>
    obtain ⟨t, ht, hexact⟩ := Number.exists_tree_sub hwx hwy
    exact hm.leaves (fun _ => supplants_binary le_rfl hn hnx hny rfl ht) hexact
  case mul =>
    obtain ⟨t, ht, hexact⟩ := Number.exists_tree_mul hwx hwy
    exact hm.leaves (fun _ => supplants_binary le_rfl hn hnx hny rfl ht) hexact
  case div => exact hdiv
  case div_zero =>
    intro o m' hexec
    by_cases hzero : y = 0
    · obtain ⟨ho, hbytes⟩ := hm.div_zero hn hnx (hzero ▸ hny) hexec
      exact ⟨iff_of_true ho hzero, fun _ => hbytes⟩
    · refine ⟨iff_of_false ?_ hzero, fun h => absurd h hzero⟩
      obtain ⟨bytes, -, hends⟩ := hdiv hzero
      obtain ⟨rfl, -⟩ | ⟨rfl, -⟩ := hends o m' hexec
      · exact fun h => nomatch h
      · exact fun h => nomatch h
  case neg =>
    have hz : (Number.integer y).neg = .ok (.integer (-y)) := Number.checked_eq hneg
    exact hm.leaves (fun _ => supplants_unary le_rfl hn₀ hny hz (Number.recipe_integer hneg))
      (Number.isInteger_word hneg)
  case abs =>
    have hz : (Number.integer y).abs = .ok (.integer |y|) := by
      rw [Number.abs, Int.natCast_natAbs, Number.checked_eq habs]
    exact hm.leaves (fun _ => supplants_unary le_rfl hn₀ hny hz (Number.recipe_integer habs))
      (Number.isInteger_word habs)
  case fits =>
    simp only [List.forall_mem_cons, List.not_mem_nil, false_imp_iff, implies_true, and_true]
    exact ⟨Number.fits_add hwx hwy, Number.fits_sub hwx hwy,
      Number.fits_of_word (Number.natAbs_tmod_lt hwx y),
      Number.fits_of_word (Number.natAbs_tdiv_lt hwx y), Number.fits_of_word hneg,
      Number.fits_of_word habs⟩

/-- Whatever two integers are on top of the stack, the commands compute with them exactly. -/
theorem computes_of_acts (hc : c < Word.bound Heap.slotSize) {actions : List Action}
    (h : Acts (ofCapacity c) actions m)
    (hx : (exec (acquiring (peek 1) value) m).1 = .ok (.integer x))
    (hy : (exec (acquiring (peek 0) value) m).1 = .ok (.integer y)) (passes : Nat) :
    m.Computes passes x y := by
  obtain ⟨v, hm, -⟩ := h.exists_represents (represents_ofCapacity hc)
  obtain ⟨hn, hx⟩ := hm.value_of_peek hx
  obtain ⟨_, hy⟩ := hm.value_of_peek hy
  exact hm.computes hn hx hy

/-- The largest integer object twice, the second time with a sign. -/
def extremes : List Action :=
  [.make (Tree.integer false 0xffffffffffffffff).recipe, .push ⟨0⟩,
    .make (Tree.integer true 0xffffffffffffffff).recipe, .push ⟨1⟩]

/-- Their product has too many bits for an integer, also for the command itself, and their quotient is
exact. -/
theorem computes_extremes : ∃ m, Acts (ofCapacity 64) extremes m ∧
    m.Computes 1 18446744073709551615 (-18446744073709551615) ∧
    ¬Number.fits (18446744073709551615 * -18446744073709551615) := by
  obtain ⟨m, hm, hx, hy⟩ : ∃ m, Acts (ofCapacity 64) extremes m ∧
      (exec (acquiring (peek 1) value) m).1 = .ok (.integer 18446744073709551615) ∧
      (exec (acquiring (peek 0) value) m).1 = .ok (.integer (-18446744073709551615)) :=
    ⟨_, .cons ⟨by decide, .integer false 0xffffffffffffffff, Tree.encode_eq _⟩ <|
      .cons ⟨by decide +kernel, trivial⟩ <|
      .cons ⟨by decide, .integer true 0xffffffffffffffff, Tree.encode_eq _⟩ <|
      .cons ⟨by decide +kernel, trivial⟩ <| .nil _, by decide +kernel, by decide +kernel⟩
  exact ⟨m, hm, computes_of_acts (by decide) hm hx hy 1, by decide⟩

end Machine
end RpnMachine
