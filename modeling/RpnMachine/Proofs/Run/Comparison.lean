import RpnMachine.Proofs.Number.Value
import RpnMachine.Proofs.Run.Arithmetic

/-! The commands that compare two numbers leave one or zero for what their comparison tells, and of any
numbers on integer and decimal objects the comparisons are consistent, but for one thing: two different
integers may both be the same as one decimal. -/
namespace RpnMachine

namespace Run

variable {c c₁ c₂ : Nat} {v : Image} {p p' : Pointer} {q q' : Place} {x y : Number}

theorem yields_order (hp : v.deref p = some q) (hp' : v.deref p' = some q')
    (hx : Number.ofValue? q.tree.value = some x) (hy : Number.ofValue? q'.tree.value = some y) :
    Yields c v (order p p') (.ok (x.compare? y)) v := by
  apply (yields_value hp).bind
  apply (yields_value hp').bind
  split
  · next s _ hs _ =>
    rw [hs] at hx
    cases hx
  · apply (yields_number hp hx).bind
    exact (yields_number hp' hy).bind (.pure _)

theorem yields_same (hp : v.deref p = some q) (hp' : v.deref p' = some q')
    (hx : Number.ofValue? q.tree.value = some x) (hy : Number.ofValue? q'.tree.value = some y) :
    Yields c v (same p p') (.ok (x.equal y)) v := by
  have hnumber : ∀ {t : Tree} {z : Number}, t.Fits → Number.ofValue? t.value = some z →
      Yields c v (same.number? t.encode) (.ok (some z)) v := by
    intro t z ht hz
    unfold same.number?
    rw [Tree.value?_encode ht]
    simp only [← hz]
    exact .pure _
  intro m hm
  obtain ⟨kept, free, hl⟩ := hm
  refine Yields.bind (yields_bytes hp) ?_ m hl.represents
  apply (yields_bytes hp').bind
  apply (hnumber (hl.fits (Image.mem_places_of_deref hp)) hx).bind
  exact (hnumber (hl.fits (Image.mem_places_of_deref hp')) hy).bind (.pure _)

/-- Two objects are compared and both give way to a truth value. -/
theorem supplants_compareWith (hc : c₁ ≤ c₂) {test : Pointer → Pointer → Run Bool} {b : Bool}
    (hn₀ : 0 < v.stack.length) (hn : 1 < v.stack.length)
    (htest : ∀ c w p p', Image.deref w p = some v.stack[1] → w.deref p' = some v.stack[0] →
      Yields c w (test p p') (.ok b) w) :
    Supplants c₁ c₂ v 2 (.integer false b.toNat.toUInt64) (compareWith test) := by
  have hheld : 0 < (v.hold v.stack[1]).stack.length := hn₀
  have hp := Image.deref_hold (v.deref_hold_self v.stack[1]) (v.hold v.stack[1]).stack[0]
  have hp' := (v.hold v.stack[1]).deref_hold_self (v.hold v.stack[1]).stack[0]
  have hread : ∀ c, Yields c v (acquiring (peek 1) fun p => acquiring (peek 0) (test p)) (.ok b) v :=
    fun c => Yields.peeking hn (Yields.peeking hheld (htest c _ _ _ hp hp'))
  apply Agree.bind_yields fun _ => yields_args hn
  apply Agree.bind_yields hread
  exact supplants_making hc (.integer false b.toNat.toUInt64) hn

theorem supplants_ordered (hc : c₁ ≤ c₂) (hn₀ : 0 < v.stack.length) (hn : 1 < v.stack.length)
    (hx : Number.ofValue? v.stack[1].tree.value = some x)
    (hy : Number.ofValue? v.stack[0].tree.value = some y) (test : Ordering → Bool) :
    Supplants c₁ c₂ v 2 (.integer false ((x.compare? y).any test).toNat.toUInt64) (ordered test) :=
  supplants_compareWith hc hn₀ hn fun _ _ _ _ hp hp' => (yields_order hp hp' hx hy).bind (.pure _)

end Run

namespace Number

def IsFinite : Number → Prop
  | integer _ => True
  | decimal x => x.isFinite

theorem held_of_value {t : Tree} {x : Number} (h : ofValue? t.value = some x) (hx : x.IsFinite) :
    x.Held := by
  cases x with
  | integer i => exact isWord_of_value h
  | decimal d => exact hx

def IsTruth (b : Bool) : List UInt8 → Prop := IsInteger b.toNat

theorem isTruth_encode (b : Bool) : IsTruth b (Tree.integer false b.toNat.toUInt64).encode := by
  have hword : word b.toNat = .integer false b.toNat.toUInt64 := by cases b <;> rfl
  rw [← hword]
  exact isInteger_word (by cases b <;> decide)

end Number

namespace Machine

open Run

variable {m : Machine} {c passes : Nat} {v : Image} {x y : Number}

/-- What the comparing commands make of the numbers `x` and `y`, which lie on top of the stack with `y`
above `x`, and the laws that hold of them and any third number. -/
structure Compares (m : Machine) (passes : Nat) (x y : Number) : Prop where
  eq : m.Leaves passes .eq 2 (Number.IsTruth (x.equal y))
  ne : m.Leaves passes .ne 2 (Number.IsTruth !x.equal y)
  lt : m.Leaves passes .lt 2 (Number.IsTruth ((x.compare? y).any Ordering.isLT))
  gt : m.Leaves passes .gt 2 (Number.IsTruth ((x.compare? y).any Ordering.isGT))
  le : m.Leaves passes .le 2 (Number.IsTruth ((x.compare? y).any Ordering.isLE))
  ge : m.Leaves passes .ge 2 (Number.IsTruth ((x.compare? y).any Ordering.isGE))
  consistent : x.IsFinite → y.IsFinite → ∀ z : Number, z.Held → Number.Consistent x y z

theorem Represents.compares (hm : m.Represents c v) (hn₀ : 0 < v.stack.length)
    (hn : 1 < v.stack.length)
    (hx : Number.ofValue? v.stack[1].tree.value = some x)
    (hy : Number.ofValue? v.stack[0].tree.value = some y) : m.Compares passes x y := by
  have hordered : ∀ (k : Command) (test : Ordering → Bool), (∀ execute, k.run execute = ordered test) →
      m.Leaves passes k 2 (Number.IsTruth ((x.compare? y).any test)) := by
    intro k test hk
    refine hm.leaves (fun execute => ?_) (Number.isTruth_encode _)
    rw [hk execute]
    exact supplants_ordered le_rfl hn₀ hn hx hy test
  constructor
  case eq =>
    refine hm.leaves (fun _ => supplants_compareWith le_rfl hn₀ hn ?_) (Number.isTruth_encode _)
    exact fun _ _ _ _ hp hp' => yields_same hp hp' hx hy
  case ne =>
    refine hm.leaves (fun _ => supplants_compareWith le_rfl hn₀ hn ?_) (Number.isTruth_encode _)
    exact fun _ _ _ _ hp hp' => (yields_same hp hp' hx hy).bind (.pure _)
  case lt => exact hordered _ _ fun _ => rfl
  case gt => exact hordered _ _ fun _ => rfl
  case le => exact hordered _ _ fun _ => rfl
  case ge => exact hordered _ _ fun _ => rfl
  case consistent =>
    intro hfx hfy z hz
    exact Number.consistent (Number.held_of_value hx hfx) (Number.held_of_value hy hfy) hz

/-- Whatever two numbers are on top of the stack, the commands tell how they compare. -/
theorem compares_of_acts (hc : c < Word.bound Heap.slotSize) {actions : List Action}
    (h : Acts (ofCapacity c) actions m) {a b : Value}
    (ha : (exec (acquiring (peek 1) value) m).1 = .ok a) (hx : Number.ofValue? a = some x)
    (hb : (exec (acquiring (peek 0) value) m).1 = .ok b) (hy : Number.ofValue? b = some y)
    (passes : Nat) : m.Compares passes x y := by
  obtain ⟨v, hm, -⟩ := h.exists_represents (represents_ofCapacity hc)
  obtain ⟨hn, rfl⟩ := hm.value_of_peek ha
  obtain ⟨hn₀, rfl⟩ := hm.value_of_peek hb
  exact hm.compares hn₀ hn hx hy

/-- The integer after `2 ^ 53`, and above it `2 ^ 53` as a decimal. -/
def neighbours : List Action :=
  [.make (Tree.integer false 9007199254740993).recipe, .push ⟨0⟩,
    .make (Tree.decimal 0x4340000000000000).recipe, .push ⟨1⟩]

theorem compares_neighbours : ∃ m, Acts (ofCapacity 64) neighbours m ∧
    m.Compares 1 (.integer 9007199254740993) (.decimal (Float.ofBits 0x4340000000000000)) := by
  obtain ⟨m, hm, ha, hb⟩ : ∃ m, Acts (ofCapacity 64) neighbours m ∧
      (exec (acquiring (peek 1) value) m).1 = .ok (.integer 9007199254740993) ∧
      (exec (acquiring (peek 0) value) m).1 = .ok (.decimal 0x4340000000000000) :=
    ⟨_, .cons ⟨by decide, .integer false 9007199254740993, Tree.encode_eq _⟩ <|
      .cons ⟨by decide +kernel, trivial⟩ <|
      .cons ⟨by decide, .decimal 0x4340000000000000, Tree.encode_eq _⟩ <|
      .cons ⟨by decide +kernel, trivial⟩ <| .nil _, by decide +kernel, by decide +kernel⟩
  exact ⟨m, hm, compares_of_acts (by decide) hm ha rfl hb rfl 1⟩

end Machine
end RpnMachine
