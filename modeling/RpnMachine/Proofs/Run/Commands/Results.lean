import RpnMachine.Proofs.Run.Commands.Operands

/-! New objects in the place of old ones. A result that cannot be made leaves all as it was. -/
namespace RpnMachine

namespace Run

variable {α : Type} {c₁ c₂ : Nat} {v : Image} {p : Pointer} {q : Place}

def LoneAtom (new : List Place) : Prop := ∃ q, new = [q] ∧ q.tree.IsAtom

theorem LoneAtom.provides {new : List Place} (h : LoneAtom new) : ∀ q ∈ new, v.Provides q.tree := by
  obtain ⟨q, rfl, hq⟩ := h
  simpa using Image.Provides.atom hq

/-- The objects that take the place of others are such that a command can get hold of. -/
theorem Exchanges.reworks {act : Run α} {n : Nat} {P : List Place → Prop}
    (h : Exchanges c₁ c₂ v act n P) (hP : ∀ new, P new → ∀ q ∈ new, v.Provides q.tree) :
    Agree c₁ c₂ v act act (fun _ w => v.Reworks w) (Spares v) := by
  apply Agree.mono h
  · intro _ w hw
    obtain ⟨new, hnew, hreplaces⟩ := hw
    exact hreplaces.reworks (hP new hnew)
  · exact fun _ _ h => h

/-- A number or a text is made, and takes the place of others. -/
theorem exchanges_making (hc : c₁ ≤ c₂) {t : Tree} (ht : t.IsAtom) {n : Nat} {f : Pointer → Run α}
    (h : Exchanges c₁ c₂ (v.make t) (f ⟨v.slots.length⟩) n (· = [.whole (v.newest t)])) :
    Exchanges c₁ c₂ v (making t.recipe f) n LoneAtom := by
  apply Exchanges.making hc ht.sound
  apply h.mono
  intro new hnew
  exact ⟨_, hnew, ht⟩

theorem drop_set_self {l : List α} {n : Nat} (hn : n < l.length) (a : α) :
    (l.set n a).drop n = a :: l.drop (n + 1) := by
  rw [List.set_eq_take_append_cons_drop, if_pos hn, List.drop_append_of_le_length (by simp; omega),
    List.drop_eq_nil_of_le (by simp), List.nil_append]

theorem yields_replace {n : Nat} (hn : n < v.stack.length) (hp : v.deref p = some q) (c : Nat) :
    Yields c v (replace (n + 1) p) (.ok ()) { v with stack := q :: v.stack.drop (n + 1) } := by
  intro m hm
  obtain ⟨m₁, he₁, hm₁⟩ := yields_put hn hp m hm
  have hle : n ≤ ({ v with stack := v.stack.set n q } : Image).stack.length := by
    simp only [List.length_set]
    omega
  obtain ⟨m₂, he₂, hm₂⟩ := yields_discard hle m₁ hm₁
  simp only [drop_set_self hn] at hm₂
  exact ⟨m₂, (exec_bind_ok he₁ _).trans he₂, hm₂⟩

theorem exchanges_put (hn : 0 < v.stack.length) (hp : v.deref p = some q) :
    Exchanges c₁ c₂ v (put 0 p) 1 (· = [q]) := by
  refine .of_yields (fun _ => yields_put hn hp) rfl ?_
  refine ⟨hn, ?_, fun hs => by simpa using hs.of_deref hp⟩
  have hset : v.stack.set 0 q = [q] ++ v.stack.drop 1 := drop_set_self hn q
  rw [← hset]
  rfl

theorem exchanges_replace {n : Nat} (hn : n < v.stack.length) (hp : v.deref p = some q) :
    Exchanges c₁ c₂ v (replace (n + 1) p) (n + 1) (· = [q]) := by
  refine .of_yields (yields_replace hn hp) rfl ⟨hn, rfl, ?_⟩
  intro hs
  simpa using hs.of_deref hp

theorem exchanges_push (hc : c₁ ≤ c₂) (hp : v.deref p = some q) :
    Exchanges c₁ c₂ v (push p) 0 (· = [q]) := by
  apply (agree_push hc hp).mono
  · intro _ w hw
    refine ⟨[q], rfl, Nat.zero_le _, ?_, fun hs => by simpa using hs.of_deref hp⟩
    rw [hw.2]
    rfl
  · intro e w hw
    exact .of_lacksMemory hw.1.lacksMemory (by rw [hw.2])

/-- The object of a number takes the place of the top ones. -/
theorem exchanges_makingNumber (hc : c₁ ≤ c₂) (y : Number) {n : Nat} (hn : n < v.stack.length) :
    Exchanges c₁ c₂ v (do making (← ofExcept y.recipe) (replace (n + 1))) (n + 1) LoneAtom := by
  apply Exchanges.reading (Reads.ofExcept fun e he => Number.isExpected_of_recipe he)
  intro r hr
  obtain ⟨t, rfl, ht⟩ := Number.exists_tree_of_recipe hr
  apply exchanges_making hc ht
  exact exchanges_replace (v := v.make t) hn ((v.add t).deref_hold_self _)

theorem exchanges_makingBool (hc : c₁ ≤ c₂) (b : Bool) {n : Nat} (hn : n < v.stack.length) :
    Exchanges c₁ c₂ v (making (.ofBool b) (replace (n + 1))) (n + 1) LoneAtom := by
  apply exchanges_making (t := .integer false b.toNat.toUInt64) hc trivial
  exact exchanges_replace (v := v.make _) hn ((v.add _).deref_hold_self _)

end Run

end RpnMachine
