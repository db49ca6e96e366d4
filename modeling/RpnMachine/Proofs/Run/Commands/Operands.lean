import RpnMachine.Eval.Commands
import RpnMachine.Proofs.Number.Exact
import RpnMachine.Proofs.Run.Commands.Reworks
import RpnMachine.Proofs.Run.Exchanges

/-! What commands read off their arguments. An argument of the wrong kind is an error, and nothing is
changed by it. -/
namespace RpnMachine

namespace Number

/-- The number of an object: an integer among them has 64 bits. -/
def IsWord : Number → Prop
  | integer i => i.natAbs < Word.bound 8
  | decimal _ => True

theorem isWord_of_value {t : Tree} {n : Number} (h : ofValue? t.value = some n) : n.IsWord := by
  cases t with
  | integer negative magnitude =>
    cases h
    have hlt : magnitude.toNat < Word.bound 8 := magnitude.toNat_lt
    cases negative
    · simpa [IsWord] using hlt
    · simpa [IsWord] using hlt
  | decimal bits =>
    cases h
    trivial
  | _ => cases h

theorem isExpected_of_div {x y : Number} (hx : x.IsWord) {e : Failure} (h : x.div y = .error e) :
    e.isExpected := by
  unfold div at h
  by_cases hzero : y.isZero
  · rw [if_pos hzero] at h
    cases h
    rfl
  rw [if_neg hzero] at h
  cases x with
  | integer a =>
    cases y with
    | integer b =>
      simp only [checked_eq (natAbs_tdiv_lt hx b)] at h
      split_ifs at h
    | decimal y => cases h
  | decimal x => cases h

theorem isExpected_of_neg {x : Number} (hx : x.IsWord) {e : Failure} (h : x.neg = .error e) :
    e.isExpected := by
  cases x with
  | integer i =>
    have hlt : (-i).natAbs < Word.bound 8 := by rwa [Int.natAbs_neg]
    rw [neg, checked_eq hlt] at h
    cases h
  | decimal x => cases h

theorem isExpected_of_abs {x : Number} (hx : x.IsWord) {e : Failure} (h : x.abs = .error e) :
    e.isExpected := by
  cases x with
  | integer i =>
    have hlt : ((i.natAbs : Int)).natAbs < Word.bound 8 := by rwa [Int.natAbs_natCast]
    rw [abs, checked_eq hlt] at h
    cases h
  | decimal x => cases h

theorem isExpected_of_recipe {x : Number} {e : Error} (h : x.recipe = .error e) :
    (Failure.error e).isExpected := by
  cases x with
  | integer i => cases h
  | decimal x =>
    simp only [recipe] at h
    split_ifs at h
    cases h
    rfl

/-- The object of a number is no composite. -/
theorem exists_tree_of_recipe {y : Number} {r : Recipe} (h : y.recipe = .ok r) :
    ∃ t : Tree, t.recipe = r ∧ t.IsAtom := by
  cases y with
  | integer i =>
    simp only [recipe, Except.ok.injEq] at h
    subst h
    rw [Recipe.ofInt?]
    split_ifs
    · exact ⟨.integer _ _, rfl, trivial⟩
    · exact ⟨.decimal _, rfl, trivial⟩
  | decimal x =>
    simp only [recipe] at h
    split_ifs at h
    cases h
    exact ⟨.decimal _, rfl, trivial⟩

end Number

namespace Run

variable {c₁ c₂ : Nat} {v : Image} {p p' : Pointer} {q q' : Place}

theorem reads_number (hp : v.deref p = some q) : Reads c₁ c₂ v (number p) Number.IsWord := by
  apply Reads.bind_yields fun _ => yields_value hp
  split
  · next n hn => exact .pure (Number.isWord_of_value hn)
  · exact .fail rfl

theorem reads_truth (hp : v.deref p = some q) : Reads c₁ c₂ v (truth p) fun _ => True := by
  apply Reads.bind_yields fun _ => yields_value hp
  split
  · exact .pure trivial
  · exact .fail rfl

theorem reads_natural (hp : v.deref p = some q) :
    Reads c₁ c₂ v (natural p) fun n => q.tree.value = .integer n := by
  apply Reads.bind_yields fun _ => yields_value hp
  split
  · next n hn => exact .pure hn
  · exact .fail rfl

theorem reads_order (hp : v.deref p = some q) (hp' : v.deref p' = some q') :
    Reads c₁ c₂ v (order p p') fun _ => True := by
  apply Reads.bind_yields fun _ => yields_value hp
  apply Reads.bind_yields fun _ => yields_value hp'
  split
  · exact .pure trivial
  · apply (reads_number hp).bind
    intro x _
    exact (reads_number hp').bind fun y _ => .pure trivial

theorem reads_same (hp : v.deref p = some q) (hp' : v.deref p' = some q') :
    Reads c₁ c₂ v (same p p') fun _ => True := by
  have hnumber : ∀ t : Tree, t.Fits → Reads c₁ c₂ v (same.number? t.encode) fun _ => True := by
    intro t ht
    unfold same.number?
    rw [Tree.value?_encode ht]
    exact .pure trivial
  apply Agree.of_lays
  intro m kept free hl
  apply Reads.bind_yields fun _ => yields_bytes hp
  apply Reads.bind_yields fun _ => yields_bytes hp'
  apply (hnumber q.tree (hl.fits (Image.mem_places_of_deref hp))).bind
  intro x _
  apply (hnumber q'.tree (hl.fits (Image.mem_places_of_deref hp'))).bind
  intro y _
  split
  · exact .pure trivial
  · exact .pure trivial

/-- Names are not empty, since no symbol is. -/
theorem reads_nameOf (hp : v.deref p = some q) :
    Reads c₁ c₂ v (nameOf p) fun name => q.tree.Sound → name ≠ "" := by
  apply Reads.bind_yields fun _ => yields_kind hp
  dsimp only
  split
  · apply Reads.children hp
    cases hq : q.children with
    | nil => exact .fail rfl
    | cons r rs =>
      have hr := v.deref_holdAll_getElem (r :: rs) (i := 0) (by simp)
      rw [Image.pointers_cons]
      apply Reads.bind_yields fun _ => yields_value hr
      split
      · next s hs =>
        have hmem : r.tree ∈ q.tree.children := Place.tree_mem_children (by simp [hq])
        exact .pure fun hsound => (hsound.of_mem_children hmem).ne_empty hs
      · exact .fail rfl
  · apply Agree.of_valid
    intro hv
    apply Agree.bind_yields fun _ => yields_clone hp
    have hrelease := Image.release_hold_self hv q
    have hlt : (v.hold q).slots = (v.holdAll [q]).slots := rfl
    apply Agree.holdingAll hv [q]
    apply Agree.mono (Reads.bind_yields (P := fun name => q.tree.Sound → name ≠ "")
      (fun _ => yields_value (v.deref_hold_self q)) ?_)
    · intro name w hw
      exact ⟨hw.1 ▸ hlt, hw.1 ▸ hrelease, hw.2⟩
    · intro e w hw
      exact ⟨hw.1 ▸ hlt, hw.1 ▸ hrelease, hw.2⟩
    · split
      · next s hs => exact .pure fun hsound => hsound.ne_empty hs
      · exact .fail rfl

/-- Counts stop at 64 bits, but no stack is that deep. -/
theorem reads_argsBelow (n : Nat) : Reads c₁ c₂ v (argsBelow n) fun _ => n < v.stack.length := by
  apply Agree.of_lays
  intro m kept free hl
  have hlength := hl.length_stack_lt
  apply Agree.mono (reads_args _)
  · intro _ w hw
    exact ⟨hw.1, by have := hw.2; omega⟩
  · exact fun _ _ h => h

end Run

end RpnMachine
