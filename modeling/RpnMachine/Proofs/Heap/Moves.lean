import RpnMachine.Proofs.Heap.Layout

/-! The moves of a collection, and where they take what lies in the items that stay. The move of a
position is found by halving. -/
namespace RpnMachine.Collection

/-- The moves of the items that stay, if items lie from `source` on and those that stay go to
`target`. -/
def movesOf (stays : Item → Bool) (source target : Nat) : List Item → List Move
  | [] => []
  | i :: items =>
    if stays i then ⟨source, target, i.size⟩ :: movesOf stays (source + i.size) (target + i.size) items
    else movesOf stays (source + i.size) target items

variable {stays : Item → Bool} {items : List Item} {target : Nat}

theorem stop_movesOf (stays : Item → Bool) (source target : Nat) (items : List Item) :
    ((movesOf stays source target items).getLast?.map fun v => v.target + v.size).getD target =
      target + (Item.bytes (items.filter stays)).length := by
  induction items generalizing source target with
  | nil => rfl
  | cons i items ih =>
    rw [movesOf]
    cases hs : stays i with
    | true =>
      rw [if_pos rfl, List.filter_cons_of_pos hs, Item.length_bytes_cons, ← Nat.add_assoc,
        ← ih (source + i.size), List.getLast?_cons]
      cases (movesOf stays (source + i.size) (target + i.size) items).getLast? <;> rfl
    | false =>
      rw [if_neg Bool.false_ne_true, List.filter_cons_of_neg (by simp [hs]), ih]

theorem mem_movesOf (source target : Nat) (hd : Item.Distinct items) {i : Item} (hi : i ∈ items)
    (hs : stays i = true) :
    ⟨source + Item.start i.id items, target + Item.start i.id (items.filter stays), i.size⟩ ∈
      movesOf stays source target items := by
  induction items generalizing source target with
  | nil => cases hi
  | cons j items ih =>
    rw [movesOf, Item.start]
    rcases List.mem_cons.mp hi with rfl | hi
    · rw [if_pos rfl, if_pos hs, List.filter_cons_of_pos hs, Item.start, if_pos rfl]
      exact List.mem_cons_self
    · have hne : j.id ≠ i.id := fun e =>
        (List.nodup_cons.mp hd).1 (e ▸ List.mem_map_of_mem hi)
      have hd' : Item.Distinct items := (List.nodup_cons.mp hd).2
      rw [if_neg hne, ← Nat.add_assoc]
      cases hj : stays j with
      | true =>
        rw [if_pos rfl, List.filter_cons_of_pos hj, Item.start, if_neg hne, ← Nat.add_assoc]
        exact List.mem_cons_of_mem _ (ih _ _ hd' hi)
      | false =>
        rw [if_neg Bool.false_ne_true, List.filter_cons_of_neg (by simp [hj])]
        exact ih _ _ hd' hi

theorem le_source_of_mem_movesOf {source : Nat} {v : Move}
    (h : v ∈ movesOf stays source target items) : source ≤ v.source := by
  induction items generalizing source target with
  | nil => cases h
  | cons i items ih =>
    rw [movesOf] at h
    split_ifs at h
    · rcases List.mem_cons.mp h with rfl | h
      · exact Nat.le_refl _
      · exact (Nat.le_add_right _ _).trans (ih h)
    · exact (Nat.le_add_right _ _).trans (ih h)

theorem pairwise_movesOf (stays : Item → Bool) (items : List Item) (source target : Nat) :
    (movesOf stays source target items).Pairwise fun v w => v.source + v.size ≤ w.source := by
  induction items generalizing source target with
  | nil => exact .nil
  | cons i items ih =>
    rw [movesOf]
    split_ifs
    · exact .cons (fun w hw => le_source_of_mem_movesOf hw) (ih _ _)
    · exact ih _ _

/-- The sources of moves rise, and no two moves overlap. -/
def Rising (moves : Array Move) : Prop :=
  ∀ i j (_ : i < j) (_ : j < moves.size), moves[i].source + moves[i].size ≤ moves[j].source

theorem rising_movesOf (stays : Item → Bool) (items : List Item) (source target : Nat) :
    Rising (movesOf stays source target items).toArray := fun i j hij hj => by
  have := List.pairwise_iff_getElem.mp (pairwise_movesOf stays items source target)
  exact this i j (hij.trans (by simpa using hj)) (by simpa using hj) hij

section Rising

variable {moves : Array Move} {position low high : Nat}

theorem Rising.source_le (h : Rising moves) {i j : Nat} (hij : i ≤ j) (hj : j < moves.size) :
    moves[i].source ≤ moves[j].source := by
  rcases Nat.lt_or_eq_of_le hij with hlt | rfl
  · exact Nat.le_trans (Nat.le_add_right _ _) (h i j hlt hj)
  · exact Nat.le_refl _

theorem rank_le (hle : low ≤ high) : rank moves position low high ≤ high := by
  fun_induction rank moves position low high <;> omega

theorem lt_rank_iff (h : Rising moves) (hle : low ≤ high) (hsize : high ≤ moves.size)
    (hlow : ∀ i (_ : i < moves.size), i < low → moves[i].source ≤ position)
    (hhigh : ∀ i (_ : i < moves.size), high ≤ i → position < moves[i].source)
    (i : Nat) (hi : i < moves.size) :
    i < rank moves position low high ↔ moves[i].source ≤ position := by
  fun_induction rank moves position low high with
  | case1 low high hlt middle hcond ih =>
    have hmiddle : middle < moves.size := by omega
    simp only [Array.getElem?_eq_getElem hmiddle, Option.any_some, decide_eq_true_eq] at hcond
    refine ih (by omega) hsize (fun j hj hjm => ?_) hhigh
    exact Nat.le_trans (h.source_le (by omega) hmiddle) hcond
  | case2 low high hlt middle hcond ih =>
    have hmiddle : middle < moves.size := by omega
    simp only [Array.getElem?_eq_getElem hmiddle, Option.any_some, decide_eq_true_eq] at hcond
    refine ih (by omega) (by omega) hlow (fun j hj hjm => ?_)
    exact Nat.lt_of_not_le fun hs => hcond (Nat.le_trans (h.source_le hjm hj) hs)
  | case3 low high hlt =>
    constructor
    · exact hlow i hi
    · intro hs
      refine Nat.lt_of_not_le fun hli => ?_
      have := hhigh i hi (by omega)
      omega

/-- A position inside an object that moves is as far into it as before. -/
theorem relocate?_eq {i : Nat} (h : Rising moves) (hi : i < moves.size)
    (hin : inside (moves[i].source, moves[i].size) position) :
    relocate? moves position = some (moves[i].target + (position - moves[i].source)) := by
  have hrank : ∀ j (hj : j < moves.size), j < rank moves position 0 moves.size ↔ _ :=
    lt_rank_iff h (Nat.zero_le _) (Nat.le_refl _)
      (fun _ _ hlt => absurd hlt (Nat.not_lt_zero _)) (fun j hj hle => absurd hj (by omega))
  have hsize : rank moves position 0 moves.size ≤ moves.size := rank_le (Nat.zero_le _)
  have hbounds := inside_iff.1 hin
  have hlt := (hrank i hi).2 hbounds.1
  -- The next move starts after the position already.
  have hlast : rank moves position 0 moves.size = i + 1 := by
    refine Nat.le_antisymm (Nat.le_of_not_lt fun hnext => ?_) hlt
    have hj : i + 1 < moves.size := by omega
    have := h i (i + 1) (by omega) hj
    have := (hrank (i + 1) hj).1 hnext
    omega
  rw [relocate?, hlast]
  simp only [Array.getElem?_eq_getElem hi, Option.bind_eq_bind, Option.bind_some]
  rw [if_pos hbounds.2, Word.minus?_eq hbounds.1]
  rfl

end Rising

/-- A place in an item that stays moves along with it. -/
theorem relocate?_movesOf {source : Nat} (hd : Item.Distinct items) {p : Place}
    (hp : p.item ∈ items) (hs : stays p.item = true) :
    relocate? (movesOf stays source target items).toArray (source + p.position items) =
      some (target + p.position (items.filter stays)) := by
  obtain ⟨k, hk, he⟩ := List.getElem_of_mem (mem_movesOf source target hd hp hs)
  have hlt := p.offset_lt
  have hmove : (movesOf stays source target items).toArray[k] =
      ⟨source + Item.start p.item.id items,
        target + Item.start p.item.id (items.filter stays), p.item.size⟩ := by
    simpa using he
  rw [relocate?_eq (rising_movesOf stays items source target) (i := k) (by simpa using hk), hmove]
  · rw [Option.some.injEq]
    simp only [Place.position]
    omega
  · rw [hmove, inside_iff]
    simp only [Place.position]
    omega

end RpnMachine.Collection
