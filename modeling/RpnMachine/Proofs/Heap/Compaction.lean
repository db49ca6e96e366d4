import RpnMachine.Proofs.Heap.Memory
import RpnMachine.Proofs.Heap.Moves

/-! The passes of a collection over items that lie one right after the other: what refers to them is
gathered, those that are referred to are marked, and the marked ones move down. -/
namespace RpnMachine

theorem Memory.objectSize?_item {m : Memory} {start : Nat} (last : Nat) {i : Item}
    (hfits : i.tree.Fits) (hm : i.tree.encode <+: m.toList.drop start) (hlast : start + i.size ≤ last) :
    m.objectSize? start last = some i.size := by
  obtain ⟨rest, hrest⟩ := hm
  have hslice : m.slice start last =
      i.tree.encode ++ rest.take (last - start - i.tree.encode.length) := by
    rw [slice_eq, List.drop_take, ← hrest, List.take_append, List.take_of_length_le]
    rw [Tree.length_encode]
    exact Nat.le_sub_of_add_le' hlast
  rw [objectSize?_eq, hslice]
  exact hfits.size?_encode _

/-- The items after the first one lie where it ends. -/
theorem Item.bytes_prefix_drop {i : Item} {items : List Item} {bs : List UInt8} {start : Nat}
    (h : Item.bytes (i :: items) <+: bs.drop start) :
    i.tree.encode <+: bs.drop start ∧ Item.bytes items <+: bs.drop (start + i.size) := by
  obtain ⟨rest, hrest⟩ := h
  rw [Item.bytes_cons, List.append_assoc] at hrest
  refine ⟨⟨_, hrest⟩, rest, ?_⟩
  rw [← List.drop_drop, ← hrest]
  exact (List.drop_left' rfl).symm

namespace Collection

/-! Gathering. -/

theorem mem_insertRoot {p q : Nat} {ps : List Nat} : q ∈ insertRoot p ps ↔ q = p ∨ q ∈ ps := by
  fun_induction insertRoot p ps with
  | case1 => simp
  | case2 => simp
  | case3 => simp
  | case4 r rs _ _ ih =>
    rw [List.mem_cons, ih, List.mem_cons]
    exact or_left_comm

theorem pairwise_insertRoot {p : Nat} {ps : List Nat} (h : ps.Pairwise (· < ·)) :
    (insertRoot p ps).Pairwise (· < ·) := by
  fun_induction insertRoot p ps with
  | case1 => exact List.pairwise_singleton _ _
  | case2 r rs hlt =>
    refine .cons (fun q hq => ?_) h
    rcases List.mem_cons.mp hq with rfl | hq
    · exact hlt
    · exact hlt.trans ((List.pairwise_cons.mp h).1 q hq)
  | case3 => exact h
  | case4 r rs hlt hne ih =>
    rw [List.pairwise_cons] at h
    refine .cons (fun q hq => ?_) (ih h.2)
    rcases mem_insertRoot.mp hq with rfl | hq
    · omega
    · exact h.1 q hq

theorem mem_foldl_insertRoot {positions ps : List Nat} {q : Nat} :
    q ∈ positions.foldl (fun ps p => insertRoot p ps) ps ↔ q ∈ positions ∨ q ∈ ps := by
  induction positions generalizing ps with
  | nil => simp
  | cons p positions ih =>
    rw [List.foldl_cons, ih, mem_insertRoot, List.mem_cons]
    tauto

theorem mem_gather {run : Nat × Nat} {positions : List Nat} {q : Nat} :
    q ∈ gather run positions ↔ q ∈ positions ∧ inside run q := by
  rw [gather, mem_foldl_insertRoot, List.mem_filter]
  simp

theorem pairwise_gather (run : Nat × Nat) (positions : List Nat) :
    (gather run positions).Pairwise (· < ·) := by
  have hfold (positions ps : List Nat) (h : ps.Pairwise (· < ·)) :
      (positions.foldl (fun ps p => insertRoot p ps) ps).Pairwise (· < ·) := by
    induction positions generalizing ps with
    | nil => exact h
    | cons p positions ih => exact ih _ (pairwise_insertRoot h)
  exact hfold _ _ .nil

theorem length_gather (run : Nat × Nat) (positions : List Nat) :
    (gather run positions).length = (positions.filter (inside run)).toFinset.card := by
  have hset : (gather run positions).toFinset = (positions.filter (inside run)).toFinset := by
    ext q
    rw [List.mem_toFinset, List.mem_toFinset, mem_gather, List.mem_filter]
  rw [← hset, List.toFinset_card_of_nodup]
  exact (pairwise_gather run positions).imp fun hlt => hlt.ne

/-! Marking. -/

variable {m : Memory} {first last start : Nat} {roots : List Nat} {marks : Bits}

/-- Where the roots rise and none lies below a run, the first one tells whether any lies in it. -/
theorem any_inside_eq_head (hr : roots.Pairwise (· < ·)) (hs : ∀ p ∈ roots, start ≤ p) (n : Nat) :
    roots.any (inside (start, n)) = roots.head?.any (· < start + n) := by
  cases roots with
  | nil => rfl
  | cons p ps =>
    rw [Bool.eq_iff_iff, List.any_eq_true, List.head?_cons, Option.any_some, decide_eq_true_eq]
    constructor
    · rintro ⟨q, hq, hin⟩
      have hlt := (inside_iff.mp hin).2
      rcases List.mem_cons.mp hq with rfl | hq
      · exact hlt
      · exact ((List.pairwise_cons.mp hr).1 q hq).trans hlt
    · exact fun hlt => ⟨p, List.mem_cons_self, inside_iff.mpr ⟨hs p List.mem_cons_self, hlt⟩⟩

theorem le_of_mem_dropWhile (hr : roots.Pairwise (· < ·)) (stop : Nat) :
    ∀ p ∈ roots.dropWhile (· < stop), stop ≤ p := by
  induction roots with
  | nil => simp
  | cons root roots ih =>
    rw [List.pairwise_cons] at hr
    by_cases hroot : root < stop
    · simpa [hroot] using ih hr.2
    · have hstop : ∀ p ∈ root :: roots, stop ≤ p := List.forall_mem_cons.mpr
        ⟨not_lt.mp hroot, fun p hp => (not_lt.mp hroot).trans (hr.1 p hp).le⟩
      rwa [List.dropWhile_cons_of_neg (by simpa using hroot)]

/-- Roots below a run do not point into it. -/
theorem any_inside_dropWhile {run : Nat × Nat} {stop : Nat} (h : stop ≤ run.1) (roots : List Nat) :
    (roots.dropWhile (· < stop)).any (inside run) = roots.any (inside run) := by
  induction roots with
  | nil => rfl
  | cons root roots ih =>
    by_cases hroot : root < stop
    · have : inside run root = false := by
        rw [Bool.eq_false_iff, Ne, inside_iff]
        omega
      simp [hroot, this, ih]
    · simp [hroot]

theorem mark?_object {n : Nat} (hlt : start < last) (hsize : m.objectSize? start last = some n)
    (hn : 0 < n) : mark? m first last start roots marks =
      mark? m first last (start + n) (roots.dropWhile (· < start + n))
        (if roots.head?.any (· < start + n) then marks.set (start - first) else marks) := by
  obtain ⟨k, rfl⟩ := Nat.exists_eq_add_of_lt hn
  rw [Nat.zero_add] at hsize ⊢
  rw [mark?, if_pos hlt, hsize]

/-- The bits of the items that a root points to or into are set. Bits below are left as they are, and
all others have been clear. -/
theorem mark?_items {items : List Item} (hm : Item.bytes items <+: m.toList.drop start)
    (hlast : last = start + (Item.bytes items).length) (hfirst : first ≤ start)
    (hfits : ∀ i ∈ items, i.tree.Fits) (hr : roots.Pairwise (· < ·))
    (hs : ∀ p ∈ roots, start ≤ p) (hclear : ∀ j, start - first ≤ j → marks.get j = false) :
    ∃ marks', mark? m first last start roots marks = some marks' ∧
      (∀ j < start - first, marks'.get j = marks.get j) ∧
      ∀ before i after, items = before ++ i :: after →
        marks'.get (start + (Item.bytes before).length - first) =
          roots.any (inside (start + (Item.bytes before).length, i.size)) := by
  induction items generalizing start roots marks with
  | nil =>
    have hstop : last = start := hlast
    refine ⟨marks, ?_, fun _ _ => rfl, fun before i after e => ?_⟩
    · rw [mark?, if_neg (by omega), if_pos hstop.symm]
    · cases before <;> cases e
  | cons i items ih =>
    obtain ⟨hi, hitems⟩ := Item.bytes_prefix_drop hm
    rw [Item.length_bytes_cons] at hlast
    have hpos : 0 < i.size := i.tree.size_pos
    rw [List.forall_mem_cons] at hfits
    have hsize := Memory.objectSize?_item last hfits.1 hi (by omega)
    have hhit := any_inside_eq_head hr hs i.size
    rw [mark?_object (by omega) hsize hpos, ← hhit]
    -- The bit of the first item says whether a root lies in it.
    have hset (j : Nat) (hj : start - first ≤ j) :
        (if roots.any (inside (start, i.size)) then marks.set (start - first) else marks).get j =
          (decide (start - first = j) && roots.any (inside (start, i.size))) := by
      split_ifs with hany
      · rw [Bits.get_set, hclear j hj, hany, Bool.or_false, Bool.and_true]
      · rw [hclear j hj, eq_false_of_ne_true hany, Bool.and_false]
    have hclear' : ∀ j, start + i.size - first ≤ j →
        (if roots.any (inside (start, i.size)) then marks.set (start - first) else marks).get j =
          false := fun j hj => by
      rw [hset j (by omega), decide_eq_false (by omega), Bool.false_and]
    obtain ⟨marks', hmark, hbelow, hrest⟩ := ih hitems (by omega) (by omega) hfits.2
      (hr.sublist (List.dropWhile_sublist _)) (le_of_mem_dropWhile hr (start + i.size)) hclear'
    refine ⟨marks', hmark, fun j hj => ?_, fun before j after e => ?_⟩
    · rw [hbelow j (by omega)]
      split_ifs
      · rw [Bits.get_set, decide_eq_false (by omega), Bool.false_or]
      · rfl
    · cases before with
      | nil =>
        cases e
        rw [Item.bytes_nil, List.length_nil, Nat.add_zero, hbelow _ (by omega), hset _ le_rfl,
          decide_eq_true rfl, Bool.true_and]
      | cons j' before =>
        cases e
        have := hrest before j after rfl
        rw [any_inside_dropWhile (Nat.le_add_right _ _)] at this
        rwa [Item.length_bytes_cons, ← Nat.add_assoc]

/-! Moving. -/

variable {stays : Item → Bool} {items : List Item} {target : Nat}

theorem compact?_marked {n : Nat} (hlt : start < last)
    (hsize : m.objectSize? start last = some n) (hn : 0 < n) (hmark : marks.get (start - first)) :
    compact? marks first last m start target =
      (if target = start then some m else m.copy? start (start + n) target).bind fun m' =>
        (compact? marks first last m' (start + n) (target + n)).bind fun r =>
          some (r.1, ⟨start, target, n⟩ :: r.2) := by
  obtain ⟨k, rfl⟩ := Nat.exists_eq_add_of_lt hn
  rw [Nat.zero_add] at hsize ⊢
  rw [compact?, if_pos hlt, hsize]
  simp only [hmark, if_true]
  rfl

theorem compact?_unmarked {n : Nat} (hlt : start < last)
    (hsize : m.objectSize? start last = some n) (hn : 0 < n) (hmark : ¬marks.get (start - first)) :
    compact? marks first last m start target =
      compact? marks first last m (start + n) target := by
  obtain ⟨k, rfl⟩ := Nat.exists_eq_add_of_lt hn
  rw [Nat.zero_add] at hsize ⊢
  rw [compact?, if_pos hlt, hsize]
  simp only [hmark, if_false, Bool.false_eq_true]

/-- An object moves down over what is gone. It stays in its place if that is nothing. -/
theorem exists_moved {front gone moved after : List UInt8} {n : Nat}
    (hm : m.toList = front ++ gone ++ moved ++ after) (htarget : target = front.length)
    (hstart : start = target + gone.length) (hn : n = moved.length) :
    ∃ m' gone', (if target = start then some m else m.copy? start (start + n) target) = some m' ∧
      gone'.length = gone.length ∧ m'.toList = front ++ moved ++ gone' ++ after := by
  split_ifs with heq
  · have hnil : gone = [] := List.length_eq_zero_iff.mp (by omega)
    subst hnil
    exact ⟨m, [], rfl, rfl, by rw [hm, List.append_nil, List.append_nil]⟩
  · exact Memory.copy?_down start (start + n) hm htarget hstart (by rw [hn])

/-- The items that are marked move down over `gone`, and leave any bytes behind. -/
theorem compact?_items {front gone after : List UInt8}
    (hm : m.toList = front ++ gone ++ Item.bytes items ++ after) (htarget : target = front.length)
    (hstart : start = target + gone.length) (hlast : last = start + (Item.bytes items).length)
    (hfits : ∀ i ∈ items, i.tree.Fits)
    (hmarks : ∀ before i after, items = before ++ i :: after →
      marks.get (start + (Item.bytes before).length - first) = stays i) :
    ∃ m' junk, compact? marks first last m start target =
        some (m', movesOf stays start target items) ∧
      junk.length + (Item.bytes (items.filter stays)).length =
        gone.length + (Item.bytes items).length ∧
      m'.toList = front ++ Item.bytes (items.filter stays) ++ junk ++ after := by
  induction items generalizing m start target front gone with
  | nil =>
    refine ⟨m, gone, ?_, rfl, ?_⟩
    · rw [compact?, if_neg (by simp at hlast; omega)]
      rfl
    · rw [hm]
      simp
  | cons i items ih =>
    have hpos : 0 < i.size := i.tree.size_pos
    rw [Item.length_bytes_cons] at hlast
    rw [List.forall_mem_cons] at hfits
    have hi : i.tree.encode <+: m.toList.drop start := by
      refine ⟨Item.bytes items ++ after, ?_⟩
      rw [hm, List.append_assoc (front ++ gone), Item.bytes_cons, List.append_assoc i.tree.encode]
      have hlen : (front ++ gone).length = start := by
        rw [List.length_append]
        omega
      exact (List.drop_left' hlen).symm
    have hsize := Memory.objectSize?_item last hfits.1 hi (by omega)
    have hmark : marks.get (start - first) = stays i := hmarks [] i items rfl
    have hmarks' : ∀ before j after, items = before ++ j :: after →
        marks.get (start + i.size + (Item.bytes before).length - first) = stays j :=
      fun before j after e => by
        have := hmarks (i :: before) j after (by rw [e]; rfl)
        rwa [Item.length_bytes_cons, ← Nat.add_assoc] at this
    rw [movesOf]
    cases hs : stays i with
    | true =>
      have hpieces : m.toList = front ++ gone ++ i.tree.encode ++ (Item.bytes items ++ after) := by
        rw [hm, Item.bytes_cons]
        simp only [List.append_assoc]
      have hn : i.size = i.tree.encode.length := i.tree.length_encode.symm
      obtain ⟨m', gone', hcopy, hgone, hm'⟩ := exists_moved hpieces htarget hstart hn
      rw [← List.append_assoc] at hm'
      have htarget' : target + i.size = (front ++ i.tree.encode).length := by
        rw [List.length_append, htarget, hn]
      obtain ⟨m'', junk, hrest, hjunk, hm''⟩ := ih hm' htarget' (by omega) (by omega) hfits.2 hmarks'
      refine ⟨m'', junk, ?_, ?_, ?_⟩
      · rw [compact?_marked (by omega) hsize hpos (hmark.trans hs), hcopy, Option.bind_some, hrest,
          if_pos rfl]
        rfl
      · rw [List.filter_cons_of_pos hs, Item.length_bytes_cons, Item.length_bytes_cons]
        omega
      · rw [hm'', List.filter_cons_of_pos hs, Item.bytes_cons]
        simp only [List.append_assoc]
    | false =>
      have hpieces : m.toList = front ++ (gone ++ i.tree.encode) ++ Item.bytes items ++ after := by
        rw [hm, Item.bytes_cons]
        simp only [List.append_assoc]
      have hstart' : start + i.size = target + (gone ++ i.tree.encode).length := by
        rw [List.length_append, hstart, Nat.add_assoc]
        rfl
      obtain ⟨m', junk, hrest, hjunk, hm'⟩ := ih hpieces htarget hstart' (by omega) hfits.2 hmarks'
      refine ⟨m', junk, ?_, ?_, ?_⟩
      · rw [compact?_unmarked (by omega) hsize hpos (by rw [hmark, hs]; exact Bool.false_ne_true),
          hrest, if_neg Bool.false_ne_true]
      · rw [List.filter_cons_of_neg (by simp [hs]), Item.length_bytes_cons, hjunk, List.length_append,
          Nat.add_assoc]
        rfl
      · rw [hm', List.filter_cons_of_neg (by simp [hs])]

end Collection
end RpnMachine
