import RpnMachine.Proofs.Machine.Allocation

/-! Names that are removed from an image and names that are entered, and the room that this takes. -/
namespace RpnMachine

namespace Image

/-- Without a name. What it stood for is a temporary now. -/
def forget (v : Image) (name : String) : Image :=
  { v with
    directory := v.directory.filter (·.name ≠ name)
    temporaries := v.temporaries ++ (v.directory.filter (·.name = name)).flatMap Entry.items }

def refersTo (v : Image) (e : Entry) : Bool := e.items.any (Item.isHeld v.places)

def newEntry (v : Image) (name : String) (t : Tree) : Entry :=
  ⟨name, ⟨v.fresh, .symbol name⟩, ⟨v.fresh + 1, t⟩⟩

/-- The bytes that have to be free before a name stands for a new object. -/
def demand (v : Image) (name : String) (total : Nat) : Nat :=
  match v.directory.find? (·.name = name) with
  | none => total
  | some e => if v.refersTo e then max total e.size else total - e.size

def enter (v : Image) (name : String) (t : Tree) : Image :=
  { v with directory := v.directory ++ [v.newEntry name t], fresh := v.fresh + 2 }

variable {v : Image} {before after : List Entry} {e : Entry}

theorem permanent_eq (hs : v.directory = before ++ e :: after) :
    v.permanent = before.flatMap Entry.items ++ e.items ++ after.flatMap Entry.items := by
  simp [permanent, hs]

theorem Valid.not_mem (h : v.Valid) (hs : v.directory = before ++ e :: after) :
    e.name ∉ before.map Entry.name ∧ e.name ∉ after.map Entry.name := by
  have hn := h.names
  rw [hs, List.map_append, List.map_cons, List.nodup_append] at hn
  exact ⟨fun hmem => hn.2.2 _ hmem _ List.mem_cons_self rfl, (List.nodup_cons.mp hn.2.1).1⟩

theorem forget_eq_self {name : String} (h : name ∉ v.directory.map Entry.name) :
    v.forget name = v := by
  have hf : ∀ d ∈ v.directory, d.name ≠ name := fun d hd hname =>
    h (hname ▸ List.mem_map_of_mem hd)
  rw [forget, List.filter_eq_self.mpr fun d hd => by simpa using hf d hd,
    List.filter_eq_nil_iff.mpr fun d hd => by simpa using hf d hd]
  simp

theorem Valid.forget_eq (h : v.Valid) (hs : v.directory = before ++ e :: after) :
    v.forget e.name =
      { v with directory := before ++ after, temporaries := v.temporaries ++ e.items } := by
  obtain ⟨hb, ha⟩ := h.not_mem hs
  have hbefore : ∀ d ∈ before, d.name ≠ e.name := fun d hd hname =>
    hb (hname ▸ List.mem_map_of_mem hd)
  have hafter : ∀ d ∈ after, d.name ≠ e.name := fun d hd hname =>
    ha (hname ▸ List.mem_map_of_mem hd)
  have hkeep : v.directory.filter (·.name ≠ e.name) = before ++ after := by
    rw [hs, List.filter_append, List.filter_cons_of_neg (by simp),
      List.filter_eq_self.mpr fun d hd => by simpa using hbefore d hd,
      List.filter_eq_self.mpr fun d hd => by simpa using hafter d hd]
  have hgone : v.directory.filter (·.name = e.name) = [e] := by
    rw [hs, List.filter_append, List.filter_cons_of_pos (by simp),
      List.filter_eq_nil_iff.mpr fun d hd => by simpa using hbefore d hd,
      List.filter_eq_nil_iff.mpr fun d hd => by simpa using hafter d hd]
    rfl
  rw [forget, hkeep, hgone]
  simp

theorem Valid.perm_forget (h : v.Valid) (hs : v.directory = before ++ e :: after) :
    (v.permanent ++ v.temporaries).Perm
      ((v.forget e.name).permanent ++ (v.forget e.name).temporaries) := by
  rw [h.forget_eq hs, permanent_eq hs]
  simp only [permanent, List.flatMap_append, List.append_assoc]
  refine List.Perm.append_left _ ?_
  have hcomm : (e.items ++ (after.flatMap Entry.items ++ v.temporaries)).Perm
      (after.flatMap Entry.items ++ v.temporaries ++ e.items) := List.perm_append_comm
  simpa only [List.append_assoc] using hcomm

theorem Valid.forget (h : v.Valid) (name : String) : (v.forget name).Valid := by
  by_cases hn : name ∈ v.directory.map Entry.name
  · obtain ⟨e, he, rfl⟩ := List.mem_map.mp hn
    obtain ⟨before, after, hs⟩ := List.append_of_mem he
    have hp := h.perm_forget hs
    refine ⟨h.distinct.perm hp, fun i hi => h.fresh i (hp.mem_iff.mpr hi), fun d hd => ?_, ?_,
      h.trimmed⟩
    · exact h.labelled d (List.mem_of_mem_filter hd)
    · exact h.names.sublist (List.filter_sublist.map _)
  · rwa [forget_eq_self hn]

theorem not_mem_names_forget (v : Image) (name : String) :
    name ∉ (v.forget name).directory.map Entry.name := by
  intro hmem
  obtain ⟨d, hd, hname⟩ := List.mem_map.mp hmem
  exact of_decide_eq_true (List.mem_filter.mp hd).2 hname

/-- What becomes free is at least what a copy of the entry takes. -/
theorem Valid.used_forget_le (h : v.Valid) (name : String) : (v.forget name).used ≤ v.used := by
  by_cases hn : name ∈ v.directory.map Entry.name
  · obtain ⟨e, he, rfl⟩ := List.mem_map.mp hn
    obtain ⟨before, after, hs⟩ := List.append_of_mem he
    have hlive : (Item.bytes (e.items.filter (Item.isHeld v.places))).length ≤
        (Item.bytes e.items).length :=
      (List.filter_sublist.flatMap fun i : Item => i.tree.encode).length_le
    rw [h.forget_eq hs, used, used, permanent_eq hs]
    simp only [permanent, live, List.flatMap_append, List.filter_append, Item.bytes_append,
      List.length_append]
    have hplaces : places { v with
        directory := before ++ after, temporaries := v.temporaries ++ e.items } = v.places := rfl
    rw [hplaces]
    omega
  · rw [forget_eq_self hn]

/-- An entry that nothing refers to leaves all its bytes. -/
theorem Valid.used_forget_add (h : v.Valid) (hs : v.directory = before ++ e :: after)
    (href : v.refersTo e = false) : (v.forget e.name).used + e.size = v.used := by
  have hlive : e.items.filter (Item.isHeld v.places) = [] := by
    rw [List.filter_eq_nil_iff]
    exact fun i hi hheld => List.any_eq_false.mp href i hi hheld
  rw [h.forget_eq hs, used, used, permanent_eq hs]
  simp only [permanent, live, List.flatMap_append, List.filter_append, Item.bytes_append,
    List.length_append, Entry.length_bytes_items]
  have hplaces : places { v with
      directory := before ++ after, temporaries := v.temporaries ++ e.items } = v.places := rfl
  rw [hplaces, hlive]
  simp only [Item.bytes_nil, List.length_nil]
  omega

theorem size_newEntry (v : Image) (name : String) (t : Tree) :
    (Recipe.symbol name).encode.length + t.size = (v.newEntry name t).size := by
  have : (Tree.symbol name).encode = (Recipe.symbol name).encode := by rw [Tree.encode]
  rw [← this]
  rfl

theorem permanent_enter (v : Image) (name : String) (t : Tree) :
    (v.enter name t).permanent = v.permanent ++ (v.newEntry name t).items := by
  simp [permanent, enter]

/-- Items with numbers that were not given yet. -/
theorem distinct_fresh {items : List Item} {n : Nat} (hd : Item.Distinct items)
    (hf : ∀ i ∈ items, i.id < n) (s t : Tree) :
    Item.Distinct (⟨n, s⟩ :: ⟨n + 1, t⟩ :: items) := by
  have hlt : ∀ a ∈ items.map Item.id, a < n := fun a ha => by
    obtain ⟨i, hi, rfl⟩ := List.mem_map.mp ha
    exact hf i hi
  refine List.nodup_cons.mpr ⟨fun hmem => ?_, List.nodup_cons.mpr ⟨fun hmem => ?_, hd⟩⟩
  · rcases List.mem_cons.mp hmem with heq | hmem
    · exact absurd heq (Nat.succ_ne_self n).symm
    · exact lt_irrefl _ (hlt _ hmem)
  · have := hlt _ hmem
    simp only at this
    omega

/-- Items move to the end, and new ones take their place. -/
theorem distinct_moved {items moved others : List Item} {kept : List Item} {n : Nat}
    (hd : Item.Distinct (items ++ moved ++ others ++ kept))
    (hf : ∀ i ∈ items ++ moved ++ others ++ kept, i.id < n) (s t : Tree) :
    Item.Distinct (items ++ [⟨n, s⟩, ⟨n + 1, t⟩] ++ others ++ (kept ++ moved)) := by
  refine (distinct_fresh hd hf s t).perm ?_
  have hnew := List.perm_append_comm_assoc [⟨n, s⟩, ⟨n + 1, t⟩] items (others ++ (kept ++ moved))
  have hcomm : (moved ++ (others ++ kept)).Perm (others ++ kept ++ moved) := List.perm_append_comm
  have hmoved := hcomm.append_left ([⟨n, s⟩, ⟨n + 1, t⟩] ++ items)
  simp only [List.append_assoc] at hnew hmoved ⊢
  exact hmoved.trans hnew

theorem Valid.enter (h : v.Valid) {name : String} (hname : name ≠ "")
    (hn : name ∉ v.directory.map Entry.name) (t : Tree) : (v.enter name t).Valid := by
  have hp : (⟨v.fresh, .symbol name⟩ :: ⟨v.fresh + 1, t⟩ :: (v.permanent ++ v.temporaries)).Perm
      ((v.enter name t).permanent ++ (v.enter name t).temporaries) := by
    rw [permanent_enter]
    have hcomm : ((v.newEntry name t).items ++ v.permanent).Perm
        (v.permanent ++ (v.newEntry name t).items) := List.perm_append_comm
    exact hcomm.append_right v.temporaries
  refine ⟨(distinct_fresh h.distinct h.fresh _ _).perm hp, fun i hi => ?_, fun d hd => ?_, ?_,
    h.trimmed⟩
  · have hi := hp.mem_iff.mpr hi
    simp only [List.mem_cons] at hi
    simp only [Image.enter]
    rcases hi with rfl | rfl | hi
    · exact Nat.lt_add_of_pos_right (by decide)
    · exact Nat.lt_succ_self _
    · exact (h.fresh i hi).trans (Nat.lt_add_of_pos_right (by decide))
  · simp only [Image.enter, List.mem_append, List.mem_singleton] at hd
    rcases hd with hd | rfl
    · exact h.labelled d hd
    · exact ⟨rfl, hname⟩
  · simp only [Image.enter, List.map_append, List.map_singleton]
    exact List.nodup_append.mpr ⟨h.names, List.nodup_singleton _, fun a ha b hb heq => hn (by
      rw [List.mem_singleton] at hb
      have : name = a := (hb.symm.trans heq.symm)
      rwa [this])⟩

theorem named_or_not (v : Image) (name : String) : name ∉ v.directory.map Entry.name ∨
    ∃ before e after, v.directory = before ++ e :: after ∧ e.name = name := by
  by_cases hn : name ∈ v.directory.map Entry.name
  · obtain ⟨e, he, hname⟩ := List.mem_map.mp hn
    obtain ⟨before, after, hs⟩ := List.append_of_mem he
    exact .inr ⟨before, e, after, hs, hname⟩
  · exact .inl hn

theorem Valid.find?_eq (h : v.Valid) (hs : v.directory = before ++ e :: after) :
    v.directory.find? (·.name = e.name) = some e := by
  have hbefore : before.find? (·.name = e.name) = none :=
    List.find?_eq_none.mpr fun d hd hname =>
      (h.not_mem hs).1 (of_decide_eq_true hname ▸ List.mem_map_of_mem hd)
  rw [hs, List.find?_append, hbefore]
  simp

theorem find?_eq_none {name : String} (hn : name ∉ v.directory.map Entry.name) :
    v.directory.find? (·.name = name) = none :=
  List.find?_eq_none.mpr fun _ hd hname =>
    hn (of_decide_eq_true hname ▸ List.mem_map_of_mem hd)

theorem Valid.size_le_demand (h : v.Valid) {name : String} (he : e ∈ v.directory)
    (hname : e.name = name) (href : v.refersTo e = true) (total : Nat) :
    e.size ≤ v.demand name total := by
  obtain ⟨before, after, hs⟩ := List.append_of_mem he
  rw [demand, ← hname, h.find?_eq hs]
  simp only [href, if_true]
  exact le_max_right _ _

/-- After the old binding is gone there is room for the new one. -/
theorem Valid.used_forget_add_le (h : v.Valid) {name : String} {total c : Nat}
    (hn : v.used + v.demand name total ≤ c) : (v.forget name).used + total ≤ c := by
  have hle := h.used_forget_le name
  rcases v.named_or_not name with hnone | ⟨before, e, after, hs, rfl⟩
  · rw [demand, find?_eq_none hnone] at hn
    exact (Nat.add_le_add_right hle _).trans hn
  · rw [demand, h.find?_eq hs] at hn
    simp only at hn
    cases href : v.refersTo e with
    | true =>
      rw [href, if_pos rfl] at hn
      have := le_max_left total e.size
      omega
    | false =>
      rw [href, if_neg Bool.false_ne_true] at hn
      have := h.used_forget_add hs href
      omega

end Image

end RpnMachine
