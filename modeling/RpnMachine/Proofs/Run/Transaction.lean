import RpnMachine.Proofs.Run.Rollback

/-! Storing and purging change the directory as a whole or not at all. What storing reserves before
it changes anything is enough for all that comes after, so only that first reservation can lack
memory; and it reserves nothing for an object that is no larger than the one it replaces. -/
namespace RpnMachine
namespace Machine

open Run

/-- The directory changes under this name as a whole or not at all. -/
structure Transactional (m : Machine) (name : String) : Prop where
  store_failed : ∀ p e m', exec (store name p) m = (.error e, m') → m.Restored m'
  store_done : ∀ p m', exec (store name p) m = (.ok (), m') → m.Keeps m' ∧
    ∃ entries bytes, m.entries? = some entries ∧ exec (Run.bytes p) m = (.ok bytes, m) ∧
      m'.entries? = some (entries.filter (·.1 ≠ name) ++ [(name, bytes)])
  purge_failed : ∀ e m', exec (purge name) m = (.error e, m') → m.Restored m'
  purge_done : ∀ removed m', exec (purge name) m = (.ok removed, m') → m.Keeps m' ∧
    ∃ entries, m.entries? = some entries ∧ removed = entries.any (·.1 = name) ∧
      m'.entries? = some (entries.filter (·.1 ≠ name))
  /-- After the first reservation of storing nothing can fail. -/
  committed : ∀ p length old m₁, name ≠ "" → exec (size p) m = (.ok length, m) →
    exec (findBinding name) m = (.ok old, m) →
    exec (reserve (replacementSize m ((Recipe.symbol name).encode.length + length) old)) m =
      (.ok (), m₁) →
    ∃ m₂ m₃ m', exec (purge name) m₁ = (.ok old.isSome, m₂) ∧
      exec (reserve ((Recipe.symbol name).encode.length + length)) m₂ = (.ok (), m₃) ∧
      exec (store name p) m = (.ok (), m')
  /-- An object takes the place of one that is no smaller, whether or not any byte is free. -/
  replaced : ∀ p b bytes, exec (findBinding name) m = (.ok (some b), m) → ¬m.refersTo b →
    exec (Run.bytes p) m = (.ok bytes, m) → bytes.length ≤ b.stop - b.object →
    ∃ m', exec (store name p) m = (.ok (), m')

namespace Lays

variable {m m' : Machine} {c n : Nat} {v : Image} {kept : List Item} {free : List UInt8}
  {name : String} {p : Pointer}

theorem restored_self (h : m.Lays c v kept free) (h' : m'.Represents c v) : m.Restored m' :=
  h.restored h' rfl

theorem of_exec_reserve (h : m.Lays c v kept free) (he : exec (reserve n) m = (.ok (), m')) :
    v.used + n ≤ c ∧ ∃ kept' free', m'.Lays c v kept' free' := by
  by_cases hn : v.used + n ≤ c
  · obtain ⟨m₁, kept', free', he₁, h', -⟩ := h.exec_reserve hn
    cases he.symm.trans he₁
    exact ⟨hn, kept', free', h'⟩
  · obtain ⟨m₁, kept', free', he₁, -⟩ := h.exec_reserve_error hn
    cases he.symm.trans he₁

theorem exec_size_none (h : m.Lays c v kept free) (hp : v.deref p = none) :
    exec (size p) m = (.error .corrupt, m) := exec_bind_error (h.exec_position_none hp) _

/-- Only a pointer that leads somewhere tells a size. -/
theorem deref_of_exec_size (h : m.Lays c v kept free) (he : exec (size p) m = (.ok n, m')) :
    ∃ q, v.deref p = some q ∧ q.tree.size = n := by
  cases hp : v.deref p with
  | none => cases he.symm.trans (h.exec_size_none hp)
  | some q =>
    cases he.symm.trans (h.exec_size hp)
    exact ⟨q, rfl, rfl⟩

/-- Storing fails before it changes anything: the name or the pointer is no good, or there is no
room. -/
theorem exec_store_cases (h : m.Lays c v kept free) (name : String) (p : Pointer) :
    (∃ q m', v.deref p = some q ∧ exec (store name p) m = (.ok (), m') ∧
      m'.Represents c ((v.forget name).enter name q.tree)) ∨
    ∃ e m', exec (store name p) m = (.error e, m') ∧ m'.Represents c v := by
  by_cases hname : name = ""
  · refine .inr ⟨.error .invalidName, m, ?_, h.represents⟩
    rw [store, if_pos (by simp [hname])]
    rfl
  cases hp : v.deref p with
  | none =>
    refine .inr ⟨.corrupt, m, ?_, h.represents⟩
    rw [store, if_neg (by simpa using hname)]
    exact exec_bind_error (h.exec_size_none hp) _
  | some q =>
    by_cases hroom : v.used + v.demand name (v.newEntry name q.tree).size ≤ c
    · obtain ⟨m', kept', free', he, h'⟩ := h.exec_store hname hp hroom
      exact .inl ⟨q, m', rfl, he, h'.represents⟩
    · obtain ⟨m', kept', free', he, h'⟩ := h.exec_store_error hname hp hroom
      exact .inr ⟨_, m', he, h'.represents⟩

theorem exec_purge_cases (h : m.Lays c v kept free) (name : String) :
    (∃ m', exec (purge name) m = (.ok (v.listing.any (·.1 = name)), m') ∧
      m'.Represents c (v.forget name)) ∨
    ∃ e m', exec (purge name) m = (.error e, m') ∧ m'.Represents c v := by
  have hany : v.directory.any (·.name = name) = v.listing.any (·.1 = name) := by
    rw [Image.listing, List.any_map]
    rfl
  by_cases hroom : ∀ e ∈ v.directory, e.name = name → v.refersTo e = true → v.used + e.size ≤ c
  · obtain ⟨m', kept', free', he, h'⟩ := h.exec_purge name hroom
    exact .inl ⟨m', hany ▸ he, h'.represents⟩
  · push Not at hroom
    obtain ⟨e, he, rfl, href, hlt⟩ := hroom
    obtain ⟨before, after, hs⟩ := List.append_of_mem he
    obtain ⟨m', kept', free', he, h'⟩ := h.exec_purge_error hs href (by omega)
    exact .inr ⟨_, m', he, h'.represents⟩

/-- Once there is room for what storing asks for, the old binding can be purged, and there is still
room for the new one. -/
theorem exec_purge_reserve (h : m.Lays c v kept free) {old : Option Binding}
    (hold : exec (findBinding name) m = (.ok old, m))
    (hroom : v.used + v.demand name n ≤ c) {m₁ : Machine} {kept₁ : List Item} {free₁ : List UInt8}
    (h₁ : m₁.Lays c v kept₁ free₁) :
    ∃ m₂ m₃, exec (purge name) m₁ = (.ok old.isSome, m₂) ∧
      exec (reserve n) m₂ = (.ok (), m₃) := by
  obtain ⟨m₂, kept₂, free₂, he₂, h₂⟩ := h₁.exec_purge name fun e he hname href => by
    have := h.valid.size_le_demand he hname href n
    omega
  obtain ⟨m₃, kept₃, free₃, he₃, h₃, -⟩ := h₂.exec_reserve (h.valid.used_forget_add_le hroom)
  have hany : v.directory.any (·.name = name) = old.isSome := by
    rcases v.named_or_not name with hn | ⟨before, e, after, hs, rfl⟩
    · cases hold.symm.trans (h.exec_findBinding_none hn)
      exact List.any_eq_false.mpr fun d hd hname =>
        hn (of_decide_eq_true hname ▸ List.mem_map_of_mem hd)
    · cases hold.symm.trans (h.exec_findBinding hs)
      exact List.any_eq_true.mpr ⟨e, by simp [hs], by simp⟩
  rw [hany] at he₂
  exact ⟨m₂, m₃, he₂, he₃⟩

/-- An object that is no larger than the one it replaces needs no room. -/
theorem demand_eq_zero (h : m.Lays c v kept free) {b : Binding} {t : Tree}
    (hb : exec (findBinding name) m = (.ok (some b), m)) (href : ¬m.refersTo b)
    (hle : t.size ≤ b.stop - b.object) : name ≠ "" ∧ v.demand name (v.newEntry name t).size = 0 := by
  rcases v.named_or_not name with hn | ⟨before, e, after, hs, rfl⟩
  · cases hb.symm.trans (h.exec_findBinding_none hn)
  · cases hb.symm.trans (h.exec_findBinding hs)
    obtain ⟨hlabel, hname⟩ := h.valid.labelled e (by simp [hs])
    have hlabels : (v.newEntry e.name t).label.size = e.label.size := by
      rw [Item.size, Item.size, hlabel]
      rfl
    rw [h.refersTo_eq hs] at href
    simp only [Entry.binding, Entry.size] at hle
    rw [Image.demand, h.valid.find?_eq hs]
    simp only [href, if_false, Entry.size, hlabels, Bool.false_eq_true]
    refine ⟨hname, Nat.sub_eq_zero_of_le (Nat.add_le_add_left ?_ _)⟩
    show t.size ≤ e.object.size
    omega

theorem transactional (h : m.Lays c v kept free) (name : String) : m.Transactional name where
  store_failed p e m' he := by
    rcases h.exec_store_cases name p with ⟨q, m₁, -, he₁, -⟩ | ⟨e₁, m₁, he₁, h₁⟩
    · cases he.symm.trans he₁
    · cases he.symm.trans he₁
      exact h.restored_self h₁
  store_done p m' he := by
    rcases h.exec_store_cases name p with ⟨q, m₁, hq, he₁, h₁⟩ | ⟨e₁, m₁, he₁, -⟩
    · cases he.symm.trans he₁
      refine ⟨h.keeps h₁ rfl rfl fun _ _ hp => hp, _, _, h.entries?_eq, h.exec_bytes hq, ?_⟩
      obtain ⟨kept₁, free₁, h₁⟩ := h₁
      rw [h₁.entries?_eq, Image.listing_enter, Image.listing_forget]
    · cases he.symm.trans he₁
  purge_failed e m' he := by
    rcases h.exec_purge_cases name with ⟨m₁, he₁, -⟩ | ⟨e₁, m₁, he₁, h₁⟩
    · cases he.symm.trans he₁
    · cases he.symm.trans he₁
      exact h.restored_self h₁
  purge_done removed m' he := by
    rcases h.exec_purge_cases name with ⟨m₁, he₁, h₁⟩ | ⟨e₁, m₁, he₁, -⟩
    · cases he.symm.trans he₁
      refine ⟨h.keeps h₁ rfl rfl fun _ _ hp => hp, _, h.entries?_eq, rfl, ?_⟩
      obtain ⟨kept₁, free₁, h₁⟩ := h₁
      rw [h₁.entries?_eq, Image.listing_forget]
    · cases he.symm.trans he₁
  committed p length old m₁ hname hsize hold hreserve := by
    obtain ⟨q, hq, rfl⟩ := h.deref_of_exec_size hsize
    obtain ⟨old', hold', hdemand⟩ := h.exec_findBinding_demand name (v.newEntry name q.tree).size
    cases hold.symm.trans hold'
    rw [v.size_newEntry, hdemand] at hreserve
    rw [v.size_newEntry]
    obtain ⟨hroom, kept₁, free₁, h₁⟩ := h.of_exec_reserve hreserve
    obtain ⟨m₂, m₃, he₂, he₃⟩ := h.exec_purge_reserve hold hroom h₁
    obtain ⟨m', kept', free', he, -⟩ := h.exec_store hname hq hroom
    exact ⟨m₂, m₃, m', he₂, he₃, he⟩
  replaced p b bytes hb href hbytes hle := by
    obtain ⟨q, hq, -, rfl⟩ := h.represents.exists_deref_of_bytes (congrArg Prod.fst hbytes)
    obtain ⟨hname, hdemand⟩ := h.demand_eq_zero hb href hle
    have hused := h.used_add_free
    obtain ⟨m', kept', free', he, -⟩ := h.exec_store hname hq (by rw [hdemand]; omega)
    exact ⟨m', he⟩

end Lays

/-- Whatever was done with a machine, a name is stored and purged as a whole or not at all. -/
theorem transactional_of_acts {c : Nat} (hc : c < Word.bound Heap.slotSize) {actions : List Action}
    {m : Machine} (h : Acts (ofCapacity c) actions m) (name : String) : m.Transactional name := by
  obtain ⟨v, ⟨kept, free, hl⟩, -⟩ := h.exists_represents (represents_ofCapacity hc)
  exact hl.transactional name

/-- The integer five is stored under a name, and a new object fills the rest of the memory. -/
def packed : List Action :=
  [.make (Tree.integer false 5).recipe, .store "x" ⟨0⟩, .release ⟨0⟩,
    .make (Tree.integer false 7).recipe]

theorem acts_packed : ∃ m, Acts (ofCapacity 7) packed m ∧ m.heap.free = 0 ∧
    (exec (findBinding "x") m).1 = .ok (some ⟨Text.utf8 "x", 0, 3, 5⟩) ∧
    ¬m.refersTo ⟨Text.utf8 "x", 0, 3, 5⟩ ∧
    (exec (Run.bytes ⟨0⟩) m).1 = .ok (Tree.integer false 7).encode :=
  ⟨_, .cons ⟨by decide, .integer false 5, Tree.encode_eq _⟩ <| .cons ⟨by decide +kernel, trivial⟩ <|
    .cons ⟨by decide +kernel, trivial⟩ <| .cons ⟨by decide, .integer false 7, Tree.encode_eq _⟩ <|
    .nil _, by decide +kernel, by decide +kernel, by decide +kernel, by decide +kernel⟩

/-- A new object takes the place of the old one although no byte is free. -/
theorem transactional_packed : ∃ m m', Acts (ofCapacity 7) packed m ∧ m.heap.free = 0 ∧
    m.Transactional "x" ∧ exec (store "x" ⟨0⟩) m = (.ok (), m') := by
  obtain ⟨m, hm, hfree, hb, href, hbytes⟩ := acts_packed
  obtain ⟨v, ⟨kept, free, hl⟩, -⟩ := hm.exists_represents (represents_ofCapacity (by decide))
  obtain ⟨old, hold, -⟩ := hl.exec_findBinding_demand "x" 0
  obtain ⟨q, hq, -, hencode⟩ := hl.represents.exists_deref_of_bytes hbytes
  rw [hold, Except.ok.injEq] at hb
  have h := transactional_of_acts (by decide) hm "x"
  obtain ⟨m', he⟩ := h.replaced ⟨0⟩ _ _ (hb ▸ hold) href (hencode ▸ hl.exec_bytes hq)
    (by decide +kernel)
  exact ⟨m, m', hm, hfree, h, he⟩

end Machine
end RpnMachine
