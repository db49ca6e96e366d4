import RpnMachine.Proofs.Machine.Image

/-! Which temporaries outlive a collection, and where each of them goes: told from the objects and
the positions that are referred to, without the walk over memory that finds them. -/
namespace RpnMachine

/-- Objects that lie one right after the other from a position on, and where each of them starts. -/
def Tree.placed (start : Nat) : List Tree → List (Nat × Tree)
  | [] => []
  | t :: ts => (start, t) :: placed (start + t.size) ts

namespace Machine

/-- Whether something points to an object or into it. -/
def pointsInto (m : Machine) (o : Nat × Tree) : Bool :=
  m.roots.any (Collection.inside (o.1, o.2.size))

def survivors (m : Machine) (ts : List Tree) : List (Nat × Tree) :=
  (Tree.placed m.heap.permanentEnd ts).filter m.pointsInto

def garbage (m : Machine) (ts : List Tree) : List (Nat × Tree) :=
  (Tree.placed m.heap.permanentEnd ts).filter fun o => !m.pointsInto o

/-- Where the survivors start, and where they start if they lie one right after the other. -/
def relocations (m : Machine) (ts : List Tree) : List Move :=
  (m.survivors ts).zipWith (fun o n => ⟨o.1, n.1, o.2.size⟩)
    (Tree.placed m.heap.permanentEnd ((m.survivors ts).map Prod.snd))

end Machine

def Tree.total (objects : List (Nat × Tree)) : Nat := (objects.map fun o => o.2.size).sum

namespace Tree

theorem map_snd_placed (start : Nat) (ts : List Tree) : (placed start ts).map Prod.snd = ts := by
  induction ts generalizing start with
  | nil => rfl
  | cons t ts ih => rw [placed, List.map_cons, ih]

theorem length_placed (start : Nat) (ts : List Tree) : (placed start ts).length = ts.length := by
  rw [← congrArg List.length (map_snd_placed start ts), List.length_map]

theorem map_placed (start : Nat) (ts : List Tree) :
    (placed start ts).map (fun o => (o.1, o.2.size)) = spans start ts := by
  induction ts generalizing start with
  | nil => rfl
  | cons t ts ih => rw [placed, List.map_cons, ih, spans]

theorem total_eq (objects : List (Nat × Tree)) :
    total objects = (encodeAll (objects.map Prod.snd)).length := by
  induction objects with
  | nil => simp [total]
  | cons o objects ih =>
    rw [total, List.map_cons, List.sum_cons, List.map_cons, encodeAll_cons, List.length_append,
      ← ih, length_encode, total]

/-- Objects of items are chosen as the items are. -/
theorem map_snd_filter_placed {stays : Item → Bool} {wanted : Nat × Tree → Bool} {items : List Item}
    {first : Nat}
    (h : ∀ before i after, items = before ++ i :: after →
      wanted (first + (Item.bytes before).length, i.tree) = stays i) :
    ((placed first (items.map Item.tree)).filter wanted).map Prod.snd =
      (items.filter stays).map Item.tree := by
  induction items generalizing first with
  | nil => rfl
  | cons i items ih =>
    have hi : wanted (first, i.tree) = stays i := h [] i items rfl
    have hwanted : ∀ before j after, items = before ++ j :: after →
        wanted (first + i.size + (Item.bytes before).length, j.tree) = stays j :=
      fun before j after e => by
        have := h (i :: before) j after (by rw [e]; rfl)
        rwa [Item.length_bytes_cons, ← Nat.add_assoc] at this
    have hrest := ih hwanted
    rw [List.map_cons, placed, List.filter_cons, List.filter_cons, hi]
    cases stays i with
    | true => rw [if_pos rfl, if_pos rfl, List.map_cons, List.map_cons, ← hrest, Item.size]
    | false => rw [if_neg Bool.false_ne_true, if_neg Bool.false_ne_true, ← hrest, Item.size]

/-- The moves of the objects that are chosen to where they lie one right after the other. -/
theorem zipWith_filter_placed {stays : Item → Bool} {wanted : Nat × Tree → Bool} {items : List Item}
    {source : Nat} (target : Nat)
    (h : ∀ before i after, items = before ++ i :: after →
      wanted (source + (Item.bytes before).length, i.tree) = stays i) :
    ((placed source (items.map Item.tree)).filter wanted).zipWith (fun o n => ⟨o.1, n.1, o.2.size⟩)
      (placed target ((items.filter stays).map Item.tree)) =
      Collection.movesOf stays source target items := by
  induction items generalizing source target with
  | nil => rfl
  | cons i items ih =>
    have hi : wanted (source, i.tree) = stays i := h [] i items rfl
    have hwanted : ∀ before j after, items = before ++ j :: after →
        wanted (source + i.size + (Item.bytes before).length, j.tree) = stays j :=
      fun before j after e => by
        have := h (i :: before) j after (by rw [e]; rfl)
        rwa [Item.length_bytes_cons, ← Nat.add_assoc] at this
    rw [List.map_cons, placed, List.filter_cons, List.filter_cons, hi, Collection.movesOf]
    cases stays i with
    | true =>
      rw [if_pos rfl, if_pos rfl, if_pos rfl, List.map_cons, placed, List.zipWith_cons_cons,
        ← ih _ hwanted]
      rfl
    | false =>
      rw [if_neg Bool.false_ne_true, if_neg Bool.false_ne_true, if_neg Bool.false_ne_true,
        ← ih _ hwanted]
      rfl

end Tree

namespace Machine

variable {m : Machine} {a : Arrangement} {ts : List Tree}

theorem total_survivors_add_total_garbage (m : Machine) (ts : List Tree) :
    Tree.total (m.survivors ts) + Tree.total (m.garbage ts) = (Tree.encodeAll ts).length := by
  have hperm := List.filter_append_perm m.pointsInto (Tree.placed m.heap.permanentEnd ts)
  have hsum := (hperm.map fun o => o.2.size).sum_eq
  rw [List.map_append, List.sum_append] at hsum
  have htotal := Tree.total_eq (Tree.placed m.heap.permanentEnd ts)
  rw [Tree.map_snd_placed] at htotal
  exact hsum.trans htotal

theorem map_survivors (m : Machine) (ts : List Tree) :
    (m.survivors ts).map (fun o => (o.1, o.2.size)) =
      (Tree.spans m.heap.permanentEnd ts).filter fun o => m.roots.any (Collection.inside o) := by
  rw [← Tree.map_placed, List.filter_map]
  rfl

theorem total_survivors (m : Machine) (ts : List Tree) : Tree.total (m.survivors ts) =
    (((Tree.spans m.heap.permanentEnd ts).filter fun o =>
      m.roots.any (Collection.inside o)).map Prod.snd).sum := by
  rw [← map_survivors, List.map_map]
  rfl

theorem length_relocations (m : Machine) (ts : List Tree) :
    (m.relocations ts).length = (m.survivors ts).length := by
  simp [relocations, Tree.length_placed]

/-- Something points to or into the object of an item if and only if some place lies in it. -/
theorem pointsInto_eq (ha : m.heap.Arranged m.registry a) {before after : List Item} {i : Item}
    (e : a.temporaries = before ++ i :: after) :
    m.pointsInto (m.heap.permanentEnd + (Item.bytes before).length, i.tree) = i.isHeld a.places := by
  rw [pointsInto, roots, ha.roots_eq]
  exact ha.any_inside_roots_eq_isHeld e

/-- The survivors are the objects of the items that some place lies in. -/
theorem map_snd_survivors (ha : m.heap.Arranged m.registry a) :
    (m.survivors (a.temporaries.map Item.tree)).map Prod.snd = a.kept.map Item.tree :=
  Tree.map_snd_filter_placed fun _ _ _ e => pointsInto_eq ha e

theorem relocations_eq (ha : m.heap.Arranged m.registry a) :
    m.relocations (a.temporaries.map Item.tree) = a.moves := by
  rw [relocations, map_snd_survivors ha, Arrangement.moves, ← ha.permanentEnd_eq]
  exact Tree.zipWith_filter_placed _ fun _ _ _ e => pointsInto_eq ha e

/-- What the survivors take, however the temporaries are read. -/
theorem total_survivors_eq (ha : m.heap.Arranged m.registry a)
    (hts : m.heap.temporaries = Tree.encodeAll ts) :
    Tree.total (m.survivors ts) = (Item.bytes a.kept).length := by
  have hfits : ∀ t ∈ ts, t.Fits := fun t ht => by
    have hle := Tree.size_le_of_mem ht
    have hcap := ha.parts.capacity_eq
    rw [← hts, ha.parts.temporaries_eq] at hle
    exact (hle.trans (by omega)).trans_lt (ha.capacity.trans (by decide))
  have hsame : Tree.encodeAll ts = Tree.encodeAll (a.temporaries.map Item.tree) := by
    rw [← hts, ha.parts.temporaries_eq, ← Item.bytes_eq_encodeAll]
    rfl
  -- Both are found by a walk over the same bytes.
  have hspans : Tree.spans m.heap.permanentEnd ts =
      Tree.spans m.heap.permanentEnd (a.temporaries.map Item.tree) := by
    have hfits' : ∀ t ∈ a.temporaries.map Item.tree, t.Fits := fun t ht => by
      obtain ⟨i, hi, rfl⟩ := List.mem_map.mp ht
      exact ha.fits_of_mem (List.mem_append_right _ hi)
    have hwalk := Tree.walk?_encodeAll hfits m.heap.permanentEnd
    rw [hsame, Tree.walk?_encodeAll hfits', Option.some.injEq] at hwalk
    exact hwalk.symm
  rw [Item.bytes_eq_encodeAll, ← map_snd_survivors ha, ← Tree.total_eq, total_survivors,
    total_survivors, hspans]

/-- The bytes that no collection makes free, where the temporaries are these objects. -/
def inUse (m : Machine) (ts : List Tree) : Nat :=
  m.heap.permanentEnd + Tree.total (m.survivors ts) + m.heap.scratchLength +
    Heap.slotSize * m.heap.depth

/-- There is no room for `n` bytes more, and a collection makes none. -/
def Lacks (m : Machine) (n : Nat) : Prop :=
  ∃ ts, m.heap.temporaries = Tree.encodeAll ts ∧ m.heap.capacity < m.inUse ts + n

namespace Lays

variable {c n : Nat} {v : Image} {kept : List Item} {free : List UInt8}

/-- What is in use does not depend on what the temporaries that are not in use hold. -/
theorem inUse_eq (h : m.Lays c v kept free) (hts : m.heap.temporaries = Tree.encodeAll ts) :
    m.inUse ts = v.used := by
  rw [inUse, total_survivors_eq h.arranged hts, h.arranged.permanentEnd_eq, h.scratchLength_eq,
    h.depth_eq, Image.used, h.live_eq]
  rfl

theorem lacks_iff (h : m.Lays c v kept free) : m.Lacks n ↔ ¬v.used + n ≤ c := by
  rw [not_le, ← h.capacity]
  constructor
  · rintro ⟨ts, hts, hlt⟩
    rwa [h.inUse_eq hts] at hlt
  · intro hlt
    have hts : m.heap.temporaries = Tree.encodeAll (kept.map Item.tree) :=
      h.arranged.parts.temporaries_eq.trans (Item.bytes_eq_encodeAll kept)
    exact ⟨_, hts, by rwa [h.inUse_eq hts]⟩

end Lays

theorem Represents.lacks_iff {c n : Nat} {v : Image} (h : m.Represents c v) :
    m.Lacks n ↔ ¬v.used + n ≤ c := by
  obtain ⟨kept, free, hl⟩ := h
  exact hl.lacks_iff

end Machine
end RpnMachine
