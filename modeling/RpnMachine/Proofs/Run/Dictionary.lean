import RpnMachine.Proofs.Machine.Survivors
import RpnMachine.Proofs.Run.Capacity
import RpnMachine.Proofs.Run.WellFormed

/-! The directory is a dictionary that keeps the order in which names were stored. Whatever its
operations move in memory, the other entries, the scratchpad, the stack and all pointers still tell
what they told. -/
namespace RpnMachine

/-- The names and the bytes of their objects, in the order in which they were stored. -/
def Machine.entries? (m : Machine) : Option (List (String × List UInt8)) := do
  (← m.directoryBytes).mapM fun e => do return (← Text.ofUtf8? e.1, ← e.2)

/-- The second machine has the scratchpad of the first one, objects with the same bytes on the
stack, and every pointer that the first one holds leads to the same bytes. -/
structure Machine.Keeps (m m' : Machine) : Prop where
  scratchpad : m'.heap.scratchpad = m.heap.scratchpad
  stackBytes : m'.stackBytes = m.stackBytes
  bytes : ∀ p, (m.registry.position? p).isSome →
    ∃ bytes, Run.exec (Run.bytes p) m = (.ok bytes, m) ∧ Run.exec (Run.bytes p) m' = (.ok bytes, m')

namespace Image

variable {v : Image}

def listing (v : Image) : List (String × List UInt8) :=
  v.directory.map fun e => (e.name, e.object.tree.encode)

theorem map_fst_listing (v : Image) : v.listing.map Prod.fst = v.directory.map Entry.name := by
  rw [listing, List.map_map]
  rfl

theorem listing_forget (v : Image) (name : String) :
    (v.forget name).listing = v.listing.filter (·.1 ≠ name) := by
  rw [listing, listing, List.filter_map]
  rfl

theorem listing_enter (v : Image) (name : String) (t : Tree) :
    (v.enter name t).listing = v.listing ++ [(name, t.encode)] := by
  rw [listing, listing, enter, List.map_append]
  rfl

end Image

namespace Machine

variable {m m' : Machine} {c : Nat} {v v' : Image} {kept : List Item} {free : List UInt8}

theorem Lays.entries?_eq (h : m.Lays c v kept free) : m.entries? = some v.listing := by
  rw [entries?, h.directoryBytes_eq, Image.listing]
  change List.mapM _ _ = _
  induction v.directory with
  | nil => rfl
  | cons e es ih =>
    rw [List.map_cons, List.mapM_cons, ih]
    simp

theorem Lays.keeps (h : m.Lays c v kept free) (hm' : m'.Represents c v')
    (hscratch : v'.scratch = v.scratch) (hstack : v'.stack = v.stack) (hextends : v.Extends v') :
    m.Keeps m' := by
  obtain ⟨kept', free', h'⟩ := hm'
  refine ⟨by rw [h'.scratchpad_eq, h.scratchpad_eq, hscratch],
    by rw [h'.stackBytes_eq, h.stackBytes_eq, hstack], fun p hp => ?_⟩
  obtain ⟨q, hq⟩ := h.exists_deref hp
  exact ⟨_, h.exec_bytes hq, h'.exec_bytes (hextends p q hq)⟩

open Run

/-- How a name is stored for an object with these bytes. That fails exactly if there is no room for what
has to be free before the new binding replaces an old one. -/
def Stores (m : Machine) (entries : List (String × List UInt8)) (name : String) (bytes : List UInt8)
    (o : Except Failure Unit) (m' : Machine) : Prop :=
  ∃ old n, exec (findBinding name) m = (.ok old, m) ∧
    n = replacementSize m ((Recipe.symbol name).encode.length + bytes.length) old ∧
    ((o = .ok () ∧ ¬m.Lacks n ∧
        m'.entries? = some (entries.filter (·.1 ≠ name) ++ [(name, bytes)])) ∨
      (o = .error (.error (.outOfMemory n)) ∧ m.Lacks n ∧ m'.entries? = some entries))

/-- How a name that is there is purged. That fails exactly if something refers to or into its binding
and there is no room for the copy. -/
def Purges (m : Machine) (entries : List (String × List UInt8)) (name : String)
    (o : Except Failure Bool) (m' : Machine) : Prop :=
  ∃ b, exec (findBinding name) m = (.ok (some b), m) ∧
    ((o = .ok true ∧ ¬(m.refersTo b ∧ m.Lacks b.size) ∧
        m'.entries? = some (entries.filter (·.1 ≠ name))) ∨
      (o = .error (.error (.outOfMemory b.size)) ∧ (m.refersTo b ∧ m.Lacks b.size) ∧
        m'.entries? = some entries))

/-- The operations on names do what they do to a list of names and bytes of objects. Only lack of
memory can keep a name from being stored, and only if something refers to or into what it stands for
from being purged. -/
structure IsDictionary (m : Machine) (entries : List (String × List UInt8)) : Prop where
  entries?_eq : m.entries? = some entries
  nodup : (entries.map Prod.fst).Nodup
  names : exec names m = (.ok (entries.map Prod.fst), m)
  lookup : ∀ name bytes, (name, bytes) ∈ entries → ∃ p m',
    exec (Run.lookup name) m = (.ok (some p), m') ∧ exec (Run.bytes p) m' = (.ok bytes, m') ∧
    m'.entries? = some entries ∧ m.Keeps m'
  lookup_absent : ∀ name, name ∉ entries.map Prod.fst → exec (Run.lookup name) m = (.ok none, m)
  store : ∀ name p, name ≠ "" → (m.registry.position? p).isSome →
    ∃ bytes o m', exec (Run.bytes p) m = (.ok bytes, m) ∧ exec (Run.store name p) m = (o, m') ∧
      m.Keeps m' ∧ m.Stores entries name bytes o m'
  purge : ∀ name ∈ entries.map Prod.fst, ∃ o m', exec (Run.purge name) m = (o, m') ∧ m.Keeps m' ∧
    m.Purges entries name o m'
  purge_absent : ∀ name, name ∉ entries.map Prod.fst → exec (Run.purge name) m = (.ok false, m)

namespace Lays

theorem exists_exec_lookup (h : m.Lays c v kept free) {name : String} {bytes : List UInt8}
    (hmem : (name, bytes) ∈ v.listing) : ∃ p m', exec (lookup name) m = (.ok (some p), m') ∧
      exec (Run.bytes p) m' = (.ok bytes, m') ∧ m'.entries? = some v.listing ∧ m.Keeps m' := by
  obtain ⟨e, he, heq⟩ := List.mem_map.mp hmem
  cases heq
  obtain ⟨before, after, hs⟩ := List.append_of_mem he
  obtain ⟨m', hexec, h'⟩ := h.exec_lookup hs
  exact ⟨_, m', hexec, h'.exec_bytes (v.deref_hold_self _), h'.entries?_eq,
    h.keeps h'.represents rfl rfl fun _ _ hp => Image.deref_hold hp _⟩

theorem exists_exec_store (h : m.Lays c v kept free) {name : String} {p : Pointer}
    (hname : name ≠ "") (hp : (m.registry.position? p).isSome) :
    ∃ bytes o m', exec (Run.bytes p) m = (.ok bytes, m) ∧ exec (store name p) m = (o, m') ∧
      m.Keeps m' ∧ m.Stores v.listing name bytes o m' := by
  obtain ⟨q, hq⟩ := h.exists_deref hp
  obtain ⟨old, hold, hdemand⟩ := h.exec_findBinding_demand name (v.newEntry name q.tree).size
  have hsize : (v.newEntry name q.tree).size =
      (Recipe.symbol name).encode.length + q.tree.encode.length := v.size_newEntry _ _
  rw [hsize] at hdemand
  by_cases hroom : v.used + v.demand name (v.newEntry name q.tree).size ≤ c
  · obtain ⟨m', kept', free', hexec, h'⟩ := h.exec_store hname hq hroom
    refine ⟨_, _, m', h.exec_bytes hq, hexec, ?_, old, _, hold, hdemand.symm, .inl ⟨rfl, ?_, ?_⟩⟩
    · exact h.keeps h'.represents rfl rfl fun _ _ hp => hp
    · rwa [h.lacks_iff, not_not, ← hsize]
    · rw [h'.entries?_eq, Image.listing_enter, Image.listing_forget]
  · obtain ⟨m', kept', free', hexec, h'⟩ := h.exec_store_error hname hq hroom
    rw [hsize] at hexec hroom
    refine ⟨_, _, m', h.exec_bytes hq, hexec, ?_, old, _, hold, hdemand.symm,
      .inr ⟨rfl, h.lacks_iff.mpr hroom, h'.entries?_eq⟩⟩
    exact h.keeps h'.represents rfl rfl fun _ _ hp => hp

theorem exists_exec_purge (h : m.Lays c v kept free) {name : String}
    (hmem : name ∈ v.listing.map Prod.fst) :
    ∃ o m', exec (purge name) m = (o, m') ∧ m.Keeps m' ∧ m.Purges v.listing name o m' := by
  rw [Image.map_fst_listing] at hmem
  obtain ⟨e, he, rfl⟩ := List.mem_map.mp hmem
  obtain ⟨before, after, hs⟩ := List.append_of_mem he
  have hfails : m.refersTo (e.binding (Item.bytes (before.flatMap Entry.items)).length) ∧
      m.Lacks (e.binding (Item.bytes (before.flatMap Entry.items)).length).size ↔
        v.refersTo e = true ∧ ¬v.used + e.size ≤ c := by
    rw [h.refersTo_eq hs, h.lacks_iff, e.size_binding]
  by_cases hroom : v.refersTo e = true → v.used + e.size ≤ c
  · have hany : v.directory.any (·.name = e.name) = true :=
      List.any_eq_true.mpr ⟨e, he, by simp⟩
    obtain ⟨m', kept', free', hexec, h'⟩ := h.exec_purge e.name fun d hd hname => by
      rwa [List.inj_on_of_nodup_map h.valid.names hd he hname]
    rw [hany] at hexec
    refine ⟨_, m', hexec, ?_, _, h.exec_findBinding hs, .inl ⟨rfl, ?_, ?_⟩⟩
    · exact h.keeps h'.represents rfl rfl fun _ _ hp => hp
    · rw [hfails]
      exact fun hno => hno.2 (hroom hno.1)
    · rw [h'.entries?_eq, Image.listing_forget]
  · push Not at hroom
    obtain ⟨href, hlt⟩ := hroom
    obtain ⟨m', kept', free', hexec, h'⟩ := h.exec_purge_error hs href (by omega)
    refine ⟨_, m', hexec, ?_, _, h.exec_findBinding hs, .inr ⟨?_, ?_, h'.entries?_eq⟩⟩
    · exact h.keeps h'.represents rfl rfl fun _ _ hp => hp
    · rw [e.size_binding]
    · exact hfails.mpr ⟨href, by omega⟩

theorem isDictionary (h : m.Lays c v kept free) : m.IsDictionary v.listing where
  entries?_eq := h.entries?_eq
  nodup := by
    rw [Image.map_fst_listing]
    exact h.valid.names
  names := by
    rw [Image.map_fst_listing]
    exact h.exec_names
  lookup _ _ hmem := h.exists_exec_lookup hmem
  lookup_absent _ habsent := h.exec_lookup_none (by rwa [Image.map_fst_listing] at habsent)
  store _ _ hname hp := h.exists_exec_store hname hp
  purge _ hmem := h.exists_exec_purge hmem
  purge_absent _ habsent := h.exec_purge_none (by rwa [Image.map_fst_listing] at habsent)

end Lays

/-- Whatever was done with a machine, its directory is a dictionary. -/
theorem exists_isDictionary_of_acts (hc : c < Word.bound Heap.slotSize) {actions : List Action}
    (h : Acts (ofCapacity c) actions m) : ∃ entries, m.IsDictionary entries := by
  obtain ⟨v, ⟨kept, free, hl⟩, -⟩ := h.exists_represents (represents_ofCapacity hc)
  exact ⟨v.listing, hl.isDictionary⟩

/-- The integer five is stored under a name, and a pointer leads there. -/
def cramped : List Action :=
  [.make (Tree.integer false 5).recipe, .store "x" ⟨0⟩, .release ⟨0⟩, .lookup "x"]

theorem acts_cramped : ∃ m, Acts (ofCapacity 8) cramped m ∧ (exec Run.names m).1 = .ok ["x"] ∧
    (exec (purge "x") m).1 = .error (.error (.outOfMemory 5)) :=
  ⟨_, .cons ⟨by decide, .integer false 5, Tree.encode_eq _⟩ <| .cons ⟨by decide +kernel, trivial⟩ <|
    .cons ⟨by decide +kernel, trivial⟩ <| .cons ⟨by decide, trivial⟩ <| .nil _,
    by decide +kernel, by decide +kernel⟩

/-- The directory of a machine that has no room to copy an object out of it. -/
theorem exists_isDictionary_cramped : ∃ m entries, Acts (ofCapacity 8) cramped m ∧
    m.IsDictionary entries ∧ entries.map Prod.fst = ["x"] := by
  obtain ⟨m, hm, hnames, -⟩ := acts_cramped
  obtain ⟨entries, h⟩ := exists_isDictionary_of_acts (by decide) hm
  rw [h.names, Except.ok.injEq] at hnames
  exact ⟨m, entries, hm, h, hnames⟩

/-- A name that is there cannot always be purged: the copy that a pointer needs takes memory. -/
theorem purge_present_lacks_memory : ∃ m entries, Acts (ofCapacity 8) cramped m ∧
    m.entries? = some entries ∧ "x" ∈ entries.map Prod.fst ∧
    (exec (purge "x") m).1 = .error (.error (.outOfMemory 5)) := by
  obtain ⟨m, hm, hnames, hpurge⟩ := acts_cramped
  obtain ⟨v, ⟨kept, free, hl⟩, -⟩ := hm.exists_represents (represents_ofCapacity (by decide))
  rw [hl.exec_names, Except.ok.injEq, ← Image.map_fst_listing] at hnames
  exact ⟨m, _, hm, hl.entries?_eq, by simp [hnames], hpurge⟩

end Machine
end RpnMachine
