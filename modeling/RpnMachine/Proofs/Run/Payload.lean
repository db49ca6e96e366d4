import RpnMachine.Proofs.Machine.Registry
import RpnMachine.Proofs.Run.Inventory

/-! What is built through the scratchpad is exactly what lies on it, in any well-formed memory:
whatever the bytes are, and however far a collection and the new object move them and what else
there is. -/
namespace RpnMachine

/-- An object is read where it was made, also if its payload is not made of objects. -/
theorem Memory.object?_eq_of_regular {m : Memory} {start : Nat} {r : Recipe} (hr : r.Regular)
    (h : r.encode <+: m.toList.drop start) : m.object? start = some r.encode := by
  obtain ⟨rest, hrest⟩ := h
  have hslice : m.slice start m.size = r.encode ++ rest := by
    rw [slice_eq, List.take_of_length_le (by simp), hrest]
  have hlen := congrArg List.length hrest
  simp only [List.length_append, List.length_drop, length_toList] at hlen
  have hpos := r.length_encode_pos
  rw [object?, objectEnd?, objectSize?_eq, hslice, hr.size?_encode]
  simp only [Option.bind_eq_bind, Option.bind_some]
  rw [if_pos (by omega), Option.bind_some, slice_eq, List.drop_take, Nat.add_sub_cancel_left,
    ← hrest, List.take_left]

/-- Bytes at the end of the temporaries may as well be taken for the start of the scratchpad. -/
theorem Heap.Consists.regroup {h : Heap} {x : Parts} {raw : List UInt8}
    (hx : h.Consists { x with temporaries := x.temporaries ++ raw }) :
    { h with temporaryEnd := x.permanent.length + x.temporaries.length }.Consists
      { x with scratch := raw ++ x.scratch } where
  memory := by
    rw [hx.memory, Parts.bytes, Parts.bytes, Parts.front, Parts.front]
    simp only [List.append_assoc]
  permanentEnd := hx.permanentEnd
  temporaryEnd := rfl
  scratchEnd := by
    rw [hx.scratchEnd]
    simp only [List.length_append]
    omega
  stackStart := by
    rw [hx.stackStart]
    simp only [List.length_append]
    omega
  fits := hx.fits

namespace Machine

open Run

/-- How a run for which `n` bytes are needed ends, where the temporaries are these objects. -/
structure Ends {α : Type} (m : Machine) (ts : List Tree) (n : Nat) (act : Run α)
    (failed : Machine → Prop) (done : α → Machine → Prop) : Prop where
  lacking : m.heap.capacity < m.inUse ts + n →
    ∃ m', exec act m = (.error (.error (.outOfMemory n)), m') ∧ failed m'
  enough : m.inUse ts + n ≤ m.heap.capacity → ∃ a m', exec act m = (.ok a, m') ∧ done a m'

def payload (m : Machine) (k : Kind) (mark : Nat) : List UInt8 :=
  Encoding.mark k ++ Encoding.sized (m.heap.scratchpad.drop mark)

/-- A new pointer, and no other, leads to where these bytes lie. They are its object if they are of
a kind that tells its length. -/
structure Made (m : Machine) (k : Kind) (new : List UInt8) (p : Pointer) (m' : Machine) : Prop where
  fresh : m.registry.position? p = none
  held : ∀ q, (m'.registry.position? q).isSome ↔ (m.registry.position? q).isSome ∨ q = p
  slice : ∃ start, m'.registry.position? p = some start ∧
    m'.heap.memory.slice start (start + new.length) = new
  bytes : k.shape = .sized → exec (Run.bytes p) m' = (.ok new, m')

/-- What goes through the scratchpad comes out as it is. Where there is no room for it, the
scratchpad is cut back if it was to be built, and nothing else changes. -/
structure Builds (m : Machine) (ts : List Tree) : Prop where
  makeFromScratch : ∀ k mark, mark ≤ m.heap.scratchLength →
    m.Ends ts (m.payload k mark).length (makeFromScratch k mark)
      (fun m' => m.Retains m' (m.heap.scratchpad.take mark) m.stackBytes ∧
        ∀ q, (m'.registry.position? q).isSome ↔ (m.registry.position? q).isSome)
      fun p m' => m.Made k (m.payload k mark) p m' ∧
        m.Retains m' (m.heap.scratchpad.take mark) m.stackBytes
  scratchAppendObject : ∀ p, (m.registry.position? p).isSome →
    ∃ bytes, exec (Run.bytes p) m = (.ok bytes, m) ∧
      m.Ends ts bytes.length (scratchAppendObject p)
        (fun m' => m.Retains m' m.heap.scratchpad m.stackBytes)
        fun _ m' => m.Retains m' (m.heap.scratchpad ++ bytes) m.stackBytes

variable {m m' : Machine}

/-- One more pointer hides nothing, and what is told does not depend on where the scratchpad starts. -/
theorem Retains.register {scratch scratch' : List UInt8} {stack : List (Option (List UInt8))}
    (h : m.Retains m' scratch stack) (temporaryEnd position : Nat)
    (hscratch : { m'.heap with temporaryEnd }.scratchpad = scratch') :
    m.Retains
      { m' with
        heap := { m'.heap with temporaryEnd }
        registry := (m'.registry.register position).2 } scratch' stack where
  scratchpad := hscratch
  stackBytes := h.stackBytes
  bytes p hp := by
    obtain ⟨bytes, hbytes, hbytes'⟩ := h.bytes p hp
    obtain ⟨start, hstart, hobject⟩ := exists_position_of_bytes (congrArg Prod.fst hbytes')
    have hne : p ≠ (m'.registry.register position).1 := by
      rintro rfl
      rw [Registry.position?_fst_register] at hstart
      cases hstart
    have hposition : (m'.registry.register position).2.position? p = some start := by
      rw [Registry.position?_register_eq, if_neg hne, hstart]
    exact ⟨bytes, hbytes, exec_bytes_eq hposition hobject⟩
  entries := h.entries

end Machine

namespace Heap.Arranged

open Machine Run

variable {m m' : Machine} {a a' : Arrangement} {ts : List Tree} {n : Nat}

/-- The scratchpad and the free bytes share out their room in another way. -/
theorem withScratch {h h' : Heap} {r : Registry} (ha : h.Arranged r a) {scratch free : List UInt8}
    (hc : h'.Consists (Arrangement.parts { a with scratch, free }))
    (hlen : scratch.length + free.length = a.scratch.length + a.free.length) :
    h'.Arranged r { a with scratch, free } := by
  have hcapacity : h'.capacity = h.capacity := by
    rw [hc.capacity_eq, ha.parts.capacity_eq]
    simp only [Arrangement.parts, Arrangement.items]
    omega
  exact ⟨hc, ha.registered, ha.distinct, ha.held, hcapacity.trans_lt ha.capacity⟩

theorem exec_scratchRelease (ha : m.heap.Arranged m.registry a) {mark : Nat}
    (hmark : mark ≤ a.scratch.length) :
    ∃ m' free, exec (scratchRelease mark) m = (.ok (), m') ∧
      m'.heap.Arranged m'.registry { a with scratch := a.scratch.take mark, free } := by
  obtain ⟨heap, he, hc⟩ := ha.parts.truncate? hmark
  refine ⟨{ m with heap }, a.scratch.drop mark ++ a.free, exec_updateHeap_some he,
    ha.withScratch hc ?_⟩
  rw [List.length_append, ← Nat.add_assoc, ← List.length_append, List.take_append_drop]

/-- A new object after the temporaries, where the scratchpad is cut back. Together they lie like a
scratchpad after the temporaries that there were. -/
theorem build {h : Heap} {r : Registry} (ha : h.Arranged r a) (k : Kind) {mark : Nat}
    (hmark : mark ≤ a.scratch.length)
    (hn : (Encoding.mark k ++ Encoding.sized (a.scratch.drop mark)).length ≤ a.free.length) :
    let new := Encoding.mark k ++ Encoding.sized (a.scratch.drop mark)
    ∃ extended h' free, h.extend? new.length = some (h.temporaryEnd, extended) ∧
      extended.seal? k mark h.temporaryEnd (a.scratch.drop mark).length = some h' ∧
      h'.Consists
        { a.parts with
          temporaries := Item.bytes a.temporaries ++ new
          scratch := a.scratch.take mark
          free } ∧
      { h' with temporaryEnd := h.temporaryEnd }.Arranged r
        { a with scratch := new ++ a.scratch.take mark, free } := by
  intro new
  obtain ⟨extended, junk, hextend, hjunk, hextended⟩ := ha.parts.extend? hn
  obtain ⟨h', hseal, hc⟩ := hextended.seal? (x := { a.parts with free := a.free.drop new.length })
    k hmark hjunk
  refine ⟨extended, h', a.scratch.drop mark ++ a.free.drop new.length, hextend, ?_, hc,
    ha.withScratch ?_ ?_⟩
  · rw [ha.temporaryEnd_eq]
    exact hseal
  · rw [ha.temporaryEnd_eq]
    exact Heap.Consists.regroup (x := { a.parts with scratch := a.scratch.take mark, free := _ }) hc
  · simp only [List.length_append, List.length_take, List.length_drop]
    have := hn
    simp only [List.length_append, new] at this ⊢
    omega

/-- What was built lies where the temporaries ended. -/
theorem drop_built {h h' : Heap} {r : Registry} {new scratch free : List UInt8}
    (ha : h.Arranged r a)
    (hc : h'.Consists
      { a.parts with temporaries := Item.bytes a.temporaries ++ new, scratch, free }) :
    new <+: h'.memory.toList.drop h.temporaryEnd := by
  have hbytes : h'.memory.toList = (Item.bytes a.permanent ++ Item.bytes a.temporaries) ++
      (new ++ (scratch ++ free ++ words a.parts.stack)) := by
    rw [hc.memory, Parts.bytes, Parts.front]
    simp only [Arrangement.parts, List.append_assoc]
  rw [hbytes, ha.temporaryEnd_eq, ← List.length_append, List.drop_left]
  exact List.prefix_append _ _

theorem payload_eq (ha : m.heap.Arranged m.registry a) (k : Kind) (mark : Nat) :
    m.payload k mark = Encoding.mark k ++ Encoding.sized (a.scratch.drop mark) := by
  rw [payload, ha.parts.scratchpad_eq, Arrangement.parts]

theorem exec_makeFromScratch (ha : m.heap.Arranged m.registry a)
    (hentries : ∃ listing, ∀ m' : Machine, m'.heap.permanent = m.heap.permanent →
      m'.entries? = some listing)
    (hts : m.heap.temporaries = Tree.encodeAll ts) {k : Kind} {mark : Nat}
    (hmark : mark ≤ m.heap.scratchLength)
    (hn : m.inUse ts + (m.payload k mark).length ≤ m.heap.capacity) :
    ∃ p m', exec (makeFromScratch k mark) m = (.ok p, m') ∧ m.Made k (m.payload k mark) p m' ∧
      m.Retains m' (m.heap.scratchpad.take mark) m.stackBytes := by
  obtain ⟨m₁, temporaries, free, hreserve, ha₁, hfree⟩ := ha.exec_reserve hts hn
  have hscratch : m.heap.scratchpad = a.scratch := ha.parts.scratchpad_eq
  have hmark₁ : mark ≤ a.scratch.length := hmark.trans_eq ha.parts.scratchLength_eq
  have hnew := ha.payload_eq k mark
  rw [hnew] at hfree
  obtain ⟨extended, heap, free', hextend, hseal, hc, ha'⟩ := ha₁.build k hmark₁ hfree
  rw [← hnew] at hextend hc ha'
  obtain ⟨listing, hlisting⟩ := hentries
  let start := m₁.heap.temporaryEnd
  have hpermanent : heap.permanent = m.heap.permanent :=
    hc.permanent_eq.trans ha.parts.permanent_eq.symm
  have hretains : m.Retains { m₁ with heap := { heap with temporaryEnd := start } } _ m.stackBytes :=
    ha.retains ha' rfl rfl ⟨listing, hlisting m rfl, hlisting _ hpermanent⟩
  have hheld := ha.isSome_position? ha₁ rfl
  refine ⟨(m₁.registry.register start).1,
    { m₁ with heap, registry := (m₁.registry.register start).2 }, ?_, ⟨?_, fun q => ?_, ?_, ?_⟩, ?_⟩
  · have hallocate : exec (allocate (m.payload k mark).length) m =
        (.ok start, { m₁ with heap := extended }) := by
      rw [allocate, exec_bind_ok hreserve]
      exact exec_changeHeap_some hextend
    rw [makeFromScratch, exec_bind_ok (ha.exec_lengthAbove hmark₁)]
    simp only
    rw [Encoding.length_header_add, ← hnew, exec_bind_ok (exec_onFailure_ok hallocate),
      exec_bind_ok (exec_updateHeap_some hseal)]
    exact exec_changeRegistry_some rfl
  · rw [← Option.not_isSome_iff_eq_none, ← hheld, Registry.position?_fst_register]
    exact Bool.false_ne_true
  · rw [Registry.position?_register_eq, ← hheld]
    split_ifs with hq <;> simp [hq]
  · refine ⟨start, ?_, ?_⟩
    · exact Registry.position?_register _ _
    · rw [Memory.slice_eq, List.drop_take, Nat.add_sub_cancel_left]
      exact (List.prefix_iff_eq_take.mp (ha₁.drop_built hc)).symm
  · intro hk
    have hregular : (Recipe.sized k (m.heap.scratchpad.drop mark)).Regular := by
      refine ⟨fun k' bytes e => ?_, ?_⟩
      · cases e
        exact hk
      · exact (Nat.le_add_left _ _).trans_lt (hn.trans_lt (ha.capacity.trans (by decide)))
    have hposition : (m₁.registry.register start).2.position? (m₁.registry.register start).1 =
        some start := Registry.position?_register _ _
    exact exec_bytes_eq hposition (Memory.object?_eq_of_regular hregular (ha₁.drop_built hc))
  · have hcut : heap.scratchpad = m.heap.scratchpad.take mark := by
      rw [hscratch]
      exact hc.scratchpad_eq
    exact hretains.register heap.temporaryEnd start hcut

/-- Where there is no room the scratchpad is cut back all the same. -/
theorem exec_makeFromScratch_error (ha : m.heap.Arranged m.registry a)
    (hentries : ∃ listing, ∀ m' : Machine, m'.heap.permanent = m.heap.permanent →
      m'.entries? = some listing)
    (hts : m.heap.temporaries = Tree.encodeAll ts) {k : Kind} {mark : Nat}
    (hmark : mark ≤ m.heap.scratchLength)
    (hn : m.heap.capacity < m.inUse ts + (m.payload k mark).length) :
    ∃ m', exec (makeFromScratch k mark) m =
        (.error (.error (.outOfMemory (m.payload k mark).length)), m') ∧
      m.Retains m' (m.heap.scratchpad.take mark) m.stackBytes ∧
      ∀ q, (m'.registry.position? q).isSome ↔ (m.registry.position? q).isSome := by
  obtain ⟨m₁, temporaries, free, hreserve, ha₁⟩ := ha.exec_reserve_error hts hn
  have hmark₁ : mark ≤ a.scratch.length := hmark.trans_eq ha.parts.scratchLength_eq
  obtain ⟨m₂, free', hrelease, ha₂⟩ := ha₁.exec_scratchRelease hmark₁
  obtain ⟨listing, hlisting⟩ := hentries
  have hpermanent : m₂.heap.permanent = m.heap.permanent :=
    ha₂.parts.permanent_eq.trans ha.parts.permanent_eq.symm
  have hscratch : m.heap.scratchpad = a.scratch := ha.parts.scratchpad_eq
  refine ⟨m₂, ?_, ?_, fun q => by rw [ha.isSome_position? ha₂ rfl]⟩
  · have hallocate : exec (allocate (m.payload k mark).length) m =
        (.error (.error (.outOfMemory (m.payload k mark).length)), m₁) := exec_bind_error hreserve _
    rw [makeFromScratch, exec_bind_ok (ha.exec_lengthAbove hmark₁)]
    simp only
    rw [Encoding.length_header_add, ← ha.payload_eq k mark]
    refine exec_bind_error ?_ _
    rw [exec_onFailure_error hallocate, exec_bind_ok hrelease]
    rfl
  · rw [hscratch]
    exact ha.retains ha₂ rfl rfl ⟨listing, hlisting m rfl, hlisting m₂ hpermanent⟩

theorem exec_size (ha : m.heap.Arranged m.registry a) {p : Pointer} {q : Place}
    (hq : (a.slots[p.slot]?).join = some q) : exec (size p) m = (.ok q.tree.size, m) := by
  have hmem := ha.item_mem hq
  rw [size, exec_bind_ok (exec_position_of_some (ha.object?_eq hq).1), exec_bind_ok
    (exec_readHeap_some (Memory.objectEnd?_eq (ha.fits_place hmem) (ha.encode_at_position hmem)))]
  show (Except.ok (_ + q.tree.size - _), m) = _
  rw [Nat.add_sub_cancel_left]

/-- The object is copied from where it is after room was made. -/
theorem exec_scratchAppendObject (ha : m.heap.Arranged m.registry a)
    (hentries : ∃ listing, ∀ m' : Machine, m'.heap.permanent = m.heap.permanent →
      m'.entries? = some listing)
    (hts : m.heap.temporaries = Tree.encodeAll ts) {p : Pointer} {q : Place}
    (hq : (a.slots[p.slot]?).join = some q)
    (hn : m.inUse ts + q.tree.size ≤ m.heap.capacity) :
    ∃ m', exec (scratchAppendObject p) m = (.ok (), m') ∧
      m.Retains m' (m.heap.scratchpad ++ q.tree.encode) m.stackBytes := by
  obtain ⟨m₁, temporaries, free, hreserve, ha₁, hfree⟩ := ha.exec_reserve hts hn
  obtain ⟨listing, hlisting⟩ := hentries
  have hroom : q.tree.encode.length ≤ free.length := hfree
  obtain ⟨heap, happend, hc⟩ := ha₁.parts.appendCopy? hroom
    (ha₁.position_add_size_le (ha₁.item_mem hq)) (ha₁.slice_eq hq)
  have hlen : (a.scratch ++ q.tree.encode).length + (free.drop q.tree.encode.length).length =
      a.scratch.length + free.length := by
    simp only [List.length_append, List.length_drop, Tree.length_encode]
    omega
  have ha₂ : heap.Arranged m₁.registry
      { a with temporaries, scratch := a.scratch ++ q.tree.encode, free := _ } :=
    ha₁.withScratch hc hlen
  have hpermanent : heap.permanent = m.heap.permanent :=
    ha₂.parts.permanent_eq.trans ha.parts.permanent_eq.symm
  have hscratch : m.heap.scratchpad = a.scratch := ha.parts.scratchpad_eq
  refine ⟨{ m₁ with heap }, ?_, ?_⟩
  · rw [scratchAppendObject, exec_bind_ok (ha.exec_size hq), exec_bind_ok hreserve,
      exec_bind_ok (exec_position_of_some (ha₁.object?_eq hq).1)]
    exact exec_updateHeap_some happend
  · rw [hscratch]
    have hretains : m.Retains { m₁ with heap } _ m.stackBytes :=
      ha.retains ha₂ rfl rfl ⟨listing, hlisting m rfl, hlisting _ hpermanent⟩
    exact hretains

theorem exec_scratchAppendObject_error (ha : m.heap.Arranged m.registry a)
    (hentries : ∃ listing, ∀ m' : Machine, m'.heap.permanent = m.heap.permanent →
      m'.entries? = some listing)
    (hts : m.heap.temporaries = Tree.encodeAll ts) {p : Pointer} {q : Place}
    (hq : (a.slots[p.slot]?).join = some q)
    (hn : m.heap.capacity < m.inUse ts + q.tree.size) :
    ∃ m', exec (scratchAppendObject p) m = (.error (.error (.outOfMemory q.tree.size)), m') ∧
      m.Retains m' m.heap.scratchpad m.stackBytes := by
  obtain ⟨m₁, temporaries, free, hreserve, ha₁⟩ := ha.exec_reserve_error hts hn
  obtain ⟨listing, hlisting⟩ := hentries
  have hpermanent : m₁.heap.permanent = m.heap.permanent :=
    ha₁.parts.permanent_eq.trans ha.parts.permanent_eq.symm
  have hscratch : m.heap.scratchpad = a.scratch := ha.parts.scratchpad_eq
  refine ⟨m₁, ?_, ?_⟩
  · rw [scratchAppendObject, exec_bind_ok (ha.exec_size hq), exec_bind_error hreserve]
  · rw [hscratch]
    have hretains : m.Retains m₁ (Arrangement.scratch { a with temporaries, free }) m.stackBytes :=
      ha.retains ha₁ rfl rfl ⟨listing, hlisting m rfl, hlisting m₁ hpermanent⟩
    exact hretains

end Heap.Arranged

namespace Machine

open Run

variable {m : Machine} {ts : List Tree}

/-- In every well-formed memory what goes through the scratchpad comes out as it is. -/
theorem builds_of_wellFormed (hm : m.WellFormed)
    (hc : m.heap.capacity < Word.bound Heap.slotSize)
    (hts : m.heap.temporaries = Tree.encodeAll ts) : m.Builds ts := by
  obtain ⟨a, entries, ha, -, hpermanent, hnodup, hnames⟩ := hm.exists_arranged hc hts
  have hentries := ha.exists_entries hpermanent hnodup hnames
  refine ⟨fun k mark hmark => ⟨ha.exec_makeFromScratch_error hentries hts hmark,
    ha.exec_makeFromScratch hentries hts hmark⟩, fun p hp => ?_⟩
  obtain ⟨q, hq⟩ := ha.exists_place hp
  refine ⟨q.tree.encode, ha.exec_bytes hq, ?_, ?_⟩
  · exact ha.exec_scratchAppendObject_error hentries hts hq
  · intro hn
    obtain ⟨m', he, hretains⟩ := ha.exec_scratchAppendObject hentries hts hq hn
    exact ⟨(), m', he, hretains⟩

/-- A pointer leads to the second of two objects, the first is given back, and two more objects are on
the scratchpad. -/
def following : List Action :=
  [.make (Tree.integer false 1).recipe, .make (Tree.symbol "abcd").recipe, .push ⟨1⟩, .release ⟨0⟩,
    .scratchAppend [0, 5, 0, 6]]

theorem acts_following : ∃ m, Acts (ofCapacity 20) following m ∧ m.heap.free = 4 ∧
    m.heap.temporaries = Tree.encodeAll [.integer false 1, .symbol "abcd"] ∧
    m.heap.scratchpad = [0, 5, 0, 6] ∧ m.registry.position? ⟨1⟩ = some 2 ∧
    m.inUse [.integer false 1, .symbol "abcd"] = 14 ∧
    (exec (Run.bytes ⟨1⟩) m).1 = .ok (Tree.symbol "abcd").encode :=
  ⟨_, .cons ⟨by decide, .integer false 1, Tree.encode_eq _⟩ <|
    .cons ⟨by decide, .symbol "abcd", Tree.encode_eq _⟩ <| .cons ⟨by decide +kernel, trivial⟩ <|
    .cons ⟨by decide +kernel, trivial⟩ <| .cons ⟨by decide, trivial⟩ <| .nil _,
    by decide +kernel, by decide +kernel, by decide +kernel, by decide +kernel, by decide +kernel,
    by decide +kernel⟩

/-- There is room for six more bytes only after a collection, which moves what is copied and what a
list is made of. -/
theorem builds_following : ∃ m, Acts (ofCapacity 20) following m ∧ m.heap.free = 4 ∧
    (∃ p m', exec (makeFromScratch (.composite .list) 0) m = (.ok p, m') ∧
      exec (Run.bytes p) m' = (.ok [5, 4, 0, 5, 0, 6], m')) ∧
    ∃ m', exec (scratchAppendObject ⟨1⟩) m = (.ok (), m') ∧
      m.registry.position? ⟨1⟩ = some 2 ∧
      m'.heap.scratchpad = [0, 5, 0, 6] ++ (Tree.symbol "abcd").encode := by
  obtain ⟨m, hm, hfree, hts, hscratch, hposition, hused, hbytes⟩ := acts_following
  obtain ⟨hcapacity, hwell⟩ := wellFormed_of_acts (by decide) hm
  have h := builds_of_wellFormed hwell (by rw [hcapacity]; decide) hts
  have hpayload : m.payload (.composite .list) 0 = [5, 4, 0, 5, 0, 6] := by
    rw [payload, hscratch]
    decide +kernel
  refine ⟨m, hm, hfree, ?_, ?_⟩
  · obtain ⟨p, m', he, hmade, -⟩ := (h.makeFromScratch (.composite .list) 0 (Nat.zero_le _)).enough
      (by rw [hused, hcapacity, hpayload]; decide)
    exact ⟨p, m', he, hpayload ▸ hmade.bytes rfl⟩
  · obtain ⟨bytes, hbytes', hends⟩ := h.scratchAppendObject ⟨1⟩ (by rw [hposition]; rfl)
    rw [hbytes'] at hbytes
    cases hbytes
    obtain ⟨_, m', he, hretains⟩ := hends.enough (by
      rw [hused, hcapacity]
      decide +kernel)
    exact ⟨m', he, hposition, hscratch ▸ hretains.scratchpad⟩

/-- An object of a kind that does not tell its length ends where its own bytes do. -/
theorem integer_shorter_than_payload :
    ¬∀ m : Machine, m.WellFormed → m.heap.capacity < Word.bound Heap.slotSize →
      ∀ k mark, mark ≤ m.heap.scratchLength →
        (∃ p m', exec (makeFromScratch k mark) m = (.ok p, m') ∧
          exec (Run.bytes p) m' = (.ok (m.payload k mark), m')) ∨
        ∃ n m', exec (makeFromScratch k mark) m = (.error (.error (.outOfMemory n)), m') := by
  intro h
  let m := (ofCapacity 64).act (.scratchAppend [1])
  have hm : Acts (ofCapacity 64) [.scratchAppend [1]] m := .cons ⟨by decide, trivial⟩ (.nil _)
  obtain ⟨hcapacity, hwell⟩ := wellFormed_of_acts (by decide) hm
  have hresult : (exec (makeFromScratch .integer 0) m).1 = .ok ⟨0⟩ := by decide +kernel
  have hbytes : (exec (Run.bytes ⟨0⟩) (exec (makeFromScratch .integer 0) m).2).1 = .ok [0, 1] := by
    decide +kernel
  have hpayload : m.payload .integer 0 = [0, 1, 1] := by decide +kernel
  rcases h m hwell (by rw [hcapacity]; decide) .integer 0 (Nat.zero_le _) with
    ⟨p, m', he, hp⟩ | ⟨n, m', he⟩
  · rw [he] at hresult hbytes
    cases hresult
    rw [hp, hpayload] at hbytes
    cases hbytes
  · rw [he] at hresult
    cases hresult

end Machine
end RpnMachine
