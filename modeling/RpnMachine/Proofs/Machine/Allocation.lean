import RpnMachine.Proofs.Machine.Scratchpad

/-! New objects, also those that are made of the scratchpad. -/
namespace RpnMachine

namespace Image

def newest (v : Image) (t : Tree) : Item := ⟨v.fresh, t⟩

def add (v : Image) (t : Tree) : Image :=
  { v with temporaries := v.temporaries ++ [v.newest t], fresh := v.fresh + 1 }

def make (v : Image) (t : Tree) : Image := (v.add t).hold (.whole (v.newest t))

theorem Valid.add {v : Image} (h : v.Valid) (t : Tree) : (v.add t).Valid where
  distinct := by
    have hd := h.distinct
    have hfresh := h.fresh
    rw [Item.Distinct] at hd ⊢
    simp only [Image.add, permanent, ← List.append_assoc, List.map_append, List.map_singleton]
      at hd ⊢
    refine List.nodup_append.mpr ⟨hd, List.nodup_singleton _, fun a ha b hb e => ?_⟩
    rw [← List.map_append, List.mem_map] at ha
    obtain ⟨i, hi, rfl⟩ := ha
    rw [List.mem_singleton] at hb
    have := hfresh i hi
    rw [e, hb] at this
    exact lt_irrefl _ this
  fresh i hi := by
    simp only [Image.add, permanent, ← List.append_assoc, List.mem_append, List.mem_singleton]
      at hi ⊢
    rcases hi with hi | rfl
    · exact Nat.lt_succ_of_lt (h.fresh i (List.mem_append.mpr hi))
    · exact Nat.lt_succ_self _
  labelled := h.labelled
  names := h.names
  trimmed := h.trimmed

end Image

/-- The payload goes to the end of a new place, and the header before it. -/
theorem Memory.writeSized? {m : Memory} {before gap after payload : List UInt8} (k : Kind)
    {start source : Nat} (h : m.toList = before ++ gap ++ after) (hstart : start = before.length)
    (hgap : gap.length = (Encoding.mark k ++ Encoding.sized payload).length)
    (hend : source + payload.length ≤ m.size)
    (hsource : m.slice source (source + payload.length) = payload) :
    ∃ m₁ m₂ m₃,
      m.copy? source (source + payload.length)
        (start + (Encoding.mark k).length + (Varint.encode payload.length).length) = some m₁ ∧
      m₁.write? start (start + (Encoding.mark k).length) (Encoding.mark k) = some m₂ ∧
      m₂.write? (start + (Encoding.mark k).length)
        (start + (Encoding.mark k).length + (Varint.encode payload.length).length)
        (Varint.encode payload.length) = some m₃ ∧
      m₃.toList = before ++ (Encoding.mark k ++ Encoding.sized payload) ++ after := by
  rw [Encoding.sized, List.length_append, List.length_append] at hgap
  obtain ⟨mark, rest, rfl, hmark, hrest⟩ := exists_append_of_length hgap
  obtain ⟨size, body, rfl, hsize, hbody⟩ := exists_append_of_length hrest
  have hpieces : m.toList = (before ++ mark ++ size) ++ body ++ after := by
    rw [h]
    simp only [List.append_assoc]
  obtain ⟨m₁, hcopy, hm₁⟩ := copy?_middle
    (start + (Encoding.mark k).length + (Varint.encode payload.length).length) hpieces
    (Nat.le_add_right _ _) hend hsource hbody.symm
    (by simp only [List.length_append, hstart, hmark, hsize])
  have hm₁ : m₁.toList = before ++ mark ++ (size ++ (payload ++ after)) := by
    rw [hm₁]
    simp only [List.append_assoc]
  obtain ⟨m₂, hwrite, hm₂⟩ := write?_middle start (start + (Encoding.mark k).length)
    (Encoding.mark k) hm₁ hmark.symm hstart (by rw [hmark])
  have hm₂ : m₂.toList = (before ++ Encoding.mark k) ++ size ++ (payload ++ after) := by
    rw [hm₂]
    simp only [List.append_assoc]
  obtain ⟨m₃, hwrite', hm₃⟩ := write?_middle (start + (Encoding.mark k).length)
    (start + (Encoding.mark k).length + (Varint.encode payload.length).length)
    (Varint.encode payload.length) hm₂ hsize.symm (by rw [List.length_append, hstart])
    (by rw [hsize])
  refine ⟨m₁, m₂, m₃, hcopy, hwrite, hwrite', ?_⟩
  rw [hm₃, Encoding.sized]
  simp only [List.append_assoc]

namespace Heap

/-- What the scratchpad holds above a mark becomes an object in a new place of just its size. -/
theorem Consists.seal? {h : Heap} {x : Parts} (k : Kind) {mark : Nat} {gap : List UInt8}
    (hx : h.Consists { x with temporaries := x.temporaries ++ gap }) (hm : mark ≤ x.scratch.length)
    (hgap : gap.length = (Encoding.mark k ++ Encoding.sized (x.scratch.drop mark)).length) :
    ∃ h', h.seal? k mark (x.permanent.length + x.temporaries.length)
        (x.scratch.drop mark).length = some h' ∧ h'.Consists
      { x with
        temporaries := x.temporaries ++ (Encoding.mark k ++ Encoding.sized (x.scratch.drop mark))
        scratch := x.scratch.take mark
        free := x.scratch.drop mark ++ x.free } := by
  have hpieces : h.memory.toList = (x.permanent ++ x.temporaries) ++ gap ++
      (x.scratch ++ x.free ++ words x.stack) := by
    rw [hx.memory_temporaries]
    simp only [List.append_assoc]
  have hsource : h.memory.slice (h.temporaryEnd + mark)
      (h.temporaryEnd + mark + (x.scratch.drop mark).length) = x.scratch.drop mark := by
    refine Memory.slice_middle (x.permanent ++ x.temporaries ++ gap ++ x.scratch.take mark)
      (x.free ++ words x.stack) ?_ ?_ rfl
    · rw [hx.memory_scratch, List.append_assoc _ (x.scratch.take mark), List.take_append_drop]
      simp only [List.append_assoc]
    · simp only [hx.temporaryEnd, List.length_append, List.length_take_of_le hm, Nat.add_assoc]
  have hend : h.temporaryEnd + mark + (x.scratch.drop mark).length ≤ h.memory.size := by
    have hcap := hx.capacity_eq
    have htemp := hx.temporaryEnd
    have hlen : (x.scratch.drop mark).length = x.scratch.length - mark := List.length_drop
    simp only [List.length_append] at hcap htemp
    show _ ≤ h.capacity
    omega
  obtain ⟨m₁, m₂, m₃, hcopy, hwrite, hwrite', hm₃⟩ := Memory.writeSized? k hpieces
    List.length_append.symm hgap hend hsource
  have hw := hx.writeTemporaries x.temporaries _ hgap.symm hm₃
  obtain ⟨h', htruncate, hc⟩ := hw.truncate? hm
  refine ⟨h', ?_, hc⟩
  rw [Heap.seal?]
  simp only [Option.bind_eq_bind]
  rw [hcopy, Option.bind_some, hwrite, Option.bind_some, hwrite', Option.bind_some]
  exact htruncate

end Heap

namespace Machine.Lays

variable {m : Machine} {c : Nat} {v : Image} {kept : List Item} {free : List UInt8}

theorem grow (h : m.Lays c v kept free) {heap : Heap} {free' : List UInt8}
    (v' : Image) (new : List Item)
    (hc : heap.Consists
      { permanent := Item.bytes v.permanent
        temporaries := Item.bytes (kept ++ new)
        scratch := v'.scratch
        free := free'
        stack := v.stack.map (·.position (v.permanent ++ kept)) })
    (hlen : (Item.bytes new).length + v'.scratch.length + free'.length =
      v.scratch.length + free.length) (hvalid : v'.Valid)
    (hsub : (kept ++ new).Sublist v'.temporaries) (hperm : v'.permanent = v.permanent)
    (hstack : v'.stack = v.stack) (hslots : v'.slots = v.slots)
    (hint : v'.interrupted = v.interrupted) (hnest : v'.nesting = v.nesting) :
    { m with heap }.Lays c v' (kept ++ new) free' := by
  have hpos : ∀ q ∈ v.places, q.position (v'.permanent ++ (kept ++ new)) =
      q.position (v.permanent ++ kept) := fun q hq => by
    rw [hperm, ← List.append_assoc, Place.position_append_left (h.mem_of_mem_places hq)]
  have hcap : heap.capacity = c := by
    have hsum := hc.capacity_eq
    simp only [Item.bytes_append, List.length_append, List.length_map] at hsum
    rw [h.capacity_eq]
    omega
  refine ⟨hvalid, hsub, ⟨?_, ?_, ?_, fun q hq => ?_, ?_⟩, hcap, h.interrupted.trans hint.symm,
    h.nesting.trans hnest.symm⟩
  · have : (v'.arrangement (kept ++ new) free').parts =
        { permanent := Item.bytes v.permanent
          temporaries := Item.bytes (kept ++ new)
          scratch := v'.scratch
          free := free'
          stack := v.stack.map (·.position (v.permanent ++ kept)) } := by
      simp only [Arrangement.parts, Image.arrangement, Arrangement.items, hstack]
      congr 1
      · rw [hperm]
      · exact List.map_congr_left fun q hq => hpos q (List.mem_append_left _ hq)
    rwa [this]
  · simp only [Image.arrangement, Arrangement.items, hslots]
    rw [h.slots_eq]
    refine List.map_congr_left fun slot hslot => ?_
    cases slot with
    | none => rfl
    | some q =>
      exact congrArg some (hpos q
        (List.mem_append_right _ (List.mem_filterMap.mpr ⟨_, hslot, rfl⟩))).symm
  · exact hvalid.distinct.sublist ((List.Sublist.refl _).append hsub)
  · have hq' : q ∈ v.places := by
      simpa only [Arrangement.places, Image.arrangement, hslots, hstack, Image.places] using hq
    have := h.mem_of_mem_places hq'
    simp only [Arrangement.items, Image.arrangement, hperm, ← List.append_assoc]
    exact List.mem_append_left _ this
  · have := h.arranged.capacity
    rw [h.capacity] at this
    simpa [hcap] using this

theorem temporaryEnd_eq (h : m.Lays c v kept free) :
    m.heap.temporaryEnd = (Item.bytes (v.permanent ++ kept)).length := by
  rw [h.arranged.temporaryEnd_eq, Item.bytes_append, List.length_append]
  rfl

theorem add (h : m.Lays c v kept free) (t : Tree) {heap : Heap} (scratch : List UInt8)
    {free' : List UInt8} (hc : heap.Consists
      { (v.arrangement kept free').parts with
        temporaries := Item.bytes kept ++ t.encode
        scratch })
    (hlen : t.size + scratch.length + free'.length = v.scratch.length + free.length) :
    { m with heap }.Lays c { v.add t with scratch } (kept ++ [v.newest t]) free' := by
  have hbytes : Item.bytes (kept ++ [v.newest t]) = Item.bytes kept ++ t.encode := by
    simp [Image.newest]
  refine h.grow { v.add t with scratch } [v.newest t] ?_ ?_ ((h.valid.add t).withRest _ _ _ _)
    (h.sublist.append (.refl _)) rfl rfl rfl rfl rfl
  · rw [hbytes]
    exact hc
  · rw [Item.length_bytes_cons, Item.bytes_nil, List.length_nil, Nat.add_zero]
    exact hlen

theorem mem_newest (v : Image) (t : Tree) (kept : List Item) :
    v.newest t ∈ (v.add t).permanent ++ (kept ++ [v.newest t]) := by
  simp

theorem position_newest (h : m.Lays c v kept free) (t : Tree) :
    (Place.whole (v.newest t)).position ((v.add t).permanent ++ (kept ++ [v.newest t])) =
      m.heap.temporaryEnd := by
  have hd : Item.Distinct ((v.permanent ++ kept) ++ [v.newest t]) := by
    rw [List.append_assoc]
    exact (h.valid.add t).distinct.sublist
      ((List.Sublist.refl _).append (h.sublist.append (.refl _)))
  have hp : (v.add t).permanent = v.permanent := rfl
  rw [hp, ← List.append_assoc, Place.position_append_right hd (by simp [Place.whole]),
    h.temporaryEnd_eq]
  simp [Place.position, Place.whole, Item.start]

theorem exec_allocate (h : m.Lays c v kept free) {n : Nat} (hn : v.used + n ≤ c) :
    ∃ (m' : Machine) (kept' : List Item) (free' junk : List UInt8) (heap : Heap),
      Run.exec (Run.allocate n) m = (.ok m'.heap.temporaryEnd, { m' with heap }) ∧
      m'.Lays c v kept' free' ∧ n ≤ free'.length ∧
      m'.heap.extend? n = some (m'.heap.temporaryEnd, heap) ∧ junk.length = n ∧ heap.Consists
        { (v.arrangement kept' (free'.drop n)).parts with
          temporaries := Item.bytes kept' ++ junk } := by
  obtain ⟨m', kept', free', he, h', hfree⟩ := h.exec_reserve hn
  obtain ⟨heap, junk, hextend, hjunk, hc⟩ := h'.arranged.parts.extend? hfree
  refine ⟨m', kept', free', junk, heap, ?_, h', hfree, hextend, hjunk, hc⟩
  rw [Run.allocate, Run.exec_bind_ok he]
  exact Run.exec_changeHeap_some hextend

theorem exec_allocate_error (h : m.Lays c v kept free) {n : Nat} (hn : ¬v.used + n ≤ c) :
    ∃ m' kept' free', Run.exec (Run.allocate n) m = (.error (.error (.outOfMemory n)), m') ∧
      m'.Lays c v kept' free' := by
  obtain ⟨m', kept', free', he, h'⟩ := h.exec_reserve_error hn
  exact ⟨m', kept', free', Run.exec_bind_error he _, h'⟩

theorem exec_make (h : m.Lays c v kept free) {t : Tree} (ht : v.used + t.size ≤ c) :
    ∃ m' kept' free', Run.exec (Run.make t.recipe) m = (.ok ⟨v.slots.length⟩, m') ∧
      m'.Lays c (v.make t) kept' free' := by
  obtain ⟨m₁, kept', free₁, junk, heap, he, h₁, hfree, -, hjunk, hc⟩ := h.exec_allocate ht
  have hpieces : heap.memory.toList = (Item.bytes v.permanent ++ Item.bytes kept') ++ junk ++
      (v.scratch ++ free₁.drop t.size ++
        Heap.words (v.stack.map (·.position (v.permanent ++ kept')))) := by
    rw [hc.memory_temporaries]
    simp only [List.append_assoc]
    rfl
  obtain ⟨memory, hwrite, hm⟩ := Memory.write?_middle m₁.heap.temporaryEnd
    (m₁.heap.temporaryEnd + t.size) t.encode hpieces hjunk.symm
    (by rw [h₁.temporaryEnd_eq, Item.bytes_append]) (by rw [hjunk])
  have hw := hc.writeTemporaries (x := (v.arrangement kept' (free₁.drop t.size)).parts)
    (Item.bytes kept') t.encode hjunk.symm (by rw [hm]; simp only [List.append_assoc]; rfl)
  have h₁' : Lays { m₁ with heap := { heap with memory } } c (v.add t) (kept' ++ [v.newest t])
      (free₁.drop t.size) :=
    h₁.add t v.scratch hw (by rw [List.length_drop]; omega)
  obtain ⟨m₂, he₂, h₂⟩ := h₁'.exec_register (q := .whole (v.newest t)) (mem_newest v t kept')
  rw [h₁.position_newest t] at he₂
  refine ⟨m₂, _, _, ?_, h₂⟩
  rw [Run.make, ← Recipe.length_encode_eq_requiredMemory, ← Tree.encode_eq, Tree.length_encode,
    Run.exec_bind_ok he, Run.exec_bind_ok (Run.exec_updateHeap_some (by
    rw [hwrite]
    rfl))]
  exact he₂

theorem exec_make_error (h : m.Lays c v kept free) {t : Tree} (ht : ¬v.used + t.size ≤ c) :
    ∃ m' kept' free', Run.exec (Run.make t.recipe) m =
      (.error (.error (.outOfMemory t.size)), m') ∧ m'.Lays c v kept' free' := by
  obtain ⟨m', kept', free', he, h'⟩ := h.exec_allocate_error ht
  refine ⟨m', kept', free', ?_, h'⟩
  rw [Run.make, ← Recipe.length_encode_eq_requiredMemory, ← Tree.encode_eq]
  exact Run.exec_bind_error he _

theorem exec_makeFromScratch (h : m.Lays c v kept free) {k : Kind} {mark : Nat} {t : Tree}
    (hm : mark ≤ v.scratch.length)
    (ht : t.encode = Encoding.mark k ++ Encoding.sized (v.scratch.drop mark))
    (hn : v.used + t.size ≤ c) :
    ∃ m' kept' free', Run.exec (Run.makeFromScratch k mark) m = (.ok ⟨v.slots.length⟩, m') ∧
      m'.Lays c { v.make t with scratch := v.scratch.take mark } kept' free' := by
  obtain ⟨m₁, kept', free₁, junk, heap, he₁, h₁, hfree, -, hjunk, hc⟩ := h.exec_allocate hn
  obtain ⟨heap', hseal, hc'⟩ := hc.seal? (x := (v.arrangement kept' (free₁.drop t.size)).parts) k
    hm (by rw [hjunk, ← Tree.length_encode, ht]; rfl)
  have hfits : t.size + (v.scratch.take mark).length +
      (v.scratch.drop mark ++ free₁.drop t.size).length = v.scratch.length + free₁.length := by
    simp only [List.length_append, List.length_take, List.length_drop]
    omega
  obtain ⟨m₂, he₂, h₂⟩ := (h₁.add t (v.scratch.take mark)
    (by rw [ht]; exact hc') hfits).exec_register
      (q := .whole (v.newest t)) (mem_newest v t kept')
  refine ⟨m₂, _, _, ?_, h₂⟩
  have hpos : (Place.whole (v.newest t)).position (Image.permanent
      { v.add t with scratch := v.scratch.take mark } ++ (kept' ++ [v.newest t])) =
      m₁.heap.temporaryEnd := h₁.position_newest t
  rw [hpos] at he₂
  rw [Run.makeFromScratch, Run.exec_bind_ok (h.exec_lengthAbove hm)]
  simp only
  rw [Encoding.length_header_add, ← ht, Tree.length_encode,
    Run.exec_bind_ok (Run.exec_onFailure_ok he₁), Run.exec_bind_ok (Run.exec_updateHeap_some ?_)]
  · exact he₂
  · rw [h₁.arranged.temporaryEnd_eq]
    exact hseal

theorem exec_makeFromScratch_error (h : m.Lays c v kept free) {k : Kind} {mark : Nat} {t : Tree}
    (hm : mark ≤ v.scratch.length)
    (ht : t.encode = Encoding.mark k ++ Encoding.sized (v.scratch.drop mark))
    (hn : ¬v.used + t.size ≤ c) :
    ∃ m' kept' free', Run.exec (Run.makeFromScratch k mark) m =
      (.error (.error (.outOfMemory t.size)), m') ∧
      m'.Lays c { v with scratch := v.scratch.take mark } kept' free' := by
  obtain ⟨m₁, kept', free₁, he₁, h₁⟩ := h.exec_allocate_error hn
  obtain ⟨m₂, free₂, he₂, h₂⟩ := h₁.exec_scratchRelease hm
  refine ⟨m₂, _, _, ?_, h₂⟩
  rw [Run.makeFromScratch, Run.exec_bind_ok (h.exec_lengthAbove hm)]
  simp only
  rw [Encoding.length_header_add, ← ht, Tree.length_encode]
  refine Run.exec_bind_error ?_ _
  rw [Run.exec_onFailure_error he₁, Run.exec_bind_ok he₂]
  rfl

end Machine.Lays
end RpnMachine
