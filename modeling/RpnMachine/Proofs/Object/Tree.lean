import RpnMachine.Proofs.Object.Encoding

/-! Objects as trees, apart from the bytes that spell them. -/
namespace RpnMachine

inductive Tree where
  | integer (negative : Bool) (magnitude : UInt64)
  | decimal (bits : UInt64)
  | text (s : String)
  | symbol (s : String)
  | command (c : Command)
  | composite (c : Composite) (children : List Tree)

namespace Tree

mutual

def encode : Tree → List UInt8
  | integer negative magnitude => (Recipe.integer negative magnitude).encode
  | decimal bits => (Recipe.decimal bits).encode
  | text s => (Recipe.text s).encode
  | symbol s => (Recipe.symbol s).encode
  | command c => (Recipe.command c).encode
  | composite c ts => (Recipe.sized (.composite c) (encodeAll ts)).encode

def encodeAll : List Tree → List UInt8
  | [] => []
  | t :: ts => t.encode ++ encodeAll ts

end

def recipe : Tree → Recipe
  | integer negative magnitude => .integer negative magnitude
  | decimal bits => .decimal bits
  | text s => .text s
  | symbol s => .symbol s
  | command c => .command c
  | composite c ts => .sized (.composite c) (encodeAll ts)

def kind (t : Tree) : Kind := t.recipe.kind

def size (t : Tree) : Nat := t.encode.length

/-- Sizes are 64-bit words. -/
def Fits (t : Tree) : Prop := t.size < Word.bound 8

def children : Tree → List Tree
  | composite _ ts => ts
  | _ => []

theorem encode_eq (t : Tree) : t.encode = t.recipe.encode := by
  cases t <;> rw [encode] <;> rfl

@[simp] theorem length_encode (t : Tree) : t.encode.length = t.size := rfl

theorem size_pos (t : Tree) : 0 < t.size := by
  rw [size, encode_eq]
  exact t.recipe.length_encode_pos

@[simp] theorem encodeAll_nil : encodeAll [] = [] := by rw [encodeAll]

@[simp] theorem encodeAll_cons (t : Tree) (ts : List Tree) :
    encodeAll (t :: ts) = t.encode ++ encodeAll ts := by rw [encodeAll]

theorem encodeAll_eq (ts : List Tree) : encodeAll ts = ts.flatMap encode := by
  induction ts with
  | nil => simp
  | cons t ts ih => simp [ih]

@[simp] theorem encodeAll_append (ts us : List Tree) :
    encodeAll (ts ++ us) = encodeAll ts ++ encodeAll us := by
  simp [encodeAll_eq]

theorem size_le_of_mem {t : Tree} {ts : List Tree} (h : t ∈ ts) :
    t.size ≤ (encodeAll ts).length := by
  obtain ⟨us, vs, rfl⟩ := List.append_of_mem h
  simp
  omega

theorem Fits.regular {t : Tree} (h : t.Fits) : t.recipe.Regular where
  shape k bytes e := by
    cases t with
    | composite c ts => cases e; rfl
    | _ => cases e
  length := by rwa [← encode_eq]

theorem kind?_encode (t : Tree) (rest : List UInt8) :
    Encoding.kind? (t.encode ++ rest) = some t.kind := by
  rw [encode_eq]
  exact t.recipe.kind?_encode rest

theorem Fits.size?_encode {t : Tree} (h : t.Fits) (rest : List UInt8) :
    Encoding.size? (t.encode ++ rest) = some t.size := by
  have := h.regular.size?_encode rest
  rwa [← encode_eq] at this

/-- Where objects lie that follow one another from a position on. -/
def spans (start : Nat) : List Tree → List (Nat × Nat)
  | [] => []
  | t :: ts => (start, t.size) :: spans (start + t.size) ts

theorem length_spans (start : Nat) (ts : List Tree) : (spans start ts).length = ts.length := by
  induction ts generalizing start with
  | nil => rfl
  | cons t ts ih => simp [spans, ih]

/-- Objects that follow one another are found by their sizes alone. -/
theorem walk?_encodeAll {ts : List Tree} (h : ∀ t ∈ ts, t.Fits) (start : Nat) :
    Encoding.walk? start (encodeAll ts) = some (spans start ts) := by
  induction ts generalizing start with
  | nil => simp [Encoding.walk?, spans]
  | cons t ts ih =>
    obtain ⟨b, bs, hb⟩ : ∃ b bs, t.encode = b :: bs :=
      List.exists_cons_of_length_pos t.size_pos
    have hsize := (h t (by simp)).size?_encode (encodeAll ts)
    have hlen : t.size = bs.length + 1 := by rw [size, hb]; rfl
    have hrest : Encoding.after? bs.length (bs ++ encodeAll ts) = some (encodeAll ts) := by
      rw [Encoding.after?_eq]
      simp
    rw [encodeAll_cons, hb, List.cons_append, Encoding.walk?]
    rw [hb, List.cons_append, hlen] at hsize
    rw [hsize]
    simp only
    split
    · next hnone => rw [hrest] at hnone; cases hnone
    · next rest hsome =>
      rw [hrest] at hsome
      cases hsome
      rw [ih (fun u hu => h u (by simp [hu])), spans, hlen]
      rfl

def header (n : Nat) : Nat := 1 + (Varint.encode n).length

theorem encode_composite (c : Composite) (ts : List Tree) :
    (composite c ts).encode =
      Encoding.mark (.composite c) ++ Encoding.sized (encodeAll ts) := by
  rw [encode]
  rfl

theorem size_composite (c : Composite) (ts : List Tree) :
    (composite c ts).size = header (encodeAll ts).length + (encodeAll ts).length := by
  rw [size, encode_composite]
  simp [Encoding.length_sized, header]
  omega

theorem children?_encode_append {t : Tree} (h : t.Fits) (rest : List UInt8) :
    Encoding.children? (t.encode ++ rest) =
      some (spans (header (encodeAll t.children).length) t.children) := by
  rw [Encoding.children?, t.kind?_encode rest]
  simp only [Option.bind_eq_bind, Option.bind_some]
  cases t with
  | composite c ts =>
    have hsize := size_composite c ts
    have hp : Encoding.payload? ((composite c ts).encode ++ rest) =
        some (header (encodeAll ts).length, (composite c ts).size) := by
      have hfits : (Encoding.mark (.composite c) ++ Encoding.sized (encodeAll ts)).length <
          Word.bound 8 := by
        rw [← encode_composite]
        exact h
      have := Encoding.payload?_sized hfits rest
      rwa [← encode_composite] at this
    have hslice : Encoding.slice? ((composite c ts).encode ++ rest) (header (encodeAll ts).length)
        (composite c ts).size = some (encodeAll ts) := by
      apply Encoding.slice?_append
      rw [size, encode_composite]
      exact Encoding.slice?_sized _ _
    have hfit : ∀ t ∈ ts, t.Fits := fun t ht => by
      have := size_le_of_mem ht
      have := h
      unfold Fits at *
      omega
    simp only [kind, recipe, Recipe.kind, hp, Option.bind_some, children]
    split_ifs with hlt
    · rw [hslice, Option.bind_some, walk?_encodeAll hfit]
    · cases ts with
      | nil => rfl
      | cons t ts =>
        have := t.size_pos
        simp at hsize hlt
        omega
  | integer negative magnitude =>
    simp only [kind, recipe, Recipe.kind, children, spans]
    split_ifs <;> rfl
  | _ => rfl

theorem children?_encode {t : Tree} (h : t.Fits) :
    Encoding.children? t.encode =
      some (spans (header (encodeAll t.children).length) t.children) := by
  simpa using children?_encode_append h []

def value : Tree → Value
  | integer negative magnitude => .integer (if negative then -magnitude.toNat else magnitude.toNat)
  | decimal bits => .decimal bits
  | text s => .text s
  | symbol s => .symbol s
  | command c => .command c
  | composite c ts => .composite c ts.length

theorem value?_encode_append {t : Tree} (h : t.Fits) (rest : List UInt8) :
    Encoding.value? (t.encode ++ rest) = some (.ok t.value) := by
  have hd : (t.encode ++ rest).drop (Encoding.mark t.kind).length = t.recipe.payload ++ rest := by
    rw [encode_eq, Recipe.encode, kind, List.append_assoc, List.drop_left]
  rw [Encoding.value?, t.kind?_encode rest]
  simp only [Option.bind_eq_bind, Option.bind_some, hd]
  cases t with
  | integer negative magnitude =>
    have hm : Encoding.magnitude (Varint.encode magnitude.toNat ++ rest) = .ok magnitude.toNat := by
      rw [Encoding.magnitude, Varint.decode_encode magnitude.toNat_lt rest]
    simp only [kind, recipe, Recipe.kind, Recipe.payload, hm, value]
    by_cases hneg : negative = true
    · by_cases hz : magnitude = 0
      · simp only [hneg, hz]
        rfl
      · rw [if_pos ⟨hneg, hz⟩, if_pos hneg]
        rfl
    · simp only [hneg]
      rfl
  | decimal bits =>
    have hw : Word.decode (Word.encode 8 bits.toNat) = bits.toNat :=
      Word.decode_encode bits.toNat_lt
    have htake : (Word.encode 8 bits.toNat ++ rest).take 8 = Word.encode 8 bits.toNat :=
      List.take_left' (Word.length_encode _ _)
    simp only [kind, recipe, Recipe.kind, Recipe.payload, htake, hw, value]
    rw [if_neg (by simp)]
    simp
  | text s =>
    have ht : Encoding.text? .text ((text s).encode ++ rest) = some (.ok s) := by
      unfold Fits size at h
      rw [encode] at h ⊢
      exact Encoding.text?_sized h rest
    simp only [kind, recipe, Recipe.kind, ht]
    rfl
  | symbol s =>
    have ht : Encoding.text? .symbol ((symbol s).encode ++ rest) = some (.ok s) := by
      unfold Fits size at h
      rw [encode] at h ⊢
      exact Encoding.text?_sized h rest
    simp only [kind, recipe, Recipe.kind, ht]
    rfl
  | command c => rfl
  | composite c ts =>
    have hc := children?_encode_append h rest
    simp only [kind, recipe, Recipe.kind, hc, Option.map_some, length_spans]
    rfl

theorem value?_encode {t : Tree} (h : t.Fits) : Encoding.value? t.encode = some (.ok t.value) := by
  simpa using value?_encode_append h []

/-! What the kind of an object tells of it. -/

theorem eq_composite_of_kind {t : Tree} {c : Composite} (h : t.kind = .composite c) :
    t = composite c t.children := by
  cases t with
  | integer negative magnitude =>
    rw [kind, recipe, Recipe.kind] at h
    split_ifs at h
  | composite c' ts =>
    cases h
    rfl
  | _ => cases h

theorem exists_value_of_symbol {t : Tree} (h : t.kind = .symbol) :
    ∃ name, t.value = .symbol name := by
  cases t with
  | integer negative magnitude =>
    rw [kind, recipe, Recipe.kind] at h
    split_ifs at h
  | symbol name => exact ⟨name, rfl⟩
  | _ => cases h

/-- `t.At offset s`: in the bytes of `t` the object `s` starts at `offset`. -/
inductive At : Tree → Nat → Tree → Prop
  | self (t : Tree) : At t 0 t
  | child (c : Composite) (before after : List Tree) {t s : Tree} {offset : Nat} :
      At t offset s → At (composite c (before ++ t :: after))
        (header (encodeAll (before ++ t :: after)).length + (encodeAll before).length + offset) s

theorem At.trans {t s u : Tree} {i j : Nat} (h : t.At i s) (h' : s.At j u) : t.At (i + j) u := by
  induction h with
  | self => simpa using h'
  | child c ls rs _ ih => simpa [Nat.add_assoc] using (ih h').child c ls rs

theorem At.of_mem_children {t s u : Tree} {offset : Nat} (hs : s ∈ t.children) (h : s.At offset u) :
    ∃ i, t.At i u := by
  cases t with
  | composite c ts =>
    obtain ⟨before, after, rfl⟩ := List.append_of_mem hs
    exact ⟨_, h.child c before after⟩
  | _ => cases hs

theorem encode_composite_append (c : Composite) (before after : List Tree) (t : Tree) :
    ∃ head, head.length = header (encodeAll (before ++ t :: after)).length ∧
      (composite c (before ++ t :: after)).encode =
        head ++ encodeAll before ++ t.encode ++ encodeAll after := by
  refine ⟨Encoding.mark (.composite c) ++
    Varint.encode (encodeAll (before ++ t :: after)).length, by simp [header], ?_⟩
  rw [encode_composite, Encoding.sized]
  simp

theorem At.encode_eq_append {t s : Tree} {offset : Nat} (h : t.At offset s) :
    ∃ before after, before.length = offset ∧ t.encode = before ++ s.encode ++ after := by
  induction h with
  | self t => exact ⟨[], [], rfl, by simp⟩
  | @child c ls rs t s offset _ ih =>
    obtain ⟨before, after, hl, he⟩ := ih
    obtain ⟨head, hh, hc⟩ := encode_composite_append c ls rs t
    refine ⟨head ++ encodeAll ls ++ before, after ++ encodeAll rs, ?_, ?_⟩
    · simp only [List.length_append, hh, hl]
    · rw [hc, he]
      simp only [List.append_assoc]

theorem At.add_size_le {t s : Tree} {offset : Nat} (h : t.At offset s) :
    offset + s.size ≤ t.size := by
  obtain ⟨before, after, hl, he⟩ := h.encode_eq_append
  have := congrArg List.length he
  simp only [List.length_append, length_encode] at this
  omega

theorem At.lt_size {t s : Tree} {offset : Nat} (h : t.At offset s) : offset < t.size := by
  have := h.add_size_le
  have := s.size_pos
  omega

theorem at_spans (t : Tree) :
    List.Forall₂ (fun span s => t.At span.1 s)
      (spans (header (encodeAll t.children).length) t.children) t.children := by
  suffices h : ∀ c before after, List.Forall₂
      (fun span s => (composite c (before ++ after)).At span.1 s)
      (spans (header (encodeAll (before ++ after)).length + (encodeAll before).length) after)
      after by
    cases t with
    | composite c ts => simpa [children] using h c [] ts
    | _ => exact .nil
  intro c before after
  induction after generalizing before with
  | nil => exact .nil
  | cons t after ih =>
    refine .cons ?_ ?_
    · simpa using (At.self t).child c before after
    · simpa [Nat.add_assoc] using ih (before ++ [t])

theorem At.encode_eq_take_drop {t s : Tree} {offset : Nat} (h : t.At offset s) :
    s.encode = (t.encode.drop offset).take s.size := by
  obtain ⟨before, after, rfl, he⟩ := h.encode_eq_append
  rw [he, List.append_assoc, List.drop_left, size, List.take_left]

theorem snd_getElem_spans (start : Nat) (ts : List Tree) {i : Nat} (h : i < (spans start ts).length)
    (h' : i < ts.length) : (spans start ts)[i].2 = ts[i].size := by
  induction ts generalizing start i with
  | nil => cases h'
  | cons t ts ih =>
    cases i with
    | zero => rfl
    | succ i => exact ih _ _ _

theorem map_encode_children (t : Tree) : t.children.map encode =
    (spans (header (encodeAll t.children).length) t.children).map fun span =>
      (t.encode.drop span.1).take span.2 := by
  apply List.ext_getElem
  · simp [length_spans]
  · intro i hi hi'
    rw [List.length_map] at hi hi'
    have hat := (List.forall₂_iff_get.mp t.at_spans).2 i hi' hi
    simp only [List.get_eq_getElem] at hat
    rw [List.getElem_map, List.getElem_map, hat.encode_eq_take_drop, snd_getElem_spans _ _ hi' hi]

theorem Fits.of_mem_children {t s : Tree} (h : t.Fits) (hs : s ∈ t.children) : s.Fits := by
  obtain ⟨i, hi⟩ := (At.self s).of_mem_children hs
  have := hi.add_size_le
  unfold Fits at *
  omega

theorem kind_eq_of_encode_eq {t t' : Tree} (he : t'.encode = t.encode) : t'.kind = t.kind := by
  have hkind := t'.kind?_encode []
  rw [he, t.kind?_encode [], Option.some_inj] at hkind
  exact hkind.symm

theorem value_eq_of_encode_eq {t t' : Tree} (ht : t.Fits) (he : t'.encode = t.encode) :
    t'.value = t.value := by
  have ht' : t'.Fits := by rwa [Fits, size, he]
  have hvalue := value?_encode ht'
  rw [he, value?_encode ht, Option.some_inj, Except.ok.injEq] at hvalue
  exact hvalue.symm

/-- The bytes of an object tell the bytes of its children. -/
theorem map_encode_children_of_encode_eq {t t' : Tree} (ht : t.Fits) (he : t'.encode = t.encode) :
    t'.children.map encode = t.children.map encode := by
  have ht' : t'.Fits := by rwa [Fits, size, he]
  have hspans := children?_encode ht'
  rw [he, children?_encode ht, Option.some_inj] at hspans
  rw [map_encode_children, map_encode_children, ← hspans, he]

/-- What holds of objects with the same bytes holds of lists of them. -/
theorem forall₂_of_map_encode_eq {ts ts' : List Tree} {R : Tree → Tree → Prop}
    (h : ts'.map encode = ts.map encode) (hR : ∀ s ∈ ts, ∀ s', s'.encode = s.encode → R s' s) :
    List.Forall₂ R ts' ts := by
  induction ts generalizing ts' with
  | nil =>
    obtain rfl := List.map_eq_nil_iff.mp h
    exact .nil
  | cons t ts ih =>
    obtain ⟨t', ts', rfl, ht, hts⟩ := List.map_eq_cons_iff.mp h
    exact .cons (hR t (by simp) t' ht) (ih hts fun s hs => hR s (by simp [hs]))

theorem encodeAll_eq_flatten (ts : List Tree) : encodeAll ts = (ts.map encode).flatten := by
  rw [encodeAll_eq, List.flatMap_def]

/-- The bytes of an object tell where others start inside it, and their bytes. -/
theorem At.of_encode_eq {t t' s : Tree} {offset : Nat} (h : t.At offset s) (ht : t.Fits)
    (he : t'.encode = t.encode) : ∃ s', t'.At offset s' ∧ s'.encode = s.encode := by
  induction h generalizing t' with
  | self => exact ⟨t', .self t', he⟩
  | @child c before after u s offset _ ih =>
    have hchildren := map_encode_children_of_encode_eq ht he
    cases t' with
    | composite c' ts =>
      have hts : ts.map encode = (before ++ u :: after).map encode := hchildren
      have hall : encodeAll ts = encodeAll (before ++ u :: after) := by
        rw [encodeAll_eq_flatten, hts, ← encodeAll_eq_flatten]
      -- The child in the same place has the same bytes.
      rw [List.map_append, List.map_cons] at hts
      obtain ⟨before', rest, rfl, hbefore, hrest⟩ := List.map_eq_append_iff.mp hts
      obtain ⟨u', after', rfl, hu, -⟩ := List.map_eq_cons_iff.mp hrest
      obtain ⟨s', hs', hencode⟩ := ih (ht.of_mem_children (by simp [children])) hu
      have hat := hs'.child c' before' after'
      rw [hall, encodeAll_eq_flatten before', hbefore, ← encodeAll_eq_flatten] at hat
      exact ⟨s', hat, hencode⟩
    | _ => simp [children] at hchildren

mutual

def height : Tree → Nat
  | composite _ ts => heightAll ts + 1
  | _ => 1

def heightAll : List Tree → Nat
  | [] => 0
  | t :: ts => max t.height (heightAll ts)

end

theorem height_pos (t : Tree) : 0 < t.height := by
  cases t <;> simp [height]

theorem height_le_of_mem {t : Tree} {ts : List Tree} (h : t ∈ ts) : t.height ≤ heightAll ts := by
  induction ts with
  | nil => cases h
  | cons u ts ih =>
    rw [heightAll]
    cases h with
    | head => exact Nat.le_max_left _ _
    | tail _ h => exact (ih h).trans (Nat.le_max_right _ _)

theorem height_lt_of_mem_children {t s : Tree} (h : s ∈ t.children) : s.height < t.height := by
  cases t with
  | composite c ts =>
    rw [height]
    exact Nat.lt_succ_of_le (height_le_of_mem h)
  | _ => cases h

mutual

theorem height_le_size : (t : Tree) → t.height ≤ t.size
  | composite c ts => by
    have := heightAll_le ts
    rw [height, size_composite, header]
    omega
  | integer _ _ | decimal _ | text _ | symbol _ | command _ => by
    rw [height]
    · exact size_pos _
    · simp

theorem heightAll_le : (ts : List Tree) → heightAll ts ≤ (encodeAll ts).length
  | [] => by simp [heightAll]
  | t :: ts => by
    have := height_le_size t
    have := heightAll_le ts
    rw [heightAll, encodeAll_cons, List.length_append, length_encode]
    omega

end

end Tree
end RpnMachine
