import RpnMachine.Object.Capability
import RpnMachine.Proofs.Object.Tree

/-! The bytes of an object tell where it ends, its value and its children, whatever follows them, and
no two objects have the same bytes unless they differ in the sign of a zero only. -/
namespace RpnMachine

/-- Every kind of object is sized: commands by their family, the others by themselves. -/
theorem Kind.owner?_size (k : Kind) :
    k.owner? .size = some (if k.isCommand then Responder.command.name else k.name) := by
  cases k with
  | composite c => cases c with
    | control c => cases c <;> rfl
    | _ => rfl
  | _ => rfl

namespace Tree

mutual

/-- The same object without negative zeros in it. -/
def canonical : Tree → Tree
  | integer negative magnitude => integer (negative && magnitude != 0) magnitude
  | decimal bits => decimal bits
  | text s => text s
  | symbol s => symbol s
  | command c => command c
  | composite c ts => composite c (canonicalAll ts)

def canonicalAll : List Tree → List Tree
  | [] => []
  | t :: ts => t.canonical :: canonicalAll ts

end

theorem encode_integer_canonical (negative : Bool) (magnitude : UInt64) :
    (integer (negative && magnitude != 0) magnitude).encode = (integer negative magnitude).encode := by
  have hkind : (Recipe.integer (negative && magnitude != 0) magnitude).kind =
      (Recipe.integer negative magnitude).kind := by
    by_cases hz : magnitude = 0
    · simp [Recipe.kind, hz]
    · simp [Recipe.kind, hz]
  rw [encode, encode, Recipe.encode, Recipe.encode, hkind]
  rfl

mutual

theorem encode_canonical : (t : Tree) → t.canonical.encode = t.encode
  | integer negative magnitude => by rw [canonical, encode_integer_canonical]
  | decimal _ | text _ | symbol _ | command _ => by rw [canonical]
  | composite c ts => by rw [canonical, encode_composite, encode_composite, encodeAll_canonicalAll ts]

theorem encodeAll_canonicalAll : (ts : List Tree) → encodeAll (canonicalAll ts) = encodeAll ts
  | [] => by rw [canonicalAll]
  | t :: ts => by
    rw [canonicalAll, encodeAll_cons, encodeAll_cons, encode_canonical t, encodeAll_canonicalAll ts]

end

theorem canonicalAll_congr {ts ts' : List Tree}
    (h : List.Forall₂ (fun t' t => t'.canonical = t.canonical) ts' ts) :
    canonicalAll ts' = canonicalAll ts := by
  induction h with
  | nil => rfl
  | cons ht _ ih => rw [canonicalAll, canonicalAll, ht, ih]

theorem canonical_integer_congr {negative negative' : Bool} {magnitude magnitude' : UInt64}
    (h : (integer negative' magnitude').value = (integer negative magnitude).value) :
    (integer negative' magnitude').canonical = (integer negative magnitude).canonical := by
  rw [value, value, Value.integer.injEq] at h
  have hmagnitude : magnitude' = magnitude := by
    apply UInt64.toNat_inj.mp
    split_ifs at h <;> omega
  subst hmagnitude
  rw [canonical, canonical]
  by_cases hz : magnitude' = 0
  · simp [hz]
  · have hpos : magnitude'.toNat ≠ 0 := fun h0 => hz (UInt64.toNat_inj.mp h0)
    have hsign : negative' = negative := by
      cases negative <;> cases negative' <;> simp at h ⊢ <;> omega
    rw [hsign]

/-- The value of an object without children tells the object, but for the sign of a zero. -/
theorem canonical_eq_of_value_eq {t t' : Tree} (h : t'.value = t.value)
    (ht : ∀ c, t.kind ≠ .composite c) : t'.canonical = t.canonical := by
  cases t with
  | integer negative magnitude =>
    cases t' with
    | integer negative' magnitude' => exact canonical_integer_congr h
    | _ => cases h
  | composite c ts => exact absurd rfl (ht c)
  | decimal bits => cases t' <;> cases h; rfl
  | text s => cases t' <;> cases h; rfl
  | symbol s => cases t' <;> cases h; rfl
  | command c => cases t' <;> cases h; rfl

theorem canonical_eq_of_encode_eq {t t' : Tree} (ht : t.Fits) (he : t'.encode = t.encode) :
    t'.canonical = t.canonical := by
  -- Children are objects of less height, and their bytes are told by those of the object.
  induction hn : t.height using Nat.strong_induction_on generalizing t t' with
  | _ n ih =>
    have hkind := kind_eq_of_encode_eq he
    by_cases hc : ∃ c, t.kind = .composite c
    · obtain ⟨c, hc⟩ := hc
      have hchildren : List.Forall₂ (fun s' s => s'.canonical = s.canonical) t'.children t.children := by
        apply forall₂_of_map_encode_eq (map_encode_children_of_encode_eq ht he)
        intro s hs s' hs'
        exact ih _ (hn ▸ height_lt_of_mem_children hs) (ht.of_mem_children hs) hs' rfl
      rw [eq_composite_of_kind (hkind.trans hc), eq_composite_of_kind hc, canonical, canonical,
        canonicalAll_congr hchildren]
    · rw [not_exists] at hc
      exact canonical_eq_of_value_eq (value_eq_of_encode_eq ht he) hc

theorem encode_eq_iff {t t' : Tree} (ht : t.Fits) :
    t.encode = t'.encode ↔ t.canonical = t'.canonical := by
  constructor
  · intro he
    exact (canonical_eq_of_encode_eq ht he.symm).symm
  · intro hc
    rw [← encode_canonical t, hc, encode_canonical t']

theorem encode_append_inj {t t' : Tree} {rest rest' : List UInt8} (ht : t.Fits) (ht' : t'.Fits)
    (h : t.encode ++ rest = t'.encode ++ rest') : t.encode = t'.encode ∧ rest = rest' := by
  have hsize := ht.size?_encode rest
  rw [h, ht'.size?_encode rest', Option.some_inj] at hsize
  exact List.append_inj h hsize.symm

/-- The spans of the children cover their bytes. -/
theorem forall₂_slice_spans {t : Tree} (rest : List UInt8) :
    List.Forall₂ (fun span s => span.2 = s.encode.length ∧
        Encoding.slice? (t.encode ++ rest) span.1 (span.1 + span.2) = some s.encode)
      (spans (header (encodeAll t.children).length) t.children) t.children := by
  apply List.forall₂_iff_get.mpr
  refine ⟨length_spans _ _, ?_⟩
  intro i hi hi'
  have hat := (List.forall₂_iff_get.mp t.at_spans).2 i hi hi'
  have hsize := snd_getElem_spans (header (encodeAll t.children).length) t.children hi hi'
  simp only [List.get_eq_getElem] at hat ⊢
  have hle := hat.add_size_le
  refine ⟨hsize, Encoding.slice?_append ?_ rest⟩
  rw [Encoding.slice?, hsize, if_pos ⟨by omega, by rwa [length_encode]⟩, hat.encode_eq_take_drop,
    Nat.add_sub_cancel_left]

/-- Whether runs of bytes lie one right after the other from a position on. -/
def Adjacent : Nat → List (Nat × Nat) → Prop
  | _, [] => True
  | start, o :: objects => o.1 = start ∧ Adjacent (start + o.2) objects

/-- Objects that follow one another leave nothing between them. -/
theorem adjacent_spans (first : Nat) (ts : List Tree) :
    Adjacent first (spans first ts) := by
  induction ts generalizing first with
  | nil => trivial
  | cons t ts ih => exact ⟨rfl, ih _⟩

theorem sum_spans (first : Nat) (ts : List Tree) :
    ((spans first ts).map Prod.snd).sum = (encodeAll ts).length := by
  induction ts generalizing first with
  | nil => simp [spans]
  | cons t ts ih =>
    rw [spans, List.map_cons, List.sum_cons, ih, encodeAll_cons, List.length_append]
    rfl

/-- The children of an object are found one right after the other up to its end, whatever follows. -/
theorem exists_children?_encode {t : Tree} (ht : t.Fits) (rest : List UInt8) :
    ∃ start spans, Encoding.children? (t.encode ++ rest) = some spans ∧
      Adjacent start spans ∧ start + (spans.map Prod.snd).sum = t.encode.length ∧
      List.Forall₂ (fun span s => span.2 = s.encode.length ∧
        Encoding.slice? (t.encode ++ rest) span.1 (span.1 + span.2) = some s.encode)
        spans t.children := by
  have hfound := children?_encode_append ht rest
  have hslices := forall₂_slice_spans (t := t) rest
  cases t with
  | composite c ts =>
    refine ⟨_, _, hfound, adjacent_spans _ _, ?_, hslices⟩
    rw [sum_spans]
    exact (size_composite c ts).symm
  | _ => exact ⟨_, [], hfound, trivial, Nat.add_zero _, .nil⟩

/-- Writing an object fills just the memory that it asks for. Whatever follows its bytes, they tell its
size, its value, and the spans of its children, which lie one right after the other up to its end and
are the bytes of the children in their order; and they start with no other object, up to the sign of a
zero. -/
theorem encode_self_delimiting {t : Tree} (ht : t.Fits) (rest : List UInt8) :
    t.encode.length = t.recipe.requiredMemory ∧
    (∃ owner, t.kind.owner? .size = some owner) ∧
    Encoding.size? (t.encode ++ rest) = some t.encode.length ∧
    Encoding.value? (t.encode ++ rest) = some (.ok t.value) ∧
    (∃ start spans, Encoding.children? (t.encode ++ rest) = some spans ∧
      Adjacent start spans ∧ start + (spans.map Prod.snd).sum = t.encode.length ∧
      List.Forall₂ (fun span s => span.2 = s.encode.length ∧
        Encoding.slice? (t.encode ++ rest) span.1 (span.1 + span.2) = some s.encode)
        spans t.children) ∧
    (∀ (t' : Tree) rest', t'.Fits →
      (t.encode ++ rest = t'.encode ++ rest' ↔ t.canonical = t'.canonical ∧ rest = rest')) ∧
    ∀ t' : Tree, (t.encode == t'.encode) = true ↔ t.canonical = t'.canonical := by
  have hlength : t.encode.length = t.recipe.requiredMemory := by
    rw [encode_eq, Recipe.length_encode_eq_requiredMemory]
  have hunique : ∀ (t' : Tree) rest', t'.Fits →
      (t.encode ++ rest = t'.encode ++ rest' ↔ t.canonical = t'.canonical ∧ rest = rest') := by
    intro t' rest' ht'
    constructor
    · intro h
      obtain ⟨he, hrest⟩ := encode_append_inj ht ht' h
      exact ⟨(encode_eq_iff ht).mp he, hrest⟩
    · intro ⟨hc, hrest⟩
      rw [(encode_eq_iff ht).mpr hc, hrest]
  have hcompare : ∀ t' : Tree, (t.encode == t'.encode) = true ↔ t.canonical = t'.canonical := by
    intro t'
    rw [beq_iff_eq, encode_eq_iff ht]
  exact ⟨hlength, ⟨_, t.kind.owner?_size⟩, ht.size?_encode rest, value?_encode_append ht rest,
    exists_children?_encode ht rest, hunique, hcompare⟩

/-- A list with negative zeros, a decimal that is no number and an empty structure in it, and with a
length of two bytes. -/
def assortment : Tree :=
  composite .list (decimal 0x7ff8000000000001 :: composite (.control .ifThen) [] ::
    List.replicate 70 (integer true 0))

theorem fits_assortment : assortment.Fits := by
  unfold Fits size
  rw [encode_eq, Recipe.length_encode_eq_requiredMemory]
  decide +kernel

/-- With a byte after it the list has the same 72 children, and it is no other list. -/
theorem encode_assortment : assortment.Fits ∧ assortment.encode.length = 154 ∧
    Encoding.value? (assortment.encode ++ [0]) = some (.ok (.composite .list 72)) ∧
    ∀ (t : Tree) rest, t.Fits → assortment.encode ++ [0] = t.encode ++ rest →
      assortment.canonical = t.canonical := by
  obtain ⟨hlength, -, -, hvalue, -, hunique, -⟩ := encode_self_delimiting fits_assortment [0]
  have hmemory : assortment.recipe.requiredMemory = 154 := by decide +kernel
  refine ⟨fits_assortment, hlength.trans hmemory, hvalue, ?_⟩
  intro t rest ht h
  exact ((hunique t rest ht).mp h).1

end Tree
end RpnMachine
