import Mathlib
import RpnMachine.Object.Value

/-! Encodings are self-delimiting: what is read at the start of an encoded object does not depend
on the bytes that follow it. -/
namespace RpnMachine

namespace Text

theorem toByteArray_utf8 (s : String) : (⟨(utf8 s).toArray⟩ : ByteArray) = s.toByteArray := by
  simp [utf8]

@[simp] theorem ofUtf8?_utf8 (s : String) : ofUtf8? (utf8 s) = some s := by
  rw [ofUtf8?, toByteArray_utf8, String.fromUTF8?, dif_pos s.isValidUTF8]
  rfl

theorem utf8_injective : Function.Injective utf8 := fun s t h => by
  have := congrArg ofUtf8? h
  simpa using this

@[simp] theorem utf8_append (s t : String) : utf8 (s ++ t) = utf8 s ++ utf8 t := by
  simp [utf8]

@[simp] theorem utf8_empty : utf8 "" = [] := rfl

theorem length_utf8 (s : String) : (utf8 s).length = s.utf8ByteSize := rfl

end Text

namespace Varint

@[simp] theorem encode_ne_nil (n : Nat) : encode n ≠ [] := by
  rw [encode]
  split_ifs <;> simp

theorem length_encode_pos (n : Nat) : 0 < (encode n).length :=
  List.length_pos_iff.mpr (encode_ne_nil n)

theorem length_encode_le {n k : Nat} (hk : 0 < k) (h : n < 128 ^ k) : (encode n).length ≤ k := by
  induction k generalizing n with
  | zero => omega
  | succ k ih =>
    rw [encode]
    split_ifs with hn
    · simp
    · have hk' : 0 < k := by
        rcases Nat.eq_zero_or_pos k with rfl | hk'
        · simp at h; omega
        · exact hk'
      have hq : n / 128 < 128 ^ k := by
        rw [Nat.div_lt_iff_lt_mul (by norm_num)]
        rwa [pow_succ] at h
      simpa using ih hk' hq

theorem length_encode_le_ten {n : Nat} (h : n < Word.bound 8) : (encode n).length ≤ 10 :=
  length_encode_le (by norm_num) (h.trans_le (by decide))

theorem length_encode (n : Nat) : (encode n).length = encodedLength n := by
  induction n using encode.induct with
  | case1 n hn => rw [encode, encodedLength, if_pos hn, if_pos hn, List.length_singleton]
  | case2 n hn ih => rw [encode, encodedLength, if_neg hn, if_neg hn, List.length_cons, ih]

theorem toNat_toUInt8 {n : Nat} (h : n < 256) : n.toUInt8.toNat = n := by
  simp [Nat.mod_eq_of_lt h]

theorem span_encode (n : Nat) (rest : List UInt8) :
    span (encode n ++ rest) = (encode n).length := by
  induction n using encode.induct with
  | case1 n hn =>
    have hb : n.toUInt8 < 128 := by
      rw [UInt8.lt_iff_toNat_lt, toNat_toUInt8 (by omega)]
      exact hn
    rw [encode, if_pos hn]
    simp [span, hb]
  | case2 n hn ih =>
    have hb : ¬(n % 128 + 128).toUInt8 < 128 := by
      rw [UInt8.lt_iff_toNat_lt, toNat_toUInt8 (by omega)]
      simp
    rw [encode, if_neg hn, List.cons_append, span, if_neg hb, ih]
    simp

/-- Reading with `k` bytes at hand gives back a number that has at most `7 * k - 6` bits. -/
theorem decodeWithin_encode {k n : Nat} (h : n < 2 * 128 ^ k) (rest : List UInt8) :
    decodeWithin (k + 1) (encode n ++ rest) = some (n, (encode n).length) := by
  induction k generalizing n with
  | zero =>
    have hn : n < 2 := by simpa using h
    rw [encode, if_pos (by omega)]
    interval_cases n <;> simp [decodeWithin]
  | succ k ih =>
    by_cases hn : n < 128
    · rw [encode, if_pos hn]
      have hb : n.toUInt8.toNat = n := toNat_toUInt8 (by omega)
      simp only [List.cons_append, decodeWithin, hb]
      simp [hn]
    · have hq : n / 128 < 2 * 128 ^ k := by
        rw [Nat.div_lt_iff_lt_mul (by norm_num)]
        rw [pow_succ] at h
        omega
      have hb : (n % 128 + 128).toUInt8.toNat = n % 128 + 128 := toNat_toUInt8 (by omega)
      rw [encode, if_neg hn, List.cons_append, decodeWithin, hb, ih hq]
      have hlow : (n % 128 + 128) % 128 = n % 128 := by omega
      simp only [Nat.add_eq_zero_iff, one_ne_zero, and_false, false_and, if_false, hlow]
      rw [if_neg (by omega)]
      simp only [Option.bind_eq_bind, Option.bind_some, List.length_cons, Option.some.injEq,
        Prod.mk.injEq, and_true]
      omega

theorem decode_encode {n : Nat} (h : n < Word.bound 8) (rest : List UInt8) :
    decode (encode n ++ rest) = some (n, (encode n).length) :=
  decodeWithin_encode (h.trans_le (by decide)) rest

end Varint

namespace Encoding

theorem mark_eq (k : Kind) : mark k = [k.code.toUInt8] := by
  rw [mark, Varint.encode, if_pos (by have := k.code_lt; omega)]

@[simp] theorem length_mark (k : Kind) : (mark k).length = 1 := by simp [mark_eq]

theorem span_mark (k : Kind) (rest : List UInt8) : Varint.span (mark k ++ rest) = 1 := by
  rw [mark, Varint.span_encode, ← mark, length_mark]

theorem kind?_mark (k : Kind) (rest : List UInt8) : kind? (mark k ++ rest) = some k := by
  have h : k.code < Word.bound 8 := k.code_lt.trans (by decide)
  simp [kind?, mark, Varint.decode_encode h, Kind.ofCode?_code]

theorem drop_mark (k : Kind) (rest : List UInt8) : (mark k ++ rest).drop 1 = rest := by
  simp [mark_eq]

theorem length_sized (bytes : List UInt8) :
    (sized bytes).length = (Varint.encode bytes.length).length + bytes.length := by
  simp [sized]

theorem length_mark_sized (k : Kind) (bytes : List UInt8) : (mark k ++ sized bytes).length =
    1 + (Varint.encode bytes.length).length + bytes.length := by
  rw [List.length_append, length_mark, length_sized, Nat.add_assoc]

theorem length_header_add (k : Kind) (bytes : List UInt8) :
    (mark k).length + Varint.encodedLength bytes.length + bytes.length =
      (mark k ++ sized bytes).length := by
  rw [length_mark_sized, length_mark, Varint.length_encode]

theorem payload?_sized {k : Kind} {bytes : List UInt8}
    (h : (mark k ++ sized bytes).length < Word.bound 8) (rest : List UInt8) :
    payload? (mark k ++ sized bytes ++ rest) =
      some (1 + (Varint.encode bytes.length).length, (mark k ++ sized bytes).length) := by
  have hlen := length_mark_sized k bytes
  have hb : bytes.length < Word.bound 8 := by omega
  rw [payload?, List.append_assoc, span_mark, drop_mark, sized, List.append_assoc,
    Varint.decode_encode hb]
  simp only [Option.bind_eq_bind, Option.bind_some]
  rw [if_pos (by omega), ← sized, ← hlen]

theorem slice?_sized (k : Kind) (bytes : List UInt8) :
    slice? (mark k ++ sized bytes) (1 + (Varint.encode bytes.length).length)
      (mark k ++ sized bytes).length = some bytes := by
  have hdrop : (mark k ++ sized bytes).drop (1 + (Varint.encode bytes.length).length) = bytes := by
    rw [sized, ← List.append_assoc, List.drop_left']
    simp
  have hlen := length_mark_sized k bytes
  rw [slice?, if_pos (by omega), hdrop, List.take_of_length_le (by omega)]

theorem slice?_append {bytes middle : List UInt8} {start stop : Nat}
    (h : slice? bytes start stop = some middle) (rest : List UInt8) :
    slice? (bytes ++ rest) start stop = some middle := by
  rw [slice?] at h ⊢
  split_ifs at h with hle
  rw [if_pos ⟨hle.1, by rw [List.length_append]; omega⟩,
    List.drop_append_of_le_length (hle.1.trans hle.2),
    List.take_append_of_le_length (by rw [List.length_drop]; omega)]
  exact h

theorem text?_sized {k j : Kind} {s : String}
    (h : (mark k ++ sized (Text.utf8 s)).length < Word.bound 8) (rest : List UInt8) :
    text? j (mark k ++ sized (Text.utf8 s) ++ rest) = some (.ok s) := by
  have hslice := slice?_append (slice?_sized k (Text.utf8 s)) rest
  rw [text?, payload?_sized h rest]
  simp only [Option.bind_eq_bind, Option.bind_some, hslice, Text.ofUtf8?_utf8]

end Encoding

namespace Recipe

/-- Recipes whose object can be told apart from what follows it. -/
structure Regular (r : Recipe) : Prop where
  /-- Objects with a payload of their own making are laid out with its length. -/
  shape : ∀ k bytes, r = sized k bytes → k.shape = .sized
  /-- Sizes are 64-bit words. -/
  length : r.encode.length < Word.bound 8

theorem kind?_encode (r : Recipe) (rest : List UInt8) :
    Encoding.kind? (r.encode ++ rest) = some r.kind := by
  rw [encode, List.append_assoc, Encoding.kind?_mark]

theorem length_encode (r : Recipe) : r.encode.length = 1 + r.payload.length := by
  simp [encode]

/-- As much room as is made for an object is filled by it. -/
theorem length_encode_eq_requiredMemory (r : Recipe) : r.encode.length = r.requiredMemory := by
  rw [encode, List.length_append, requiredMemory, Encoding.mark, Varint.length_encode]
  congr 1
  cases r with
  | integer negative magnitude => rw [payload, payloadLength, Varint.length_encode]
  | decimal bits => rw [payload, payloadLength, Word.length_encode]
  | text s | symbol s =>
    rw [payload, payloadLength, Encoding.length_sized, Varint.length_encode, Text.length_utf8]
  | command c => rfl
  | sized k bytes => rw [payload, payloadLength, Encoding.length_sized, Varint.length_encode]

theorem length_encode_pos (r : Recipe) : 0 < r.encode.length := by
  rw [length_encode]
  omega

theorem shape_kind_integer (negative : Bool) (magnitude : UInt64) :
    (integer negative magnitude).kind.shape = .varint := by
  simp only [kind]
  split_ifs <;> rfl

theorem Regular.size?_encode {r : Recipe} (h : r.Regular) (rest : List UInt8) :
    Encoding.size? (r.encode ++ rest) = some r.encode.length := by
  have hk := r.kind?_encode rest
  have hs : Varint.span (r.encode ++ rest) = 1 := by
    rw [encode, List.append_assoc, Encoding.span_mark]
  have hd : (r.encode ++ rest).drop 1 = r.payload ++ rest := by
    rw [encode, List.append_assoc, Encoding.drop_mark]
  have hsized (k : Kind) (bytes : List UInt8) (e : r.encode = Encoding.mark k ++ Encoding.sized bytes) :
      (Encoding.payload? (r.encode ++ rest)).map (·.2) = some r.encode.length := by
    have hl := h.length
    rw [e] at hl ⊢
    rw [Encoding.payload?_sized hl]
    rfl
  rw [Encoding.size?, hk, hs]
  simp only [Option.bind_eq_bind, Option.bind_some, hd]
  cases r with
  | integer negative magnitude =>
    simp only [shape_kind_integer, length_encode]
    rw [payload, Varint.span_encode]
  | decimal bits =>
    simp [kind, Kind.shape, length_encode, payload]
  | text s => exact hsized _ _ rfl
  | symbol s => exact hsized _ _ rfl
  | command c => simp [kind, Kind.shape, length_encode, payload]
  | sized k bytes =>
    simp only [kind, h.shape k bytes rfl]
    exact hsized _ _ rfl

end Recipe
end RpnMachine
