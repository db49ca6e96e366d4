import RpnMachine.Proofs.Object.Tree
import RpnMachine.Heap.Memory

/-! Objects in memory: what is read at a position is the object whose bytes lie there. -/
namespace RpnMachine

namespace Varint

/-- Reading at most `k` bytes looks at no more than `k` bytes. -/
theorem decodeWithin_take (k : Nat) (bytes : List UInt8) :
    decodeWithin k (bytes.take k) = decodeWithin k bytes := by
  fun_induction decodeWithin k bytes with
  | case1 => rw [decodeWithin]
  | case2 => rfl
  | case3 k b bs h => rw [List.take_succ_cons, decodeWithin, if_pos h]
  | case4 k b bs h h' => rw [List.take_succ_cons, decodeWithin, if_neg h, if_pos h']
  | case5 k b bs h h' ih => rw [List.take_succ_cons, decodeWithin, if_neg h, if_neg h', ih]

theorem decode_take (bytes : List UInt8) : decode (bytes.take 10) = decode bytes :=
  decodeWithin_take 10 bytes

/-- A number that can be read takes the bytes up to the first one without its high bit. -/
theorem span_of_decodeWithin {k v n : Nat} {bytes : List UInt8}
    (h : decodeWithin k bytes = some (v, n)) : span bytes = n := by
  fun_induction decodeWithin k bytes generalizing v n with
  | case1 => cases h
  | case2 => cases h
  | case3 => cases h
  | case4 k b bs _ hb =>
    cases h
    rw [span, if_pos (UInt8.lt_iff_toNat_lt.mpr hb)]
  | case5 k b bs _ hb ih =>
    obtain ⟨⟨v', n'⟩, h', e⟩ := Option.bind_eq_some_iff.1 h
    cases e
    rw [span, if_neg (by rw [UInt8.lt_iff_toNat_lt]; exact hb), ih h']

end Varint

namespace Memory

theorem window_eq (m : Memory) (start stop : Nat) :
    m.window start stop = (m.slice start stop).take 10 := by
  rw [window, slice_eq, slice_eq, List.take_drop, List.take_take, Nat.min_comm]

theorem slice_add (m : Memory) (start stop k : Nat) :
    m.slice (start + k) stop = (m.slice start stop).drop k := by
  rw [slice_eq, slice_eq, List.drop_drop, Nat.add_comm]

theorem slice_eq_cons {m : Memory} {start stop : Nat} (h : start < stop)
    (hsize : start < m.bytes.size) :
    m.slice start stop = m.bytes[start] :: m.slice (start + 1) stop := by
  have hlen : start < (m.toList.take stop).length := by
    rw [List.length_take, length_toList, lt_min_iff]
    exact ⟨h, hsize⟩
  rw [slice_eq, slice_eq, List.drop_eq_getElem_cons hlen]
  simp [toList, ByteArray.getElem_eq_getElem_data]

theorem slice_eq_nil {m : Memory} {start stop : Nat} (h : ¬(start < stop ∧ start < m.bytes.size)) :
    m.slice start stop = [] := by
  rw [slice_eq, List.drop_eq_nil_iff, List.length_take, length_toList]
  unfold size
  omega

theorem span_eq (m : Memory) (start stop : Nat) :
    m.span start stop = Varint.span (m.slice start stop) := by
  fun_induction span m start stop with
  | case1 start h hb => rw [slice_eq_cons h.1 h.2, Varint.span, if_pos hb]
  | case2 start h hb ih => rw [slice_eq_cons h.1 h.2, Varint.span, if_neg hb, ih]
  | case3 start h => rw [slice_eq_nil h, Varint.span]

theorem objectSize?_eq (m : Memory) (start stop : Nat) :
    m.objectSize? start stop = Encoding.size? (m.slice start stop) := by
  have hk : Encoding.kind? ((m.slice start stop).take 10) = Encoding.kind? (m.slice start stop) := by
    rw [Encoding.kind?, Varint.decode_take, Encoding.kind?]
  rw [objectSize?, window_eq, hk, Encoding.size?]
  cases hkind : Encoding.kind? (m.slice start stop) with
  | none => rfl
  | some k =>
    obtain ⟨⟨v, n⟩, hd, -⟩ := Option.bind_eq_some_iff.1 hkind
    have hs : Varint.span (m.slice start stop) = n := Varint.span_of_decodeWithin hd
    have ht : Varint.span ((m.slice start stop).take 10) = n := by
      rw [← Varint.decode_take] at hd
      exact Varint.span_of_decodeWithin hd
    simp only [Option.bind_eq_bind, Option.bind_some, hs, ht]
    cases k.shape with
    | bare => rfl
    | varint => simp only [span_eq, slice_add]
    | word => rfl
    | sized =>
      simp only [window_eq, slice_add, Varint.decode_take, Encoding.payload?, hs]
      cases Varint.decode ((m.slice start stop).drop n) with
      | none => rfl
      | some r =>
        simp only [Option.bind_eq_bind, Option.bind_some]
        split_ifs <;> rfl

theorem objectEnd?_eq {m : Memory} {start : Nat} {t : Tree} (hfits : t.Fits)
    (h : t.encode <+: m.toList.drop start) : m.objectEnd? start = some (start + t.size) := by
  obtain ⟨rest, hrest⟩ := h
  have hslice : m.slice start m.size = t.encode ++ rest := by
    rw [slice_eq, List.take_of_length_le (by simp), hrest]
  have hlen := congrArg List.length hrest
  simp only [List.length_append, Tree.length_encode, List.length_drop, length_toList] at hlen
  have hpos := t.size_pos
  rw [objectEnd?, objectSize?_eq, hslice, hfits.size?_encode]
  simp only [Option.bind_eq_bind, Option.bind_some]
  rw [if_pos (by omega)]

theorem object?_eq {m : Memory} {start : Nat} {t : Tree} (hfits : t.Fits)
    (h : t.encode <+: m.toList.drop start) : m.object? start = some t.encode := by
  rw [object?, objectEnd?_eq hfits h]
  simp only [Option.bind_eq_bind, Option.bind_some, Option.some.injEq]
  rw [slice_eq, List.drop_take, Nat.add_sub_cancel_left]
  exact (List.prefix_iff_eq_take.mp h).symm

end Memory
end RpnMachine
