import RpnMachine.Proofs.Heap.Memory

/-! Which bytes tell a number of 64 bits: reading finds the number exactly where they do, also where
fewer bytes would have told it, and finds none in all other bytes. -/
namespace RpnMachine.Varint

/-- The number that the low bits of the first `n` bytes make, seven of each, the lowest first. -/
def sum (bytes : List UInt8) (n : Nat) : Nat :=
  ∑ i ∈ Finset.range n, (bytes.getD i 0).toNat % 128 * 2 ^ (7 * i)

/-- How many bytes there are up to the first one without its high bit, that one included. -/
def stop? (bytes : List UInt8) : Option Nat := (bytes.findIdx? (·.toNat < 128)).map (· + 1)

/-- The first `n` bytes tell the number `v`. -/
structure Tells (bytes : List UInt8) (v n : Nat) : Prop where
  stop : stop? bytes = some n
  le : n ≤ 10
  sum : sum bytes n = v
  lt : v < 2 ^ 64

@[simp] theorem sum_zero (bytes : List UInt8) : sum bytes 0 = 0 := rfl

theorem sum_cons (b : UInt8) (bs : List UInt8) (n : Nat) :
    sum (b :: bs) (n + 1) = b.toNat % 128 + 128 * sum bs n := by
  have hshift : ∀ i ∈ Finset.range n, ((b :: bs).getD (i + 1) 0).toNat % 128 * 2 ^ (7 * (i + 1)) =
      128 * ((bs.getD i 0).toNat % 128 * 2 ^ (7 * i)) := fun i _ => by
    rw [List.getD_cons_succ, Nat.mul_add, Nat.pow_add]
    ring
  rw [sum, Finset.sum_range_succ', Finset.sum_congr rfl hshift, ← Finset.mul_sum, ← sum,
    List.getD_cons_zero, Nat.mul_zero, Nat.pow_zero, Nat.mul_one, Nat.add_comm]

theorem stop?_nil : stop? [] = none := rfl

theorem stop?_cons_of_lt {b : UInt8} (hb : b.toNat < 128) (bs : List UInt8) :
    stop? (b :: bs) = some 1 := by
  simp [stop?, List.findIdx?_cons, hb]

theorem stop?_cons_of_not_lt {b : UInt8} (hb : ¬b.toNat < 128) (bs : List UInt8) :
    stop? (b :: bs) = (stop? bs).map (· + 1) := by
  simp [stop?, List.findIdx?_cons, hb]

theorem stop?_pos {bytes : List UInt8} {n : Nat} (h : stop? bytes = some n) : 0 < n := by
  obtain ⟨i, -, rfl⟩ := Option.map_eq_some_iff.1 h
  exact Nat.succ_pos i

/-- A byte without its high bit tells itself and nothing after it. -/
theorem tells_last_iff {b : UInt8} (hb : b.toNat < 128) (bs : List UInt8) {k v n : Nat} :
    (stop? (b :: bs) = some n ∧ n ≤ k + 1 ∧ sum (b :: bs) n = v ∧ v < 2 * 128 ^ k) ↔
      b.toNat < 2 * 128 ^ k ∧ b.toNat = v ∧ 1 = n := by
  have hsum : sum (b :: bs) 1 = b.toNat := by
    rw [sum_cons, sum_zero, Nat.mul_zero, Nat.add_zero, Nat.mod_eq_of_lt hb]
  rw [stop?_cons_of_lt hb, Option.some.injEq]
  constructor
  · rintro ⟨rfl, -, hv, hlt⟩
    rw [hsum] at hv
    exact ⟨hv ▸ hlt, hv, rfl⟩
  · rintro ⟨hlt, rfl, rfl⟩
    exact ⟨rfl, by omega, hsum, hlt⟩

/-- Of at most `k + 1` bytes the last one has one bit for the number, and each of the others seven. -/
theorem decodeWithin_eq_some_iff {k v n : Nat} {bytes : List UInt8} :
    decodeWithin (k + 1) bytes = some (v, n) ↔
      stop? bytes = some n ∧ n ≤ k + 1 ∧ sum bytes n = v ∧ v < 2 * 128 ^ k := by
  induction k generalizing bytes v n with
  | zero =>
    cases bytes with
    | nil => simp [decodeWithin, stop?_nil]
    | cons b bs =>
      by_cases hb : b.toNat < 128
      · rw [tells_last_iff hb, decodeWithin, Nat.mod_eq_of_lt hb, if_pos hb]
        by_cases h : 1 < b.toNat
        · rw [if_pos ⟨rfl, h⟩]
          simp only [reduceCtorEq, false_iff]
          omega
        · rw [if_neg (by simp [h]), Option.some.injEq, Prod.mk.injEq]
          exact (and_iff_right (by omega)).symm
      · have hnone : decodeWithin 1 (b :: bs) = none := by
          simp [decodeWithin, hb]
        rw [hnone, stop?_cons_of_not_lt hb]
        simp only [reduceCtorEq, false_iff]
        rintro ⟨hstop, hle, -⟩
        obtain ⟨n', hn', rfl⟩ := Option.map_eq_some_iff.1 hstop
        have := stop?_pos hn'
        omega
  | succ k ih =>
    cases bytes with
    | nil => simp [decodeWithin, stop?_nil]
    | cons b bs =>
      rw [decodeWithin, if_neg (by omega)]
      by_cases hb : b.toNat < 128
      · have hroom : b.toNat < 2 * 128 ^ (k + 1) := by
          have := Nat.one_le_pow k 128 (by norm_num)
          rw [pow_succ]
          omega
        rw [tells_last_iff hb, if_pos hb, Option.some.injEq, Prod.mk.injEq]
        exact (and_iff_right hroom).symm
      · rw [if_neg hb, stop?_cons_of_not_lt hb, Option.bind_eq_bind, Option.bind_eq_some_iff]
        have hlow : b.toNat % 128 < 128 := Nat.mod_lt _ (by norm_num)
        constructor
        · rintro ⟨⟨v', n'⟩, hrest, e⟩
          obtain ⟨hstop, hle, hsum, hlt⟩ := ih.1 hrest
          cases e
          refine ⟨by rw [hstop, Option.map_some], by omega, by rw [sum_cons, hsum], ?_⟩
          rw [pow_succ]
          omega
        · rintro ⟨hstop, hle, hsum, hlt⟩
          obtain ⟨n', hn', rfl⟩ := Option.map_eq_some_iff.1 hstop
          rw [sum_cons] at hsum
          refine ⟨(sum bs n', n'), ih.2 ⟨hn', by omega, rfl, ?_⟩, by simp only [hsum]⟩
          rw [pow_succ] at hlt
          omega

/-- A number is read exactly where bytes tell one. -/
theorem decode_eq_some_iff {bytes : List UInt8} {v n : Nat} :
    decode bytes = some (v, n) ↔ Tells bytes v n := by
  have hbound : 2 * 128 ^ 9 = 2 ^ 64 := by norm_num
  rw [decode, decodeWithin_eq_some_iff, hbound]
  exact ⟨fun ⟨hstop, hle, hsum, hlt⟩ => ⟨hstop, hle, hsum, hlt⟩,
    fun h => ⟨h.stop, h.le, h.sum, h.lt⟩⟩

theorem decode_eq_none {bytes : List UInt8} (h : ¬∃ v n, Tells bytes v n) :
    decode bytes = none :=
  Option.eq_none_iff_forall_ne_some.2 fun (v, n) hdecode => h ⟨v, n, decode_eq_some_iff.1 hdecode⟩

/-- A number is written with as many bytes as its length says and is read and passed over as
written, whatever follows it. Of any bytes a number is read if and only if they tell it, and then
passing over it takes the same bytes. -/
theorem reads_exactly :
    (∀ (v : UInt64) (rest : List UInt8),
      (encode v.toNat).length = encodedLength v.toNat ∧
      decode (encode v.toNat ++ rest) = some (v.toNat, encodedLength v.toNat) ∧
      span (encode v.toNat ++ rest) = encodedLength v.toNat) ∧
    ∀ bytes : List UInt8,
      (∀ v n, decode bytes = some (v, n) ↔ Tells bytes v n) ∧
      (∀ v n, Tells bytes v n → span bytes = n) ∧
      ((¬∃ v n, Tells bytes v n) → decode bytes = none) := by
  refine ⟨fun v rest => ?_, fun bytes => ?_⟩
  · have hv : v.toNat < Word.bound 8 := v.toNat_lt
    rw [← length_encode]
    exact ⟨rfl, decode_encode hv rest, span_encode v.toNat rest⟩
  · exact ⟨fun v n => decode_eq_some_iff,
      fun v n h => span_of_decodeWithin (decode_eq_some_iff.2 h), decode_eq_none⟩

/-- Two bytes that tell zero where one would do, the greatest number, and ten bytes that make one
that is too large. -/
theorem reads_exactly_at_the_ends :
    span [0x80, 0x00, 0x07] = 2 ∧
    decode (List.replicate 9 0xff ++ [0x01]) = some (2 ^ 64 - 1, 10) ∧
    decode (List.replicate 9 0xff ++ [0x02]) = none := by
  obtain ⟨-, hread⟩ := reads_exactly
  refine ⟨(hread _).2.1 0 2 ⟨by decide, by decide, by decide, by decide⟩,
    ((hread _).1 _ _).2 ⟨by decide, by decide, by decide, by decide⟩, (hread _).2.2 ?_⟩
  rintro ⟨v, n, h⟩
  have hn : n = 10 := Option.some.inj (h.stop.symm.trans (by decide))
  have hv : v = 3 * 2 ^ 63 - 1 := by
    rw [← h.sum, hn]
    decide
  have := h.lt
  omega

end RpnMachine.Varint
