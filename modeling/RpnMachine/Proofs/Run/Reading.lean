import RpnMachine.Proofs.Run.WellFormed

/-! Reading accepts just what the grammar derives. In whatever state a machine is, a text either
gives the one program that its words are derived for, or is in error; lack of memory apart. -/
namespace RpnMachine

/-- A text is derived for objects in one way at most. -/
theorem Writes.unique {source : String} {levels : Nat} {ts ts' : List Tree}
    (h : Writes source levels ts) (h' : Writes source levels ts') : ts = ts' := by
  have hbuilt := (Script.body_of_writes h).2
  rw [(Script.body_of_writes h').2] at hbuilt
  cases hbuilt
  rfl

namespace Machine

open Run

variable {m m' : Machine} {c : Nat}

/-- Unless memory is lacking, a text is read just if it is derived for objects with no more levels
than are left, and what is read then has the bytes of the program with those objects. -/
theorem readBody_ok_iff_writes (hc : c < Word.bound Heap.slotSize) {actions : List Action}
    (h : Acts (ofCapacity c) actions m) (source : String) {o : Except Failure Pointer}
    (hread : exec (readBody source) m = (o, m')) (hmemory : ∀ e, o = .error e → ¬e.lacksMemory) :
    ((∃ p, o = .ok p) ↔ ∃ ts, Writes source m.room ts) ∧
      (∀ p ts, o = .ok p → Writes source m.room ts →
        exec (bytes p) m' = (.ok (Tree.composite .program ts).encode, m')) ∧
      ∀ e, o = .error e → ∃ mistake, e = .error (.read mistake) := by
  obtain ⟨v, hm, -⟩ := h.exists_represents (represents_ofCapacity hc)
  obtain ⟨kept, free, hl⟩ := hm
  have hroom : maxNesting - v.nesting = m.room := by rw [room, hl.nesting]
  obtain ⟨o', m₁, v', hexec, hm', hpost, -⟩ :=
    agree_readBody le_rfl source m m hl.represents hl.represents
  rw [hread] at hexec
  cases hexec
  rw [hroom] at hpost
  cases o with
  | ok p =>
    obtain ⟨rfl, q, ts, hq, hts, hcontent⟩ := hpost
    obtain ⟨kept', free', hl'⟩ := hm'
    refine ⟨⟨fun _ => ⟨ts, hts⟩, fun _ => ⟨_, rfl⟩⟩, ?_, ?_⟩
    · intro p ts' hp hts'
      cases hp
      obtain rfl := hts.unique hts'
      have hsetting := Image.setting_eq_of_content hcontent
      rw [← hq]
      exact hl'.exec_bytes (Image.deref_of_setting hsetting (v.deref_hold_self q))
    · intro e he
      cases he
  | error e =>
    obtain ⟨-, he | ⟨hmistake, hno⟩⟩ := hpost
    · exact absurd he (hmemory e rfl)
    refine ⟨⟨?_, ?_⟩, ?_, ?_⟩
    · rintro ⟨p, hp⟩
      cases hp
    · rintro ⟨ts, hts⟩
      exact absurd hts (hno ts)
    · intro p ts hp
      cases hp
    · intro e' he'
      cases he'
      exact hmistake

/-- With two levels left, a control structure is read, and a list in a list with a number is not. -/
theorem readBody_two_levels : ∃ m, Acts (ofCapacity 64) [.nest 254] m ∧
    (∃ p ts, Writes "if 1 Then END -2" m.room ts ∧
      (exec (bytes p) (exec (readBody "if 1 Then END -2") m).2).1 =
        .ok (Tree.composite .program ts).encode) ∧
    ¬∃ ts, Writes "\x7b \x7b 1 \x7d \x7d" m.room ts := by
  have hacts : Acts (ofCapacity 64) [.nest 254] ((ofCapacity 64).act (.nest 254)) :=
    .cons ⟨by decide, trivial⟩ (.nil _)
  have hgood : (exec (readBody "if 1 Then END -2") ((ofCapacity 64).act (.nest 254))).1 = .ok ⟨0⟩ := by
    decide +kernel
  have hdeep : ∃ mistake, (exec (readBody "\x7b \x7b 1 \x7d \x7d")
      ((ofCapacity 64).act (.nest 254))).1 = .error (.error (.read mistake)) ∧
        (Failure.error (.read mistake)).lacksMemory = false :=
    ⟨{ cause := .tooDeep, position := 4 }, by decide +kernel, rfl⟩
  refine ⟨_, hacts, ?_, ?_⟩
  · obtain ⟨hiff, hbytes, -⟩ := readBody_ok_iff_writes (by decide) hacts "if 1 Then END -2"
      (Prod.ext hgood rfl) (fun e he => nomatch he)
    obtain ⟨ts, hts⟩ := hiff.mp ⟨_, rfl⟩
    exact ⟨⟨0⟩, ts, hts, congrArg Prod.fst (hbytes _ ts rfl hts)⟩
  · obtain ⟨mistake, hmistake, hmemory⟩ := hdeep
    obtain ⟨hiff, -, -⟩ := readBody_ok_iff_writes (by decide) hacts "\x7b \x7b 1 \x7d \x7d"
      (Prod.ext hmistake rfl) (by simp [hmemory])
    intro hts
    obtain ⟨p, hp⟩ := hiff.mpr hts
    cases hp

end Machine
end RpnMachine
