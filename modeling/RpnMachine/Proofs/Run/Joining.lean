import RpnMachine.Console.Dialogue
import RpnMachine.Proofs.Run.WellFormed
import RpnMachine.Proofs.Source.Continuation

/-! Lines are joined only where more of them can help. A text that is in error up to a blank is in
error with the same mistake whatever follows, unless it was only incomplete or memory was lacking. -/
namespace RpnMachine

namespace Run

variable {m m' : Machine}

/-- Reading depends on the script of a text only. -/
theorem exec_readBody_congr {s s' : String}
    (h : Script.body m.room s = Script.body m.room s') :
    exec (readBody s) m = exec (readBody s') m := by
  unfold readBody
  rw [exec_bind_ok (exec_get m), exec_bind_ok (exec_get m), h]

theorem exec_line_error {s : String} {f : Failure} (h : exec (readBody s) m = (.error f, m'))
    (passes : Nat) : exec (line passes s) m = (.error f, m') := by
  unfold line acquiring
  exact exec_bind_error h _

theorem exec_enter_incomplete {d : Dialogue} {line : String} {e : ReadError}
    (h : exec (readBody (d.pending ++ line ++ "\n")) m = (.error (.error (.read e)), m'))
    (he : e.isIncomplete) (passes : Nat) (settings : Settings) :
    exec (d.enter passes settings line) m =
      (.ok { d with pending := d.pending ++ line ++ "\n" }, m') := by
  have hline := exec_line_error h passes
  unfold Dialogue.enter
  rw [exec_bind_ok (exec_attempt _ m), hline]
  simp only [he, if_true]
  rfl

end Run

namespace Machine

open Run

variable {m m' : Machine} {c : Nat}

/-- Unless memory is lacking, reading a text fails with the mistake of its script. -/
theorem Represents.mistake_of_readBody {v : Image} (hm : m.Represents c v) {s : String}
    {f : Failure} (hread : exec (readBody s) m = (.error f, m')) :
    f.lacksMemory ∨
      ∃ e, (Script.body m.room s).result = .error e ∧ f = .error (.read e) := by
  obtain ⟨kept, free, hl⟩ := hm
  have hroom : maxNesting - v.nesting = m.room := by rw [room, hl.nesting]
  obtain ⟨site, hsite⟩ := Script.exists_takeAll_body (maxNesting - v.nesting) s
  have hfinished : (Script.body (maxNesting - v.nesting) s).result = .ok () →
      ∃ t, site = .finished t := by
    intro hresult
    obtain ⟨ts, -, hbuilt⟩ := Script.exists_finished_of_body hsite hresult
    exact ⟨_, hbuilt⟩
  obtain ⟨o, m₁, v', hexec, -, hpost, -⟩ :=
    agree_read le_rfl (Script.body · s) hsite hfinished m m hl.represents hl.represents
  have hsame : exec (readBody s) m = (o, m₁) := hexec
  rw [hread] at hsame
  cases hsame
  rw [hroom] at hpost
  exact hpost.2

/-- A mistake before a blank that is not for lack of input or memory stays, whatever follows. -/
theorem Represents.exec_readBody_append {v : Image} (hm : m.Represents c v) {s : String}
    (hs : Token.EndsBlank s.toList) {f : Failure} (hread : exec (readBody s) m = (.error f, m'))
    (hmemory : ¬f.lacksMemory) (hf : ∀ e, f = .error (.read e) → ¬e.isIncomplete) (t : String) :
    exec (readBody (s ++ t)) m = (.error f, m') := by
  rcases hm.mistake_of_readBody hread with hlacks | ⟨e, hresult, rfl⟩
  · exact absurd hlacks hmemory
  · have hbody := Script.body_append hs hresult (hf e rfl) t
    rw [exec_readBody_congr hbody, hread]

/-- If a text with more after it can be read, then the text up to a blank can, or it is incomplete,
or memory is lacking. -/
theorem Represents.readBody_of_append {v : Image} (hm : m.Represents c v) {s t : String}
    (hs : Token.EndsBlank s.toList) {p : Pointer}
    (hread : exec (readBody (s ++ t)) m = (.ok p, m')) :
    (∃ p' m₁, exec (readBody s) m = (.ok p', m₁)) ∨
      ∃ f m₁, exec (readBody s) m = (.error f, m₁) ∧
        (f.lacksMemory ∨ ∃ e, f = .error (.read e) ∧ e.isIncomplete) := by
  cases hprior : exec (readBody s) m with
  | mk o m₁ =>
    cases o with
    | ok p' => exact .inl ⟨p', m₁, rfl⟩
    | error f =>
      right
      refine ⟨f, m₁, rfl, ?_⟩
      by_contra hno
      rw [not_or] at hno
      have hf : ∀ e, f = .error (.read e) → ¬e.isIncomplete :=
        fun e he hincomplete => hno.2 ⟨e, he, hincomplete⟩
      rw [hm.exec_readBody_append hs hprior hno.1 hf t] at hread
      cases hread

theorem endsBlank_append_newline (s : String) : Token.EndsBlank (s ++ "\n").toList := by
  refine ⟨'\n', ?_, by decide⟩
  rw [String.toList_append]
  exact List.getLast?_concat

/-- In whatever state a machine is, a text that ends in a blank and is in error for a definite reason
is in error for the same reason, in the same place, with anything after it. So if it can be read with
something after it, it can be read alone, or it is incomplete, or memory is lacking; and the dialogue,
which waits for more only if its lines are incomplete, does so whenever more lines could still make
them readable. -/
theorem readBody_stays_in_error (hc : c < Word.bound Heap.slotSize) {actions : List Action}
    (h : Acts (ofCapacity c) actions m) :
    (∀ s t f m', Token.EndsBlank s.toList → exec (readBody s) m = (.error f, m') →
      ¬f.lacksMemory → (∀ e, f = .error (.read e) → ¬e.isIncomplete) →
      exec (readBody (s ++ t)) m = (.error f, m')) ∧
    (∀ s t p m', Token.EndsBlank s.toList → exec (readBody (s ++ t)) m = (.ok p, m') →
      (∃ p' m₁, exec (readBody s) m = (.ok p', m₁)) ∨
        ∃ f m₁, exec (readBody s) m = (.error f, m₁) ∧
          (f.lacksMemory ∨ ∃ e, f = .error (.read e) ∧ e.isIncomplete)) ∧
    ∀ passes settings (d : Dialogue) line t p m',
      exec (readBody (d.pending ++ line ++ "\n" ++ t)) m = (.ok p, m') →
      (∃ p' m₁, exec (readBody (d.pending ++ line ++ "\n")) m = (.ok p', m₁)) ∨
      (∃ f m₁, exec (readBody (d.pending ++ line ++ "\n")) m = (.error f, m₁) ∧ f.lacksMemory) ∨
      ∃ m₁, exec (d.enter passes settings line) m =
        (.ok { d with pending := d.pending ++ line ++ "\n" }, m₁) := by
  obtain ⟨v, hm, -⟩ := h.exists_represents (represents_ofCapacity hc)
  refine ⟨?_, ?_, ?_⟩
  · intro s t f m' hs hread hmemory hf
    exact hm.exec_readBody_append hs hread hmemory hf t
  · intro s t p m' hs hread
    exact hm.readBody_of_append hs hread
  · intro passes settings d line t p m' hread
    have hs := endsBlank_append_newline (d.pending ++ line)
    rcases hm.readBody_of_append hs hread with hok | ⟨f, m₁, hprior, hlacks | ⟨e, rfl, he⟩⟩
    · exact .inl hok
    · exact .inr (.inl ⟨f, m₁, hprior, hlacks⟩)
    · exact .inr (.inr ⟨m₁, exec_enter_incomplete hprior he passes settings⟩)

/-- A closing mark without a list stays the first mistake, also if a list follows; and a list over two
lines waits for the second one. -/
theorem readBody_stray_mark : ∃ m', Acts (ofCapacity 64) [] (ofCapacity 64) ∧
    exec (readBody "1 \x7d \x7b 2 \x7d") (ofCapacity 64) =
      (.error (.error (.read { cause := .unexpected "\x7d", position := 2 })), m') ∧
    ∃ m₁, exec (Dialogue.enter 0 {} {} "\x7b 1") (ofCapacity 64) =
      (.ok { pending := "\x7b 1\n" }, m₁) := by
  obtain ⟨hstays, -, hwaits⟩ := readBody_stays_in_error (c := 64) (by decide) (.nil _)
  have hread : (exec (readBody "1 \x7d ") (ofCapacity 64)).1 =
      .error (.error (.read { cause := .unexpected "\x7d", position := 2 })) := by decide +kernel
  have hdefinite : ∀ e, Failure.error (.read { cause := .unexpected "\x7d", position := 2 }) =
      .error (.read e) → ¬e.isIncomplete := by
    intro e he
    cases he
    decide
  have hrest := hstays "1 \x7d " "\x7b 2 \x7d" _ _ ⟨' ', by decide, by decide⟩ (Prod.ext hread rfl)
    (by decide) hdefinite
  refine ⟨_, .nil _, hrest, ?_⟩
  have hjoined : (exec (readBody "\x7b 1\n\x7d") (ofCapacity 64)).1 = .ok ⟨0⟩ := by decide +kernel
  have halone : (exec (readBody "\x7b 1\n") (ofCapacity 64)).1 =
      .error (.error (.read { cause := .expectedWord ["\x7d"], position := 4 })) := by decide +kernel
  rcases hwaits 0 {} {} "\x7b 1" "\x7d" _ _ (Prod.ext hjoined rfl) with
    ⟨p, m₁, hok⟩ | ⟨f, m₁, hf, hlacks⟩ | hwait
  · have hno := halone.symm.trans (congrArg Prod.fst hok)
    cases hno
  · have hno := halone.symm.trans (congrArg Prod.fst hf)
    cases hno
    cases hlacks
  · exact hwait

end Machine
end RpnMachine
