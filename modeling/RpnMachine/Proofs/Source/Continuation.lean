import RpnMachine.Proofs.Source.Assembly
import RpnMachine.Proofs.Source.Lexing

/-! Reading a text that more text may follow. Up to a blank the tokens are the same whatever comes
after it, so a mistake that more input cannot mend is found in the same place again. -/
namespace RpnMachine

namespace Token

def EndsBlank (cs : List Char) : Prop := ∃ b, cs.getLast? = some b ∧ Text.isBlank b

variable {c : Char} {cs ds l r : List Char}

theorem endsBlank_of_append (bs : List Char) (h : EndsBlank (bs ++ cs)) (hcs : cs ≠ []) :
    EndsBlank cs := by
  obtain ⟨b, hb, hblank⟩ := h
  rw [List.getLast?_append_of_ne_nil _ hcs] at hb
  exact ⟨b, hb, hblank⟩

theorem EndsBlank.of_cons (h : EndsBlank (c :: cs)) (hc : Text.isBlank c = false) :
    EndsBlank cs := by
  apply endsBlank_of_append [c] h
  rintro rfl
  obtain ⟨b, hb, hblank⟩ := h
  rw [List.getLast?_singleton, Option.some_inj] at hb
  rw [← hb, hc] at hblank
  cases hblank

theorem EndsBlank.exists_cons (h : EndsBlank cs) : ∃ d ds, cs = d :: ds := by
  cases cs with
  | nil =>
    obtain ⟨b, hb, -⟩ := h
    cases hb
  | cons d ds => exact ⟨d, ds, rfl⟩

theorem isBlank_of_isWordChar (h : isWordChar c) : Text.isBlank c = false := by
  simp only [isWordChar, Bool.not_eq_true', Bool.or_eq_false_iff] at h
  exact h.1.1

/-- A closing quote before a blank is no half of a doubled one. -/
theorem textTail?_ahead (h : EndsBlank cs) (ht : textTail? cs = some (l, r)) (ds : List Char) :
    textTail? (cs ++ ds) = some (l, r ++ ds) ∧ EndsBlank r := by
  fun_induction textTail? cs generalizing l with
  | case1 => cases ht
  | case2 cs ih =>
    obtain ⟨⟨l', r'⟩, hl', e⟩ := Option.map_eq_some_iff.mp ht
    cases e
    obtain ⟨htail, hr⟩ := ih ((h.of_cons (by decide)).of_cons (by decide)) hl'
    constructor
    · rw [List.cons_append, List.cons_append, textTail?, htail, Option.map_some]
    · exact hr
  | case3 cs hclose =>
    cases ht
    have hr := h.of_cons (by decide)
    obtain ⟨d, es, rfl⟩ := hr.exists_cons
    constructor
    · rw [List.cons_append, textTail?, if_pos rfl]
      rintro fs - hfs
      cases hfs
      exact hclose es rfl rfl
    · exact hr
  | case4 c cs hdoubled hc ih =>
    obtain ⟨⟨l', r'⟩, hl', e⟩ := Option.map_eq_some_iff.mp ht
    cases e
    have hcs : EndsBlank cs := by
      apply endsBlank_of_append [c] h
      rintro rfl
      cases hl'
    obtain ⟨htail, hr⟩ := ih hcs hl'
    constructor
    · rw [List.cons_append, textTail?, if_neg hc, htail, Option.map_some]
      rintro fs rfl
      exact absurd rfl hc
    · exact hr

/-- A word does not reach past a blank. -/
theorem wordTail_ahead (h : EndsBlank cs) (ds : List Char) :
    wordTail (cs ++ ds) = ((wordTail cs).1, (wordTail cs).2 ++ ds) ∧ EndsBlank (wordTail cs).2 := by
  induction cs with
  | nil =>
    obtain ⟨d, es, hcs⟩ := h.exists_cons
    cases hcs
  | cons c cs ih =>
    by_cases hc : isWordChar c
    · have hcs := h.of_cons (isBlank_of_isWordChar hc)
      obtain ⟨d, es, rfl⟩ := hcs.exists_cons
      by_cases hangle : c = '>' ∧ d = '>'
      · obtain ⟨rfl, rfl⟩ := hangle
        exact ⟨rfl, h⟩
      · obtain ⟨htail, hr⟩ := ih hcs
        have hword : ∀ fs, wordTail (c :: d :: fs) =
            (c :: (wordTail (d :: fs)).1, (wordTail (d :: fs)).2) := by
          intro fs
          apply wordTail_cons hc
          rwa [List.head?_cons, Option.some_inj]
        rw [List.cons_append] at htail
        rw [List.cons_append, List.cons_append, hword, hword, htail]
        exact ⟨rfl, hr⟩
    · have hstop : ∀ es, wordTail (c :: es) = ([], c :: es) := by
        intro es
        rw [wordTail, if_neg hc]
        rintro fs rfl
        exact absurd (by decide) hc
      rw [List.cons_append, hstop, hstop]
      exact ⟨rfl, h⟩

/-- Nor does any other token. -/
theorem lexeme?_ahead (h : EndsBlank cs) (hc : Text.isBlank c = false)
    (hl : lexeme? c cs = some (l, r)) (ds : List Char) :
    lexeme? c (cs ++ ds) = some (l, r ++ ds) ∧ EndsBlank r := by
  unfold lexeme? at hl ⊢
  by_cases hdelimiter : isDelimiter c
  · rw [if_pos hdelimiter] at hl ⊢
    cases hl
    exact ⟨rfl, h⟩
  rw [if_neg hdelimiter] at hl ⊢
  by_cases hquote : c = '"'
  · rw [if_pos hquote] at hl ⊢
    obtain ⟨⟨l', r'⟩, hl', e⟩ := Option.map_eq_some_iff.mp hl
    cases e
    obtain ⟨htail, hr⟩ := textTail?_ahead h hl' ds
    exact ⟨by rw [htail, Option.map_some], hr⟩
  rw [if_neg hquote] at hl ⊢
  obtain ⟨d, es, rfl⟩ := h.exists_cons
  have hhead : (d :: es ++ ds).head? = (d :: es).head? := rfl
  rw [hhead]
  by_cases hangle : (c = '<' ∨ c = '>') ∧ (d :: es).head? = some c
  · rw [if_pos hangle] at hl ⊢
    cases hl
    obtain rfl : d = c := Option.some_inj.mp hangle.2
    exact ⟨rfl, h.of_cons hc⟩
  · rw [if_neg hangle] at hl ⊢
    obtain ⟨htail, hr⟩ := wordTail_ahead h ds
    cases hl
    exact ⟨by simp only [htail], hr⟩

/-- The tokens of a text that ends in a blank are the first tokens whatever follows it. -/
theorem exists_scanFrom_append (h : cs = [] ∨ EndsBlank cs) (position : Nat) (ds : List Char) :
    ∃ more ending, scanFrom position (cs ++ ds) = ((scanFrom position cs).1 ++ more, ending) := by
  induction hn : cs.length using Nat.strong_induction_on generalizing cs position with
  | _ n ih =>
    rw [scanFrom_eq position cs]
    cases hdrop : cs.dropWhile Text.isBlank with
    | nil => exact ⟨_, _, rfl⟩
    | cons c rest =>
      cases hl : lexeme? c rest with
      | none =>
        simp only [hl]
        exact ⟨_, _, rfl⟩
      | some lr =>
        obtain ⟨l, r⟩ := lr
        have hsplit : cs = cs.takeWhile Text.isBlank ++ c :: rest := by
          rw [← hdrop, List.takeWhile_append_dropWhile]
        have hends : EndsBlank cs := by
          rcases h with rfl | h
          · cases hdrop
          · exact h
        have hc : Text.isBlank c = false := by
          have := List.head?_dropWhile_not Text.isBlank cs
          rw [hdrop] at this
          simpa using this
        have hrest : EndsBlank rest := by
          rw [hsplit] at hends
          exact (endsBlank_of_append _ hends (List.cons_ne_nil _ _)).of_cons hc
        have htake : (cs ++ ds).takeWhile Text.isBlank = cs.takeWhile Text.isBlank := by
          rw [List.takeWhile_append, if_neg]
          intro hlength
          have := congrArg List.length hsplit
          rw [List.length_append, List.length_cons] at this
          omega
        have hdrop' : (cs ++ ds).dropWhile Text.isBlank = c :: (rest ++ ds) := by
          rw [List.dropWhile_append, hdrop]
          rfl
        obtain ⟨hl', hr⟩ := lexeme?_ahead hrest hc hl ds
        obtain ⟨more, ending, hmore⟩ := ih r.length (hn ▸ length_lt_of_lexeme? hdrop hl) (.inr hr)
          (position + width (cs.takeWhile Text.isBlank) + width l) rfl
        refine ⟨more, ending, ?_⟩
        rw [scanFrom_eq, hdrop', htake]
        simp only [hl, hl', hmore, List.cons_append]

end Token

namespace Reading

variable {e : ReadError} {room : Nat} {ending : Token.Ending} {frames : List Frame} {position : Nat}

/-- Where only an object can stand and no level is left for it, the next token is not looked at. -/
theorem object_of_no_room (hdirect : frames.head?.all (· = .quote))
    (hroom : room ≤ frames.countP Frame.isLevel) (ts : List Token) :
    object room ending frames position ts = .fail .tooDeep position := by
  cases ts with
  | nil =>
    rw [object.eq_def]
    dsimp only
    rw [if_pos ⟨hdirect, hroom⟩]
  | cons t ts =>
    rw [object_cons]
    cases frames with
    | nil =>
      obtain rfl : room = 0 := Nat.le_zero.mp hroom
      rfl
    | cons f frames =>
      obtain rfl : f = .quote := by simpa using hdirect
      simp [hroom, Frame.close?]

/-- A text that ends too early is in error for lack of levels only, or more input could mend it. -/
theorem no_room_of_object_nil (h : (object room ending frames position []).result = .error e)
    (he : ¬e.isIncomplete) :
    frames.head?.all (· = .quote) ∧ room ≤ frames.countP Frame.isLevel := by
  rw [object.eq_def] at h
  dsimp only at h
  split_ifs at h with hdeep
  · exact hdeep
  exfalso
  split at h
  · cases h
    exact he rfl
  split at h
  · cases h
    exact he rfl
  · cases h
  · next f frames _ =>
    cases h
    cases f <;> exact he rfl

/-- With more tokens a mistake that none of them can mend is found again. -/
theorem object_append {ts : List Token}
    (h : (object room ending frames position ts).result = .error e)
    (he : ¬e.isIncomplete) (ending' : Token.Ending) (more : List Token) :
    object room ending' frames position (ts ++ more) = object room ending frames position ts := by
  induction ts generalizing frames position with
  | nil =>
    obtain ⟨hdirect, hroom⟩ := no_room_of_object_nil h he
    rw [object_of_no_room hdirect hroom, object_of_no_room hdirect hroom]
  | cons t ts ih =>
    have hcontinued : ∀ frames, (continued room ending t ts frames).result = .error e →
        continued room ending' t (ts ++ more) frames = continued room ending t ts frames := by
      intro frames hresult
      cases frames with
      | nil => cases hresult
      | cons f frames => cases f <;> exact ih hresult
    rw [List.cons_append, object_cons]
    rw [object_cons] at h ⊢
    split at h
    · next steps _ => exact congrArg (after steps) (hcontinued _ h)
    · next steps f _ => exact congrArg (after steps) (ih h)
    · dsimp only at h ⊢
      split_ifs at h ⊢
      · rfl
      · rfl
      · rfl
      split at h
      · next r _ => exact congrArg (after [.make r t.stop]) (hcontinued _ h)
      · next levels f _ => exact congrArg (after (.replicate levels .enter)) (ih h)
      · rfl

end Reading

/-- After a blank nothing mends a mistake, except where the text was only incomplete. -/
theorem Script.body_append {room : Nat} {s : String} {e : ReadError} (hs : Token.EndsBlank s.toList)
    (h : (body room s).result = .error e) (he : ¬e.isIncomplete) (t : String) :
    body room (s ++ t) = body room s := by
  obtain ⟨more, ending, hscan⟩ := Token.exists_scanFrom_append (.inr hs) 0 t.toList
  have hobject : (Reading.object room (Token.scan s).2 [.source] 0 (Token.scan s).1).result =
      .error e := by
    simp only [body, Reading.after] at h
    generalize (Reading.object room (Token.scan s).2 [.source] 0 (Token.scan s).1).result = r at h
    cases r with
    | ok x => cases h
    | error e' =>
      cases h
      rfl
  have hsame := Reading.object_append hobject he ending more
  have hscan' : Token.scan (s ++ t) = ((Token.scan s).1 ++ more, ending) := by
    rw [Token.scan, String.toList_append, hscan]
    rfl
  unfold body
  simp only [hscan', hsame]

end RpnMachine
