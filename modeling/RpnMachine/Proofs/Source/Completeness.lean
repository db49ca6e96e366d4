import RpnMachine.Proofs.Source.Soundness

/-! Reading misses nothing of the grammar: words that are derived are read, if there are enough
levels for them. -/
namespace RpnMachine

namespace Reading

variable {room : Nat} {ending : Token.Ending} {frames : List Frame} {position : Nat}

/-- Tokens that are read as a phrase wherever there are enough levels left for it. -/
def Parses (room : Nat) (ending : Token.Ending) (tokens : List Token) : Phrase → Prop
  | .object t => ∀ frames position forest rest, frames.head? ≠ some .filledQuote →
    t.nesting ≤ left room frames → ∃ steps last,
      object room ending frames position (tokens ++ rest) =
        .after steps (continued room ending last rest frames) ∧
      (Site.building forest).takeAll steps = some (.add t forest)
  | .body ts => ∀ f frames position us forest rest, f ≠ .quote → f ≠ .filledQuote →
    Tree.nestingAll ts ≤ left room (f :: frames) → ∃ steps position',
      object room ending (f :: frames) position (tokens ++ rest) =
        .after steps (object room ending (f :: frames) position' rest) ∧
      (Site.building (us :: forest)).takeAll steps = some (.building ((us ++ ts) :: forest))
  | .clauses closers ts => ∀ k c frames position cs forest rest, Clause.Leads k closers c →
    Tree.nestingClauses ts ≤ left room (.clause k :: frames) → ∃ steps last,
      object room ending (.clause k :: frames) position (tokens ++ rest) =
        .after steps (continued room ending last rest frames) ∧
      (Site.building ([] :: cs :: forest)).takeAll steps =
        some (.add (.composite (.control c) (cs ++ ts)) forest)

theorem after_after {α : Type} (xs ys : List Step) (r : Reading α) :
    after xs (after ys r) = after (xs ++ ys) r := by
  simp [after]

theorem continued_cons {f : Frame} (hf : f ≠ .quote) (t : Token) (ts : List Token) :
    continued room ending t ts (f :: frames) = object room ending (f :: frames) t.stop ts := by
  cases f with
  | quote => exact absurd rfl hf
  | _ => rfl

theorem head?_close?_eq_none {t : Token} (hfilled : frames.head? ≠ some .filledQuote)
    (h : ∀ cause, Start.ofToken t.text ≠ .mistake cause) : frames.head?.bind (·.close? t) = none := by
  cases frames with
  | nil => rfl
  | cons f frames => exact Start.close?_eq_none (by simpa using hfilled) h

/-- What opens a structure leaves one level less. -/
theorem object_of_opens {f : Frame} {t : Token} (h : Opens t.text f)
    (hfilled : frames.head? ≠ some .filledQuote) (hroom : 0 < left room frames) (ts : List Token) :
    object room ending frames position (t :: ts) =
      .after (.replicate f.marks .enter) (object room ending (f :: frames) t.stop ts) := by
  have hstart := Start.ofToken_of_opens h
  have hclose : frames.head?.bind (·.close? t) = none :=
    head?_close?_eq_none hfilled fun cause hcause => by rw [hstart] at hcause; cases hcause
  exact object_opening hclose hfilled (by rw [left] at hroom; omega) hstart

theorem find?_endings {k : Clause} {closer : String} {next : Clause.Sequel} {t : Token}
    (h : (closer, next) ∈ k.endings) (ht : Token.sameWord t.text closer) :
    k.endings.find? (t.spells ·.1) = some (closer, next) := by
  have hcheck : ∀ k : Clause, ∀ entry ∈ k.endings,
      k.endings.find? (Token.sameWord entry.1 ·.1) = some entry := by
    intro k
    cases k <;> decide +kernel
  simp only [Token.spells, Token.sameWord_congr ht]
  exact hcheck k _ h

/-- A structure between two tokens. -/
theorem parses_enclosed {f f' : Frame} {c : Composite} {t t' : Token} {tokens : List Token}
    {ts : List Tree} (hopens : Opens t.text f) (hmarks : f.marks = 1) (hlevel : f.isLevel)
    (hclose : f'.close? t' = some ([.wrap c t'.stop], none))
    (hnesting : (Tree.composite c ts).nesting = 1 + Tree.nestingAll ts)
    (h : ∀ frames position forest rest, Tree.nestingAll ts ≤ left room (f :: frames) →
      ∃ steps position', object room ending (f :: frames) position (tokens ++ rest) =
          .after steps (object room ending (f' :: frames) position' rest) ∧
        (Site.building ([] :: forest)).takeAll steps = some (.building (ts :: forest))) :
    Parses room ending (t :: tokens ++ [t']) (.object (.composite c ts)) := by
  intro frames position forest rest hfilled hroom
  rw [hnesting] at hroom
  have hleft : Tree.nestingAll ts ≤ left room (f :: frames) := by
    rw [left, List.countP_cons_of_pos hlevel]
    rw [left] at hroom
    omega
  obtain ⟨steps, position', hobject, htake⟩ := h frames t.stop forest (t' :: rest) hleft
  have henter : (Site.building forest).takeAll (.replicate 1 .enter) =
      some (.building ([] :: forest)) := rfl
  have htokens : t :: tokens ++ [t'] ++ rest = t :: (tokens ++ t' :: rest) := by simp
  refine ⟨.replicate 1 .enter ++ (steps ++ [.wrap c t'.stop]), t', ?_, ?_⟩
  · rw [htokens, object_of_opens hopens hfilled (by omega), hmarks, hobject, object_close hclose,
      after_after, after_after, List.append_assoc]
  · rw [Site.takeAll_append henter, Site.takeAll_append htake]
    rfl

theorem parses_word {token : Token} {t : Tree} (h : Denotes token.text t) :
    Parses room ending [token] (.object t) := by
  intro frames position forest rest hfilled hroom
  have hstart := Start.ofToken_of_denotes h
  have hclose : frames.head?.bind (·.close? token) = none :=
    head?_close?_eq_none hfilled fun cause hcause => by rw [hstart] at hcause; cases hcause
  have hpos := t.nesting_pos
  rw [left] at hroom
  refine ⟨[.make t.recipe token.stop], token, object_leaf hclose hfilled (by omega) hstart, ?_⟩
  simp [Site.takeAll, Site.take, h.ofRecipe?_recipe]

theorem parses_nil : Parses room ending [] (.body []) := by
  intro f frames position us forest rest _ _ _
  exact ⟨[], position, rfl, by simp⟩

theorem parses_cons {tokens tokens' : List Token} {t : Tree} {ts : List Tree}
    (h : Parses room ending tokens (.object t)) (hs : Parses room ending tokens' (.body ts)) :
    Parses room ending (tokens ++ tokens') (.body (t :: ts)) := by
  intro f frames position us forest rest hquote hfilled hroom
  rw [Tree.nestingAll, max_le_iff] at hroom
  obtain ⟨steps, last, hobject, htake⟩ := h (f :: frames) position (us :: forest)
    (tokens' ++ rest) (by simpa using hfilled) hroom.1
  obtain ⟨steps', position', hobject', htake'⟩ := hs f frames last.stop (us ++ [t]) forest rest
    hquote hfilled hroom.2
  refine ⟨steps ++ steps', position', ?_, ?_⟩
  · rw [List.append_assoc, hobject, continued_cons hquote, hobject', after_after]
  · rw [List.append_assoc, List.singleton_append] at htake'
    rw [Site.takeAll_append htake]
    exact htake'

/-- A control structure enters two levels: its own and the one of its first clause. -/
theorem parses_control {k : Clause} {c : Control} {opener : String} {closers : List String}
    {token : Token} {tokens : List Token} {ts : List Tree} (hk : (opener, k) ∈ Start.openings)
    (hw : Token.sameWord token.text opener) (hleads : k.Leads closers c)
    (h : Parses room ending tokens (.clauses closers ts)) :
    Parses room ending (token :: tokens) (.object (.composite (.control c) ts)) := by
  intro frames position forest rest hfilled hroom
  rw [Tree.nesting] at hroom
  have hleft : Tree.nestingClauses ts ≤ left room (.clause k :: frames) := by
    rw [left, List.countP_cons_of_pos rfl]
    rw [left] at hroom
    omega
  obtain ⟨steps, last, hobject, htake⟩ := h k c frames token.stop [] forest rest hleads hleft
  refine ⟨.replicate 2 .enter ++ steps, last, ?_, ?_⟩
  · rw [List.cons_append, object_of_opens (.clause hk hw) hfilled (by omega), hobject, after_after]
    rfl
  · rw [Site.takeAll_append (takeAll_enter 2 forest)]
    exact htake

/-- The word after the last clause ends the clause and the structure. -/
theorem parses_lastClause {closer : String} {token : Token} {tokens : List Token} {ts : List Tree}
    (h : Parses room ending tokens (.body ts)) (hw : Token.sameWord token.text closer) :
    Parses room ending (tokens ++ [token]) (.clauses [closer] [.composite .program ts]) := by
  intro k c frames position cs forest rest hleads hroom
  cases hleads with
  | next _ hleads => cases hleads
  | done hmem =>
    obtain ⟨steps, position', hobject, htake⟩ := h (.clause k) frames position [] (cs :: forest)
      (token :: rest) (by simp) (by simp)
      (by simpa [Tree.nestingClauses, Tree.nestingClause] using hroom)
    have hclose : (Frame.clause k).close? token =
        some ([.wrap .program token.stop, .wrap (.control c) token.stop], none) := by
      rw [Frame.close?, find?_endings hmem hw]
    refine ⟨steps ++ [.wrap .program token.stop, .wrap (.control c) token.stop], token, ?_, ?_⟩
    · rw [List.append_assoc, List.singleton_append, hobject, object_close hclose, after_after]
    · rw [Site.takeAll_append htake]
      rfl

/-- The word after any other clause ends the clause, and the next one begins. -/
theorem parses_clause {closer : String} {closers : List String} {token : Token}
    {tokens tokens' : List Token} {ts cs' : List Tree} (h : Parses room ending tokens (.body ts))
    (hw : Token.sameWord token.text closer) (hclosers : closers ≠ [])
    (hs : Parses room ending tokens' (.clauses closers cs')) :
    Parses room ending (tokens ++ token :: tokens')
      (.clauses (closer :: closers) (.composite .program ts :: cs')) := by
  intro k c frames position cs forest rest hleads hroom
  cases hleads with
  | done _ => exact absurd rfl hclosers
  | @next _ k' _ _ _ hmem hleads =>
    simp only [Tree.nestingClauses, Tree.nestingClause, max_le_iff] at hroom
    obtain ⟨steps, position', hobject, htake⟩ := h (.clause k) frames position [] (cs :: forest)
      (token :: (tokens' ++ rest)) (by simp) (by simp) hroom.1
    obtain ⟨steps', last, hobject', htake'⟩ := hs k' c frames token.stop
      (cs ++ [.composite .program ts]) forest rest hleads hroom.2
    have hclose : (Frame.clause k).close? token =
        some ([.wrap .program token.stop, .enter], some (.clause k')) := by
      rw [Frame.close?, find?_endings hmem hw]
    refine ⟨steps ++ [.wrap .program token.stop, .enter] ++ steps', last, ?_, ?_⟩
    · rw [List.append_assoc, List.cons_append, hobject, object_clause hclose, hobject', after_after,
        after_after]
    · rw [List.append_assoc, List.singleton_append] at htake'
      rw [List.append_assoc, Site.takeAll_append htake]
      exact htake'

theorem exists_enclosed {first last : String} {ws : List String} {tokens : List Token}
    (h : tokens.map Token.text = first :: ws ++ [last]) : ∃ token tokens' token',
      tokens = token :: tokens' ++ [token'] ∧ token.text = first ∧ tokens'.map Token.text = ws ∧
        token'.text = last := by
  simpa [List.map_eq_append_iff, List.map_eq_cons_iff] using h

theorem parses_of_derives {ws : List String} {phrase : Phrase} (h : Derives ws phrase)
    {tokens : List Token} (hws : tokens.map Token.text = ws) : Parses room ending tokens phrase := by
  induction h generalizing tokens with
  | @word w t h =>
    obtain ⟨token, rfl, rfl⟩ : ∃ token, tokens = [token] ∧ token.text = w := by
      simpa [List.map_eq_cons_iff] using hws
    exact parses_word h
  | @quote ws t h ih =>
    obtain ⟨token, tokens, token', rfl, htext, rfl, htext'⟩ := exists_enclosed hws
    have hclose : Frame.filledQuote.close? token' = some ([.wrap .quote token'.stop], none) := by
      rw [Frame.close?, if_pos htext']
    apply parses_enclosed (f := .quote) (htext ▸ .quote) rfl rfl hclose (by simp [Tree.nesting])
    intro frames position forest rest hroom
    obtain ⟨steps, last, hobject, htake⟩ := ih rfl (.quote :: frames) position ([] :: forest) rest
      (by simp) (by simpa [Tree.nestingAll] using hroom)
    exact ⟨steps, last.stop, hobject, htake⟩
  | @list ws ts h ih =>
    obtain ⟨token, tokens, token', rfl, htext, rfl, htext'⟩ := exists_enclosed hws
    have hclose : Frame.list.close? token' = some ([.wrap .list token'.stop], none) := by
      rw [Frame.close?, if_pos htext']
    apply parses_enclosed (f := .list) (htext ▸ .list) rfl rfl hclose (by simp [Tree.nesting])
    intro frames position forest rest hroom
    exact ih rfl .list frames position [] forest rest (by simp) (by simp) hroom
  | @program opener closer ws ts hopener h hcloser ih =>
    obtain ⟨token, tokens, token', rfl, rfl, rfl, rfl⟩ := exists_enclosed hws
    have hclose : Frame.program.close? token' = some ([.wrap .program token'.stop], none) := by
      rw [Frame.close?, if_pos hcloser]
    apply parses_enclosed (f := .program) (.program hopener) rfl rfl hclose (by simp [Tree.nesting])
    intro frames position forest rest hroom
    exact ih rfl .program frames position [] forest rest (by simp) (by simp) hroom
  | @control c opener w closers ws ts hc hw h ih =>
    obtain ⟨token, tokens, rfl, rfl, rfl⟩ : ∃ token tokens', tokens = token :: tokens' ∧
        token.text = w ∧ tokens'.map Token.text = ws := List.map_eq_cons_iff.mp hws
    obtain ⟨k, hk, hleads⟩ := Clause.exists_leads hc
    exact parses_control hk hw hleads (ih rfl)
  | nil =>
    cases List.map_eq_nil_iff.mp hws
    exact parses_nil
  | @cons ws us t ts h hs ih ihs =>
    obtain ⟨tokens, tokens', rfl, rfl, rfl⟩ := List.map_eq_append_iff.mp hws
    exact parses_cons (ih rfl) (ihs rfl)
  | @lastClause closer w ws ts h hw ih =>
    obtain ⟨tokens, token, rfl, rfl, rfl⟩ : ∃ tokens' token, tokens = tokens' ++ [token] ∧
        tokens'.map Token.text = ws ∧ token.text = w := by
      simpa [List.map_eq_append_iff, List.map_eq_cons_iff] using hws
    exact parses_lastClause (ih rfl) hw
  | @clause closer w closers ws us ts cs' h hw hs ih ihs =>
    obtain ⟨tokens, token, tokens', rfl, rfl, rfl, rfl⟩ : ∃ tokens₁ token tokens₂,
        tokens = tokens₁ ++ token :: tokens₂ ∧ tokens₁.map Token.text = ws ∧ token.text = w ∧
          tokens₂.map Token.text = us := by
      simpa [List.map_eq_append_iff, List.map_eq_cons_iff] using hws
    have hclosers : closers ≠ [] := by
      rintro rfl
      exact not_derives_nil hs
    exact parses_clause (ih rfl) hw hclosers (ihs rfl)

end Reading

namespace Script

open Reading

variable {room : Nat} {source : String} {ts : List Tree}

/-- A text that is derived for objects is read. -/
theorem body_of_writes (h : Writes source room ts) : (body room source).result = .ok () ∧
    (Site.building []).takeAll (body room source).steps =
      some (.finished (.composite .program ts)) := by
  obtain ⟨ws, hws, hderives, hnesting⟩ := h
  obtain ⟨tokens, p, hscan, htext⟩ := Token.exists_scan_of_words? hws
  have hleft : left room [.source] = room := rfl
  have hparses : Parses room (.finished p) tokens (.body ts) := parses_of_derives hderives htext
  obtain ⟨steps, position, hobject, htake⟩ :=
    hparses .source [] 0 [] [] [] (by decide) (by decide) (by rwa [hleft])
  rw [List.append_nil] at hobject
  have hend : Reading.object room (.finished p) [.source] position [] =
      ⟨[.wrap .program p], .ok (p, [])⟩ := by
    rw [Reading.object.eq_def]
    rfl
  simp only [body, hscan, hobject, hend]
  refine ⟨rfl, ?_⟩
  change (Site.building []).takeAll ([.enter] ++ (steps ++ [.wrap .program p])) = _
  have henter : (Site.building []).takeAll [.enter] = some (.building [[]]) := rfl
  rw [Site.takeAll_append henter, Site.takeAll_append htake]
  rfl

/-- A text that is read as a program is built to the end, as the program that it is derived for. -/
theorem exists_finished_of_body {s : Site}
    (hs : (Site.building []).takeAll (body room source).steps = some s)
    (h : (body room source).result = .ok ()) :
    ∃ ts, Writes source room ts ∧ s = .finished (.composite .program ts) := by
  obtain ⟨ts, hts⟩ := exists_writes_of_body h
  have hfinished := (body_of_writes hts).2
  rw [hs, Option.some_inj] at hfinished
  exact ⟨ts, hts, hfinished⟩

/-- A text that is derived for one object is read as that. -/
theorem object_of_derives {ws : List String} {t : Tree} (hws : Token.words? source = some ws)
    (hderives : Derives ws (.object t)) (hnesting : t.nesting ≤ room) :
    (object room source).result = .ok () ∧
      (Site.building []).takeAll (object room source).steps = some (.finished t) := by
  obtain ⟨tokens, p, hscan, htext⟩ := Token.exists_scan_of_words? hws
  have hparses : Parses room (.finished p) tokens (.object t) := parses_of_derives hderives htext
  obtain ⟨steps, last, hobject, htake⟩ := hparses [] 0 [] [] (by simp) hnesting
  rw [List.append_nil] at hobject
  simp only [object, hscan, hobject]
  refine ⟨rfl, ?_⟩
  change (Site.building []).takeAll (steps ++ []) = _
  rw [List.append_nil, htake]
  rfl

end Script
end RpnMachine
