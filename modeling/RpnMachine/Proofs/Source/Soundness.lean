import RpnMachine.Proofs.Source.Grammar

/-! Reading follows the grammar: a text that is read to its end is derived, and what is built then
is what its words are derived for. -/
namespace RpnMachine

namespace Reading

variable {room : Nat} {ending : Token.Ending} {frames : List Frame} {position : Nat}

def left (room : Nat) (frames : List Frame) : Nat := room - frames.countP Frame.isLevel

/-- The words that end the open structures after an object was added, and what is built then. -/
def Ends (room : Nat) : List Frame → Site → List String → Site → Prop
  | [], site, ws, s => ws = [] ∧ s = site
  | .quote :: fs, .building (ts :: forest), ws, s
  | .filledQuote :: fs, .building (ts :: forest), ws, s =>
    ∃ vs, ws = "'" :: vs ∧ Ends room fs (.add (.composite .quote ts) forest) vs s
  | .list :: fs, .building (ts :: forest), ws, s =>
    ∃ us vs more, ws = us ++ "\x7d" :: vs ∧ Derives us (.body more) ∧
      Tree.nestingAll more ≤ left room (.list :: fs) ∧
      Ends room fs (.add (.composite .list (ts ++ more)) forest) vs s
  | .program :: fs, .building (ts :: forest), ws, s =>
    ∃ us vs closer more, ws = us ++ closer :: vs ∧ Derives us (.body more) ∧
      (closer = "»" ∨ closer = ">>") ∧ Tree.nestingAll more ≤ left room (.program :: fs) ∧
      Ends room fs (.add (.composite .program (ts ++ more)) forest) vs s
  | .clause k :: fs, .building (ts :: cs :: forest), ws, s =>
    ∃ us vs c closers more rest, ws = us ++ vs ∧ k.Leads closers c ∧
      Derives us (.clauses closers (.composite .program more :: rest)) ∧
      Tree.nestingClauses (.composite .program more :: rest) ≤ left room (.clause k :: fs) ∧
      Ends room fs
        (.add (.composite (.control c) (cs ++ .composite .program (ts ++ more) :: rest)) forest) vs s
  | .source :: fs, .building (ts :: forest), ws, s =>
    ∃ more, Derives ws (.body more) ∧ Tree.nestingAll more ≤ left room (.source :: fs) ∧
      s = .add (.composite .program (ts ++ more)) forest
  | _, _, _, _ => False

/-- The words that end the open structures, or that are an object if none is open. -/
def Closes (room : Nat) (frames : List Frame) (forest : List (List Tree)) (ws : List String)
    (s : Site) : Prop :=
  if frames.head?.all (· = .quote) then
    ∃ us vs t, ws = us ++ vs ∧ Derives us (.object t) ∧ t.nesting ≤ left room frames ∧
      Ends room frames (.add t forest) vs s
  else Ends room frames (.building forest) ws s

/-- An object before the words that end the structures. -/
theorem closes_of_ends {us vs : List String} {t : Tree} {forest : List (List Tree)} {s : Site}
    (hframes : frames.head? ≠ some .filledQuote) (ht : Derives us (.object t))
    (hn : t.nesting ≤ left room frames) (h : Ends room frames (.add t forest) vs s) :
    Closes room frames forest (us ++ vs) s := by
  by_cases hdirect : frames.head?.all (· = .quote)
  · rw [Closes, if_pos hdirect]
    exact ⟨us, vs, t, rfl, ht, hn, h⟩
  rw [Closes, if_neg hdirect]
  cases forest with
  | nil =>
    cases frames with
    | nil => simp at hdirect
    | cons f fs => cases f <;> simp [Ends, Site.add] at h
  | cons ts forest =>
    cases frames with
    | nil => simp at hdirect
    | cons f fs =>
      cases f with
      | quote => simp at hdirect
      | filledQuote => simp at hframes
      | list =>
        obtain ⟨us', vs', more, rfl, hmore, hnesting, hends⟩ := h
        refine ⟨us ++ us', vs', t :: more, by simp, .cons ht hmore, ?_, by simpa using hends⟩
        exact max_le hn hnesting
      | program =>
        obtain ⟨us', vs', closer, more, rfl, hmore, hcloser, hnesting, hends⟩ := h
        refine ⟨us ++ us', vs', closer, t :: more, by simp, .cons ht hmore, hcloser, ?_,
          by simpa using hends⟩
        exact max_le hn hnesting
      | clause k =>
        cases forest with
        | nil => exact h.elim
        | cons cs forest =>
          obtain ⟨us', vs', c, closers, more, rest, rfl, hleads, hclauses, hnesting, hends⟩ := h
          have hclauses' : Derives (us ++ us')
              (.clauses closers (.composite .program (t :: more) :: rest)) := by
            cases hclauses with
            | lastClause hbody hw =>
              rw [← List.append_assoc]
              exact .lastClause (.cons ht hbody) hw
            | clause hbody hw hs =>
              rw [← List.append_assoc]
              exact .clause (.cons ht hbody) hw hs
          refine ⟨us ++ us', vs', c, closers, t :: more, rest, by simp, hleads, hclauses', ?_,
            by simpa using hends⟩
          simp only [Tree.nestingClauses, Tree.nestingClause, Tree.nestingAll] at hnesting ⊢
          omega
      | source =>
        obtain ⟨more, hmore, hnesting, hs⟩ := h
        refine ⟨t :: more, .cons ht hmore, ?_, by simpa using hs⟩
        exact max_le hn hnesting

/-! What each word does. -/

section

variable {f : Frame} {t : Token} {ts : List Token} {steps : List Step}

theorem object_close (h : f.close? t = some (steps, none)) :
    object room ending (f :: frames) position (t :: ts) =
      .after steps (continued room ending t ts frames) := by
  rw [object_cons, List.head?_cons, Option.bind_some, h]
  rfl

theorem object_clause {f' : Frame} (h : f.close? t = some (steps, some f')) :
    object room ending (f :: frames) position (t :: ts) =
      .after steps (object room ending (f' :: frames) t.stop ts) := by
  rw [object_cons, List.head?_cons, Option.bind_some, h]
  rfl

theorem object_leaf {r : Recipe} (hclose : frames.head?.bind (·.close? t) = none)
    (hfilled : frames.head? ≠ some .filledQuote) (hroom : frames.countP Frame.isLevel < room)
    (h : Start.ofToken t.text = .leaf r) : object room ending frames position (t :: ts) =
      .after [.make r t.stop] (continued room ending t ts frames) := by
  simp only [object_cons, hclose, if_neg hfilled, if_neg (Nat.not_le.mpr hroom), h]

theorem object_opening {n : Nat} (hclose : frames.head?.bind (·.close? t) = none)
    (hfilled : frames.head? ≠ some .filledQuote) (hroom : frames.countP Frame.isLevel < room)
    (h : Start.ofToken t.text = .opening n f) : object room ending frames position (t :: ts) =
      .after (.replicate n .enter) (object room ending (f :: frames) t.stop ts) := by
  simp only [object_cons, hclose, if_neg hfilled, if_neg (Nat.not_le.mpr hroom), h]

end

/-- What a token does in a text that is read to the end of an object: it closes a structure or one
of its clauses, it is an object, or it opens a structure. -/
inductive Turn (room : Nat) (ending : Token.Ending) (t : Token) (ts : List Token) :
    List Frame → Reading Rest → Prop
  | close {f : Frame} {frames : List Frame} {steps : List Step}
    (h : f.close? t = some (steps, none)) :
    Turn room ending t ts (f :: frames) (.after steps (continued room ending t ts frames))
  | clause {f f' : Frame} {frames : List Frame} {steps : List Step}
    (h : f.close? t = some (steps, some f')) :
    Turn room ending t ts (f :: frames)
      (.after steps (object room ending (f' :: frames) t.stop ts))
  | leaf {frames : List Frame} {r : Recipe} (hfilled : frames.head? ≠ some .filledQuote)
    (hroom : frames.countP Frame.isLevel < room) (h : Start.ofToken t.text = .leaf r) :
    Turn room ending t ts frames (.after [.make r t.stop] (continued room ending t ts frames))
  | opening {f : Frame} {frames : List Frame} {n : Nat} (hfilled : frames.head? ≠ some .filledQuote)
    (hroom : frames.countP Frame.isLevel < room) (h : Start.ofToken t.text = .opening n f) :
    Turn room ending t ts frames
      (.after (.replicate n .enter) (object room ending (f :: frames) t.stop ts))

theorem turn_of_result_eq_ok {t : Token} {ts : List Token} {x : Rest}
    (hresult : (object room ending frames position (t :: ts)).result = .ok x) :
    Turn room ending t ts frames (object room ending frames position (t :: ts)) := by
  match hclose : frames.head?.bind (·.close? t) with
  | some (steps, none) =>
    obtain ⟨f, hhead, hclose⟩ := Option.bind_eq_some_iff.mp hclose
    obtain ⟨frames, rfl⟩ := List.head?_eq_some_iff.mp hhead
    rw [object_close hclose]
    exact .close hclose
  | some (steps, some f') =>
    obtain ⟨f, hhead, hclose⟩ := Option.bind_eq_some_iff.mp hclose
    obtain ⟨frames, rfl⟩ := List.head?_eq_some_iff.mp hhead
    rw [object_clause hclose]
    exact .clause hclose
  | none =>
    by_cases hfilled : frames.head? = some .filledQuote
    · simp only [object_cons, hclose, if_pos hfilled] at hresult
      cases hresult
    by_cases hroom : room ≤ frames.countP Frame.isLevel
    · simp only [object_cons, hclose, if_neg hfilled, if_pos hroom] at hresult
      cases hresult
    have hlt : frames.countP Frame.isLevel < room := Nat.not_le.mp hroom
    cases hstart : Start.ofToken t.text with
    | leaf r =>
      rw [object_leaf hclose hfilled hlt hstart]
      exact .leaf hfilled hlt hstart
    | opening n f =>
      rw [object_opening hclose hfilled hlt hstart]
      exact .opening hfilled hlt hstart
    | mistake cause =>
      simp only [object_cons, hclose, if_neg hfilled, if_neg hroom, hstart] at hresult
      cases hresult

/-- At the end of the tokens only the contents of a program are complete. -/
theorem eq_of_result_nil_eq_ok {x : Rest}
    (hresult : (object room ending frames position []).result = .ok x) :
    ∃ frames' p, frames = .source :: frames' ∧ ending = .finished p ∧ x = (p, []) ∧
      object room ending frames position [] = ⟨[.wrap .program p], .ok (p, [])⟩ := by
  rw [object.eq_def] at hresult ⊢
  dsimp only at hresult ⊢
  split_ifs at hresult with hdirect
  · cases hresult
  rw [if_neg hdirect]
  split at hresult
  · cases hresult
  split at hresult
  · cases hresult
  · cases hresult
    exact ⟨_, _, rfl, rfl, rfl, rfl⟩
  · cases hresult

/-! Whatever is read is derived. -/

theorem ends_of_closes {f : Frame} {fs : List Frame} {forest : List (List Tree)} {ws : List String}
    {s : Site} (hf : f ≠ .quote) (h : Closes room (f :: fs) forest ws s) :
    Ends room (f :: fs) (.building forest) ws s := by
  rwa [Closes, if_neg (by simpa using hf)] at h

/-- Whatever structures are open, what is read of these tokens is derived. -/
def Traces (room : Nat) (ending : Token.Ending) (ts : List Token) (p : Nat) (rest : List Token)
    (s : Site) : Prop :=
  ∀ frames position forest, forest.length = Frame.depth frames →
    (object room ending frames position ts).result = .ok (p, rest) →
    (Site.building forest).takeAll (object room ending frames position ts).steps = some s →
    ∃ used, ts = used ++ rest ∧ Closes room frames forest (used.map Token.text) s

/-- What is read is derived, if that holds of what is read later on. -/
theorem ends_of_continued {t : Token} {ts rest : List Token} {p : Nat} {u : Tree}
    {forest : List (List Tree)} {s : Site}
    (ih : Traces room ending ts p rest s)
    (hf : forest.length = Frame.depth frames)
    (hresult : (continued room ending t ts frames).result = .ok (p, rest))
    (hsteps : (Site.add u forest).takeAll (continued room ending t ts frames).steps = some s) :
    ∃ used, ts = used ++ rest ∧ Ends room frames (.add u forest) (used.map Token.text) s := by
  cases frames with
  | nil =>
    cases hresult
    cases hsteps
    exact ⟨[], rfl, rfl, rfl⟩
  | cons f frames =>
    obtain ⟨us, forest, rfl⟩ := List.exists_cons_of_length_pos (l := forest) (by
      rw [hf]
      cases f <;> simp [Frame.marks])
    cases f with
    | quote =>
      obtain ⟨used, hused, hcloses⟩ :=
        ih (.filledQuote :: frames) _ ((us ++ [u]) :: forest) hf hresult hsteps
      exact ⟨used, hused, ends_of_closes (f := .filledQuote) (by decide) hcloses⟩
    | _ =>
      obtain ⟨used, hused, hcloses⟩ := ih _ _ ((us ++ [u]) :: forest) hf hresult hsteps
      exact ⟨used, hused, ends_of_closes (by simp) hcloses⟩

/-- Inside a structure its own objects are on top. -/
theorem exists_cons_of_depth {f : Frame} (hmarks : f.marks = 1) {forest : List (List Tree)}
    (h : forest.length = Frame.depth (f :: frames)) :
    ∃ us forest', forest = us :: forest' ∧ forest'.length = Frame.depth frames := by
  rw [Frame.depth_cons, hmarks, Nat.add_comm] at h
  obtain ⟨us, forest', rfl⟩ := List.exists_cons_of_length_pos (l := forest) (by omega)
  exact ⟨us, forest', rfl, Nat.succ.inj h⟩

/-- Inside a clause its own objects are on top, and the clauses before it below them. -/
theorem exists_cons_cons_of_depth {k : Clause} {forest : List (List Tree)}
    (h : forest.length = Frame.depth (.clause k :: frames)) :
    ∃ us cs forest', forest = us :: cs :: forest' ∧ forest'.length = Frame.depth frames := by
  have hlength : forest.length = Frame.depth frames + 2 := by
    rw [h, Frame.depth_cons, Nat.add_comm]
    rfl
  obtain ⟨us, below, rfl⟩ := List.exists_cons_of_length_pos (l := forest) (by omega)
  rw [List.length_cons] at hlength
  obtain ⟨cs, forest', rfl⟩ := List.exists_cons_of_length_pos (l := below) (by omega)
  rw [List.length_cons] at hlength
  exact ⟨us, cs, forest', rfl, by omega⟩

theorem closes_of_close {f : Frame} {frames : List Frame} {t : Token} {ts rest : List Token}
    {p : Nat}
    {forest : List (List Tree)} {s : Site} {steps : List Step}
    (ih : Traces room ending ts p rest s)
    (hf : forest.length = Frame.depth (f :: frames)) (hclose : f.close? t = some (steps, none))
    (hresult : (continued room ending t ts frames).result = .ok (p, rest))
    (hsteps : (Site.building forest).takeAll
      (after steps (continued room ending t ts frames)).steps = some s) :
    ∃ used, t :: ts = used ++ rest ∧ Closes room (f :: frames) forest (used.map Token.text) s := by
  have hnil : Tree.nestingAll [] ≤ left room (f :: frames) := Nat.zero_le _
  cases f with
  | list =>
    obtain ⟨us, forest, rfl, hf'⟩ := exists_cons_of_depth rfl hf
    rw [Frame.close?] at hclose
    split_ifs at hclose with htext
    cases hclose
    obtain ⟨used, rfl, hends⟩ := ends_of_continued ih hf' hresult hsteps
    refine ⟨t :: used, rfl, [], used.map Token.text, [], by simp [htext], .nil, hnil, ?_⟩
    simpa using hends
  | program =>
    obtain ⟨us, forest, rfl, hf'⟩ := exists_cons_of_depth rfl hf
    rw [Frame.close?] at hclose
    split_ifs at hclose with htext
    cases hclose
    obtain ⟨used, rfl, hends⟩ := ends_of_continued ih hf' hresult hsteps
    refine ⟨t :: used, rfl, [], used.map Token.text, t.text, [], rfl, .nil, htext, hnil, ?_⟩
    simpa using hends
  | filledQuote =>
    obtain ⟨us, forest, rfl, hf'⟩ := exists_cons_of_depth rfl hf
    rw [Frame.close?] at hclose
    split_ifs at hclose with htext
    cases hclose
    obtain ⟨used, rfl, hends⟩ := ends_of_continued ih hf' hresult hsteps
    exact ⟨t :: used, rfl, used.map Token.text, by simp [htext], hends⟩
  | clause k =>
    rw [Frame.close?] at hclose
    split at hclose
    · cases hclose
    · next closer c hfind =>
      cases hclose
      have hmem := List.mem_of_find?_eq_some hfind
      have hspells : t.spells closer := by simpa using List.find?_some hfind
      obtain ⟨us, cs, forest, rfl, hf'⟩ := exists_cons_cons_of_depth hf
      obtain ⟨used, rfl, hends⟩ := ends_of_continued ih hf' hresult hsteps
      refine ⟨t :: used, rfl, ?_⟩
      refine ⟨[t.text], used.map Token.text, c, [closer], [], [], rfl, .done hmem,
        .lastClause .nil hspells, ?_, by simpa using hends⟩
      simp [Tree.nestingClauses, Tree.nestingClause, Tree.nestingAll]
    · cases hclose
  | quote | source => cases hclose

/-- A word after a clause that another one follows. -/
theorem closes_of_close_clause {f f' : Frame} {frames : List Frame} {t : Token}
    {ts rest : List Token} {p : Nat} {forest : List (List Tree)} {s : Site} {steps : List Step}
    (ih : Traces room ending ts p rest s)
    (hf : forest.length = Frame.depth (f :: frames)) (hclose : f.close? t = some (steps, some f'))
    (hresult : (object room ending (f' :: frames) t.stop ts).result = .ok (p, rest))
    (hsteps : (Site.building forest).takeAll
      (after steps (object room ending (f' :: frames) t.stop ts)).steps = some s) :
    ∃ used, t :: ts = used ++ rest ∧ Closes room (f :: frames) forest (used.map Token.text) s := by
  cases f with
  | clause k =>
    rw [Frame.close?] at hclose
    split at hclose
    · next closer k' hfind =>
      cases hclose
      have hmem := List.mem_of_find?_eq_some hfind
      have hspells : t.spells closer := by simpa using List.find?_some hfind
      obtain ⟨us, cs, forest, rfl, -⟩ := exists_cons_cons_of_depth hf
      obtain ⟨used, rfl, hcloses⟩ :=
        ih (.clause k' :: frames) _ ([] :: (cs ++ [Tree.composite .program us]) :: forest)
          (by simpa [Frame.marks] using hf) hresult hsteps
      obtain ⟨us', vs, c, closers, more, rest, hwords, hleads, hclauses, hnesting, hends⟩ :=
        ends_of_closes (by simp) hcloses
      refine ⟨t :: used, rfl, t.text :: us', vs, c, closer :: closers, [],
        .composite .program more :: rest, by simp [hwords], .next hmem hleads,
        .clause .nil hspells hclauses, ?_, by simpa using hends⟩
      have hleft : left room (.clause k' :: frames) = left room (.clause k :: frames) := rfl
      rw [hleft] at hnesting
      simpa [Tree.nestingClauses, Tree.nestingClause, Tree.nestingAll] using hnesting
    · cases hclose
    · cases hclose
  | _ => simp [Frame.close?] at hclose

theorem closes_of_opens {word : String} {f : Frame} {ws : List String} {forest : List (List Tree)}
    {s : Site} (hopens : Opens word f) (hframes : frames.head? ≠ some .filledQuote)
    (hroom : frames.countP Frame.isLevel < room)
    (h : Closes room (f :: frames) (List.replicate f.marks [] ++ forest) ws s) :
    Closes room frames forest (word :: ws) s := by
  have hleft : f.isLevel → 1 + left room (f :: frames) ≤ left room frames := by
    intro hf
    rw [left, left, List.countP_cons_of_pos hf]
    omega
  cases hopens with
  | quote =>
    obtain ⟨us, vs, t, rfl, ht, hnesting, hends⟩ := h
    obtain ⟨vs, rfl, hends⟩ := hends
    have := closes_of_ends hframes (.quote ht) ?_ hends
    · simpa using this
    · have := hleft rfl
      simp only [Tree.nesting, Tree.nestingAll]
      omega
  | list =>
    obtain ⟨us, vs, more, rfl, hmore, hnesting, hends⟩ := ends_of_closes (by simp) h
    have := closes_of_ends hframes (.list hmore) ?_ hends
    · simpa using this
    · have := hleft rfl
      simp only [Tree.nesting]
      omega
  | program hopener =>
    obtain ⟨us, vs, closer, more, rfl, hmore, hcloser, hnesting, hends⟩ :=
      ends_of_closes (by simp) h
    have := closes_of_ends hframes (.program hopener hmore hcloser) ?_ hends
    · simpa using this
    · have := hleft rfl
      simp only [Tree.nesting]
      omega
  | clause hk hspells =>
    obtain ⟨us, vs, c, closers, more, rest, rfl, hleads, hclauses, hnesting, hends⟩ :=
      ends_of_closes (by simp) h
    have hwords := hleads.words
    rw [Clause.before_of_mem_openings hk, List.singleton_append] at hwords
    have := closes_of_ends hframes (.control hwords hspells hclauses) ?_ hends
    · simpa using this
    · have := hleft rfl
      simp only [Tree.nesting]
      omega

theorem traces (room : Nat) (ending : Token.Ending) {tokens : List Token}
    (hlexed : ∀ t ∈ tokens, Token.IsLexed t.text) (p : Nat) (rest : List Token) (s : Site) :
    Traces room ending tokens p rest s := by
  induction tokens with
  | nil =>
    intro frames position forest hf hresult hsteps
    obtain ⟨frames, p, rfl, rfl, hx, heq⟩ := eq_of_result_nil_eq_ok hresult
    cases hx
    rw [heq] at hsteps
    obtain ⟨ts, forest, rfl, -⟩ := exists_cons_of_depth rfl hf
    cases hsteps
    exact ⟨[], rfl, [], .nil, Nat.zero_le _, by simp⟩
  | cons t ts ih =>
    have ih := ih fun u hu => hlexed u (List.mem_cons_of_mem _ hu)
    intro frames position forest hf hresult hsteps
    have hturn := turn_of_result_eq_ok hresult
    generalize object room ending frames position (t :: ts) = r at hresult hsteps hturn
    cases hturn with
    | close hclose => exact closes_of_close ih hf hclose hresult hsteps
    | clause hclose => exact closes_of_close_clause ih hf hclose hresult hsteps
    | @leaf _ r hfilled hroom hstart =>
      obtain ⟨u, hu, rfl⟩ := Start.exists_denotes_of_ofToken (hlexed t (by simp)) hstart
      have htake : (Site.building forest).takeAll [.make u.recipe t.stop] = some (.add u forest) := by
        simp [Site.takeAll, Site.take, hu.ofRecipe?_recipe]
      obtain ⟨used, rfl, hends⟩ := ends_of_continued ih hf hresult
        ((Site.takeAll_append htake _).symm.trans hsteps)
      have hnesting : u.nesting ≤ left room frames := by
        rw [hu.nesting, left]
        omega
      exact ⟨t :: used, rfl, closes_of_ends hfilled (.word hu) hnesting hends⟩
    | @opening f _ n hfilled hroom hstart =>
      have hmarks := Start.marks_of_ofToken hstart
      obtain ⟨used, rfl, hcloses⟩ := ih (f :: frames) t.stop (List.replicate n [] ++ forest)
        (by rw [List.length_append, List.length_replicate, hf, Frame.depth_cons, hmarks]) hresult
        ((Site.takeAll_append (takeAll_enter n forest) _).symm.trans hsteps)
      rw [← hmarks] at hcloses
      exact ⟨t :: used, rfl, closes_of_opens (Start.opens_of_ofToken hstart) hfilled hroom hcloses⟩

theorem rest_eq_nil_of_source {p : Nat} {rest : List Token} (tokens : List Token)
    (hsource : .source ∈ frames)
    (hresult : (object room ending frames position tokens).result = .ok (p, rest)) :
    rest = [] ∧ ending = .finished p := by
  induction tokens generalizing frames position with
  | nil =>
    obtain ⟨_, _, _, rfl, hx, _⟩ := eq_of_result_nil_eq_ok hresult
    cases hx
    exact ⟨rfl, rfl⟩
  | cons t ts ih =>
    have hcontinued : ∀ {fs : List Frame}, .source ∈ fs →
        (continued room ending t ts fs).result = .ok (p, rest) → rest = [] ∧ ending = .finished p := by
      intro fs hfs hresult
      cases fs with
      | nil => cases hfs
      | cons f fs =>
        cases f with
        | quote =>
          have hfs' : .source ∈ .filledQuote :: fs := by simpa using hfs
          exact ih hfs' hresult
        | _ => exact ih hfs hresult
    have htail : ∀ {f : Frame} {fs : List Frame} {x}, f.close? t = some x → .source ∈ f :: fs →
        .source ∈ fs := by
      intro f fs x hclose hmem
      rcases List.mem_cons.mp hmem with rfl | hmem
      · cases hclose
      · exact hmem
    have hturn := turn_of_result_eq_ok hresult
    generalize object room ending frames position (t :: ts) = r at hresult hturn
    cases hturn with
    | close hclose => exact hcontinued (htail hclose hsource) hresult
    | clause hclose => exact ih (List.mem_cons_of_mem _ (htail hclose hsource)) hresult
    | leaf => exact hcontinued hsource hresult
    | opening => exact ih (List.mem_cons_of_mem _ hsource) hresult

end Reading

namespace Script

open Reading

variable {room : Nat} {source : String}

theorem exists_writes_of_body (h : (body room source).result = .ok ()) :
    ∃ ts, Writes source room ts := by
  obtain ⟨s, hs⟩ := exists_takeAll_body room source
  cases hscan : Token.scan source with
  | mk tokens ending =>
    simp only [body, hscan] at h hs
    cases hresult : (Reading.object room ending [.source] 0 tokens).result with
    | error e =>
      simp only [after, hresult] at h
      cases h
    | ok x =>
      obtain ⟨p, rest⟩ := x
      obtain ⟨rfl, rfl⟩ := rest_eq_nil_of_source tokens (by simp) hresult
      have hlexed := Token.isLexed_of_scan hscan
      obtain ⟨used, hused, hcloses⟩ := traces room _ hlexed p [] s [.source] 0 [[]] rfl hresult hs
      obtain ⟨more, hmore, hnesting, -⟩ := ends_of_closes (by decide) hcloses
      rw [List.append_nil] at hused
      refine ⟨more, used.map Token.text, ?_, hmore, hnesting⟩
      rw [Token.words?, hscan, hused]

/-- A text that is read as one object is built to the end. -/
theorem exists_finished_of_object {s : Site}
    (hs : (Site.building []).takeAll (object room source).steps = some s)
    (h : (object room source).result = .ok ()) : ∃ t, s = .finished t := by
  cases hscan : Token.scan source with
  | mk tokens ending =>
    simp only [object, hscan] at h hs
    cases hresult : (Reading.object room ending [] 0 tokens).result with
    | error e =>
      rw [hresult] at h
      cases h
    | ok x =>
      obtain ⟨p, rest⟩ := x
      have hlexed := Token.isLexed_of_scan hscan
      obtain ⟨used, -, us, vs, t, -, -, -, hends⟩ := traces room _ hlexed p rest s [] 0 [] rfl hresult hs
      exact ⟨t, hends.2⟩

end Script
end RpnMachine
