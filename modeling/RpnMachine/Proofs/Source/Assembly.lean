import RpnMachine.Proofs.Object.Tree
import RpnMachine.Source.Script

/-! The trees that the steps of a reading build. Whatever the source text says, its steps can be
taken: each structure that ends was opened before, and nothing follows the finished object. -/
namespace RpnMachine

def Tree.ofRecipe? : Recipe → Option Tree
  | .integer negative magnitude => some (.integer negative magnitude)
  | .decimal bits => some (.decimal bits)
  | .text s => some (.text s)
  | .symbol s => some (.symbol s)
  | .command c => some (.command c)
  | .sized _ _ => none

theorem Tree.recipe_of_ofRecipe? {r : Recipe} {t : Tree} (h : ofRecipe? r = some t) :
    t.recipe = r := by
  cases r <;> cases h <;> rfl

inductive Site where
  /-- The children of each open structure so far, the innermost first. -/
  | building (forest : List (List Tree))
  | finished (t : Tree)

namespace Site

/-- A finished object becomes the last child of the structure around it, or is the result. -/
def add (t : Tree) : List (List Tree) → Site
  | [] => finished t
  | ts :: forest => building ((ts ++ [t]) :: forest)

def take : Site → Step → Option Site
  | building forest, .make r _ => (Tree.ofRecipe? r).map (add · forest)
  | building forest, .enter => some (building ([] :: forest))
  | building (ts :: forest), .wrap c _ => some (add (.composite c ts) forest)
  | _, _ => none

def takeAll (s : Site) (steps : List Step) : Option Site := steps.foldlM take s

variable {s s' : Site}

@[simp] theorem takeAll_nil (s : Site) : s.takeAll [] = some s := rfl

theorem takeAll_append {xs : List Step} (h : s.takeAll xs = some s') (ys : List Step) :
    s.takeAll (xs ++ ys) = s'.takeAll ys := by
  rw [takeAll] at h
  rw [takeAll, List.foldlM_append, h]
  rfl

theorem takeAll_finished {t : Tree} {steps : List Step} (h : (finished t).takeAll steps = some s) :
    steps = [] ∧ s = finished t := by
  cases steps with
  | nil => exact ⟨rfl, (Option.some_inj.mp h).symm⟩
  | cons step steps => cases step <;> cases h

end Site

/-- How many structures a frame keeps open: a clause and the control structure around it count as
one each. -/
def Frame.marks : Frame → Nat
  | .clause _ => 2
  | _ => 1

def Frame.depth (frames : List Frame) : Nat := (frames.map Frame.marks).sum

@[simp] theorem Frame.depth_nil : Frame.depth [] = 0 := rfl

@[simp] theorem Frame.depth_cons (f : Frame) (frames : List Frame) :
    Frame.depth (f :: frames) = f.marks + Frame.depth frames := rfl

namespace Start

theorem ofLiteral_ne_opening (token : String) (l : Number.Literal) {n : Nat} {f : Frame} :
    ofLiteral token l ≠ .opening n f := by
  rw [ofLiteral]
  split_ifs
  · simp
  · rw [ofFloat]
    split_ifs <;> simp

theorem ofRecipe?_of_ofLiteral {token : String} {l : Number.Literal} {r : Recipe}
    (h : ofLiteral token l = .leaf r) : ∃ t, Tree.ofRecipe? r = some t := by
  rw [ofLiteral] at h
  split_ifs at h
  · cases h
    exact ⟨_, rfl⟩
  · rw [ofFloat] at h
    split_ifs at h
    cases h
    exact ⟨_, rfl⟩

theorem ofRecipe?_of_ofToken {token : String} {r : Recipe} (h : ofToken token = .leaf r) :
    ∃ t, Tree.ofRecipe? r = some t := by
  rw [ofToken] at h
  split at h
  · exact ofRecipe?_of_ofLiteral h
  split at h
  · cases h
    exact ⟨_, rfl⟩
  iterate 4
    split at h
    · cases h
  split at h
  · cases h
    exact ⟨_, rfl⟩
  split at h
  · cases h
    exact ⟨_, rfl⟩
  · cases h

/-- A frame is opened with as many levels as it keeps open. -/
theorem marks_of_ofToken {token : String} {n : Nat} {f : Frame} (h : ofToken token = .opening n f) :
    f.marks = n := by
  rw [ofToken] at h
  split at h
  · exact absurd h (ofLiteral_ne_opening _ _)
  split at h
  · cases h
  iterate 4
    split at h
    · cases h
      rfl
  split at h
  · cases h
  split at h
  · cases h
  · cases h

end Start

namespace Reading

/-- After an object: the end, or more for the structure around it. -/
def continued (room : Nat) (ending : Token.Ending) (t : Token) (ts : List Token) :
    List Frame → Reading Rest
  | [] => ⟨[], .ok (t.stop, ts)⟩
  | .quote :: fs => object room ending (.filledQuote :: fs) t.stop ts
  | fs => object room ending fs t.stop ts

theorem object_cons (room : Nat) (ending : Token.Ending) (frames : List Frame) (position : Nat)
    (t : Token) (ts : List Token) :
    object room ending frames position (t :: ts) =
      match frames.head?.bind (·.close? t) with
      | some (steps, none) => .after steps (continued room ending t ts frames.tail)
      | some (steps, some f) =>
        .after steps (object room ending (f :: frames.tail) t.stop ts)
      | none =>
        if frames.head? = some .filledQuote then .fail (.openQuote t.text) t.start
        else
          let direct := frames.head?.all (· = .quote)
          if room ≤ frames.countP Frame.isLevel then
            .fail .tooDeep (if direct then position else t.start)
          else
            match Start.ofToken t.text with
            | .leaf r => .after [.make r t.stop] (continued room ending t ts frames)
            | .opening levels f =>
              .after (.replicate levels .enter) (object room ending (f :: frames) t.stop ts)
            | .mistake cause => .fail cause t.start := by
  rw [object]
  rfl

/-- Steps of which each can be taken where the frames are open. -/
def Sound (r : Reading Rest) (s : Site) : Prop := ∃ s', s.takeAll r.steps = some s'

theorem sound_fail (cause : ReadError.Cause) (position : Nat) (s : Site) :
    (fail cause position).Sound s := ⟨s, rfl⟩

theorem Sound.after {r : Reading Rest} {s s' : Site} {steps : List Step}
    (hsteps : s.takeAll steps = some s') (h : r.Sound s') : (r.after steps).Sound s := by
  obtain ⟨s'', h⟩ := h
  exact ⟨s'', (Site.takeAll_append hsteps _).trans h⟩

theorem sound_continued {room : Nat} {ending : Token.Ending} {t : Token} {ts : List Token}
    (ih : ∀ frames position forest, forest.length = Frame.depth frames →
      (object room ending frames position ts).Sound (.building forest))
    {frames : List Frame} {forest : List (List Tree)} (hf : forest.length = Frame.depth frames)
    (u : Tree) : (continued room ending t ts frames).Sound (.add u forest) := by
  cases frames with
  | nil =>
    rw [List.eq_nil_of_length_eq_zero hf]
    exact ⟨_, rfl⟩
  | cons f frames =>
    obtain ⟨us, forest, rfl⟩ := List.exists_cons_of_length_pos (l := forest) (by
      rw [hf]
      cases f <;> simp [Frame.marks])
    cases f with
    | quote => exact ih (.filledQuote :: frames) _ _ hf
    | _ => exact ih _ _ _ hf

/-- The next clause is as open as the one before. -/
theorem takeAll_close_clause {f f' : Frame} {t : Token} {steps : List Step} {frames : List Frame}
    (h : f.close? t = some (steps, some f')) {forest : List (List Tree)}
    (hf : forest.length = Frame.depth (f :: frames)) :
    ∃ forest', (Site.building forest).takeAll steps = some (.building forest') ∧
      forest'.length = Frame.depth (f' :: frames) := by
  cases f with
  | clause c =>
    rw [Frame.close?] at h
    split at h
    · cases h
      match forest with
      | us :: vs :: forest => exact ⟨_, rfl, hf⟩
      | [_] | [] => simp [Frame.marks] at hf; omega
    · cases h
    · cases h
  | _ => simp [Frame.close?] at h

/-- A structure that is closed becomes an object for the frames around it. -/
theorem takeAll_close {f : Frame} {t : Token} {steps : List Step} {frames : List Frame}
    (h : f.close? t = some (steps, none)) {forest : List (List Tree)}
    (hf : forest.length = Frame.depth (f :: frames)) :
    ∃ u forest', (Site.building forest).takeAll steps = some (.add u forest') ∧
      forest'.length = Frame.depth frames := by
  cases f with
  | clause c =>
    rw [Frame.close?] at h
    split at h
    · cases h
    · cases h
      match forest with
      | us :: vs :: forest => exact ⟨_, forest, rfl, by simp [Frame.marks] at hf; omega⟩
      | [_] | [] => simp [Frame.marks] at hf; omega
    · cases h
  | list | program | filledQuote =>
    rw [Frame.close?] at h
    split_ifs at h
    cases h
    match forest with
    | us :: forest => exact ⟨_, forest, rfl, by simp [Frame.marks] at hf; omega⟩
    | [] => simp [Frame.marks] at hf; omega
  | quote | source => cases h

theorem takeAll_enter (n : Nat) (forest : List (List Tree)) :
    (Site.building forest).takeAll (.replicate n .enter) =
      some (.building (List.replicate n [] ++ forest)) := by
  induction n generalizing forest with
  | zero => rfl
  | succ n ih =>
    rw [List.replicate_succ' (n := n) (a := ([] : List Tree)), List.append_assoc]
    exact ih ([] :: forest)

theorem sound_object (room : Nat) (ending : Token.Ending) (frames : List Frame) (position : Nat)
    (ts : List Token) (forest : List (List Tree)) (hf : forest.length = Frame.depth frames) :
    (object room ending frames position ts).Sound (.building forest) := by
  induction ts generalizing frames position forest with
  | nil =>
    rw [object.eq_def]
    dsimp only
    split_ifs
    · exact sound_fail _ _ _
    split
    · exact sound_fail _ _ _
    split
    · exact sound_fail _ _ _
    · match forest with
      | us :: forest => exact ⟨_, rfl⟩
      | [] => simp [Frame.marks] at hf; omega
    · exact sound_fail _ _ _
  | cons t ts ih =>
    rw [object_cons]
    split
    · next steps hclose =>
      obtain ⟨f, hhead, hclose⟩ := Option.bind_eq_some_iff.mp hclose
      obtain ⟨frames, rfl⟩ := List.head?_eq_some_iff.mp hhead
      obtain ⟨u, forest', htake, hf'⟩ := takeAll_close hclose hf
      exact (sound_continued ih hf' u).after htake
    · next steps f' hclose =>
      obtain ⟨f, hhead, hclose⟩ := Option.bind_eq_some_iff.mp hclose
      obtain ⟨frames, rfl⟩ := List.head?_eq_some_iff.mp hhead
      obtain ⟨forest', htake, hf'⟩ := takeAll_close_clause hclose hf
      exact (ih _ _ _ hf').after htake
    · split
      · exact sound_fail _ _ _
      dsimp only
      split
      · exact sound_fail _ _ _
      split
      · next r hleaf =>
        obtain ⟨u, hu⟩ := Start.ofRecipe?_of_ofToken hleaf
        have htake : (Site.building forest).takeAll [.make r t.stop] = some (.add u forest) := by
          simp [Site.takeAll, Site.take, hu]
        exact (sound_continued ih hf u).after htake
      · next n f hopening =>
        refine (ih _ _ _ ?_).after (takeAll_enter n forest)
        rw [List.length_append, List.length_replicate, hf, Frame.depth_cons,
          Start.marks_of_ofToken hopening]
      · exact sound_fail _ _ _

end Reading

/-- Whatever a text says, its steps build something. -/
theorem Script.exists_takeAll_object (room : Nat) (source : String) :
    ∃ s, (Site.building []).takeAll (object room source).steps = some s :=
  Reading.sound_object room _ [] 0 _ [] rfl

theorem Script.exists_takeAll_body (room : Nat) (source : String) :
    ∃ s, (Site.building []).takeAll (body room source).steps = some s :=
  (Reading.sound_object room _ [.source] 0 _ [[]] rfl).after (Reading.takeAll_enter 1 [])

end RpnMachine
