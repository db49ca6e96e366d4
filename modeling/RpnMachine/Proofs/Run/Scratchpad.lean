import RpnMachine.Proofs.Run.Steady

/-! What is written to the scratchpad above a mark, and what becomes of it. -/
namespace RpnMachine

def Image.scribble (v : Image) (bytes : List UInt8) : Image :=
  { v with scratch := v.scratch ++ bytes }

namespace Image

variable {v : Image}

@[simp] theorem scribble_nil (v : Image) : v.scribble [] = v := by
  simp [scribble]

@[simp] theorem scribble_scribble (v : Image) (xs ys : List UInt8) :
    (v.scribble xs).scribble ys = v.scribble (xs ++ ys) := by
  simp [scribble]

theorem length_scratch_le_scribble (v : Image) (xs : List UInt8) :
    v.scratch.length ≤ (v.scribble xs).scratch.length := by
  simp [scribble]

/-- Above what was there, there is what was written. -/
theorem drop_scratch_scribble (v : Image) (xs : List UInt8) :
    (v.scribble xs).scratch.drop v.scratch.length = xs := List.drop_left

@[simp] theorem used_scribble (v : Image) (xs : List UInt8) :
    (v.scribble xs).used = v.used + xs.length := by
  simp only [used, live, places, permanent, scribble, List.length_append]
  omega

/-- More pointers into what is in use do not take more bytes. -/
theorem used_holdAll {qs : List Place} (hq : ∀ q ∈ qs, ∃ r ∈ v.places, r.item = q.item) :
    (v.holdAll qs).used = v.used := by
  have hplaces : (v.holdAll qs).places = v.places ++ qs := by
    simp [places, holdAll, List.filterMap_map]
  have hlive : (v.holdAll qs).live = v.live := by
    refine List.filter_congr fun i _ => ?_
    rw [hplaces, Item.isHeld, Item.isHeld, List.any_append, Bool.or_eq_left_iff_imp, List.any_eq_true]
    rintro ⟨q, hmem, hid⟩
    obtain ⟨r, hr, hitem⟩ := hq q hmem
    exact List.any_eq_true.mpr ⟨r, hr, by rwa [hitem]⟩
  rw [used, hlive]
  rfl

theorem Valid.scribble (hv : v.Valid) (xs : List UInt8) : (v.scribble xs).Valid :=
  hv.withRest _ _ _ _

theorem releaseAll_scribble (hv : v.Valid) (qs : List Place) (xs : List UInt8) :
    ((v.holdAll qs).scribble xs).releaseAll (pointers v.slots.length qs) = v.scribble xs := by
  have hslots : ((v.holdAll qs).scribble xs).slots = pending v.slots 0 qs := by
    cases qs <;> simp [holdAll, pending, scribble]
  exact releaseAll_pending hv.trimmed 0 qs hslots

end Image

namespace Run

variable {c₁ c₂ : Nat} {v : Image}

/-- What was written to the scratchpad is wiped out again. -/
theorem yields_scratchRelease_scribble (c : Nat) (xs : List UInt8) :
    Yields c (v.scribble xs) (scratchRelease v.scratch.length) (.ok ()) v := by
  have := yields_scratchRelease (c := c) (v.length_scratch_le_scribble xs)
  simpa [Image.scribble] using this

section

variable {xs : List UInt8} {k : Kind} {t : Tree}

theorem yields_makeFromScratch_written (ht : t.encode = Encoding.mark k ++ Encoding.sized xs)
    {c : Nat} (hn : (v.scribble xs).used + t.size ≤ c) :
    Yields c (v.scribble xs) (makeFromScratch k v.scratch.length) (.ok ⟨v.slots.length⟩)
      (v.make t) := by
  rw [← v.drop_scratch_scribble xs] at ht
  have := yields_makeFromScratch (v.length_scratch_le_scribble xs) ht hn
  simpa [Image.scribble, Image.make, Image.add, Image.newest, Image.hold] using this

theorem agree_makeFromScratch_written (hc : c₁ ≤ c₂)
    (ht : t.encode = Encoding.mark k ++ Encoding.sized xs) :
    Agree c₁ c₂ (v.scribble xs) (makeFromScratch k v.scratch.length)
      (makeFromScratch k v.scratch.length) (fun p v' => p = ⟨v.slots.length⟩ ∧ v' = v.make t)
      fun e v' => e.lacksMemory ∧ v' = v := by
  rw [← v.drop_scratch_scribble xs] at ht
  apply (agree_makeFromScratch hc (v.length_scratch_le_scribble xs) ht).mono
  · intro p w hw
    refine ⟨hw.1, ?_⟩
    rw [hw.2]
    simp [Image.scribble, Image.make, Image.add, Image.newest, Image.hold]
  · intro e w hw
    refine ⟨hw.1.lacksMemory, ?_⟩
    rw [hw.2]
    simp [Image.scribble]

end

end Run
end RpnMachine
