import RpnMachine.Proofs.Object.Pieces

/-! Objects that have what their kinds ask for, and so do all objects inside them. -/
namespace RpnMachine.Tree

/-- A symbol has a name, a quote holds something, and a control structure has as many clauses as it
has words for. -/
def Shaped : Tree → Prop
  | symbol s => s ≠ ""
  | composite .quote ts => ts ≠ []
  | composite (.control c) ts => c.words.length = ts.length + 1
  | _ => True

def Sound (t : Tree) : Prop := ∀ offset s, t.At offset s → s.Shaped

variable {t s : Tree}

theorem Sound.shaped (h : t.Sound) : t.Shaped := h 0 t (.self t)

theorem Sound.of_mem_children (h : t.Sound) (hs : s ∈ t.children) : s.Sound := by
  intro offset u hu
  obtain ⟨i, hi⟩ := hu.of_mem_children hs
  exact h i u hi

/-- What is inside an object is the object itself or inside one of its children. -/
theorem At.eq_or_mem_children {offset : Nat} (h : t.At offset s) :
    s = t ∨ ∃ u ∈ t.children, ∃ i, u.At i s := by
  cases h with
  | self => exact .inl rfl
  | child c before after h => exact .inr ⟨_, by simp [children], _, h⟩

theorem sound_of_children (hshaped : t.Shaped) (h : ∀ s ∈ t.children, s.Sound) : t.Sound := by
  intro offset s hs
  rcases hs.eq_or_mem_children with rfl | ⟨u, hu, i, hi⟩
  · exact hshaped
  · exact h u hu i s hi

theorem Sound.complete (h : t.Sound) : t.Complete := fun offset _ _ hat => h offset _ hat

theorem Sound.length_children (h : t.Sound) {c : Control} (hc : t.kind = .composite (.control c)) :
    c.words.length = t.children.length + 1 := by
  have hshaped := h.shaped
  rw [eq_composite_of_kind hc] at hshaped
  exact hshaped

theorem Sound.children_ne_nil (h : t.Sound) (hq : t.kind = .composite .quote) :
    t.children ≠ [] := by
  have hshaped := h.shaped
  rw [eq_composite_of_kind hq] at hshaped
  exact hshaped

end RpnMachine.Tree
