import RpnMachine.Proofs.Run.WellFormed
import RpnMachine.Proofs.Source.Legible

/-! Reading undoes rendering: the text of an object is read as an object with the same bytes, in
either layout and in whatever state the machine is that reads it. -/
namespace RpnMachine.Machine

open Run

variable {m m' : Machine} {c : Nat} {v : Image} {p : Pointer}

/-- Both ways to render give the text of any tree with the bytes of the object. -/
theorem Represents.exec_render (hm : m.Represents c v) {t : Tree}
    (h : (exec (bytes p) m).1 = .ok t.encode) (ht : t.Complete) (flat : Bool) :
    (exec (render flat p) m).1 = .ok (t.rendering flat) ∧
      ((exec (renderThroughScratch flat p) m).1 = .ok (t.rendering flat) ∨
        ∃ e, (exec (renderThroughScratch flat p) m).1 = .error e ∧ e.lacksMemory) := by
  obtain ⟨q, hp, hfits, hencode⟩ := hm.exists_deref_of_bytes h
  have hcomplete : q.tree.Complete := ht.of_encode_eq hfits hencode
  have hfits' : t.Fits := by rwa [Tree.Fits, Tree.size, ← hencode]
  have hrendering : q.tree.rendering flat = t.rendering flat :=
    Tree.rendering_eq_of_encode_eq hfits' hencode
  constructor
  · obtain ⟨o, m₁, v₁, he, -, hpost, -⟩ := agree_draw (· ++ ·) flat hp "" m m hm hm
    have hrender : exec (render flat p) m = (o, m₁) := he
    rw [hrender]
    cases o with
    | ok s => rw [hpost.1, ← hrendering, Tree.rendering]
    | error e => exact absurd hcomplete.drawable hpost.1
  · obtain ⟨o, m₁, v₁, he, -, hpost, -⟩ := agree_renderThroughScratch le_rfl flat hp m m hm hm
    rw [he]
    cases o with
    | ok s => exact .inl (by rw [hpost.1.1, hrendering])
    | error e => exact .inr ⟨e, rfl, (hpost.1.resolve_right fun h => h.1 hcomplete.drawable).1⟩

theorem Represents.bytes_readObject (hm : m.Represents c v) {source : String} {ws : List String}
    {t : Tree} (hws : Token.words? source = some ws) (hderives : Derives ws (.object t))
    (hnesting : t.nesting ≤ m.room) {o : Except Failure Pointer}
    (hread : exec (readObject source) m = (o, m')) (hmemory : ∀ e, o = .error e → ¬e.lacksMemory) :
    ∃ p', o = .ok p' ∧ (exec (bytes p') m').1 = .ok t.encode := by
  obtain ⟨kept, free, hl⟩ := hm
  rw [room, hl.nesting] at hnesting
  obtain ⟨o', m₁, v', hexec, hm', hpost, -⟩ :=
    agree_readObject_of_derives le_rfl hws hderives hnesting m m hl.represents hl.represents
  rw [hread] at hexec
  cases hexec
  cases o with
  | ok p' =>
    obtain ⟨rfl, q, rfl, hcontent⟩ := hpost
    obtain ⟨kept', free', hl'⟩ := hm'
    have hderef := Image.deref_of_setting (Image.setting_eq_of_content hcontent) (v.deref_hold_self q)
    exact ⟨_, rfl, by rw [hl'.exec_bytes hderef]⟩
  | error e => exact absurd hpost.1 (hmemory e rfl)

/-- An object that can be written, with no more levels than can be read, has a text, and wherever
that is read with no level taken, an object with the same bytes comes out, unless memory is lacking.
-/
theorem bytes_readObject_render (hc : c < Word.bound Heap.slotSize) {actions : List Action}
    (h : Acts (ofCapacity c) actions m) {t : Tree} (hbytes : (exec (bytes p) m).1 = .ok t.encode)
    (ht : t.Legible) (hnesting : t.nesting ≤ maxNesting)
    (hdecimals : ∀ bits ∈ t.decimals, Number.ReadsBack bits) (flat : Bool) :
    ∃ s, (exec (render flat p) m).1 = .ok s ∧
      ((exec (renderThroughScratch flat p) m).1 = .ok s ∨
        ∃ e, (exec (renderThroughScratch flat p) m).1 = .error e ∧ e.lacksMemory) ∧
      ∀ c' actions' m' o m'', c' < Word.bound Heap.slotSize → Acts (ofCapacity c') actions' m' →
        m'.nesting = 0 → exec (readObject s) m' = (o, m'') → (∀ e, o = .error e → ¬e.lacksMemory) →
        ∃ p', o = .ok p' ∧ (exec (bytes p') m'').1 = .ok t.encode := by
  obtain ⟨ws, u, hws, hderives, hencode, hlevels⟩ := ht.exists_derives hdecimals flat
  obtain ⟨v, hm, -⟩ := h.exists_represents (represents_ofCapacity hc)
  obtain ⟨q, -, hfits, hq⟩ := hm.exists_deref_of_bytes hbytes
  have hcomplete : t.Complete := by
    have hfits : t.Fits := by rwa [Tree.Fits, Tree.size, ← hq]
    exact hderives.sound.complete.of_encode_eq hfits hencode.symm
  obtain ⟨hrender, hscratch⟩ := hm.exec_render hbytes hcomplete flat
  refine ⟨t.rendering flat, hrender, hscratch, ?_⟩
  intro c' actions' m' o m'' hc' h' hfresh hread hmemory
  obtain ⟨v', hm', -⟩ := h'.exists_represents (represents_ofCapacity hc')
  rw [← hencode]
  apply hm'.bytes_readObject hws hderives _ hread hmemory
  rw [hlevels, room, hfresh]
  exact hnesting

/-- A list with a quoted decimal, a loop, and a text that is a quote. -/
def menagerie : Tree :=
  .composite .list [.composite .quote [.decimal 0x3ff8000000000000],
    .composite (.control .startNext) [.composite .program []], .text "\""]

theorem legible_menagerie : menagerie.Legible := by
  apply Tree.Legible.list
  simp only [List.forall_mem_cons, List.not_mem_nil, false_imp_iff, implies_true, and_true]
  have hloop : (Tree.composite (.control .startNext) ([[]].map (.composite .program))).Legible :=
    .control rfl (by simp)
  exact ⟨.quote (.decimal (by decide +kernel)), hloop, .text _⟩

theorem readsBack_menagerie : ∀ bits ∈ menagerie.decimals, Number.ReadsBack bits := by
  intro bits hbits l hl
  obtain rfl : bits = 0x3ff8000000000000 := by
    simpa [menagerie, Tree.decimals, Tree.decimalsAll] using hbits
  have hparse : (Number.Literal.parse? (Number.decimalText 0x3ff8000000000000).toList).map
      (·.toFloat.toBits) = some 0x3ff8000000000000 := by decide +kernel
  rw [Number.Literal.parse?_eq_some_iff.mpr hl] at hparse
  exact Option.some_inj.mp hparse

/-- The list is read from its text in a machine of its own. -/
theorem bytes_readObject_menagerie : ∃ m m', Acts (ofCapacity 64) [.make menagerie.recipe] m ∧
    exec (readObject "\x7b '1.5' START\nNEXT \"\"\"\" \x7d") (ofCapacity 64) = (.ok ⟨0⟩, m') ∧
    (exec (bytes ⟨0⟩) m').1 = (exec (bytes ⟨0⟩) m).1 := by
  have hacts : Acts (ofCapacity 64) [.make menagerie.recipe]
      ((ofCapacity 64).act (.make menagerie.recipe)) :=
    .cons ⟨by decide, menagerie, menagerie.encode_eq⟩ (.nil _)
  have hbytes : (exec (bytes ⟨0⟩) ((ofCapacity 64).act (.make menagerie.recipe))).1 =
      .ok menagerie.encode := by decide +kernel
  have hrender : (exec (render false ⟨0⟩) ((ofCapacity 64).act (.make menagerie.recipe))).1 =
      .ok "\x7b '1.5' START\nNEXT \"\"\"\" \x7d" := by decide +kernel
  have hread :
      (exec (readObject "\x7b '1.5' START\nNEXT \"\"\"\" \x7d") (ofCapacity 64)).1 = .ok ⟨0⟩ := by
    decide +kernel
  obtain ⟨s, hs, -, hback⟩ := bytes_readObject_render (by decide) hacts hbytes legible_menagerie
    (by decide +kernel) readsBack_menagerie false
  rw [hrender, Except.ok.injEq] at hs
  subst hs
  obtain ⟨p, hp, hbytes'⟩ := hback 64 [] (ofCapacity 64) _ _ (by decide) (.nil _) rfl
    (Prod.ext hread rfl) (fun e he => nomatch he)
  cases hp
  exact ⟨_, _, hacts, Prod.ext hread rfl, hbytes'.trans hbytes.symm⟩

end RpnMachine.Machine
