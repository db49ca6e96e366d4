import RpnMachine.Proofs.Run.Evaluation
import RpnMachine.Proofs.Run.Sparing

/-! Command lines do the same on machines of any size, as long as the smaller one does not run out
of memory. What can be seen of a machine are the objects on its stack and those with a name. -/
namespace RpnMachine

def Machine.session (commands : Repertoire) (passes : Nat) (m : Machine) :
    List String → List (Except Failure Unit × Machine)
  | [] => []
  | source :: sources =>
    let done := Run.exec (Run.line passes source commands) m
    done :: session commands passes done.2 sources

def Run.lacksMemory : Except Failure Unit → Bool
  | .ok _ => false
  | .error e => e.lacksMemory

def Machine.stackBytes (m : Machine) : List (Option (List UInt8)) :=
  m.heap.stack.map m.heap.memory.object?

/-- The names, in the order in which they were stored, and the bytes of their objects. -/
def Machine.directoryBytes (m : Machine) : Option (List (List UInt8 × Option (List UInt8))) :=
  m.heap.directory.all?.map fun bindings =>
    bindings.map fun b => (b.name, m.heap.memory.object? b.object)

theorem Entry.map_object?_bindings {memory : Memory} {es : List Entry}
    (hf : ∀ e ∈ es, e.object.tree.Fits) {start : Nat} {rest : List UInt8}
    (h : memory.toList.drop start = Item.bytes (es.flatMap Entry.items) ++ rest) :
    (bindings start es).map (fun b => (b.name, memory.object? b.object)) =
      es.map fun e => (Text.utf8 e.name, some e.object.tree.encode) := by
  induction es generalizing start with
  | nil => rfl
  | cons e es ih =>
    have hobject : memory.toList.drop (start + e.label.size) = e.object.tree.encode ++
        (Item.bytes (es.flatMap Entry.items) ++ rest) := by
      rw [← List.drop_drop, h, List.flatMap_cons, items, List.cons_append, Item.bytes_cons,
        List.append_assoc]
      exact List.drop_left.trans (by simp)
    have hnext : memory.toList.drop (start + e.size) =
        Item.bytes (es.flatMap Entry.items) ++ rest := by
      rw [size, ← Nat.add_assoc, ← List.drop_drop, hobject]
      exact List.drop_left
    rw [bindings, List.map_cons, List.map_cons, ih (fun e he => hf e (List.mem_cons_of_mem _ he)) hnext]
    have := Memory.object?_eq (hf e (by simp)) (hobject ▸ List.prefix_append _ _)
    rw [binding, this]

namespace Machine.Lays

variable {m : Machine} {c : Nat} {v : Image} {kept : List Item} {free : List UInt8}

theorem stackBytes_eq (h : m.Lays c v kept free) :
    m.stackBytes = v.stack.map fun q => some q.tree.encode := by
  rw [stackBytes, h.stack_eq, List.map_map]
  refine List.map_congr_left fun q hq => ?_
  have hq := List.mem_append_left (v.slots.filterMap id) hq
  exact Memory.object?_eq (h.fits hq) (h.encode_at_position hq)

/-- The permanent region tells the directory by itself. -/
theorem directoryBytes_eq_of_permanent (h : m.Lays c v kept free) {m' : Machine}
    (hp : m'.heap.permanent = m.heap.permanent) : m'.directoryBytes =
    some (v.directory.map fun e => (Text.utf8 e.name, some e.object.tree.encode)) := by
  have hbytes : m'.heap.permanent = Item.bytes v.permanent :=
    hp.trans h.arranged.parts.permanent_eq
  obtain ⟨rest, hrest⟩ : m'.heap.permanent <+: m'.heap.memory.toList := by
    rw [Heap.permanent, Memory.slice_eq]
    exact List.take_prefix _ _
  rw [directoryBytes, Heap.directory, hp, ← Heap.directory, h.directory_eq]
  refine congrArg some (Entry.map_object?_bindings (fun e he => ?_) (hbytes ▸ hrest).symm)
  exact h.arranged.fits_of_mem (List.mem_append_left _ (List.mem_flatMap.mpr ⟨e, he, by
    simp [Entry.items]⟩))

theorem directoryBytes_eq (h : m.Lays c v kept free) : m.directoryBytes =
    some (v.directory.map fun e => (Text.utf8 e.name, some e.object.tree.encode)) :=
  h.directoryBytes_eq_of_permanent rfl

end Machine.Lays

theorem Machine.Represents.stackBytes_eq {m : Machine} {c : Nat} {v : Image}
    (h : m.Represents c v) : m.stackBytes = v.stack.map fun q => some q.tree.encode := by
  obtain ⟨kept, free, h⟩ := h
  exact h.stackBytes_eq

theorem Machine.Represents.stackBytes_eq_trees {m : Machine} {c : Nat} {v : Image}
    (h : m.Represents c v) : m.stackBytes = (v.stack.map Place.tree).map fun t => some t.encode := by
  rw [h.stackBytes_eq, List.map_map]
  rfl

theorem Machine.Represents.exists_objects {m : Machine} {c : Nat} {v : Image}
    (h : m.Represents c v) : ∃ objects : List (List UInt8), m.stackBytes = objects.map some := by
  refine ⟨v.stack.map fun q => q.tree.encode, ?_⟩
  rw [h.stackBytes_eq, List.map_map]
  rfl

namespace Run

/-- MEM is the only command that tells machines of different sizes apart. -/
theorem attuned_sparing {c₁ c₂ : Nat} (hc : c₁ ≤ c₂) :
    Repertoire.Attuned c₁ c₂ .sparing Command.run := by
  intro execute₁ execute₂ hexecute v c
  rw [Repertoire.sparing]
  split_ifs with hmem
  · exact Agree.of_shortage (e := .exhausted) (fun m hm => ⟨m, rfl, hm⟩) rfl
      ⟨.refl v, .of_isExpected rfl⟩
  · exact c.tame_run hc hexecute fun h => absurd h hmem

end Run

namespace Machine

open Run

variable {c c₁ c₂ passes : Nat} {v : Image} {m m₁ m₂ : Machine}

/-- A session that gets to its end without MEM is the one with MEM. -/
theorem Represents.session_sparing (hm : m.Represents c v) {sources : List String}
    (h : ∀ done ∈ m.session .sparing passes sources, done.1 ≠ .error .exhausted) :
    m.session .sparing passes sources = m.session Command.run passes sources := by
  induction sources generalizing m v with
  | nil => rfl
  | cons source sources ih =>
    obtain ⟨o, m', v', he, hm', hpost, -⟩ :=
      tame_line le_rfl (attuned_sparing le_rfl) passes source m m hm hm
    rw [session, he] at h
    have hrest := ih hm' fun done hdone => h done (List.mem_cons_of_mem _ hdone)
    -- The memory is not to blame, so the line was not stopped.
    have hline : ¬isStop o := by
      cases o with
      | ok a => simp [isStop]
      | error e =>
        have hends : e ≠ .exhausted := by
          rintro rfl
          exact h (_, m') (by simp) rfl
        exact Failure.not_isStop hends hpost.2.ne_corrupt
    have hsame := (shadows_line passes source m).resolve_left (by rwa [he])
    rw [session, session, ← hsame, he, hrest]

/-- Two machines that hold the same have the same session. -/
theorem Represents.forall₂_session (hc : c₁ ≤ c₂) (hm₁ : m₁.Represents c₁ v)
    (hm₂ : m₂.Represents c₂ v) {sources : List String}
    (h : ∀ done ∈ m₁.session .sparing passes sources, ∀ e, done.1 = .error e → ¬e.isShortage) :
    List.Forall₂ (fun done₁ done₂ => done₁.1 = done₂.1 ∧
        (∀ e, done₁.1 = .error e → ¬e.isShortage) ∧
        ∃ v, Represents done₁.2 c₁ v ∧ Represents done₂.2 c₂ v)
      (m₁.session .sparing passes sources) (m₂.session Command.run passes sources) := by
  induction sources generalizing m₁ m₂ v with
  | nil => exact .nil
  | cons source sources ih =>
    obtain ⟨o, m₁', v', he₁, hm₁', -, hagree⟩ :=
      tame_line hc (attuned_sparing hc) passes source m₁ m₂ hm₁ hm₂
    rw [session, he₁] at h
    have hline := h (o, m₁') (by simp)
    obtain ⟨m₂', he₂, hm₂'⟩ := hagree hline
    rw [session, session, he₁, he₂]
    refine .cons ⟨rfl, hline, v', hm₁', hm₂'⟩ (ih hm₁' hm₂' fun done hdone => h done ?_)
    exact List.mem_cons_of_mem _ hdone

/-- If a session that does without MEM ends on a machine without lack of memory, it is the same on
any larger machine: every line has the same outcome, and leaves the same objects on the stack and
under the same names. -/
theorem session_eq_of_le (hc : c₁ ≤ c₂) (hcapacity : c₂ < Word.bound Heap.slotSize)
    (sources : List String)
    (hends : ∀ done ∈ (ofCapacity c₁).session .sparing passes sources, done.1 ≠ .error .exhausted)
    (hmemory : ∀ done ∈ (ofCapacity c₁).session Command.run passes sources, ¬lacksMemory done.1) :
    List.Forall₂ (fun done₁ done₂ => done₁.1 = done₂.1 ∧ ¬lacksMemory done₂.1 ∧
        done₁.2.stackBytes = done₂.2.stackBytes ∧ done₁.2.directoryBytes = done₂.2.directoryBytes)
      ((ofCapacity c₁).session Command.run passes sources)
      ((ofCapacity c₂).session Command.run passes sources) := by
  have hrep := represents_ofCapacity (hc.trans_lt hcapacity)
  have hsession := hrep.session_sparing hends
  have hshortage : ∀ done ∈ (ofCapacity c₁).session .sparing passes sources, ∀ e,
      done.1 = .error e → ¬e.isShortage := by
    intro done hdone e he
    have hlacks := hmemory done (hsession ▸ hdone)
    rw [he] at hlacks
    cases e with
    | error e => exact hlacks
    | corrupt => simp [Failure.isShortage]
    | exhausted => exact absurd he (hends done hdone)
  have h := hrep.forall₂_session hc (represents_ofCapacity hcapacity) hshortage
  rw [hsession] at h
  refine h.imp ?_
  rintro done₁ done₂ ⟨heq, hno, v, ⟨kept₁, free₁, h₁⟩, kept₂, free₂, h₂⟩
  refine ⟨heq, ?_, ?_, ?_⟩
  · rw [← heq]
    cases ho : done₁.1 with
    | ok a => simp [lacksMemory]
    | error e => exact fun hlacks => hno e ho (Failure.isShortage_of_lacksMemory hlacks)
  · rw [h₁.stackBytes_eq, h₂.stackBytes_eq]
  · rw [h₁.directoryBytes_eq, h₂.directoryBytes_eq]

/-- A line that fails, and one in the middle of which the smaller machine has to collect. -/
theorem session_eq_drop_dup : List.Forall₂ (fun done₁ done₂ => done₁.1 = done₂.1 ∧
      ¬lacksMemory done₂.1 ∧
      done₁.2.stackBytes = done₂.2.stackBytes ∧ done₁.2.directoryBytes = done₂.2.directoryBytes)
    ((ofCapacity 16).session Command.run 1 ["DROP", "1 DUP"])
    ((ofCapacity 64).session Command.run 1 ["DROP", "1 DUP"]) :=
  session_eq_of_le (by decide) (by decide) _ (by decide +kernel) (by decide +kernel)

end Machine
end RpnMachine
