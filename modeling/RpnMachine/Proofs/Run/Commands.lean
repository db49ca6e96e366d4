import RpnMachine.Proofs.Run.Commands.Lists
import RpnMachine.Proofs.Run.Commands.Names
import RpnMachine.Proofs.Run.Commands.Texts
import RpnMachine.Proofs.Run.Commands.Values

/-! What the commands do to the stack and the directory. Every command but EVAL changes nothing that
can be seen if it fails, also after it has pushed something or written to the scratchpad.

Every command but MEM does the same on two machines that hold the same. MEM tells the free memory,
so it does so on machines of one size. -/
namespace RpnMachine

namespace Command

open Run

variable {c₁ c₂ : Nat} {v : Image}

/-- How many arguments a command has that puts a single number or text in their place. -/
def operands? : Command → Option Nat
  | depth | mem => some 0
  | neg | abs | not | size | toText => some 1
  | add | sub | mul | div | eq | ne | lt | gt | le | ge | and | or => some 2
  | dup | drop | swap | copyOver | rot | clear | pick | dropN | dup2 | drop2 | eval | sto | rcl
  | purge | toList | fromList | gc => none

theorem exchanges_run (hc : c₁ ≤ c₂) (execute : Pointer → Run Unit) {c : Command} {n : Nat}
    (hn : c.operands? = some n) (hmem : c = .mem → c₁ = c₂) :
    Exchanges c₁ c₂ v (c.run execute) n LoneAtom := by
  cases c with
  | depth =>
    cases hn
    exact exchanges_depth hc
  | mem =>
    cases hn
    obtain rfl := hmem rfl
    exact exchanges_mem c₁
  | neg =>
    cases hn
    exact exchanges_unary hc fun _ _ hx h => Number.isExpected_of_neg hx h
  | abs =>
    cases hn
    exact exchanges_unary hc fun _ _ hx h => Number.isExpected_of_abs hx h
  | not =>
    cases hn
    exact exchanges_negate hc
  | size =>
    cases hn
    exact exchanges_measure hc
  | toText =>
    cases hn
    exact exchanges_describe hc
  | add | sub | mul =>
    cases hn
    exact exchanges_binary hc fun _ _ _ _ h => by cases h
  | div =>
    cases hn
    exact exchanges_binary hc fun _ _ _ hx h => Number.isExpected_of_div hx h
  | eq =>
    cases hn
    exact exchanges_compareWith hc fun _ _ _ _ _ => reads_same
  | ne =>
    cases hn
    apply exchanges_compareWith hc
    intro v p q p' q' hp hp'
    exact (reads_same hp hp').bind fun _ _ => .pure trivial
  | lt | gt | le | ge =>
    cases hn
    exact exchanges_ordered hc _
  | and | or =>
    cases hn
    exact exchanges_logic hc _
  | _ => cases hn

/-- Only EVAL runs an object. -/
theorem run_eq (execute₁ execute₂ : Pointer → Run Unit) {c : Command} (heval : c ≠ .eval) :
    c.run execute₁ = c.run execute₂ := by
  cases c with
  | eval => exact absurd rfl heval
  | _ => rfl

/-- What a command does, unless it runs an object: it gets hold of objects, or it fails and changes
nothing that can be seen. -/
theorem reworks_run (hc : c₁ ≤ c₂) (execute₁ execute₂ : Pointer → Run Unit) {c : Command}
    (heval : c ≠ .eval) (hmem : c = .mem → c₁ = c₂) :
    Agree c₁ c₂ v (c.run execute₁) (c.run execute₂) (fun _ w => v.Reworks w) (Spares v) := by
  rw [run_eq execute₁ execute₂ heval]
  have hcopied : ∀ (level : Nat) (new : List Place),
      (∃ hl : level < v.stack.length, new = [v.stack[level]]) → ∀ q ∈ new, v.Provides q.tree := by
    rintro level _ ⟨hl, rfl⟩
    simpa using Image.Provides.stack (List.getElem_mem hl)
  have hdropped : ∀ new : List Place, new = [] → ∀ q ∈ new, v.Provides q.tree := by
    rintro _ rfl q hq
    cases hq
  have hrolled : ∀ (n : Nat) (new : List Place), new.Perm (v.stack.take n) →
      ∀ q ∈ new, v.Provides q.tree :=
    fun n new hnew q hq => .stack (List.mem_of_mem_take (hnew.mem_iff.mp hq))
  cases hoperands : c.operands? with
  | some n => exact (exchanges_run hc execute₂ hoperands hmem).reworks fun _ h => h.provides
  | none =>
    cases c with
    | dup => exact (exchanges_copy hc (by decide)).reworks (hcopied _)
    | drop => exact (exchanges_discard 1).reworks hdropped
    | swap => exact (exchanges_roll 1).reworks (hrolled 2)
    | copyOver => exact (exchanges_copy hc (by decide)).reworks (hcopied _)
    | rot => exact (exchanges_roll 2).reworks (hrolled 3)
    | clear => exact exchanges_clear.reworks hdropped
    | pick => exact exchanges_pick.reworks fun new ⟨n, hn, _, hnew⟩ => hcopied n new ⟨hn, hnew⟩
    | dropN =>
      apply agree_dropN.mono
      · intro _ w hw
        obtain ⟨n, -, hreplaces⟩ := hw
        exact hreplaces.reworks (hdropped [] rfl)
      · exact fun _ _ h => h
    | dup2 =>
      apply (exchanges_dup2 hc).reworks
      intro new hnew q hq
      rw [hnew.2] at hq
      exact .stack (List.mem_of_mem_take hq)
    | drop2 => exact (exchanges_discard 2).reworks hdropped
    | eval => exact absurd rfl heval
    | sto =>
      apply (agree_sto hc).mono
      · intro _ w hw
        obtain ⟨hn, e, htree, hcontent⟩ := hw
        apply Image.Reworks.of_edit hcontent
        intro e' he'
        rcases List.mem_append.mp he' with he' | he'
        · exact .named (List.mem_of_mem_filter he')
        · rw [List.mem_singleton.mp he', htree]
          exact .stack (List.getElem_mem hn)
      · exact fun _ _ h => h
    | rcl =>
      apply exchanges_rcl.reworks
      intro new hnew r hr
      obtain ⟨e, he, q, hq, rfl⟩ := hnew
      rw [List.mem_singleton.mp hr, hq]
      exact .named he
    | purge =>
      apply (agree_purgeName hc).mono
      · intro _ w hw
        obtain ⟨-, name, hcontent⟩ := hw
        exact .of_edit hcontent fun e he => .named (List.mem_of_mem_filter he)
      · exact fun _ _ h => h
    | toList =>
      apply (agree_toList hc).mono
      · intro _ w hw
        obtain ⟨n, q, -, hq, hreplaces⟩ := hw
        apply hreplaces.reworks
        intro r hr
        rw [List.mem_singleton.mp hr, hq]
        exact v.provides_below n
      · exact fun _ _ h => h
    | fromList =>
      apply (exchanges_fromList hc).reworks
      intro new hnew q hq
      obtain ⟨hn, count, -, hcount, rfl⟩ := hnew
      rcases List.mem_cons.mp hq with rfl | hq
      · exact .atom (hcount ▸ trivial)
      · exact .element (List.getElem_mem hn) (Place.tree_mem_children (List.mem_reverse.mp hq))
    | gc => exact agree_collect.mono (fun _ _ h => .of_content (h ▸ rfl)) fun _ _ h => h.elim
    | _ => cases hoperands

/-- A command that fails changes nothing that can be seen, unless it runs an object. -/
theorem sparing_run (hc : c₁ ≤ c₂) (execute₁ execute₂ : Pointer → Run Unit) {c : Command}
    (heval : c ≠ .eval) (hmem : c = .mem → c₁ = c₂) :
    Agree c₁ c₂ v (c.run execute₁) (c.run execute₂) (fun _ w => w.After v) (Spares v) :=
  (reworks_run hc execute₁ execute₂ heval hmem).mono (fun _ _ h => h.after) fun _ _ h => h

/-- The commands leave things in order, if what EVAL runs does so. -/
theorem tame_run (hc : c₁ ≤ c₂) {execute₁ execute₂ : Pointer → Run Unit}
    (hexecute : ∀ w p q, Image.deref w p = some q → Tame c₁ c₂ w (execute₁ p) (execute₂ p))
    (c : Command) (hmem : c = .mem → c₁ = c₂) :
    Tame c₁ c₂ v (c.run execute₁) (c.run execute₂) := by
  by_cases heval : c = .eval
  · subst heval
    apply Tame.acquiring supplies_pop
    intro q w hw
    exact hexecute w _ q (Image.deref_of_setting hw (v.deref_hold_self q))
  · exact .of_sparing (sparing_run hc execute₁ execute₂ heval hmem)

end Command

end RpnMachine
