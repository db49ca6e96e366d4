import RpnMachine.Proofs.Run.Content

/-! What a command can make of a stack and a directory: it gets hold of numbers and texts, of what is
on the stack and inside of that, and of named objects. -/
namespace RpnMachine

namespace Tree

def IsAtom : Tree → Prop
  | integer _ _ | decimal _ | text _ => True
  | _ => False

theorem IsAtom.children_eq {t : Tree} (h : t.IsAtom) : t.children = [] := by
  cases t with
  | integer | decimal | text => rfl
  | _ => exact h.elim

theorem IsAtom.sound {t : Tree} (h : t.IsAtom) : t.Sound := by
  apply sound_of_children
  · cases t with
    | integer | decimal | text => trivial
    | _ => exact h.elim
  · rw [h.children_eq]
    exact fun _ hs => nomatch hs

theorem sound_list {ts : List Tree} (h : ∀ t ∈ ts, t.Sound) : (composite .list ts).Sound :=
  sound_of_children trivial h

theorem Sound.ne_empty {t : Tree} (h : t.Sound) {s : String} (hs : t.value = .symbol s) :
    s ≠ "" := by
  cases t with
  | symbol s' =>
    cases hs
    exact h.shaped
  | _ => cases hs

end Tree

namespace Image

variable {v w : Image}

/-- The `n` objects below the top of the stack, the deepest first. -/
def below (v : Image) (n : Nat) : List Tree :=
  ((v.stack.drop 1).take n).reverse.map Place.tree

theorem below_succ {n : Nat} (hn : n + 1 < v.stack.length) :
    v.below (n + 1) = v.stack[n + 1].tree :: v.below n := by
  have hlt : n < (v.stack.drop 1).length := by
    rw [List.length_drop]
    omega
  rw [below, List.take_succ_eq_append_getElem hlt, List.reverse_append, List.getElem_drop]
  simp [below, Nat.add_comm]

def top? (v : Image) : Option Value := v.stack.head?.map fun q => q.tree.value

theorem top?_eq (hn : 0 < v.stack.length) : v.top? = some v.stack[0].tree.value := by
  rw [top?, List.head?_eq_getElem?, List.getElem?_eq_getElem hn]
  rfl

/-- What a command can get hold of: numbers and texts, objects from the stack and out of those,
named objects, and lists of objects from the stack. -/
inductive Provides (v : Image) : Tree → Prop
  | atom {t : Tree} (h : t.IsAtom) : Provides v t
  | stack {q : Place} (h : q ∈ v.stack) : Provides v q.tree
  | element {q : Place} {t : Tree} (h : q ∈ v.stack) (ht : t ∈ q.tree.children) : Provides v t
  | named {e : Entry} (h : e ∈ v.directory) : Provides v e.object.tree
  | list {ts : List Tree} (h : ∀ t ∈ ts, ∃ q ∈ v.stack, q.tree = t) : Provides v (.composite .list ts)

/-- A property that goes from objects to what is inside them and to lists of them. -/
theorem Provides.induct {P : Tree → Prop} {t : Tree} (h : v.Provides t)
    (hstack : ∀ q ∈ v.stack, P q.tree) (hdirectory : ∀ e ∈ v.directory, P e.object.tree)
    (hatom : ∀ t : Tree, t.IsAtom → P t) (hchildren : ∀ t s, P t → s ∈ t.children → P s)
    (hlist : ∀ ts : List Tree, (∀ t ∈ ts, P t) → P (.composite .list ts)) : P t := by
  cases h with
  | atom h => exact hatom _ h
  | stack h => exact hstack _ h
  | element h ht => exact hchildren _ _ (hstack _ h) ht
  | named h => exact hdirectory _ h
  | list h =>
    apply hlist
    intro t ht
    obtain ⟨q, hq, rfl⟩ := h t ht
    exact hstack q hq

/-- What a command can make of `v`: other objects that it can get hold of. -/
structure Reworks (v w : Image) : Prop where
  setting : w.setting = v.setting
  stack : ∀ q ∈ w.stack, v.Provides q.tree
  directory : ∀ e ∈ w.directory, v.Provides e.object.tree

theorem Reworks.after (h : v.Reworks w) : w.After v := by
  refine ⟨h.setting, fun hs => ?_⟩
  have hsound : ∀ t, v.Provides t → t.Sound := by
    intro t ht
    apply ht.induct hs.stack hs.directory
    · exact fun _ hatom => hatom.sound
    · exact fun _ _ ht hs => ht.of_mem_children hs
    · exact fun _ hts => Tree.sound_list hts
  constructor
  · exact fun q hq => hsound _ (h.stack q hq)
  · rw [slots_eq_of_setting h.setting]
    exact hs.slots
  · exact fun e he => hsound _ (h.directory e he)

theorem Reworks.of_content (h : w.content = v.content) : v.Reworks w := by
  injection h with hsetting hstack hdirectory
  refine ⟨hsetting, fun q hq => .stack ?_, fun e he => .named ?_⟩
  · rwa [hstack] at hq
  · rwa [hdirectory] at he

theorem Replaces.reworks {n : Nat} {new : List Place} (h : v.Replaces n new w)
    (hnew : ∀ q ∈ new, v.Provides q.tree) : v.Reworks w := by
  have hcontent := h.content
  injection hcontent with hsetting hstack hdirectory
  refine ⟨hsetting, fun q hq => ?_, fun e he => .named ?_⟩
  · rw [hstack] at hq
    rcases List.mem_append.mp hq with hq | hq
    · exact hnew q hq
    · exact .stack (List.mem_of_mem_drop hq)
  · rwa [hdirectory] at he

/-- Objects went from the stack, and the directory changed. -/
theorem Reworks.of_edit {n : Nat} {directory : List Entry}
    (h : w.content = { v.content with stack := v.stack.drop n, directory })
    (hdirectory : ∀ e ∈ directory, v.Provides e.object.tree) : v.Reworks w := by
  injection h with hsetting hstack hdirectory'
  refine ⟨hsetting, fun q hq => ?_, fun e he => ?_⟩
  · rw [hstack] at hq
    exact .stack (List.mem_of_mem_drop hq)
  · rw [hdirectory'] at he
    exact hdirectory e he

theorem provides_below (v : Image) (n : Nat) : v.Provides (.composite .list (v.below n)) := by
  apply Provides.list
  intro t ht
  obtain ⟨q, hq, rfl⟩ := List.mem_map.mp ht
  exact ⟨q, List.mem_of_mem_drop (List.mem_of_mem_take (List.mem_reverse.mp hq)), rfl⟩

end Image

end RpnMachine
