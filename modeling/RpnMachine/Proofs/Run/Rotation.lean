import RpnMachine.Proofs.Run.Counting
import RpnMachine.Proofs.Run.Inventory

/-! Rolling rotates the top levels of the stack, and does nothing else. The levels are copied one by one
where they lie, so what counts is that each is copied before it is overwritten. -/
namespace RpnMachine

section Lists

variable {α β : Type}

/-- Of the second list, the front is the last of the first `n` elements. The others of these are one
place further back, and all that come after them where they were. -/
structure Rotates (n : Nat) (l l' : List α) : Prop where
  length : l'.length = l.length
  front : 0 < n → l'[0]? = l[n - 1]?
  back : ∀ i, i + 1 < n → l'[i + 1]? = l[i]?
  rest : ∀ i, n ≤ i → l'[i]? = l[i]?

/-- The first two elements change places. -/
def Transposes (l l' : List α) : Prop := ∃ a b rest, l = a :: b :: rest ∧ l' = b :: a :: rest

namespace Rotates

variable {n : Nat} {l l' : List α}

theorem zero (l : List α) : Rotates 0 l l where
  length := rfl
  front h := absurd h (Nat.lt_irrefl 0)
  back _ h := absurd h (Nat.not_lt_zero _)
  rest _ _ := rfl

theorem succ (hn : n < l.length) : Rotates (n + 1) l (l[n] :: l.take n ++ l.drop (n + 1)) where
  length := by
    simp only [List.length_append, List.length_cons, List.length_take, List.length_drop]
    omega
  front _ := by simp [hn]
  back i hi := by
    have hi : i < n := Nat.lt_of_succ_lt_succ hi
    rw [List.cons_append, List.getElem?_cons_succ,
      List.getElem?_append_left (by rwa [List.length_take_of_le hn.le]), List.getElem?_take_of_lt hi]
  rest i hi := by
    have hlength : (l[n] :: l.take n).length = n + 1 := by
      rw [List.length_cons, List.length_take_of_le hn.le]
    rw [List.getElem?_append_right (hlength.trans_le hi), hlength, List.getElem?_drop,
      Nat.add_sub_cancel' hi]

theorem eq (h : Rotates (n + 1) l l') (hn : n < l.length) :
    l' = l[n] :: l.take n ++ l.drop (n + 1) := by
  have hs := succ hn
  refine List.ext_getElem? fun i => ?_
  rcases Nat.lt_or_ge i (n + 1) with hi | hi
  · cases i with
    | zero => rw [h.front n.succ_pos, hs.front n.succ_pos]
    | succ i => rw [h.back i hi, hs.back i hi]
  · rw [h.rest i hi, hs.rest i hi]

theorem map (h : Rotates n l l') (f : α → β) : Rotates n (l.map f) (l'.map f) where
  length := by rw [List.length_map, List.length_map, h.length]
  front hn := by rw [List.getElem?_map, List.getElem?_map, h.front hn]
  back i hi := by rw [List.getElem?_map, List.getElem?_map, h.back i hi]
  rest i hi := by rw [List.getElem?_map, List.getElem?_map, h.rest i hi]

theorem transposes (h : Rotates 2 l l') (hl : 2 ≤ l.length) : Transposes l l' := by
  match l, hl with
  | a :: b :: rest, hl => exact ⟨a, b, rest, rfl, h.eq hl⟩

end Rotates

theorem rotate_take_succ {n : Nat} {l : List α} (hn : n < l.length) :
    (l.take (n + 1)).rotate n = l[n] :: l.take n := by
  rw [List.rotate_eq_drop_append_take (by rw [List.length_take_of_le hn]; exact n.le_succ),
    List.take_take, min_eq_left n.le_succ, List.take_succ_eq_append_getElem hn,
    List.drop_left' (List.length_take_of_le hn.le)]
  rfl

/-- Elements before and after a part of a list do not depend on it. -/
theorem getElem?_append_append {a b b' c : List α} (h : b'.length = b.length) {i : Nat}
    (hi : i < a.length ∨ a.length + b.length ≤ i) : (a ++ b' ++ c)[i]? = (a ++ b ++ c)[i]? := by
  rcases hi with hi | hi
  · rw [List.append_assoc, List.append_assoc, List.getElem?_append_left hi,
      List.getElem?_append_left hi]
  · have hlength : (a ++ b').length = (a ++ b).length := by
      rw [List.length_append, List.length_append, h]
    have hle : (a ++ b).length ≤ i := by rwa [List.length_append]
    rw [List.getElem?_append_right (hlength.trans_le hle), List.getElem?_append_right hle, hlength]

end Lists

theorem Memory.eq_of_toList_eq {m m' : Memory} (h : m.toList = m'.toList) : m = m' := by
  obtain ⟨⟨bytes⟩⟩ := m
  obtain ⟨⟨bytes'⟩⟩ := m'
  cases Array.toList_inj.mp h
  rfl

namespace Heap

variable {h h' : Heap} {x : Parts}

theorem Consists.memory_eq (hx : h.Consists x) (hx' : h'.Consists x) : h'.memory = h.memory :=
  Memory.eq_of_toList_eq (hx'.memory.trans hx.memory.symm)

/-- Where only the top levels differ, all bytes are the same but those of these levels. -/
theorem Consists.getElem?_eq {top top' deep : List Nat}
    (hx : h.Consists { x with stack := top ++ deep })
    (hx' : h'.Consists { x with stack := top' ++ deep }) (hlength : top'.length = top.length) {i : Nat}
    (hi : i < h.stackStart ∨ h.stackStart + slotSize * top.length ≤ i) :
    h'.memory.toList[i]? = h.memory.toList[i]? := by
  have hbytes (stack : List Nat) : Parts.bytes { x with stack := stack ++ deep } =
      x.front ++ words stack ++ words deep := by
    rw [Parts.bytes, words_append, ← List.append_assoc]
    rfl
  have hstart : h.stackStart = x.front.length := hx.toStacks.stackStart
  rw [hx.memory, hx'.memory, hbytes, hbytes]
  refine getElem?_append_append ?_ ?_
  · rw [length_words, length_words, hlength]
  · rwa [length_words, ← hstart]

/-- Bytes outside the levels that are rolled stay as they are. -/
theorem Consists.getElem?_rolled (hx : h.Consists x) {n : Nat} (hn : n < x.stack.length)
    (hx' : h'.Consists { x with stack := x.stack[n] :: x.stack.take n ++ x.stack.drop (n + 1) })
    {i : Nat} (hi : i < h.stackStart ∨ h.stackStart + slotSize * (n + 1) ≤ i) :
    h'.memory.toList[i]? = h.memory.toList[i]? := by
  have hlength : (x.stack.take (n + 1)).length = n + 1 := List.length_take_of_le hn
  have hsplit : h.Consists { x with stack := x.stack.take (n + 1) ++ x.stack.drop (n + 1) } := by
    rw [List.take_append_drop]
    exact hx
  refine hsplit.getElem?_eq hx' ?_ (hlength.symm ▸ hi)
  rw [List.length_cons, List.length_take_of_le hn.le, hlength]

theorem Arranged.stackBytes_eq_map {m : Machine} {a : Arrangement}
    (ha : m.heap.Arranged m.registry a) :
    m.stackBytes = (a.stack.map fun q => q.tree.encode).map some := by
  rw [ha.stackBytes_eq, List.map_map]
  rfl

end Heap

namespace Machine

open Run

def withMemory (m : Machine) (memory : Memory) : Machine := { m with heap := { m.heap with memory } }

@[simp] theorem withMemory_withMemory (m : Machine) (memory memory' : Memory) :
    (m.withMemory memory).withMemory memory' = m.withMemory memory' := rfl

@[simp] theorem withMemory_self (m : Machine) : m.withMemory m.heap.memory = m := rfl

/-- In the second machine the top `n` levels are rotated, and with them the objects that they lead to.
No byte outside these levels is different, nor is anything else. -/
structure Rolled (m : Machine) (n : Nat) (m' : Machine) : Prop where
  positions : Rotates n m.heap.stack m'.heap.stack
  objects : ∃ objects objects' : List (List UInt8), m.stackBytes = objects.map some ∧
    m'.stackBytes = objects'.map some ∧ Rotates n objects objects'
  bytes : ∀ i, i < m.heap.stackStart ∨ m.heap.stackStart + Heap.slotSize * n ≤ i →
    m'.heap.memory.toList[i]? = m.heap.memory.toList[i]?
  rest : m' = m.withMemory m'.heap.memory

/-- Rolling rotates as many levels as it is told to, if there are as many. To roll `n` levels `n` times
brings them all back, and to roll two levels is to swap them. -/
structure Rolls (m : Machine) : Prop where
  rolled : ∀ n ≤ m.heap.depth, ∃ m', exec (roll n) m = (.ok (), m') ∧ m.Rolled n m'
  restored : ∀ n ≤ m.heap.depth, exec (times (roll n) n) m = (.ok (), m)
  swapped : 2 ≤ m.heap.depth → ∃ m', exec (roll 2) m = (.ok (), m') ∧ exec swap m = (.ok (), m') ∧
    Transposes m.heap.stack m'.heap.stack ∧ Transposes m.stackBytes m'.stackBytes
  refused : ∀ n, m.heap.depth < n →
    exec (roll n) m = (.error (.error (.tooFewArguments n m.heap.depth)), m)

variable {m m' : Machine} {a : Arrangement} {n : Nat}

theorem exec_roll_succ {x : Heap.Parts} (hx : m.heap.Consists x) (hn : n < x.stack.length)
    {memory : Memory} (hroll : m.heap.roll? n = some { m.heap with memory }) :
    exec (roll (n + 1)) m = (.ok (), m.withMemory memory) := by
  rw [roll, exec_bind_ok (exec_args_of_le hx.depth?_eq hn)]
  exact exec_updateHeap_some hroll

theorem exec_roll_of_lt (hdepth : m.heap.depth? = some m.heap.depth) (hn : m.heap.depth < n) :
    exec (roll n) m = (.error (.error (.tooFewArguments n m.heap.depth)), m) := by
  cases n with
  | zero => exact absurd hn (Nat.not_lt_zero _)
  | succ n => rw [roll, exec_bind_error (exec_args_of_lt hdepth hn)]

/-- Each time the top levels are rotated once more. -/
theorem exec_times_roll {x : Heap.Parts} (hx : m.heap.Consists x) (hn : n < x.stack.length) (k : Nat) :
    ∃ memory, exec (times (roll (n + 1)) k) m = (.ok (), m.withMemory memory) ∧
      (m.withMemory memory).heap.Consists
        { x with stack := (x.stack.take (n + 1)).rotate (n * k) ++ x.stack.drop (n + 1) } := by
  induction k generalizing m x with
  | zero =>
    refine ⟨m.heap.memory, rfl, ?_⟩
    rw [Nat.mul_zero, List.rotate_zero, List.take_append_drop]
    exact hx
  | succ k ih =>
    obtain ⟨memory, hroll, hrolled⟩ := hx.roll? hn
    rw [← rotate_take_succ hn] at hrolled
    have hlength : ((x.stack.take (n + 1)).rotate n).length = n + 1 := by
      rw [List.length_rotate, List.length_take_of_le hn]
    obtain ⟨memory', he, hc⟩ := ih (m := m.withMemory memory) hrolled
      (by rw [List.length_append, hlength]; omega)
    have hturns : n + n * k = n * (k + 1) := by rw [Nat.mul_succ, Nat.add_comm]
    rw [List.take_left' hlength, List.drop_left' hlength, List.rotate_rotate, hturns,
      withMemory_withMemory] at hc
    refine ⟨memory', ?_, hc⟩
    rw [times, exec_bind_ok (exec_roll_succ hx hn hroll), he, withMemory_withMemory]

/-- Levels that are rotated as often as there are of them are back where they were. -/
theorem exec_times_roll_self {x : Heap.Parts} (hx : m.heap.Consists x) (hn : n ≤ x.stack.length) :
    exec (times (roll n) n) m = (.ok (), m) := by
  cases n with
  | zero => rfl
  | succ n =>
    obtain ⟨memory, he, hc⟩ := exec_times_roll hx hn (n + 1)
    have hback : (x.stack.take (n + 1)).rotate (n * (n + 1)) = x.stack.take (n + 1) := by
      have h := List.rotate_length_mul (x.stack.take (n + 1)) n
      rwa [List.length_take_of_le hn, Nat.mul_comm] at h
    rw [hback, List.take_append_drop] at hc
    have hmemory : memory = m.heap.memory := hx.memory_eq hc
    rw [he, hmemory, withMemory_self]

theorem Rolled.stackBytes (h : m.Rolled n m') : Rotates n m.stackBytes m'.stackBytes := by
  obtain ⟨objects, objects', hobjects, hobjects', hrotates⟩ := h.objects
  rw [hobjects, hobjects']
  exact hrotates.map some

theorem rolled_zero (ha : m.heap.Arranged m.registry a) : m.Rolled 0 m where
  positions := .zero _
  objects := ⟨_, _, ha.stackBytes_eq_map, ha.stackBytes_eq_map, .zero _⟩
  bytes _ _ := rfl
  rest := rfl

theorem exists_rolled_succ (ha : m.heap.Arranged m.registry a) (hn : n < a.stack.length) :
    ∃ m', exec (roll (n + 1)) m = (.ok (), m') ∧ m.Rolled (n + 1) m' := by
  have hlength : n < a.parts.stack.length := by rwa [Arrangement.parts, List.length_map]
  obtain ⟨memory, hroll, hc⟩ := ha.parts.roll? hlength
  obtain ⟨heap, hroll', -, ha'⟩ := ha.roll? hn
  cases hroll.symm.trans hroll'
  have ha' : (m.withMemory memory).heap.Arranged (m.withMemory memory).registry _ := ha'
  have hplaces : Rotates (n + 1) a.stack _ := .succ hn
  refine ⟨_, exec_roll_succ ha.parts hlength hroll, ?_, ⟨_, _, ha.stackBytes_eq_map,
    ha'.stackBytes_eq_map, hplaces.map _⟩, fun i hi => ha.parts.getElem?_rolled hlength hc hi, rfl⟩
  rw [ha.parts.stack_eq, ha'.parts.stack_eq]
  exact hplaces.map _

/-- In every well-formed memory, rolling is a rotation of the top of the stack. -/
theorem rolls_of_wellFormed (hm : m.WellFormed) (hc : m.heap.capacity < Word.bound Heap.slotSize) :
    m.Rolls := by
  obtain ⟨entries, ts, -, -, -, hts, -⟩ := hm.tiled
  obtain ⟨a, entries, ha, -⟩ := hm.exists_arranged hc hts
  have hdepth : m.heap.depth = a.stack.length := by
    rw [ha.parts.depth_eq, Arrangement.parts, List.length_map]
  have hrolled : ∀ n ≤ m.heap.depth, ∃ m', exec (roll n) m = (.ok (), m') ∧ m.Rolled n m' := by
    intro n hn
    cases n with
    | zero => exact ⟨m, rfl, rolled_zero ha⟩
    | succ n => exact exists_rolled_succ ha (hdepth ▸ hn)
  refine ⟨hrolled, fun n hn => ?_, fun hn => ?_, fun n hn => exec_roll_of_lt ?_ hn⟩
  · exact exec_times_roll_self ha.parts (by rwa [Arrangement.parts, List.length_map, ← hdepth])
  · obtain ⟨m', he, hrolled⟩ := hrolled 2 hn
    have hswap : exec swap m = (.ok (), m') := by rw [swap, he]
    refine ⟨m', he, hswap, hrolled.positions.transposes ?_, hrolled.stackBytes.transposes ?_⟩
    · rwa [ha.parts.stack_eq, Arrangement.parts, List.length_map, ← hdepth]
    · rwa [ha.stackBytes_eq, List.length_map, ← hdepth]
  · rw [ha.parts.depth?_eq, ha.parts.depth_eq]

/-- A number, below it the empty list and a text, and at the bottom the number again. -/
def stacked : List Action :=
  [.make (Tree.integer false 1).recipe, .push ⟨0⟩, .make (Tree.text "a").recipe, .push ⟨1⟩,
    .make (Tree.composite .list []).recipe, .push ⟨2⟩, .push ⟨0⟩]

theorem acts_stacked : ∃ m, Acts (ofCapacity 32) stacked m ∧ m.heap.depth = 4 ∧
    m.stackBytes = [some [0, 1], some [5, 0], some [3, 1, 97], some [0, 1]] :=
  ⟨_, .cons ⟨by decide, .integer false 1, Tree.encode_eq _⟩ <| .cons ⟨by decide +kernel, trivial⟩ <|
    .cons ⟨by decide, .text "a", Tree.encode_eq _⟩ <| .cons ⟨by decide +kernel, trivial⟩ <|
    .cons ⟨by decide, .composite .list [], Tree.encode_eq _⟩ <|
    .cons ⟨by decide +kernel, trivial⟩ <| .cons ⟨by decide +kernel, trivial⟩ <| .nil _,
    by decide +kernel, by decide +kernel⟩

/-- The text comes to the top, and the number at the bottom stays there. -/
theorem rolls_stacked : ∃ m m', Acts (ofCapacity 32) stacked m ∧
    m.stackBytes = [some [0, 1], some [5, 0], some [3, 1, 97], some [0, 1]] ∧
    exec (roll 3) m = (.ok (), m') ∧
    m'.stackBytes = [some [3, 1, 97], some [0, 1], some [5, 0], some [0, 1]] ∧
    exec (times (roll 3) 3) m = (.ok (), m) ∧
    exec (roll 5) m = (.error (.error (.tooFewArguments 5 4)), m) := by
  obtain ⟨m, hm, hdepth, hbytes⟩ := acts_stacked
  obtain ⟨hcapacity, hwell⟩ := wellFormed_of_acts (by decide) hm
  have h := rolls_of_wellFormed hwell (by rw [hcapacity]; decide)
  obtain ⟨m', he, hrolled⟩ := h.rolled 3 (by rw [hdepth]; decide)
  have hrotates := hrolled.stackBytes
  rw [hbytes] at hrotates
  have hrefused := h.refused 5 (by rw [hdepth]; decide)
  rw [hdepth] at hrefused
  exact ⟨m, m', hm, hbytes, he, hrotates.eq (by decide), h.restored 3 (by rw [hdepth]; decide), hrefused⟩

end Machine
end RpnMachine
