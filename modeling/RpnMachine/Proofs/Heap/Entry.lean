import RpnMachine.Machine.Directory
import RpnMachine.Proofs.Heap.Layout

/-! Items of the permanent region, and how its bytes are read as bindings. -/
namespace RpnMachine

/-- What the permanent region is read as. -/
def Heap.directory (h : Heap) : Directory := .ofBytes 0 h.permanent

/-- A name, the symbol in front of its object, and the object. -/
structure Entry where
  name : String
  label : Item
  object : Item

namespace Entry

def items (e : Entry) : List Item := [e.label, e.object]

def size (e : Entry) : Nat := e.label.size + e.object.size

def Labelled (e : Entry) : Prop := e.label.tree = .symbol e.name

def binding (start : Nat) (e : Entry) : Binding :=
  ⟨Text.utf8 e.name, start, start + e.label.size, start + e.size⟩

def bindings (start : Nat) : List Entry → List Binding
  | [] => []
  | e :: es => e.binding start :: bindings (start + e.size) es

theorem length_bytes_items (e : Entry) : (Item.bytes e.items).length = e.size := by
  simp only [items, Item.length_bytes_cons, Item.bytes_nil, List.length_nil, Nat.add_zero]
  rfl

theorem size_pos (e : Entry) : 0 < e.size := by
  have := e.label.tree.size_pos
  rw [size, Item.size]
  omega

theorem size_binding (start : Nat) (e : Entry) : (e.binding start).size = e.size := by
  simp only [Binding.size, binding]
  omega

theorem ofBytes?_items {e : Entry} (hl : e.Labelled) (hlabel : e.label.tree.Fits)
    (hobject : e.object.tree.Fits) (start : Nat) (rest : List UInt8) :
    Binding.ofBytes? start (Item.bytes e.items ++ rest) = some (e.binding start) := by
  have hbytes : Item.bytes e.items ++ rest =
      e.label.tree.encode ++ (e.object.tree.encode ++ rest) := by
    simp [items]
  have hdrop : (e.label.tree.encode ++ (e.object.tree.encode ++ rest)).drop e.label.tree.size =
      e.object.tree.encode ++ rest := List.drop_left' rfl
  have hsymbol : e.label.tree.encode =
      Encoding.mark .symbol ++ Encoding.sized (Text.utf8 e.name) := by
    rw [hl, Tree.encode]
    rfl
  have hfits : (Encoding.mark .symbol ++ Encoding.sized (Text.utf8 e.name)).length <
      Word.bound 8 := by
    rw [← hsymbol]
    exact hlabel
  have hpayload := Encoding.payload?_sized hfits (e.object.tree.encode ++ rest)
  have hslice := Encoding.slice?_append (Encoding.slice?_sized .symbol (Text.utf8 e.name))
    (e.object.tree.encode ++ rest)
  rw [← hsymbol] at hpayload hslice
  rw [Binding.ofBytes?, hbytes, hlabel.size?_encode]
  simp only [Option.bind_eq_bind, Option.bind_some, hdrop, hobject.size?_encode, hpayload, hslice,
    binding, size, Item.size, Nat.add_assoc]

theorem ofBytes_flatMap {es : List Entry} (hl : ∀ e ∈ es, e.Labelled)
    (hf : ∀ e ∈ es, ∀ i ∈ e.items, i.tree.Fits) (start : Nat) :
    Directory.ofBytes start (Item.bytes (es.flatMap items)) = ⟨bindings start es, true⟩ := by
  induction es generalizing start with
  | nil => simp [Directory.ofBytes, bindings]
  | cons e es ih =>
    have hb := ofBytes?_items (hl e (by simp)) (hf e (by simp) _ (by simp [items]))
      (hf e (by simp) _ (by simp [items])) start (Item.bytes (es.flatMap items))
    obtain ⟨b, bs, hcons⟩ : ∃ b bs, Item.bytes e.items = b :: bs :=
      List.exists_cons_of_length_pos (by rw [e.length_bytes_items]; exact e.size_pos)
    have hlen : bs.length = e.size - 1 := by
      have := e.length_bytes_items
      rw [hcons, List.length_cons] at this
      omega
    have hrest : (bs ++ Item.bytes (es.flatMap items)).drop (e.size - 1) =
        Item.bytes (es.flatMap items) := by
      rw [← hlen, List.drop_left]
    rw [List.flatMap_cons, Item.bytes_append]
    rw [hcons, List.cons_append] at hb ⊢
    rw [Directory.ofBytes, hb]
    simp only
    rw [size_binding, hrest, ih (fun e he => hl e (by simp [he])) (fun e he => hf e (by simp [he]))]
    rfl

theorem map_name_bindings (start : Nat) (es : List Entry) :
    (bindings start es).map Binding.name = es.map fun e => Text.utf8 e.name := by
  induction es generalizing start with
  | nil => rfl
  | cons e es ih => rw [bindings, List.map_cons, ih]; rfl

theorem find?_bindings_eq_none {name : String} {es : List Entry}
    (h : name ∉ es.map Entry.name) (start : Nat) :
    (bindings start es).find? (·.name == Text.utf8 name) = none := by
  rw [List.find?_eq_none]
  intro b hb hname
  have hmem := List.mem_map_of_mem (f := Binding.name) hb
  rw [map_name_bindings, List.mem_map] at hmem
  obtain ⟨e, he, heq⟩ := hmem
  rw [beq_iff_eq, ← heq] at hname
  exact h (Text.utf8_injective hname ▸ List.mem_map_of_mem he)

theorem find?_bindings {e : Entry} {before : List Entry}
    (h : e.name ∉ before.map Entry.name) (after : List Entry) (start : Nat) :
    (bindings start (before ++ e :: after)).find? (·.name == Text.utf8 e.name) =
      some (e.binding (start + (Item.bytes (before.flatMap items)).length)) := by
  induction before generalizing start with
  | nil => simp [bindings, binding]
  | cons d before ih =>
    rw [List.map_cons, List.mem_cons, not_or] at h
    have hne : ((d.binding start).name == Text.utf8 e.name) = false := by
      rw [beq_eq_false_iff_ne]
      exact fun heq => h.1 (Text.utf8_injective heq).symm
    rw [List.cons_append, bindings, List.find?_cons, hne]
    simp only
    rw [ih h.2, List.flatMap_cons,
      Item.bytes_append, List.length_append, length_bytes_items, Nat.add_assoc]

end Entry

end RpnMachine
