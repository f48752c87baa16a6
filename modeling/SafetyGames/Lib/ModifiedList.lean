import Mathlib.Data.List.Basic
import Mathlib.Tactic.SplitIfs

/-!
# Modified lists

A list with one element replaced by its image, as a heap whose object at one
address is written.
-/

namespace SafetyGames.ModifiedList

variable {α β : Type}

theorem modify_append_length (old fresh : List α) (index : Nat) (f : α → α) :
    (old ++ fresh).modify (old.length + index) f =
      old ++ fresh.modify index f := by
  induction old with
  | nil => simp
  | cons value old induction =>
      rw [List.cons_append, List.length_cons, Nat.succ_add,
        List.modify_succ_cons, induction, List.cons_append]

theorem map_modify {image : α → β} {f : α → α} {g : β → β}
    (commutes : ∀ value, image (f value) = g (image value))
    (list : List α) (index : Nat) :
    (list.modify index f).map image = (list.map image).modify index g := by
  induction list generalizing index with
  | nil => simp
  | cons value list induction =>
      cases index with
      | zero => simp [commutes]
      | succ index => simp [induction]

theorem mem_modify {f : α → α} {list : List α} {index : Nat} {value : α}
    (member : value ∈ list.modify index f) :
    value ∈ list ∨ ∃ old ∈ list, value = f old := by
  rcases List.mem_iff_getElem?.mp member with ⟨position, isValue⟩
  rw [List.getElem?_modify, Option.map_eq_map,
    Option.map_eq_some_iff] at isValue
  rcases isValue with ⟨old, isOld, rfl⟩
  have inList := List.mem_of_getElem? isOld
  split_ifs
  · exact Or.inr ⟨old, inList, rfl⟩
  · exact Or.inl inList

end SafetyGames.ModifiedList
