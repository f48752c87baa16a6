import Mathlib.Data.List.Lex
import Mathlib.Data.Prod.Lex
import Mathlib.Order.Defs.LinearOrder

/-!
# Shorter words first

Lists of numbers ordered by length, and lexicographically among lists of the
same length.
-/

namespace SafetyGames.Shortlex

/-- The place of a list: its length, then its entries. -/
def rank (word : List Nat) : ℕ ×ₗ List Nat :=
  toLex (word.length, word)

theorem rank_le_iff {left right : List Nat} :
    rank left ≤ rank right ↔ left.length < right.length ∨
      left.length = right.length ∧ left ≤ right :=
  Prod.Lex.toLex_le_toLex

theorem rank_lt_iff {left right : List Nat} :
    rank left < rank right ↔ left.length < right.length ∨
      left.length = right.length ∧ left < right :=
  Prod.Lex.toLex_lt_toLex

theorem rank_le_of_length_lt {left right : List Nat}
    (shorter : left.length < right.length) : rank left ≤ rank right :=
  rank_le_iff.mpr (Or.inl shorter)

/-- A place is not before the places of the prefixes. -/
theorem rank_le_append (word rest : List Nat) :
    rank word ≤ rank (word ++ rest) := by
  cases rest with
  | nil => rw [List.append_nil]
  | cons letter rest =>
      apply rank_le_of_length_lt
      rw [List.length_append, List.length_cons]
      omega

theorem append_lt_append {left right : List Nat} (rest rest' : List Nat)
    (long : left.length = right.length) (less : left < right) :
    left ++ rest < right ++ rest' := by
  induction left generalizing right with
  | nil =>
      cases right with
      | nil => exact absurd less (lt_irrefl _)
      | cons => exact absurd long (Nat.succ_ne_zero _).symm
  | cons letter left induction =>
      cases right with
      | nil => exact absurd long (Nat.succ_ne_zero _)
      | cons other right =>
          rw [List.cons_append, List.cons_append]
          rcases List.cons_lt_cons_iff.mp less with first | ⟨rfl, later⟩
          · exact List.cons_lt_cons_iff.mpr (Or.inl first)
          · exact List.cons_lt_cons_iff.mpr (Or.inr ⟨rfl,
              induction (Nat.succ.inj long) later⟩)

/-- Appending letters in order keeps the order. -/
theorem rank_snoc_le {left right : List Nat} {letter other : Nat}
    (order : rank left ≤ rank right) (letters : letter ≤ other) :
    rank (left ++ [letter]) ≤ rank (right ++ [other]) := by
  rw [rank_le_iff] at order ⊢
  simp only [List.length_append, List.length_singleton]
  rcases order with shorter | ⟨long, below⟩
  · exact Or.inl (Nat.succ_lt_succ shorter)
  · refine Or.inr ⟨by rw [long], ?_⟩
    rcases below.lt_or_eq with less | rfl
    · exact (append_lt_append _ _ long less).le
    · rcases letters.lt_or_eq with less | rfl
      · exact le_of_lt (List.append_left_lt
          (List.cons_lt_cons_iff.mpr (Or.inl less)))
      · exact le_rfl

end SafetyGames.Shortlex
