import Mathlib.Data.Nat.Digits.Lemmas
import Mathlib.Tactic.SplitIfs

/-!
# Decimal texts

The decimal text of a number in UTF-16 code units, and the number that such a
text stands for.
-/

namespace SafetyGames.Decimal

/-- The decimal digits of a number, the first one first. -/
def numerals (k : Nat) : List Nat :=
  if k = 0 then [0] else (Nat.digits 10 k).reverse

/-- `Integer.toString(k)`. -/
def decimal (k : Nat) : List UInt16 :=
  (numerals k).map fun digit => UInt16.ofNat (48 + digit)

theorem numerals_lt {k digit : Nat} (member : digit ∈ numerals k) :
    digit < 10 := by
  rw [numerals] at member
  split_ifs at member
  · rw [List.mem_singleton.mp member]
    decide
  · exact Nat.digits_lt_base (by decide) (List.mem_reverse.mp member)

theorem toNat_digit {digit : Nat} (small : digit < 10) :
    (UInt16.ofNat (48 + digit)).toNat = 48 + digit := by
  rw [UInt16.toNat_ofNat']
  omega

/-- The number that a text stands for. -/
def value (text : List UInt16) : Nat :=
  Nat.ofDigits 10 (text.reverse.map fun c => c.toNat - 48)

theorem value_decimal (k : Nat) : value (decimal k) = k := by
  have digits : (decimal k).reverse.map (fun c => c.toNat - 48) =
      (numerals k).reverse := by
    rw [decimal, ← List.map_reverse, List.map_map]
    apply (List.map_congr_left fun digit member => ?_).trans (List.map_id _)
    rw [Function.comp_apply, toNat_digit (numerals_lt (List.mem_reverse.mp member))]
    exact Nat.add_sub_cancel_left 48 digit
  rw [value, digits, numerals]
  split_ifs with zero
  · rw [zero]
    rfl
  · rw [List.reverse_reverse]
    exact Nat.ofDigits_digits 10 k

theorem decimal_injective : Function.Injective decimal :=
  Function.LeftInverse.injective value_decimal

theorem decimal_ne_nil (k : Nat) : decimal k ≠ [] := by
  rw [decimal, numerals]
  split_ifs with zero
  · exact List.cons_ne_nil _ _
  · rw [Ne, List.map_eq_nil_iff, List.reverse_eq_nil_iff,
      Nat.digits_eq_nil_iff_eq_zero]
    exact zero

/-- A decimal text consists of the characters `0` to `9`. -/
theorem toNat_of_mem_decimal {k : Nat} {c : UInt16} (member : c ∈ decimal k) :
    48 ≤ c.toNat ∧ c.toNat < 58 := by
  rcases List.mem_map.mp member with ⟨digit, inNumerals, rfl⟩
  have small := numerals_lt inNumerals
  rw [toNat_digit small]
  omega

/-! ## Texts of digits -/

/-- The character is a decimal digit. -/
def Digit (c : UInt16) : Prop :=
  48 ≤ c.toNat ∧ c.toNat ≤ 57

/-- The text consists of decimal digits. -/
def Digits (text : List UInt16) : Prop :=
  ∀ c ∈ text, Digit c

theorem digits_nil : Digits [] :=
  fun _ none => absurd none List.not_mem_nil

theorem digits_cons {c : UInt16} {text : List UInt16} :
    Digits (c :: text) ↔ Digit c ∧ Digits text :=
  List.forall_mem_cons

theorem digits_decimal (k : Nat) : Digits (decimal k) := by
  intro c member
  have bounds := toNat_of_mem_decimal member
  exact ⟨bounds.1, Nat.le_of_lt_succ bounds.2⟩

/-- The first digit counts the highest power. -/
theorem value_cons (c : UInt16) (text : List UInt16) :
    value (c :: text) = (c.toNat - 48) * 10 ^ text.length + value text := by
  rw [value, value, List.reverse_cons, List.map_append, Nat.ofDigits_append,
    List.length_map, List.length_reverse, List.map_singleton,
    Nat.ofDigits_singleton, Nat.mul_comm, Nat.add_comm]

theorem value_lt {text : List UInt16} (digits : Digits text) :
    value text < 10 ^ text.length := by
  induction text with
  | nil => exact Nat.one_pos
  | cons c text induction =>
      rcases digits_cons.mp digits with ⟨digit, rest⟩
      have bound := induction rest
      have first : (c.toNat - 48) * 10 ^ text.length ≤ 9 * 10 ^ text.length :=
        Nat.mul_le_mul_right _ (by have := digit.2; omega)
      rw [value_cons, List.length_cons, pow_succ]
      omega

theorem value_zero_cons (text : List UInt16) :
    value (48 :: text) = value text := by
  rw [value_cons, show (48 : UInt16).toNat - 48 = 0 from rfl, Nat.zero_mul,
    Nat.zero_add]

theorem value_zeros (n : Nat) (text : List UInt16) :
    value (List.replicate n 48 ++ text) = value text := by
  induction n with
  | zero => rfl
  | succ n induction =>
      rw [List.replicate_succ, List.cons_append, value_zero_cons, induction]

/-- Texts of one length are compared digit by digit. -/
theorem value_cons_le_iff {c d : UInt16} {left right : List UInt16}
    (length : left.length = right.length) (digitC : Digit c) (digitD : Digit d)
    (digitsLeft : Digits left) (digitsRight : Digits right) :
    value (c :: left) ≤ value (d :: right) ↔
      c.toNat < d.toNat ∨ c.toNat = d.toNat ∧ value left ≤ value right := by
  have boundLeft := value_lt digitsLeft
  have boundRight := value_lt digitsRight
  have greater : ∀ x y : Nat, x < y →
      x * 10 ^ right.length + 10 ^ right.length ≤ y * 10 ^ right.length := by
    intro x y less
    rw [← Nat.succ_mul]
    exact Nat.mul_le_mul_right _ less
  rw [value_cons, value_cons, length]
  rw [length] at boundLeft
  rcases lt_trichotomy c.toNat d.toNat with less | equal | more
  · have grows := greater (c.toNat - 48) (d.toNat - 48)
      (by have := digitC.1; omega)
    omega
  · rw [equal]
    omega
  · have grows := greater (d.toNat - 48) (c.toNat - 48)
      (by have := digitD.1; omega)
    omega

section Between

variable {cx cy d : UInt16} {x y text : List UInt16}
  (lengthX : x.length = text.length) (lengthY : text.length = y.length)
  (digitX : Digit cx) (digitY : Digit cy) (digit : Digit d) (digitsX : Digits x)
  (digitsY : Digits y) (digits : Digits text)
include lengthX lengthY digitX digitY digit digitsX digitsY digits

/-- Between texts with one first digit are those with this digit. -/
theorem between_of_same_digit (same : cx = cy) :
    value (cx :: x) ≤ value (d :: text) ∧ value (d :: text) ≤ value (cy :: y) ↔
      d = cx ∧ value x ≤ value text ∧ value text ≤ value y := by
  subst same
  rw [value_cons_le_iff lengthX digitX digit digitsX digits,
    value_cons_le_iff lengthY digit digitX digits digitsY, ← UInt16.toNat_inj]
  omega

/-- Between texts with different first digits are those with a first digit
between them, and with one of the two those on the right side of its text. -/
theorem between_of_less_digit (less : cx.toNat < cy.toNat) :
    value (cx :: x) ≤ value (d :: text) ∧ value (d :: text) ≤ value (cy :: y) ↔
      d = cx ∧ value x ≤ value text ∨ d = cy ∧ value text ≤ value y ∨
        cx.toNat < d.toNat ∧ d.toNat < cy.toNat := by
  rw [value_cons_le_iff lengthX digitX digit digitsX digits,
    value_cons_le_iff lengthY digit digitY digits digitsY, ← UInt16.toNat_inj,
    ← UInt16.toNat_inj]
  omega

end Between

/-- A text that is longer than needed begins with a zero. -/
theorem eq_zero_of_value_lt {c : UInt16} {text : List UInt16} (digit : Digit c)
    {bound : Nat} (less : value (c :: text) < 10 ^ bound)
    (long : bound ≤ text.length) : c = 48 := by
  by_contra different
  have nonzero : 1 ≤ c.toNat - 48 := by
    have apart : c.toNat ≠ 48 := fun same => different (UInt16.toNat_inj.mp same)
    have := digit.1
    omega
  have grows : 10 ^ bound ≤ (c.toNat - 48) * 10 ^ text.length :=
    (Nat.pow_le_pow_right (by decide) long).trans
      (Nat.le_mul_of_pos_left _ nonzero)
  rw [value_cons] at less
  omega

/-- The decimal text of a number is the shortest one. -/
theorem length_decimal_le {k : Nat} {text : List UInt16} (digits : Digits text)
    (nonempty : text ≠ []) (order : k ≤ value text) :
    (decimal k).length ≤ text.length := by
  have positive : 0 < text.length := List.length_pos_iff.mpr nonempty
  rw [decimal, List.length_map, numerals]
  split_ifs with zero
  · exact positive
  · rw [List.length_reverse]
    by_contra long
    have power := Nat.base_pow_length_digits_le 10 k (by decide) zero
    have bound := value_lt digits
    have more : 10 ^ (text.length + 1) ≤ 10 ^ (Nat.digits 10 k).length :=
      Nat.pow_le_pow_right (by decide) (by omega)
    rw [pow_succ] at more
    omega

end SafetyGames.Decimal
