import Mathlib.Data.List.Basic

/-!
# Boolean expressions

The expressions that the learner hands to the solver, over any type of
variables, and their value under an assignment.
-/

namespace SafetyGames.Learner

/-- A `BoolExpr` of the solver, by the `Context` methods that build it. -/
inductive BoolExpr (ν : Type) where
  | mkBoolConst (name : ν)
  | mkFalse
  | mkTrue
  | mkNot (e : BoolExpr ν)
  | mkAnd (left right : BoolExpr ν)
  | mkOr (left right : BoolExpr ν)
  | mkImplies (left right : BoolExpr ν)

namespace BoolExpr

variable {ν μ : Type}

/-- The value of an expression. -/
def eval (σ : ν → Bool) : BoolExpr ν → Bool
  | mkBoolConst v => σ v
  | mkFalse => false
  | mkTrue => true
  | mkNot e => !e.eval σ
  | mkAnd left right => left.eval σ && right.eval σ
  | mkOr left right => left.eval σ || right.eval σ
  | mkImplies left right => !left.eval σ || right.eval σ

/-- The expression with its variables renamed. -/
def map (rename : ν → μ) : BoolExpr ν → BoolExpr μ
  | mkBoolConst v => mkBoolConst (rename v)
  | mkFalse => mkFalse
  | mkTrue => mkTrue
  | mkNot e => mkNot (e.map rename)
  | mkAnd left right => mkAnd (left.map rename) (right.map rename)
  | mkOr left right => mkOr (left.map rename) (right.map rename)
  | mkImplies left right => mkImplies (left.map rename) (right.map rename)

/-- The assignment satisfies the expression. -/
def Holds (σ : ν → Bool) (e : BoolExpr ν) : Prop :=
  e.eval σ = true

instance (σ : ν → Bool) (e : BoolExpr ν) : Decidable (e.Holds σ) :=
  inferInstanceAs (Decidable (_ = _))

/-- The disjunction a loop builds from `mkFalse`. -/
def anyOf (list : List (BoolExpr ν)) : BoolExpr ν :=
  list.foldl mkOr mkFalse

/-- The conjunction a loop builds from `mkTrue`. -/
def allOf (list : List (BoolExpr ν)) : BoolExpr ν :=
  list.foldl mkAnd mkTrue

variable {σ : ν → Bool}

theorem eval_map {rename : ν → μ} {τ : μ → Bool} (e : BoolExpr ν) :
    (e.map rename).eval τ = e.eval (τ ∘ rename) := by
  induction e with
  | mkBoolConst | mkFalse | mkTrue => rfl
  | mkNot e induction => rw [map, eval, eval, induction]
  | mkAnd left right first second
  | mkOr left right first second
  | mkImplies left right first second =>
      rw [map, eval, eval, first, second]

@[simp]
theorem holds_map {rename : ν → μ} {τ : μ → Bool} (e : BoolExpr ν) :
    (e.map rename).Holds τ ↔ e.Holds (τ ∘ rename) := by
  rw [Holds, Holds, eval_map]

@[simp]
theorem holds_const (v : ν) : (mkBoolConst v).Holds σ ↔ σ v = true := Iff.rfl

@[simp]
theorem holds_false : ¬ (mkFalse : BoolExpr ν).Holds σ :=
  Bool.false_ne_true

@[simp]
theorem holds_true : (mkTrue : BoolExpr ν).Holds σ := rfl

@[simp]
theorem holds_not (e : BoolExpr ν) : (mkNot e).Holds σ ↔ ¬ e.Holds σ := by
  simp [Holds, eval]

@[simp]
theorem holds_and (left right : BoolExpr ν) :
    (mkAnd left right).Holds σ ↔ left.Holds σ ∧ right.Holds σ := by
  simp [Holds, eval]

@[simp]
theorem holds_or (left right : BoolExpr ν) :
    (mkOr left right).Holds σ ↔ left.Holds σ ∨ right.Holds σ := by
  simp [Holds, eval]

@[simp]
theorem holds_implies (left right : BoolExpr ν) :
    (mkImplies left right).Holds σ ↔ (left.Holds σ → right.Holds σ) := by
  cases first : left.eval σ <;> cases second : right.eval σ <;>
    simp [Holds, eval, first, second]

@[simp]
theorem holds_anyOf (list : List (BoolExpr ν)) :
    (anyOf list).Holds σ ↔ ∃ e ∈ list, e.Holds σ := by
  have scan : ∀ (list : List (BoolExpr ν)) (start : BoolExpr ν),
      (list.foldl mkOr start).Holds σ ↔
        start.Holds σ ∨ ∃ e ∈ list, e.Holds σ := by
    intro list
    induction list with
    | nil => simp
    | cons e list induction =>
        intro start
        simp [induction, or_assoc]
  simp [anyOf, scan]

@[simp]
theorem holds_allOf (list : List (BoolExpr ν)) :
    (allOf list).Holds σ ↔ ∀ e ∈ list, e.Holds σ := by
  have scan : ∀ (list : List (BoolExpr ν)) (start : BoolExpr ν),
      (list.foldl mkAnd start).Holds σ ↔
        start.Holds σ ∧ ∀ e ∈ list, e.Holds σ := by
    intro list
    induction list with
    | nil => simp
    | cons e list induction =>
        intro start
        simp [induction, and_assoc]
  simp [allOf, scan]

/-! ## The variables of an expression -/

/-- Every variable of the expression has the property. -/
def Within (P : ν → Prop) : BoolExpr ν → Prop
  | mkBoolConst v => P v
  | mkFalse => True
  | mkTrue => True
  | mkNot e => e.Within P
  | mkAnd left right => left.Within P ∧ right.Within P
  | mkOr left right => left.Within P ∧ right.Within P
  | mkImplies left right => left.Within P ∧ right.Within P

section Within

variable {P : ν → Prop}

@[simp]
theorem within_const (v : ν) : (mkBoolConst v).Within P ↔ P v := Iff.rfl

@[simp]
theorem within_not (e : BoolExpr ν) : (mkNot e).Within P ↔ e.Within P := Iff.rfl

@[simp]
theorem within_and (left right : BoolExpr ν) :
    (mkAnd left right).Within P ↔ left.Within P ∧ right.Within P := Iff.rfl

@[simp]
theorem within_implies (left right : BoolExpr ν) :
    (mkImplies left right).Within P ↔ left.Within P ∧ right.Within P := Iff.rfl

@[simp]
theorem within_anyOf (list : List (BoolExpr ν)) :
    (anyOf list).Within P ↔ ∀ e ∈ list, e.Within P := by
  have scan : ∀ (list : List (BoolExpr ν)) (start : BoolExpr ν),
      (list.foldl mkOr start).Within P ↔
        start.Within P ∧ ∀ e ∈ list, e.Within P := by
    intro list
    induction list with
    | nil => simp
    | cons e list induction =>
        intro start
        simp [induction, Within, and_assoc]
  simp [anyOf, scan, Within]

@[simp]
theorem within_allOf (list : List (BoolExpr ν)) :
    (allOf list).Within P ↔ ∀ e ∈ list, e.Within P := by
  have scan : ∀ (list : List (BoolExpr ν)) (start : BoolExpr ν),
      (list.foldl mkAnd start).Within P ↔
        start.Within P ∧ ∀ e ∈ list, e.Within P := by
    intro list
    induction list with
    | nil => simp
    | cons e list induction =>
        intro start
        simp [induction, Within, and_assoc]
  simp [allOf, scan, Within]

/-- The value depends on the variables of the expression only. -/
theorem eval_congr {τ : ν → Bool} {e : BoolExpr ν} (within : e.Within P)
    (agree : ∀ v, P v → σ v = τ v) : e.eval σ = e.eval τ := by
  induction e with
  | mkBoolConst v => exact agree v within
  | mkFalse | mkTrue => rfl
  | mkNot e induction => rw [eval, eval, induction within]
  | mkAnd left right first second
  | mkOr left right first second
  | mkImplies left right first second =>
      rw [eval, eval, first within.1, second within.2]

end Within

end BoolExpr

/-- The assignment satisfies all of the expressions. -/
def Satisfies {ν : Type} (σ : ν → Bool) (constraints : List (BoolExpr ν)) :
    Prop :=
  ∀ e ∈ constraints, e.Holds σ

instance {ν : Type} (σ : ν → Bool) (constraints : List (BoolExpr ν)) :
    Decidable (Satisfies σ constraints) :=
  inferInstanceAs (Decidable (∀ e ∈ constraints, e.Holds σ))

/-- Every variable of the expressions has the property. -/
def AllWithin {ν : Type} (P : ν → Prop) (constraints : List (BoolExpr ν)) :
    Prop :=
  ∀ e ∈ constraints, e.Within P

/-- Assignments that agree on the variables satisfy the same expressions. -/
theorem AllWithin.satisfies_congr {ν : Type} {P : ν → Prop} {σ τ : ν → Bool}
    {constraints : List (BoolExpr ν)} (within : AllWithin P constraints)
    (agree : ∀ v, P v → σ v = τ v) :
    Satisfies σ constraints ↔ Satisfies τ constraints := by
  refine forall₂_congr fun e member => ?_
  rw [BoolExpr.Holds, BoolExpr.Holds,
    BoolExpr.eval_congr (within e member) agree]

end SafetyGames.Learner
