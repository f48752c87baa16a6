import SafetyGames.Learner.ConstructSat

/-!
# What the constraints say

For each group of constraints, the statement about the cells of the arrays
that an assignment satisfies exactly when it satisfies the group.  Soundness
and completeness of the encoding both start from these statements.
-/

namespace SafetyGames.Learner

open SafetyGames.Transducer SafetyGames.Worklist SafetyGames.PartialFold
open BoolExpr

variable {ν : Type} {σ : ν → Bool} {v : Var → Bool} {n : Nat}

/-! ## Lists of constraints -/

@[simp]
theorem satisfies_append {left right : List (BoolExpr ν)} :
    Satisfies σ (left ++ right) ↔ Satisfies σ left ∧ Satisfies σ right :=
  List.forall_mem_append

@[simp]
theorem satisfies_singleton {e : BoolExpr ν} :
    Satisfies σ [e] ↔ e.Holds σ :=
  List.forall_mem_singleton

@[simp]
theorem satisfies_nil : Satisfies σ [] :=
  fun _ member => absurd member List.not_mem_nil

@[simp]
theorem satisfies_flatMap {α : Type} {list : List α}
    {f : α → List (BoolExpr ν)} :
    Satisfies σ (list.flatMap f) ↔ ∀ value ∈ list, Satisfies σ (f value) :=
  List.forall_mem_flatMap

@[simp]
theorem satisfies_flatten {lists : List (List (BoolExpr ν))} :
    Satisfies σ lists.flatten ↔ ∀ list ∈ lists, Satisfies σ list :=
  List.forall_mem_flatten

@[simp]
theorem satisfies_map {α : Type} {list : List α} {f : α → BoolExpr ν} :
    Satisfies σ (list.map f) ↔ ∀ value ∈ list, (f value).Holds σ :=
  List.forall_mem_map

/-- The call completes, and the assignment satisfies what it adds. -/
def Satisfied (σ : ν → Bool) (call : Option (List (BoolExpr ν))) : Prop :=
  ∃ constraints, call = some constraints ∧ Satisfies σ constraints

/-! ## Rows -/

theorem satisfies_atMostOne {row : Nat → Var} :
    Satisfies v (atMostOne n row) ↔
      ∀ q < n, ∀ q2 < n, v (row q) = true → v (row q2) = true → q = q2 := by
  simp only [atMostOne, satisfies_flatMap, satisfies_map, holds_not, holds_and,
    holds_const, List.mem_range, List.mem_range'_1, not_and]
  constructor
  · intro apart q inside q2 inside2 left right
    rcases lt_trichotomy q q2 with less | same | greater
    · exact absurd right (apart q inside q2 (by omega) left)
    · exact same
    · exact absurd left (apart q2 inside2 q (by omega) right)
  · intro unique q inside q2 bounds left right
    have := unique q inside q2 (by omega) left right
    omega

theorem satisfies_dConstraints {alphabetSize : Nat} :
    Satisfies v (dConstraints n alphabetSize) ↔
      ∀ p < n, ∀ a < alphabetSize,
        (∀ q < n, ∀ q2 < n, v (.d p a q) = true → v (.d p a q2) = true →
          q = q2) ∧
        ∃ q < n, v (.d p a q) = true := by
  simp only [dConstraints, satisfies_flatMap, satisfies_append,
    satisfies_atMostOne, satisfies_singleton, holds_anyOf, List.mem_map,
    List.mem_range, exists_exists_and_eq_and, holds_const]

theorem satisfies_initialConstraints (positive : 0 < n) :
    Satisfies v (initialConstraints n) ↔
      v (.x 0 0) = true ∧ ∀ q < n, v (.x 0 q) = true → q = 0 := by
  simp only [initialConstraints, satisfies_append, satisfies_singleton,
    satisfies_map, holds_const, holds_not, List.mem_range'_1]
  refine and_congr_right fun _ => ?_
  constructor
  · intro others q inside reached
    by_contra different
    exact others q (by omega) reached
  · intro only q bounds reached
    have := only q (by omega) reached
    omega

/-! ## Prefixes -/

/-- What the constraints of one prefix say. -/
structure PrefixSatisfied (v : Var → Bool) (n : Nat) (w : PrefixTree)
    (alphabetSize id : Nat) : Prop where
  unique : ∀ q < n, ∀ q2 < n, v (.x id q) = true → v (.x id q2) = true → q = q2
  forward : ∀ a < alphabetSize, ∀ next, w.child id a = some next →
    ∀ p < n, ∀ q < n, v (.x id p) = true → v (.d p a q) = true →
      v (.x next q) = true
  accepted : 0 < w.accept id → ∀ q < n, v (.x id q) = true → v (.f q) = true
  rejected : w.accept id < 0 → ∀ q < n, v (.x id q) = true → v (.f q) ≠ true

theorem satisfies_prefixConstraints {w : PrefixTree} {alphabetSize id : Nat} :
    Satisfies v (prefixConstraints n w alphabetSize id) ↔
      PrefixSatisfied v n w alphabetSize id := by
  have forward : ∀ a, Satisfies v (childConstraints n id a (w.child id a)) ↔
      ∀ next, w.child id a = some next → ∀ p < n, ∀ q < n,
        v (.x id p) = true → v (.d p a q) = true → v (.x next q) = true := by
    intro a
    cases isChild : w.child id a with
    | none => simp [childConstraints]
    | some next => simp [childConstraints]
  have mark : Satisfies v
      (if 0 < w.accept id then
        (List.range n).map fun q => mkImplies (cell (.x id q)) (cell (.f q))
      else if w.accept id < 0 then
        (List.range n).map fun q =>
          mkImplies (cell (.x id q)) (mkNot (cell (.f q)))
      else []) ↔
      (0 < w.accept id → ∀ q < n, v (.x id q) = true → v (.f q) = true) ∧
        (w.accept id < 0 → ∀ q < n, v (.x id q) = true → v (.f q) ≠ true) := by
    split_ifs with positive negative
    · have notNegative : ¬ w.accept id < 0 := by omega
      simp [positive, notNegative]
    · simp [positive, negative]
    · simp [positive, negative]
  rw [prefixConstraints, satisfies_append, satisfies_append,
    satisfies_atMostOne, satisfies_flatMap, mark]
  simp only [forward, List.mem_range]
  constructor
  · rintro ⟨⟨unique, forward⟩, accepted, rejected⟩
    exact ⟨unique, forward, accepted, rejected⟩
  · rintro ⟨unique, forward, accepted, rejected⟩
    exact ⟨⟨unique, forward⟩, accepted, rejected⟩

/-! ## Counter-examples -/

theorem holds_anteAccepted {id : Nat} :
    (anteAccepted n id).Holds v ↔
      ∃ q < n, v (.x id q) = true ∧ v (.f q) = true := by
  simp [anteAccepted]

/-- What the constraints of a universal counter-example say. -/
structure UniSatisfied (v : Var → Bool) (n u : Nat) (cua : Numbered)
    (uante : Nat) : Prop where
  initial : v (.y u 0 cua.initial) = true
  forward : ∀ edge ∈ cua.edges, ∀ p < n, ∀ q < n,
    v (.y u p edge.source) = true → v (.d p edge.letter q) = true →
      v (.y u q edge.dest) = true
  implication : (∃ q < n, v (.x uante q) = true ∧ v (.f q) = true) →
    ∀ q < n, ∀ fa ∈ cua.acceptStates, v (.y u q fa) = true → v (.f q) = true

theorem satisfies_uniConstraints {u : Nat} {cua : Numbered} {uante : Nat} :
    Satisfies v (uniConstraints n u cua uante) ↔
      UniSatisfied v n u cua uante := by
  rw [uniConstraints]
  simp only [satisfies_append, satisfies_singleton, satisfies_flatMap,
    satisfies_map, holds_const, holds_implies, holds_and, holds_allOf,
    holds_anteAccepted, List.mem_range, List.forall_mem_flatMap,
    List.forall_mem_map, and_imp]
  constructor
  · rintro ⟨⟨initial, forward⟩, implication⟩
    exact ⟨initial, forward, implication⟩
  · rintro ⟨initial, forward, implication⟩
    exact ⟨⟨initial, forward⟩, implication⟩

/-- What the constraints of an existential counter-example say. -/
structure ExSatisfied (v : Var → Bool) (n e : Nat) (cea : Numbered)
    (eante : Nat) : Prop where
  initial : v (.z e 0 cea.initial 0) = true
  onlyInitial : ∀ state ∈ cea.states, ∀ q < n,
    v (.z e q state 0) = true → state = cea.initial ∧ q = 0
  forward : ∀ state ∈ cea.states, ∀ edge ∈ cea.edges, edge.source = state →
    ∀ p < n, ∀ q < n, ∀ l < lMax n cea.na - 1,
      v (.z e p state l) = true → v (.d p edge.letter q) = true →
        v (.z e q edge.dest (l + 1)) = true
  backward : ∀ state ∈ cea.states, ∀ q < n, ∀ l < lMax n cea.na - 1,
    v (.z e q state (l + 1)) = true →
      ∃ edge ∈ cea.edges, edge.dest = state ∧ ∃ p < n,
        v (.d p edge.letter q) = true ∧ v (.z e p edge.source l) = true
  implication : (∃ q < n, v (.x eante q) = true ∧ v (.f q) = true) →
    ∃ q < n, ∃ fa ∈ cea.acceptStates, ∃ l < lMax n cea.na,
      v (.z e q fa l) = true ∧ v (.f q) = true

theorem satisfies_zInitial {e : Nat} {cea : Numbered} :
    Satisfies v (zInitial n e cea) ↔
      v (.z e 0 cea.initial 0) = true ∧
        ∀ state ∈ cea.states, ∀ q < n, v (.z e q state 0) = true →
          state = cea.initial ∧ q = 0 := by
  simp only [zInitial, satisfies_append, satisfies_singleton,
    satisfies_flatMap, satisfies_map, holds_const, holds_not, List.mem_filter,
    List.mem_range, decide_eq_true_eq]
  refine and_congr_right fun _ => ?_
  constructor
  · intro others state member q inside reached
    by_contra different
    exact others state member q ⟨inside, different⟩ reached
  · intro only state member q inside reached
    exact inside.2 (only state member q inside.1 reached)

theorem satisfies_zForward {e state : Nat} {cea : Numbered} :
    Satisfies v (zForward n e cea state) ↔
      ∀ edge ∈ cea.edges, edge.source = state →
        ∀ p < n, ∀ q < n, ∀ l < lMax n cea.na - 1,
          v (.z e p state l) = true → v (.d p edge.letter q) = true →
            v (.z e q edge.dest (l + 1)) = true := by
  simp only [zForward, satisfies_flatMap, satisfies_map, holds_const,
    holds_implies, holds_and, List.mem_filter, List.mem_range,
    decide_eq_true_eq, and_imp]

theorem satisfies_zBackward {e state : Nat} {cea : Numbered} :
    Satisfies v (zBackward n e cea state) ↔
      ∀ q < n, ∀ l < lMax n cea.na - 1, v (.z e q state (l + 1)) = true →
        ∃ edge ∈ cea.edges, edge.dest = state ∧ ∃ p < n,
          v (.d p edge.letter q) = true ∧ v (.z e p edge.source l) = true := by
  have one : ∀ q l, (if (cea.edges.filter fun edge => edge.dest = state) ≠ []
        then mkImplies (cell (.z e q state l))
          (anyOf ((cea.edges.filter fun edge => edge.dest = state).flatMap
            fun edge => (List.range n).map fun p =>
              mkAnd (cell (.d p edge.letter q))
                (cell (.z e p edge.source (l - 1)))))
        else mkNot (cell (.z e q state l))).Holds v ↔
      (v (.z e q state l) = true →
        ∃ edge ∈ cea.edges, edge.dest = state ∧ ∃ p < n,
          v (.d p edge.letter q) = true ∧
            v (.z e p edge.source (l - 1)) = true) := by
    intro q l
    split_ifs with some
    · simp only [holds_implies, holds_const, holds_anyOf, List.mem_flatMap,
        List.mem_filter, decide_eq_true_eq, List.mem_map, List.mem_range]
      refine imp_congr_right fun _ => ?_
      constructor
      · rintro ⟨_, ⟨edge, ⟨member, dest⟩, p, inside, rfl⟩, holds⟩
        exact ⟨edge, member, dest, p, inside, (holds_and _ _).mp holds⟩
      · rintro ⟨edge, member, dest, p, inside, holds⟩
        exact ⟨_, ⟨edge, ⟨member, dest⟩, p, inside, rfl⟩,
          (holds_and _ _).mpr holds⟩
    · rw [not_not] at some
      rw [holds_not, holds_const]
      constructor
      · exact fun never reached => absurd reached never
      · intro back reached
        rcases back reached with ⟨edge, member, dest, _⟩
        have filtered : edge ∈ cea.edges.filter fun edge => edge.dest = state :=
          List.mem_filter.mpr ⟨member, by simpa using dest⟩
        rw [some] at filtered
        exact absurd filtered List.not_mem_nil
  simp only [zBackward, satisfies_flatMap, satisfies_map, one, List.mem_range,
    List.mem_range'_1]
  constructor
  · intro all q inside l bound reached
    exact all q inside (l + 1) (by omega) reached
  · intro all q inside l bounds reached
    obtain ⟨l, rfl⟩ : ∃ k, l = k + 1 := ⟨l - 1, by omega⟩
    exact all q inside l (by omega) reached

theorem satisfied_exConstraints {e : Nat} {cea : Numbered} {eante : Nat} :
    Satisfied v (exConstraints n e cea eante) ↔
      0 < lMax n cea.na ∧ ExSatisfied v n e cea eante := by
  rw [exConstraints]
  split_ifs with zero
  · simp [Satisfied, zero]
  · have positive : 0 < lMax n cea.na := Nat.pos_of_ne_zero zero
    simp only [Satisfied, Option.some.injEq, exists_eq_left', positive,
      true_and, satisfies_append, satisfies_singleton, satisfies_flatMap,
      satisfies_zInitial, satisfies_zForward, satisfies_zBackward,
      holds_implies, holds_anteAccepted, holds_anyOf, List.mem_flatMap,
      List.mem_map, List.mem_range]
    constructor
    · rintro ⟨⟨⟨initial, onlyInitial⟩, moves⟩, implication⟩
      refine ⟨initial, onlyInitial, fun state member => (moves state member).1,
        fun state member => (moves state member).2, fun accepted => ?_⟩
      rcases implication accepted with
        ⟨_, ⟨q, inside, fa, accepts, l, bound, rfl⟩, holds⟩
      exact ⟨q, inside, fa, accepts, l, bound, (holds_and _ _).mp holds⟩
    · rintro ⟨initial, onlyInitial, forward, backward, implication⟩
      refine ⟨⟨⟨initial, onlyInitial⟩, fun state member =>
        ⟨forward state member, backward state member⟩⟩, fun accepted => ?_⟩
      rcases implication accepted with ⟨q, inside, fa, accepts, l, bound, holds⟩
      exact ⟨_, ⟨q, inside, fa, accepts, l, bound, rfl⟩,
        (holds_and _ _).mpr holds⟩

/-! ## All constraints -/

section Problem

variable {order : StateOrder} {alphabet : List JChar} {s : Sample}
  {w : PrefixTree}

/-- The call completes and the assignment satisfies its constraints exactly
when this is so for each of its parts. -/
theorem satisfied_cellConstraints :
    Satisfied v (cellConstraints order alphabet s n w) ↔
      (∀ cu ∈ s.uni.zipIdx, Satisfied v (uniProblem order alphabet w n cu)) ∧
      (∀ ce ∈ s.ex.zipIdx, Satisfied v (exProblem order alphabet w n ce)) ∧
      Satisfies v (dConstraints n alphabet.length) ∧
      Satisfies v (initialConstraints n) ∧
      ∃ prefixes, traverse (children w alphabet.length) w.length [0] =
          some prefixes ∧
        ∀ id ∈ prefixes, PrefixSatisfied v n w alphabet.length id := by
  constructor
  · rintro ⟨constraints, returns, satisfied⟩
    simp only [cellConstraints, Option.bind_eq_bind, Option.bind_eq_some_iff]
      at returns
    rcases returns with ⟨uni, uniReturns, ex, exReturns, prefixes, traversed, returns⟩
    rcases Option.some.inj returns with rfl
    simp only [satisfies_append, satisfies_flatten, satisfies_flatMap,
      satisfies_prefixConstraints] at satisfied
    rcases satisfied with ⟨⟨⟨⟨uniHolds, exHolds⟩, dHolds⟩, initialHolds⟩, prefixHolds⟩
    refine ⟨fun cu member => ?_, fun ce member => ?_, dHolds, initialHolds,
      prefixes, traversed, prefixHolds⟩
    · rcases exists_of_mapM uniReturns member with ⟨part, inUni, equal⟩
      exact ⟨part, equal, uniHolds part inUni⟩
    · rcases exists_of_mapM exReturns member with ⟨part, inEx, equal⟩
      exact ⟨part, equal, exHolds part inEx⟩
  · rintro ⟨uniHolds, exHolds, dHolds, initialHolds, prefixes, traversed,
      prefixHolds⟩
    rcases mapM_returns fun cu member =>
      (uniHolds cu member).imp fun _ spec => spec.1 with ⟨uni, uniReturns⟩
    rcases mapM_returns fun ce member =>
      (exHolds ce member).imp fun _ spec => spec.1 with ⟨ex, exReturns⟩
    refine ⟨_, by rw [cellConstraints, uniReturns, exReturns, traversed]; rfl, ?_⟩
    simp only [satisfies_append, satisfies_flatten, satisfies_flatMap,
      satisfies_prefixConstraints]
    refine ⟨⟨⟨⟨fun part member => ?_, fun part member => ?_⟩, dHolds⟩,
      initialHolds⟩, prefixHolds⟩
    · rcases mem_of_mapM uniReturns member with ⟨cu, inUni, equal⟩
      rcases uniHolds cu inUni with ⟨constraints, returned, holds⟩
      exact Option.some.inj (returned.symm.trans equal) ▸ holds
    · rcases mem_of_mapM exReturns member with ⟨ce, inEx, equal⟩
      rcases exHolds ce inEx with ⟨constraints, returned, holds⟩
      exact Option.some.inj (returned.symm.trans equal) ▸ holds

end Problem

end SafetyGames.Learner
