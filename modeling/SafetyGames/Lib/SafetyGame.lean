import Mathlib.Data.Set.Finite.Basic

/-!
# Safety games and their counter-examples

A safety game on arbitrary vertices, its winning sets, and the four kinds of
counter-examples that a teacher gives to a set that is not winning.  A
counter-example is violated by the set it is given to and satisfied by every
winning set, so a learner that keeps its counter-examples and has finitely
many sets to choose from is told about finitely many of them.
-/

namespace SafetyGames.Game

/-- A safety game of player 0, who must stay in the safe vertices. -/
structure SafetyGame (V : Type*) where
  player0 : Set V
  player1 : Set V
  initial : Set V
  safe : Set V
  edge : V → V → Prop

variable {V : Type*} {game : SafetyGame V} {set winning : Set V}

/-- The successors of a vertex. -/
def SafetyGame.successors (game : SafetyGame V) (vertex : V) : Set V :=
  {next | game.edge vertex next}

/-- The four conditions on a winning set. -/
structure Winning (game : SafetyGame V) (set : Set V) : Prop where
  initial : game.initial ⊆ set
  safe : set ⊆ game.safe
  existential : ∀ u ∈ set, u ∈ game.player0 → ∃ v ∈ set, game.edge u v
  universal : ∀ u ∈ set, u ∈ game.player1 → ∀ v, game.edge u v → v ∈ set

/-- What a counter-example asks of a set. -/
inductive Constraint (V : Type*) where
  | pos (v : V)
  | neg (v : V)
  | ex (u : V) (next : Set V)
  | uni (u : V) (next : Set V)

namespace Constraint

/-- The set does what the counter-example asks. -/
def Satisfied (set : Set V) : Constraint V → Prop
  | pos v => v ∈ set
  | neg v => v ∉ set
  | ex u next => u ∈ set → ∃ v ∈ next, v ∈ set
  | uni u next => u ∈ set → ∀ v ∈ next, v ∈ set

/-- The counter-examples to the first condition that a set does not meet. -/
inductive FirstViolated (game : SafetyGame V) (set : Set V) :
    Constraint V → Prop where
  | initial {v : V} (isInitial : v ∈ game.initial) (outside : v ∉ set) :
      FirstViolated game set (pos v)
  | safe {v : V} (starts : game.initial ⊆ set) (inside : v ∈ set)
      (unsafeVertex : v ∉ game.safe) : FirstViolated game set (neg v)
  | existential {u : V} (starts : game.initial ⊆ set)
      (stays : set ⊆ game.safe) (inside : u ∈ set) (owned : u ∈ game.player0)
      (stuck : ∀ v ∈ set, ¬ game.edge u v) :
      FirstViolated game set (ex u (game.successors u))
  | universal {u v : V} (starts : game.initial ⊆ set)
      (stays : set ⊆ game.safe)
      (moves : ∀ u ∈ set, u ∈ game.player0 → ∃ v ∈ set, game.edge u v)
      (inside : u ∈ set) (owned : u ∈ game.player1) (edge : game.edge u v)
      (leaves : v ∉ set) :
      FirstViolated game set (uni u (game.successors u))

variable {constraint : Constraint V}

/-- A counter-example is violated by the set it is given to. -/
theorem FirstViolated.not_satisfied
    (violated : FirstViolated game set constraint) :
    ¬ constraint.Satisfied set := by
  cases violated with
  | initial _ outside => exact outside
  | safe _ inside _ => exact fun outside => outside inside
  | existential _ _ inside _ stuck =>
      intro satisfied
      rcases satisfied inside with ⟨v, edge, member⟩
      exact stuck v member edge
  | universal _ _ _ inside _ edge leaves =>
      exact fun satisfied => leaves (satisfied inside _ edge)

/-- No counter-example excludes a winning set. -/
theorem FirstViolated.satisfied_of_winning
    (violated : FirstViolated game set constraint)
    (wins : Winning game winning) :
    constraint.Satisfied winning := by
  cases violated with
  | initial isInitial _ => exact wins.initial isInitial
  | safe _ _ unsafeVertex => exact fun member => unsafeVertex (wins.safe member)
  | existential _ _ _ owned _ =>
      intro member
      rcases wins.existential _ member owned with ⟨v, inside, edge⟩
      exact ⟨v, edge, inside⟩
  | universal _ _ _ _ owned _ _ =>
      exact fun member v edge => wins.universal _ member owned v edge

end Constraint

/-- A learner that keeps all counter-examples cannot go on for ever with
finitely many sets. -/
theorem not_forever {sets : ℕ → Set V} {constraints : ℕ → Constraint V}
    (violated : ∀ i, ¬ (constraints i).Satisfied (sets i))
    (kept : ∀ i j, i < j → (constraints i).Satisfied (sets j))
    {choices : Set (Set V)} (finite : choices.Finite)
    (chosen : ∀ i, sets i ∈ choices) : False := by
  have different : ∀ i j, i < j → sets i ≠ sets j := by
    intro i j less same
    exact violated i (same ▸ kept i j less)
  have injective : Function.Injective sets := by
    intro i j same
    rcases Nat.lt_trichotomy i j with less | equal | greater
    · exact absurd same (different i j less)
    · exact equal
    · exact absurd same.symm (different j i greater)
  exact Set.infinite_range_of_injective injective
    (finite.subset (Set.range_subset_iff.mpr chosen))

end SafetyGames.Game
