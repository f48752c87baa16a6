import Mathlib.Data.Set.Lattice
import Mathlib.Order.Monotone.Basic
import Mathlib.Logic.Relation

/-!
# Attractors of two-player arenas

An arena is seen here from one of its players: `mine` are the vertices where
that player moves, every other vertex belongs to the opponent.  `attr k` are
the vertices from which the player forces a visit of the target in at most
`k` moves, by the usual induction, and `attrLimit` is their union.
-/

namespace SafetyGames.Attractor

/-- A two-player arena seen from one player. -/
structure Arena (V : Type*) where
  edge : V → V → Prop
  mine : V → Prop

variable {V : Type*} (arena : Arena V) (target : Set V)

/-- One more move: own vertices need one successor, the others all of them. -/
def force (reached : Set V) : Set V :=
  {vertex | arena.mine vertex ∧ ∃ next, arena.edge vertex next ∧ next ∈ reached} ∪
    {vertex | ¬ arena.mine vertex ∧ ∀ next, arena.edge vertex next → next ∈ reached}

/-- The vertices from which the player forces a visit of `target` in at most `k` moves. -/
def attr : ℕ → Set V
  | 0 => target
  | k + 1 => attr k ∪ force arena (attr k)

/-- The vertices from which the player forces a visit of `target`. -/
def attrLimit : Set V :=
  ⋃ k, attr arena target k

@[simp]
theorem attr_zero : attr arena target 0 = target := rfl

theorem attr_succ (k : ℕ) :
    attr arena target (k + 1) =
      attr arena target k ∪ force arena (attr arena target k) := rfl

theorem attr_subset_succ (k : ℕ) :
    attr arena target k ⊆ attr arena target (k + 1) :=
  Set.subset_union_left

theorem attr_mono {i j : ℕ} (before : i ≤ j) :
    attr arena target i ⊆ attr arena target j := by
  induction j, before using Nat.le_induction with
  | base => exact fun _ => id
  | succ j _ induction =>
      exact fun _ member => attr_subset_succ arena target j (induction member)

variable {arena target}

/-- An own vertex outside `attr k` joins the next one through some successor in it. -/
theorem mem_attr_succ_mine (arena : Arena V) {k : ℕ} {vertex : V}
    (mine : arena.mine vertex)
    (outside : vertex ∉ attr arena target k) :
    vertex ∈ attr arena target (k + 1) ↔
      ∃ next, arena.edge vertex next ∧ next ∈ attr arena target k := by
  simp [attr_succ, force, mine, outside]

/-- An opponent's vertex outside `attr k` joins the next one through all its successors. -/
theorem mem_attr_succ_other (arena : Arena V) {k : ℕ} {vertex : V}
    (other : ¬ arena.mine vertex)
    (outside : vertex ∉ attr arena target k) :
    vertex ∈ attr arena target (k + 1) ↔
      ∀ next, arena.edge vertex next → next ∈ attr arena target k := by
  simp [attr_succ, force, other, outside]

/-- Once a round adds nothing, no later round does. -/
theorem attr_stable {k : ℕ}
    (stable : attr arena target (k + 1) = attr arena target k) (more : ℕ) :
    attr arena target (k + more) = attr arena target k := by
  induction more with
  | zero => rfl
  | succ more induction =>
      calc attr arena target (k + more + 1)
          = attr arena target (k + more) ∪
              force arena (attr arena target (k + more)) := rfl
        _ = attr arena target (k + 1) := by rw [induction]; rfl
        _ = attr arena target k := stable

/-- The limit is reached at the first round that adds nothing. -/
theorem attrLimit_eq_of_stable {k : ℕ}
    (stable : attr arena target (k + 1) = attr arena target k) :
    attrLimit arena target = attr arena target k := by
  apply Set.Subset.antisymm
  · apply Set.iUnion_subset
    intro round
    rcases le_total round k with early | late
    · exact attr_mono arena target early
    · rcases Nat.exists_eq_add_of_le late with ⟨more, rfl⟩
      exact (attr_stable stable more).le
  · exact Set.subset_iUnion (attr arena target) k

/-- The attractor is the least set that contains the target and is closed under `force`. -/
theorem attrLimit_subset_of_closed {closed : Set V}
    (start : target ⊆ closed)
    (keep : force arena closed ⊆ closed) :
    attrLimit arena target ⊆ closed := by
  apply Set.iUnion_subset
  intro k
  induction k with
  | zero => exact start
  | succ k induction =>
      apply Set.union_subset induction
      refine subset_trans ?_ keep
      rintro vertex (⟨mine, next, edge, member⟩ | ⟨other, all⟩)
      · exact Or.inl ⟨mine, next, edge, induction member⟩
      · exact Or.inr ⟨other, fun next edge => induction (all next edge)⟩

/-- The first round at which a vertex of the attractor appears. -/
theorem exists_first_round {k : ℕ} {vertex : V}
    (member : vertex ∈ attr arena target k) :
    vertex ∈ target ∨
      ∃ round < k, vertex ∉ attr arena target round ∧
        vertex ∈ attr arena target (round + 1) := by
  induction k with
  | zero => exact Or.inl member
  | succ k induction =>
      by_cases before : vertex ∈ attr arena target k
      · rcases induction before with start | ⟨round, less, outside, inside⟩
        · exact Or.inl start
        · exact Or.inr ⟨round, Nat.lt_succ_of_lt less, outside, inside⟩
      · exact Or.inr ⟨k, Nat.lt_succ_self k, before, member⟩

/-! ## Traps -/

/-- A set that the player cannot leave and the opponent need not leave. -/
structure Trap (arena : Arena V) (target set : Set V) : Prop where
  avoids : ∀ vertex ∈ set, vertex ∉ target
  closed : ∀ vertex ∈ set, arena.mine vertex →
    ∀ next, arena.edge vertex next → next ∈ set
  escapes : ∀ vertex ∈ set, ¬ arena.mine vertex →
    (∃ next, arena.edge vertex next) → ∃ next ∈ set, arena.edge vertex next

/-- A move of a play in which the opponent follows the strategy. -/
def Follows (arena : Arena V) (strategy : V → V) (vertex next : V) : Prop :=
  arena.edge vertex next ∧ (¬ arena.mine vertex → next = strategy vertex)

/-- The strategy chooses an edge wherever the opponent has one. -/
def Legal (arena : Arena V) (strategy : V → V) : Prop :=
  ∀ vertex, ¬ arena.mine vertex → (∃ next, arena.edge vertex next) →
    arena.edge vertex (strategy vertex)

variable {set : Set V}

open Classical in
/-- A strategy that stays in the set where it can. -/
noncomputable def stay (arena : Arena V) (set : Set V) (vertex : V) : V :=
  if inside : ∃ next ∈ set, arena.edge vertex next then
    inside.choose
  else if outside : ∃ next, arena.edge vertex next then
    outside.choose
  else
    vertex

theorem stay_legal : Legal arena (stay arena set) := by
  intro vertex _ moves
  rw [stay]
  split_ifs with inside
  · exact inside.choose_spec.2
  · exact moves.choose_spec

theorem stay_mem {vertex : V}
    (inside : ∃ next ∈ set, arena.edge vertex next) :
    stay arena set vertex ∈ set := by
  rw [stay, dif_pos inside]
  exact inside.choose_spec.1

/-- The opponent has a strategy that keeps every play in the trap. -/
theorem Trap.keeps (trap : Trap arena target set) :
    ∃ strategy, Legal arena strategy ∧
      ∀ vertex ∈ set, ∀ later,
        Relation.ReflTransGen (Follows arena strategy) vertex later →
          later ∈ set ∧ later ∉ target := by
  refine ⟨stay arena set, stay_legal, ?_⟩
  intro vertex member later play
  suffices inside : later ∈ set from ⟨inside, trap.avoids later inside⟩
  induction play with
  | refl => exact member
  | @tail middle next _ move inside =>
      rcases move with ⟨edge, follows⟩
      by_cases mine : arena.mine middle
      · exact trap.closed middle inside mine next edge
      · rw [follows mine]
        exact stay_mem (trap.escapes middle inside mine ⟨next, edge⟩)

end SafetyGames.Attractor
