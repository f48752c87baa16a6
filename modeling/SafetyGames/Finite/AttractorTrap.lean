import SafetyGames.Finite.AttractorExact

/-!
# The complement of the computed attractor is a trap

The counters may be counted down too often, so that too many vertices are
marked, but never too seldom: an edge into a vertex whose predecessors have
been checked was counted at least once.  So the vertices that are left
unmarked are a trap, on every arena and for every list of targets.
-/

namespace SafetyGames.Finite

open SafetyGames.Attractor

variable {n : Nat}

namespace FiniteArena

variable {arena : FiniteArena n} {F : List (Fin n)} {player : Int}

/-- The vertices whose predecessors have been checked. -/
def settled (loop : Loop n) : Finset (Fin n) :=
  Finset.univ.filter fun vertex =>
    loop.attractor vertex = true ∧ vertex ∉ loop.attractorNew

theorem mem_settled {loop : Loop n} {vertex : Fin n} :
    vertex ∈ settled loop ↔
      loop.attractor vertex = true ∧ vertex ∉ loop.attractorNew := by
  simp [settled]

/-- The number of edges from a vertex into the settled ones. -/
def settledEdges (arena : FiniteArena n) (loop : Loop n) (vertex : Fin n) :
    Nat :=
  ∑ next ∈ settled loop, (arena.preds next).count vertex

/-- What holds before every round, on every arena. -/
structure Pending (arena : FiniteArena n) (F : List (Fin n)) (player : Int)
    (loop : Loop n) : Prop where
  targets : ∀ vertex ∈ F, loop.attractor vertex = true
  queue : ∀ vertex ∈ loop.attractorNew, loop.attractor vertex = true
  mine : ∀ vertex, loop.attractor vertex = false →
    arena.players vertex = player →
      ∀ next ∈ settled loop, vertex ∉ arena.preds next
  counters : ∀ vertex, loop.attractor vertex = false →
    arena.players vertex ≠ player →
      loop.outDegrees vertex + settledEdges arena loop vertex ≤
          outDegree arena vertex ∧
        (0 < loop.outDegrees vertex ∨ outDegree arena vertex = 0)

theorem pending_start : Pending arena F player (start arena F) := by
  have none : settled (start arena F) = ∅ := by
    apply Finset.eq_empty_of_forall_notMem
    intro vertex member
    rcases mem_settled.mp member with ⟨marked, notQueued⟩
    rcases (mark_apply _ _ _).mp marked with unmarked | target
    · exact Bool.false_ne_true unmarked
    · exact notQueued target
  constructor
  · intro vertex member
    exact (mark_apply _ _ _).mpr (Or.inr member)
  · intro vertex member
    exact (mark_apply _ _ _).mpr (Or.inr member)
  · intro vertex _ _ next member
    rw [none] at member
    exact absurd member (Finset.notMem_empty next)
  · intro vertex _ _
    rw [settledEdges, none, Finset.sum_empty]
    have counter : (start arena F).outDegrees vertex = outDegree arena vertex :=
      outDegrees_apply arena vertex
    rw [counter]
    constructor <;> omega

/-- After a round the vertices that were marked before it are settled. -/
theorem mem_settled_round {loop : Loop n} {vertex : Fin n} :
    vertex ∈ settled (round arena player loop) ↔
      loop.attractor vertex = true := by
  rw [mem_settled, round_attractor]
  constructor
  · rintro ⟨before | new, old⟩
    · exact before
    · exact absurd new old
  · intro marked
    refine ⟨Or.inl marked, fun queued => ?_⟩
    have unmarked := round_queued_unmarked arena queued
    rw [marked] at unmarked
    exact Bool.false_ne_true unmarked.symm

theorem unmarked_of_round {loop : Loop n} {vertex : Fin n}
    (unmarked : (round arena player loop).attractor vertex = false) :
    loop.attractor vertex = false ∧
      vertex ∉ (round arena player loop).attractorNew := by
  constructor
  · cases before : loop.attractor vertex with
    | false => rfl
    | true =>
        have after := (round_attractor arena player).mpr (Or.inl before)
        rw [after] at unmarked
        exact unmarked
  · intro queued
    have after := (round_attractor arena player).mpr (Or.inr queued)
    rw [after] at unmarked
    exact Bool.false_ne_true unmarked.symm

/-- A marked vertex is settled or in the queue. -/
theorem marked_cases {loop : Loop n} {vertex : Fin n}
    (marked : loop.attractor vertex = true) :
    vertex ∈ settled loop ∨ vertex ∈ loop.attractorNew := by
  by_cases queued : vertex ∈ loop.attractorNew
  · exact Or.inr queued
  · exact Or.inl (mem_settled.mpr ⟨marked, queued⟩)

/-- The edges into newly settled vertices were all counted by the round. -/
theorem settledEdges_round_le (loop : Loop n) (vertex : Fin n) :
    settledEdges arena (round arena player loop) vertex ≤
      settledEdges arena loop vertex +
        edgesInto arena loop.attractorNew vertex := by
  have covered : settled (round arena player loop) ⊆
      settled loop ∪ loop.attractorNew.toFinset := by
    intro next member
    rw [Finset.mem_union, List.mem_toFinset]
    exact marked_cases (mem_settled_round.mp member)
  have queued : ∑ next ∈ loop.attractorNew.toFinset,
      (arena.preds next).count vertex ≤
        edgesInto arena loop.attractorNew vertex := by
    rw [edgesInto_eq_sum]
    calc ∑ next ∈ loop.attractorNew.toFinset, (arena.preds next).count vertex
        ≤ ∑ next ∈ loop.attractorNew.toFinset,
            loop.attractorNew.count next * (arena.preds next).count vertex := by
          apply Finset.sum_le_sum
          intro next member
          apply Nat.le_mul_of_pos_left
          exact List.count_pos_iff.mpr (List.mem_toFinset.mp member)
      _ ≤ _ := Finset.sum_le_sum_of_subset (Finset.subset_univ _)
  calc settledEdges arena (round arena player loop) vertex
      ≤ ∑ next ∈ settled loop ∪ loop.attractorNew.toFinset,
          (arena.preds next).count vertex :=
        Finset.sum_le_sum_of_subset covered
    _ ≤ settledEdges arena loop vertex +
          ∑ next ∈ loop.attractorNew.toFinset,
            (arena.preds next).count vertex :=
        (Nat.le_add_right _ _).trans_eq Finset.sum_union_inter
    _ ≤ _ := Nat.add_le_add_left queued _

theorem Pending.round {loop : Loop n}
    (pending : Pending arena F player loop) :
    Pending arena F player (round arena player loop) := by
  constructor
  · intro vertex member
    exact (round_attractor arena player).mpr
      (Or.inl (pending.targets vertex member))
  · intro vertex queued
    exact (round_attractor arena player).mpr (Or.inr queued)
  · intro vertex unmarked mine next member edge
    rcases unmarked_of_round unmarked with ⟨before, notQueued⟩
    rcases marked_cases (mem_settled_round.mp member) with old | queued
    · exact pending.mine vertex before mine next old edge
    · have found := round_mine arena before mine
      apply notQueued
      apply List.count_pos_iff.mp
      rw [found]
      exact List.count_pos_iff.mpr
        (List.mem_flatMap.mpr ⟨next, queued, edge⟩)
  · intro vertex unmarked other
    rcases unmarked_of_round unmarked with ⟨before, notQueued⟩
    rcases pending.counters vertex before other with ⟨bound, left⟩
    rcases FiniteArena.round_other arena before other with ⟨counter, queue⟩
    have settledBound : settledEdges arena (FiniteArena.round arena player loop)
        vertex ≤ settledEdges arena loop vertex +
          edgesInto arena loop.attractorNew vertex :=
      settledEdges_round_le loop vertex
    rw [counter]
    constructor
    · omega
    · rcases left with positive | none
      · left
        by_contra spent
        rw [if_pos (by omega)] at queue
        apply notQueued
        apply List.count_pos_iff.mp
        omega
      · exact Or.inr none

theorem pending_iterate (k : Nat) :
    Pending arena F player
      ((FiniteArena.round arena player)^[k] (start arena F)) := by
  induction k with
  | zero => exact pending_start
  | succ k induction =>
      rw [Function.iterate_succ_apply']
      exact induction.round

/-- Once the queue is empty the unmarked vertices are a trap. -/
theorem Pending.trap {loop : Loop n} (pending : Pending arena F player loop)
    (idle : loop.attractorNew = []) :
    Trap (arena.game player) {vertex | vertex ∈ F}
      {vertex | loop.attractor vertex = false} := by
  have isSettled : ∀ next, loop.attractor next = true → next ∈ settled loop := by
    intro next marked
    rw [mem_settled, idle]
    exact ⟨marked, List.not_mem_nil⟩
  constructor
  · intro vertex unmarked target
    exact Bool.false_ne_true
      (unmarked.symm.trans (pending.targets vertex target))
  · intro vertex unmarked mine next edge
    show loop.attractor next = false
    rw [← Bool.not_eq_true]
    intro marked
    exact pending.mine vertex unmarked mine next (isSettled next marked) edge
  · intro vertex unmarked other moves
    rcases pending.counters vertex unmarked other with ⟨bound, left⟩
    by_contra stuck
    -- Every edge leads to a settled vertex, so the counter would be spent.
    have all : outDegree arena vertex ≤ settledEdges arena loop vertex := by
      rw [outDegree_eq_sum, settledEdges]
      apply Finset.sum_le_sum_of_ne_zero
      intro next _ counted
      apply isSettled
      rw [← Bool.not_eq_false]
      intro notMarked
      exact stuck ⟨next, notMarked,
        List.count_pos_iff.mp (Nat.pos_of_ne_zero counted)⟩
    rcases moves with ⟨next, edge⟩
    have positive : 0 < outDegree arena vertex := by
      rw [outDegree_eq_sum]
      apply Finset.sum_pos_iff.mpr
      exact ⟨next, Finset.mem_univ next, List.count_pos_iff.mpr edge⟩
    omega

/--
On every arena the algorithm returns for a negative `i`, the unmarked vertices
are a trap, and the opponent keeps every play from them away from `F`.
-/
theorem attractor_trap {n : Nat} (arena : FiniteArena n) (F : List (Fin n))
    (player i : Int) (negative : i < 0) :
    ∃ marks, attractor arena F player i = some marks ∧
      Trap (arena.game player) {vertex | vertex ∈ F}
        {vertex | marks vertex = false} ∧
      ∃ strategy, Legal (arena.game player) strategy ∧
        ∀ vertex, marks vertex = false → ∀ later,
          Relation.ReflTransGen (Follows (arena.game player) strategy)
              vertex later →
            marks later = false ∧ later ∉ F := by
  rcases attractor_returns arena F player i with ⟨marks, returned⟩
  rcases (attractorLoop_eq arena returned).2 negative with ⟨k, idle, rfl⟩
  have trap := (pending_iterate k).trap idle
  exact ⟨_, returned, trap, trap.keeps⟩

/--
Only vertex 4 is unmarked.  By its loop the opponent keeps every play from it
away from the targets.
-/
theorem escapeArena_trap :
    ∃ marks, attractor escapeArena [0, 1] 0 (-1) = some marks ∧
      Trap (escapeArena.game 0) {vertex | vertex ∈ [0, 1]}
        {vertex | marks vertex = false} ∧
      ∃ strategy, Legal (escapeArena.game 0) strategy ∧
        ∀ vertex, marks vertex = false → ∀ later,
          Relation.ReflTransGen (Follows (escapeArena.game 0) strategy)
              vertex later →
            marks later = false ∧ later ∉ [0, 1] :=
  attractor_trap escapeArena [0, 1] 0 (-1) (by decide)

end FiniteArena

end SafetyGames.Finite
