import SafetyGames.Finite.AttractorExact

/-!
# The attractor does not depend on orders

Two runs of the algorithm on lists in other orders are compared round by round:
they mark the same vertices, queue every vertex equally often and leave the
same counters at the opponent's unmarked vertices.
-/

namespace SafetyGames.Finite

variable {n : Nat}

namespace FiniteArena

/-- The arenas have the same owners, and the same edges in other orders. -/
structure Reordered (arena other : FiniteArena n) : Prop where
  players : other.players = arena.players
  preds : ∀ vertex, (other.preds vertex).Perm (arena.preds vertex)

/-- What two runs of the algorithm have in common before a round. -/
structure Alike (arena : FiniteArena n) (player : Int) (left right : Loop n) :
    Prop where
  marks : right.attractor = left.attractor
  queue : right.attractorNew.Perm left.attractorNew
  counters : ∀ vertex, left.attractor vertex = false →
    arena.players vertex ≠ player →
      right.outDegrees vertex = left.outDegrees vertex

section Orders

variable {arena other : FiniteArena n} {player : Int} {left right : Loop n}

/-- The edges into permuted lists are equally many. -/
theorem Reordered.edgesInto_eq (reordered : Reordered arena other)
    {list permuted : List (Fin n)} (perm : permuted.Perm list)
    (vertex : Fin n) :
    edgesInto other permuted vertex = edgesInto arena list vertex := by
  rw [edgesInto_eq_sum, edgesInto_eq_sum]
  apply Finset.sum_congr rfl
  intro next _
  rw [perm.count_eq, (reordered.preds next).count_eq]

/-- The queues after the round hold every vertex equally often. -/
theorem Alike.round_count (reordered : Reordered arena other)
    (alike : Alike arena player left right) (vertex : Fin n) :
    (round other player right).attractorNew.count vertex =
      (round arena player left).attractorNew.count vertex := by
  have edges := reordered.edgesInto_eq alike.queue vertex
  cases marked : left.attractor vertex with
  | true =>
      have both : right.attractor vertex = true := by
        rw [alike.marks]
        exact marked
      rw [round_marked arena player marked, round_marked other player both]
  | false =>
      have both : right.attractor vertex = false := by
        rw [alike.marks]
        exact marked
      have owner : other.players vertex = arena.players vertex := by
        rw [reordered.players]
      by_cases mine : arena.players vertex = player
      · rw [round_mine arena marked mine,
          round_mine other both (owner.trans mine), edges]
      · have notMine : other.players vertex ≠ player := by
          rw [owner]
          exact mine
        rw [(round_other arena marked mine).2,
          (round_other other both notMine).2, edges,
          alike.counters vertex marked mine]

theorem Alike.round (reordered : Reordered arena other)
    (alike : Alike arena player left right) :
    Alike arena player (round arena player left) (round other player right) := by
  have queue : (FiniteArena.round other player right).attractorNew.Perm
      (FiniteArena.round arena player left).attractorNew :=
    List.perm_iff_count.mpr (alike.round_count reordered)
  constructor
  · funext vertex
    apply Bool.eq_iff_iff.mpr
    rw [round_attractor, round_attractor, alike.marks, queue.mem_iff]
  · exact queue
  · intro vertex unmarked notMine
    have before : left.attractor vertex = false := by
      cases marked : left.attractor vertex with
      | false => rfl
      | true =>
          have after := (round_attractor arena player).mpr (Or.inl marked)
          rw [after] at unmarked
          exact unmarked
    have both : right.attractor vertex = false := by
      rw [alike.marks]
      exact before
    have notOther : other.players vertex ≠ player := by
      rw [reordered.players]
      exact notMine
    rw [(round_other arena before notMine).1, (round_other other both notOther).1,
      reordered.edgesInto_eq alike.queue, alike.counters vertex before notMine]

theorem alike_start (reordered : Reordered arena other)
    {F permuted : List (Fin n)} (perm : permuted.Perm F) :
    Alike arena player (start arena F) (start other permuted) := by
  constructor
  · funext vertex
    apply Bool.eq_iff_iff.mpr
    rw [start, start, mark_apply, mark_apply, perm.mem_iff]
  · exact perm
  · intro vertex _ _
    have left : (start arena F).outDegrees vertex = outDegree arena vertex :=
      outDegrees_apply arena vertex
    have right : (start other permuted).outDegrees vertex =
        outDegree other vertex := outDegrees_apply other vertex
    rw [left, right, outDegree, outDegree,
      reordered.edgesInto_eq (List.Perm.refl _)]

/-- The loops return the same vector. -/
theorem Alike.attractorLoop_eq (reordered : Reordered arena other)
    (alike : Alike arena player left right) (fuel : Nat) (i : Int) :
    attractorLoop other player fuel right i =
      attractorLoop arena player fuel left i := by
  induction fuel generalizing left right i with
  | zero => rfl
  | succ fuel induction =>
      rw [attractorLoop, attractorLoop, alike.queue.length_eq, alike.marks,
        induction (alike.round reordered)]

end Orders

/--
Both calls return, and permuting the targets and the predecessor lists does not
change what they return.
-/
theorem attractor_perm {n : Nat} {arena other : FiniteArena n}
    (reordered : Reordered arena other) {F permuted : List (Fin n)}
    (perm : permuted.Perm F) (player i : Int) :
    ∃ marks, attractor arena F player i = some marks ∧
      attractor other permuted player i = some marks := by
  rcases attractor_returns arena F player i with ⟨marks, returned⟩
  have same : attractor other permuted player i = attractor arena F player i :=
    (alike_start reordered perm).attractorLoop_eq reordered (n + 2) i
  exact ⟨marks, returned, same.trans returned⟩

/-- The arena of `escapeArena` with its predecessor lists reversed. -/
def turnedArena : FiniteArena 5 where
  preds next := (escapeArena.preds next).reverse
  players := escapeArena.players

theorem turnedArena_reordered : Reordered escapeArena turnedArena where
  players := rfl
  preds next := List.reverse_perm (escapeArena.preds next)

/--
The arena with all predecessor lists turned around, and the targets in the other
order.
-/
theorem attractor_perm_turnedArena :
    ∃ marks, attractor escapeArena [0, 1] 0 (-1) = some marks ∧
      attractor turnedArena [1, 0] 0 (-1) = some marks := by
  have perm : ([1, 0] : List (Fin 5)).Perm [0, 1] := List.Perm.swap 0 1 []
  exact attractor_perm turnedArena_reordered perm 0 (-1)

end FiniteArena

end SafetyGames.Finite
