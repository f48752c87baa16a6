import SafetyGames.Finite.AttractorRounds
import Mathlib.Algebra.Order.BigOperators.Group.Finset

/-!
# When the attractor algorithm is exact

The algorithm replaces the test "all successors are in the attractor" by a
counter.  A vertex of the player with several successors among the nodes to
check is queued several times, and each copy counts the opponent's
predecessors down once more.  `queued` follows these copies on the layers of
the attractor itself, `decrements` adds up what they take from a counter, and
`NeverSpentEarly` says that the copies never exhaust the counter of a vertex
that is not due.  A call that runs the rounds below `i` is exact as long as no
counter is exhausted early in these rounds; the first exhausted counter makes
the call that ends there wrong.
-/

namespace SafetyGames.Finite

open SafetyGames.Attractor

variable {n : Nat}

namespace FiniteArena

variable (arena : FiniteArena n) (F : List (Fin n)) (player : Int)

/-- The arena as a two-player arena seen from `player`. -/
def game : Arena (Fin n) where
  edge := fun vertex next => vertex ∈ arena.preds next
  mine := fun vertex => arena.players vertex = player

/-- `Attr^k` of the vertices in `F`. -/
abbrev attrOf (k : ℕ) : Set (Fin n) :=
  attr (arena.game player) {vertex | vertex ∈ F} k

/-- The vertices that `attractor(F, player, i)` is meant to mark. -/
def meant (i : Int) : Set (Fin n) :=
  if 0 ≤ i then attrOf arena F player i.toNat
  else attrLimit (arena.game player) {vertex | vertex ∈ F}

/-- `attractor(F, player, i)` returns and marks exactly the vertices it is meant to mark. -/
def ExactAt (i : Int) : Prop :=
  ∃ marks, attractor arena F player i = some marks ∧
    ∀ vertex, marks vertex = true ↔ vertex ∈ meant arena F player i

open scoped Classical in
/--
How many copies of a vertex the algorithm queues in round `k`: one for each
path of own vertices back to a target or an opponent's vertex.
-/
noncomputable def queued : ℕ → Fin n → ℕ
  | 0, vertex => F.count vertex
  | k + 1, vertex =>
      if vertex ∈ attrOf arena F player (k + 1) ∧
          vertex ∉ attrOf arena F player k then
        if arena.players vertex = player then
          ∑ next, queued k next * (arena.preds next).count vertex
        else 1
      else 0

/-- How often the counter of a vertex is decremented in the first `k` rounds. -/
noncomputable def decrements (k : ℕ) (vertex : Fin n) : ℕ :=
  ∑ round ∈ Finset.range k,
    ∑ next, queued arena F player round next * (arena.preds next).count vertex

/-- In round `k` no counter of an opponent's vertex outside `Attr^(k+1)` is exhausted. -/
def NotSpentAt (k : ℕ) : Prop :=
  ∀ vertex, arena.players vertex ≠ player →
    vertex ∉ attrOf arena F player (k + 1) →
      decrements arena F player (k + 1) vertex < outDegree arena vertex

/-- Round `k` is one of those that a call with the bound `i` may run: the first
`i` of them, or all of them when `i` is negative. -/
def InBound (i : Int) (k : ℕ) : Prop :=
  0 ≤ i → (k : Int) < i

/-- No counter is exhausted before its vertex is due in the rounds of the call
with the bound `i`. -/
def NeverSpentEarly (i : Int) : Prop :=
  ∀ k, InBound i k → NotSpentAt arena F player k

/-! ## Counting edges -/

theorem edgesInto_eq_sum (list : List (Fin n)) (vertex : Fin n) :
    edgesInto arena list vertex =
      ∑ next, list.count next * (arena.preds next).count vertex := by
  induction list with
  | nil => simp [edgesInto]
  | cons head list induction =>
      have split :
          edgesInto arena (head :: list) vertex =
            (arena.preds head).count vertex + edgesInto arena list vertex := by
        simp [edgesInto, List.count_append]
      rw [split, induction]
      have headOnly :
          (arena.preds head).count vertex =
            ∑ next, (if next = head then 1 else 0) *
              (arena.preds next).count vertex := by
        simp
      rw [headOnly, ← Finset.sum_add_distrib]
      apply Finset.sum_congr rfl
      intro next _
      by_cases same : next = head
      · subst same
        rw [if_pos rfl, List.count_cons_self]
        ring
      · rw [if_neg same, List.count_cons_of_ne (Ne.symm same)]
        ring

theorem outDegree_eq_sum (vertex : Fin n) :
    outDegree arena vertex =
      ∑ next, (arena.preds next).count vertex := by
  rw [outDegree, edgesInto_eq_sum]
  apply Finset.sum_congr rfl
  intro next _
  rw [List.count_eq_one_of_mem (List.nodup_finRange n) (List.mem_finRange next),
    one_mul]

variable {arena F player}

/-! ## The copies follow the layers -/

/-- The layer of round `k`: the vertices that enter the attractor there. -/
def layer (arena : FiniteArena n) (F : List (Fin n)) (player : Int) :
    ℕ → Set (Fin n)
  | 0 => {vertex | vertex ∈ F}
  | k + 1 => attrOf arena F player (k + 1) \ attrOf arena F player k

theorem layer_subset_attr (k : ℕ) :
    layer arena F player k ⊆ attrOf arena F player k := by
  cases k with
  | zero => exact subset_rfl
  | succ k => exact Set.sdiff_subset

/-- A successor in `Attr^k` of a vertex outside `Attr^k` lies in the last layer when the vertex is the player's. -/
theorem successor_in_layer {k : ℕ} {vertex next : Fin n}
    (mine : arena.players vertex = player)
    (outside : vertex ∉ attrOf arena F player k)
    (edge : vertex ∈ arena.preds next)
    (member : next ∈ attrOf arena F player k) :
    next ∈ layer arena F player k := by
  cases k with
  | zero => exact member
  | succ k =>
      refine ⟨member, ?_⟩
      intro before
      have outsideBefore : vertex ∉ attrOf arena F player k :=
        fun inside => outside (attr_subset_succ _ _ k inside)
      exact outside
        ((mem_attr_succ_mine (arena.game player) mine
          outsideBefore).mpr ⟨next, edge, before⟩)

/-- A vertex of the player outside `Attr^k` joins the next round iff some queued node has it as predecessor. -/
theorem mem_attr_succ_iff_sum {k : ℕ} {vertex : Fin n}
    (positive : ∀ next, 0 < queued arena F player k next ↔
      next ∈ layer arena F player k)
    (mine : arena.players vertex = player)
    (outside : vertex ∉ attrOf arena F player k) :
    vertex ∈ attrOf arena F player (k + 1) ↔
      0 < ∑ next, queued arena F player k next *
        (arena.preds next).count vertex := by
  rw [attrOf, mem_attr_succ_mine (arena.game player) mine outside,
    Finset.sum_pos_iff]
  constructor
  · rintro ⟨next, edge, member⟩
    refine ⟨next, Finset.mem_univ next, Nat.mul_pos ?_ ?_⟩
    · exact (positive next).mpr (successor_in_layer mine outside edge member)
    · exact List.count_pos_iff.mpr edge
  · rintro ⟨next, _, product⟩
    refine ⟨next, ?_, ?_⟩
    · exact List.count_pos_iff.mp (Nat.pos_of_mul_pos_left product)
    · exact layer_subset_attr k
        ((positive next).mp (Nat.pos_of_mul_pos_right product))

theorem queued_pos_iff (k : ℕ) (vertex : Fin n) :
    0 < queued arena F player k vertex ↔ vertex ∈ layer arena F player k := by
  induction k generalizing vertex with
  | zero => simp [queued, layer, List.count_pos_iff]
  | succ k induction =>
      rw [queued]
      by_cases inLayer : vertex ∈ attrOf arena F player (k + 1) ∧
          vertex ∉ attrOf arena F player k
      · rw [if_pos inLayer]
        have member : vertex ∈ layer arena F player (k + 1) := inLayer
        by_cases mine : arena.players vertex = player
        · rw [if_pos mine]
          simp only [member, iff_true]
          exact (mem_attr_succ_iff_sum induction mine inLayer.2).mp inLayer.1
        · simp [mine, member]
      · rw [if_neg inLayer]
        simp only [lt_irrefl, false_iff]
        exact inLayer

/-- Every vertex of `Attr^k` was queued in some round up to `k`. -/
theorem exists_queued {k : ℕ} {vertex : Fin n}
    (member : vertex ∈ attrOf arena F player k) :
    ∃ round ∈ Finset.range (k + 1), 0 < queued arena F player round vertex := by
  rcases exists_first_round member with inTarget | ⟨round, less, outside, inside⟩
  · exact ⟨0, by simp, (queued_pos_iff 0 vertex).mpr inTarget⟩
  · refine ⟨round + 1, by simpa using less, ?_⟩
    exact (queued_pos_iff (round + 1) vertex).mpr ⟨inside, outside⟩

/-- A vertex all of whose successors are in `Attr^k` has lost its whole counter by then. -/
theorem outDegree_le_decrements {k : ℕ} {vertex : Fin n}
    (all : ∀ next, vertex ∈ arena.preds next →
      next ∈ attrOf arena F player k) :
    outDegree arena vertex ≤ decrements arena F player (k + 1) vertex := by
  rw [outDegree_eq_sum, decrements, Finset.sum_comm]
  apply Finset.sum_le_sum
  intro next _
  by_cases edge : vertex ∈ arena.preds next
  · rcases exists_queued (all next edge) with ⟨round, inRange, positive⟩
    calc (arena.preds next).count vertex
        ≤ queued arena F player round next * (arena.preds next).count vertex :=
          Nat.le_mul_of_pos_left _ positive
      _ ≤ _ :=
          Finset.single_le_sum
            (f := fun round =>
              queued arena F player round next * (arena.preds next).count vertex)
            (fun _ _ => Nat.zero_le _) inRange
  · simp [List.count_eq_zero_of_not_mem edge]

/-! ## The invariant of the rounds -/

/-- After `k` exact rounds: the marks, the queue and the counters that matter. -/
structure Faithful (arena : FiniteArena n) (F : List (Fin n)) (player : Int)
    (k : ℕ) (loop : Loop n) : Prop where
  marks : ∀ vertex, loop.attractor vertex = true ↔
    vertex ∈ attrOf arena F player k
  queue : ∀ vertex, loop.attractorNew.count vertex =
    queued arena F player k vertex
  counters : ∀ vertex, arena.players vertex ≠ player →
    vertex ∉ attrOf arena F player k →
      loop.outDegrees vertex =
          outDegree arena vertex - decrements arena F player k vertex ∧
        decrements arena F player k vertex < outDegree arena vertex

theorem decrements_succ (k : ℕ) (vertex : Fin n) :
    decrements arena F player (k + 1) vertex =
      decrements arena F player k vertex +
        ∑ next, queued arena F player k next *
          (arena.preds next).count vertex :=
  Finset.sum_range_succ _ k

/-- Before the first round the invariant holds, provided every vertex has a successor. -/
theorem faithful_start
    (total : ∀ vertex, ∃ next, vertex ∈ arena.preds next) :
    Faithful arena F player 0 (start arena F) where
  marks := by
    intro vertex
    simp [start]
  queue := by
    intro vertex
    rfl
  counters := by
    intro vertex _ _
    rcases total vertex with ⟨next, edge⟩
    refine ⟨?_, ?_⟩
    · simp [start, outDegrees_apply, decrements]
    · have member : vertex ∈ (List.finRange n).flatMap arena.preds :=
        List.mem_flatMap.mpr ⟨next, List.mem_finRange next, edge⟩
      rw [decrements, Finset.range_zero, Finset.sum_empty]
      exact List.count_pos_iff.mpr member

section Step

variable {k : ℕ} {loop : Loop n}

theorem Faithful.unmarked (faithful : Faithful arena F player k loop)
    {vertex : Fin n} (outside : vertex ∉ attrOf arena F player k) :
    loop.attractor vertex = false := by
  cases marked : loop.attractor vertex with
  | false => rfl
  | true => exact absurd ((faithful.marks vertex).mp marked) outside

/-- The edges a faithful round follows into its queue. -/
theorem Faithful.edges (faithful : Faithful arena F player k loop)
    (vertex : Fin n) :
    edgesInto arena loop.attractorNew vertex =
      ∑ next, queued arena F player k next *
        (arena.preds next).count vertex := by
  rw [edgesInto_eq_sum]
  apply Finset.sum_congr rfl
  intro next _
  rw [faithful.queue]

theorem Faithful.round_other (faithful : Faithful arena F player k loop)
    {vertex : Fin n} (outside : vertex ∉ attrOf arena F player k)
    (other : arena.players vertex ≠ player) :
    (round arena player loop).outDegrees vertex =
        outDegree arena vertex - decrements arena F player (k + 1) vertex ∧
      (round arena player loop).attractorNew.count vertex =
        if outDegree arena vertex ≤ decrements arena F player (k + 1) vertex
        then 1 else 0 := by
  rcases FiniteArena.round_other arena (faithful.unmarked outside) other with
    ⟨counter, queue⟩
  rcases faithful.counters vertex other outside with ⟨degree, positive⟩
  rw [faithful.edges, degree] at counter queue
  rw [decrements_succ]
  refine ⟨?_, ?_⟩
  · rw [counter]
    push_cast
    ring
  · rw [queue]
    congr 1
    apply propext
    omega

/-- A round queues exactly the next layer when no counter is spent early. -/
theorem Faithful.round_queue (faithful : Faithful arena F player k loop)
    (notSpent : NotSpentAt arena F player k) (vertex : Fin n) :
    (round arena player loop).attractorNew.count vertex =
      queued arena F player (k + 1) vertex := by
  by_cases inside : vertex ∈ attrOf arena F player k
  · rw [queued, if_neg (fun both => both.2 inside)]
    exact round_marked arena player ((faithful.marks vertex).mpr inside)
  · by_cases mine : arena.players vertex = player
    · rw [round_mine arena (faithful.unmarked inside) mine, faithful.edges,
        queued]
      have joins := mem_attr_succ_iff_sum
        (fun next => queued_pos_iff k next) mine inside
      by_cases member : vertex ∈ attrOf arena F player (k + 1)
      · rw [if_pos ⟨member, inside⟩, if_pos mine]
      · rw [if_neg (fun both => member both.1)]
        exact Nat.eq_zero_of_not_pos (fun positive => member (joins.mpr positive))
    · rw [(faithful.round_other inside mine).2, queued]
      by_cases member : vertex ∈ attrOf arena F player (k + 1)
      · have all := (mem_attr_succ_other (arena.game player)
          mine inside).mp member
        rw [if_pos (outDegree_le_decrements all), if_pos ⟨member, inside⟩,
          if_neg mine]
      · have remains := notSpent vertex mine member
        rw [if_neg (Nat.not_le.mpr remains),
          if_neg (fun both => member both.1)]

/-- One exact round leads to the next exact state. -/
theorem Faithful.round (faithful : Faithful arena F player k loop)
    (notSpent : NotSpentAt arena F player k) :
    Faithful arena F player (k + 1) (round arena player loop) where
  marks := by
    intro vertex
    rw [round_attractor, faithful.marks, ← List.count_pos_iff,
      faithful.round_queue notSpent, queued_pos_iff]
    constructor
    · rintro (before | new)
      · exact attr_subset_succ _ _ k before
      · exact new.1
    · intro member
      by_cases before : vertex ∈ attrOf arena F player k
      · exact Or.inl before
      · exact Or.inr ⟨member, before⟩
  queue := faithful.round_queue notSpent
  counters := by
    intro vertex other outside
    have outsideBefore : vertex ∉ attrOf arena F player k :=
      fun inside => outside (attr_subset_succ _ _ k inside)
    exact ⟨(faithful.round_other outsideBefore other).1,
      notSpent vertex other outside⟩

end Step

/-- As long as no counter is spent early, every round is exact. -/
theorem faithful_iterate (F : List (Fin n)) (player : Int)
    (total : ∀ vertex, ∃ next, vertex ∈ arena.preds next) (k : ℕ)
    (notSpent : ∀ round < k, NotSpentAt arena F player round) :
    Faithful arena F player k
      ((FiniteArena.round arena player)^[k] (start arena F)) := by
  induction k with
  | zero => exact faithful_start total
  | succ k induction =>
      rw [Function.iterate_succ_apply']
      exact (induction fun round less =>
          notSpent round (Nat.lt_succ_of_lt less)).round
        (notSpent k (Nat.lt_succ_self k))

/-! ## Exactness -/

/-- A call is exact when no counter is spent early in its own rounds: the first
`i` of them for a bound `i ≥ 0`, and otherwise all until one adds nothing. -/
theorem exactAt_of_neverSpentEarly
    (total : ∀ vertex, ∃ next, vertex ∈ arena.preds next) {i : Int}
    (notSpent : NeverSpentEarly arena F player i) :
    ExactAt arena F player i := by
  rcases attractor_returns arena F player i with ⟨marks, returned⟩
  refine ⟨marks, returned, ?_⟩
  intro vertex
  by_cases nonnegative : 0 ≤ i
  · have equal := (attractorLoop_eq arena returned).1 nonnegative
    have below : ∀ round < i.toNat, NotSpentAt arena F player round := by
      intro round less
      apply notSpent round
      intro _
      omega
    rw [meant, if_pos nonnegative, equal]
    exact (faithful_iterate F player total i.toNat below).marks vertex
  · rcases (attractorLoop_eq arena returned).2 (by omega) with ⟨k, idle, equal⟩
    have every : ∀ round, NotSpentAt arena F player round :=
      fun round => notSpent round fun bound => absurd bound nonnegative
    have now := faithful_iterate F player total k (fun round _ => every round)
    have next := now.round (every k)
    rw [round_idle arena idle] at next
    -- The idle round shows that the attractor is complete.
    have stable : attrOf arena F player (k + 1) = attrOf arena F player k := by
      ext vertex
      rw [← next.marks, now.marks]
    rw [meant, if_neg nonnegative, attrLimit_eq_of_stable stable, equal]
    exact now.marks vertex

/-- A counter spent early is seen in the vector of the next round. -/
theorem notSpentAt_of_exactAt
    (total : ∀ vertex, ∃ next, vertex ∈ arena.preds next) (k : ℕ)
    (before : ∀ round < k, NotSpentAt arena F player round)
    (exact : ExactAt arena F player (k + 1 : ℕ)) :
    NotSpentAt arena F player k := by
  intro vertex other outside
  by_contra spent
  have faithful := faithful_iterate F player total k before
  have outsideBefore : vertex ∉ attrOf arena F player k :=
    fun inside => outside (attr_subset_succ _ _ k inside)
  rcases exact with ⟨marks, returned, marked⟩
  have equal := (attractorLoop_eq arena returned).1 (Int.natCast_nonneg _)
  have queuedNow :
      vertex ∈ (FiniteArena.round arena player
        ((FiniteArena.round arena player)^[k] (start arena F))).attractorNew := by
    rw [← List.count_pos_iff,
      (faithful.round_other outsideBefore other).2,
      if_pos (Nat.le_of_not_lt spent)]
    exact Nat.one_pos
  have wrong : marks vertex = true := by
    rw [equal, Int.toNat_natCast, Function.iterate_succ_apply']
    exact (round_attractor arena player).mpr (Or.inr queuedNow)
  have due := (marked vertex).mp wrong
  rw [meant, if_pos (Int.natCast_nonneg _), Int.toNat_natCast] at due
  exact outside due

/--
On an arena without dead ends, the call of `attractor` with the bound `i` is
exact when no counter of an opponent's vertex is exhausted before that vertex is
due in the rounds of this call.  The condition is the least one: it holds
exactly when the calls with the bounds up to `i` (with every bound, when `i` is
negative) are all exact.
-/
theorem attractor_exact_iff
    (total : ∀ vertex, ∃ next, vertex ∈ arena.preds next) (i : Int) :
    (NeverSpentEarly arena F player i → ExactAt arena F player i) ∧
      ((∀ j : Int, (0 ≤ i → 0 ≤ j ∧ j ≤ i) → ExactAt arena F player j) ↔
        NeverSpentEarly arena F player i) := by
  refine ⟨exactAt_of_neverSpentEarly total, ?_, ?_⟩
  · intro exact k
    induction k using Nat.strong_induction_on with
    | _ k before =>
        intro inBound
        apply notSpentAt_of_exactAt total k
        · intro round less
          apply before round less
          intro nonnegative
          have bound := inBound nonnegative
          omega
        · apply exact
          intro nonnegative
          have bound := inBound nonnegative
          omega
  · intro notSpent j within
    apply exactAt_of_neverSpentEarly total
    intro k inBound
    apply notSpent k
    intro nonnegative
    have between := within nonnegative
    have bound := inBound between.1
    omega

/-! ## A counter spent early -/

/--
Vertex 2 of player 0 has two successors in the target and is queued twice, so
the counter of vertex 3 is spent although the opponent can move on to vertex 4.
-/
def escapeArena : FiniteArena 5 :=
  FiniteArena.init 5
    |>.addPreds 0 [0, 2] |>.addPreds 1 [1, 2] |>.addPreds 2 [3]
    |>.addPreds 4 [3, 4]
    |>.setPlayers [0, 0, 0, 1, 1]

/-- The first round spends no counter early when the edges into the targets are
fewer than the edges of each opponent's vertex. -/
theorem neverSpentEarly_one
    (fewer : ∀ vertex, arena.players vertex ≠ player →
      ∑ next, F.count next * (arena.preds next).count vertex <
        outDegree arena vertex) :
    NeverSpentEarly arena F player 1 := by
  intro k inBound
  have first : k = 0 := by
    have less := inBound (by decide)
    omega
  rcases first with rfl
  intro vertex other _
  have counted : decrements arena F player 1 vertex =
      ∑ next, F.count next * (arena.preds next).count vertex := by
    simp [decrements, queued]
  rw [counted]
  exact fewer vertex other

/--
The call with the bound 1 stops before vertex 2 is taken from the queue.  It is
exact on the arena on which the call without a bound is not.
-/
theorem escapeArena_exact_one : ExactAt escapeArena [0, 1] 0 1 := by
  apply (attractor_exact_iff (by decide) 1).1
  exact neverSpentEarly_one (by decide)

/--
Without a bound the call returns and marks vertex 3, although the opponent can
move from there to vertex 4 and stay away from the target for ever.
-/
theorem escapeArena_not_exact :
    ¬ ∀ (n : Nat) (arena : FiniteArena n) (F : List (Fin n)) (player i : Int),
      (∀ vertex, (arena.preds vertex).Nodup) →
        (∀ vertex, ∃ next, vertex ∈ arena.preds next) →
          F.Nodup → ExactAt arena F player i := by
  intro claim
  rcases claim 5 escapeArena [0, 1] 0 (-1) (by decide) (by decide) (by decide) with
    ⟨marks, returned, exact⟩
  have computed :
      (attractor escapeArena [0, 1] 0 (-1)).map (fun marks => marks 3) =
        some true := by
    decide
  rw [returned] at computed
  have due := (exact 3).mp (Option.some.inj computed)
  have trapped :
      attrLimit (escapeArena.game 0) {vertex | vertex ∈ [0, 1]} ⊆
        {vertex | vertex ≠ 3 ∧ vertex ≠ 4} := by
    apply attrLimit_subset_of_closed
    · intro vertex member
      revert member
      revert vertex
      decide
    · rintro vertex (⟨mine, next, edge, -⟩ | ⟨other, all⟩)
      · revert mine edge
        revert vertex next
        unfold game
        decide
      · have left := all 4
        revert other left
        revert vertex
        unfold game
        decide
  exact (trapped due).1 rfl

end FiniteArena

end SafetyGames.Finite
