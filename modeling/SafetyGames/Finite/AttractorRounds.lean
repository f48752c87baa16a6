import SafetyGames.Finite.FiniteArena
import SafetyGames.Lib.Attractor
import Mathlib.Algebra.BigOperators.Group.Finset.Basic
import Mathlib.Algebra.BigOperators.Fin
import Mathlib.Data.Fintype.Card
import Mathlib.Tactic.Linarith
import Mathlib.Tactic.Ring

/-!
# One round of the attractor algorithm

A round scans the predecessors of the nodes to check, each as often as it
occurs.  The lemmas below say, vertex by vertex, how often the scan queues a
vertex and what it leaves in its out-degree counter; nothing later unfolds the
nested loops again.  The second half shows that the outer loop always returns
and that it returns the vector of some iterate of `round`.
-/

namespace SafetyGames.Finite

open SafetyGames.Attractor

variable {n : Nat}

namespace FiniteArena

variable (arena : FiniteArena n)

/-! ## The vectors -/

/-- The number of edges from `vertex` into the nodes of `list`, repetitions counted. -/
def edgesInto (list : List (Fin n)) (vertex : Fin n) : Nat :=
  (list.flatMap arena.preds).count vertex

/-- The out-degree of a vertex: its number of edges. -/
def outDegree (vertex : Fin n) : Nat :=
  edgesInto arena (List.finRange n) vertex

@[simp]
theorem mark_apply (attractor : Fin n → Bool) (list : List (Fin n))
    (vertex : Fin n) :
    mark attractor list vertex = true ↔
      attractor vertex = true ∨ vertex ∈ list := by
  induction list generalizing attractor with
  | nil => simp [mark]
  | cons index list induction =>
      have step :
          mark attractor (index :: list) =
            mark (Function.update attractor index true) list := rfl
      rw [step, induction]
      by_cases same : vertex = index
      · subst same
        simp
      · simp [same]

theorem count_foldl (list : List (Fin n)) (degrees : Fin n → Int)
    (vertex : Fin n) :
    list.foldl
        (fun degrees pred => Function.update degrees pred (degrees pred + 1))
        degrees vertex =
      degrees vertex + list.count vertex := by
  induction list generalizing degrees with
  | nil => simp
  | cons pred list induction =>
      rw [List.foldl_cons, induction]
      by_cases same : vertex = pred
      · subst same
        rw [Function.update_self, List.count_cons_self]
        push_cast
        ring
      · rw [Function.update_of_ne same, List.count_cons_of_ne (Ne.symm same)]

theorem outDegrees_apply (vertex : Fin n) :
    outDegrees arena vertex = outDegree arena vertex := by
  have flat :
      outDegrees arena =
        ((List.finRange n).flatMap arena.preds).foldl
          (fun degrees pred => Function.update degrees pred (degrees pred + 1))
          (fun _ => 0) := by
    rw [outDegrees, List.foldl_flatMap]
  rw [flat, count_foldl]
  simp [outDegree, edgesInto]

/-! ## The scan -/

/-- A scan is one pass over the predecessors of all nodes to check. -/
theorem checkNodes_eq (player : Int) (attractor : Fin n → Bool)
    (toCheck : List (Fin n)) (degrees : Fin n → Int) :
    checkNodes arena player attractor toCheck degrees =
      (toCheck.flatMap arena.preds).foldl
        (checkPred arena player attractor) ⟨[], degrees⟩ := by
  rw [checkNodes, List.foldl_flatMap]

/-- Checking one predecessor touches no other vertex. -/
theorem checkPred_of_ne (player : Int) (attractor : Fin n → Bool)
    {pred vertex : Fin n} (different : pred ≠ vertex) (scan : Scan n) :
    (checkPred arena player attractor scan pred).attractorNew.count vertex =
        scan.attractorNew.count vertex ∧
      (checkPred arena player attractor scan pred).outDegrees vertex =
        scan.outDegrees vertex := by
  unfold checkPred
  dsimp only
  split_ifs <;>
    simp [List.count_append, different,
      Function.update_of_ne (Ne.symm different)]

/-- Marked vertices are neither queued nor counted down. -/
theorem scan_marked {player : Int} {attractor : Fin n → Bool} {vertex : Fin n}
    (marked : attractor vertex = true)
    (list : List (Fin n)) (scan : Scan n) :
    let result := list.foldl (checkPred arena player attractor) scan
    result.attractorNew.count vertex = scan.attractorNew.count vertex ∧
      result.outDegrees vertex = scan.outDegrees vertex := by
  induction list generalizing scan with
  | nil => simp
  | cons pred list induction =>
      rcases induction (checkPred arena player attractor scan pred) with
        ⟨queued, counter⟩
      by_cases same : pred = vertex
      · subst same
        have idle : checkPred arena player attractor scan pred = scan := by
          simp [checkPred, marked]
        rw [idle] at queued counter
        rw [List.foldl_cons, idle]
        exact ⟨queued, counter⟩
      · rcases checkPred_of_ne arena player attractor same scan with
          ⟨sameQueue, sameCounter⟩
        exact ⟨queued.trans sameQueue, counter.trans sameCounter⟩

/-- An unmarked vertex of the player is queued once for every edge into the checked nodes. -/
theorem scan_mine {player : Int} {attractor : Fin n → Bool} {vertex : Fin n}
    (unmarked : attractor vertex = false)
    (mine : arena.players vertex = player)
    (list : List (Fin n)) (scan : Scan n) :
    let result := list.foldl (checkPred arena player attractor) scan
    result.attractorNew.count vertex =
      scan.attractorNew.count vertex + list.count vertex := by
  induction list generalizing scan with
  | nil => simp
  | cons pred list induction =>
      have queued := induction (checkPred arena player attractor scan pred)
      refine queued.trans ?_
      by_cases same : pred = vertex
      · subst same
        have added :
            (checkPred arena player attractor scan pred).attractorNew.count pred =
              scan.attractorNew.count pred + 1 := by
          simp [checkPred, unmarked, mine, List.count_append]
        rw [added, List.count_cons_self]
        omega
      · rw [List.count_cons_of_ne same,
          (checkPred_of_ne arena player attractor same scan).1]

/--
An unmarked vertex of the opponent is counted down once for every edge into
the checked nodes, and queued once, when its counter passes zero.
-/
theorem scan_other {player : Int} {attractor : Fin n → Bool} {vertex : Fin n}
    (unmarked : attractor vertex = false)
    (other : arena.players vertex ≠ player)
    (list : List (Fin n)) (scan : Scan n) :
    let result := list.foldl (checkPred arena player attractor) scan
    result.outDegrees vertex = scan.outDegrees vertex - list.count vertex ∧
      result.attractorNew.count vertex =
        scan.attractorNew.count vertex +
          (if 0 < scan.outDegrees vertex ∧
              scan.outDegrees vertex ≤ list.count vertex then 1 else 0) := by
  induction list generalizing scan with
  | nil =>
      refine ⟨by simp, ?_⟩
      rw [if_neg]
      · simp
      · simp only [List.count_nil, Nat.cast_zero]
        omega
  | cons pred list induction =>
      rcases induction (checkPred arena player attractor scan pred) with
        ⟨counter, queued⟩
      rw [List.foldl_cons]
      by_cases same : pred = vertex
      · subst same
        have counted :
            (checkPred arena player attractor scan pred).outDegrees pred =
              scan.outDegrees pred - 1 := by
          simp only [checkPred, unmarked, other, if_true, if_false]
          split_ifs <;> simp
        have added :
            (checkPred arena player attractor scan pred).attractorNew.count pred =
              scan.attractorNew.count pred +
                (if scan.outDegrees pred = 1 then 1 else 0) := by
          simp only [checkPred, unmarked, other, if_true, if_false,
            Function.update_self]
          by_cases last : scan.outDegrees pred = 1
          · simp [last, List.count_append]
          · have notZero : ¬ scan.outDegrees pred - 1 = 0 := by omega
            simp [last, notZero]
        rw [counted] at counter queued
        rw [added] at queued
        rw [List.count_cons_self]
        refine ⟨?_, ?_⟩
        · rw [counter]
          push_cast
          ring
        · rw [queued]
          push_cast
          split_ifs <;> omega
      · rcases checkPred_of_ne arena player attractor same scan with
          ⟨sameQueue, sameCounter⟩
        rw [sameCounter] at counter queued
        rw [sameQueue] at queued
        rw [List.count_cons_of_ne same]
        exact ⟨counter, queued⟩

/-! ## One round -/

/-- A round is one scan over the predecessors of the queued nodes. -/
theorem round_eq_scan (player : Int) (loop : Loop n) :
    (round arena player loop).attractorNew =
        ((loop.attractorNew.flatMap arena.preds).foldl
          (checkPred arena player loop.attractor)
          ⟨[], loop.outDegrees⟩).attractorNew ∧
      (round arena player loop).outDegrees =
        ((loop.attractorNew.flatMap arena.preds).foldl
          (checkPred arena player loop.attractor)
          ⟨[], loop.outDegrees⟩).outDegrees := by
  rw [← checkNodes_eq]
  exact ⟨rfl, rfl⟩

theorem round_marked (player : Int) {loop : Loop n} {vertex : Fin n}
    (marked : loop.attractor vertex = true) :
    (round arena player loop).attractorNew.count vertex = 0 := by
  rw [(round_eq_scan arena player loop).1]
  exact (scan_marked arena marked _ _).1

theorem round_mine {player : Int} {loop : Loop n} {vertex : Fin n}
    (unmarked : loop.attractor vertex = false)
    (mine : arena.players vertex = player) :
    (round arena player loop).attractorNew.count vertex =
      edgesInto arena loop.attractorNew vertex := by
  rw [(round_eq_scan arena player loop).1]
  exact (scan_mine arena unmarked mine _ _).trans (Nat.zero_add _)

theorem round_other {player : Int} {loop : Loop n} {vertex : Fin n}
    (unmarked : loop.attractor vertex = false)
    (other : arena.players vertex ≠ player) :
    (round arena player loop).outDegrees vertex =
        loop.outDegrees vertex - edgesInto arena loop.attractorNew vertex ∧
      (round arena player loop).attractorNew.count vertex =
        if 0 < loop.outDegrees vertex ∧
            loop.outDegrees vertex ≤ edgesInto arena loop.attractorNew vertex
        then 1 else 0 := by
  rw [(round_eq_scan arena player loop).1, (round_eq_scan arena player loop).2]
  rcases scan_other arena unmarked other
      (loop.attractorNew.flatMap arena.preds) ⟨[], loop.outDegrees⟩ with
    ⟨counter, queue⟩
  exact ⟨counter, queue.trans (Nat.zero_add _)⟩

/-- The nodes queued by a round were unmarked before it. -/
theorem round_queued_unmarked {player : Int} {loop : Loop n} {vertex : Fin n}
    (queued : vertex ∈ (round arena player loop).attractorNew) :
    loop.attractor vertex = false := by
  cases marked : loop.attractor vertex with
  | false => rfl
  | true =>
      have absent := round_marked arena player marked
      have positive := List.count_pos_iff.mpr queued
      omega

@[simp]
theorem round_attractor (player : Int) {loop : Loop n} {vertex : Fin n} :
    (round arena player loop).attractor vertex = true ↔
      loop.attractor vertex = true ∨
        vertex ∈ (round arena player loop).attractorNew :=
  mark_apply _ _ _

/-- A round without nodes to check changes nothing. -/
theorem round_idle {player : Int} {loop : Loop n}
    (idle : loop.attractorNew = []) :
    round arena player loop = loop := by
  cases loop
  simp only at idle
  subst idle
  rfl

theorem iterate_idle {player : Int} {loop : Loop n}
    (idle : loop.attractorNew = []) (k : Nat) :
    (round arena player)^[k] loop = loop :=
  Function.iterate_fixed (round_idle arena idle) k

/-! ## The outer loop -/

/-- The number of vertices that are not marked. -/
def unmarkedCount (attractor : Fin n → Bool) : Nat :=
  (Finset.univ.filter fun vertex => attractor vertex = false).card

theorem unmarkedCount_round_lt {player : Int} {loop : Loop n}
    (queued : (round arena player loop).attractorNew ≠ []) :
    unmarkedCount (round arena player loop).attractor <
      unmarkedCount loop.attractor := by
  rcases List.exists_mem_of_ne_nil _ queued with ⟨vertex, member⟩
  apply Finset.card_lt_card
  rw [Finset.ssubset_iff_of_subset]
  · refine ⟨vertex, ?_, ?_⟩
    · simpa using round_queued_unmarked arena member
    · simp only [Finset.mem_filter, Finset.mem_univ, true_and,
        Bool.not_eq_false]
      exact (round_attractor arena player).mpr (Or.inr member)
  · intro other unmarked
    simp only [Finset.mem_filter, Finset.mem_univ, true_and] at unmarked ⊢
    cases before : loop.attractor other with
    | false => rfl
    | true =>
        have after :=
          (round_attractor arena player).mpr (Or.inl before)
        rw [after] at unmarked
        exact unmarked

/-- Two rounds more than there are unmarked vertices are enough fuel. -/
theorem attractorLoop_returns (player : Int) (fuel : Nat) (loop : Loop n)
    (i : Int) (enough : unmarkedCount loop.attractor + 2 ≤ fuel) :
    ∃ marks, attractorLoop arena player fuel loop i = some marks := by
  induction fuel generalizing loop i with
  | zero => omega
  | succ fuel induction =>
      rw [attractorLoop]
      split_ifs with continues
      · by_cases queued : (round arena player loop).attractorNew = []
        · obtain ⟨less, rfl⟩ : ∃ less, fuel = less + 1 :=
            ⟨fuel - 1, by omega⟩
          exact ⟨_, by rw [attractorLoop, if_neg (by simp [queued])]⟩
        · have fewer := unmarkedCount_round_lt arena queued
          exact induction _ _ (by omega)
      · exact ⟨_, rfl⟩

/--
What the outer loop returns: the vector after `i` rounds, or, for a negative
`i`, the vector after the first round that queued nothing.
-/
theorem attractorLoop_eq {player : Int} {fuel : Nat} {loop : Loop n} {i : Int}
    {marks : Fin n → Bool}
    (returned : attractorLoop arena player fuel loop i = some marks) :
    (0 ≤ i → marks = ((round arena player)^[i.toNat] loop).attractor) ∧
      (i < 0 → ∃ k, ((round arena player)^[k] loop).attractorNew = [] ∧
        marks = ((round arena player)^[k] loop).attractor) := by
  induction fuel generalizing loop i with
  | zero => simp [attractorLoop] at returned
  | succ fuel induction =>
      rw [attractorLoop] at returned
      split_ifs at returned with continues
      · rcases induction returned with ⟨counted, unbounded⟩
        constructor
        · intro nonnegative
          have rounds : i.toNat = (i - 1).toNat + 1 := by omega
          rw [rounds, Function.iterate_succ_apply]
          exact counted (by omega)
        · intro negative
          rcases unbounded (by omega) with ⟨k, idle, equal⟩
          exact ⟨k + 1, idle, equal⟩
      · have equal : marks = loop.attractor := (Option.some.inj returned).symm
        subst equal
        have stopped : loop.attractorNew = [] ∨ i = 0 := by
          by_cases zero : i = 0
          · exact Or.inr zero
          · left
            by_contra queued
            exact continues ⟨List.length_pos_iff.mpr queued, zero⟩
        constructor
        · intro _
          rcases stopped with idle | rfl
          · rw [iterate_idle arena idle]
          · rfl
        · intro negative
          rcases stopped with idle | rfl
          · exact ⟨0, idle, rfl⟩
          · exact absurd negative (lt_irrefl 0)

/-- The algorithm always returns. -/
theorem attractor_returns (F : List (Fin n)) (player i : Int) :
    ∃ marks, attractor arena F player i = some marks := by
  apply attractorLoop_returns
  have bound : unmarkedCount (start arena F).attractor ≤ n := by
    exact (Finset.card_filter_le _ _).trans (by simp)
  omega

end FiniteArena

end SafetyGames.Finite
