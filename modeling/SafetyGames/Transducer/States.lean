import SafetyGames.Lib.Worklist
import SafetyGames.Transducer.Automaton

/-!
# The states of an automaton

`getStates` and `getAcceptStates`: the states that the initial state reaches.
The source returns hash sets; the order in which they are iterated, and hence
the numbers that `setStateNumbers` gives, is the parameter `StateOrder`.
-/

namespace SafetyGames.Transducer

open SafetyGames.LabelledPath SafetyGames.Worklist

namespace Automaton

variable (a : Automaton)

/-- The destinations of the transitions of a state. -/
def successors (ref : Nat) : List Nat :=
  (a.state ref).transitions.map Transition.dest

/-- `getStates()`, in the order in which the states are found. -/
def getStates : List Nat :=
  (exploreFrom a.successors a.states.length a.initial).getD []

/-- `getAcceptStates()`, in the same order. -/
def getAcceptStates : List Nat :=
  a.getStates.filter fun ref => (a.state ref).accept

/-- `getNumberOfStates()`. -/
def getNumberOfStates : Nat :=
  a.getStates.length

variable {a}

theorem edge_iff {source target : Nat} :
    Edge a.successors source target ↔
      ∃ c, a.states.Step source c target := by
  simp only [Edge, successors, List.mem_map]
  constructor
  · rintro ⟨transition, member, dest⟩
    exact ⟨transition.min, transition, member, transition.reads_min, dest⟩
  · rintro ⟨_, transition, member, _, dest⟩
    exact ⟨transition, member, dest⟩

theorem reachable_iff {ref : Nat} :
    a.Reachable ref ↔
      Relation.ReflTransGen (Edge a.successors) a.initial ref := by
  constructor
  · rintro ⟨word, path⟩
    have walk : ∀ {source target : Nat} {word : Word},
        Path a.states.Step source word target →
          Relation.ReflTransGen (Edge a.successors) source target := by
      intro source target word path
      induction path with
      | nil => exact Relation.ReflTransGen.refl
      | cons head _ induction => exact induction.head (edge_iff.mpr ⟨_, head⟩)
    exact walk path
  · intro reached
    induction reached with
    | refl => exact ⟨[], Path.nil _⟩
    | tail _ edge induction =>
        rcases induction with ⟨word, path⟩
        rcases edge_iff.mp edge with ⟨c, step⟩
        exact ⟨word ++ [c], path.snoc step⟩

/-- The states found are the reachable ones, each once. -/
theorem getStates_spec :
    a.getStates.Nodup ∧ ∀ ref, ref ∈ a.getStates ↔ a.Reachable ref := by
  have closed : ∀ vertex ∈ Finset.range a.states.length,
      ∀ next ∈ a.successors vertex, next ∈ Finset.range a.states.length := by
    intro vertex _ next edge
    rcases edge_iff.mp edge with ⟨c, step⟩
    exact Finset.mem_range.mpr (a.closed.step_lt step)
  rcases exploreFrom_spec closed
    (Finset.mem_range.mpr a.initial_lt) (Finset.card_range _).le with
    ⟨result, returned, nodup, reached⟩
  rw [getStates, returned]
  refine ⟨nodup, fun ref => ?_⟩
  rw [reachable_iff]
  exact reached ref

theorem nodup_getStates : a.getStates.Nodup :=
  getStates_spec.1

@[simp]
theorem mem_getStates {ref : Nat} : ref ∈ a.getStates ↔ a.Reachable ref :=
  getStates_spec.2 ref

@[simp]
theorem mem_getAcceptStates {ref : Nat} :
    ref ∈ a.getAcceptStates ↔
      a.Reachable ref ∧ (a.state ref).accept = true := by
  simp [getAcceptStates]

theorem Reachable.initial : a.Reachable a.initial :=
  ⟨[], Path.nil _⟩

theorem Reachable.step {source target : Nat} {c : JChar}
    (reachable : a.Reachable source) (step : a.states.Step source c target) :
    a.Reachable target := by
  rcases reachable with ⟨word, path⟩
  exact ⟨word ++ [c], path.snoc step⟩

theorem getNumberOfStates_pos : 0 < a.getNumberOfStates :=
  List.length_pos_of_mem (mem_getStates.mpr Reachable.initial)

end Automaton

/-! ## State numbers -/

/-- The orders in which the sets of states are iterated. -/
structure StateOrder where
  states : Automaton → List Nat
  states_perm : ∀ a, (states a).Perm a.getStates

/-- The states in the order in which they are found. -/
def StateOrder.found : StateOrder where
  states := Automaton.getStates
  states_perm := fun _ => List.Perm.refl _

namespace StateOrder

variable (order : StateOrder) {a : Automaton}

/-- `state.number` after `Automaton.setStateNumbers(a.getStates())`. -/
def number (a : Automaton) (ref : Nat) : Nat :=
  (order.states a).idxOf ref

theorem mem_states {ref : Nat} :
    ref ∈ order.states a ↔ a.Reachable ref :=
  (order.states_perm a).mem_iff.trans Automaton.mem_getStates

theorem number_lt {ref : Nat} (reachable : a.Reachable ref) :
    order.number a ref < a.getNumberOfStates := by
  rw [Automaton.getNumberOfStates, ← (order.states_perm a).length_eq]
  exact List.idxOf_lt_length_of_mem (order.mem_states.mpr reachable)

/-- Different states have different numbers. -/
theorem number_inj {left right : Nat} (reachable : a.Reachable left)
    (same : order.number a left = order.number a right) :
    left = right :=
  (List.idxOf_inj (order.mem_states.mpr reachable)).mp same

end StateOrder

end SafetyGames.Transducer
