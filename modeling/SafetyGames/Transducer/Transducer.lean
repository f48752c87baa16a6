import SafetyGames.Transducer.Automaton

/-!
# Transducers

A `TransducerAutomaton` reads pairs of characters, where `'-'` in a component
stands for the empty word.  Its relation is the set of pairs of words spelled
by its accepting paths once the `'-'` are erased.
-/

namespace SafetyGames.Transducer

open SafetyGames.LabelledPath

/-- Pair object used to hold two characters. -/
structure TransducerPair where
  u : JChar
  v : JChar
deriving DecidableEq

/-- The pair with swapped components. -/
def TransducerPair.inverse (pair : TransducerPair) : TransducerPair where
  u := pair.v
  v := pair.u

/-- A copy of the pair. -/
def TransducerPair.deepcopy (pair : TransducerPair) : TransducerPair where
  u := pair.u
  v := pair.v

structure TransducerTransition where
  pair : TransducerPair
  dest : Nat
deriving DecidableEq

structure TransducerState where
  accept : Bool
  transitions : List TransducerTransition
deriving DecidableEq

/-- `new TransducerState()`. -/
def TransducerState.new : TransducerState where
  accept := false
  transitions := []

/-- The transitions whose input component is not `'-'`. -/
def TransducerState.getAlphaTransitions (state : TransducerState) :
    List TransducerTransition :=
  state.transitions.filter fun transition => transition.pair.u ≠ dash

/-- The transitions whose input component is `'-'`. -/
def TransducerState.getEpsilonTransitions (state : TransducerState) :
    List TransducerTransition :=
  state.transitions.filter fun transition => transition.pair.u = dash

/-- The transducer states constructed so far. -/
abbrev TransducerHeap := List TransducerState

namespace TransducerHeap

variable (heap : TransducerHeap)

/-- The state behind a reference. -/
def state (ref : Nat) : TransducerState :=
  heap[ref]?.getD TransducerState.new

/-- Every transition leads to a state of the heap. -/
def Closed : Prop :=
  ∀ state ∈ heap, ∀ transition ∈ state.transitions,
    transition.dest < heap.length

instance : Decidable heap.Closed :=
  inferInstanceAs (Decidable (∀ state ∈ heap,
    ∀ transition ∈ state.transitions, transition.dest < heap.length))

/-- One transition of the heap on a pair. -/
def Step (source : Nat) (pair : TransducerPair) (target : Nat) : Prop :=
  ⟨pair, target⟩ ∈ (heap.state source).transitions

variable {heap}

theorem state_of_length_le {ref : Nat} (outside : heap.length ≤ ref) :
    heap.state ref = TransducerState.new := by
  simp [state, List.getElem?_eq_none outside]

theorem state_mem {ref : Nat} (inside : ref < heap.length) :
    heap.state ref ∈ heap := by
  rw [state, List.getElem?_eq_getElem inside]
  exact List.getElem_mem inside

theorem Closed.transition_lt (closed : heap.Closed)
    {source : Nat} {transition : TransducerTransition}
    (member : transition ∈ (heap.state source).transitions) :
    transition.dest < heap.length := by
  by_cases inside : source < heap.length
  · exact closed _ (state_mem inside) _ member
  · rw [state_of_length_le (Nat.le_of_not_lt inside)] at member
    exact absurd member List.not_mem_nil

end TransducerHeap

/-- A `TransducerAutomaton`. -/
structure TransducerAutomaton where
  states : TransducerHeap
  initial : Nat
  initial_lt : initial < states.length
  closed : states.Closed

/-- The word spelled by the components of a path: its characters other than `'-'`. -/
def erase (word : Word) : Word :=
  word.filter fun c => c ≠ dash

@[simp]
theorem erase_nil : erase [] = [] := rfl

@[simp]
theorem erase_cons_dash (word : Word) : erase (dash :: word) = erase word := by
  simp [erase]

theorem erase_cons_of_ne {c : JChar} (letter : c ≠ dash) (word : Word) :
    erase (c :: word) = c :: erase word := by
  simp [erase, letter]

namespace TransducerAutomaton

variable (ta : TransducerAutomaton)

/-- The state behind a reference. -/
abbrev state (ref : Nat) : TransducerState :=
  ta.states.state ref

/-- An accepting path from `source` spells the pair `(u, v)`. -/
def AcceptsFrom (source : Nat) (u v : Word) : Prop :=
  ∃ pairs target, Path ta.states.Step source pairs target ∧
    (ta.state target).accept = true ∧
      erase (pairs.map TransducerPair.u) = u ∧
        erase (pairs.map TransducerPair.v) = v

/-- The relation `R(T)`. -/
def Rel (u v : Word) : Prop :=
  ta.AcceptsFrom ta.initial u v

/-- No transition carries the pair `('-', '-')`. -/
def NoEmptyPair : Prop :=
  ∀ state ∈ ta.states, ∀ transition ∈ state.transitions,
    ¬ (transition.pair.u = dash ∧ transition.pair.v = dash)

instance : Decidable ta.NoEmptyPair :=
  inferInstanceAs (Decidable (∀ state ∈ ta.states,
    ∀ transition ∈ state.transitions,
      ¬ (transition.pair.u = dash ∧ transition.pair.v = dash)))

/-- The words that `R(T)` relates to some word of a language: `R(T)(L)`. -/
def relImage (language : Set Word) : Set Word :=
  {v | ∃ u ∈ language, ta.Rel u v}

variable {ta}

theorem mem_relImage {language : Set Word} {v : Word} :
    v ∈ ta.relImage language ↔ ∃ u ∈ language, ta.Rel u v := Iff.rfl

theorem NoEmptyPair.letter (noEmptyPair : ta.NoEmptyPair) {ref : Nat}
    {transition : TransducerTransition}
    (member : transition ∈ (ta.state ref).transitions)
    (epsilon : transition.pair.u = dash) :
    transition.pair.v ≠ dash := by
  intro silent
  by_cases inside : ref < ta.states.length
  · exact noEmptyPair _ (TransducerHeap.state_mem inside) _ member
      ⟨epsilon, silent⟩
  · rw [state, TransducerHeap.state_of_length_le (Nat.le_of_not_lt inside)]
      at member
    exact absurd member List.not_mem_nil

theorem acceptsFrom_iff {source : Nat} {u v : Word} :
    ta.AcceptsFrom source u v ↔
      ((ta.state source).accept = true ∧ u = [] ∧ v = []) ∨
        ∃ transition ∈ (ta.state source).transitions, ∃ restU restV,
          ta.AcceptsFrom transition.dest restU restV ∧
            u = erase [transition.pair.u] ++ restU ∧
              v = erase [transition.pair.v] ++ restV := by
  constructor
  · rintro ⟨pairs, target, path, accept, rfl, rfl⟩
    cases path with
    | nil => exact Or.inl ⟨accept, rfl, rfl⟩
    | cons head tail =>
        refine Or.inr ⟨⟨_, _⟩, head, _, _,
          ⟨_, target, tail, accept, rfl, rfl⟩, ?_, ?_⟩
        · simp [erase, List.filter_cons]
          split_ifs <;> simp
        · simp [erase, List.filter_cons]
          split_ifs <;> simp
  · rintro (⟨accept, rfl, rfl⟩ | ⟨transition, member, restU, restV,
      ⟨pairs, target, path, accept, rfl, rfl⟩, rfl, rfl⟩)
    · exact ⟨[], source, Path.nil _, accept, rfl, rfl⟩
    · refine ⟨transition.pair :: pairs, target,
        Path.cons member path, accept, ?_, ?_⟩
      · simp [erase, List.filter_cons]
        split_ifs <;> simp
      · simp [erase, List.filter_cons]
        split_ifs <;> simp

end TransducerAutomaton

end SafetyGames.Transducer
