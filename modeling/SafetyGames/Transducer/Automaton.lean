import SafetyGames.Lib.LabelledPath
import Mathlib.Data.Set.Basic
import Mathlib.Data.List.Basic
import Mathlib.Logic.Function.Basic

/-!
# Automata over character intervals

The explicit representation of the library's `Automaton`: `State` and
`Transition` objects in a heap, a transition carrying an interval of
characters.  A heap is the list of the states in the order of their
construction, a reference to a state is its position.  The list of a state's
transitions is their iteration order, which the source leaves open; every
statement about automata therefore quantifies over it.
-/

namespace SafetyGames.Transducer

open SafetyGames.LabelledPath

/-- A `char` of the source: one UTF-16 code unit. -/
abbrev JChar := UInt16

/-- A `String` of the source. -/
abbrev Word := List JChar

/-- The character `'-'`, which stands for the empty word in a pair. -/
def dash : JChar := 45

/-! ## Transitions and states -/

/-- A character interval and a destination; the source's class invariant is `min <= max`. -/
structure Transition where
  min : JChar
  max : JChar
  dest : Nat
  min_le_max : min ≤ max
deriving DecidableEq

/-- `new Transition(c, to)`: a singleton interval. -/
def Transition.single (c : JChar) (dest : Nat) : Transition where
  min := c
  max := c
  dest := dest
  min_le_max := UInt16.le_refl c

theorem Transition.single_inj {v w : JChar} {left right : Nat}
    (equal : Transition.single v left = Transition.single w right) :
    v = w ∧ left = right :=
  ⟨congrArg Transition.min equal, congrArg Transition.dest equal⟩

/-- The transition may be taken on the character. -/
def Transition.Reads (transition : Transition) (c : JChar) : Prop :=
  transition.min ≤ c ∧ c ≤ transition.max

instance (transition : Transition) (c : JChar) :
    Decidable (transition.Reads c) :=
  inferInstanceAs (Decidable (_ ∧ _))

/-- The transition carries a single character. -/
def Transition.Single (transition : Transition) : Prop :=
  transition.min = transition.max

instance (transition : Transition) : Decidable transition.Single :=
  inferInstanceAs (Decidable (_ = _))

theorem Transition.reads_min (transition : Transition) :
    transition.Reads transition.min :=
  ⟨UInt16.le_refl _, transition.min_le_max⟩

theorem Transition.Single.reads_iff {transition : Transition}
    (single : transition.Single) (c : JChar) :
    transition.Reads c ↔ c = transition.min := by
  constructor
  · rintro ⟨lower, upper⟩
    rw [← single] at upper
    exact UInt16.le_antisymm upper lower
  · rintro rfl
    exact transition.reads_min

@[simp]
theorem Transition.single_reads (c d : JChar) (dest : Nat) :
    (Transition.single c dest).Reads d ↔ d = c :=
  (show (Transition.single c dest).Single from rfl).reads_iff d

/-- A `State`: its acceptance and its outgoing transitions. -/
structure State where
  accept : Bool
  transitions : List Transition
deriving DecidableEq

/-- `new State()`: a reject state without transitions. -/
def State.new : State where
  accept := false
  transitions := []

/-! ## Heaps -/

/-- The states constructed so far. -/
abbrev Heap := List State

namespace Heap

variable (heap : Heap)

/-- The state behind a reference. -/
def state (ref : Nat) : State :=
  heap[ref]?.getD State.new

/-- One transition of the heap on a character. -/
def Step (source : Nat) (c : JChar) (target : Nat) : Prop :=
  ∃ transition ∈ (heap.state source).transitions,
    transition.Reads c ∧ transition.dest = target

/-- The word is accepted from a state, the heap being read as an NFA. -/
def Accepts (source : Nat) (word : Word) : Prop :=
  ∃ target, Path heap.Step source word target ∧
    (heap.state target).accept = true

/-- Every transition leads to a state of the heap. -/
def Closed : Prop :=
  ∀ state ∈ heap, ∀ transition ∈ state.transitions,
    transition.dest < heap.length

instance : Decidable heap.Closed :=
  inferInstanceAs (Decidable (∀ state ∈ heap,
    ∀ transition ∈ state.transitions, transition.dest < heap.length))

/-- No reachable state has two transitions on one character to different states. -/
def DeterministicFrom (initial : Nat) : Prop :=
  ∀ word source, Path heap.Step initial word source →
    ∀ c left right, heap.Step source c left → heap.Step source c right →
      left = right

variable {heap}

theorem accepts_nil {source : Nat} :
    heap.Accepts source [] ↔ (heap.state source).accept = true := by
  simp [Accepts]

theorem accepts_cons {source : Nat} {c : JChar} {word : Word} :
    heap.Accepts source (c :: word) ↔
      ∃ middle, heap.Step source c middle ∧ heap.Accepts middle word := by
  constructor
  · rintro ⟨target, path, accept⟩
    rcases Path.cons_iff.mp path with ⟨middle, head, tail⟩
    exact ⟨middle, head, target, tail, accept⟩
  · rintro ⟨middle, head, target, tail, accept⟩
    exact ⟨target, Path.cons head tail, accept⟩

theorem state_of_length_le {ref : Nat} (outside : heap.length ≤ ref) :
    heap.state ref = State.new := by
  simp [state, List.getElem?_eq_none outside]

theorem state_mem {ref : Nat} (inside : ref < heap.length) :
    heap.state ref ∈ heap := by
  rw [state, List.getElem?_eq_getElem inside]
  exact List.getElem_mem inside

theorem Closed.step_lt (closed : heap.Closed)
    {source target : Nat} {c : JChar} (step : heap.Step source c target) :
    target < heap.length := by
  rcases step with ⟨transition, member, _, rfl⟩
  by_cases inside : source < heap.length
  · exact closed _ (state_mem inside) _ member
  · rw [state_of_length_le (Nat.le_of_not_lt inside)] at member
    exact absurd member List.not_mem_nil

theorem DeterministicFrom.unique {initial left right : Nat} {word : Word}
    (deterministic : heap.DeterministicFrom initial)
    (first : Path heap.Step initial word left)
    (second : Path heap.Step initial word right) : left = right := by
  induction word using List.reverseRecOn generalizing left right with
  | nil => exact (Path.nil_iff.mp first).symm.trans (Path.nil_iff.mp second)
  | append_singleton word c induction =>
      rcases Path.snoc_iff.mp first with ⟨middle, before, step⟩
      rcases Path.snoc_iff.mp second with ⟨other, before', step'⟩
      cases induction before before'
      exact deterministic word middle before c left right step step'

/-- Behind a word a deterministic heap goes on from one state. -/
theorem DeterministicFrom.accepts_append_iff {initial middle : Nat}
    {word rest : Word} (deterministic : heap.DeterministicFrom initial)
    (path : Path heap.Step initial word middle) :
    heap.Accepts initial (word ++ rest) ↔ heap.Accepts middle rest := by
  constructor
  · rintro ⟨target, whole, accept⟩
    rcases Path.append_iff.mp whole with ⟨other, before, after⟩
    cases deterministic.unique path before
    exact ⟨target, after, accept⟩
  · rintro ⟨target, after, accept⟩
    exact ⟨target, path.append after, accept⟩

end Heap

/-! ## Automata -/

/-- An `Automaton` in explicit representation, with its `deterministic` flag. -/
structure Automaton where
  states : Heap
  initial : Nat
  deterministic : Bool
  initial_lt : initial < states.length
  closed : states.Closed

namespace Automaton

variable (a : Automaton)

/-- The state behind a reference. -/
abbrev state (ref : Nat) : State :=
  a.states.state ref

/-- The language of the automaton, read as an NFA. -/
def lang : Set Word :=
  {word | a.states.Accepts a.initial word}

/-- A state that some word leads to. -/
def Reachable (ref : Nat) : Prop :=
  ∃ word, Path a.states.Step a.initial word ref

/-- The deterministic flag is set only on a deterministic automaton. -/
def HonestFlag : Prop :=
  a.deterministic = true → a.states.DeterministicFrom a.initial

/-- Every transition carries a single character. -/
def SingleChars : Prop :=
  ∀ state ∈ a.states, ∀ transition ∈ state.transitions, transition.Single

instance : Decidable a.SingleChars :=
  inferInstanceAs (Decidable (∀ state ∈ a.states,
    ∀ transition ∈ state.transitions, transition.Single))

variable {a}

theorem mem_lang {word : Word} :
    word ∈ a.lang ↔ a.states.Accepts a.initial word := Iff.rfl

theorem Reachable.lt {ref : Nat} (reachable : a.Reachable ref) :
    ref < a.states.length := by
  rcases reachable with ⟨word, path⟩
  have inside : ∀ source label target, source < a.states.length →
      a.states.Step source label target → target < a.states.length :=
    fun _ _ _ _ step => a.closed.step_lt step
  exact path.invariant inside a.initial_lt

theorem SingleChars.step_iff (single : a.SingleChars)
    {source target : Nat} {c : JChar} :
    a.states.Step source c target ↔
      ∃ transition ∈ (a.state source).transitions,
        transition.min = c ∧ transition.dest = target := by
  by_cases inside : source < a.states.length
  · constructor
    · rintro ⟨transition, member, reads, dest⟩
      have one := single _ (Heap.state_mem inside) _ member
      exact ⟨transition, member, ((one.reads_iff c).mp reads).symm, dest⟩
    · rintro ⟨transition, member, rfl, dest⟩
      exact ⟨transition, member, transition.reads_min, dest⟩
  · have empty := Heap.state_of_length_le (Nat.le_of_not_lt inside)
    simp [Heap.Step, state, empty, State.new]

end Automaton

/-! ## Automata accepting one word or none -/

/-- `BasicAutomata.makeEmpty()`. -/
def Automaton.makeEmpty : Automaton where
  states := [State.new]
  initial := 0
  deterministic := true
  initial_lt := Nat.one_pos
  closed := by decide

theorem Automaton.not_step_makeEmpty {source target : Nat} {c : JChar} :
    ¬ Automaton.makeEmpty.states.Step source c target := by
  rintro ⟨transition, member, _⟩
  have none : Automaton.makeEmpty.states.state source = State.new := by
    rcases Nat.eq_zero_or_pos source with rfl | positive
    · rfl
    · exact Heap.state_of_length_le positive
  rw [none] at member
  exact List.not_mem_nil member

@[simp]
theorem Automaton.lang_makeEmpty : Automaton.makeEmpty.lang = ∅ := by
  refine Set.eq_empty_of_forall_notMem fun word member => ?_
  cases word with
  | nil => exact Bool.false_ne_true (Heap.accepts_nil.mp member)
  | cons c word =>
      rcases Heap.accepts_cons.mp member with ⟨_, step, _⟩
      exact not_step_makeEmpty step

/-- The states `expandSingleton` builds: a chain that spells the word. -/
def chainStates (word : Word) : Heap :=
  word.zipIdx.map (fun letter =>
      ⟨false, [Transition.single letter.1 (letter.2 + 1)]⟩) ++
    [⟨true, []⟩]

@[simp]
theorem length_chainStates (word : Word) :
    (chainStates word).length = word.length + 1 := by
  simp [chainStates]

theorem chainStates_state_lt {word : Word} {ref : Nat}
    (inside : ref < word.length) :
    (chainStates word).state ref =
      ⟨false, [Transition.single word[ref] (ref + 1)]⟩ := by
  simp [Heap.state, chainStates, List.getElem?_append, inside]

theorem chainStates_state_length (word : Word) :
    (chainStates word).state word.length = ⟨true, []⟩ := by
  simp [Heap.state, chainStates]

/-- `BasicAutomata.makeString(s)` after `expandSingleton`. -/
def Automaton.makeString (word : Word) : Automaton where
  states := chainStates word
  initial := 0
  deterministic := true
  initial_lt := by simp
  closed := by
    intro state member transition inState
    simp only [chainStates, List.mem_append, List.mem_map,
      List.mem_singleton] at member
    rcases member with ⟨letter, inWord, rfl⟩ | rfl
    · rw [List.mem_singleton] at inState
      subst inState
      have bound := List.snd_lt_of_mem_zipIdx inWord
      simp only [Transition.single, length_chainStates]
      omega
    · exact absurd inState List.not_mem_nil

theorem Automaton.singleChars_makeString (word : Word) :
    (Automaton.makeString word).SingleChars := by
  intro state member transition inState
  rcases List.mem_append.mp member with inMap | isLast
  · rcases List.mem_map.mp inMap with ⟨letter, _, rfl⟩
    rw [List.mem_singleton.mp inState]
    rfl
  · rw [List.mem_singleton.mp isLast] at inState
    exact absurd inState List.not_mem_nil

theorem chainStates_step_iff {word : Word} {source target : Nat} {c : JChar} :
    (chainStates word).Step source c target ↔
      word[source]? = some c ∧ target = source + 1 := by
  rcases lt_trichotomy source word.length with inside | last | outside
  · rw [Heap.Step, chainStates_state_lt inside, List.getElem?_eq_getElem inside]
    simp only [List.mem_singleton, exists_eq_left, Transition.single_reads,
      Option.some.injEq]
    constructor
    · rintro ⟨rfl, rfl⟩
      exact ⟨rfl, rfl⟩
    · rintro ⟨rfl, rfl⟩
      exact ⟨rfl, rfl⟩
  · subst last
    simp [Heap.Step, chainStates_state_length]
  · have empty : (chainStates word).state source = State.new :=
      Heap.state_of_length_le (by rw [length_chainStates]; omega)
    simp [Heap.Step, empty, State.new, List.getElem?_eq_none outside.le]

/-- From position `source` the chain spells exactly the letters that are left. -/
theorem chainStates_path_iff {word read : Word} {source target : Nat}
    (inside : source ≤ word.length) :
    Path (chainStates word).Step source read target ↔
      target ≤ word.length ∧ source ≤ target ∧
        read = (word.drop source).take (target - source) := by
  induction read generalizing source with
  | nil =>
      rw [Path.nil_iff]
      constructor
      · rintro rfl
        simp [inside]
      · rintro ⟨bound, order, empty⟩
        have short := congrArg List.length empty
        simp only [List.length_nil, List.length_take, List.length_drop] at short
        omega
  | cons c read induction =>
      rw [Path.cons_iff]
      simp only [chainStates_step_iff]
      constructor
      · rintro ⟨middle, ⟨letter, rfl⟩, tail⟩
        rcases List.getElem?_eq_some_iff.mp letter with ⟨less, rfl⟩
        rcases (induction less).mp tail with ⟨bound, order, rfl⟩
        refine ⟨bound, by omega, ?_⟩
        have count : target - source = (target - (source + 1)) + 1 := by omega
        rw [count, List.drop_eq_getElem_cons less, List.take_succ_cons]
      · rintro ⟨bound, order, equal⟩
        have long := congrArg List.length equal
        simp only [List.length_cons, List.length_take, List.length_drop] at long
        have less : source < word.length := by omega
        have count : target - source = (target - (source + 1)) + 1 := by omega
        rw [count, List.drop_eq_getElem_cons less, List.take_succ_cons,
          List.cons.injEq] at equal
        rcases equal with ⟨rfl, rest⟩
        exact ⟨source + 1, ⟨List.getElem?_eq_getElem less, rfl⟩,
          (induction less).mpr ⟨bound, by omega, rest⟩⟩

@[simp]
theorem Automaton.lang_makeString (word : Word) :
    (Automaton.makeString word).lang = {word} := by
  ext read
  constructor
  · rintro ⟨target, path, accept⟩
    rcases (chainStates_path_iff (Nat.zero_le _)).mp path with ⟨bound, _, equal⟩
    have last : target = word.length := by
      by_contra different
      have less : target < word.length := by omega
      have reject :
          ((Automaton.makeString word).states.state target).accept = false := by
        rw [Automaton.makeString, chainStates_state_lt less]
      rw [reject] at accept
      exact Bool.false_ne_true accept
    subst last
    simpa using equal
  · rintro rfl
    refine ⟨read.length, ?_, ?_⟩
    · exact (chainStates_path_iff (Nat.zero_le _)).mpr
        ⟨le_rfl, Nat.zero_le _, by simp⟩
    · rw [Automaton.makeString, chainStates_state_length]

end SafetyGames.Transducer
