import SafetyGames.Automata.Reduce
import SafetyGames.Lib.WorklistSources
import SafetyGames.Teacher.Library

/-!
# Live states

`getLiveStates()` and `removeDeadTransitions()`, which restore the class
invariants: no transition leads to a dead state, and all states are reduced.
-/

namespace SafetyGames.Automata

open SafetyGames.Transducer SafetyGames.Teacher SafetyGames.Worklist
open SafetyGames.LabelledPath

/-! ## getLiveStates() -/

section Live

/-- `map.get(ref)`: the states with a transition to the state. -/
def predecessors (a : Automaton) (ref : Nat) : List Nat :=
  a.getStates.filter fun source => ref ∈ a.successors source

/-- `getLiveStates()`. -/
def getLiveStates (a : Automaton) : List Nat :=
  (explore (predecessors a) a.states.length
    ⟨a.getAcceptStates, a.getAcceptStates⟩).getD []

variable {a : Automaton}

theorem predecessors_edge {ref source : Nat} :
    Edge (predecessors a) ref source ↔
      a.Reachable source ∧ ∃ c, a.states.Step source c ref := by
  rw [Edge, predecessors, List.mem_filter, Automaton.mem_getStates,
    decide_eq_true_eq]
  exact and_congr_right fun _ => Automaton.edge_iff

/-- The live states are the reachable ones that accept some word. -/
theorem mem_getLiveStates {ref : Nat} :
    ref ∈ getLiveStates a ↔
      a.Reachable ref ∧ ∃ word, a.states.Accepts ref word := by
  have closed : ∀ vertex ∈ Finset.range a.states.length,
      ∀ next ∈ predecessors a vertex, next ∈ Finset.range a.states.length := by
    intro vertex _ next edge
    exact Finset.mem_range.mpr (predecessors_edge.mp edge).1.lt
  have inside : ∀ source ∈ a.getAcceptStates,
      source ∈ Finset.range a.states.length := by
    intro source member
    exact Finset.mem_range.mpr (Automaton.mem_getAcceptStates.mp member).1.lt
  have nodup : a.getAcceptStates.Nodup := Automaton.nodup_getStates.filter _
  rcases explore_sources closed nodup inside
    (Finset.card_range _).le with ⟨result, returned, _, found⟩
  rw [getLiveStates, returned, Option.getD_some, found]
  constructor
  · rintro ⟨source, accepts, reached⟩
    induction reached with
    | refl =>
        rcases Automaton.mem_getAcceptStates.mp accepts with ⟨reachable, accept⟩
        exact ⟨reachable, [], Heap.accepts_nil.mpr accept⟩
    | tail _ edge induction =>
        rcases induction with ⟨_, word, accepted⟩
        rcases predecessors_edge.mp edge with ⟨reachable, c, taken⟩
        exact ⟨reachable, c :: word,
          Heap.accepts_cons.mpr ⟨_, taken, accepted⟩⟩
  · rintro ⟨reachable, word, target, path, accept⟩
    have back : ∀ {source target : Nat} {word : Word},
        Path a.states.Step source word target → a.Reachable source →
          a.Reachable target ∧
            Relation.ReflTransGen (Edge (predecessors a)) target source := by
      intro source target word path
      induction path with
      | nil => exact fun known => ⟨known, Relation.ReflTransGen.refl⟩
      | cons head _ induction =>
          intro known
          rcases induction (known.step head) with ⟨last, reached⟩
          exact ⟨last, reached.tail (predecessors_edge.mpr ⟨known, _, head⟩)⟩
    rcases back path reachable with ⟨last, reached⟩
    exact ⟨target, Automaton.mem_getAcceptStates.mpr ⟨last, accept⟩, reached⟩

end Live

/-! ## removeDeadTransitions() -/

section RemoveDead

variable (order : StateOrder)

/-- The body of the loop of `removeDeadTransitions()`. -/
def removeDeadState (live : List Nat) (state : State) : State where
  accept := state.accept
  transitions := state.transitions.filter fun t => t.dest ∈ live

theorem keepsDests_removeDeadState (live : List Nat) :
    KeepsDests (removeDeadState live) :=
  fun _ transition member => ⟨transition, List.mem_of_mem_filter member, rfl⟩

/-- `removeDeadTransitions()` before it calls `reduce()`. -/
def removeDead (a : Automaton) : Automaton :=
  changeStates a (removeDeadState (getLiveStates a))
    (keepsDests_removeDeadState _)

/-- `removeDeadTransitions()`. -/
def removeDeadTransitions (a : Automaton) : Automaton :=
  reduce order (removeDead a)

variable {order} {a : Automaton}

theorem removeDead_step_iff {source target : Nat} {c : JChar}
    (reachable : a.Reachable source) :
    (removeDead a).states.Step source c target ↔
      a.states.Step source c target ∧ ∃ word, a.states.Accepts target word := by
  have here : (removeDead a).states.state source =
      removeDeadState (getLiveStates a) (a.state source) :=
    changeStates_state reachable
  rw [Heap.Step, here]
  simp only [removeDeadState, List.mem_filter, decide_eq_true_eq,
    mem_getLiveStates]
  constructor
  · rintro ⟨transition, ⟨member, _, live⟩, reads, rfl⟩
    exact ⟨⟨transition, member, reads, rfl⟩, live⟩
  · rintro ⟨⟨transition, member, reads, rfl⟩, live⟩
    exact ⟨transition, ⟨member,
      reachable.step ⟨transition, member, reads, rfl⟩, live⟩, reads, rfl⟩

/-- Only steps are lost. -/
theorem step_of_removeDead {source target : Nat} {c : JChar}
    (taken : (removeDead a).states.Step source c target) :
    a.states.Step source c target := by
  by_cases reachable : a.Reachable source
  · exact ((removeDead_step_iff reachable).mp taken).1
  · have here : (removeDead a).states.state source = a.state source :=
      changeStates_state_of_not reachable
    rwa [Heap.Step, here] at taken

theorem removeDead_reachable {ref : Nat}
    (reachable : (removeDead a).Reachable ref) : a.Reachable ref := by
  rcases reachable with ⟨word, path⟩
  exact ⟨word, path.mono fun _ _ _ => step_of_removeDead⟩

theorem removeDead_accept (ref : Nat) :
    ((removeDead a).state ref).accept = (a.state ref).accept := by
  by_cases reachable : a.Reachable ref
  · rw [removeDead, changeStates_state reachable]
    rfl
  · rw [removeDead, changeStates_state_of_not reachable]

/-- The reachable states keep their languages. -/
theorem removeDead_accepts_iff {ref : Nat} (reachable : a.Reachable ref)
    (word : Word) :
    (removeDead a).states.Accepts ref word ↔ a.states.Accepts ref word := by
  induction word generalizing ref with
  | nil =>
      rw [Heap.accepts_nil, Heap.accepts_nil]
      exact Bool.eq_iff_iff.mp (removeDead_accept ref)
  | cons c word induction =>
      rw [Heap.accepts_cons, Heap.accepts_cons]
      refine exists_congr fun middle => ?_
      rw [removeDead_step_iff reachable]
      constructor
      · rintro ⟨⟨taken, _⟩, accepts⟩
        exact ⟨taken, (induction (reachable.step taken)).mp accepts⟩
      · rintro ⟨taken, accepts⟩
        exact ⟨⟨taken, word, accepts⟩,
          (induction (reachable.step taken)).mpr accepts⟩

/-- The automaton without its dead transitions: what is reachable was, the
languages stay, every transition is live and every state is reduced. -/
structure Trimmed (a b : Automaton) : Prop where
  initial : b.initial = a.initial
  deterministic : b.deterministic = a.deterministic
  reachable : ∀ ref, b.Reachable ref → a.Reachable ref
  accept : ∀ ref, (b.state ref).accept = (a.state ref).accept
  steps : ∀ source c target, a.Reachable source →
    (b.states.Step source c target ↔
      a.states.Step source c target ∧ ∃ word, a.states.Accepts target word)
  accepts : ∀ ref, a.Reachable ref → ∀ word,
    b.states.Accepts ref word ↔ a.states.Accepts ref word
  deterministicFrom : a.states.DeterministicFrom a.initial →
    b.states.DeterministicFrom b.initial
  reduced : ∀ ref, b.Reachable ref → Reduced (b.state ref).transitions

theorem trimmed_removeDeadTransitions :
    Trimmed a (removeDeadTransitions order a) := by
  have same : SameSteps (removeDead a) (removeDeadTransitions order a) :=
    reduce_sameSteps
  constructor
  · rfl
  · rfl
  · exact fun ref reachable =>
      removeDead_reachable (same.reachable_iff.mp reachable)
  · exact fun ref => (same.accept ref).trans (removeDead_accept ref)
  · exact fun source c target reachable =>
      (same.steps source c target).trans (removeDead_step_iff reachable)
  · exact fun ref reachable word => (same.agree.accepts_iff trivial word).trans
      (removeDead_accepts_iff reachable word)
  · exact fun deterministic => same.deterministicFrom
      (deterministicFrom_of_steps (fun _ _ _ => step_of_removeDead)
        deterministic)
  · exact fun ref reachable => reduce_reduced reachable

namespace Trimmed

variable {b : Automaton}

theorem lang_eq (trimmed : Trimmed a b) : b.lang = a.lang := by
  ext word
  rw [Automaton.mem_lang, trimmed.initial]
  exact trimmed.accepts a.initial Automaton.Reachable.initial word

theorem live (trimmed : Trimmed a b) {ref : Nat} (reachable : b.Reachable ref)
    {transition : Transition}
    (member : transition ∈ (b.state ref).transitions) :
    ∃ word, b.states.Accepts transition.dest word := by
  have taken : b.states.Step ref transition.min transition.dest :=
    ⟨transition, member, transition.reads_min, rfl⟩
  rcases (trimmed.steps ref _ _ (trimmed.reachable ref reachable)).mp taken with
    ⟨_, word, accepts⟩
  refine ⟨word, (trimmed.accepts _ ?_ word).mpr accepts⟩
  exact trimmed.reachable _ (reachable.step taken)

theorem invariants (trimmed : Trimmed a b) (honest : a.HonestFlag) :
    ClassInvariants b where
  honest := fun flag =>
    trimmed.deterministicFrom (honest (trimmed.deterministic ▸ flag))
  live := fun _ reachable _ member => trimmed.live reachable member

end Trimmed

/--
`removeDeadTransitions` keeps the language and exactly the steps to live states.
What is left is reachable as before, live and reduced.
-/
theorem removeDeadTransitions_exact :
    (removeDeadTransitions order a).lang = a.lang ∧
      (∀ source c target, a.Reachable source →
        ((removeDeadTransitions order a).states.Step source c target ↔
          a.states.Step source c target ∧
            ∃ word, a.states.Accepts target word)) ∧
      ∀ ref, (removeDeadTransitions order a).Reachable ref →
        a.Reachable ref ∧
          Reduced ((removeDeadTransitions order a).state ref).transitions ∧
          ∀ t ∈ ((removeDeadTransitions order a).state ref).transitions,
            ∃ word, (removeDeadTransitions order a).states.Accepts t.dest word := by
  have trimmed : Trimmed a (removeDeadTransitions order a) :=
    trimmed_removeDeadTransitions
  refine ⟨trimmed.lang_eq, trimmed.steps, fun ref reachable => ?_⟩
  exact ⟨trimmed.reachable ref reachable, trimmed.reduced ref reachable,
    fun t inState => trimmed.live reachable inState⟩

end RemoveDead

end SafetyGames.Automata
