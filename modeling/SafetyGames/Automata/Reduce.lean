import SafetyGames.Automata.Heaps

/-!
# Reduced automata

`reduce()`, which combines the overlapping and adjacent intervals of a state
that lead to one destination.  The numbers of the states sort the transitions.
-/

namespace SafetyGames.Automata

open SafetyGames.Transducer SafetyGames.Intervals SafetyGames.LabelledPath

/-! ## Reachable states changed in place -/

section ChangeStates

/-- Every new transition leads where an old one did. -/
def KeepsDests (change : State → State) : Prop :=
  ∀ state, ∀ transition ∈ (change state).transitions,
    ∃ old ∈ state.transitions, old.dest = transition.dest

/-- `for (State s : getStates())` with a body that changes `s`. -/
def changeStates (a : Automaton) (change : State → State)
    (keeps : KeepsDests change) : Automaton where
  states := update a.states a.getStates change
  initial := a.initial
  deterministic := a.deterministic
  initial_lt := by
    rw [length_update]
    exact a.initial_lt
  closed := by
    intro state member transition inState
    rw [length_update]
    rcases mem_update member with ⟨old, inHeap, rfl | rfl⟩
    · rcases keeps old transition inState with ⟨before, inOld, dest⟩
      exact dest ▸ a.closed old inHeap before inOld
    · exact a.closed state inHeap transition inState

variable {a : Automaton} {change : State → State} {keeps : KeepsDests change}

theorem changeStates_state {ref : Nat} (reachable : a.Reachable ref) :
    (changeStates a change keeps).state ref = change (a.state ref) := by
  refine update_state_of_mem (fun other member => ?_)
    (Automaton.mem_getStates.mpr reachable)
  exact (Automaton.mem_getStates.mp member).lt

theorem changeStates_state_of_not {ref : Nat}
    (unreachable : ¬ a.Reachable ref) :
    (changeStates a change keeps).state ref = a.state ref :=
  update_state_of_notMem fun member =>
    unreachable (Automaton.mem_getStates.mp member)

end ChangeStates

/-- An automaton with the steps and the acceptance of another one. -/
structure SameSteps (a b : Automaton) : Prop where
  initial : b.initial = a.initial
  steps : ∀ source c target,
    b.states.Step source c target ↔ a.states.Step source c target
  accept : ∀ ref, (b.state ref).accept = (a.state ref).accept

namespace SameSteps

variable {a b : Automaton}

theorem agree (same : SameSteps a b) :
    Agree (fun _ => True) a.states b.states where
  keeps := fun _ _ _ _ _ => trivial
  steps := fun source _ => same.steps source
  accept := fun ref _ => same.accept ref

theorem reachable_iff (same : SameSteps a b) {ref : Nat} :
    b.Reachable ref ↔ a.Reachable ref := by
  rw [Automaton.Reachable, same.initial]
  exact exists_congr fun _ => same.agree.path_iff trivial

theorem lang_eq (same : SameSteps a b) : b.lang = a.lang := by
  ext word
  rw [Automaton.mem_lang, same.initial]
  exact same.agree.accepts_iff trivial word

theorem deterministicFrom (same : SameSteps a b)
    (deterministic : a.states.DeterministicFrom a.initial) :
    b.states.DeterministicFrom b.initial := by
  rw [same.initial]
  exact deterministicFrom_of_steps
    (fun source c target => (same.steps source c target).mp) deterministic

end SameSteps

/-! ## reduce() -/

/-- The transitions neither overlap nor touch if they have one destination. -/
def Separate (t1 t2 : Transition) : Prop :=
  t1.dest = t2.dest →
    t1.max.toNat + 1 < t2.min.toNat ∨ t2.max.toNat + 1 < t1.min.toNat

instance : Std.Symm Separate where
  symm _ _ separate same := (separate same.symm).symm

/-- The intervals of a state that lead to one destination are combined. -/
def Reduced (transitions : List Transition) : Prop :=
  transitions.Pairwise Separate

theorem Reduced.nodup {transitions : List Transition}
    (reduced : Reduced transitions) : transitions.Nodup := by
  refine reduced.imp ?_
  rintro t1 _ separate rfl
  have proper := interval_proper t1
  simp only [interval] at proper
  have gap := separate rfl
  omega

section Reduce

variable (order : StateOrder)

/-- The body of the loop of `reduce()`. -/
def reduceState (number : Nat → Nat) (state : State) : State where
  accept := state.accept
  transitions := (merge ((getSortedTransitions number state true).map
    interval)).map ofInterval

/-- The merged intervals are intervals of characters to old destinations. -/
theorem forall_merge_sorted (number : Nat → Nat) (state : State) :
    ∀ numbers ∈ merge ((getSortedTransitions number state true).map interval),
      numbers.low ≤ numbers.high ∧ numbers.high ≤ maxValue ∧
        ∃ old ∈ state.transitions, old.dest = numbers.key := by
  apply forall_merge
  · intro numbers member
    rcases List.mem_map.mp member with ⟨transition, inState, rfl⟩
    exact ⟨interval_proper transition, toNat_le_maxValue _, transition,
      mem_getSortedTransitions.mp inState, rfl⟩
  · rintro current next ⟨proper, _, origin⟩ ⟨_, bounded, _⟩ grows
    exact ⟨proper.trans grows.le, bounded, origin⟩

theorem keepsDests_reduceState (number : Nat → Nat) :
    KeepsDests (reduceState number) := by
  intro state transition member
  rcases List.mem_map.mp member with ⟨numbers, merged, rfl⟩
  rw [ofInterval_dest]
  exact (forall_merge_sorted number state numbers merged).2.2

/-- `reduce()`. -/
def reduce (a : Automaton) : Automaton :=
  changeStates a (reduceState (order.number a)) (keepsDests_reduceState _)

variable {order} {a : Automaton}

/-- The numbers tell the destinations of a reachable state apart. -/
theorem number_dest_inj {ref : Nat} (reachable : a.Reachable ref) :
    ∀ t1 ∈ (a.state ref).transitions, ∀ t2 ∈ (a.state ref).transitions,
      order.number a t1.dest = order.number a t2.dest → t1.dest = t2.dest := by
  intro t1 member t2 _ same
  refine order.number_inj ?_ same
  exact reachable.step ⟨t1, member, t1.reads_min, rfl⟩

theorem reads_reduceState {number : Nat → Nat} {state : State}
    (distinct : ∀ t1 ∈ state.transitions, ∀ t2 ∈ state.transitions,
      number t1.dest = number t2.dest → t1.dest = t2.dest)
    {c : JChar} {dest : Nat} :
    (∃ transition ∈ (reduceState number state).transitions,
        transition.Reads c ∧ transition.dest = dest) ↔
      ∃ transition ∈ state.transitions,
        transition.Reads c ∧ transition.dest = dest := by
  have merged : (∃ transition ∈ (reduceState number state).transitions,
      transition.Reads c ∧ transition.dest = dest) ↔
        Covers (merge ((getSortedTransitions number state true).map interval))
          dest c.toNat := by
    simp only [reduceState, List.mem_map, exists_exists_and_eq_and, Covers]
    refine exists_congr fun numbers => and_congr_right fun member => ?_
    rcases forall_merge_sorted number state numbers member with
      ⟨proper, bounded, _⟩
    rw [ofInterval_reads proper bounded, ofInterval_dest, and_comm]
  rw [merged, covers_merge (pairwise_before distinct), covers_map_interval]
  simp only [mem_getSortedTransitions]

theorem reduced_reduceState {number : Nat → Nat} {state : State}
    (distinct : ∀ t1 ∈ state.transitions, ∀ t2 ∈ state.transitions,
      number t1.dest = number t2.dest → t1.dest = t2.dest) :
    Reduced (reduceState number state).transitions := by
  refine List.pairwise_map.mpr ?_
  have keys : ∀ left ∈ (getSortedTransitions number state true).map interval,
      ∀ right ∈ (getSortedTransitions number state true).map interval,
        left.key ≠ right.key → number left.key ≠ number right.key := by
    intro left inLeft right inRight different equal
    rcases List.mem_map.mp inLeft with ⟨t1, first, rfl⟩
    rcases List.mem_map.mp inRight with ⟨t2, second, rfl⟩
    exact different (distinct t1 (mem_getSortedTransitions.mp first)
      t2 (mem_getSortedTransitions.mp second) equal)
  refine (apart_merge (pairwise_before distinct) keys).imp_of_mem ?_
  intro left right inLeft inRight apart same
  rw [ofInterval_dest, ofInterval_dest] at same
  rcases forall_merge_sorted number state left inLeft with ⟨proper, bounded, _⟩
  rcases forall_merge_sorted number state right inRight with
    ⟨proper', bounded', _⟩
  have first := congrArg Segment.high (interval_ofInterval proper bounded)
  have second := congrArg Segment.low (interval_ofInterval proper' bounded')
  simp only [interval] at first second
  rw [first, second]
  exact Or.inl (apart same)

/-- Reducing changes no step. -/
theorem reduce_sameSteps : SameSteps a (reduce order a) where
  initial := rfl
  steps := by
    intro source c target
    by_cases reachable : a.Reachable source
    · have here : (reduce order a).states.state source =
          reduceState (order.number a) (a.state source) :=
        changeStates_state reachable
      rw [Heap.Step, here]
      exact reads_reduceState (number_dest_inj reachable)
    · have here : (reduce order a).states.state source = a.state source :=
        changeStates_state_of_not reachable
      rw [Heap.Step, here, Heap.Step]
  accept := by
    intro ref
    by_cases reachable : a.Reachable ref
    · rw [reduce, changeStates_state reachable]
      rfl
    · rw [reduce, changeStates_state_of_not reachable]

/-- All reachable states are reduced afterwards. -/
theorem reduce_reduced {ref : Nat} (reachable : (reduce order a).Reachable ref) :
    Reduced ((reduce order a).state ref).transitions := by
  have before := reduce_sameSteps.reachable_iff.mp reachable
  rw [reduce, changeStates_state before]
  exact reduced_reduceState (number_dest_inj before)

end Reduce

end SafetyGames.Automata
