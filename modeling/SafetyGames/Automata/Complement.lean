import SafetyGames.Automata.Determinize

/-!
# Total automata and complements

`totalize()` leads every character that a state does not read to a crash
state, and `complement` exchanges acceptance in the total deterministic
automaton.
-/

namespace SafetyGames.Automata

open SafetyGames.Transducer SafetyGames.Teacher SafetyGames.Intervals
open SafetyGames.LabelledPath

/-! ## totalize() -/

section Totalize

variable (order : StateOrder)

/-- The new transitions of the loop of `totalize()`. -/
def gapTransitions (number : Nat → Nat) (crash : Nat) (state : State) :
    List Transition :=
  (gaps maxValue 0 ((getSortedTransitions number state false).map interval)).map
    fun gap => newTransition (toChar gap.1) (toChar gap.2) crash

/-- The body of the loop of `totalize()`. -/
def totalizeState (number : Nat → Nat) (crash : Nat) (state : State) : State where
  accept := state.accept
  transitions := state.transitions ++ gapTransitions number crash state

theorem zero_le_top : (0 : JChar) ≤ 65535 :=
  UInt16.zero_le

/-- The crash state. -/
def crashState (crash : Nat) : State where
  accept := false
  transitions := [⟨0, 65535, crash, zero_le_top⟩]

theorem gapTransitions_dest {number : Nat → Nat} {crash : Nat} {state : State}
    {transition : Transition}
    (member : transition ∈ gapTransitions number crash state) :
    transition.dest = crash := by
  rcases List.mem_map.mp member with ⟨gap, _, rfl⟩
  exact newTransition_dest _ _ _

/-- The new transitions read what no old transition reads. -/
theorem reads_gapTransitions {number : Nat → Nat} {crash : Nat} {state : State}
    {c : JChar} :
    (∃ transition ∈ gapTransitions number crash state, transition.Reads c) ↔
      ∀ transition ∈ state.transitions, ¬ transition.Reads c := by
  have proper : ∀ numbers ∈
      (getSortedTransitions number state false).map interval,
        numbers.low ≤ numbers.high := by
    intro numbers member
    rcases List.mem_map.mp member with ⟨transition, _, rfl⟩
    exact interval_proper transition
  have bounded : ∀ numbers ∈
      (getSortedTransitions number state false).map interval,
        numbers.low ≤ maxValue := by
    intro numbers member
    rcases List.mem_map.mp member with ⟨transition, _, rfl⟩
    exact toNat_le_maxValue _
  have free := @gaps_spec _ maxValue _ 0 (pairwise_low number state) proper
    c.toNat (toNat_le_maxValue c)
  simp only [Nat.zero_le, true_and, List.forall_mem_map, interval_has,
    mem_getSortedTransitions] at free
  rw [← free]
  simp only [gapTransitions, List.mem_map, exists_exists_and_eq_and]
  refine exists_congr fun gap => and_congr_right fun member => ?_
  rcases gaps_proper bounded member with ⟨order, top⟩
  exact @ofInterval_reads ⟨gap.1, gap.2, crash⟩ order top c

/-- `totalize()`; the numbers only order transitions with equal intervals. -/
def totalize (a : Automaton) : Automaton where
  states := update a.states a.getStates
      (totalizeState (order.number a) a.states.length) ++
    [crashState a.states.length]
  initial := a.initial
  deterministic := a.deterministic
  initial_lt := by
    rw [List.length_append, length_update]
    exact Nat.lt_add_right _ a.initial_lt
  closed := by
    intro state member transition inState
    rw [List.length_append, length_update, List.length_singleton]
    rcases List.mem_append.mp member with inHeap | isCrash
    · rcases mem_update inHeap with ⟨old, inOld, rfl | rfl⟩
      · rcases List.mem_append.mp inState with before | isNew
        · exact Nat.lt_succ_of_lt (a.closed old inOld transition before)
        · rw [gapTransitions_dest isNew]
          exact Nat.lt_succ_self _
      · exact Nat.lt_succ_of_lt (a.closed state inOld transition inState)
    · rw [List.mem_singleton.mp isCrash] at inState
      rw [List.mem_singleton.mp inState]
      exact Nat.lt_succ_self _

variable {order} {a : Automaton}

theorem totalize_state {ref : Nat} (reachable : a.Reachable ref) :
    (totalize order a).states.state ref =
      totalizeState (order.number a) a.states.length (a.state ref) := by
  have inside := reachable.lt
  have changed := @update_state_of_mem a.states a.getStates
    (totalizeState (order.number a) a.states.length)
    (fun other member => (Automaton.mem_getStates.mp member).lt) ref
    (Automaton.mem_getStates.mpr reachable)
  rw [← changed, Heap.state, Heap.state, totalize, List.getElem?_append_left]
  rwa [length_update]

theorem totalize_state_crash :
    (totalize order a).states.state a.states.length =
      crashState a.states.length := by
  simp [Heap.state, totalize]

theorem totalize_step_iff {source target : Nat} {c : JChar}
    (reachable : a.Reachable source) :
    (totalize order a).states.Step source c target ↔
      a.states.Step source c target ∨
        target = a.states.length ∧ ∀ middle, ¬ a.states.Step source c middle := by
  have unread : (∀ middle, ¬ a.states.Step source c middle) ↔
      ∀ transition ∈ (a.state source).transitions, ¬ transition.Reads c := by
    constructor
    · intro none transition member reads
      exact none _ ⟨transition, member, reads, rfl⟩
    · rintro none middle ⟨transition, member, reads, _⟩
      exact none transition member reads
  rw [Heap.Step, totalize_state reachable, unread,
    ← @reads_gapTransitions (order.number a) a.states.length]
  simp only [totalizeState, List.mem_append, or_and_right, exists_or]
  refine or_congr Iff.rfl ?_
  constructor
  · rintro ⟨transition, member, reads, rfl⟩
    exact ⟨gapTransitions_dest member, transition, member, reads⟩
  · rintro ⟨rfl, transition, member, reads⟩
    exact ⟨transition, member, reads, gapTransitions_dest member⟩

theorem totalize_step_crash_iff {target : Nat} {c : JChar} :
    (totalize order a).states.Step a.states.length c target ↔
      target = a.states.length := by
  rw [Heap.Step, totalize_state_crash]
  constructor
  · rintro ⟨transition, member, _, rfl⟩
    rw [List.mem_singleton.mp member]
  · rintro rfl
    exact ⟨_, List.mem_singleton_self _,
      ⟨UInt16.zero_le, UInt16.le_iff_toNat_le.mpr (toNat_le_maxValue c)⟩, rfl⟩

theorem totalize_reachable {ref : Nat}
    (reachable : (totalize order a).Reachable ref) :
    a.Reachable ref ∨ ref = a.states.length := by
  rcases reachable with ⟨word, path⟩
  have kept : ∀ source c target,
      (a.Reachable source ∨ source = a.states.length) →
        (totalize order a).states.Step source c target →
          a.Reachable target ∨ target = a.states.length := by
    rintro source c target (known | rfl) taken
    · rcases (totalize_step_iff known).mp taken with old | ⟨isCrash, _⟩
      · exact Or.inl (known.step old)
      · exact Or.inr isCrash
    · exact Or.inr (totalize_step_crash_iff.mp taken)
  exact path.invariant kept (Or.inl Automaton.Reachable.initial)

theorem reachable_totalize {ref : Nat} (reachable : a.Reachable ref) :
    (totalize order a).Reachable ref := by
  rw [Automaton.reachable_iff] at reachable
  induction reachable with
  | refl => exact Automaton.Reachable.initial
  | tail before edge induction =>
      rcases Automaton.edge_iff.mp edge with ⟨c, taken⟩
      have known := Automaton.reachable_iff.mpr before
      exact induction.step ((totalize_step_iff known).mpr (Or.inl taken))

/-- Every reachable state reads every character afterwards. -/
theorem totalize_total {ref : Nat} (reachable : (totalize order a).Reachable ref)
    (c : JChar) : ∃ target, (totalize order a).states.Step ref c target := by
  rcases totalize_reachable reachable with known | rfl
  · by_cases reads : ∃ middle, a.states.Step ref c middle
    · rcases reads with ⟨middle, taken⟩
      exact ⟨middle, (totalize_step_iff known).mpr (Or.inl taken)⟩
    · exact ⟨_, (totalize_step_iff known).mpr
        (Or.inr ⟨rfl, not_exists.mp reads⟩)⟩
  · exact ⟨_, totalize_step_crash_iff.mpr rfl⟩

theorem totalize_deterministicFrom
    (deterministic : a.states.DeterministicFrom a.initial) :
    (totalize order a).states.DeterministicFrom (totalize order a).initial := by
  intro word source path c left right first second
  rcases totalize_reachable ⟨word, path⟩ with known | rfl
  · rcases known with ⟨before, known⟩
    rcases (totalize_step_iff ⟨before, known⟩).mp first with old | ⟨rfl, none⟩
    · rcases (totalize_step_iff ⟨before, known⟩).mp second with
        old' | ⟨_, none⟩
      · exact deterministic before source known c left right old old'
      · exact absurd old (none left)
    · rcases (totalize_step_iff ⟨before, known⟩).mp second with
        old' | ⟨rfl, _⟩
      · exact absurd old' (none right)
      · rfl
  · rw [totalize_step_crash_iff.mp first, totalize_step_crash_iff.mp second]

theorem not_accepts_crash {word : Word} :
    ¬ (totalize order a).states.Accepts a.states.length word := by
  induction word with
  | nil =>
      rw [Heap.accepts_nil, totalize_state_crash]
      exact Bool.false_ne_true
  | cons c word induction =>
      rintro accepts
      rcases Heap.accepts_cons.mp accepts with ⟨middle, taken, rest⟩
      rw [totalize_step_crash_iff.mp taken] at rest
      exact induction rest

theorem totalize_accepts_iff {ref : Nat} (reachable : a.Reachable ref)
    {word : Word} :
    (totalize order a).states.Accepts ref word ↔ a.states.Accepts ref word := by
  induction word generalizing ref with
  | nil => rw [Heap.accepts_nil, Heap.accepts_nil, totalize_state reachable]; rfl
  | cons c word induction =>
      rw [Heap.accepts_cons, Heap.accepts_cons]
      constructor
      · rintro ⟨middle, taken, accepts⟩
        rcases (totalize_step_iff reachable).mp taken with old | ⟨rfl, _⟩
        · exact ⟨middle, old, (induction (reachable.step old)).mp accepts⟩
        · exact absurd accepts not_accepts_crash
      · rintro ⟨middle, taken, accepts⟩
        exact ⟨middle, (totalize_step_iff reachable).mpr (Or.inl taken),
          (induction (reachable.step taken)).mpr accepts⟩

theorem totalize_lang : (totalize order a).lang = a.lang := by
  ext word
  exact totalize_accepts_iff Automaton.Reachable.initial

end Totalize

/-! ## complement -/

section Complement

variable (order : StateOrder)

/-- `p.accept = !p.accept`. -/
def flipAccept (state : State) : State :=
  { state with accept := !state.accept }

theorem keepsDests_flipAccept : KeepsDests flipAccept :=
  fun _ transition member => ⟨transition, member, rfl⟩

/-- `complement(a)`. -/
def complement (a : Automaton) : Automaton :=
  removeDeadTransitions order
    (changeStates (totalize order (determinize order a)) flipAccept
      keepsDests_flipAccept)

variable {order} {a : Automaton}

theorem flipAccept_step_iff {source target : Nat} {c : JChar} :
    (changeStates a flipAccept keepsDests_flipAccept).states.Step source c
        target ↔ a.states.Step source c target := by
  have same : ((changeStates a flipAccept
      keepsDests_flipAccept).states.state source).transitions =
        (a.states.state source).transitions := by
    by_cases reachable : a.Reachable source
    · have here := congrArg State.transitions
        (@changeStates_state a flipAccept keepsDests_flipAccept source reachable)
      exact here
    · have here := congrArg State.transitions (@changeStates_state_of_not a
        flipAccept keepsDests_flipAccept source reachable)
      exact here
  rw [Heap.Step, same, Heap.Step]

/-- In a total deterministic automaton the exchange accepts what was rejected. -/
theorem flipAccept_accepts_iff
    (total : ∀ ref, a.Reachable ref → ∀ c, ∃ target, a.states.Step ref c target)
    (deterministic : a.states.DeterministicFrom a.initial)
    {ref : Nat} (reachable : a.Reachable ref) {word : Word} :
    (changeStates a flipAccept keepsDests_flipAccept).states.Accepts ref word ↔
      ¬ a.states.Accepts ref word := by
  induction word generalizing ref with
  | nil =>
      have here : (changeStates a flipAccept
          keepsDests_flipAccept).states.state ref = flipAccept (a.state ref) :=
        changeStates_state reachable
      rw [Heap.accepts_nil, Heap.accepts_nil, here, flipAccept,
        Bool.not_eq_true', Bool.not_eq_true]
  | cons c word induction =>
      rcases total ref reachable c with ⟨middle, taken⟩
      have only : ∀ other, a.states.Step ref c other → other = middle := by
        rcases reachable with ⟨before, path⟩
        exact fun other taken' =>
          deterministic before ref path c other middle taken' taken
      have next := @induction middle (reachable.step taken)
      simp only [Heap.accepts_cons, flipAccept_step_iff]
      constructor
      · rintro ⟨other, taken', accepts⟩ ⟨old, before, accepted⟩
        cases only other taken'
        cases only old before
        exact next.mp accepts accepted
      · intro none
        refine ⟨middle, taken, next.mpr fun accepted => ?_⟩
        exact none ⟨middle, taken, accepted⟩

/-- `complement` gives a deterministic automaton of the complement. -/
theorem complement_spec (honest : a.HonestFlag) :
    ClassInvariants (complement order a) ∧
      (complement order a).deterministic = true ∧
      (complement order a).lang = a.langᶜ := by
  rcases @determinize_spec order a honest with ⟨flag, deterministic, same⟩
  have total := @totalize_total order (determinize order a)
  have onward := @totalize_deterministicFrom order _ deterministic
  have trimmed := @trimmed_removeDeadTransitions order
    (changeStates (totalize order (determinize order a)) flipAccept
      keepsDests_flipAccept)
  have steady := deterministicFrom_of_steps
    (fun source c target => (@flipAccept_step_iff
      (totalize order (determinize order a)) source target c).mp) onward
  refine ⟨trimmed.invariants fun _ => steady, flag, ?_⟩
  rw [complement, trimmed.lang_eq]
  ext word
  rw [Set.mem_compl_iff, ← same]
  have exchanged := @flipAccept_accepts_iff _
    (fun ref reachable => total reachable) onward _
    Automaton.Reachable.initial word
  exact exchanged.trans
    (not_congr (totalize_accepts_iff Automaton.Reachable.initial))

end Complement

end SafetyGames.Automata
