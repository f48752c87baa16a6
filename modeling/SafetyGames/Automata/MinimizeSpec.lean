import SafetyGames.Automata.Minimize

/-!
# What Hopcroft's minimization returns

The automaton of the blocks accepts the same language, and its states accept
different languages.  The failures of `minimizeHopcroft` are characterised.
-/

namespace SafetyGames.Automata

open SafetyGames.Transducer SafetyGames.Teacher SafetyGames.Intervals
open SafetyGames.LabelledPath SafetyGames.PartitionRefinement

/-- Different reachable states accept different languages. -/
def Distinguished (a : Automaton) : Prop :=
  ∀ p q, a.Reachable p → a.Reachable q →
    (∀ word, a.states.Accepts p word ↔ a.states.Accepts q word) → p = q

/-- A minimal deterministic automaton that satisfies the class invariants. -/
structure Minimal (a : Automaton) : Prop where
  invariants : ClassInvariants a
  flag : a.deterministic = true
  reduced : ∀ ref, a.Reachable ref → Reduced (a.state ref).transitions
  distinguished : Distinguished a

theorem Minimal.deterministicFrom {a : Automaton} (minimal : Minimal a) :
    a.states.DeterministicFrom a.initial :=
  minimal.invariants.honest minimal.flag

/-! ## The automaton of the blocks -/

section Quotient

variable {order : StateOrder} {a : Automaton} {r : Refinement}

/-- The partition of the table into classes of equivalent states. -/
structure Classes (order : StateOrder) (a : Automaton) (r : Refinement) :
    Prop where
  linked : Linked (stateTable order a) r
  block_lt : ∀ q < (stateTable order a).size, r.block q < r.k
  same_iff : ∀ p < (stateTable order a).size, ∀ q < (stateTable order a).size,
    r.block p = r.block q ↔ (stateTable order a).Same p q

/-- Some state is in the block. -/
def Occupied (order : StateOrder) (a : Automaton) (r : Refinement)
    (n : Nat) : Prop :=
  ∃ q < (stateTable order a).size, r.block q = n

variable (classes : Classes order a r)
include classes

theorem Classes.blockNumber_eq {q : Nat}
    (inside : q < (stateTable order a).size) : blockNumber r q = r.block q := by
  have member : q ∈ r.partition (r.block q) :=
    (classes.linked.partition_iff q _).mpr ⟨inside, rfl⟩
  rw [blockNumber]
  cases found : (List.range r.k).find? fun n => q ∈ r.partition n with
  | none =>
      rw [List.find?_eq_none] at found
      exact absurd (decide_eq_true member)
        (found _ (List.mem_range.mpr (classes.block_lt q inside)))
  | some n =>
      have inBlock : q ∈ r.partition n := by
        simpa using List.find?_some found
      exact ((classes.linked.partition_iff q n).mp inBlock).2.symm

theorem Classes.representative_spec {n : Nat}
    (occupied : Occupied order a r n) :
    representative r n < (stateTable order a).size ∧
      r.block (representative r n) = n := by
  rcases occupied with ⟨q, inside, isBlock⟩
  have member := (classes.linked.partition_iff q n).mpr ⟨inside, isBlock⟩
  have nonempty := List.ne_nil_of_mem member
  rw [representative, List.getLast?_eq_some_getLast nonempty, Option.getD_some]
  exact (classes.linked.partition_iff _ n).mp (List.getLast_mem nonempty)

theorem Classes.blockNumber_lt {ref : Nat} (reachable : a.Reachable ref) :
    blockNumber r (order.number a ref) ∈ List.range r.k := by
  have inside : order.number a ref < (stateTable order a).size :=
    number_lt_length reachable
  rw [classes.blockNumber_eq inside]
  exact List.mem_range.mpr (classes.block_lt _ inside)

theorem Classes.occupied {ref : Nat} (reachable : a.Reachable ref) :
    Occupied order a r (blockNumber r (order.number a ref)) := by
  have inside : order.number a ref < (stateTable order a).size :=
    number_lt_length reachable
  rw [classes.blockNumber_eq inside]
  exact ⟨_, inside, rfl⟩

/-- The representative of the block of a state accepts what the state accepts. -/
theorem Classes.accepts_representative (complete : Complete a) {ref : Nat}
    (reachable : a.Reachable ref) (word : Word) :
    a.states.Accepts (stateAt order a
        (representative r (blockNumber r (order.number a ref)))) word ↔
      a.states.Accepts ref word := by
  have inside : order.number a ref < (stateTable order a).size :=
    number_lt_length reachable
  rcases classes.representative_spec (classes.occupied reachable) with
    ⟨bound, isBlock⟩
  rw [classes.blockNumber_eq inside] at bound isBlock ⊢
  have same := complete.same_iff.mp
    ((classes.same_iff _ bound _ inside).mp isBlock) word
  rwa [stateAt_number reachable] at same

theorem Classes.next_mem (n : Nat) :
    ∀ numbers ∈ quotientTransitions order a r n,
      numbers.key ∈ List.range r.k := by
  intro numbers member
  rcases List.mem_map.mp member with ⟨t, inState, rfl⟩
  exact classes.blockNumber_lt
    ((reachable_stateAt _).step ⟨t, inState, t.reads_min, rfl⟩)

/-- The blocks with their new states. -/
def Classes.made : Construction Nat where
  keys := List.range r.k
  start := blockNumber r (order.number a a.initial)
  accept := fun n => (a.state (stateAt order a (representative r n))).accept
  next := quotientTransitions order a r
  start_mem := classes.blockNumber_lt Automaton.Reachable.initial
  next_mem := fun n _ => classes.next_mem n

theorem Classes.quotient_eq :
    quotient order a r = some (classes.made.automaton a.deterministic) :=
  dif_pos ⟨classes.blockNumber_lt Automaton.Reachable.initial,
    fun n _ => classes.next_mem n⟩

theorem Classes.proper : classes.made.Proper := by
  intro n _ numbers member
  rcases List.mem_map.mp member with ⟨t, _, rfl⟩
  exact ⟨interval_proper t, toNat_le_maxValue _⟩

theorem Classes.accepts_iff (complete : Complete a) {n : Nat}
    (inside : n ∈ List.range r.k) {word : Word} :
    (classes.made.automaton a.deterministic).states.Accepts
        (classes.made.ref n) word ↔
      a.states.Accepts (stateAt order a (representative r n)) word := by
  apply @Construction.accepts_iff _ _ _ _ classes.proper
    fun n word => a.states.Accepts (stateAt order a (representative r n)) word
  · exact fun n _ => Heap.accepts_nil.symm
  · intro n _ c word
    rw [Heap.accepts_cons]
    have reachable := @reachable_stateAt order a (representative r n)
    constructor
    · rintro ⟨_, ⟨t, inState, reads, rfl⟩, accepts⟩
      refine ⟨_, List.mem_map_of_mem inState, interval_has.mpr reads, ?_⟩
      exact (classes.accepts_representative complete
        (reachable.step ⟨t, inState, reads, rfl⟩) word).mpr accepts
    · rintro ⟨numbers, member, has, accepts⟩
      rcases List.mem_map.mp member with ⟨t, inState, rfl⟩
      have reads : t.Reads c := interval_has.mp has
      have taken : a.states.Step (stateAt order a (representative r n)) c
          t.dest := ⟨t, inState, reads, rfl⟩
      exact ⟨t.dest, taken, (classes.accepts_representative complete
        (reachable.step taken) word).mp accepts⟩
  · exact inside

/-- Every reachable new state belongs to an occupied block. -/
theorem Classes.exists_occupied {ref : Nat}
    (reachable : (classes.made.automaton a.deterministic).Reachable ref) :
    ∃ n ∈ List.range r.k, Occupied order a r n ∧ classes.made.ref n = ref := by
  rcases reachable with ⟨word, path⟩
  have kept : ∀ source c target,
      (∃ n ∈ List.range r.k, Occupied order a r n ∧
        classes.made.ref n = source) →
      (classes.made.automaton a.deterministic).states.Step source c target →
        ∃ n ∈ List.range r.k, Occupied order a r n ∧
          classes.made.ref n = target := by
    rintro _ c target ⟨n, inside, _, rfl⟩ taken
    rcases (Construction.step_iff classes.proper inside).mp taken with
      ⟨numbers, member, _, rfl⟩
    refine ⟨_, classes.next_mem n numbers member, ?_, rfl⟩
    rcases List.mem_map.mp member with ⟨t, inState, rfl⟩
    exact classes.occupied
      ((reachable_stateAt _).step ⟨t, inState, t.reads_min, rfl⟩)
  exact path.invariant kept ⟨_,
    classes.blockNumber_lt Automaton.Reachable.initial,
    classes.occupied Automaton.Reachable.initial, rfl⟩

/-- The automaton of the classes: deterministic, of the same language, and its
states accept different languages. -/
theorem Classes.quotient_spec (complete : Complete a) :
    (classes.made.automaton a.deterministic).states.DeterministicFrom
        (classes.made.automaton a.deterministic).initial ∧
      (classes.made.automaton a.deterministic).lang = a.lang ∧
      Distinguished (classes.made.automaton a.deterministic) := by
  refine ⟨Construction.deterministicFrom classes.proper ?_, ?_, ?_⟩
  · intro n _ point left inLeft right inRight first second
    rcases List.mem_map.mp inLeft with ⟨t, inState, rfl⟩
    rcases List.mem_map.mp inRight with ⟨u, inState', rfl⟩
    have bound : point ≤ maxValue := first.2.trans (toNat_le_maxValue _)
    have reads : ∀ {v : Transition}, (interval v).Has point →
        v.Reads (toChar point) := by
      intro v has
      rwa [← interval_has, toNat_toChar bound]
    have same := complete.unique (reachable_stateAt (representative r n))
      ⟨t, inState, reads first, rfl⟩ ⟨u, inState', reads second, rfl⟩
    simp only [same]
  · ext word
    exact (classes.accepts_iff complete
      (classes.blockNumber_lt Automaton.Reachable.initial)).trans
        (classes.accepts_representative complete
          Automaton.Reachable.initial word)
  · intro p q reachableP reachableQ same
    rcases classes.exists_occupied reachableP with ⟨n, insideN, occupiedN, rfl⟩
    rcases classes.exists_occupied reachableQ with ⟨m, insideM, occupiedM, rfl⟩
    rcases classes.representative_spec occupiedN with ⟨boundN, blockN⟩
    rcases classes.representative_spec occupiedM with ⟨boundM, blockM⟩
    have equivalent := (classes.same_iff _ boundN _ boundM).mpr
      (complete.same_iff.mpr fun word =>
        (classes.accepts_iff complete insideN).symm.trans
          ((same word).trans (classes.accepts_iff complete insideM)))
    rw [← blockN, ← blockM, equivalent]

end Quotient

/-! ## minimizeHopcroft -/

section MinimizeHopcroft

variable {order : StateOrder} {a : Automaton}

theorem Distinguished.trimmed {b : Automaton} (distinguished : Distinguished a)
    (trimmed : Trimmed a b) : Distinguished b := by
  intro p q reachableP reachableQ same
  refine distinguished p q (trimmed.reachable p reachableP)
    (trimmed.reachable q reachableQ) fun word => ?_
  rw [← trimmed.accepts p (trimmed.reachable p reachableP),
    ← trimmed.accepts q (trimmed.reachable q reachableQ)]
  exact same word

/-- With two states the refinement succeeds and the result is minimal. -/
theorem refineAndBuild_spec (complete : Complete a)
    (flag : a.deterministic = true) (two : 2 ≤ (order.states a).length) :
    ∃ b, refineAndBuild order a = some b ∧ Minimal b ∧ b.lang = a.lang := by
  have large : 2 ≤ (stateTable order a).size := two
  rcases processPending_start large with
    ⟨r, returned, linked, block_lt, _, same_iff⟩
  have classes : Classes order a r := ⟨linked, block_lt, same_iff⟩
  rcases classes.quotient_spec complete with
    ⟨deterministic, same, distinguished⟩
  have trimmed := @trimmed_removeDeadTransitions order
    (classes.made.automaton a.deterministic)
  refine ⟨_, ?_, ⟨trimmed.invariants fun _ => deterministic, flag,
    trimmed.reduced, distinguished.trimmed trimmed⟩, trimmed.lang_eq.trans same⟩
  rw [refineAndBuild, if_neg (not_lt.mpr large), returned]
  change (quotient order a r).bind _ = _
  rw [classes.quotient_eq]
  rfl

theorem loopsOnly_iff : loopsOnly a = true ↔
    ∃ t, (a.state a.initial).transitions = [t] ∧ t.dest = a.initial ∧
      t.min = 0 ∧ t.max = 65535 := by
  rw [loopsOnly]
  cases (a.state a.initial).transitions with
  | nil => simp
  | cons t rest =>
      cases rest with
      | nil => simp [and_assoc]
      | cons => simp

/-- An automaton that only loops in its initial state reaches no other state. -/
theorem reachable_of_loops
    (loops : ∀ t ∈ (a.state a.initial).transitions, t.dest = a.initial)
    {ref : Nat} (reachable : a.Reachable ref) : ref = a.initial := by
  rcases reachable with ⟨word, path⟩
  have kept : ∀ source c target, source = a.initial →
      a.states.Step source c target → target = a.initial := by
    rintro _ c _ rfl ⟨t, inState, _, rfl⟩
    exact loops t inState
  exact path.invariant kept rfl

/-- The initial state loops on every character. -/
def LoopsOnAll (a : Automaton) : Prop :=
  (∀ t ∈ (a.state a.initial).transitions, t.dest = a.initial) ∧
    ∀ c, ∃ t ∈ (a.state a.initial).transitions, t.Reads c

theorem loopsOnAll_of_loopsOnly (loops : loopsOnly a = true) :
    LoopsOnAll a := by
  rcases loopsOnly_iff.mp loops with ⟨t, single, dest, min, max⟩
  rw [LoopsOnAll, single]
  refine ⟨fun u member => List.mem_singleton.mp member ▸ dest, fun c => ?_⟩
  refine ⟨t, List.mem_singleton_self t, ?_⟩
  rw [Transition.Reads, min, max, UInt16.le_iff_toNat_le,
    UInt16.le_iff_toNat_le]
  exact ⟨Nat.zero_le _, toNat_le_maxValue c⟩

/-- A total automaton of one state loops on every character. -/
theorem totalize_one_state_iff :
    (order.states (totalize order a)).length < 2 ↔ LoopsOnAll a := by
  have perm := order.states_perm (totalize order a)
  constructor
  · intro small
    have only : ∀ ref, (totalize order a).Reachable ref → ref = a.initial := by
      intro ref reachable
      have first := order.mem_states.mpr reachable
      have second := order.mem_states.mpr
        (@Automaton.Reachable.initial (totalize order a))
      have nodup := @nodup_states order (totalize order a)
      match states : order.states (totalize order a) with
      | [] => exact absurd (states ▸ first) List.not_mem_nil
      | [other] =>
          rw [states] at first second
          exact (List.mem_singleton.mp first).trans
            (List.mem_singleton.mp second).symm
      | _ :: _ :: _ =>
          rw [states] at small
          simp only [List.length_cons] at small
          omega
    have away : a.initial ≠ a.states.length := a.initial_lt.ne
    refine ⟨fun t inState => ?_, fun c => ?_⟩
    · have taken : a.states.Step a.initial t.min t.dest :=
        ⟨t, inState, t.reads_min, rfl⟩
      exact only _ (reachable_totalize (Automaton.Reachable.initial.step taken))
    · rcases @totalize_total order a a.initial Automaton.Reachable.initial c with
        ⟨target, taken⟩
      have isInitial := only target (Automaton.Reachable.initial.step taken)
      rcases (totalize_step_iff Automaton.Reachable.initial).mp taken with
        ⟨t, inState, reads, _⟩ | ⟨isCrash, _⟩
      · exact ⟨t, inState, reads⟩
      · exact absurd (isInitial.symm.trans isCrash) away
  · rintro ⟨loops, total⟩
    have only : ∀ ref ∈ order.states (totalize order a), ref = a.initial := by
      intro ref member
      rcases order.mem_states.mp member with ⟨word, path⟩
      have kept : ∀ source c target, source = a.initial →
          (totalize order a).states.Step source c target →
            target = a.initial := by
        rintro _ c target rfl taken
        rcases (totalize_step_iff Automaton.Reachable.initial).mp taken with
          ⟨t, inState, _, rfl⟩ | ⟨_, none⟩
        · exact loops t inState
        · rcases total c with ⟨t, inState, reads⟩
          exact absurd ⟨t, inState, reads, rfl⟩ (none t.dest)
      exact path.invariant kept rfl
    have small := (@nodup_states order (totalize order a)).subperm
      (fun ref member => List.mem_singleton.mpr (only ref member))
    exact Nat.lt_succ_of_le small.length_le

theorem complete_totalize
    (deterministic : a.states.DeterministicFrom a.initial) :
    Complete (totalize order a) where
  total := fun _ reachable => totalize_total reachable
  deterministic := totalize_deterministicFrom deterministic

/-- `minimizeHopcroft` fails exactly on an initial state that loops on every
character, with more than one transition. -/
theorem minimizeHopcroft_cases (honest : a.HonestFlag) :
    (LoopsOnAll (determinize order a) ∧ loopsOnly (determinize order a) = false ∧
        minimizeHopcroft order a = none) ∨
      (loopsOnly (determinize order a) = true ∧
        minimizeHopcroft order a = some (determinize order a)) ∨
      ∃ b, minimizeHopcroft order a = some b ∧ Minimal b ∧ b.lang = a.lang := by
  rcases @determinize_spec order a honest with ⟨flag, deterministic, same⟩
  rw [minimizeHopcroft]
  by_cases early : loopsOnly (determinize order a) = true
  · exact Or.inr (Or.inl ⟨early, if_pos early⟩)
  · rw [if_neg early]
    by_cases small :
        (order.states (totalize order (determinize order a))).length < 2
    · refine Or.inl ⟨totalize_one_state_iff.mp small,
        Bool.not_eq_true _ ▸ early, if_pos small⟩
    · rcases refineAndBuild_spec (complete_totalize deterministic) flag
        (not_lt.mp small) with ⟨b, returned, minimal, accepts⟩
      exact Or.inr (Or.inr ⟨b, returned, minimal,
        accepts.trans (totalize_lang.trans same)⟩)

/-- Reduced loops on every character are a single transition. -/
theorem loopsOnly_of_reduced
    (reduced : Reduced (a.state a.initial).transitions)
    (loops : LoopsOnAll a) : loopsOnly a = true := by
  rcases loops with ⟨dests, total⟩
  rcases total 0 with ⟨t, inState, reads⟩
  have separate : ∀ u ∈ (a.state a.initial).transitions, u ≠ t →
      u.max.toNat + 1 < t.min.toNat ∨ t.max.toNat + 1 < u.min.toNat :=
    fun u member different => reduced.forall member inState different
      ((dests u member).trans (dests t inState).symm)
  have low : t.min.toNat = 0 :=
    Nat.le_zero.mp (UInt16.le_iff_toNat_le.mp reads.1)
  have high : t.max.toNat = maxValue := by
    by_contra less
    have room : t.max.toNat + 1 ≤ maxValue := by
      have bound := toNat_le_maxValue t.max
      omega
    rcases total (toChar (t.max.toNat + 1)) with ⟨u, member, next⟩
    rw [← interval_has, toNat_toChar room] at next
    have inside := next
    simp only [Segment.Has, interval] at inside
    have different : u ≠ t := by
      rintro rfl
      omega
    rcases separate u member different with before | after <;> omega
  have only : ∀ u ∈ (a.state a.initial).transitions, u = t := by
    intro u member
    by_contra different
    have bound := toNat_le_maxValue u.min
    rcases separate u member different with before | after <;> omega
  refine loopsOnly_iff.mpr ⟨t, ?_, dests t inState,
    UInt16.toNat_inj.mp low, UInt16.toNat_inj.mp high⟩
  have nodup := reduced.nodup
  generalize (a.state a.initial).transitions = transitions at inState only nodup ⊢
  cases transitions with
  | nil => exact absurd inState List.not_mem_nil
  | cons u rest =>
      have first := only u List.mem_cons_self
      cases rest with
      | nil => rw [first]
      | cons v rest =>
          have second := only v (List.mem_cons_of_mem _ List.mem_cons_self)
          exact absurd (first.trans second.symm ▸ List.mem_cons_self)
            (List.nodup_cons.mp nodup).1

theorem determinize_of_flag (flag : a.deterministic = true) :
    determinize order a = a :=
  if_pos flag

/-- Without the deterministic flag the determinized automaton is trimmed. -/
theorem determinize_reduced (flag : a.deterministic = false) {ref : Nat}
    (reachable : (determinize order a).Reachable ref) :
    Reduced ((determinize order a).state ref).transitions := by
  have built : determinize order a = determinizeFrom order a {a.initial} :=
    if_neg (by rw [flag]; exact Bool.false_ne_true)
  rw [built] at reachable ⊢
  exact trimmed_removeDeadTransitions.reduced ref reachable

/-- The failures of `minimizeHopcroft`: a flagged automaton whose initial state
loops on every character with several transitions. -/
theorem minimizeHopcroft_eq_none_iff (honest : a.HonestFlag) :
    minimizeHopcroft order a = none ↔
      a.deterministic = true ∧ LoopsOnAll a ∧ loopsOnly a = false := by
  constructor
  · intro fails
    rcases @minimizeHopcroft_cases order a honest with
      ⟨loops, several, _⟩ | ⟨_, returned⟩ | ⟨b, returned, _⟩
    · cases flag : a.deterministic with
      | true =>
          rw [determinize_of_flag flag] at loops several
          exact ⟨rfl, loops, several⟩
      | false =>
          have single := loopsOnly_of_reduced
            (@determinize_reduced order a flag _ Automaton.Reachable.initial) loops
          exact absurd (single.symm.trans several) (by decide)
    · exact absurd (fails.symm.trans returned) (Option.some_ne_none _).symm
    · exact absurd (fails.symm.trans returned) (Option.some_ne_none b).symm
  · rintro ⟨flag, loops, several⟩
    have small := (@totalize_one_state_iff order a).mpr loops
    rw [minimizeHopcroft, determinize_of_flag flag, several]
    exact if_pos small

/-- On an automaton that satisfies the class invariants, whatever
`minimizeHopcroft` returns is minimal and accepts the same language. -/
theorem minimizeHopcroft_minimal (invariants : ClassInvariants a) {b : Automaton}
    (returned : minimizeHopcroft order a = some b) :
    Minimal b ∧ b.lang = a.lang := by
  rcases @minimizeHopcroft_cases order a invariants.honest with
    ⟨_, _, fails⟩ | ⟨loops, early⟩ | ⟨c, found, minimal, same⟩
  · exact absurd (fails.symm.trans returned) (Option.some_ne_none b).symm
  · cases Option.some.inj (early.symm.trans returned)
    rcases @determinize_spec order a invariants.honest with ⟨flag, _, same⟩
    have only : ∀ ref, (determinize order a).Reachable ref →
        ref = (determinize order a).initial :=
      fun ref => reachable_of_loops (loopsOnAll_of_loopsOnly loops).1
    refine ⟨⟨determinize_invariants invariants, flag, fun ref reachable => ?_,
      fun p q reachableP reachableQ _ =>
        (only p reachableP).trans (only q reachableQ).symm⟩, same⟩
    rcases loopsOnly_iff.mp loops with ⟨t, single, _⟩
    rw [only ref reachable, single]
    exact List.pairwise_singleton _ _
  · cases Option.some.inj (found.symm.trans returned)
    exact ⟨minimal, same⟩

end MinimizeHopcroft

end SafetyGames.Automata
