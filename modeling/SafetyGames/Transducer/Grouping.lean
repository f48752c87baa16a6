import SafetyGames.Transducer.States

/-!
# Grouped letters

The library merges the transitions on adjacent characters into an interval.
`Ungrouped` relates an automaton to the one with a transition for each
character; `lowered` keeps the lower end of every interval, which is all that
several loops of the program read.
-/

namespace SafetyGames.Transducer

open SafetyGames.LabelledPath

/-! ## One transition for each character -/

/-- The second automaton has one transition for every character of an interval. -/
structure Ungrouped (a split : Automaton) : Prop where
  initial : split.initial = a.initial
  length : split.states.length = a.states.length
  deterministic : split.deterministic = a.deterministic
  accept : ∀ ref, (split.state ref).accept = (a.state ref).accept
  transitions : ∀ ref transition, transition ∈ (split.state ref).transitions ↔
    ∃ group ∈ (a.state ref).transitions, ∃ c, group.Reads c ∧
      transition = Transition.single c group.dest

section Ungrouped

variable {a split : Automaton}

theorem Ungrouped.step_iff (ungrouped : Ungrouped a split) {source target : Nat}
    {c : JChar} :
    split.states.Step source c target ↔ a.states.Step source c target := by
  constructor
  · rintro ⟨transition, member, reads, rfl⟩
    rcases (ungrouped.transitions source transition).mp member with
      ⟨group, inGroup, d, readsGroup, rfl⟩
    have same : c = d := (Transition.single_reads d c group.dest).mp reads
    rw [same]
    exact ⟨group, inGroup, readsGroup, rfl⟩
  · rintro ⟨group, member, reads, rfl⟩
    refine ⟨Transition.single c group.dest, ?_, by simp, rfl⟩
    exact (ungrouped.transitions source _).mpr ⟨group, member, c, reads, rfl⟩

theorem Ungrouped.lang_eq (ungrouped : Ungrouped a split) :
    split.lang = a.lang := by
  have same : split.states.Step = a.states.Step := by
    funext source c target
    exact propext ungrouped.step_iff
  ext word
  show (∃ target, Path split.states.Step split.initial word target ∧ _) ↔
    ∃ target, Path a.states.Step a.initial word target ∧ _
  rw [same, ungrouped.initial]
  exact exists_congr fun target => and_congr_right fun _ => by
    rw [← ungrouped.accept target]

theorem Ungrouped.singleChars (ungrouped : Ungrouped a split) :
    split.SingleChars := by
  intro state member transition inState
  rcases List.mem_iff_getElem?.mp member with ⟨ref, position⟩
  have isState : split.state ref = state := by
    show (split.states[ref]?).getD State.new = state
    rw [position]
    rfl
  rw [← isState] at inState
  rcases (ungrouped.transitions ref transition).mp inState with ⟨_, _, _, _, rfl⟩
  rfl

theorem Ungrouped.reachable_iff (ungrouped : Ungrouped a split) {ref : Nat} :
    split.Reachable ref ↔ a.Reachable ref := by
  have same : split.states.Step = a.states.Step := by
    funext source c target
    exact propext ungrouped.step_iff
  rw [Automaton.Reachable, Automaton.Reachable, same, ungrouped.initial]

theorem Ungrouped.getNumberOfStates_eq (ungrouped : Ungrouped a split) :
    split.getNumberOfStates = a.getNumberOfStates := by
  apply List.Perm.length_eq
  apply (List.perm_ext_iff_of_nodup Automaton.nodup_getStates
    Automaton.nodup_getStates).mpr
  intro ref
  rw [Automaton.mem_getStates, Automaton.mem_getStates]
  exact ungrouped.reachable_iff

end Ungrouped

/-! ## The lower ends -/

/-- The transition on the lower end of its interval. -/
def Transition.lower (transition : Transition) : Transition :=
  Transition.single transition.min transition.dest

/-- The state with the lower ends of its transitions. -/
def State.lower (state : State) : State :=
  { state with transitions := state.transitions.map Transition.lower }

/-- The automaton that keeps the lower end of every interval. -/
def Automaton.lowered (a : Automaton) : Automaton where
  states := a.states.map State.lower
  initial := a.initial
  deterministic := a.deterministic
  initial_lt := by
    rw [List.length_map]
    exact a.initial_lt
  closed := by
    intro state member transition inState
    rcases List.mem_map.mp member with ⟨before, inHeap, rfl⟩
    rcases List.mem_map.mp inState with ⟨group, inGroup, rfl⟩
    rw [List.length_map]
    exact a.closed before inHeap group inGroup

section Lowered

variable {a : Automaton}

theorem lowered_state (ref : Nat) :
    a.lowered.state ref = (a.state ref).lower := by
  show ((a.states.map State.lower)[ref]?).getD State.new =
    ((a.states[ref]?).getD State.new).lower
  rw [List.getElem?_map]
  cases a.states[ref]? with
  | none => rfl
  | some state => rfl

@[simp]
theorem lowered_accept (ref : Nat) :
    (a.lowered.state ref).accept = (a.state ref).accept := by
  rw [lowered_state]
  rfl

theorem mem_lowered {ref : Nat} {transition : Transition} :
    transition ∈ (a.lowered.state ref).transitions ↔
      ∃ group ∈ (a.state ref).transitions, group.lower = transition := by
  rw [lowered_state]
  exact List.mem_map

theorem lowered_step_iff {source target : Nat} {c : JChar} :
    a.lowered.states.Step source c target ↔
      ∃ group ∈ (a.state source).transitions,
        group.min = c ∧ group.dest = target := by
  constructor
  · rintro ⟨transition, member, reads, rfl⟩
    rcases mem_lowered.mp member with ⟨group, inGroup, rfl⟩
    have same : c = group.min :=
      (Transition.single_reads group.min c group.dest).mp reads
    exact ⟨group, inGroup, same.symm, rfl⟩
  · rintro ⟨group, member, rfl, rfl⟩
    exact ⟨group.lower, mem_lowered.mpr ⟨group, member, rfl⟩,
      (Transition.single_reads _ _ _).mpr rfl, rfl⟩

theorem step_of_lowered {source target : Nat} {c : JChar}
    (step : a.lowered.states.Step source c target) :
    a.states.Step source c target := by
  rcases lowered_step_iff.mp step with ⟨group, member, rfl, rfl⟩
  exact ⟨group, member, group.reads_min, rfl⟩

theorem successors_lowered : a.lowered.successors = a.successors := by
  funext ref
  rw [Automaton.successors, lowered_state]
  exact List.map_map

theorem reachable_lowered_iff {ref : Nat} :
    a.lowered.Reachable ref ↔ a.Reachable ref := by
  rw [Automaton.reachable_iff, Automaton.reachable_iff, successors_lowered]
  rfl

theorem getNumberOfStates_lowered :
    a.lowered.getNumberOfStates = a.getNumberOfStates := by
  have length : a.lowered.states.length = a.states.length :=
    List.length_map State.lower
  rw [Automaton.getNumberOfStates, Automaton.getStates, successors_lowered,
    length]
  rfl

theorem singleChars_lowered : a.lowered.SingleChars := by
  intro state member transition inState
  rcases List.mem_map.mp member with ⟨before, _, rfl⟩
  rcases List.mem_map.mp inState with ⟨group, _, rfl⟩
  rfl

theorem lang_lowered_subset : a.lowered.lang ⊆ a.lang := by
  rintro word ⟨target, path, accept⟩
  rw [lowered_accept] at accept
  exact ⟨target, path.mono fun _ _ _ => step_of_lowered, accept⟩

/-- On single characters nothing is lost. -/
theorem lang_lowered_of_reachable (single : ∀ ref, a.Reachable ref →
    ∀ transition ∈ (a.state ref).transitions, transition.Single) :
    a.lowered.lang = a.lang := by
  apply Set.Subset.antisymm lang_lowered_subset
  have lowers : ∀ {source target : Nat} {word : Word}, a.Reachable source →
      Path a.states.Step source word target →
        Path a.lowered.states.Step source word target := by
    intro source target word reachable path
    induction path with
    | nil source => exact Path.nil source
    | cons head tail induction =>
        rcases reachable with ⟨before, path⟩
        have further := induction ⟨_, path.snoc head⟩
        rcases head with ⟨group, member, reads, dest⟩
        have isMin := ((single _ ⟨before, path⟩ group member).reads_iff _).mp reads
        exact Path.cons
          (lowered_step_iff.mpr ⟨group, member, isMin.symm, dest⟩) further
  rintro word ⟨target, path, accept⟩
  refine ⟨target, lowers Automaton.Reachable.initial path, ?_⟩
  rw [lowered_accept]
  exact accept

theorem lang_lowered_of_singleChars (single : a.SingleChars) :
    a.lowered.lang = a.lang :=
  lang_lowered_of_reachable fun _ reachable transition member =>
    single _ (Heap.state_mem reachable.lt) transition member

end Lowered

/-! ## Two adjacent letters -/

/-- The words `a` and `b`, on one transition. -/
def mergedAutomaton : Automaton where
  states := [⟨false, [⟨97, 98, 1, by decide⟩]⟩, ⟨true, []⟩]
  initial := 0
  deterministic := true
  initial_lt := by decide
  closed := by decide

/-- The words `a` and `b`, on one transition each. -/
def splitAutomaton : Automaton where
  states := [⟨false, [Transition.single 97 1, Transition.single 98 1]⟩,
    ⟨true, []⟩]
  initial := 0
  deterministic := true
  initial_lt := by decide
  closed := by decide

theorem reads_ab {transition : Transition} (min : transition.min = 97)
    (max : transition.max = 98) (c : JChar) :
    transition.Reads c ↔ c = 97 ∨ c = 98 := by
  rw [Transition.Reads, min, max, UInt16.le_iff_toNat_le, UInt16.le_iff_toNat_le,
    ← UInt16.toNat_inj, ← UInt16.toNat_inj]
  show 97 ≤ c.toNat ∧ c.toNat ≤ 98 ↔ c.toNat = 97 ∨ c.toNat = 98
  omega

theorem splitAutomaton_ungrouped :
    Ungrouped mergedAutomaton splitAutomaton where
  initial := rfl
  length := rfl
  deterministic := rfl
  accept
    | 0 => rfl
    | 1 => rfl
    | _ + 2 => rfl
  transitions
    | 0, transition => by
        constructor
        · intro member
          rcases List.mem_pair.mp member with rfl | rfl
          · exact ⟨_, List.mem_singleton_self _, 97, by decide, rfl⟩
          · exact ⟨_, List.mem_singleton_self _, 98, by decide, rfl⟩
        · rintro ⟨group, member, c, reads, rfl⟩
          rcases List.mem_singleton.mp member with rfl
          apply List.mem_pair.mpr
          rcases (reads_ab rfl rfl c).mp reads with rfl | rfl
          · exact Or.inl rfl
          · exact Or.inr rfl
    | 1, _ => by simp [Heap.state, mergedAutomaton, splitAutomaton]
    | _ + 2, _ => by
        simp [Heap.state, mergedAutomaton, splitAutomaton, State.new]

section OneLetterWords

variable {a : Automaton} {letters : JChar → Prop}

/-- An automaton whose only steps lead from its initial state to its only
accepting state accepts one-letter words. -/
theorem mem_lang_of_step_iff (initial : a.initial = 0)
    (accept : ∀ ref, (a.state ref).accept = true ↔ ref = 1)
    (step : ∀ source c target,
      a.states.Step source c target ↔ source = 0 ∧ letters c ∧ target = 1)
    (word : Word) :
    word ∈ a.lang ↔ ∃ c, letters c ∧ word = [c] := by
  rw [Automaton.mem_lang, initial]
  constructor
  · rintro ⟨target, path, accepts⟩
    rcases (accept target).mp accepts with rfl
    cases path with
    | cons head tail =>
        rcases (step _ _ _).mp head with ⟨_, letter, rfl⟩
        cases tail with
        | nil => exact ⟨_, letter, rfl⟩
        | cons next _ =>
            rcases (step _ _ _).mp next with ⟨impossible, _⟩
            exact absurd impossible Nat.one_ne_zero
  · rintro ⟨c, letter, rfl⟩
    have head : a.states.Step 0 c 1 := (step 0 c 1).mpr ⟨rfl, letter, rfl⟩
    exact ⟨1, Path.single head, (accept 1).mpr rfl⟩

end OneLetterWords

theorem mergedAutomaton_accept (ref : Nat) :
    (mergedAutomaton.state ref).accept = true ↔ ref = 1 := by
  match ref with
  | 0 => decide
  | 1 => decide
  | _ + 2 => simp [Heap.state, mergedAutomaton, State.new]

theorem mergedAutomaton_transitions {ref : Nat} {transition : Transition} :
    transition ∈ (mergedAutomaton.state ref).transitions ↔
      ref = 0 ∧ transition = ⟨97, 98, 1, by decide⟩ := by
  match ref with
  | 0 => simp [Heap.state, mergedAutomaton]
  | 1 => simp [Heap.state, mergedAutomaton]
  | _ + 2 => simp [Heap.state, mergedAutomaton, State.new]

theorem mem_lang_mergedAutomaton (word : Word) :
    word ∈ mergedAutomaton.lang ↔ word = [97] ∨ word = [98] := by
  have step : ∀ source c target, mergedAutomaton.states.Step source c target ↔
      source = 0 ∧ (c = 97 ∨ c = 98) ∧ target = 1 := by
    intro source c target
    simp only [Heap.Step, mergedAutomaton_transitions, and_assoc,
      exists_and_left, exists_eq_left, reads_ab, eq_comm]
  rw [mem_lang_of_step_iff rfl mergedAutomaton_accept step]
  simp

/-- The lower end of the transition is `a`. -/
theorem mem_lang_lowered_mergedAutomaton (word : Word) :
    word ∈ mergedAutomaton.lowered.lang ↔ word = [97] := by
  have step : ∀ source c target,
      mergedAutomaton.lowered.states.Step source c target ↔
        source = 0 ∧ c = 97 ∧ target = 1 := by
    intro source c target
    simp only [lowered_step_iff, mergedAutomaton_transitions, and_assoc,
      exists_and_left, exists_eq_left, eq_comm]
  have accept : ∀ ref,
      (mergedAutomaton.lowered.state ref).accept = true ↔ ref = 1 := by
    intro ref
    rw [lowered_accept]
    exact mergedAutomaton_accept ref
  rw [mem_lang_of_step_iff rfl accept step]
  simp

end SafetyGames.Transducer
