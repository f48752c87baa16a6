import SafetyGames.Learner.EncodingComplete
import SafetyGames.Teacher.Library
import Mathlib.Computability.NFA

/-!
# A reference library

A library that satisfies the laws: it picks, for the language that an operation
should give, an automaton that satisfies the class invariants.  Every regular
language has one, namely the trimmed automaton of a complete automaton.
-/

namespace SafetyGames.Teacher

open SafetyGames.Transducer SafetyGames.LabelledPath SafetyGames.Learner

/-! ## Languages of automata are regular -/

/-- The automaton as a nondeterministic automaton on its heap. -/
def toNFA (a : Automaton) : NFA JChar (Fin a.states.length) where
  step source c := {target | a.states.Step source c target}
  start := {⟨a.initial, a.initial_lt⟩}
  accept := {source | (a.state source).accept = true}

theorem mem_acceptsFrom_toNFA {a : Automaton} {word : Word}
    {set : Set (Fin a.states.length)} :
    word ∈ (toNFA a).acceptsFrom set ↔
      ∃ source ∈ set, a.states.Accepts source word := by
  induction word generalizing set with
  | nil =>
      rw [NFA.nil_mem_acceptsFrom]
      exact exists_congr fun source =>
        and_congr_right fun _ => Heap.accepts_nil.symm
  | cons c word induction =>
      rw [NFA.cons_mem_acceptsFrom, induction]
      simp only [NFA.mem_stepSet, Heap.accepts_cons]
      constructor
      · rintro ⟨middle, ⟨source, member, step⟩, accepts⟩
        exact ⟨source, member, middle, step, accepts⟩
      · rintro ⟨source, member, middle, step, accepts⟩
        exact ⟨⟨middle, a.closed.step_lt step⟩, ⟨source, member, step⟩, accepts⟩

theorem isRegular_lang (a : Automaton) :
    Language.IsRegular (show Language JChar from a.lang) := by
  refine Language.isRegular_iff.mpr
    ⟨Set (Fin a.states.length), inferInstance, (toNFA a).toDFA, ?_⟩
  rw [NFA.toDFA_correct]
  ext word
  change word ∈ (toNFA a).acceptsFrom (toNFA a).start ↔ _
  rw [mem_acceptsFrom_toNFA]
  simp only [toNFA, Set.mem_singleton_iff, exists_eq_left]
  rfl

/-! ## The trimmed automaton of a complete automaton -/

/-- All characters. -/
def characters : List JChar :=
  (List.range UInt16.size).map UInt16.ofNat

theorem mem_characters (c : JChar) : c ∈ characters :=
  List.mem_map.mpr ⟨c.toNat, List.mem_range.mpr c.toNat_lt, UInt16.ofNat_toNat⟩

section Trimmed

variable {k : Nat} (M : DFA JChar (Fin k))

/-- Some word leads from the state to an accepting one. -/
def Live (q : Fin k) : Prop :=
  ∃ word, M.evalFrom q word ∈ M.accept

open Classical in
/-- A state with its transitions to live states only. -/
noncomputable def trimmedState (q : Fin k) : State where
  accept := decide (q ∈ M.accept)
  transitions := (characters.filter fun c => decide (Live M (M.step q c))).map
    fun c => Transition.single c (M.step q c)

theorem mem_trimmedState {q : Fin k} {transition : Transition} :
    transition ∈ (trimmedState M q).transitions ↔
      ∃ c, Live M (M.step q c) ∧
        Transition.single c (M.step q c) = transition := by
  simp only [trimmedState, List.mem_map, List.mem_filter, decide_eq_true_eq,
    mem_characters, true_and]

/-- The automaton of the states with their live transitions. -/
noncomputable def trimmed : Automaton where
  states := (List.finRange k).map (trimmedState M)
  initial := M.start
  deterministic := true
  initial_lt := by
    rw [List.length_map, List.length_finRange]
    exact M.start.isLt
  closed := by
    intro state member transition inState
    rcases List.mem_map.mp member with ⟨q, _, isState⟩
    rw [← isState, mem_trimmedState] at inState
    rcases inState with ⟨c, _, isTransition⟩
    rw [← isTransition, List.length_map, List.length_finRange]
    exact (M.step q c).isLt

variable {M}

theorem trimmed_state (q : Fin k) :
    (trimmed M).states.state q = trimmedState M q := by
  rw [Heap.state, trimmed, List.getElem?_map,
    List.getElem?_eq_getElem (by rw [List.length_finRange]; exact q.isLt),
    Option.map_some, Option.getD_some, List.getElem_finRange]
  rfl

theorem trimmed_step_iff {q : Fin k} {c : JChar} {target : Nat} :
    (trimmed M).states.Step q c target ↔
      target = M.step q c ∧ Live M (M.step q c) := by
  rw [Heap.Step, trimmed_state]
  simp only [mem_trimmedState]
  constructor
  · rintro ⟨_, ⟨d, live, rfl⟩, reads, rfl⟩
    rw [Transition.single_reads] at reads
    subst reads
    exact ⟨rfl, live⟩
  · rintro ⟨rfl, live⟩
    exact ⟨_, ⟨c, live, rfl⟩, by simp, rfl⟩

theorem trimmed_accepts_iff {q : Fin k} {word : Word} :
    (trimmed M).states.Accepts q word ↔ M.evalFrom q word ∈ M.accept := by
  induction word generalizing q with
  | nil =>
      rw [Heap.accepts_nil, trimmed_state]
      simp only [trimmedState, decide_eq_true_eq]
      rfl
  | cons c word induction =>
      rw [Heap.accepts_cons, DFA.evalFrom_cons]
      constructor
      · rintro ⟨middle, step, accepts⟩
        rw [(trimmed_step_iff.mp step).1] at accepts
        exact induction.mp accepts
      · intro accepts
        exact ⟨_, trimmed_step_iff.mpr ⟨rfl, word, accepts⟩,
          induction.mpr accepts⟩

theorem trimmed_reachable {ref : Nat} (reachable : (trimmed M).Reachable ref) :
    ∃ q : Fin k, ref = q := by
  have bound := reachable.lt
  simp only [trimmed, List.length_map, List.length_finRange] at bound
  exact ⟨⟨ref, bound⟩, rfl⟩

theorem trimmed_invariants : ClassInvariants (trimmed M) := by
  constructor
  · rintro _ word source path c left right first second
    rcases trimmed_reachable ⟨word, path⟩ with ⟨q, rfl⟩
    exact (trimmed_step_iff.mp first).1.trans (trimmed_step_iff.mp second).1.symm
  · intro ref reachable transition inState
    rcases trimmed_reachable reachable with ⟨q, rfl⟩
    have step : (trimmed M).states.Step q transition.min transition.dest :=
      ⟨transition, inState, transition.reads_min, rfl⟩
    rcases trimmed_step_iff.mp step with ⟨isDest, word, accepts⟩
    exact ⟨word, isDest ▸ trimmed_accepts_iff.mpr accepts⟩

theorem trimmed_lang : (trimmed M).lang = M.accepts := by
  ext word
  exact trimmed_accepts_iff

end Trimmed

/-! ## The automaton of a complete automaton -/

section Complete

variable (alphabet : List JChar) {k : Nat} (M : DFA JChar (Fin k))
  [DecidablePred (· ∈ M.accept)]

/-- A complete automaton with its transitions on the letters of an alphabet. -/
def completeAutomaton : Automaton where
  states := (List.finRange k).map fun q =>
    ⟨decide (q ∈ M.accept),
      alphabet.map fun c => Transition.single c (M.step q c)⟩
  initial := M.start
  deterministic := true
  initial_lt := by
    rw [List.length_map, List.length_finRange]
    exact M.start.isLt
  closed := by
    intro state member transition inState
    rcases List.mem_map.mp member with ⟨q, _, rfl⟩
    rcases List.mem_map.mp inState with ⟨c, _, rfl⟩
    rw [List.length_map, List.length_finRange]
    exact (M.step q c).isLt

variable {alphabet M}

theorem completeAutomaton_state (q : Fin k) :
    (completeAutomaton alphabet M).states.state q =
      ⟨decide (q ∈ M.accept),
        alphabet.map fun c => Transition.single c (M.step q c)⟩ := by
  rw [Heap.state, completeAutomaton, List.getElem?_map,
    List.getElem?_eq_getElem (by rw [List.length_finRange]; exact q.isLt),
    Option.map_some, Option.getD_some, List.getElem_finRange]
  rfl

theorem completeAutomaton_step_iff {q : Fin k} {c : JChar} {target : Nat} :
    (completeAutomaton alphabet M).states.Step q c target ↔
      c ∈ alphabet ∧ target = M.step q c := by
  rw [Heap.Step, completeAutomaton_state]
  simp only [List.mem_map]
  constructor
  · rintro ⟨_, ⟨d, letter, rfl⟩, reads, rfl⟩
    rw [Transition.single_reads] at reads
    subst reads
    exact ⟨letter, rfl⟩
  · rintro ⟨letter, rfl⟩
    exact ⟨_, ⟨c, letter, rfl⟩, by simp, rfl⟩

theorem completeAutomaton_accepts_iff {q : Fin k} {word : Word} :
    (completeAutomaton alphabet M).states.Accepts q word ↔
      (∀ c ∈ word, c ∈ alphabet) ∧ M.evalFrom q word ∈ M.accept := by
  induction word generalizing q with
  | nil =>
      rw [Heap.accepts_nil, completeAutomaton_state]
      simp
  | cons c word induction =>
      rw [Heap.accepts_cons, DFA.evalFrom_cons, List.forall_mem_cons]
      constructor
      · rintro ⟨middle, step, accepts⟩
        rcases completeAutomaton_step_iff.mp step with ⟨letter, rfl⟩
        rcases induction.mp accepts with ⟨letters, accepted⟩
        exact ⟨⟨letter, letters⟩, accepted⟩
      · rintro ⟨⟨letter, letters⟩, accepted⟩
        exact ⟨_, completeAutomaton_step_iff.mpr ⟨letter, rfl⟩,
          induction.mpr ⟨letters, accepted⟩⟩

theorem lang_completeAutomaton :
    (completeAutomaton alphabet M).lang = dfaLang alphabet M := by
  ext word
  exact completeAutomaton_accepts_iff

/-- It satisfies the class invariants if every state leads to an accepting one. -/
theorem completeAutomaton_invariants
    (live : ∀ q, ∃ word : Word, (∀ c ∈ word, c ∈ alphabet) ∧
      M.evalFrom q word ∈ M.accept) :
    ClassInvariants (completeAutomaton alphabet M) := by
  have isState : ∀ {ref}, (completeAutomaton alphabet M).Reachable ref →
      ∃ q : Fin k, ref = q := by
    intro ref reachable
    have bound := reachable.lt
    simp only [completeAutomaton, List.length_map, List.length_finRange] at bound
    exact ⟨⟨ref, bound⟩, rfl⟩
  constructor
  · rintro _ word source path c left right first second
    rcases isState ⟨word, path⟩ with ⟨q, rfl⟩
    exact (completeAutomaton_step_iff.mp first).2.trans
      (completeAutomaton_step_iff.mp second).2.symm
  · intro ref reachable transition inState
    rcases isState reachable with ⟨q, rfl⟩
    have step : (completeAutomaton alphabet M).states.Step q transition.min
        transition.dest := ⟨transition, inState, transition.reads_min, rfl⟩
    rw [(completeAutomaton_step_iff.mp step).2]
    rcases live (M.step q transition.min) with ⟨word, accepted⟩
    exact ⟨word, completeAutomaton_accepts_iff.mpr accepted⟩

end Complete

theorem exists_deterministic {L : Language JChar} (regular : L.IsRegular) :
    ∃ a, ClassInvariants a ∧ a.lang = L ∧ a.deterministic = true := by
  rcases regular with ⟨σ, _, M, rfl⟩
  refine ⟨trimmed (DFA.reindex (Fintype.equivFin σ) M), trimmed_invariants,
    ?_, rfl⟩
  rw [trimmed_lang, DFA.accepts_reindex]

/-- Every regular language has an automaton that satisfies the class invariants. -/
theorem exists_automaton {L : Language JChar} (regular : L.IsRegular) :
    ∃ a, ClassInvariants a ∧ a.lang = L := by
  rcases exists_deterministic regular with ⟨a, invariants, same, _⟩
  exact ⟨a, invariants, same⟩

/-! ## The library -/

open Classical in
/-- An automaton for the language, one of the preferred ones if possible. -/
noncomputable def pick (preferred : List Automaton) (language : Set Word) :
    Automaton :=
  if chosen : ∃ a ∈ preferred, ClassInvariants a ∧ a.lang = language then
    chosen.choose
  else if chosen : ∃ a, ClassInvariants a ∧ a.lang = language then
    chosen.choose
  else
    Automaton.makeString []

theorem pick_spec {preferred : List Automaton} {language : Set Word}
    (exists_a : ∃ a, ClassInvariants a ∧ a.lang = language) :
    ClassInvariants (pick preferred language) ∧
      (pick preferred language).lang = language := by
  rw [pick]
  split_ifs with chosen
  · exact chosen.choose_spec.2
  · exact exists_a.choose_spec

theorem pick_eq {preferred : List Automaton} {a : Automaton}
    (member : a ∈ preferred) (invariants : ClassInvariants a)
    (unique : ∀ b ∈ preferred, b.lang = a.lang → b = a) :
    pick preferred a.lang = a := by
  have chosen : ∃ b ∈ preferred, ClassInvariants b ∧ b.lang = a.lang :=
    ⟨a, member, invariants, rfl⟩
  rw [pick, dif_pos chosen]
  exact unique _ chosen.choose_spec.1 chosen.choose_spec.2.2

open Classical in
/-- The reference library; `getShortestExample` picks a word of least length. -/
noncomputable def reference (preferred : List Automaton) : Library where
  minus a b := pick preferred (a.lang \ b.lang)
  union a b := pick preferred (a.lang ∪ b.lang)
  intersection a b := pick preferred (a.lang ∩ b.lang)
  minimize a := some (pick preferred a.lang)
  getShortestExample a :=
    if nonempty : a.lang.Nonempty then
      some (Function.argminOn List.length a.lang nonempty)
    else none
  regExp word := some (Automaton.makeString word)
  equals a b := some (decide (a.lang = b.lang))

theorem reference_getShortestExample_none {preferred : List Automaton}
    {a : Automaton} (empty : ¬ a.lang.Nonempty) :
    (reference preferred).getShortestExample a = none :=
  dif_neg empty

theorem reference_getShortestExample {preferred : List Automaton}
    {a : Automaton} (nonempty : a.lang.Nonempty) :
    (reference preferred).getShortestExample a =
      some (Function.argminOn List.length a.lang nonempty) :=
  dif_pos nonempty

theorem pick_regular (preferred : List Automaton) {L : Set Word}
    (regular : Language.IsRegular (show Language JChar from L)) :
    ClassInvariants (pick preferred L) ∧ (pick preferred L).lang = L :=
  pick_spec (exists_automaton regular)

theorem reference_correct (preferred : List Automaton) :
    (reference preferred).Correct where
  minus a b _ _ := by
    rcases pick_regular preferred
      ((isRegular_lang a).inf (isRegular_lang b).compl) with ⟨invariants, same⟩
    exact ⟨invariants.honest, same, fun _ _ => invariants⟩
  intersection a b _ _ := by
    rcases pick_regular preferred
      ((isRegular_lang a).inf (isRegular_lang b)) with ⟨invariants, same⟩
    exact ⟨invariants.honest, same, fun _ _ => invariants⟩
  union a b _ _ :=
    pick_regular preferred ((isRegular_lang a).add (isRegular_lang b))
  minimize a b _ _ returns :=
    Option.some.inj returns ▸ pick_regular preferred (isRegular_lang a)
  getShortestExample a word _ returns := by
    by_cases nonempty : a.lang.Nonempty
    · rw [reference_getShortestExample nonempty] at returns
      rw [← Option.some.inj returns]
      exact Function.argminOn_mem List.length a.lang nonempty
    · rw [reference_getShortestExample_none nonempty] at returns
      exact absurd returns (Option.some_ne_none word).symm
  equals a b _ _ same := of_decide_eq_true (Option.some.inj same)

/-- A language with one word has that word as its example. -/
theorem reference_shortest_singleton {preferred : List Automaton}
    {a : Automaton} {word : Word} (only : a.lang = {word}) :
    (reference preferred).getShortestExample a = some word := by
  have nonempty : a.lang.Nonempty := ⟨word, by rw [only]; rfl⟩
  rw [reference_getShortestExample nonempty]
  have inside := Function.argminOn_mem List.length a.lang nonempty
  exact congrArg some (only.subset inside)

theorem reference_shortest_nil {preferred : List Automaton} {a : Automaton}
    (member : [] ∈ a.lang) :
    (reference preferred).getShortestExample a = some [] := by
  have nonempty : a.lang.Nonempty := ⟨[], member⟩
  rw [reference_getShortestExample nonempty]
  apply congrArg some
  exact List.length_eq_zero_iff.mp (Nat.le_zero.mp
    (Function.argminOn_le List.length a.lang member))

/-- A word that is shorter than all others is the example. -/
theorem reference_shortest_of_unique {preferred : List Automaton}
    {a : Automaton} {word : Word} (member : word ∈ a.lang)
    (unique : ∀ other ∈ a.lang, other.length ≤ word.length → other = word) :
    (reference preferred).getShortestExample a = some word := by
  have nonempty : a.lang.Nonempty := ⟨word, member⟩
  rw [reference_getShortestExample nonempty]
  apply congrArg some
  apply unique _ (Function.argminOn_mem List.length a.lang nonempty)
  exact Function.argminOn_le List.length a.lang member

/-- The tests of the reference library on differences are exact. -/
theorem reference_isEmpty_minus {preferred : List Automaton}
    {a b : Automaton} :
    isEmpty ((reference preferred).minus a b) = true ↔ a.lang ⊆ b.lang := by
  have spec : ClassInvariants (pick preferred (a.lang \ b.lang)) ∧
      (pick preferred (a.lang \ b.lang)).lang = a.lang \ b.lang :=
    pick_regular preferred ((isRegular_lang a).inf (isRegular_lang b).compl)
  change isEmpty (pick preferred (a.lang \ b.lang)) = true ↔ _
  rw [spec.1.isEmpty_iff, spec.2, Set.sdiff_eq_empty]

/-- A deterministic chain satisfies the class invariants. -/
theorem makeString_invariants (word : Word) :
    ClassInvariants (Automaton.makeString word) := by
  constructor
  · intro _ read source _ c left right first second
    exact (chainStates_step_iff.mp first).2.trans
      (chainStates_step_iff.mp second).2.symm
  · intro ref _ transition inState
    have step : (chainStates word).Step ref transition.min transition.dest :=
      ⟨transition, inState, transition.reads_min, rfl⟩
    rcases chainStates_step_iff.mp step with ⟨position, isDest⟩
    have inside : transition.dest ≤ word.length := by
      have bound := (List.getElem?_eq_some_iff.mp position).1
      omega
    refine ⟨word.drop transition.dest, word.length, ?_, ?_⟩
    · exact (chainStates_path_iff inside).mpr
        ⟨le_rfl, inside, (List.take_of_length_le (by simp)).symm⟩
    · exact congrArg State.accept (chainStates_state_length word)

theorem makeEmpty_invariants : ClassInvariants Automaton.makeEmpty where
  honest := fun _ _ _ _ _ _ _ step => absurd step Automaton.not_step_makeEmpty
  live := fun _ _ transition inState =>
    absurd ⟨transition, inState, transition.reads_min, rfl⟩
      Automaton.not_step_makeEmpty

theorem reference_literal (preferred : List Automaton) (word : Word) :
    (reference preferred).Literal word := by
  intro a isWord
  rcases Option.some.inj isWord with rfl
  exact ⟨makeString_invariants word, Automaton.lang_makeString word⟩

open Classical in
/-- An `image` at its documented meaning, which returns one of the preferred
automata if possible. -/
noncomputable def documentedImage (preferred : List Automaton)
    (ta : TransducerAutomaton) (a : Automaton) : Option Automaton :=
  if ∃ b, ClassInvariants b ∧ b.lang = ta.relImage a.lang then
    some (pick preferred (ta.relImage a.lang))
  else
    none

theorem documentedImage_exact (preferred : List Automaton)
    (ta : TransducerAutomaton) (a : Automaton) :
    ImageExact (documentedImage preferred) ta a := by
  intro b returns
  rw [documentedImage] at returns
  split_ifs at returns with chosen
  rcases Option.some.inj returns with rfl
  exact pick_spec chosen

/-- An image that is a preferred automaton is this automaton. -/
theorem documentedImage_eq {preferred : List Automaton}
    {ta : TransducerAutomaton} {a b : Automaton} (member : b ∈ preferred)
    (invariants : ClassInvariants b)
    (unique : ∀ other ∈ preferred, other.lang = b.lang → other = b)
    (same : ta.relImage a.lang = b.lang) :
    documentedImage preferred ta a = some b := by
  rw [documentedImage, if_pos ⟨b, invariants, same.symm⟩, same,
    pick_eq member invariants unique]

end SafetyGames.Teacher
