import SafetyGames.Automata.Representation

/-!
# Equality of automata

`minimize`, `subsetOf`, `hashCode`, `equals` and `getShortestExample` on both
representations.  Two automata are equal if the hash codes of their minimal
automata agree and each language contains the other one.
-/

namespace SafetyGames.Automata

open SafetyGames.Transducer SafetyGames.LabelledPath SafetyGames.Teacher
open SafetyGames.Shortlex

/-! ## Strings -/

/-- From its positions a chain accepts what is left of the word. -/
theorem chainStates_accepts_iff {word read : Word} {source : Nat}
    (inside : source ≤ word.length) :
    (chainStates word).Accepts source read ↔ read = word.drop source := by
  induction read generalizing source with
  | nil =>
      rw [Heap.accepts_nil]
      rcases Nat.eq_or_lt_of_le inside with rfl | less
      · rw [chainStates_state_length, List.drop_length]
        exact iff_of_true rfl rfl
      · rw [chainStates_state_lt less]
        refine iff_of_false Bool.false_ne_true fun empty => ?_
        have short := List.drop_eq_nil_iff.mp empty.symm
        omega
  | cons c read induction =>
      rw [Heap.accepts_cons]
      constructor
      · rintro ⟨target, taken, accepts⟩
        rcases chainStates_step_iff.mp taken with ⟨letter, rfl⟩
        rcases List.getElem?_eq_some_iff.mp letter with ⟨less, rfl⟩
        rw [List.drop_eq_getElem_cons less, (induction less).mp accepts]
      · intro same
        have less : source < word.length := by
          by_contra outside
          rw [List.drop_eq_nil_of_le (not_lt.mp outside)] at same
          exact List.cons_ne_nil _ _ same
        rw [List.drop_eq_getElem_cons less] at same
        rcases List.cons.inj same with ⟨rfl, rest⟩
        exact ⟨source + 1, chainStates_step_iff.mpr
          ⟨List.getElem?_eq_getElem less, rfl⟩, (induction less).mpr rest⟩

theorem minimal_makeString (word : Word) : Minimal (Automaton.makeString word) where
  invariants := makeString_invariants word
  flag := rfl
  reduced := fun ref _ => reduced_chainStates word ref
  distinguished := by
    intro p q reachableP reachableQ same
    have boundP : p ≤ word.length := by
      have inside := reachableP.lt
      simp only [Automaton.makeString, length_chainStates] at inside
      omega
    have boundQ : q ≤ word.length := by
      have inside := reachableQ.lt
      simp only [Automaton.makeString, length_chainStates] at inside
      omega
    have accepted := (same (word.drop p)).mp
      ((chainStates_accepts_iff boundP).mpr rfl)
    have lengths := congrArg List.length
      ((chainStates_accepts_iff boundQ).mp accepted)
    simp only [List.length_drop] at lengths
    omega

theorem getStates_makeString (word : Word) :
    (Automaton.makeString word).getStates.Perm (List.range (word.length + 1)) := by
  refine (List.perm_ext_iff_of_nodup Automaton.nodup_getStates
    List.nodup_range).mpr fun ref => ?_
  rw [Automaton.mem_getStates, List.mem_range, Nat.lt_succ_iff]
  constructor
  · rintro ⟨read, path⟩
    exact ((chainStates_path_iff (Nat.zero_le _)).mp path).1
  · intro inside
    exact ⟨word.take ref, (chainStates_path_iff (Nat.zero_le _)).mpr
      ⟨inside, Nat.zero_le ref, rfl⟩⟩

/-- A chain has a transition a letter. -/
theorem counts_makeString (word : Word) :
    (Automaton.makeString word).getNumberOfStates = word.length + 1 ∧
      getNumberOfTransitions (Automaton.makeString word) = word.length := by
  constructor
  · rw [Automaton.getNumberOfStates, (getStates_makeString word).length_eq,
      List.length_range]
  · have one : ∀ ref ∈ List.range word.length,
        ((Automaton.makeString word).state ref).transitions.length = 1 := by
      intro ref member
      change ((chainStates word).state ref).transitions.length = 1
      rw [chainStates_state_lt (List.mem_range.mp member)]
      rfl
    have last : ((Automaton.makeString word).state
        word.length).transitions.length = 0 := by
      change ((chainStates word).state word.length).transitions.length = 0
      rw [chainStates_state_length]
      rfl
    rw [getNumberOfTransitions, ((getStates_makeString word).map _).sum_eq,
      List.range_succ, List.map_append, List.sum_append, List.map_congr_left one,
      List.map_singleton, last]
    simp

namespace Representation

/-! ## Minimization and inclusion -/

/-- `getNumberOfStates()`. -/
def getNumberOfStates : Representation → Nat
  | .singleton s => s.length + 1
  | .explicit a => a.getNumberOfStates

/-- `getNumberOfTransitions()`. -/
def getNumberOfTransitions : Representation → Nat
  | .singleton s => s.length
  | .explicit a => Automata.getNumberOfTransitions a

/-- `recomputeHashCode()`, of type `int`. -/
def recomputeHashCode (a : Representation) : BitVec 32 :=
  let hash_code :=
    BitVec.ofNat 32 (a.getNumberOfStates * 3 + a.getNumberOfTransitions * 2)
  if hash_code = 0 then 1 else hash_code

section Order

variable (order : StateOrder)
  (identical : Representation → Representation → Bool)

/-- `determinize(a)`. -/
def determinize : Representation → Representation
  | .singleton s => .singleton s
  | .explicit a => .explicit (Automata.determinize order a)

/-- `minimize(a)`; `none` if an index is out of bounds. -/
def minimize : Representation → Option Representation
  | .singleton s => some (.singleton s)
  | .explicit a => (minimizeHopcroft order a).map .explicit

/-- `subsetOf(a1, a2)`. -/
def subsetOf (a1 a2 : Representation) : Bool :=
  if identical a1 a2 then true
  else
    match a1, a2 with
    | .singleton s1, .singleton s2 => s1 = s2
    | .singleton s1, .explicit b2 => run (.explicit b2) s1
    | .explicit b1, a2 => walkPairs order b1 (determinize order a2).expand

/-- `equals(obj)` for an automaton; `hashCode()` minimizes both. -/
def equals (a1 a2 : Representation) : Option Bool :=
  if identical a1 a2 then some true
  else
    match a1, a2 with
    | .singleton s1, .singleton s2 => some (s1 = s2)
    | a1, a2 => do
        let m1 ← minimize order a1
        let m2 ← minimize order a2
        return recomputeHashCode m1 = recomputeHashCode m2 &&
          subsetOf order identical m1 m2 && subsetOf order identical m2 m1

/-- `getShortestExample(a, accepted)`, `none` for null. -/
def getShortestExample : Representation → Bool → Option Word
  | .singleton s, true => some s
  | .singleton s, false => if s.length > 0 then some [] else some [0]
  | .explicit a, accepted => Automata.getShortestExample a accepted

variable {order identical} {r r1 r2 : Representation}
  {L L1 L2 : Language JChar}

theorem expand_determinize :
    (determinize order r).expand = Automata.determinize order r.expand := by
  cases r with
  | singleton s => exact (determinize_of_flag rfl).symm
  | explicit a => rfl

theorem Denotes.determinize (denotes : Denotes r L) :
    Denotes (determinize order r) L := by
  refine ⟨expand_determinize ▸ denotes.tidy.determinize, ?_⟩
  rw [← denotes.lang_eq, expand_determinize]
  exact (determinize_spec denotes.honest).2.2

/-- `minimize` returns a minimal automaton of the language. -/
theorem Denotes.minimize_returns (denotes : Denotes r L) :
    ∃ m, minimize order r = some m ∧ Minimal m.expand ∧ Denotes m L := by
  cases r with
  | singleton s => exact ⟨_, rfl, minimal_makeString s, denotes⟩
  | explicit a =>
      rcases @Tidy.minimizeHopcroft_returns a order denotes.tidy with
        ⟨b, returned, minimal, same⟩
      exact ⟨.explicit b, congrArg (Option.map Representation.explicit) returned,
        minimal, minimal.tidy, same.trans denotes.lang_eq⟩

/-- Whatever `minimize` returns is minimal, tidy or not the automaton. -/
theorem Represents.minimized {m : Representation} (represents : Represents r L)
    (returned : minimize order r = some m) : Minimal m.expand ∧ Denotes m L := by
  cases r with
  | singleton s =>
      cases Option.some.inj returned
      exact ⟨minimal_makeString s, tidy_makeString s, represents.lang_eq⟩
  | explicit a =>
      rcases Option.map_eq_some_iff.mp returned with ⟨b, found, rfl⟩
      rcases minimizeHopcroft_minimal represents.invariants found with
        ⟨minimal, same⟩
      exact ⟨minimal, minimal.tidy, same.trans represents.lang_eq⟩

theorem Denotes.subsetOf_iff
    (same : ∀ a1 a2, identical a1 a2 = true → a1 = a2)
    (first : Denotes r1 L1) (second : Denotes r2 L2) :
    subsetOf order identical r1 r2 = true ↔ ∀ word ∈ L1, word ∈ L2 := by
  rw [subsetOf.eq_def]
  split_ifs with one
  · refine iff_of_true rfl ?_
    rw [← first.lang_eq, ← second.lang_eq, same _ _ one]
    exact fun _ member => member
  · cases r1 with
    | singleton s1 =>
        have only : (∀ word ∈ L1, word ∈ L2) ↔ s1 ∈ L2 := by
          rw [← first.lang_eq]
          refine ⟨fun subset => subset s1 (mem_language_makeString.mpr rfl), ?_⟩
          intro member word inString
          rwa [mem_language_makeString.mp inString]
        rw [only, ← second.lang_eq]
        cases r2 with
        | singleton s2 =>
            rw [decide_eq_true_eq]
            exact mem_language_makeString.symm
        | explicit b2 => exact Representation.run_iff second.honest
    | explicit b1 =>
        rw [← first.lang_eq, ← second.lang_eq]
        change walkPairs order b1 (Representation.determinize order r2).expand =
          true ↔ _
        rw [expand_determinize]
        exact walkPairs_determinize_iff first.tidy.invariants.live second.tidy

/-! ## Hash codes -/

/-- The counts of a string are those of its chain. -/
theorem counts_expand (r : Representation) :
    r.expand.getNumberOfStates = r.getNumberOfStates ∧
      Automata.getNumberOfTransitions r.expand = r.getNumberOfTransitions := by
  cases r with
  | explicit a => exact ⟨rfl, rfl⟩
  | singleton s => exact counts_makeString s

/-- Minimal automata of one language have one hash code. -/
theorem recomputeHashCode_eq (minimal1 : Minimal r1.expand)
    (minimal2 : Minimal r2.expand) (same : r1.expand.lang = r2.expand.lang) :
    recomputeHashCode r1 = recomputeHashCode r2 := by
  rcases minimal1.counts_eq minimal2 same with ⟨states, transitions⟩
  rw [(counts_expand r1).1, (counts_expand r2).1] at states
  rw [(counts_expand r1).2, (counts_expand r2).2] at transitions
  rw [recomputeHashCode, recomputeHashCode, states, transitions]

/--
Whatever the representations and the orders of the states, minimizing automata
of one language gives the same numbers of states and of transitions, and one
hash code, which is never the zero of an unknown one.
-/
theorem minimize_hashCode {order1 order2 : StateOrder} (first : Denotes r1 L)
    (second : Denotes r2 L) :
    ∃ m1 m2, minimize order1 r1 = some m1 ∧ minimize order2 r2 = some m2 ∧
      m1.getNumberOfStates = m2.getNumberOfStates ∧
      m1.getNumberOfTransitions = m2.getNumberOfTransitions ∧
      recomputeHashCode m1 = recomputeHashCode m2 ∧ recomputeHashCode m1 ≠ 0 := by
  rcases @Denotes.minimize_returns order1 _ _ first with
    ⟨m1, returned1, minimal1, denotes1⟩
  rcases @Denotes.minimize_returns order2 _ _ second with
    ⟨m2, returned2, minimal2, denotes2⟩
  have same := denotes1.lang_eq.trans denotes2.lang_eq.symm
  rcases minimal1.counts_eq minimal2 same with ⟨states, transitions⟩
  rw [(counts_expand m1).1, (counts_expand m2).1] at states
  rw [(counts_expand m1).2, (counts_expand m2).2] at transitions
  refine ⟨m1, m2, returned1, returned2, states, transitions,
    recomputeHashCode_eq minimal1 minimal2 same, ?_⟩
  rw [recomputeHashCode]
  split_ifs with zero
  · decide
  · exact zero

/--
A string, and the chain of states that is its explicit representation.
-/
theorem minimize_hashCode_makeString :
    ∃ m1 m2, minimize .found (.singleton [97]) = some m1 ∧
      minimize .found (.explicit (Automaton.makeString [97])) = some m2 ∧
      m1.getNumberOfStates = m2.getNumberOfStates ∧
      m1.getNumberOfTransitions = m2.getNumberOfTransitions ∧
      recomputeHashCode m1 = recomputeHashCode m2 ∧ recomputeHashCode m1 ≠ 0 :=
  minimize_hashCode (denotes_singleton [97])
    ⟨tidy_makeString [97], (denotes_singleton [97]).lang_eq⟩

/-- The branch of `equals` that minimizes the automata. -/
theorem minimized_equal_iff
    (same : ∀ a1 a2, identical a1 a2 = true → a1 = a2)
    (first : Denotes r1 L1) (second : Denotes r2 L2) :
    ∃ answer, (do
      let m1 ← minimize order r1
      let m2 ← minimize order r2
      return recomputeHashCode m1 = recomputeHashCode m2 &&
        subsetOf order identical m1 m2 &&
          subsetOf order identical m2 m1 : Option Bool) = some answer ∧
        (answer = true ↔ L1 = L2) := by
  rcases @Denotes.minimize_returns order _ _ first with
    ⟨m1, returned1, minimal1, denotes1⟩
  rcases @Denotes.minimize_returns order _ _ second with
    ⟨m2, returned2, minimal2, denotes2⟩
  refine ⟨_, by rw [returned1, returned2]; rfl, ?_⟩
  rw [Bool.and_eq_true, Bool.and_eq_true, decide_eq_true_eq,
    denotes1.subsetOf_iff same denotes2, denotes2.subsetOf_iff same denotes1]
  constructor
  · rintro ⟨⟨_, subset⟩, superset⟩
    exact Language.ext fun word => ⟨subset word, superset word⟩
  · rintro rfl
    exact ⟨⟨recomputeHashCode_eq minimal1 minimal2
      (denotes1.lang_eq.trans denotes2.lang_eq.symm), fun _ member => member⟩,
      fun _ member => member⟩

/-- `equals` returns, and decides whether the languages are equal. -/
theorem Denotes.equals_iff
    (same : ∀ a1 a2, identical a1 a2 = true → a1 = a2)
    (first : Denotes r1 L1) (second : Denotes r2 L2) :
    ∃ answer, equals order identical r1 r2 = some answer ∧
      (answer = true ↔ L1 = L2) := by
  have general := @minimized_equal_iff order _ _ _ _ _ same first second
  rw [equals.eq_def]
  split_ifs with one
  · refine ⟨true, rfl, iff_of_true rfl ?_⟩
    rw [← first.lang_eq, ← second.lang_eq, same _ _ one]
  · match r1, r2 with
    | .singleton s1, .singleton s2 =>
        refine ⟨_, rfl, ?_⟩
        rw [decide_eq_true_eq, ← first.lang_eq, ← second.lang_eq]
        refine ⟨fun equal => equal ▸ rfl, fun equal => ?_⟩
        exact mem_language_makeString.mp
          (equal ▸ mem_language_makeString.mpr rfl)
    | .singleton _, .explicit _ => exact general
    | .explicit _, .singleton _ => exact general
    | .explicit _, .explicit _ => exact general

/-- On automata that are not tidy `equals` may throw, but it is never wrong
about equal languages. -/
theorem Represents.lang_eq_of_equals
    (same : ∀ a1 a2, identical a1 a2 = true → a1 = a2)
    (first : Represents r1 L1) (second : Represents r2 L2)
    (equal : equals order identical r1 r2 = some true) : L1 = L2 := by
  have general : (do
      let m1 ← minimize order r1
      let m2 ← minimize order r2
      return recomputeHashCode m1 = recomputeHashCode m2 &&
        subsetOf order identical m1 m2 &&
          subsetOf order identical m2 m1 : Option Bool) = some true →
        L1 = L2 := by
    intro returned
    rcases Option.bind_eq_some_iff.mp returned with ⟨m1, returned1, returned⟩
    rcases Option.bind_eq_some_iff.mp returned with ⟨m2, returned2, returned⟩
    have denotes1 := (first.minimized returned1).2
    have denotes2 := (second.minimized returned2).2
    have both := Option.some.inj returned
    rw [Bool.and_eq_true, Bool.and_eq_true, denotes1.subsetOf_iff same denotes2,
      denotes2.subsetOf_iff same denotes1] at both
    exact Language.ext fun word => ⟨both.1.2 word, both.2 word⟩
  rw [equals.eq_def] at equal
  split_ifs at equal with one
  · rw [← first.lang_eq, ← second.lang_eq, same _ _ one]
  · match r1, r2 with
    | .singleton s1, .singleton s2 =>
        rw [← first.lang_eq, ← second.lang_eq,
          of_decide_eq_true (Option.some.inj equal)]
    | .singleton _, .explicit _ => exact general equal
    | .explicit _, .singleton _ => exact general equal
    | .explicit _, .explicit _ => exact general equal

/-- The shortest example of either representation: null if and only if nothing
is accepted, and otherwise the first accepted string by length and order. -/
theorem Recognizes.getShortestExample (recognizes : Recognizes r L) :
    (getShortestExample r true = none ↔ L = 0) ∧
      ∀ word, getShortestExample r true = some word →
        word ∈ L ∧ ∀ other ∈ L, rank (codes word) ≤ rank (codes other) := by
  rw [← recognizes.lang_eq]
  cases r with
  | explicit a => exact getShortestExample_accepted
  | singleton s =>
      constructor
      · refine iff_of_false (Option.some_ne_none s) fun empty => ?_
        exact Language.notMem_zero s (empty ▸ mem_language_makeString.mpr rfl)
      · intro word found
        rcases Option.some.inj found with rfl
        refine ⟨mem_language_makeString.mpr rfl, fun other member => ?_⟩
        rw [mem_language_makeString.mp member]

/-- On a string other than the empty one the empty string is the first that is
rejected and does not get stuck. -/
theorem getShortestExample_singleton {s : Word} (nonempty : s ≠ []) :
    getShortestExample (.singleton s) false = some [] ∧
      [] ∉ language (expand (.singleton s)) := by
  refine ⟨if_pos (List.length_pos_of_ne_nil nonempty), fun member => ?_⟩
  exact nonempty (mem_language_makeString.mp member).symm

/--
The example for `true` is null exactly for the empty language, and otherwise the
first accepted word.  That for `false` is, on every deterministic automaton but
the string that is empty, null exactly if every word that does not get stuck is
accepted, and otherwise the first rejected one of these; for the empty string it
is a word that gets stuck.
-/
theorem getShortestExample_exact {r : Representation}
    (deterministic : r.expand.states.DeterministicFrom r.expand.initial) :
    ((getShortestExample r true = none ↔ language r.expand = 0) ∧
      ∀ word, getShortestExample r true = some word →
        word ∈ language r.expand ∧ ∀ other ∈ language r.expand,
          rank (codes word) ≤ rank (codes other)) ∧
    (r ≠ .singleton [] →
      (getShortestExample r false = none ↔ ∀ word target,
        Path r.expand.states.Step r.expand.initial word target →
          word ∈ language r.expand) ∧
      ∀ word, getShortestExample r false = some word →
        (∃ target, Path r.expand.states.Step r.expand.initial word target) ∧
          word ∉ language r.expand ∧ ∀ other target,
            Path r.expand.states.Step r.expand.initial other target →
              other ∉ language r.expand →
                rank (codes word) ≤ rank (codes other)) ∧
    getShortestExample (.singleton []) false = some [0] := by
  have recognizes : Recognizes r (language r.expand) :=
    ⟨fun _ => deterministic, rfl⟩
  refine ⟨recognizes.getShortestExample, ?_, rfl⟩
  intro notEmpty
  cases r with
  | explicit a => exact getShortestExample_rejected deterministic
  | singleton s =>
      have nonempty : s ≠ [] := by
        rintro rfl
        exact notEmpty rfl
      rcases getShortestExample_singleton nonempty with ⟨returned, rejected⟩
      constructor
      · refine iff_of_false ?_ fun all => rejected (all [] _ (Path.nil _))
        rw [returned]
        exact Option.some_ne_none []
      · intro word found
        cases returned.symm.trans found
        refine ⟨⟨_, Path.nil _⟩, rejected, fun _ _ _ _ => ?_⟩
        exact rank_le_append [] _

/-- Two letters lead to a second state, the later letter first, and from there
the first one to a third.  The second state is the only one of its kind. -/
def forkAutomaton (kind : Bool) : Automaton where
  states := [⟨!kind, [Transition.single 98 1, Transition.single 97 1]⟩,
    ⟨kind, [Transition.single 97 2]⟩, ⟨!kind, []⟩]
  initial := 0
  deterministic := true
  initial_lt := by decide +revert
  closed := by decide +revert

theorem forkAutomaton_deterministic (kind : Bool) :
    (forkAutomaton kind).states.DeterministicFrom (forkAutomaton kind).initial :=
  deterministicFrom_of_apart (by decide +revert)

/--
If only the second state accepts, `a` is the first accepted word, and if only the
second state rejects, `a` is the first rejected one, although the transition on
`b` is the first of the initial state.
-/
theorem getShortestExample_exact_forkAutomaton :
    (getShortestExample (.explicit (forkAutomaton true)) true = some [97] ∧
      ∀ other ∈ language (forkAutomaton true),
        rank (codes [97]) ≤ rank (codes other)) ∧
    getShortestExample (.explicit (forkAutomaton false)) false = some [97] ∧
      [97] ∉ language (forkAutomaton false) ∧
      ∀ other target, Path (forkAutomaton false).states.Step
        (forkAutomaton false).initial other target →
          other ∉ language (forkAutomaton false) →
            rank (codes [97]) ≤ rank (codes other) := by
  constructor
  · have found : getShortestExample (.explicit (forkAutomaton true)) true =
        some [97] := rfl
    rcases @getShortestExample_exact (.explicit (forkAutomaton true))
      (forkAutomaton_deterministic true) with ⟨⟨_, first⟩, _⟩
    exact ⟨found, (first [97] found).2⟩
  · have found : getShortestExample (.explicit (forkAutomaton false)) false =
        some [97] := rfl
    rcases @getShortestExample_exact (.explicit (forkAutomaton false))
      (forkAutomaton_deterministic false) with ⟨_, others, _⟩
    have explicit : Representation.explicit (forkAutomaton false) ≠
        .singleton [] := by simp
    exact ⟨found, ((others explicit).2 [97] found).2⟩

end Order

end Representation

end SafetyGames.Automata
