import SafetyGames.Automata.Canonical
import SafetyGames.Automata.Complement
import SafetyGames.Automata.SubsetOf
import SafetyGames.Automata.Repetition

/-!
# Tidy automata

The operations of the library are exact on automata that satisfy the class
invariants and whose transitions are combined where the deterministic flag is
set: on others `subsetOf` may miss an inclusion and `minimize` may fail.  Every
operation returns such an automaton from such automata.
-/

namespace SafetyGames.Automata

open SafetyGames.Transducer SafetyGames.LabelledPath SafetyGames.Teacher
open SafetyGames.Regular
open Computability

/-- The class invariants, and reduced transitions where the flag is set. -/
structure Tidy (a : Automaton) : Prop where
  invariants : ClassInvariants a
  reduced : a.deterministic = true →
    ∀ ref, a.Reachable ref → Reduced (a.state ref).transitions

variable {a b : Automaton} {order : StateOrder}

theorem Tidy.of_unflagged (invariants : ClassInvariants a)
    (flag : a.deterministic = false) : Tidy a :=
  ⟨invariants, fun isSet => absurd (flag.symm.trans isSet) Bool.false_ne_true⟩

theorem Minimal.tidy (minimal : Minimal a) : Tidy a :=
  ⟨minimal.invariants, fun _ => minimal.reduced⟩

theorem tidy_makeEmpty : Tidy Automaton.makeEmpty := by
  refine ⟨makeEmpty_invariants, fun _ ref _ => ?_⟩
  match ref with
  | 0 => exact List.Pairwise.nil
  | _ + 1 => exact List.Pairwise.nil

theorem reduced_chainStates (word : Word) (ref : Nat) :
    Reduced ((chainStates word).state ref).transitions := by
  rcases lt_trichotomy ref word.length with inside | rfl | outside
  · rw [chainStates_state_lt inside]
    exact List.pairwise_singleton _ _
  · rw [chainStates_state_length]
    exact List.Pairwise.nil
  · rw [Heap.state_of_length_le (by rw [length_chainStates]; omega)]
    exact List.Pairwise.nil

theorem tidy_makeString (word : Word) : Tidy (Automaton.makeString word) :=
  ⟨makeString_invariants word, fun _ ref _ => reduced_chainStates word ref⟩

/-! ## Operations on tidy automata -/

theorem tidy_complement (honest : a.HonestFlag) : Tidy (complement order a) :=
  ⟨(complement_spec honest).1,
    fun _ ref reachable => trimmed_removeDeadTransitions.reduced ref reachable⟩

theorem tidy_product (honest1 : a.HonestFlag) (honest2 : b.HonestFlag) :
    Tidy (product order a b) :=
  ⟨(product_spec honest1 honest2).1,
    fun _ ref reachable => trimmed_removeDeadTransitions.reduced ref reachable⟩

/-- The determinized automaton is reduced. -/
theorem Tidy.reduced_determinize (tidy : Tidy a) {ref : Nat}
    (reachable : (determinize order a).Reachable ref) :
    Reduced ((determinize order a).state ref).transitions := by
  cases flag : a.deterministic with
  | false => exact determinize_reduced flag reachable
  | true =>
      rw [determinize_of_flag flag] at reachable ⊢
      exact tidy.reduced flag ref reachable

theorem Tidy.determinize (tidy : Tidy a) : Tidy (determinize order a) :=
  ⟨determinize_invariants tidy.invariants,
    fun _ _ => tidy.reduced_determinize⟩

/-- What the subset construction builds is tidy. -/
theorem tidy_determinize_of_unflagged (flag : a.deterministic = false) :
    Tidy (determinize order a) := by
  refine ⟨?_, fun _ _ => determinize_reduced flag⟩
  rw [determinize, if_neg (by rw [flag]; exact Bool.false_ne_true)]
  exact determinizeFrom_initial.1

/-- The walk of `subsetOf` behind `a2.determinize()` decides the inclusion. -/
theorem walkPairs_determinize_iff {a1 a2 : Automaton} (live : Live a1)
    (tidy : Tidy a2) :
    walkPairs order a1 (determinize order a2) = true ↔ a1.lang ⊆ a2.lang := by
  rcases @determinize_spec order a2 tidy.invariants.honest with
    ⟨_, deterministic, same⟩
  constructor
  · exact fun walked => same ▸ subset_of_walkPairs walked
  · exact fun subset => walkPairs_of_subset live deterministic
      (fun _ => tidy.reduced_determinize) (same.symm ▸ subset)

/-- `minimizeHopcroft` returns on every tidy automaton. -/
theorem Tidy.minimizeHopcroft_returns (tidy : Tidy a) :
    ∃ b, minimizeHopcroft order a = some b ∧ Minimal b ∧ b.lang = a.lang := by
  cases returned : minimizeHopcroft order a with
  | some b =>
      exact ⟨b, rfl, minimizeHopcroft_minimal tidy.invariants returned⟩
  | none =>
      rcases (minimizeHopcroft_eq_none_iff tidy.invariants.honest).mp returned
        with ⟨flag, loops, several⟩
      have single := loopsOnly_of_reduced
        (tidy.reduced flag _ Automaton.Reachable.initial) loops
      exact absurd (single.symm.trans several) (by decide)

/--
`determinize` makes deterministic and keeps the language; what it builds itself
satisfies the class invariants and is reduced.
-/
theorem determinize_exact (honest : a.HonestFlag) :
    (determinize order a).deterministic = true ∧
      (determinize order a).states.DeterministicFrom
        (determinize order a).initial ∧
      (determinize order a).lang = a.lang ∧
      (a.deterministic = false → Tidy (determinize order a)) := by
  rcases @determinize_spec order a honest with ⟨flag, deterministic, same⟩
  exact ⟨flag, deterministic, same, tidy_determinize_of_unflagged⟩

/-- `union` of the automata of two words. -/
def twoWords (u v : Word) : Automaton :=
  union (Automaton.makeString u) (Automaton.makeString v)

theorem twoWords_builds (u v : Word) : Builds (twoWords u v) ({u} + {v}) := by
  have built := builds_union (makeString_invariants u) (makeString_invariants v)
  have first : language (Automaton.makeString u) = {u} :=
    Automaton.lang_makeString u
  have second : language (Automaton.makeString v) = {v} :=
    Automaton.lang_makeString v
  rwa [first, second] at built

theorem lang_twoWords (u v : Word) : (twoWords u v).lang = {u, v} :=
  (twoWords_builds u v).2

/--
The initial state of the union of `a` and `ab` has two transitions on `a`.  The
subset construction makes one of them, and both words are still accepted.
-/
theorem determinize_exact_twoWords :
    ¬ (twoWords [97] [97, 98]).states.DeterministicFrom
        (twoWords [97] [97, 98]).initial ∧
      (determinize .found (twoWords [97] [97, 98])).states.DeterministicFrom
        (determinize .found (twoWords [97] [97, 98])).initial ∧
      (determinize .found (twoWords [97] [97, 98])).lang = {[97], [97, 98]} ∧
      Tidy (determinize .found (twoWords [97] [97, 98])) := by
  rcases @determinize_exact (twoWords [97] [97, 98]) .found
    (twoWords_builds _ _).1.honest with ⟨_, deterministic, same, tidy⟩
  refine ⟨fun unique => ?_, deterministic, same.trans (lang_twoWords _ _),
    tidy rfl⟩
  have different := unique [] _ (Path.nil _) 97 1 3
    ⟨Transition.single 97 1, by decide, by decide, rfl⟩
    ⟨Transition.single 97 3, by decide, by decide, rfl⟩
  exact absurd different (by decide)

/--
The walk of `subsetOf` never reports a false inclusion, whatever the automata
are, and it finds every inclusion of a live automaton in a tidy one.
-/
theorem walkPairs_exact {a1 a2 : Automaton} :
    (walkPairs order a1 (determinize order a2) = true → a1.lang ⊆ a2.lang) ∧
      (Live a1 → Tidy a2 → a1.lang ⊆ a2.lang →
        walkPairs order a1 (determinize order a2) = true) :=
  ⟨fun walked => lang_determinize (a := a2) ▸ subset_of_walkPairs walked,
    fun live tidy => (walkPairs_determinize_iff live tidy).mpr⟩

/--
The walk finds `ab` among the words of the union of `a` and `ab`, behind the
subset construction, and does not find the union in `ab`.
-/
theorem walkPairs_exact_twoWords :
    walkPairs .found (Automaton.makeString [97, 98])
        (determinize .found (twoWords [97] [97, 98])) = true ∧
      walkPairs .found (twoWords [97] [97, 98])
        (determinize .found (Automaton.makeString [97, 98])) = false := by
  constructor
  · apply walkPairs_exact.2 (makeString_invariants [97, 98]).live
      (Tidy.of_unflagged (twoWords_builds _ _).1 rfl)
    rw [Automaton.lang_makeString, lang_twoWords]
    exact Set.subset_insert _ _
  · refine Bool.eq_false_iff.mpr fun walked => ?_
    have subset := walkPairs_exact.1 walked
    rw [Automaton.lang_makeString, lang_twoWords] at subset
    exact absurd (subset (Set.mem_insert [97] _)) (by simp)

/--
`minimizeHopcroft` throws exactly on a flagged automaton whose initial state
loops on every character by several transitions.  On automata that satisfy the
class invariants what it returns accepts the same language, and no deterministic
automaton of that language has fewer states.
-/
theorem minimizeHopcroft_exact {order : StateOrder} {a : Automaton}
    (honest : a.HonestFlag) :
    (minimizeHopcroft order a = none ↔
        a.deterministic = true ∧ LoopsOnAll a ∧ loopsOnly a = false) ∧
      (ClassInvariants a → ∀ b, minimizeHopcroft order a = some b →
        b.deterministic = true ∧ ClassInvariants b ∧ b.lang = a.lang ∧
          ∀ c : Automaton, c.states.DeterministicFrom c.initial →
            c.lang = a.lang → b.getNumberOfStates ≤ c.getNumberOfStates) := by
  refine ⟨minimizeHopcroft_eq_none_iff honest, fun invariants b returned => ?_⟩
  rcases minimizeHopcroft_minimal invariants returned with ⟨minimal, same⟩
  exact ⟨minimal.flag, minimal.invariants, same, fun c deterministic equal =>
    minimal.getNumberOfStates_le deterministic (same.trans equal.symm)⟩

/-- One rejecting state that loops on every character, by two transitions. -/
def splitLoop : Automaton where
  states := [⟨false, [⟨0, 97, 0, by decide⟩, ⟨98, 65535, 0, by decide⟩]⟩]
  initial := 0
  deterministic := true
  initial_lt := by decide
  closed := by decide

/--
On `splitLoop`, which is flagged and deterministic, `minimizeHopcroft` throws.
For the union of `a` and `ab`, which is not deterministic, it returns a
deterministic automaton of the two words.
-/
theorem minimizeHopcroft_exact_splitLoop :
    minimizeHopcroft .found splitLoop = none ∧
      ∃ b, minimizeHopcroft .found (twoWords [97] [97, 98]) = some b ∧
        b.deterministic = true ∧ b.lang = {[97], [97, 98]} := by
  constructor
  · have honest : splitLoop.HonestFlag := fun _ =>
      deterministicFrom_of_apart (by decide)
    refine (minimizeHopcroft_exact honest).1.mpr
      ⟨rfl, ⟨by decide, fun c => ?_⟩, rfl⟩
    rcases Nat.lt_or_ge 97 c.toNat with above | below
    · exact ⟨⟨98, 65535, 0, by decide⟩, by decide,
        UInt16.le_iff_toNat_le.mpr above,
        UInt16.le_iff_toNat_le.mpr (toNat_le_maxValue c)⟩
    · exact ⟨⟨0, 97, 0, by decide⟩, by decide,
        UInt16.le_iff_toNat_le.mpr (Nat.zero_le _),
        UInt16.le_iff_toNat_le.mpr below⟩
  · have invariants := (twoWords_builds [97] [97, 98]).1
    rcases (Tidy.of_unflagged invariants rfl).minimizeHopcroft_returns with
      ⟨b, returned, _⟩
    rcases (minimizeHopcroft_exact invariants.honest).2 invariants b returned with
      ⟨flag, _, same, _⟩
    exact ⟨b, returned, flag, same.trans (lang_twoWords _ _)⟩

/-! ## Concatenations -/

theorem reduced_map_shiftTransition {offset : Nat}
    {transitions : List Transition} (reduced : Reduced transitions) :
    Reduced (transitions.map (shiftTransition offset)) := by
  refine List.pairwise_map.mpr (reduced.imp ?_)
  exact fun separate same => separate (Nat.add_left_cancel same)

/-- A set of transitions with an empty one is the same set. -/
theorem reduced_union_nil {transitions : List Transition}
    (reduced : Reduced transitions) : Reduced (transitions ∪ []) := by
  have same : (transitions ∪ []).Perm transitions :=
    (List.perm_ext_iff_of_nodup (List.nodup_nil.union transitions)
      reduced.nodup).mpr fun t => by simp
  exact (same.symm.pairwise reduced fun separate =>
    Std.Symm.symm _ _ separate)

/-- A chain whose last state goes on in a reduced clone is reduced. -/
theorem reduced_attachTo_makeString {word : Word} {a : Automaton}
    (reduced : ∀ ref, a.Reachable ref → Reduced (a.state ref).transitions)
    {ref : Nat} (reachable : (attachTo false (Automaton.makeString word)
      (Automaton.makeString word).getAcceptStates a).Reachable ref) :
    Reduced ((attachTo false (Automaton.makeString word)
      (Automaton.makeString word).getAcceptStates a).state ref).transitions := by
  have known := acceptsAt_getAcceptStates (Automaton.makeString word)
  rcases attachTo_reachable known reachable with inChain | ⟨next, inClone, rfl⟩
  · by_cases member : ref ∈ (Automaton.makeString word).getAcceptStates
    · have accept := (Automaton.mem_getAcceptStates.mp member).2
      have none : ((Automaton.makeString word).state ref).transitions = [] := by
        refine List.eq_nil_iff_forall_not_mem.mpr fun t inState => ?_
        exact not_step_of_accept accept t.min t.dest
          ⟨t, inState, t.reads_min, rfl⟩
      change Reduced ((attach _ _ _ _).state ref).transitions
      rw [attach_state_of_mem known.bound member, attachState, addEpsilon]
      change Reduced (_ ∪ ((Automaton.makeString word).state ref).transitions)
      rw [none]
      exact reduced_union_nil (reduced_map_shiftTransition
        (reduced a.initial Automaton.Reachable.initial))
    · change Reduced ((attach _ _ _ _).state ref).transitions
      rw [attach_state_of_notMem inChain.lt member]
      exact reduced_chainStates word ref
  · change Reduced ((attachTo _ _ _ _).states.state _).transitions
    rw [attachTo_shifted known next]
    exact reduced_map_shiftTransition (reduced next inClone)

theorem tidy_concatenate {deterministic : Bool} {a1 a2 : Automaton}
    (tidy1 : Tidy a1) (tidy2 : Tidy a2)
    (flag : deterministic = true →
      (∃ word, a1 = Automaton.makeString word) ∧ a2.deterministic = true) :
    Tidy (concatenate deterministic a1 a2) := by
  refine ⟨(builds_concatenate tidy1.invariants tidy2.invariants flag).1, ?_⟩
  rw [concatenate]
  by_cases empty : (isEmpty a1 || isEmpty a2) = true
  · rw [if_pos empty]
    exact tidy_makeEmpty.reduced
  · rw [if_neg empty]
    intro isSet ref reachable
    rcases flag isSet with ⟨⟨word, rfl⟩, second⟩
    exact reduced_attachTo_makeString (tidy2.reduced second) reachable

theorem tidy_concatenateAll {l : List Automaton}
    (tidy : ∀ a ∈ l, Tidy a) : Tidy (concatenateAll l) := by
  have built := builds_concatenateAll fun a member => (tidy a member).invariants
  refine ⟨built.1, ?_⟩
  cases l with
  | nil => exact (tidy_makeString []).reduced
  | cons first rest =>
      rw [concatenateAll]
      by_cases empty : (first :: rest).any isEmpty = true
      · rw [if_pos empty]
        exact tidy_makeEmpty.reduced
      · rw [if_neg empty]
        exact fun isSet => absurd isSet Bool.false_ne_true

end SafetyGames.Automata
