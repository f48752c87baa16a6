import SafetyGames.Automata.Union

/-!
# Repetitions

`optional`, `repeat` and the two bounded repetitions.  In `repeat` the states
that accept get epsilon transitions back to the new initial state; a bounded
repetition attaches one clone after the other.
-/

namespace SafetyGames.Automata

open SafetyGames.Transducer SafetyGames.LabelledPath SafetyGames.Regular
open SafetyGames.Teacher
open Computability

/-! ## An accepting initial state -/

/-- The clone of an automaton, and a new accepting state that leads to it. -/
def Clones.accepting (a : Automaton) : Clones where
  heap := a.states
  s := addEpsilon ⟨true, []⟩ (a.state a.initial)
  closed := a.closed
  leads := by
    intro t inState
    rcases mem_addEpsilon.mp inState with inInitial | none
    · exact a.closed _ (Heap.state_mem a.initial_lt) t inInitial
    · exact absurd none List.not_mem_nil

namespace Clones

variable {a : Automaton}

theorem mem_accepting {t : Transition} :
    t ∈ (Clones.accepting a).s.transitions ↔
      t ∈ (a.state a.initial).transitions := by
  rw [accepting, mem_addEpsilon]
  exact or_iff_left List.not_mem_nil

theorem accepting_accept : (Clones.accepting a).s.accept = true :=
  Bool.or_true _

theorem accepting_takes {c : JChar} {target : Nat} :
    (∃ t ∈ (Clones.accepting a).s.transitions,
        t.Reads c ∧ t.dest = target) ↔
      a.states.Step a.initial c target := by
  simp only [mem_accepting]
  exact Iff.rfl

theorem words_accepting : (Clones.accepting a).words = language a + 1 := by
  ext word
  rw [Language.mem_add, Language.mem_one]
  cases word with
  | nil => exact iff_of_true accepting_accept (Or.inr rfl)
  | cons c word =>
      rw [or_iff_left (List.cons_ne_nil c word)]
      refine Iff.trans ?_ Heap.accepts_cons.symm
      constructor
      · rintro ⟨t, inState, reads, accepts⟩
        exact ⟨t.dest, ⟨t, mem_accepting.mp inState, reads, rfl⟩, accepts⟩
      · rintro ⟨_, ⟨t, inState, reads, rfl⟩, accepts⟩
        exact ⟨t, mem_accepting.mpr inState, reads, accepts⟩

theorem alive_accepting (live : Live a) : (Clones.accepting a).Alive :=
  fun _ inState _ _ path => live.alive (mem_accepting.mp inState) path

end Clones

/-- `optional(a)`. -/
def optional (a : Automaton) : Automaton :=
  (Clones.accepting a).automaton

theorem builds_optional {a : Automaton} (invariants : ClassInvariants a) :
    Builds (optional a) (language a + 1) := by
  have built := (Clones.alive_accepting invariants.live).builds
  rwa [Clones.words_accepting] at built

/-! ## Any number of repetitions -/

/-- `repeat(a)`. -/
def repetition (a : Automaton) : Automaton where
  states := update (Clones.accepting a).automaton.states a.getAcceptStates
    (attachState true (Clones.accepting a).s)
  initial := a.states.length
  deterministic := false
  initial_lt := by simp [Clones.automaton, Clones.accepting]
  closed := by
    have closed := (Clones.accepting a).automaton.closed
    have inNew : (Clones.accepting a).s ∈ (Clones.accepting a).automaton.states :=
      List.mem_append_right _ (List.mem_singleton_self _)
    intro state member t inState
    rw [length_update]
    rcases mem_update member with ⟨old, inHeap, rfl | rfl⟩
    · rcases mem_addEpsilon.mp inState with inS | inOld
      · exact closed _ inNew t inS
      · exact closed old inHeap t inOld
    · exact closed _ inHeap t inState

section Repetition

variable {a : Automaton}

theorem repetition_state_of_mem {ref : Nat} (member : ref ∈ a.getAcceptStates) :
    (repetition a).states.state ref =
      attachState true (Clones.accepting a).s (a.state ref) := by
  have inside : ∀ ref ∈ a.getAcceptStates, ref < a.states.length :=
    fun ref member => (Automaton.mem_getAcceptStates.mp member).1.lt
  have inBoth : ∀ ref ∈ a.getAcceptStates,
      ref < (Clones.accepting a).automaton.states.length := by
    intro ref member
    rw [Clones.automaton, List.length_append]
    exact Nat.lt_add_right _ (inside ref member)
  rw [repetition, update_state_of_mem inBoth member,
    Clones.automaton_state _ (inside ref member)]
  rfl

theorem repetition_state_of_notMem {ref : Nat} (inside : ref < a.states.length)
    (notMember : ref ∉ a.getAcceptStates) :
    (repetition a).states.state ref = a.state ref := by
  rw [repetition, update_state_of_notMem notMember,
    Clones.automaton_state _ inside]
  rfl

theorem repetition_state_initial :
    (repetition a).states.state (repetition a).initial =
      (Clones.accepting a).s := by
  have outside : a.states.length ∉ a.getAcceptStates := fun member =>
    absurd (Automaton.mem_getAcceptStates.mp member).1.lt (Nat.lt_irrefl _)
  change (update _ _ _).state a.states.length = _
  rw [update_state_of_notMem outside]
  exact Clones.automaton_state_initial (Clones.accepting a)

/-- A word of the iteration begins with a step of the initial state. -/
theorem cons_mem_iteration {c : JChar} {word : Word} :
    c :: word ∈ (language a)∗ ↔
      ∃ target, a.states.Step a.initial c target ∧
        word ∈ languageFrom a.states target * (language a)∗ :=
  cons_mem_kstar.trans mem_leftQuotient_mul

theorem repetition_followed :
    Followed a.Reachable a.states (repetition a).states
      (a.states.Step a.initial) (language a)∗ where
  keeps := fun _ reachable _ _ taken => reachable.step taken
  steps := by
    intro source reachable c target
    by_cases member : source ∈ a.getAcceptStates
    · have accepts := (Automaton.mem_getAcceptStates.mp member).2
      rw [Heap.Step, repetition_state_of_mem member, attachState_takes,
        Clones.accepting_takes, and_iff_right accepts]
      exact Iff.rfl
    · have rejects : ¬ (a.states.state source).accept = true := fun accepts =>
        member (Automaton.mem_getAcceptStates.mpr ⟨reachable, accepts⟩)
      rw [Heap.Step, repetition_state_of_notMem reachable.lt member]
      simp only [rejects, false_and, or_false, Bool.false_eq_true]
      exact Iff.rfl
  accept := by
    intro source reachable
    rw [and_iff_left (Language.nil_mem_kstar _)]
    by_cases member : source ∈ a.getAcceptStates
    · rw [repetition_state_of_mem member, attachState, addEpsilon_accept,
        Clones.accepting_accept]
      exact iff_of_true rfl (Automaton.mem_getAcceptStates.mp member).2
    · rw [repetition_state_of_notMem reachable.lt member]
  begins := by
    intro c word accepts
    rw [cons_mem_iteration]
    refine exists_congr fun target => and_congr_right fun taken => ?_
    exact (accepts target (Automaton.Reachable.initial.step taken)).symm

theorem repetition_step_initial {c : JChar} {target : Nat} :
    (repetition a).states.Step (repetition a).initial c target ↔
      a.states.Step a.initial c target := by
  rw [Heap.Step, repetition_state_initial]
  exact Clones.accepting_takes

theorem repetition_lang : language (repetition a) = (language a)∗ := by
  ext word
  cases word with
  | nil =>
      refine Heap.accepts_nil.trans ?_
      rw [repetition_state_initial]
      exact iff_of_true Clones.accepting_accept (Language.nil_mem_kstar _)
  | cons c word =>
      refine Heap.accepts_cons.trans ?_
      rw [cons_mem_iteration]
      refine exists_congr fun target => ?_
      rw [repetition_step_initial]
      exact and_congr_right fun taken => repetition_followed.accepts_iff
        (Automaton.Reachable.initial.step taken) word

theorem repetition_reachable {ref : Nat}
    (reachable : (repetition a).Reachable ref) :
    ref = (repetition a).initial ∨ a.Reachable ref := by
  rcases reachable with ⟨word, path⟩
  cases word with
  | nil => exact Or.inl (Path.nil_iff.mp path).symm
  | cons c word =>
      rcases Path.cons_iff.mp path with ⟨middle, taken, rest⟩
      have first : a.Reachable middle :=
        Automaton.Reachable.initial.step (repetition_step_initial.mp taken)
      right
      refine rest.invariant (fun source d target known step => ?_) first
      rcases repetition_followed.step_cases known step with inside | onward
      · exact inside
      · exact Automaton.Reachable.initial.step onward

theorem live_repetition (live : Live a) : Live (repetition a) := by
  have alive : ∀ source, a.Reachable source → ∀ c target,
      a.states.Step source c target → ∃ word,
        (repetition a).states.Accepts target word := by
    rintro source reachable c _ ⟨t, inState, reads, rfl⟩
    rcases live source reachable t inState with ⟨word, accepts⟩
    have inside := reachable.step ⟨t, inState, reads, rfl⟩
    refine ⟨word ++ [], (repetition_followed.accepts_iff inside _).mpr ?_⟩
    exact Language.append_mem_mul accepts (Language.nil_mem_kstar _)
  intro ref reachable t inState
  have taken : (repetition a).states.Step ref t.min t.dest :=
    ⟨t, inState, t.reads_min, rfl⟩
  rcases repetition_reachable reachable with rfl | inside
  · exact alive a.initial Automaton.Reachable.initial _ _
      (repetition_step_initial.mp taken)
  · rcases (repetition_followed.steps ref inside _ _).mp taken with
      stays | ⟨_, onward⟩
    · exact alive ref inside _ _ stays
    · exact alive a.initial Automaton.Reachable.initial _ _ onward

theorem builds_repetition (invariants : ClassInvariants a) :
    Builds (repetition a) (language a)∗ :=
  ⟨⟨fun isSet => absurd isSet Bool.false_ne_true,
    live_repetition invariants.live⟩, repetition_lang⟩

end Repetition

/-! ## Bounded repetitions -/

/-- `repeat(a, min)`. -/
def repeatMin (a : Automaton) (min : Nat) : Automaton :=
  if min = 0 then repetition a
  else concatenateAll (List.replicate min a ++ [repetition a])

theorem builds_repeatMin {a : Automaton} (invariants : ClassInvariants a)
    (min : Nat) :
    Builds (repeatMin a min) (language a ^ min * (language a)∗) := by
  have repeated := builds_repetition invariants
  rw [repeatMin]
  split_ifs with isZero
  · rw [isZero, pow_zero, one_mul]
    exact repeated
  · have all : ∀ b ∈ List.replicate min a ++ [repetition a], ClassInvariants b := by
      intro b member
      rcases List.mem_append.mp member with inFront | isLast
      · rw [(List.mem_replicate.mp inFront).2]
        exact invariants
      · rw [List.mem_singleton.mp isLast]
        exact repeated.1
    have built := builds_concatenateAll all
    rwa [List.map_append, List.map_replicate, List.prod_append,
      List.prod_replicate, List.map_singleton, List.prod_singleton,
      repeated.2] at built

/-- The loop over `max`: each clone goes on in the ones before it. -/
def repeatOptionally (a : Automaton) : Nat → Automaton
  | 0 => a
  | count + 1 => attachTo true a a.getAcceptStates (repeatOptionally a count)

/-- The automaton of exactly `min` repetitions. -/
def repeatExactly (a : Automaton) (min : Nat) : Automaton :=
  if min = 0 then Automaton.makeString []
  else if min = 1 then a
  else concatenateAll (List.replicate min a)

/-- `repeat(a, min, max)`. -/
def repeatMinMax (a : Automaton) (min max : Nat) : Automaton :=
  if min > max then Automaton.makeEmpty
  else
    let b := repeatExactly a min
    if max - min > 0 then
      attachTo true b b.getAcceptStates (repeatOptionally a (max - min - 1))
    else b

/-- An automaton attached behind another one that may also end. -/
theorem builds_attachTo {a b : Automaton} {L M : Language JChar}
    (first : Builds b L) (second : Builds a M) :
    Builds (attachTo true b b.getAcceptStates a) (L * (M + 1)) := by
  have known := acceptsAt_getAcceptStates b
  refine ⟨⟨fun isSet => absurd isSet Bool.false_ne_true, ?_⟩, ?_⟩
  · exact attachTo_live known first.1.live second.1.live
      ⟨[], nil_mem_furtherWords.mpr (Or.inr rfl)⟩
  · rw [attachTo_lang known, furtherWords, if_pos rfl, first.2, second.2]

theorem builds_repeatOptionally {a : Automaton} (invariants : ClassInvariants a)
    (count : Nat) :
    Builds (repeatOptionally a count)
      (repetitions (language a) 1 (count + 1)) := by
  induction count with
  | zero =>
      rw [repetitions_one_one]
      exact ⟨invariants, rfl⟩
  | succ count induction =>
      have built := builds_attachTo ⟨invariants, rfl⟩ induction
      have shifted := @pow_mul_repetitions _ (language a) 1 0 (count + 1)
      rw [repetitions_one_add_one] at built
      rw [pow_one, Nat.add_comm 1 (count + 1)] at shifted
      rwa [shifted] at built

theorem builds_repeatExactly {a : Automaton} (invariants : ClassInvariants a)
    (min : Nat) : Builds (repeatExactly a min) (language a ^ min) := by
  rw [repeatExactly]
  split_ifs with isZero isOne
  · rw [isZero, pow_zero]
    exact builds_makeString []
  · rw [isOne, pow_one]
    exact ⟨invariants, rfl⟩
  · have all : ∀ b ∈ List.replicate min a, ClassInvariants b := by
      intro b member
      rw [(List.mem_replicate.mp member).2]
      exact invariants
    have built := builds_concatenateAll all
    rwa [List.map_replicate, List.prod_replicate] at built

theorem builds_repeatMinMax {a : Automaton} (invariants : ClassInvariants a)
    (min max : Nat) :
    Builds (repeatMinMax a min max) (repetitions (language a) min max) := by
  have exactly := builds_repeatExactly invariants min
  rw [repeatMinMax]
  by_cases order : min > max
  · rw [if_pos order, repetitions_of_lt order]
    exact builds_makeEmpty
  · rw [if_neg order]
    have shifted := @pow_mul_repetitions _ (language a) min 0 (max - min)
    rw [Nat.add_zero, Nat.add_sub_of_le (Nat.le_of_not_gt order)] at shifted
    by_cases more : max - min > 0
    · rw [if_pos more]
      have built := builds_attachTo exactly
        (builds_repeatOptionally invariants (max - min - 1))
      rwa [Nat.sub_add_cancel more, repetitions_one_add_one, shifted] at built
    · rw [if_neg more]
      rw [Nat.le_zero.mp (Nat.le_of_not_gt more), repetitions_zero_zero,
        mul_one] at shifted
      rwa [← shifted]

/--
The bounded repetition, a chain of clones, agrees with the union of the
concatenations of equally many copies.
-/
theorem repeatMinMax_agrees {a : Automaton} (invariants : ClassInvariants a)
    (min max : Nat) :
    ClassInvariants (repeatMinMax a min max) ∧
      (repeatMinMax a min max).lang =
        (unionAll ((List.range' min (max + 1 - min)).map fun n =>
          concatenateAll (List.replicate n a))).lang := by
  have copies : ∀ n, Builds (concatenateAll (List.replicate n a))
      (language a ^ n) := by
    intro n
    have all : ∀ b ∈ List.replicate n a, ClassInvariants b :=
      fun b member => (List.mem_replicate.mp member).2 ▸ invariants
    have built := builds_concatenateAll all
    rwa [List.map_replicate, List.prod_replicate] at built
  have built := builds_repeatMinMax invariants min max
  have plain := builds_unionAll (List.forall_mem_map.mpr fun n
    (_ : n ∈ List.range' min (max + 1 - min)) => (copies n).1)
  refine ⟨built.1, built.2.trans (Eq.trans ?_ plain.2.symm)⟩
  rw [repetitions_eq_sum, List.map_map]
  exact congrArg List.sum (List.map_congr_left fun n _ => (copies n).2.symm)

/--
One or two letters `a`: the chain of two clones, and the union of two lists.
-/
theorem repeatMinMax_agrees_makeString :
    (repeatMinMax (Automaton.makeString [97]) 1 2).lang =
      (unionAll ([1, 2].map fun n =>
        concatenateAll (List.replicate n (Automaton.makeString [97])))).lang :=
  (repeatMinMax_agrees (makeString_invariants [97]) 1 2).2

end SafetyGames.Automata
