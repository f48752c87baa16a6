import SafetyGames.Automata.ToAutomaton

/-!
# Everything built by the library

A program builds its automata by calls of the library in any order, on the
automata it has so far.  Every automaton that can be built so is tidy and
accepts the language its history denotes; hence on all of them `minimize` and
`equals` return, and inclusion and equality are decided exactly.
-/

namespace SafetyGames.Automata.Representation

open SafetyGames.Transducer SafetyGames.LabelledPath SafetyGames.Teacher
open SafetyGames.Regular
open Computability

section Trimming

variable (order : StateOrder)

/-- `reduce()`. -/
def reduce : Representation → Representation
  | .singleton s => .singleton s
  | .explicit a => .explicit (Automata.reduce order a)

/-- `removeDeadTransitions()`. -/
def removeDeadTransitions : Representation → Representation
  | .singleton s => .singleton s
  | .explicit a => .explicit (Automata.removeDeadTransitions order a)

end Trimming

variable {r r1 r2 : Representation} {L L1 L2 : Language JChar}
  {order : StateOrder}

theorem Represents.reduce (represents : Represents r L) :
    Denotes (reduce order r) L := by
  cases r with
  | singleton s => exact ⟨tidy_makeString s, represents.lang_eq⟩
  | explicit a =>
      have kept : SameSteps a (Automata.reduce order a) := reduce_sameSteps
      have live : Live (Automata.reduce order a) := by
        intro ref reachable t inState
        have taken : a.states.Step ref t.min t.dest :=
          (kept.steps ref t.min t.dest).mp ⟨t, inState, t.reads_min, rfl⟩
        rcases taken with ⟨u, before, _, same⟩
        rcases represents.invariants.live ref
          (kept.reachable_iff.mp reachable) u before with ⟨word, accepts⟩
        rw [same] at accepts
        exact ⟨word, (kept.agree.accepts_iff trivial word).mpr accepts⟩
      refine ⟨⟨⟨fun flag => kept.deterministicFrom (represents.invariants.honest flag), live⟩,
        fun _ _ reachable => reduce_reduced reachable⟩, ?_⟩
      exact kept.lang_eq.trans represents.lang_eq

theorem Denotes.removeDeadTransitions (denotes : Denotes r L) :
    Denotes (removeDeadTransitions order r) L := by
  cases r with
  | singleton s => exact denotes
  | explicit a =>
      have trimmed : Trimmed a (Automata.removeDeadTransitions order a) :=
        trimmed_removeDeadTransitions
      exact ⟨⟨trimmed.invariants denotes.honest, fun _ => trimmed.reduced⟩,
        trimmed.lang_eq.trans denotes.lang_eq⟩

/-! ## Histories -/

/-- The automata that calls of the library build, and the languages of their
histories; every call may iterate the states in an order of its own. -/
inductive Constructed (identical : Representation → Representation → Bool) :
    Representation → Language JChar → Prop where
  | makeEmpty : Constructed identical makeEmpty 0
  | makeString (s : Word) : Constructed identical (.singleton s) {s}
  | makeCharRange (min max : JChar) : Constructed identical
      (makeCharRange min max) {word | ∃ c, min ≤ c ∧ c ≤ max ∧ word = [c]}
  | makeAnyString : Constructed identical (.explicit makeAnyString) ⊤
  | makeInterval {min max digits : Nat} {a : Automaton}
      (returned : makeInterval min max digits = some a) :
      Constructed identical (.explicit a) (numbers min max digits)
  | concatenate {r1 r2 : Representation} {L1 L2 : Language JChar}
      (first : Constructed identical r1 L1)
      (second : Constructed identical r2 L2) :
      Constructed identical (concatenate r1 r2) (L1 * L2)
  | concatenateAll {l : List (Representation × Language JChar)}
      (all : ∀ p ∈ l, Constructed identical p.1 p.2) :
      Constructed identical (concatenateAll (l.map Prod.fst))
        (l.map Prod.snd).prod
  | union {r1 r2 : Representation} {L1 L2 : Language JChar}
      (first : Constructed identical r1 L1)
      (second : Constructed identical r2 L2) :
      Constructed identical (union identical r1 r2) (L1 + L2)
  | unionAll {l : List (Representation × Language JChar)}
      (all : ∀ p ∈ l, Constructed identical p.1 p.2) :
      Constructed identical (unionAll (l.map Prod.fst)) (l.map Prod.snd).sum
  | optional {r : Representation} {L : Language JChar}
      (known : Constructed identical r L) :
      Constructed identical (optional r) (L + 1)
  | repetition {r : Representation} {L : Language JChar}
      (known : Constructed identical r L) :
      Constructed identical (repetition r) L∗
  | repeatMin {r : Representation} {L : Language JChar}
      (known : Constructed identical r L) (min : Nat) :
      Constructed identical (repeatMin r min) (L ^ min * L∗)
  | repeatMinMax {r : Representation} {L : Language JChar}
      (known : Constructed identical r L) (min max : Nat) :
      Constructed identical (repeatMinMax r min max) (repetitions L min max)
  | complement {r : Representation} {L : Language JChar} (order : StateOrder)
      (known : Constructed identical r L) :
      Constructed identical (complement order r) Lᶜ
  | intersection {r1 r2 : Representation} {L1 L2 : Language JChar}
      (order : StateOrder) (first : Constructed identical r1 L1)
      (second : Constructed identical r2 L2) :
      Constructed identical (intersection order identical r1 r2) (L1 ⊓ L2)
  | minus {r1 r2 : Representation} {L1 L2 : Language JChar}
      (order : StateOrder) (first : Constructed identical r1 L1)
      (second : Constructed identical r2 L2) :
      Constructed identical (minus order identical r1 r2) (L1 \ L2)
  | determinize {r : Representation} {L : Language JChar} (order : StateOrder)
      (known : Constructed identical r L) :
      Constructed identical (determinize order r) L
  | minimize {r m : Representation} {L : Language JChar} (order : StateOrder)
      (known : Constructed identical r L) (returned : minimize order r = some m) :
      Constructed identical m L
  | reduce {r : Representation} {L : Language JChar} (order : StateOrder)
      (known : Constructed identical r L) :
      Constructed identical (reduce order r) L
  | removeDeadTransitions {r : Representation} {L : Language JChar}
      (order : StateOrder) (known : Constructed identical r L) :
      Constructed identical (removeDeadTransitions order r) L

variable {identical : Representation → Representation → Bool}

theorem tidy_of_all {l : List (Representation × Language JChar)}
    (all : ∀ p ∈ l, Denotes p.1 p.2) :
    ∀ r ∈ l.map Prod.fst, Tidy r.expand :=
  List.forall_mem_map.mpr fun p member => (all p member).tidy

theorem languages_of_all {l : List (Representation × Language JChar)}
    (all : ∀ p ∈ l, Denotes p.1 p.2) :
    (l.map Prod.fst).map (fun r => language r.expand) = l.map Prod.snd := by
  rw [List.map_map]
  exact List.map_congr_left fun p member => (all p member).lang_eq

/-- What is built denotes the language of its history. -/
theorem Constructed.denotes
    (same : ∀ r1 r2, identical r1 r2 = true → r1 = r2)
    (constructed : Constructed identical r L) : Denotes r L := by
  induction constructed with
  | makeEmpty => exact denotes_makeEmpty
  | makeString s => exact denotes_singleton s
  | makeCharRange min max => exact denotes_makeCharRange min max
  | makeAnyString => exact denotes_makeAnyString
  | makeInterval returned =>
      rcases tidy_makeInterval returned with ⟨tidy, isNumbers⟩
      exact ⟨tidy, isNumbers⟩
  | concatenate _ _ first second => exact first.concatenate second
  | concatenateAll _ all =>
      have joined := denotes_concatenateAll (tidy_of_all all)
      rwa [languages_of_all all] at joined
  | union _ _ first second => exact first.union same second
  | unionAll _ all =>
      have joined := denotes_unionAll fun r member =>
        (tidy_of_all all r member).invariants
      rwa [languages_of_all all] at joined
  | «optional» _ denotes => exact denotes.optional
  | repetition _ denotes => exact denotes.repetition
  | repeatMin _ min denotes => exact denotes.repeatMin min
  | repeatMinMax _ min max denotes => exact denotes.repeatMinMax min max
  | complement order _ denotes => exact denotes.recognizes.complement
  | intersection order _ _ first second => exact first.intersection same second
  | minus order _ _ first second => exact first.minus same second
  | determinize order _ denotes => exact denotes.determinize
  | minimize order _ returned denotes =>
      exact (denotes.represents.minimized returned).2
  | reduce order _ denotes => exact denotes.represents.reduce
  | removeDeadTransitions order _ denotes => exact denotes.removeDeadTransitions

/--
Whatever sequence of calls built two automata: `minimize` and `equals` return on
them, and the tests, the inclusion and the equality decide what they are called
for.
-/
theorem constructed_exact
    (same : ∀ r1 r2, identical r1 r2 = true → r1 = r2)
    (first : Constructed identical r1 L1) (second : Constructed identical r2 L2) :
    (∃ m, minimize order r1 = some m ∧ Minimal m.expand ∧
        language m.expand = L1) ∧
      (r1.isEmpty = true ↔ L1 = 0) ∧ (r1.isEmptyString = true ↔ L1 = 1) ∧
      (∀ s, r1.run s = true ↔ s ∈ L1) ∧
      (subsetOf order identical r1 r2 = true ↔ ∀ word ∈ L1, word ∈ L2) ∧
      ∃ answer, equals order identical r1 r2 = some answer ∧
        (answer = true ↔ L1 = L2) := by
  have denotes1 := first.denotes same
  have denotes2 := second.denotes same
  rcases @Denotes.minimize_returns order _ _ denotes1 with
    ⟨m, returned, minimal, denotes⟩
  exact ⟨⟨m, returned, minimal, denotes.lang_eq⟩,
    denotes1.represents.isEmpty_iff, denotes1.isEmptyString_iff,
    fun _ => denotes1.recognizes.run_iff, denotes1.subsetOf_iff same denotes2,
    denotes1.equals_iff same denotes2⟩

/--
Any number of letters `a` is the same with the empty word added, and without the
word `a` it is something else.
-/
theorem constructed_exact_star :
    equals .found (fun _ _ => false) (optional (repetition (.singleton [97])))
        (repetition (.singleton [97])) = some true ∧
      equals .found (fun _ _ => false)
        (minus .found (fun _ _ => false) (repetition (.singleton [97]))
          (.singleton [97]))
        (repetition (.singleton [97])) = some false := by
  have star : Constructed (fun _ _ => false) (repetition (.singleton [97]))
      ({[97]}∗) := .repetition (.makeString [97])
  constructor
  · rcases (@constructed_exact _ _ _ _ .found _ (by simp) (.optional star)
      star).2.2.2.2.2 with ⟨answer, returned, isSame⟩
    have same : ({[97]} : Language JChar)∗ + 1 = {[97]}∗ :=
      sup_eq_left.mpr one_le_kstar
    rw [returned, isSame.mpr same]
  · rcases (@constructed_exact _ _ _ _ .found _ (by simp)
      (.minus .found star (.makeString [97])) star).2.2.2.2.2 with
      ⟨answer, returned, isSame⟩
    rw [returned]
    refine congrArg some (Bool.eq_false_iff.mpr fun yes => ?_)
    have member : [97] ∈ ({[97]} : Language JChar)∗ :=
      le_kstar (a := ({[97]} : Language JChar)) rfl
    rw [← isSame.mp yes] at member
    exact member.2 rfl

end SafetyGames.Automata.Representation
