import SafetyGames.Lib.Regular
import SafetyGames.Transducer.RegExpParsing
import SafetyGames.Teacher.Reference

/-!
# Automata of regular expressions

The standard meaning of regular expressions, and `toAutomaton()`, which builds
an automaton from those of the parts by operations of the library.  The
operations are a parameter of the model; under their laws the automaton
accepts the language of the expression.
-/

namespace SafetyGames.Teacher

open SafetyGames.Transducer SafetyGames.LabelledPath SafetyGames.Regular
open Computability

/-- The language of an automaton among the languages of Mathlib. -/
def language (a : Automaton) : Language JChar :=
  a.lang

/-! ## The meaning of regular expressions -/

/-- The strings `makeInterval(min, max, digits)` documents: decimal numbers in
the interval, of a fixed length if `digits > 0`. -/
def numbers (min max digits : Nat) : Language JChar :=
  {word | word ≠ [] ∧ (∀ c ∈ word, isDigit c = true) ∧
    min ≤ Decimal.value word ∧ Decimal.value word ≤ max ∧
      (0 < digits → word.length = digits)}

/-- The language of a regular expression; no automaton has a name. -/
def meaning : RegExp → Language JChar
  | .union exp1 exp2 => meaning exp1 + meaning exp2
  | .concatenation exp1 exp2 => meaning exp1 * meaning exp2
  | .intersection exp1 exp2 => meaning exp1 ⊓ meaning exp2
  | .optional exp1 => meaning exp1 + 1
  | .repetition exp1 => (meaning exp1)∗
  | .repeatMin exp1 min => meaning exp1 ^ min * (meaning exp1)∗
  | .repeatMinMax exp1 min max => repetitions (meaning exp1) min max
  | .complement exp1 => (meaning exp1)ᶜ
  | .char c => {[c]}
  | .charRange low high => {word | ∃ c, low ≤ c ∧ c ≤ high ∧ word = [c]}
  | .anyChar => {word | ∃ c, word = [c]}
  | .empty => 0
  | .string s => {s}
  | .anyString => ⊤
  | .automaton _ => 0
  | .interval min max digits => numbers min max digits

/-! ## Automata of single characters -/

/-- Two states with the transitions from the first to the second. -/
def oneStep (transitions : List Transition)
    (leads : ∀ transition ∈ transitions, transition.dest = 1) : Automaton where
  states := [⟨false, transitions⟩, ⟨true, []⟩]
  initial := 0
  deterministic := true
  initial_lt := Nat.two_pos
  closed := by
    intro state member transition inState
    rcases List.mem_pair.mp member with rfl | rfl
    · rw [leads transition inState]
      exact Nat.one_lt_two
    · exact absurd inState List.not_mem_nil

/-- `BasicAutomata.makeCharRange(min, max)`. -/
def makeCharRange (min max : JChar) : Automaton :=
  if min = max then
    Automaton.makeString [min]
  else if order : min ≤ max then
    oneStep [⟨min, max, 1, order⟩] (by simp)
  else
    oneStep [] (by simp)

/-- `BasicAutomata.makeAnyChar()`. -/
def makeAnyChar : Automaton :=
  makeCharRange 0 65535

/-- `BasicAutomata.makeAnyString()`. -/
def makeAnyString : Automaton where
  states := [⟨true, [⟨0, 65535, 0, by decide⟩]⟩]
  initial := 0
  deterministic := true
  initial_lt := by decide
  closed := by decide

section OneStep

variable {transitions : List Transition}
  {leads : ∀ transition ∈ transitions, transition.dest = 1}

theorem oneStep_state (ref : Nat) :
    ref = 0 ∨ ((oneStep transitions leads).state ref).transitions = [] :=
  match ref with
  | 0 => Or.inl rfl
  | 1 => Or.inr rfl
  | _ + 2 => Or.inr rfl

theorem oneStep_step_iff {source target : Nat} {c : JChar} :
    (oneStep transitions leads).states.Step source c target ↔
      source = 0 ∧ target = 1 ∧ ∃ transition ∈ transitions, transition.Reads c := by
  constructor
  · rintro ⟨transition, member, reads, rfl⟩
    rcases @oneStep_state _ leads source with rfl | none
    · change transition ∈ transitions at member
      exact ⟨rfl, leads transition member, transition, member, reads⟩
    · exact absurd (none ▸ member) List.not_mem_nil
  · rintro ⟨rfl, rfl, transition, member, reads⟩
    exact ⟨transition, member, reads, leads transition member⟩

theorem mem_oneStep_lang {word : Word} :
    word ∈ (oneStep transitions leads).lang ↔
      ∃ c, (∃ transition ∈ transitions, transition.Reads c) ∧ word = [c] := by
  rw [Automaton.mem_lang]
  cases word with
  | nil =>
      constructor
      · intro accepts
        exact absurd (Heap.accepts_nil.mp accepts) Bool.false_ne_true
      · rintro ⟨_, _, same⟩
        exact absurd same.symm (List.cons_ne_nil _ _)
  | cons c word =>
      rw [Heap.accepts_cons]
      constructor
      · rintro ⟨middle, step, accepts⟩
        rcases oneStep_step_iff.mp step with ⟨_, rfl, reads⟩
        cases word with
        | nil => exact ⟨c, reads, rfl⟩
        | cons d word =>
            rcases Heap.accepts_cons.mp accepts with ⟨_, step, _⟩
            exact absurd (oneStep_step_iff.mp step).1 Nat.one_ne_zero
      · rintro ⟨d, reads, same⟩
        cases same
        exact ⟨1, oneStep_step_iff.mpr ⟨rfl, rfl, reads⟩,
          Heap.accepts_nil.mpr rfl⟩

theorem oneStep_invariants : ClassInvariants (oneStep transitions leads) := by
  constructor
  · intro _ word source _ c left right first second
    exact (oneStep_step_iff.mp first).2.1.trans (oneStep_step_iff.mp second).2.1.symm
  · intro ref _ transition inState
    have step : (oneStep transitions leads).states.Step ref transition.min
        transition.dest := ⟨transition, inState, transition.reads_min, rfl⟩
    rw [(oneStep_step_iff.mp step).2.1]
    exact ⟨[], Heap.accepts_nil.mpr rfl⟩

end OneStep

/-- The automaton satisfies the class invariants and accepts the language. -/
def Builds (a : Automaton) (L : Language JChar) : Prop :=
  ClassInvariants a ∧ language a = L

theorem builds_makeString (word : Word) :
    Builds (Automaton.makeString word) {word} :=
  ⟨makeString_invariants word, Automaton.lang_makeString word⟩

theorem builds_makeEmpty : Builds Automaton.makeEmpty 0 :=
  ⟨makeEmpty_invariants, Automaton.lang_makeEmpty⟩

theorem builds_makeCharRange (min max : JChar) :
    Builds (makeCharRange min max)
      {word | ∃ c, min ≤ c ∧ c ≤ max ∧ word = [c]} := by
  rw [makeCharRange]
  split_ifs with same order
  · refine ⟨makeString_invariants [min], ?_⟩
    ext word
    constructor
    · intro member
      rw [language, Automaton.lang_makeString] at member
      exact ⟨min, UInt16.le_refl min, same ▸ UInt16.le_refl min, member⟩
    · rintro ⟨c, lower, upper, rfl⟩
      rw [← same] at upper
      rw [UInt16.le_antisymm upper lower, language, Automaton.lang_makeString]
      rfl
  · refine ⟨oneStep_invariants, ?_⟩
    ext word
    refine mem_oneStep_lang.trans (exists_congr fun c => ?_)
    simp [Transition.Reads, and_assoc]
  · refine ⟨oneStep_invariants, ?_⟩
    ext word
    refine mem_oneStep_lang.trans (exists_congr fun c => ?_)
    simp only [List.not_mem_nil, false_and, exists_false, false_iff, not_and]
    intro lower upper
    exact absurd (UInt16.le_trans lower upper) order

theorem le_top_char (c : JChar) : c ≤ 65535 := by
  rw [UInt16.le_iff_toNat_le]
  exact Nat.le_of_lt_succ c.toNat_lt

theorem builds_makeAnyChar : Builds makeAnyChar {word | ∃ c, word = [c]} := by
  refine ⟨(builds_makeCharRange 0 65535).1,
    (builds_makeCharRange 0 65535).2.trans ?_⟩
  ext word
  constructor
  · rintro ⟨c, _, _, same⟩
    exact ⟨c, same⟩
  · rintro ⟨c, same⟩
    exact ⟨c, UInt16.zero_le, le_top_char c, same⟩

theorem makeAnyString_accepts (word : Word) :
    makeAnyString.states.Accepts 0 word := by
  induction word with
  | nil => exact Heap.accepts_nil.mpr rfl
  | cons c word accepts =>
      exact Heap.accepts_cons.mpr ⟨0, ⟨_, List.mem_singleton_self _,
        ⟨UInt16.zero_le, le_top_char c⟩, rfl⟩, accepts⟩

theorem makeAnyString_dest {ref : Nat} {transition : Transition}
    (member : transition ∈ (makeAnyString.state ref).transitions) :
    transition.dest = 0 := by
  match ref with
  | 0 => rw [List.mem_singleton.mp member]
  | ref + 1 => exact absurd member List.not_mem_nil

theorem builds_makeAnyString : Builds makeAnyString ⊤ := by
  refine ⟨⟨?_, ?_⟩, ?_⟩
  · rintro _ word source _ c _ _ ⟨first, inFirst, _, rfl⟩ ⟨second, inSecond, _, rfl⟩
    rw [makeAnyString_dest inFirst, makeAnyString_dest inSecond]
  · intro ref _ transition member
    rw [makeAnyString_dest member]
    exact ⟨[], makeAnyString_accepts []⟩
  · ext word
    exact iff_of_true (makeAnyString_accepts word) trivial

/-! ## The operations -/

/-- The operations of the library that `toAutomaton()` and the constructor of
`SafetyProblem` call; `minimize` and `makeInterval` may throw. -/
structure Operations where
  union : List Automaton → Automaton
  concatenate : List Automaton → Automaton
  intersection : Automaton → Automaton → Automaton
  optional : Automaton → Automaton
  /-- `a.repeat()`. -/
  repetition : Automaton → Automaton
  /-- `a.repeat(min)`. -/
  repeatMin : Automaton → Nat → Automaton
  /-- `a.repeat(min, max)`. -/
  repeatMinMax : Automaton → Nat → Nat → Automaton
  complement : Automaton → Automaton
  minimize : Automaton → Option Automaton
  reduce : Automaton → Automaton
  makeInterval : Nat → Nat → Nat → Option Automaton

/-- The automaton is a good one and accepts the language. -/
def Gives (good : Automaton → Prop) (a : Automaton) (L : Language JChar) : Prop :=
  good a ∧ language a = L

/-- On good automata the operations do to the languages what their names say,
and what they return is good again; on these `minimize` returns, and makes
deterministic.  Good automata satisfy the class invariants, and the automata
that `toAutomaton()` starts from are good. -/
structure Operations.CorrectOn (ops : Operations) (good : Automaton → Prop) :
    Prop where
  invariants : ∀ a, good a → ClassInvariants a
  makeString : ∀ word, good (Automaton.makeString word)
  makeCharRange : ∀ min max, good (makeCharRange min max)
  makeEmpty : good Automaton.makeEmpty
  makeAnyString : good makeAnyString
  union : ∀ l, (∀ a ∈ l, good a) →
    Gives good (ops.union l) (l.map language).sum
  concatenate : ∀ l, (∀ a ∈ l, good a) →
    Gives good (ops.concatenate l) (l.map language).prod
  intersection : ∀ a b, good a → good b →
    Gives good (ops.intersection a b) (language a ⊓ language b)
  optional : ∀ a, good a → Gives good (ops.optional a) (language a + 1)
  repetition : ∀ a, good a → Gives good (ops.repetition a) (language a)∗
  repeatMin : ∀ a min, good a →
    Gives good (ops.repeatMin a min) (language a ^ min * (language a)∗)
  repeatMinMax : ∀ a min max, good a →
    Gives good (ops.repeatMinMax a min max) (repetitions (language a) min max)
  complement : ∀ a, good a → Gives good (ops.complement a) (language a)ᶜ
  minimize : ∀ a, good a → ∃ b, ops.minimize a = some b ∧
    Gives good b (language a) ∧ b.deterministic = true
  reduce : ∀ a, ClassInvariants a → Gives good (ops.reduce a) (language a)
  makeInterval : ∀ min max digits a,
    ops.makeInterval min max digits = some a →
      Gives good a (numbers min max digits)

/-- The operations are correct on automata of some kind. -/
def Operations.Correct (ops : Operations) : Prop :=
  ∃ good, ops.CorrectOn good

section CorrectOn

variable {ops : Operations} {good : Automaton → Prop} {a b : Automaton}
  {L M : Language JChar}

/-- What `minimize` returns on a good automaton. -/
theorem Operations.CorrectOn.of_minimize (correct : ops.CorrectOn good)
    (gives : Gives good a L) (same : L = M) (returned : ops.minimize a = some b) :
    Gives good b M ∧ b.deterministic = true := by
  rcases gives with ⟨isGood, rfl⟩
  rcases correct.minimize a isGood with ⟨c, found, minimized⟩
  cases found.symm.trans returned
  exact same ▸ minimized

theorem Operations.CorrectOn.minimize_returns (correct : ops.CorrectOn good)
    (gives : Gives good a L) : ∃ b, ops.minimize a = some b := by
  rcases correct.minimize a gives.1 with ⟨b, returned, _⟩
  exact ⟨b, returned⟩

theorem Gives.builds (correct : ops.CorrectOn good) (gives : Gives good a L) :
    Builds a L :=
  ⟨correct.invariants a gives.1, gives.2⟩

end CorrectOn

/-! ## toAutomaton() -/

/-- The kinds whose nested expressions become one list of automata. -/
inductive Joined where
  | union
  | concatenation

section ToAutomaton

variable (ops : Operations)

mutual

/-- `toAutomaton()`; the identifiers of automata are unknown. -/
def toAutomaton : RegExp → Option Automaton
  | .union exp1 exp2 => do
      let list1 ← findLeaves .union exp1
      let list2 ← findLeaves .union exp2
      ops.minimize (ops.union (list1 ++ list2))
  | .concatenation exp1 exp2 => do
      let list1 ← findLeaves .concatenation exp1
      let list2 ← findLeaves .concatenation exp2
      ops.minimize (ops.concatenate (list1 ++ list2))
  | .intersection exp1 exp2 => do
      let a ← toAutomaton exp1
      let b ← toAutomaton exp2
      ops.minimize (ops.intersection a b)
  | .optional exp1 => do
      let a ← toAutomaton exp1
      ops.minimize (ops.optional a)
  | .repetition exp1 => do
      let a ← toAutomaton exp1
      ops.minimize (ops.repetition a)
  | .repeatMin exp1 min => do
      let a ← toAutomaton exp1
      ops.minimize (ops.repeatMin a min)
  | .repeatMinMax exp1 min max => do
      let a ← toAutomaton exp1
      ops.minimize (ops.repeatMinMax a min max)
  | .complement exp1 => do
      let a ← toAutomaton exp1
      ops.minimize (ops.complement a)
  | .char c => some (Automaton.makeString [c])
  | .charRange low high => some (makeCharRange low high)
  | .anyChar => some makeAnyChar
  | .empty => some Automaton.makeEmpty
  | .string s => some (Automaton.makeString s)
  | .anyString => some makeAnyString
  | .automaton _ => none
  | .interval min max digits => ops.makeInterval min max digits
termination_by e => (sizeOf e, 0)

/-- `findLeaves(exp, kind, list)`: the automata of the operands. -/
def findLeaves : Joined → RegExp → Option (List Automaton)
  | .union, .union exp1 exp2 => do
      let list1 ← findLeaves .union exp1
      let list2 ← findLeaves .union exp2
      return list1 ++ list2
  | .concatenation, .concatenation exp1 exp2 => do
      let list1 ← findLeaves .concatenation exp1
      let list2 ← findLeaves .concatenation exp2
      return list1 ++ list2
  | _, e => do
      let a ← toAutomaton e
      return [a]
termination_by _ e => (sizeOf e, 1)

end

/-- `new RegExp(s).toAutomaton()`; the parser may throw, too. -/
def automatonOf (s : Word) : Option Automaton :=
  match RegExp.parse s with
  | .ok e => toAutomaton ops e
  | .error _ => none

end ToAutomaton

end SafetyGames.Teacher
