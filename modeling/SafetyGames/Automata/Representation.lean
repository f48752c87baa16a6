import SafetyGames.Automata.Membership
import SafetyGames.Automata.ShortestExample
import SafetyGames.Automata.Tidy

/-!
# The two representations of an automaton

An `Automaton` of the library is a string in `singleton` or a graph of states,
and most operations treat strings apart.  Here the operations with all their
branches: whatever the representations are, the results denote what the
operations are called.  Whether two references are those of one object is the
parameter `identical`.
-/

namespace SafetyGames.Automata

open SafetyGames.Transducer SafetyGames.LabelledPath SafetyGames.Teacher
open SafetyGames.Regular SafetyGames.Shortlex
open Computability

/-- An `Automaton`: the string in `singleton`, or states and transitions. -/
inductive Representation where
  | singleton (s : Word)
  | explicit (a : Automaton)

namespace Representation

/-- The automaton behind `expandSingleton()`. -/
def expand : Representation → Automaton
  | .singleton s => Automaton.makeString s
  | .explicit a => a

/-- `isSingleton()`. -/
def isSingleton : Representation → Bool
  | .singleton _ => true
  | .explicit _ => false

/-- `isDeterministic()`. -/
def isDeterministic (r : Representation) : Bool :=
  r.expand.deterministic

/-- An automaton of a language with an honest flag, in either representation. -/
structure Recognizes (r : Representation) (L : Language JChar) : Prop where
  honest : r.expand.HonestFlag
  lang_eq : language r.expand = L

/-- An automaton of a language, in either representation. -/
structure Represents (r : Representation) (L : Language JChar) : Prop where
  invariants : ClassInvariants r.expand
  lang_eq : language r.expand = L

/-- A tidy automaton of a language, in either representation. -/
structure Denotes (r : Representation) (L : Language JChar) : Prop where
  tidy : Tidy r.expand
  lang_eq : language r.expand = L

theorem mem_language_makeString {s word : Word} :
    word ∈ language (Automaton.makeString s) ↔ word = s :=
  Set.ext_iff.mp (Automaton.lang_makeString s) word

theorem Denotes.represents {r : Representation} {L : Language JChar}
    (denotes : Denotes r L) : Represents r L :=
  ⟨denotes.tidy.invariants, denotes.lang_eq⟩

theorem Represents.recognizes {r : Representation} {L : Language JChar}
    (represents : Represents r L) : Recognizes r L :=
  ⟨represents.invariants.honest, represents.lang_eq⟩

theorem Denotes.recognizes {r : Representation} {L : Language JChar}
    (denotes : Denotes r L) : Recognizes r L :=
  denotes.represents.recognizes

theorem denotes_singleton (s : Word) : Denotes (.singleton s) {s} :=
  ⟨tidy_makeString s, Automaton.lang_makeString s⟩

/-- `BasicAutomata.makeEmpty()`. -/
def makeEmpty : Representation :=
  .explicit Automaton.makeEmpty

theorem denotes_makeEmpty : Denotes makeEmpty 0 :=
  ⟨tidy_makeEmpty, Automaton.lang_makeEmpty⟩

theorem Denotes.of_builds {a : Automaton} {L : Language JChar}
    (builds : Builds a L) (flag : a.deterministic = false) :
    Denotes (.explicit a) L :=
  ⟨.of_unflagged builds.1 flag, builds.2⟩

variable {r r1 r2 : Representation} {L L1 L2 : Language JChar}

theorem Represents.of_builds {a : Automaton} (builds : Builds a L) :
    Represents (.explicit a) L :=
  ⟨builds.1, builds.2⟩

theorem Denotes.honest (denotes : Denotes r L) : r.expand.HonestFlag :=
  denotes.tidy.invariants.honest

/-! ## Tests -/

/-- `isEmpty(a)`. -/
def isEmpty : Representation → Bool
  | .singleton _ => false
  | .explicit a => Teacher.isEmpty a

/-- `isEmptyString(a)`. -/
def isEmptyString : Representation → Bool
  | .singleton s => s.length = 0
  | .explicit a => Automata.isEmptyString a

/-- `run(a, s)`. -/
def run : Representation → Word → Bool
  | .singleton t, s => s = t
  | .explicit a, s => Automata.run a s

theorem Represents.isEmpty_iff (represents : Represents r L) :
    r.isEmpty = true ↔ L = 0 := by
  rw [← represents.lang_eq]
  cases r with
  | singleton s =>
      refine iff_of_false Bool.false_ne_true fun empty => ?_
      exact Language.notMem_zero s (empty ▸ mem_language_makeString.mpr rfl)
  | explicit a => exact represents.invariants.isEmpty_iff

theorem Denotes.isEmptyString_iff (denotes : Denotes r L) :
    r.isEmptyString = true ↔ L = 1 := by
  rw [← denotes.lang_eq]
  cases r with
  | singleton s =>
      rw [show language (expand (.singleton s)) = {s} from
        Automaton.lang_makeString s, isEmptyString, decide_eq_true_eq,
        List.length_eq_zero_iff]
      exact (Set.singleton_eq_singleton_iff).symm
  | explicit a =>
      refine ⟨lang_of_isEmptyString, fun one => ?_⟩
      have accepts : [] ∈ language a := one ▸ Language.nil_mem_one
      refine Bool.and_eq_true_iff.mpr ⟨Heap.accepts_nil.mp accepts, ?_⟩
      refine List.isEmpty_iff.mpr (List.eq_nil_iff_forall_not_mem.mpr ?_)
      intro t inState
      rcases denotes.tidy.invariants.live a.initial
        Automaton.Reachable.initial t inState with ⟨word, further⟩
      have member : t.min :: word ∈ language (expand (.explicit a)) :=
        Heap.accepts_cons.mpr
          ⟨t.dest, ⟨t, inState, t.reads_min, rfl⟩, further⟩
      rw [one] at member
      exact List.cons_ne_nil _ _ member

theorem run_iff (honest : r.expand.HonestFlag) {s : Word} :
    r.run s = true ↔ s ∈ language r.expand := by
  cases r with
  | singleton t =>
      rw [run, decide_eq_true_eq]
      exact mem_language_makeString.symm
  | explicit a => exact run_iff_mem_lang honest

theorem Recognizes.run_iff (recognizes : Recognizes r L) {s : Word} :
    r.run s = true ↔ s ∈ L := by
  rw [Representation.run_iff recognizes.honest, recognizes.lang_eq]

/-- An automaton that is found empty accepts nothing. -/
theorem Recognizes.of_isEmpty (recognizes : Recognizes r L)
    (empty : r.isEmpty = true) : L = 0 := by
  rw [← recognizes.lang_eq]
  cases r with
  | singleton s => exact absurd empty Bool.false_ne_true
  | explicit a => exact lang_of_isEmpty empty

/-! ## Concatenation, union and repetition -/

/-- `concatenate(a1, a2)`. -/
def concatenate : Representation → Representation → Representation
  | .singleton s1, .singleton s2 => .singleton (s1 ++ s2)
  | a1, a2 => .explicit (Automata.concatenate
      (a1.isSingleton && a2.isDeterministic) a1.expand a2.expand)

/-- The string of a list of singletons. -/
def allSingleton : List Representation → Option Word
  | [] => some []
  | .singleton s :: l => (allSingleton l).map (s ++ ·)
  | .explicit _ :: _ => none

/-- `concatenate(l)`. -/
def concatenateAll (l : List Representation) : Representation :=
  match allSingleton l with
  | some s => .singleton s
  | none => .explicit (Automata.concatenateAll (l.map expand))

/-- `optional(a)`. -/
def optional (a : Representation) : Representation :=
  .explicit (Automata.optional a.expand)

/-- `repeat(a)`. -/
def repetition (a : Representation) : Representation :=
  .explicit (Automata.repetition a.expand)

/-- `repeat(a, min)`. -/
def repeatMin (a : Representation) (min : Nat) : Representation :=
  .explicit (Automata.repeatMin a.expand min)

/-- `repeat(a, min, max)`; for no repetition the result is a singleton. -/
def repeatMinMax (a : Representation) (min max : Nat) : Representation :=
  if min = 0 ∧ max = 0 then .singleton []
  else .explicit (Automata.repeatMinMax a.expand min max)

theorem Denotes.concatenate (first : Denotes r1 L1) (second : Denotes r2 L2) :
    Denotes (concatenate r1 r2) (L1 * L2) := by
  have general : Denotes (.explicit (Automata.concatenate
      (r1.isSingleton && r2.isDeterministic) r1.expand r2.expand))
      (L1 * L2) := by
    have flag : (r1.isSingleton && r2.isDeterministic) = true →
        (∃ word, r1.expand = Automaton.makeString word) ∧
          r2.expand.deterministic = true := by
      intro both
      rcases Bool.and_eq_true_iff.mp both with ⟨single, deterministic⟩
      cases r1 with
      | singleton s => exact ⟨⟨s, rfl⟩, deterministic⟩
      | explicit a => exact absurd single Bool.false_ne_true
    refine ⟨tidy_concatenate first.tidy second.tidy flag, ?_⟩
    rw [← first.lang_eq, ← second.lang_eq]
    exact (builds_concatenate first.tidy.invariants second.tidy.invariants
      flag).2
  match r1, r2 with
  | .singleton s1, .singleton s2 =>
      refine ⟨tidy_makeString (s1 ++ s2), ?_⟩
      rw [← first.lang_eq, ← second.lang_eq]
      ext word
      change word ∈ language (Automaton.makeString (s1 ++ s2)) ↔
        word ∈ language (Automaton.makeString s1) *
          language (Automaton.makeString s2)
      simp only [Language.mem_mul, mem_language_makeString]
      constructor
      · rintro rfl
        exact ⟨s1, rfl, s2, rfl, rfl⟩
      · rintro ⟨_, rfl, _, rfl, rfl⟩
        rfl
  | .singleton _, .explicit _ => exact general
  | .explicit _, .singleton _ => exact general
  | .explicit _, .explicit _ => exact general

theorem lang_of_allSingleton {l : List Representation} {s : Word}
    (single : allSingleton l = some s) :
    (l.map fun r => language r.expand).prod = {s} := by
  induction l generalizing s with
  | nil =>
      cases Option.some.inj single
      rfl
  | cons r l induction =>
      cases r with
      | explicit a => exact absurd single (Option.some_ne_none s).symm
      | singleton t =>
          rcases Option.map_eq_some_iff.mp single with ⟨rest, further, rfl⟩
          have both := ((denotes_singleton t).concatenate
            (denotes_singleton rest)).lang_eq
          rw [List.map_cons, List.prod_cons, induction further,
            (denotes_singleton t).lang_eq, ← both]
          exact Automaton.lang_makeString (t ++ rest)

theorem represents_concatenateAll {l : List Representation}
    (invariants : ∀ r ∈ l, ClassInvariants r.expand) :
    Represents (concatenateAll l) (l.map fun r => language r.expand).prod := by
  rw [concatenateAll]
  cases single : allSingleton l with
  | some s =>
      rw [lang_of_allSingleton single]
      exact (denotes_singleton s).represents
  | none =>
      have built := builds_concatenateAll (List.forall_mem_map.mpr invariants)
      rw [List.map_map] at built
      exact .of_builds built

theorem denotes_concatenateAll {l : List Representation}
    (tidy : ∀ r ∈ l, Tidy r.expand) :
    Denotes (concatenateAll l) (l.map fun r => language r.expand).prod := by
  refine ⟨?_, (represents_concatenateAll fun r member =>
    (tidy r member).invariants).lang_eq⟩
  rw [concatenateAll]
  cases allSingleton l with
  | some s => exact tidy_makeString s
  | none => exact tidy_concatenateAll (List.forall_mem_map.mpr tidy)

theorem Denotes.optional (denotes : Denotes r L) :
    Denotes (optional r) (L + 1) := by
  rw [← denotes.lang_eq]
  exact .of_builds (builds_optional denotes.tidy.invariants) rfl

theorem Denotes.repetition (denotes : Denotes r L) :
    Denotes (repetition r) L∗ := by
  rw [← denotes.lang_eq]
  exact .of_builds (builds_repetition denotes.tidy.invariants) rfl

theorem Denotes.repeatMin (denotes : Denotes r L) (min : Nat) :
    Denotes (repeatMin r min) (L ^ min * L∗) := by
  have built := builds_repeatMin denotes.tidy.invariants min
  rw [denotes.lang_eq] at built
  refine ⟨⟨built.1, ?_⟩, built.2⟩
  rw [Representation.repeatMin, expand, Automata.repeatMin]
  split_ifs
  · exact fun isSet => absurd isSet Bool.false_ne_true
  · refine (tidy_concatenateAll fun a member => ?_).reduced
    rcases List.mem_append.mp member with inFront | isLast
    · rw [(List.mem_replicate.mp inFront).2]
      exact denotes.tidy
    · rw [List.mem_singleton.mp isLast]
      exact .of_unflagged (builds_repetition denotes.tidy.invariants).1 rfl

theorem Tidy.repeatMinMax {a : Automaton} (tidy : Tidy a) (min max : Nat) :
    Tidy (Automata.repeatMinMax a min max) := by
  refine ⟨(builds_repeatMinMax tidy.invariants min max).1, ?_⟩
  rw [Automata.repeatMinMax]
  by_cases order : min > max
  · rw [if_pos order]
    exact tidy_makeEmpty.reduced
  · rw [if_neg order]
    by_cases more : max - min > 0
    · rw [if_pos more]
      exact fun isSet => absurd isSet Bool.false_ne_true
    · rw [if_neg more, repeatExactly]
      split_ifs
      · exact (tidy_makeString []).reduced
      · exact tidy.reduced
      · refine (tidy_concatenateAll fun b member => ?_).reduced
        rw [(List.mem_replicate.mp member).2]
        exact tidy

theorem Represents.repeatMinMax (represents : Represents r L) (min max : Nat) :
    Represents (repeatMinMax r min max) (repetitions L min max) := by
  rw [Representation.repeatMinMax]
  by_cases none : min = 0 ∧ max = 0
  · rw [if_pos none, none.1, none.2, repetitions_zero_zero]
    exact (denotes_singleton []).represents
  · rw [if_neg none, ← represents.lang_eq]
    exact .of_builds (builds_repeatMinMax represents.invariants min max)

theorem Denotes.repeatMinMax (denotes : Denotes r L) (min max : Nat) :
    Denotes (repeatMinMax r min max) (repetitions L min max) := by
  refine ⟨?_, (denotes.represents.repeatMinMax min max).lang_eq⟩
  rw [Representation.repeatMinMax]
  split_ifs
  · exact tidy_makeString []
  · exact Tidy.repeatMinMax denotes.tidy min max

section Identical

variable (order : StateOrder)
  (identical : Representation → Representation → Bool)

/-- `union(a1, a2)`; one string or one object is the union with itself. -/
def union (a1 a2 : Representation) : Representation :=
  match a1, a2 with
  | .singleton s1, .singleton s2 =>
      if s1 = s2 || identical a1 a2 then a1
      else .explicit (Automata.union a1.expand a2.expand)
  | _, _ =>
      if identical a1 a2 then a1
      else .explicit (Automata.union a1.expand a2.expand)

/-- `union(l)`. -/
def unionAll (l : List Representation) : Representation :=
  .explicit (Automata.unionAll (l.map expand))

/-- `complement(a)`. -/
def complement (a : Representation) : Representation :=
  .explicit (Automata.complement order a.expand)

/-- `intersection(a1, a2)`; a singleton is run on the other automaton. -/
def intersection (a1 a2 : Representation) : Representation :=
  match a1, a2 with
  | .singleton s, a2 => if a2.run s then a1 else makeEmpty
  | a1, .singleton s => if a1.run s then a2 else makeEmpty
  | .explicit b1, .explicit b2 =>
      if identical a1 a2 then a1 else .explicit (product order b1 b2)

/-- The end of `minus(a1, a2)`, where neither automaton is empty. -/
def minusProper : Representation → Representation → Representation
  | .singleton s, a2 => if a2.run s then makeEmpty else .singleton s
  | .explicit a1, a2 =>
      intersection order identical (.explicit a1) (complement order a2)

/-- `minus(a1, a2)`. -/
def minus (a1 a2 : Representation) : Representation :=
  if a1.isEmpty || identical a1 a2 then makeEmpty
  else if a2.isEmpty then a1
  else minusProper order identical a1 a2

variable {order identical}
  (same : ∀ a1 a2, identical a1 a2 = true → a1 = a2)

theorem denotes_unionAll {l : List Representation}
    (invariants : ∀ r ∈ l, ClassInvariants r.expand) :
    Denotes (unionAll l) (l.map fun r => language r.expand).sum := by
  have built := builds_unionAll (List.forall_mem_map.mpr invariants)
  rw [List.map_map] at built
  exact .of_builds built rfl

theorem Recognizes.complement (recognizes : Recognizes r L) :
    Denotes (complement order r) Lᶜ := by
  refine ⟨tidy_complement recognizes.honest, ?_⟩
  rw [← recognizes.lang_eq]
  exact (complement_spec recognizes.honest).2.2

include same

/-- A union is an automaton of its own unless the operands are the same. -/
theorem union_cases :
    r1 = r2 ∧ union identical r1 r2 = r1 ∨
      union identical r1 r2 = .explicit (Automata.union r1.expand r2.expand) := by
  cases r1 with
  | singleton s1 =>
      cases r2 with
      | singleton s2 =>
          rw [union]
          split_ifs with known
          · rcases Bool.or_eq_true_iff.mp known with equal | one
            · exact Or.inl ⟨congrArg singleton (of_decide_eq_true equal), rfl⟩
            · exact Or.inl ⟨same _ _ one, rfl⟩
          · exact Or.inr rfl
      | explicit a2 =>
          rw [union]
          split_ifs with one
          · exact Representation.noConfusion (same _ _ one)
          · exact Or.inr rfl
          · exact fun _ _ _ equal => Representation.noConfusion equal
  | explicit a1 =>
      rw [union]
      split_ifs with one
      · exact Or.inl ⟨same _ _ one, rfl⟩
      · exact Or.inr rfl
      · exact fun _ _ equal => Representation.noConfusion equal

theorem Represents.union (first : Represents r1 L1)
    (second : Represents r2 L2) :
    Represents (union identical r1 r2) (L1 + L2) := by
  rw [← first.lang_eq, ← second.lang_eq]
  rcases @union_cases r1 r2 identical same with ⟨rfl, known⟩ | new
  · rw [known, Language.add_self]
    exact ⟨first.invariants, rfl⟩
  · rw [new]
    exact .of_builds (builds_union first.invariants second.invariants)

theorem Denotes.union (first : Denotes r1 L1) (second : Denotes r2 L2) :
    Denotes (union identical r1 r2) (L1 + L2) := by
  have united := first.represents.union same second.represents
  refine ⟨?_, united.lang_eq⟩
  rcases @union_cases r1 r2 identical same with ⟨_, known⟩ | new
  · rw [known]
    exact first.tidy
  · rw [new] at united ⊢
    exact .of_unflagged united.invariants rfl

omit same in
theorem denotes_run {s : Word} (first : Recognizes (.singleton s) L1)
    (second : Recognizes r2 L2) :
    Denotes (if r2.run s then .singleton s else makeEmpty) (L1 ⊓ L2) := by
  have only : ∀ word, word ∈ L1 ↔ word = s := by
    intro word
    rw [← first.lang_eq]
    exact mem_language_makeString
  by_cases inside : r2.run s = true
  · rw [if_pos inside]
    refine ⟨tidy_makeString s, ?_⟩
    ext word
    refine mem_language_makeString.trans ⟨?_, fun both => (only word).mp both.1⟩
    rintro rfl
    exact ⟨(only word).mpr rfl, second.run_iff.mp inside⟩
  · rw [if_neg inside]
    refine ⟨tidy_makeEmpty, denotes_makeEmpty.lang_eq.trans ?_⟩
    ext word
    refine iff_of_false (Language.notMem_zero word) ?_
    rintro ⟨isString, inSecond⟩
    rw [(only word).mp isString] at inSecond
    exact inside (second.run_iff.mpr inSecond)

omit same in
/-- An intersection is empty or one of the operands unless it is a product. -/
theorem intersection_cases :
    intersection order identical r1 r2 = r1 ∨
      intersection order identical r1 r2 = r2 ∨
      intersection order identical r1 r2 = makeEmpty ∨
      ∃ b1 b2, r1 = .explicit b1 ∧ r2 = .explicit b2 ∧
        intersection order identical r1 r2 = .explicit (product order b1 b2) := by
  cases r1 with
  | singleton s =>
      rw [Representation.intersection]
      split_ifs
      · exact Or.inl rfl
      · exact Or.inr (Or.inr (Or.inl rfl))
  | explicit b1 =>
      cases r2 with
      | singleton s =>
          rw [Representation.intersection]
          · split_ifs
            · exact Or.inr (Or.inl rfl)
            · exact Or.inr (Or.inr (Or.inl rfl))
          · exact fun _ equal => Representation.noConfusion equal
      | explicit b2 =>
          rw [Representation.intersection]
          split_ifs
          · exact Or.inl rfl
          · exact Or.inr (Or.inr (Or.inr ⟨b1, b2, rfl, rfl, rfl⟩))

theorem Recognizes.intersection (first : Recognizes r1 L1)
    (second : Recognizes r2 L2) :
    Recognizes (intersection order identical r1 r2) (L1 ⊓ L2) := by
  cases r1 with
  | singleton s => exact (denotes_run first second).recognizes
  | explicit a1 =>
      cases r2 with
      | singleton s =>
          rw [inf_comm]
          exact (denotes_run second first).recognizes
      | explicit a2 =>
          rw [Representation.intersection]
          split_ifs with one
          · have twice := same _ _ one
            rw [← second.lang_eq, ← twice, first.lang_eq, inf_idem]
            exact first
          · rw [← first.lang_eq, ← second.lang_eq]
            exact (Represents.of_builds
              (product_spec first.honest second.honest)).recognizes

omit same in
theorem tidy_intersection (first : Tidy r1.expand) (second : Tidy r2.expand) :
    Tidy (intersection order identical r1 r2).expand := by
  rcases @intersection_cases r1 r2 order identical with
    isFirst | isSecond | none | ⟨b1, b2, rfl, rfl, isProduct⟩
  · rw [isFirst]
    exact first
  · rw [isSecond]
    exact second
  · rw [none]
    exact tidy_makeEmpty
  · rw [isProduct]
    exact tidy_product first.invariants.honest second.invariants.honest

omit same in
theorem invariants_intersection (first : ClassInvariants r1.expand)
    (second : ClassInvariants r2.expand) :
    ClassInvariants (intersection order identical r1 r2).expand := by
  rcases @intersection_cases r1 r2 order identical with
    isFirst | isSecond | none | ⟨b1, b2, rfl, rfl, isProduct⟩
  · rw [isFirst]
    exact first
  · rw [isSecond]
    exact second
  · rw [none]
    exact tidy_makeEmpty.invariants
  · rw [isProduct]
    exact (tidy_product first.honest second.honest).invariants

theorem Denotes.intersection (first : Denotes r1 L1) (second : Denotes r2 L2) :
    Denotes (intersection order identical r1 r2) (L1 ⊓ L2) :=
  ⟨tidy_intersection first.tidy second.tidy,
    (first.recognizes.intersection same
      second.recognizes).lang_eq⟩

/-- The string of a singleton is run on the automaton, not on its complement. -/
theorem Recognizes.minusProper (first : Recognizes r1 L1)
    (second : Recognizes r2 L2) :
    Recognizes (minusProper order identical r1 r2) (L1 \ L2) := by
  have complement :=
    (@Recognizes.complement r2 L2 order second).recognizes
  rw [sdiff_eq]
  cases r1 with
  | explicit a => exact first.intersection same complement
  | singleton s =>
      have turned := (denotes_run first complement).recognizes
      have other : (Representation.complement order r2).run s = !r2.run s := by
        rw [Bool.eq_iff_iff, complement.run_iff, Bool.not_eq_true',
          ← Bool.not_eq_true, second.run_iff]
        exact Iff.rfl
      rw [other] at turned
      rw [Representation.minusProper]
      cases inside : r2.run s with
      | true => simpa [inside] using turned
      | false => simpa [inside] using turned

theorem Recognizes.minus (first : Recognizes r1 L1)
    (second : Recognizes r2 L2) :
    Recognizes (minus order identical r1 r2) (L1 \ L2) := by
  rw [Representation.minus]
  by_cases none : (r1.isEmpty || identical r1 r2) = true
  · rw [if_pos none]
    refine ⟨tidy_makeEmpty.invariants.honest, denotes_makeEmpty.lang_eq.trans ?_⟩
    rcases Bool.or_eq_true_iff.mp none with empty | one
    · rw [first.of_isEmpty empty]
      exact bot_sdiff.symm
    · rw [← first.lang_eq, ← second.lang_eq, same _ _ one]
      exact sdiff_self.symm
  · rw [if_neg none]
    by_cases empty : r2.isEmpty = true
    · rw [if_pos empty, second.of_isEmpty empty]
      exact ⟨first.honest, first.lang_eq.trans sdiff_bot.symm⟩
    · rw [if_neg empty]
      exact first.minusProper same second

omit same in
/-- A difference is empty or the first operand unless it is an intersection with
the complement of the second. -/
theorem minus_cases :
    minus order identical r1 r2 = makeEmpty ∨
      minus order identical r1 r2 = r1 ∨
      minus order identical r1 r2 =
        intersection order identical r1 (complement order r2) := by
  rw [Representation.minus]
  split_ifs
  · exact Or.inl rfl
  · exact Or.inr (Or.inl rfl)
  · cases r1 with
    | explicit a => exact Or.inr (Or.inr rfl)
    | singleton s =>
        rw [Representation.minusProper]
        split_ifs
        · exact Or.inl rfl
        · exact Or.inr (Or.inl rfl)

omit same in
theorem tidy_minus (first : Tidy r1.expand) (second : ClassInvariants r2.expand) :
    Tidy (minus order identical r1 r2).expand := by
  rcases @minus_cases r1 r2 order identical with none | isFirst | common
  · rw [none]
    exact tidy_makeEmpty
  · rw [isFirst]
    exact first
  · rw [common]
    exact tidy_intersection first (tidy_complement second.honest)

omit same in
theorem invariants_minus (first : ClassInvariants r1.expand)
    (honest : r2.expand.HonestFlag) :
    ClassInvariants (minus order identical r1 r2).expand := by
  rcases @minus_cases r1 r2 order identical with none | isFirst | common
  · rw [none]
    exact tidy_makeEmpty.invariants
  · rw [isFirst]
    exact first
  · rw [common]
    exact invariants_intersection first (tidy_complement honest).invariants

theorem Denotes.minus (first : Denotes r1 L1) (second : Denotes r2 L2) :
    Denotes (minus order identical r1 r2) (L1 \ L2) :=
  ⟨tidy_minus first.tidy second.tidy.invariants,
    (first.recognizes.minus same
      second.recognizes).lang_eq⟩

end Identical

end Representation

end SafetyGames.Automata
