import SafetyGames.Teacher.CheckIfWinningSet
import SafetyGames.Teacher.RegExpMeaning
import SafetyGames.Transducer.FromAutomaton

/-!
# Safety problems from regular expressions

The two games of `SafetyProblem` are written as six regular expressions, the
edge relation over letters that a map translates to pairs.  Where successive
letters are told apart by what may follow them, the deterministic automaton of
the expression has no transition on two letters, and the transducer built from
it relates the pairs of all its words.
-/

namespace SafetyGames.Problem

open SafetyGames.Transducer SafetyGames.Teacher SafetyGames.LabelledPath
open SafetyGames.Regular

/-! ## Transitions on one character -/

/-- The codes of the characters follow each other. -/
def Successive (c d : JChar) : Prop :=
  d.toNat = c.toNat + 1

section Single

variable {a : Automaton}

/-- Behind a word that leads to the transition something is accepted. -/
theorem exists_after (invariants : ClassInvariants a) {before : Word} {ref : Nat}
    (path : Path a.states.Step a.initial before ref) {transition : Transition}
    (member : transition ∈ (a.state ref).transitions) :
    ∃ after, ∀ c, transition.Reads c → before ++ c :: after ∈ a.lang := by
  rcases invariants.live ref ⟨before, path⟩ transition member with
    ⟨after, target, rest, accept⟩
  refine ⟨after, ?_⟩
  intro c reads
  exact ⟨target,
    path.append (Path.cons ⟨transition, member, reads, rfl⟩ rest), accept⟩

theorem leftQuotient_of_path
    (deterministic : a.states.DeterministicFrom a.initial) {word : Word}
    {ref : Nat} (path : Path a.states.Step a.initial word ref) :
    (language a).leftQuotient word = {rest | a.states.Accepts ref rest} := by
  ext rest
  exact deterministic.accepts_append_iff path

/-- A transition on two characters would lead them to the same state. -/
theorem single_of_separated (invariants : ClassInvariants a)
    (deterministic : a.states.DeterministicFrom a.initial)
    (separated : Separated Successive (language a)) {ref : Nat}
    (reachable : a.Reachable ref) {transition : Transition}
    (member : transition ∈ (a.state ref).transitions) : transition.Single := by
  rcases reachable with ⟨before, path⟩
  by_contra several
  have less := UInt16.lt_iff_toNat_lt.mp
    (UInt16.lt_of_le_of_ne transition.min_le_max several)
  have next : (transition.min + 1).toNat = transition.min.toNat + 1 := by
    have bound := transition.max.toNat_lt
    rw [UInt16.toNat_add, UInt16.toNat_one, Nat.mod_eq_of_lt (by omega)]
  have readsNext : transition.Reads (transition.min + 1) := by
    constructor
    · rw [UInt16.le_iff_toNat_le, next]
      exact Nat.le_succ _
    · rw [UInt16.le_iff_toNat_le, next]
      exact less
  have same : (language a).leftQuotient (before ++ [transition.min]) =
      (language a).leftQuotient (before ++ [transition.min + 1]) := by
    rw [leftQuotient_of_path deterministic
        (path.snoc ⟨transition, member, transition.reads_min, rfl⟩),
      leftQuotient_of_path deterministic
        (path.snoc ⟨transition, member, readsNext, rfl⟩)]
  rcases exists_after invariants path member with ⟨after, accepted⟩
  have inside : after ∈
      (language a).leftQuotient (before ++ [transition.min]) := by
    rw [Language.mem_leftQuotient, List.append_assoc]
    exact accepted transition.min transition.reads_min
  rw [separated before _ _ next same] at inside
  exact Language.notMem_zero after inside

/-- The characters of the words are keys that hold two-character strings. -/
def Keys (map : PairMap) (L : Language JChar) : Prop :=
  ∀ word ∈ L, ∀ c ∈ word, ∃ u v, map [c] = some [u, v]

theorem keys_of_arrows {σ : Type} {arrows : List (Arrow σ JChar)}
    {residual : σ → Language JChar} (residuals : Residuals arrows residual)
    {map : PairMap} (pairs : ∀ arrow ∈ arrows,
      (map [arrow.letter]).map List.length = some 2) (source : σ) :
    Keys map (residual source) := by
  intro word member c inWord
  rcases residuals.exists_arrow member c inWord with ⟨arrow, inArrows, rfl⟩
  rcases Option.map_eq_some_iff.mp (pairs arrow inArrows) with
    ⟨pair, isPair, length⟩
  rcases List.length_eq_two.mp length with ⟨u, v, rfl⟩
  exact ⟨u, v, isPair⟩

theorem overKeys_of_keys (invariants : ClassInvariants a) {map : PairMap}
    (keys : Keys map (language a)) : OverKeys a map := by
  rintro ref ⟨before, path⟩ transition member c reads
  rcases exists_after invariants path member with ⟨after, accepted⟩
  exact keys _ (accepted c reads) c
    (List.mem_append_right before List.mem_cons_self)

end Single

/-! ## The constructors -/

theorem automatonOf_invariants {ops : Operations} (correct : ops.Correct)
    {s : Word} {a : Automaton} (isSome : automatonOf ops s = some a) :
    ClassInvariants a := by
  rcases automatonOf_eq_some.mp isSome with ⟨e, _, builds⟩
  exact (toAutomaton_builds correct builds).1

/-- Reducing and minimizing keep the language. -/
theorem builds_minimized {ops : Operations} (correct : ops.Correct)
    {a b : Automaton} (invariants : ClassInvariants a)
    (returned : ops.minimize (ops.reduce a) = some b) :
    Builds b (language a) := by
  rcases correct with ⟨good, correct⟩
  exact (correct.of_minimize (correct.reduce a invariants) rfl returned).1.builds
    correct

theorem minimize_reduce_returns {ops : Operations} (correct : ops.Correct)
    {a : Automaton} (invariants : ClassInvariants a) :
    ∃ b, ops.minimize (ops.reduce a) = some b := by
  rcases correct with ⟨good, correct⟩
  exact correct.minimize_returns (correct.reduce a invariants)

/-- An automaton that satisfies the class invariants. -/
abbrev LiveAutomaton := {a : Automaton // ClassInvariants a}

/-- A `HashMap<String, String>` with the entries. -/
def hashMap (entries : List (Word × Word)) : PairMap :=
  fun key => entries.lookup key

section Constructors

variable (ops : Operations) (correct : ops.Correct)

/-- `new RegExp(s).toAutomaton()`, with the class invariants. -/
def liveAutomaton (s : Word) : Option LiveAutomaton :=
  match builds : automatonOf ops s with
  | none => none
  | some a => some ⟨a, automatonOf_invariants correct builds⟩

/-- `a.reduce(); a.minimize();`. -/
def minimized (a : LiveAutomaton) : Option LiveAutomaton :=
  match returned : ops.minimize (ops.reduce a.1) with
  | none => none
  | some b => some ⟨b, (builds_minimized correct a.2 returned).1⟩

/-- `new SafetyProblem(alphabet, aV0, aV1, aI, aF, tE)`. -/
def newSafetyProblem (alphabet : List JChar) (aV0 aV1 aI aF : LiveAutomaton)
    (tE : TransducerAutomaton) : Option SafetyProblem := do
  let aV0 ← minimized ops correct aV0
  let aV1 ← minimized ops correct aV1
  let aI ← minimized ops correct aI
  let aF ← minimized ops correct aF
  return {
    alphabet := alphabet
    aV0 := aV0.1
    aV1 := aV1.1
    aI := aI.1
    aF := aF.1
    tE := tE
    aV0_invariants := aV0.2
    aV1_invariants := aV1.2
    aI_invariants := aI.2
    aF_invariants := aF.2 }

/-- `new RegExp(s).toTransducer(map)`. -/
def toTransducer (s : Word) (map : PairMap) : Option TransducerAutomaton := do
  let a ← automatonOf ops s
  TransducerAutomaton.ofAutomaton a map

/-- The regular expressions of a game and the map of the last one. -/
structure Expressions where
  alphabet : List JChar
  v0 : Word
  v1 : Word
  i : Word
  f : Word
  e : Word
  map : PairMap

/-- What the methods `linearGame` and `boxGame` do with their expressions. -/
def gameOf (expressions : Expressions) : Option SafetyProblem := do
  let v0 ← liveAutomaton ops correct expressions.v0
  let v1 ← liveAutomaton ops correct expressions.v1
  let i ← liveAutomaton ops correct expressions.i
  let f ← liveAutomaton ops correct expressions.f
  let e ← toTransducer ops expressions.e expressions.map
  newSafetyProblem ops correct expressions.alphabet v0 v1 i f e

variable {ops}

theorem minimized_spec (a : LiveAutomaton) :
    ∃ b, minimized ops correct a = some b ∧ b.1.lang = a.1.lang := by
  rcases minimize_reduce_returns correct a.2 with ⟨b, isSome⟩
  have built := builds_minimized correct a.2 isSome
  refine ⟨⟨b, built.1⟩, ?_, built.2⟩
  unfold minimized
  split
  · next none => cases none.symm.trans isSome
  · next other found =>
      cases found.symm.trans isSome
      rfl

/-- The automata of the problem accept what those it is built from accept. -/
theorem newSafetyProblem_spec (alphabet : List JChar)
    (aV0 aV1 aI aF : LiveAutomaton) (tE : TransducerAutomaton) :
    ∃ sp, newSafetyProblem ops correct alphabet aV0 aV1 aI aF tE = some sp ∧
      sp.alphabet = alphabet ∧ sp.game =
        { player0 := aV0.1.lang
          player1 := aV1.1.lang
          initial := aI.1.lang
          safe := aF.1.lang
          edge := tE.Rel } := by
  rcases minimized_spec correct aV0 with ⟨bV0, isV0, langV0⟩
  rcases minimized_spec correct aV1 with ⟨bV1, isV1, langV1⟩
  rcases minimized_spec correct aI with ⟨bI, isI, langI⟩
  rcases minimized_spec correct aF with ⟨bF, isF, langF⟩
  rw [newSafetyProblem, isV0, isV1, isI, isF]
  refine ⟨_, rfl, rfl, ?_⟩
  simp only [SafetyProblem.game, langV0, langV1, langI, langF]

theorem liveAutomaton_spec {s : Word} {e : RegExp}
    (parsed : RegExp.parse s = .ok e) (plain : Plain e) :
    ∃ a, liveAutomaton ops correct s = some a ∧ a.1.lang = meaning e := by
  rcases exists_automaton_of_plain correct plain with ⟨a, builds⟩
  have isSome : automatonOf ops s = some a :=
    automatonOf_eq_some.mpr ⟨e, parsed, builds⟩
  refine ⟨⟨a, automatonOf_invariants correct isSome⟩, ?_,
    (toAutomaton_builds correct builds).2⟩
  unfold liveAutomaton
  split
  · next none => cases none.symm.trans isSome
  · next other found =>
      cases found.symm.trans isSome
      rfl

include correct

/-- The automaton of a union is minimized last, which makes it deterministic. -/
theorem deterministic_union {e1 e2 : RegExp} {a : Automaton}
    (builds : toAutomaton ops (.union e1 e2) = some a) :
    a.states.DeterministicFrom a.initial := by
  have honest := (toAutomaton_builds correct builds).1.honest
  apply honest
  rcases correct with ⟨good, correct⟩
  rw [toAutomaton] at builds
  rcases Option.bind_eq_some_iff.mp builds with ⟨list1, found1, builds⟩
  rcases Option.bind_eq_some_iff.mp builds with ⟨list2, found2, returned⟩
  have united := correct.union _ (good_append correct found1 found2)
  exact (correct.of_minimize united rfl returned).2

/-- The transducer of a union relates the pairs of all words of the union. -/
theorem toTransducer_spec {s : Word} {map : PairMap} {e1 e2 : RegExp}
    (parsed : RegExp.parse s = .ok (.union e1 e2))
    (plain : Plain (.union e1 e2)) (keys : Keys map (meaning (.union e1 e2)))
    (separated : Separated Successive (meaning (.union e1 e2))) :
    ∃ ta, toTransducer ops s map = some ta ∧ ∀ u v, ta.Rel u v ↔
      ∃ word ∈ meaning (.union e1 e2), h1 map word = u ∧ h2 map word = v := by
  rcases exists_automaton_of_plain correct plain with ⟨a, builds⟩
  have isSome : automatonOf ops s = some a :=
    automatonOf_eq_some.mpr ⟨_, parsed, builds⟩
  rcases toAutomaton_builds correct builds with ⟨invariants, same⟩
  rw [← same] at keys separated
  have overKeys := overKeys_of_keys invariants keys
  rcases overKeys.ofAutomaton_spec with ⟨built, returns, _⟩
  have lowered : a.lowered.lang = a.lang :=
    lang_lowered_of_reachable fun _ reachable _ member =>
      single_of_separated invariants (deterministic_union correct builds)
        separated reachable member
  refine ⟨built.ret, ?_, ?_⟩
  · rw [toTransducer, isSome]
    exact returns
  · intro u v
    rw [overKeys.ofAutomaton_rel_iff returns, lowered, ← same]
    rfl

/-- What the expressions of a game must be for it to be as they say. -/
structure Described (expressions : Expressions) (v0 v1 i f e1 e2 : RegExp) :
    Prop where
  v0 : RegExp.parse expressions.v0 = .ok v0 ∧ Plain v0
  v1 : RegExp.parse expressions.v1 = .ok v1 ∧ Plain v1
  i : RegExp.parse expressions.i = .ok i ∧ Plain i
  f : RegExp.parse expressions.f = .ok f ∧ Plain f
  e : RegExp.parse expressions.e = .ok (.union e1 e2) ∧ Plain (.union e1 e2)
  keys : Keys expressions.map (meaning (.union e1 e2))
  separated : Separated Successive (meaning (.union e1 e2))

/-- The game is the one that its expressions describe. -/
theorem gameOf_spec {expressions : Expressions} {v0 v1 i f e1 e2 : RegExp}
    (described : Described expressions v0 v1 i f e1 e2) :
    ∃ sp, gameOf ops correct expressions = some sp ∧
      sp.alphabet = expressions.alphabet ∧ sp.game =
        { player0 := meaning v0
          player1 := meaning v1
          initial := meaning i
          safe := meaning f
          edge := fun u v => ∃ word ∈ meaning (.union e1 e2),
            h1 expressions.map word = u ∧ h2 expressions.map word = v } := by
  rcases liveAutomaton_spec correct described.v0.1 described.v0.2 with
    ⟨aV0, isV0, langV0⟩
  rcases liveAutomaton_spec correct described.v1.1 described.v1.2 with
    ⟨aV1, isV1, langV1⟩
  rcases liveAutomaton_spec correct described.i.1 described.i.2 with
    ⟨aI, isI, langI⟩
  rcases liveAutomaton_spec correct described.f.1 described.f.2 with
    ⟨aF, isF, langF⟩
  rcases toTransducer_spec correct described.e.1 described.e.2 described.keys
    described.separated with ⟨tE, isE, related⟩
  rcases newSafetyProblem_spec correct expressions.alphabet aV0 aV1 aI aF tE with
    ⟨sp, isSome, isAlphabet, isGame⟩
  refine ⟨sp, ?_, isAlphabet, isGame.trans ?_⟩
  · rw [gameOf, isV0, isV1, isI, isF, isE]
    exact isSome
  · rw [langV0, langV1, langI, langF]
    congr 1
    ext u v
    exact related u v

end Constructors

end SafetyGames.Problem
