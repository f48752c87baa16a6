import SafetyGames.Lib.SafetyGame
import SafetyGames.Teacher.Library
import SafetyGames.Transducer.Deepcopy

/-!
# The teacher

A `SafetyProblem`, the safety game on words that it represents, and
`checkIfWinningSet`.  Under the library's laws, and as far as the images it
asks for are exact, the four automata it builds accept the words that violate
the four conditions.
-/

namespace SafetyGames.Teacher

open SafetyGames.Transducer SafetyGames.Learner SafetyGames.Game

/-! ## Safety problems -/

/-- A `SafetyProblem`; its constructor minimizes the four automata. -/
structure SafetyProblem where
  alphabet : List JChar
  aV0 : Automaton
  aV1 : Automaton
  aI : Automaton
  aF : Automaton
  tE : TransducerAutomaton
  aV0_invariants : ClassInvariants aV0
  aV1_invariants : ClassInvariants aV1
  aI_invariants : ClassInvariants aI
  aF_invariants : ClassInvariants aF

namespace SafetyProblem

variable (sp : SafetyProblem)

/-- The safety game on words. -/
def game : SafetyGame Word where
  player0 := sp.aV0.lang
  player1 := sp.aV1.lang
  initial := sp.aI.lang
  safe := sp.aF.lang
  edge := sp.tE.Rel

/-- The edges lead from vertices to vertices. -/
def RelatesVertices : Prop :=
  ∀ u v, sp.tE.Rel u v →
    u ∈ sp.aV0.lang ∪ sp.aV1.lang ∧ v ∈ sp.aV0.lang ∪ sp.aV1.lang

/-- The vertices are words over the alphabet. -/
def OverAlphabet : Prop :=
  ∀ u ∈ sp.aV0.lang ∪ sp.aV1.lang, ∀ c ∈ u, c ∈ sp.alphabet

/-- The set has all initial vertices, and safe ones only. -/
def Between (set : Set Word) : Prop :=
  sp.aI.lang ⊆ set ∧ set ⊆ sp.aF.lang

/-- The vertices of player 0 in the set without a successor in it. -/
def stuck (set : Set Word) : Set Word :=
  {u | u ∈ set ∧ u ∈ sp.aV0.lang ∧ ∀ v ∈ set, ¬ sp.tE.Rel u v}

/-- The vertices of player 1 in the set with a successor outside of it. -/
def leaving (set : Set Word) : Set Word :=
  {u | u ∈ sp.aV1.lang ∧ u ∈ set ∧
    ∃ v ∈ (sp.aV0.lang ∪ sp.aV1.lang) \ set, sp.tE.Rel u v}

theorem stuck_eq_empty_iff {set : Set Word} :
    sp.stuck set = ∅ ↔ ∀ u ∈ set, u ∈ sp.game.player0 →
      ∃ v ∈ set, sp.game.edge u v := by
  rw [Set.eq_empty_iff_forall_notMem]
  apply forall_congr'
  intro u
  rw [stuck, Set.mem_ofPred_eq, not_and, not_and]
  refine imp_congr_right fun _ => imp_congr_right fun _ => ?_
  push Not
  rfl

theorem leaving_eq_empty_iff (relates : sp.RelatesVertices) {set : Set Word} :
    sp.leaving set = ∅ ↔ ∀ u ∈ set, u ∈ sp.game.player1 →
      ∀ v, sp.game.edge u v → v ∈ set := by
  rw [Set.eq_empty_iff_forall_notMem]
  constructor
  · intro none u inside owned v edge
    by_contra outside
    exact none u ⟨owned, inside, v, ⟨(relates u v edge).2, outside⟩, edge⟩
  · rintro closed u ⟨owned, inside, v, ⟨_, outside⟩, edge⟩
    exact outside (closed u inside owned v edge)

/-- The set is a winning set if no check finds a vertex. -/
theorem winning_iff (relates : sp.RelatesVertices) {set : Set Word} :
    Winning sp.game set ↔
      sp.Between set ∧ sp.stuck set = ∅ ∧ sp.leaving set = ∅ := by
  rw [sp.stuck_eq_empty_iff, sp.leaving_eq_empty_iff relates]
  constructor
  · intro wins
    exact ⟨⟨wins.initial, wins.safe⟩, wins.existential, wins.universal⟩
  · rintro ⟨⟨initial, safe⟩, existential, universal⟩
    exact ⟨initial, safe, existential, universal⟩

end SafetyProblem

/-! ## The four checks -/

section Checks

variable (lib : Library)
  (image : TransducerAutomaton → Automaton → Option Automaton)
  (sp : SafetyProblem) (cdfa : Automaton)

/-- The initial vertices that the conjecture rejects. -/
def a1 : Automaton :=
  lib.minus sp.aI cdfa

/-- The words of the conjecture that are not safe. -/
def a2 : Automaton :=
  lib.minus cdfa sp.aF

/-- The vertices of player 0 in the conjecture that it gives no successor. -/
def a3c : Option Automaton := do
  let inverse ← sp.tE.invert
  let a3a ← image inverse cdfa
  let a3b := lib.minus sp.aV0 a3a
  some (lib.intersection cdfa a3b)

/-- The vertices that the conjecture rejects. -/
def a4a : Automaton :=
  lib.minus (lib.union sp.aV0 sp.aV1) cdfa

/-- The vertices of player 1 in the conjecture with a successor outside. -/
def a4c : Option Automaton := do
  let inverse ← sp.tE.invert
  let a4b ← image inverse (a4a lib sp cdfa)
  some (lib.intersection (lib.intersection sp.aV1 cdfa) a4b)

/-- The successors of a word: `image(TE, new RegExp(u).toAutomaton())`. -/
def consequence (u : Word) : Option Automaton := do
  let word ← lib.regExp u
  image sp.tE word

/-- `checkIfWinningSet(cdfa, s)`: the answer, and the sample afterwards.  There
is none if an operation throws, if an image does not end, or if a counter-example
would be `null`. -/
def checkIfWinningSet (s : Sample) : Option (Bool × Sample) :=
  if isEmpty (a1 lib sp cdfa) = false then do
    let u ← lib.getShortestExample (a1 lib sp cdfa)
    some (false, s.addPos u)
  else if isEmpty (a2 lib sp cdfa) = false then do
    let u ← lib.getShortestExample (a2 lib sp cdfa)
    some (false, s.addNeg u)
  else do
    let a3c ← a3c lib image sp cdfa
    if isEmpty a3c = false then
      let u ← lib.getShortestExample a3c
      let a ← consequence lib image sp u
      let _ ← lib.contains ⟨u, a⟩ s.ex
      some (false, s.addEx lib.same u a)
    else
      let a4c ← a4c lib image sp cdfa
      if isEmpty a4c = false then
        let u ← lib.getShortestExample a4c
        let a ← consequence lib image sp u
        let _ ← lib.contains ⟨u, a⟩ s.uni
        some (false, s.addUni lib.same u a)
      else
        some (true, s)

end Checks

/-- The ways in which a call of `checkIfWinningSet` returns. -/
inductive Checked (lib : Library)
    (image : TransducerAutomaton → Automaton → Option Automaton)
    (sp : SafetyProblem) (cdfa : Automaton) (s : Sample) :
    Bool × Sample → Prop where
  | initial {u : Word} (found : isEmpty (a1 lib sp cdfa) = false)
      (picked : lib.getShortestExample (a1 lib sp cdfa) = some u) :
      Checked lib image sp cdfa s (false, s.add lib.same (.pos u))
  | safe {u : Word} (starts : isEmpty (a1 lib sp cdfa) = true)
      (found : isEmpty (a2 lib sp cdfa) = false)
      (picked : lib.getShortestExample (a2 lib sp cdfa) = some u) :
      Checked lib image sp cdfa s (false, s.add lib.same (.neg u))
  | existential {u : Word} (starts : isEmpty (a1 lib sp cdfa) = true)
      (stays : isEmpty (a2 lib sp cdfa) = true) {stuck a : Automaton}
      {known : Bool} (isStuck : a3c lib image sp cdfa = some stuck)
      (found : isEmpty stuck = false)
      (picked : lib.getShortestExample stuck = some u)
      (isConsequence : consequence lib image sp u = some a)
      (compared : lib.contains ⟨u, a⟩ s.ex = some known) :
      Checked lib image sp cdfa s (false, s.add lib.same (.ex u a))
  | universal {u : Word} (starts : isEmpty (a1 lib sp cdfa) = true)
      (stays : isEmpty (a2 lib sp cdfa) = true) {stuck leaving a : Automaton}
      {known : Bool} (isStuck : a3c lib image sp cdfa = some stuck)
      (moves : isEmpty stuck = true)
      (isLeaving : a4c lib image sp cdfa = some leaving)
      (found : isEmpty leaving = false)
      (picked : lib.getShortestExample leaving = some u)
      (isConsequence : consequence lib image sp u = some a)
      (compared : lib.contains ⟨u, a⟩ s.uni = some known) :
      Checked lib image sp cdfa s (false, s.add lib.same (.uni u a))
  | passes (starts : isEmpty (a1 lib sp cdfa) = true)
      (stays : isEmpty (a2 lib sp cdfa) = true) {stuck leaving : Automaton}
      (isStuck : a3c lib image sp cdfa = some stuck)
      (moves : isEmpty stuck = true)
      (isLeaving : a4c lib image sp cdfa = some leaving)
      (closed : isEmpty leaving = true) :
      Checked lib image sp cdfa s (true, s)

section Spec

variable {lib : Library}
  {image : TransducerAutomaton → Automaton → Option Automaton}
  {sp : SafetyProblem} {cdfa : Automaton} {s : Sample} {result : Bool × Sample}

/-- A call that returns does so in one of these ways. -/
theorem checkIfWinningSet_cases
    (returns : checkIfWinningSet lib image sp cdfa s = some result) :
    Checked lib image sp cdfa s result := by
  rw [checkIfWinningSet] at returns
  split_ifs at returns with outside unsafeVertices
  · rcases Option.bind_eq_some_iff.mp returns with ⟨u, picked, isResult⟩
    exact Option.some.inj isResult ▸ Checked.initial outside picked
  · rw [Bool.not_eq_false] at outside
    rcases Option.bind_eq_some_iff.mp returns with ⟨u, picked, isResult⟩
    exact Option.some.inj isResult ▸
      Checked.safe outside unsafeVertices picked
  · rw [Bool.not_eq_false] at outside unsafeVertices
    rcases Option.bind_eq_some_iff.mp returns with ⟨stuck, isStuck, returns⟩
    split_ifs at returns with found
    · rcases Option.bind_eq_some_iff.mp returns with ⟨u, picked, returns⟩
      rcases Option.bind_eq_some_iff.mp returns with ⟨a, isConsequence, returns⟩
      rcases Option.bind_eq_some_iff.mp returns with ⟨known, compared, isResult⟩
      exact Option.some.inj isResult ▸ Checked.existential outside
        unsafeVertices isStuck found picked isConsequence compared
    · rw [Bool.not_eq_false] at found
      rcases Option.bind_eq_some_iff.mp returns with ⟨leaving, isLeaving, returns⟩
      split_ifs at returns with left
      · rcases Option.bind_eq_some_iff.mp returns with ⟨u, picked, returns⟩
        rcases Option.bind_eq_some_iff.mp returns with ⟨a, isConsequence, returns⟩
        rcases Option.bind_eq_some_iff.mp returns with ⟨known, compared, isResult⟩
        exact Option.some.inj isResult ▸ Checked.universal outside
          unsafeVertices isStuck found isLeaving left picked isConsequence
          compared
      · rw [Bool.not_eq_false] at left
        exact Option.some.inj returns ▸
          Checked.passes outside unsafeVertices isStuck found isLeaving left

/-- Each of these ways is taken by the call. -/
theorem Checked.returns (checked : Checked lib image sp cdfa s result) :
    checkIfWinningSet lib image sp cdfa s = some result := by
  cases checked with
  | initial found picked =>
      rw [checkIfWinningSet, if_pos found, picked]
      rfl
  | safe starts found picked =>
      rw [checkIfWinningSet, if_neg (by simp [starts]), if_pos found, picked]
      rfl
  | existential starts stays isStuck found picked isConsequence compared =>
      rw [checkIfWinningSet, if_neg (by simp [starts]),
        if_neg (by simp [stays])]
      simp only [isStuck, found, picked, isConsequence, compared,
        Option.bind_eq_bind, Option.bind_some, if_true]
      rfl
  | universal starts stays isStuck moves isLeaving found picked isConsequence
      compared =>
      rw [checkIfWinningSet, if_neg (by simp [starts]),
        if_neg (by simp [stays])]
      simp only [isStuck, moves, isLeaving, found, picked, isConsequence,
        compared, Option.bind_eq_bind, Option.bind_some, Bool.true_eq_false,
        if_true, if_false]
      rfl
  | passes starts stays isStuck moves isLeaving closed =>
      rw [checkIfWinningSet, if_neg (by simp [starts]),
        if_neg (by simp [stays])]
      simp only [isStuck, moves, isLeaving, closed, Option.bind_eq_bind,
        Option.bind_some, Bool.true_eq_false, if_false]

theorem a3c_of_image (lib : Library) {inverse : TransducerAutomaton}
    {a3a : Automaton}
    (inverts : sp.tE.invert = some inverse)
    (before : image inverse cdfa = some a3a) :
    a3c lib image sp cdfa =
      some (lib.intersection cdfa (lib.minus sp.aV0 a3a)) := by
  rw [a3c, inverts, Option.bind_eq_bind, Option.bind_some, before]
  rfl

theorem a4c_of_image (lib : Library) {inverse : TransducerAutomaton}
    {a4b : Automaton}
    (inverts : sp.tE.invert = some inverse)
    (before : image inverse (a4a lib sp cdfa) = some a4b) :
    a4c lib image sp cdfa =
      some (lib.intersection (lib.intersection sp.aV1 cdfa) a4b) := by
  rw [a4c, inverts, Option.bind_eq_bind, Option.bind_some, before]
  rfl

/-! ## What the automata accept -/

section Languages

variable (correct : lib.Correct) (honest : cdfa.HonestFlag)
include correct honest

theorem a1_spec :
    (a1 lib sp cdfa).HonestFlag ∧
      (a1 lib sp cdfa).lang = sp.aI.lang \ cdfa.lang := by
  have minus := correct.minus _ _ sp.aI_invariants.honest honest
  exact ⟨minus.1, minus.2.1⟩

theorem a2_spec :
    (a2 lib sp cdfa).HonestFlag ∧
      (a2 lib sp cdfa).lang = cdfa.lang \ sp.aF.lang := by
  have minus := correct.minus _ _ honest sp.aF_invariants.honest
  exact ⟨minus.1, minus.2.1⟩

theorem a4a_spec :
    (a4a lib sp cdfa).HonestFlag ∧
      (a4a lib sp cdfa).lang = (sp.aV0.lang ∪ sp.aV1.lang) \ cdfa.lang := by
  rcases correct.union _ _ sp.aV0_invariants sp.aV1_invariants with
    ⟨unionInvariants, union⟩
  rcases correct.minus _ _ unionInvariants.honest honest with
    ⟨minusHonest, minus, _⟩
  refine ⟨minusHonest, minus.trans ?_⟩
  rw [union]

/-- The check of the existential closure looks at the vertices it should. -/
theorem a3c_spec {stuck : Automaton}
    (exact : ∀ inverse, sp.tE.invert = some inverse →
      ImageExact image inverse cdfa)
    (isStuck : a3c lib image sp cdfa = some stuck) :
    stuck.HonestFlag ∧ stuck.lang = sp.stuck cdfa.lang := by
  simp only [a3c, Option.bind_eq_bind, Option.bind_eq_some_iff,
    Option.some.injEq] at isStuck
  rcases isStuck with ⟨inverse, inverts, before, isBefore, rfl⟩
  rcases exact inverse inverts before isBefore with ⟨beforeInvariants, beforeLang⟩
  rcases correct.minus _ _ sp.aV0_invariants.honest beforeInvariants.honest with
    ⟨minusHonest, minus, _⟩
  rcases correct.intersection _ _ honest minusHonest with
    ⟨stuckHonest, intersection, _⟩
  refine ⟨stuckHonest, intersection.trans ?_⟩
  rw [minus, beforeLang]
  ext u
  simp only [SafetyProblem.stuck, Set.mem_inter_iff, Set.mem_sdiff,
    TransducerAutomaton.mem_relImage,
    TransducerAutomaton.invert_rel_iff inverts, not_exists, not_and,
    Set.mem_ofPred_eq]

/-- The check of the universal closure looks at the vertices it should. -/
theorem a4c_spec {leaving : Automaton}
    (exact : ∀ inverse, sp.tE.invert = some inverse →
      ImageExact image inverse (a4a lib sp cdfa))
    (isLeaving : a4c lib image sp cdfa = some leaving) :
    leaving.HonestFlag ∧ leaving.lang = sp.leaving cdfa.lang := by
  simp only [a4c, Option.bind_eq_bind, Option.bind_eq_some_iff,
    Option.some.injEq] at isLeaving
  rcases isLeaving with ⟨inverse, inverts, before, isBefore, rfl⟩
  rcases exact inverse inverts before isBefore with ⟨beforeInvariants, beforeLang⟩
  rcases correct.intersection _ _ sp.aV1_invariants.honest honest with
    ⟨ownedHonest, owned, _⟩
  rcases correct.intersection _ _ ownedHonest beforeInvariants.honest with
    ⟨leavingHonest, intersection, _⟩
  refine ⟨leavingHonest, intersection.trans ?_⟩
  rw [owned, beforeLang, (a4a_spec correct honest).2]
  ext u
  simp only [SafetyProblem.leaving, Set.mem_inter_iff,
    TransducerAutomaton.mem_relImage,
    TransducerAutomaton.invert_rel_iff inverts, and_assoc, Set.mem_ofPred_eq]

/-- The first two checks find nothing in a set between the initial and the safe
vertices only. -/
theorem between_of_isEmpty (starts : isEmpty (a1 lib sp cdfa) = true)
    (stays : isEmpty (a2 lib sp cdfa) = true) : sp.Between cdfa.lang := by
  have initial := lang_of_isEmpty starts
  have safe := lang_of_isEmpty stays
  rw [(a1_spec correct honest).2, Set.sdiff_eq_empty] at initial
  rw [(a2_spec correct honest).2, Set.sdiff_eq_empty] at safe
  exact ⟨initial, safe⟩

end Languages

/-! ## Minimized conjectures -/

section Minimized

variable (correct : lib.Correct) (invariants : ClassInvariants cdfa)
include correct invariants

theorem a1_isEmpty_iff :
    isEmpty (a1 lib sp cdfa) = true ↔ sp.aI.lang ⊆ cdfa.lang := by
  rcases correct.minus _ _ sp.aI_invariants.honest invariants.honest with
    ⟨_, same, kept⟩
  rw [a1, (kept sp.aI_invariants invariants).isEmpty_iff, same,
    Set.sdiff_eq_empty]

theorem a2_isEmpty_iff :
    isEmpty (a2 lib sp cdfa) = true ↔ cdfa.lang ⊆ sp.aF.lang := by
  rcases correct.minus _ _ invariants.honest sp.aF_invariants.honest with
    ⟨_, same, kept⟩
  rw [a2, (kept invariants sp.aF_invariants).isEmpty_iff, same,
    Set.sdiff_eq_empty]

theorem a3c_isEmpty_iff {stuck : Automaton}
    (exact : ∀ inverse, sp.tE.invert = some inverse →
      ImageExact image inverse cdfa)
    (isStuck : a3c lib image sp cdfa = some stuck) :
    isEmpty stuck = true ↔ sp.stuck cdfa.lang = ∅ := by
  rw [← (a3c_spec correct invariants.honest exact isStuck).2]
  simp only [a3c, Option.bind_eq_bind, Option.bind_eq_some_iff,
    Option.some.injEq] at isStuck
  rcases isStuck with ⟨inverse, inverts, before, isBefore, rfl⟩
  have beforeInvariants := (exact inverse inverts before isBefore).1
  rcases correct.minus _ _ sp.aV0_invariants.honest beforeInvariants.honest with
    ⟨minusHonest, _, minusKept⟩
  rcases correct.intersection _ _ invariants.honest minusHonest with
    ⟨_, _, kept⟩
  exact (kept invariants
    (minusKept sp.aV0_invariants beforeInvariants)).isEmpty_iff

theorem a4c_isEmpty_iff {leaving : Automaton}
    (exact : ∀ inverse, sp.tE.invert = some inverse →
      ImageExact image inverse (a4a lib sp cdfa))
    (isLeaving : a4c lib image sp cdfa = some leaving) :
    isEmpty leaving = true ↔ sp.leaving cdfa.lang = ∅ := by
  rw [← (a4c_spec correct invariants.honest exact isLeaving).2]
  simp only [a4c, Option.bind_eq_bind, Option.bind_eq_some_iff,
    Option.some.injEq] at isLeaving
  rcases isLeaving with ⟨inverse, inverts, before, isBefore, rfl⟩
  have beforeInvariants := (exact inverse inverts before isBefore).1
  rcases correct.intersection _ _ sp.aV1_invariants.honest invariants.honest with
    ⟨ownedHonest, _, ownedKept⟩
  rcases correct.intersection _ _ ownedHonest beforeInvariants.honest with
    ⟨_, _, kept⟩
  exact (kept (ownedKept sp.aV1_invariants invariants)
    beforeInvariants).isEmpty_iff

end Minimized

end Spec

/-! ## What a call answers -/

/-- What a counter-example of a sample asks, by the language of its automaton. -/
def constraintOf : Sample.Addition → Constraint Word
  | .pos word => .pos word
  | .neg word => .neg word
  | .ex u a => .ex u a.lang
  | .uni u a => .uni u a.lang

theorem satisfied_constraintOf {addition : Sample.Addition}
    {language : Set Word} :
    (constraintOf addition).Satisfied language ↔
      addition.Satisfied language := by
  cases addition <;> rfl

/-- The automaton of an implication counter-example satisfies the predicate. -/
def AutomatonSatisfies (P : Automaton → Prop) : Sample.Addition → Prop
  | .pos _ | .neg _ => True
  | .ex _ a | .uni _ a => P a

section Exact

variable (lib : Library)
  (image : TransducerAutomaton → Automaton → Option Automaton)
  (sp : SafetyProblem)

/-- The library may pick the word as an example of the language. -/
def Library.Picks (language : Set Word) (u : Word) : Prop :=
  ∃ a, a.HonestFlag ∧ a.lang = language ∧ lib.getShortestExample a = some u

/-- The word of the counter-example is picked among the violations of its
condition, and the conditions before it hold. -/
def Library.Picked (set : Set Word) : Sample.Addition → Prop
  | .pos u => lib.Picks (sp.aI.lang \ set) u
  | .neg u => sp.aI.lang ⊆ set ∧ lib.Picks (set \ sp.aF.lang) u
  | .ex u _ => sp.Between set ∧ lib.Picks (sp.stuck set) u
  | .uni u _ => sp.Between set ∧ sp.stuck set = ∅ ∧ lib.Picks (sp.leaving set) u

/-- The successors of the word are computed as documented. -/
structure ConsequenceExact (u : Word) : Prop where
  literal : lib.Literal u
  exact : ∀ word, lib.regExp u = some word → ImageExact image sp.tE word

variable (cdfa : Automaton)

/-- The images that decide the verdict are exact, each if it is asked for: that
for the third condition behind the first two, that for the fourth one behind
the third. -/
structure ChecksExact : Prop where
  existential : sp.Between cdfa.lang →
    ∀ inverse, sp.tE.invert = some inverse → ImageExact image inverse cdfa
  universal : sp.Between cdfa.lang → sp.stuck cdfa.lang = ∅ →
    ∀ inverse, sp.tE.invert = some inverse →
      ImageExact image inverse (a4a lib sp cdfa)

/-- Moreover the successors of the word that is found are computed as
documented. -/
structure RoundExact : Prop extends ChecksExact lib image sp cdfa where
  stuck : sp.Between cdfa.lang → ∀ u, lib.Picks (sp.stuck cdfa.lang) u →
    ConsequenceExact lib image sp u
  leaving : sp.Between cdfa.lang → sp.stuck cdfa.lang = ∅ →
    ∀ u, lib.Picks (sp.leaving cdfa.lang) u →
      ConsequenceExact lib image sp u

end Exact

section Answer

variable {lib : Library}
  {image : TransducerAutomaton → Automaton → Option Automaton}
  {sp : SafetyProblem} {cdfa : Automaton} {s after : Sample}

/-- The automaton of an implication counter-example accepts the successors. -/
theorem consequence_spec {u : Word} (exact : ConsequenceExact lib image sp u)
    {a : Automaton} (isConsequence : consequence lib image sp u = some a) :
    ClassInvariants a ∧ a.lang = sp.game.successors u := by
  rcases Option.bind_eq_some_iff.mp isConsequence with ⟨word, isWord, isImage⟩
  rcases exact.exact word isWord a isImage with ⟨invariants, same⟩
  refine ⟨invariants, ?_⟩
  rw [same, (exact.literal word isWord).2]
  ext v
  simp [TransducerAutomaton.mem_relImage, SafetyGame.successors,
    SafetyProblem.game]

variable (correct : lib.Correct) (honest : cdfa.HonestFlag)
include correct honest

/-- A call with exact images succeeds on winning sets only, and it leaves the
sample. -/
theorem checkIfWinningSet_true (relates : sp.RelatesVertices)
    (exact : ChecksExact lib image sp cdfa)
    (returns : checkIfWinningSet lib image sp cdfa s = some (true, after)) :
    after = s ∧ Winning sp.game cdfa.lang := by
  generalize isResult : (true, after) = result at returns
  cases checkIfWinningSet_cases returns with
  | initial | safe | existential | universal =>
      exact absurd (Prod.mk.inj isResult).1.symm Bool.false_ne_true
  | passes starts stays isStuck moves isLeaving closed =>
      rcases Prod.mk.inj isResult with ⟨_, rfl⟩
      have between : sp.Between cdfa.lang :=
        between_of_isEmpty correct honest starts stays
      have noneStuck := lang_of_isEmpty moves
      rw [(a3c_spec correct honest (exact.existential between) isStuck).2]
        at noneStuck
      have noneLeaving := lang_of_isEmpty closed
      rw [(a4c_spec correct honest (exact.universal between noneStuck)
        isLeaving).2] at noneLeaving
      exact ⟨rfl, (sp.winning_iff relates).mpr
        ⟨between, noneStuck, noneLeaving⟩⟩

/-- A call with exact images fails on a set that is not winning. -/
theorem checkIfWinningSet_not_winning (relates : sp.RelatesVertices)
    (exact : ChecksExact lib image sp cdfa)
    (returns : checkIfWinningSet lib image sp cdfa s = some (false, after)) :
    ¬ Winning sp.game cdfa.lang := by
  intro wins
  rcases (sp.winning_iff relates).mp wins with ⟨between, noneStuck, noneLeaving⟩
  generalize isResult : (false, after) = result at returns
  cases checkIfWinningSet_cases returns with
  | initial found picked =>
      have a1Spec : _ ∧ (a1 lib sp cdfa).lang = _ := a1_spec correct honest
      have member := correct.getShortestExample _ _ a1Spec.1 picked
      rw [a1Spec.2] at member
      exact member.2 (between.1 member.1)
  | safe starts found picked =>
      have a2Spec : _ ∧ (a2 lib sp cdfa).lang = _ := a2_spec correct honest
      have member := correct.getShortestExample _ _ a2Spec.1 picked
      rw [a2Spec.2] at member
      exact member.2 (between.2 member.1)
  | existential starts stays isStuck found picked _ _ =>
      rcases a3c_spec correct honest (exact.existential between) isStuck with
        ⟨stuckHonest, same⟩
      have member := correct.getShortestExample _ _ stuckHonest picked
      rw [same, noneStuck] at member
      exact absurd member (Set.notMem_empty _)
  | universal starts stays isStuck moves isLeaving found picked _ _ =>
      rcases a4c_spec correct honest (exact.universal between noneStuck)
        isLeaving with ⟨leavingHonest, same⟩
      have member := correct.getShortestExample _ _ leavingHonest picked
      rw [same, noneLeaving] at member
      exact absurd member (Set.notMem_empty _)
  | passes => exact absurd (Prod.mk.inj isResult).1 Bool.false_ne_true

/-- A call with exact images that fails makes one add call, with a
counter-example to the first condition that is violated. -/
theorem checkIfWinningSet_false (exact : RoundExact lib image sp cdfa)
    (returns : checkIfWinningSet lib image sp cdfa s = some (false, after)) :
    ∃ addition, after = s.add lib.same addition ∧
      Constraint.FirstViolated sp.game cdfa.lang (constraintOf addition) ∧
        AutomatonSatisfies ClassInvariants addition ∧
          lib.Picked sp cdfa.lang addition := by
  generalize isResult : (false, after) = result at returns
  cases checkIfWinningSet_cases returns with
  | initial found picked =>
      rcases Prod.mk.inj isResult with ⟨_, rfl⟩
      have a1Spec : _ ∧ (a1 lib sp cdfa).lang = _ := a1_spec correct honest
      have member := correct.getShortestExample _ _ a1Spec.1 picked
      rw [a1Spec.2] at member
      exact ⟨_, rfl, .initial member.1 member.2, trivial,
        _, a1Spec.1, a1Spec.2, picked⟩
  | safe starts found picked =>
      rcases Prod.mk.inj isResult with ⟨_, rfl⟩
      have initial := lang_of_isEmpty starts
      rw [(a1_spec correct honest).2, Set.sdiff_eq_empty] at initial
      have a2Spec : _ ∧ (a2 lib sp cdfa).lang = _ := a2_spec correct honest
      have member := correct.getShortestExample _ _ a2Spec.1 picked
      rw [a2Spec.2] at member
      exact ⟨_, rfl, .safe initial member.1 member.2, trivial,
        initial, _, a2Spec.1, a2Spec.2, picked⟩
  | @existential _ starts stays stuck _ _ isStuck found picked isConsequence _ =>
      rcases Prod.mk.inj isResult with ⟨_, rfl⟩
      have between : sp.Between cdfa.lang :=
        between_of_isEmpty correct honest starts stays
      rcases a3c_spec correct honest (exact.existential between) isStuck with
        ⟨stuckHonest, same⟩
      have member := correct.getShortestExample _ _ stuckHonest picked
      rw [same] at member
      rcases member with ⟨inside, owned, none⟩
      have isPicked : lib.Picks (sp.stuck cdfa.lang) _ :=
        ⟨stuck, stuckHonest, same, picked⟩
      rcases consequence_spec (exact.stuck between _ isPicked) isConsequence with
        ⟨aInvariants, aLang⟩
      refine ⟨_, rfl, ?_, aInvariants, between, isPicked⟩
      rw [constraintOf, aLang]
      exact .existential between.1 between.2 inside owned none
  | @universal _ starts stays _ leaving _ _ isStuck moves isLeaving found picked
      isConsequence _ =>
      rcases Prod.mk.inj isResult with ⟨_, rfl⟩
      have between : sp.Between cdfa.lang :=
        between_of_isEmpty correct honest starts stays
      have noneStuck := lang_of_isEmpty moves
      rw [(a3c_spec correct honest (exact.existential between) isStuck).2]
        at noneStuck
      rcases a4c_spec correct honest (exact.universal between noneStuck)
        isLeaving with ⟨leavingHonest, same⟩
      have member := correct.getShortestExample _ _ leavingHonest picked
      rw [same] at member
      rcases member with ⟨owned, inside, v, ⟨_, outside⟩, edge⟩
      have isPicked : lib.Picks (sp.leaving cdfa.lang) _ :=
        ⟨leaving, leavingHonest, same, picked⟩
      rcases consequence_spec (exact.leaving between noneStuck _ isPicked)
        isConsequence with ⟨aInvariants, aLang⟩
      refine ⟨_, rfl, ?_, aInvariants, between, noneStuck, isPicked⟩
      rw [constraintOf, aLang]
      exact .universal between.1 between.2
        ((sp.stuck_eq_empty_iff).mp noneStuck) inside owned edge outside
  | passes => exact absurd (Prod.mk.inj isResult).1 Bool.false_ne_true

/-- A call with exact images accepts a winning set, and otherwise makes one add
call with a counter-example to the first condition that is violated. -/
theorem checkIfWinningSet_spec (relates : sp.RelatesVertices)
    (exact : RoundExact lib image sp cdfa) {verdict : Bool}
    (returns : checkIfWinningSet lib image sp cdfa s = some (verdict, after)) :
    verdict = true ∧ after = s ∧ Winning sp.game cdfa.lang ∨
      verdict = false ∧ ∃ addition, after = s.add lib.same addition ∧
        Constraint.FirstViolated sp.game cdfa.lang (constraintOf addition) ∧
          AutomatonSatisfies ClassInvariants addition := by
  cases verdict with
  | true =>
      exact Or.inl ⟨rfl, checkIfWinningSet_true correct honest relates
        exact.toChecksExact returns⟩
  | false =>
      rcases checkIfWinningSet_false correct honest exact returns with
        ⟨addition, same, violated, automata, _⟩
      exact Or.inr ⟨rfl, addition, same, violated, automata⟩

end Answer

end SafetyGames.Teacher
