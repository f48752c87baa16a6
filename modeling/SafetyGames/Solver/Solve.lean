import SafetyGames.Learner.Conjecture
import SafetyGames.Teacher.CheckIfWinningSet

/-!
# The solving loop

`Main.solve`: the learner conjectures, the teacher checks, until the check
succeeds.  A run is the list of its rounds; every round may read its images
with other orders of the hash sets, so that each carries an `image` of its own.
-/

namespace SafetyGames.Solver

open SafetyGames.Transducer SafetyGames.Learner SafetyGames.Teacher
open SafetyGames.Game

/-! ## Runs -/

/-- The function that a round calls `image`. -/
abbrev ImageFunction :=
  TransducerAutomaton → Automaton → Option Automaton

/-- One iteration of the loop with its conjecture and its answer. -/
structure Round (lib : Library) (sp : SafetyProblem) (debug : Bool)
    (image : ImageFunction) (before : Learner) (w : Automaton)
    (isWinningSet : Bool) (after : Learner) : Prop where
  conjecture : ∃ tried dfa,
    Search sp.alphabet debug before.s before.n tried after.n dfa ∧
      (if debug then some dfa else lib.minimize dfa) = some w
  check : checkIfWinningSet lib image sp w before.s =
    some (isWinningSet, after.s)

/-- A finished iteration: its images and its conjecture. -/
structure Iteration where
  image : ImageFunction
  w : Automaton

/-- The state of the learner after a number of iterations that found no winning set. -/
inductive Solving (lib : Library) (sp : SafetyProblem) (debug : Bool) :
    List Iteration → Learner → Prop where
  | start : Solving lib sp debug [] Learner.new
  | round {iterations : List Iteration} {before after : Learner}
      (earlier : Solving lib sp debug iterations before)
      (iteration : Iteration)
      (round : Round lib sp debug iteration.image before iteration.w false
        after) :
      Solving lib sp debug (iterations ++ [iteration]) after

/-- `solve(sp)` returns the automaton after the iterations. -/
def Returns (lib : Library) (sp : SafetyProblem) (debug : Bool)
    (iterations : List Iteration) (image : ImageFunction) (w : Automaton) :
    Prop :=
  ∃ before after, Solving lib sp debug iterations before ∧
    Round lib sp debug image before w true after

section Rounds

variable {lib : Library} {sp : SafetyProblem} {debug : Bool}
  {image : ImageFunction} {before after : Learner} {w : Automaton}
  {isWinningSet : Bool}

/-- A check makes at most one add call. -/
theorem checkIfWinningSet_add {s afterS : Sample} {verdict : Bool}
    (returns : checkIfWinningSet lib image sp w s = some (verdict, afterS)) :
    verdict = true ∧ afterS = s ∨
      verdict = false ∧ ∃ addition, afterS = s.add lib.same addition := by
  generalize isResult : (verdict, afterS) = result at returns
  cases checkIfWinningSet_cases returns with
  | initial | safe | existential | universal =>
      rcases Prod.mk.inj isResult with ⟨rfl, rfl⟩
      exact Or.inr ⟨rfl, _, rfl⟩
  | passes =>
      rcases Prod.mk.inj isResult with ⟨rfl, rfl⟩
      exact Or.inl ⟨rfl, rfl⟩

/-- The runs of the loop are sessions of the learner. -/
theorem Solving.session {iterations : List Iteration} {learner : Learner}
    (solving : Solving lib sp debug iterations learner) :
    ∃ problems, Session sp.alphabet debug problems learner := by
  induction solving with
  | start => exact ⟨[], Session.new⟩
  | round earlier iteration round induction =>
      rcases induction with ⟨problems, session⟩
      rcases round.conjecture with ⟨tried, dfa, search, _⟩
      rcases checkIfWinningSet_add round.check with
        ⟨isTrue, _⟩ | ⟨_, addition, same⟩
      · exact absurd isTrue Bool.false_ne_true
      · have next := (session.conjecture search).add lib.same addition
        rw [← same] at next
        exact ⟨_, next⟩

/-- What is known of a conjecture: it is minimized in the normal mode. -/
structure Conjectured (debug : Bool) (w : Automaton) : Prop where
  honest : w.HonestFlag
  invariants : debug = false → ClassInvariants w

/-- A conjecture is deterministic, as its flag says, and it is consistent with
the sample as far as this can be asked of it. -/
theorem Round.spec (correct : lib.Correct) (nodup : sp.alphabet.Nodup)
    (round : Round lib sp debug image before w isWinningSet after) :
    Conjectured debug w ∧
      (∃ M : DFA JChar (Fin after.n), w.lang = dfaLang sp.alphabet M) ∧
      ((∀ word ∈ before.s.pos, word ∉ before.s.neg) →
        (∀ cu ∈ before.s.uni, OverAlphabet sp.alphabet cu.a) →
        before.s.Consistent w.lang) := by
  rcases round.conjecture with ⟨tried, dfa, search, isConjecture⟩
  have spec := search.spec nodup
  cases debug with
  | true =>
      rcases Option.some.inj isConjecture with rfl
      exact ⟨⟨spec.1, fun normal => absurd normal (by decide)⟩, spec.2⟩
  | false =>
      rcases correct.minimize dfa w spec.1
        (not_deadLoop_of_singleChars search.singleChars) isConjecture with
        ⟨invariants, same⟩
      rw [same]
      exact ⟨⟨invariants.honest, fun _ => invariants⟩, spec.2⟩

/-- The conjectures of a run. -/
theorem Solving.conjectured (correct : lib.Correct) (nodup : sp.alphabet.Nodup)
    {iterations : List Iteration} {learner : Learner}
    (solving : Solving lib sp debug iterations learner) :
    ∀ iteration ∈ iterations, Conjectured debug iteration.w := by
  induction solving with
  | start => exact fun _ member => absurd member List.not_mem_nil
  | round _ iteration round induction =>
      exact List.forall_mem_append.mpr ⟨induction,
        List.forall_mem_singleton.mpr (round.spec correct nodup).1⟩

end Rounds

/-! ## An honest teacher -/

/-- `image` at its documented meaning, on the automata of a run. -/
def Documented (debug : Bool) (image : ImageFunction) : Prop :=
  ∀ ta a, Conjectured debug a → ImageExact image ta a

section Honest

variable {lib : Library} {sp : SafetyProblem} {debug : Bool}

/-- With images at their documented meaning all images of a round are exact. -/
theorem Documented.roundExact {image : ImageFunction}
    (documented : Documented debug image) (correct : lib.Correct)
    {w : Automaton} (literal : ∀ u ∈ w.lang, lib.Literal u)
    (conjectured : Conjectured debug w) : RoundExact lib image sp w := by
  have complement : Conjectured debug (a4a lib sp w) := by
    have union := (correct.union _ _ sp.aV0_invariants sp.aV1_invariants).1
    have minus := correct.minus _ _ union.honest conjectured.honest
    exact ⟨minus.1, fun normal =>
      minus.2.2 union (conjectured.invariants normal)⟩
  have consequence : ∀ u ∈ w.lang, ConsequenceExact lib image sp u := by
    intro u member
    refine ⟨literal u member, fun word isWord => documented sp.tE word ?_⟩
    have invariants := (literal u member word isWord).1
    exact ⟨invariants.honest, fun _ => invariants⟩
  have inside : ∀ {language : Set Word} {u : Word}, language ⊆ w.lang →
      lib.Picks language u → u ∈ w.lang := by
    rintro _ u within ⟨a, honest, rfl, picked⟩
    exact within (correct.getShortestExample a u honest picked)
  exact
    { existential := fun _ inverse _ => documented inverse w conjectured
      universal := fun _ _ inverse _ => documented inverse _ complement
      stuck := fun _ u picked =>
        consequence u (inside (fun _ member => member.1) picked)
      leaving := fun _ _ u picked =>
        consequence u (inside (fun _ member => member.2.1) picked) }

/-- A round with exact images and its answer. -/
theorem Round.answer {image : ImageFunction} {before after : Learner}
    {w : Automaton} {isWinningSet : Bool} (correct : lib.Correct)
    (nodup : sp.alphabet.Nodup) (relates : sp.RelatesVertices)
    (exact : RoundExact lib image sp w)
    (round : Round lib sp debug image before w isWinningSet after) :
    isWinningSet = true ∧ after.s = before.s ∧ Winning sp.game w.lang ∨
      isWinningSet = false ∧ ∃ addition,
        after.s = before.s.add lib.same addition ∧
        Constraint.FirstViolated sp.game w.lang (constraintOf addition) ∧
          AutomatonSatisfies ClassInvariants addition :=
  checkIfWinningSet_spec correct (round.spec correct nodup).1.honest relates
    exact round.check

/-- While the images are exact no counter-example excludes a winning set. -/
theorem Solving.consistent (correct : lib.Correct)
    (nodup : sp.alphabet.Nodup) (relates : sp.RelatesVertices)
    {iterations : List Iteration} {learner : Learner}
    (solving : Solving lib sp debug iterations learner)
    (exact : ∀ iteration ∈ iterations,
      RoundExact lib iteration.image sp iteration.w)
    {winning : Set Word} (wins : Winning sp.game winning) :
    learner.s.Consistent winning := by
  induction solving with
  | start => exact Sample.consistent_empty winning
  | round earlier iteration round induction =>
      rcases List.forall_mem_append.mp exact with ⟨before, now⟩
      rw [List.forall_mem_singleton] at now
      rcases round.answer correct nodup relates now with
        ⟨isTrue, _⟩ | ⟨_, addition, same, violated, _⟩
      · exact absurd isTrue Bool.false_ne_true
      · rw [same]
        exact (induction before).add (satisfied_constraintOf.mp
          (violated.satisfied_of_winning wins))

end Honest

end SafetyGames.Solver
