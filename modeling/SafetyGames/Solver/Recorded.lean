import SafetyGames.Solver.Solve

/-!
# What the sample of a run records

In a run with exact images every counter-example of the sample states a fact
about the game: an initial vertex, an unsafe word, or the successors of a word.
-/

namespace SafetyGames.Solver

open SafetyGames.Transducer SafetyGames.Learner SafetyGames.Teacher
open SafetyGames.Game

/-- What is known of the counter-examples of an honest teacher. -/
def Answers (sp : SafetyProblem) : Sample.Addition → Prop
  | .pos v => v ∈ sp.game.initial
  | .neg v => v ∉ sp.game.safe ∧ ∀ c ∈ v, c ∈ sp.alphabet
  | .ex u a => (∀ c ∈ u, c ∈ sp.alphabet) ∧ ClassInvariants a ∧
      a.lang = sp.game.successors u
  | .uni u a => (∀ c ∈ u, c ∈ sp.alphabet) ∧ ClassInvariants a ∧
      a.lang = sp.game.successors u

section Answers

variable {lib : Library} {sp : SafetyProblem} {debug : Bool}
  {image : ImageFunction} {before after : Learner} {w : Automaton}

theorem answers_of_violated {set : Set Word} {addition : Sample.Addition}
    (violated : Constraint.FirstViolated sp.game set (constraintOf addition))
    (automata : AutomatonSatisfies ClassInvariants addition)
    (letters : ∀ v ∈ set, ∀ c ∈ v, c ∈ sp.alphabet) :
    Answers sp addition := by
  cases addition with
  | pos v =>
      cases violated with
      | initial isInitial _ => exact isInitial
  | neg v =>
      cases violated with
      | safe _ inside unsafeVertex => exact ⟨unsafeVertex, letters v inside⟩
  | ex u a =>
      generalize isNext : constraintOf (.ex u a) = constraint at violated
      cases violated with
      | initial | safe | universal => exact absurd isNext (by simp [constraintOf])
      | existential _ _ inside _ _ =>
          rcases Constraint.ex.inj isNext with ⟨rfl, same⟩
          exact ⟨letters u inside, automata, same⟩
  | uni u a =>
      generalize isNext : constraintOf (.uni u a) = constraint at violated
      cases violated with
      | initial | safe | existential => exact absurd isNext (by simp [constraintOf])
      | universal _ _ _ inside _ _ _ =>
          rcases Constraint.uni.inj isNext with ⟨rfl, same⟩
          exact ⟨letters u inside, automata, same⟩

/-- The words of a conjecture are over the alphabet. -/
theorem Round.letters (correct : lib.Correct) (nodup : sp.alphabet.Nodup)
    {isWinningSet : Bool}
    (round : Round lib sp debug image before w isWinningSet after) :
    ∀ v ∈ w.lang, ∀ c ∈ v, c ∈ sp.alphabet := by
  rcases round.spec correct nodup with ⟨_, ⟨M, same⟩, _⟩
  rw [same]
  exact fun v member => member.1

/-- A failed round with exact images and its answer. -/
theorem Round.rejects (correct : lib.Correct) (nodup : sp.alphabet.Nodup)
    (exact : RoundExact lib image sp w)
    (round : Round lib sp debug image before w false after) :
    ∃ addition, after.s = before.s.add lib.same addition ∧
      ¬ addition.Satisfied w.lang ∧ Answers sp addition ∧
        lib.Picked sp w.lang addition := by
  rcases checkIfWinningSet_false
    correct (round.spec correct nodup).1.honest exact round.check with
    ⟨addition, same, violated, automata, picked⟩
  exact ⟨addition, same,
    fun satisfied => violated.not_satisfied (satisfied_constraintOf.mpr satisfied),
    answers_of_violated violated automata (round.letters correct nodup), picked⟩

theorem Solving.letters (correct : lib.Correct) (nodup : sp.alphabet.Nodup)
    {iterations : List Iteration} {learner : Learner}
    (solving : Solving lib sp debug iterations learner) :
    ∀ iteration ∈ iterations, ∀ v ∈ iteration.w.lang, ∀ c ∈ v,
      c ∈ sp.alphabet := by
  induction solving with
  | start => exact fun _ member => absurd member List.not_mem_nil
  | round _ iteration round induction =>
      exact List.forall_mem_append.mpr ⟨induction,
        List.forall_mem_singleton.mpr (round.letters correct nodup)⟩

/-- While the images are exact the sample records facts about the game. -/
theorem Solving.answers (correct : lib.Correct) (nodup : sp.alphabet.Nodup)
    {iterations : List Iteration} {learner : Learner}
    (solving : Solving lib sp debug iterations learner)
    (exact : ∀ iteration ∈ iterations,
      RoundExact lib iteration.image sp iteration.w) :
    ∀ addition, learner.s.Records addition → Answers sp addition := by
  induction solving with
  | start =>
      intro addition recorded
      cases addition <;> exact absurd recorded List.not_mem_nil
  | round _ iteration round induction =>
      rcases List.forall_mem_append.mp exact with ⟨earlier, now⟩
      rw [List.forall_mem_singleton] at now
      rcases round.rejects correct nodup now with
        ⟨addition, same, _, answer, _⟩
      intro other recorded
      rw [same] at recorded
      rcases Sample.records_add recorded with old | rfl
      · exact induction earlier other old
      · exact answer

/-- Automata that were found equal accept the same words. -/
theorem lang_of_same (correct : lib.Correct) {a b : Automaton}
    (first : ClassInvariants a) (second : ClassInvariants b)
    (same : lib.same a b = true) : a.lang = b.lang := by
  rw [Library.same] at same
  cases answer : lib.equals a b with
  | none =>
      rw [answer] at same
      exact absurd same Bool.false_ne_true
  | some equal =>
      rw [answer] at same
      exact correct.equals a b first second (same ▸ answer)

/-- The automata of recorded counter-examples meet the law of `equals`. -/
theorem satisfied_of_consistent_add (correct : lib.Correct) {s : Sample}
    (answers : ∀ addition, s.Records addition → Answers sp addition)
    {addition : Sample.Addition} (answer : Answers sp addition)
    {language : Set Word}
    (consistent : (s.add lib.same addition).Consistent language) :
    addition.Satisfied language := by
  refine consistent.satisfied fun u a b recorded same => ?_
  rcases recorded with ⟨rfl, member⟩ | ⟨rfl, member⟩
  · exact lang_of_same correct answer.2.1 (answers (.ex u b) member).2.1 same
  · exact lang_of_same correct answer.2.1 (answers (.uni u b) member).2.1 same

/-- The successors of a word are over the alphabet, and so is the automaton
that accepts them. -/
theorem overAlphabet_of_successors (relates : sp.RelatesVertices)
    (vertices : sp.OverAlphabet) (spread : NoConsecutive sp.alphabet)
    {u : Word} {a : Automaton} (invariants : ClassInvariants a)
    (same : a.lang = sp.game.successors u) :
    OverAlphabet sp.alphabet a := by
  refine invariants.overAlphabet spread fun v member => ?_
  rw [same] at member
  exact vertices v (relates u v member).2

end Answers

end SafetyGames.Solver
