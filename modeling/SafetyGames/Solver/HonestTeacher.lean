import SafetyGames.Solver.Recorded
import SafetyGames.Teacher.Reference

/-!
# An honest teacher over whole runs

With `image` at its documented meaning the counter-examples of a run exclude
no winning set, and each of them is violated by the conjecture it answers.
-/

namespace SafetyGames.Solver

open SafetyGames.Transducer SafetyGames.Learner SafetyGames.Teacher
open SafetyGames.Game SafetyGames.LabelledPath

section Honest

variable {lib : Library} {sp : SafetyProblem} {debug : Bool}
  {iterations : List Iteration} {learner : Learner}

/-- With images at their documented meaning the rounds of a run are exact. -/
theorem Solving.exact (correct : lib.Correct) (nodup : sp.alphabet.Nodup)
    (literal : ∀ u, (∀ c ∈ u, c ∈ sp.alphabet) → lib.Literal u)
    (solving : Solving lib sp debug iterations learner)
    (documented : ∀ iteration ∈ iterations,
      Documented debug iteration.image) :
    ∀ iteration ∈ iterations,
      RoundExact lib iteration.image sp iteration.w :=
  fun iteration member => (documented iteration member).roundExact correct
    (fun u inside =>
      literal u (solving.letters correct nodup iteration member u inside))
    (solving.conjectured correct nodup iteration member)

end Honest

/-- The relation `{(ε, ε)}`. -/
def emptyWordTransducer : TransducerAutomaton where
  states := [⟨true, []⟩]
  initial := 0
  initial_lt := Nat.one_pos
  closed := by simp [TransducerHeap.Closed]

theorem emptyWordTransducer_rel {u v : Word}
    (related : emptyWordTransducer.Rel u v) : u = [] ∧ v = [] := by
  rcases related with ⟨pairs, target, path, _, rfl, rfl⟩
  cases path with
  | nil => exact ⟨rfl, rfl⟩
  | cons head _ => exact absurd head List.not_mem_nil

/-- The empty word is the only vertex; player 0 owns it and loops on it. -/
def loopGame : SafetyProblem where
  alphabet := [97]
  aV0 := Automaton.makeString []
  aV1 := Automaton.makeEmpty
  aI := Automaton.makeString []
  aF := Automaton.makeString []
  tE := emptyWordTransducer
  aV0_invariants := makeString_invariants []
  aV1_invariants := makeEmpty_invariants
  aI_invariants := makeString_invariants []
  aF_invariants := makeString_invariants []

theorem loopGame_relates : loopGame.RelatesVertices := by
  intro u v related
  rcases emptyWordTransducer_rel related with ⟨rfl, rfl⟩
  simp [loopGame]

/-- The complete automaton with one state that accepts no word. -/
def noWords : DFA JChar (Fin 1) where
  step p _ := p
  start := 0
  accept := ∅

theorem dfaLang_noWords (alphabet : List JChar) :
    dfaLang alphabet noWords = ∅ :=
  Set.eq_empty_of_forall_notMem fun _ member => member.2

theorem empty_over (alphabet : List JChar) : Sample.empty.Over alphabet where
  letters := by simp [Sample.words, Sample.empty]
  ex := fun _ member => absurd member List.not_mem_nil
  uni := fun _ member => absurd member List.not_mem_nil
  disjoint := fun _ member => absurd member List.not_mem_nil

/-- The first round on a game with the initial vertex `ε` may conjecture no
word at all. -/
theorem first_round {sp : SafetyProblem} (letters : sp.alphabet = [97])
    (initial : sp.aI = Automaton.makeString []) (preferred : List Automaton)
    (image : ImageFunction) :
    ∃ w : Automaton, w = pick preferred ∅ ∧
      Round (reference preferred) sp false image Learner.new w false
        ⟨1, Learner.new.s.addPos []⟩ := by
  have short : ShortConsistent Sample.empty 1 (dfaLang [97] noWords) :=
    ⟨Sample.consistent_empty _, fun _ member => absurd member List.not_mem_nil,
      fun _ member => absurd member List.not_mem_nil⟩
  rcases short.search (by decide) (empty_over [97]) with ⟨dfa, search, same⟩
  have correct := reference_correct preferred
  have conjecture : (reference preferred).minimize dfa =
      some (pick preferred dfa.lang) := rfl
  rcases correct.minimize dfa _ (search.spec (by decide)).1
    (not_deadLoop_of_singleChars search.singleChars) conjecture with
    ⟨invariants, lang⟩
  rw [dfaLang_noWords] at same
  rw [same] at conjecture invariants lang
  have only : (a1 (reference preferred) sp (pick preferred ∅)).lang = {[]} := by
    rw [(a1_spec correct invariants.honest).2, lang, Set.sdiff_empty, initial,
      Automaton.lang_makeString]
  have found : isEmpty (a1 (reference preferred) sp (pick preferred ∅)) =
      false := by
    rw [← Bool.not_eq_true]
    intro empty
    exact Set.singleton_ne_empty [] (only.symm.trans (lang_of_isEmpty empty))
  rw [← letters] at search
  refine ⟨_, rfl, ⟨[1], dfa, search, conjecture⟩, ?_⟩
  exact (Checked.initial found (reference_shortest_singleton only)).returns

end SafetyGames.Solver
