import SafetyGames.Learner.Resume
import SafetyGames.Solver.HonestTeacher
import SafetyGames.Solver.Recorded

/-!
# Termination on solvable games

A winning set that a complete automaton with `N` states recognises is
consistent with every sample of a run, and with `N + 1` states all its
witnesses are short enough for the length index.  So no search passes `N + 1`,
and only finitely many languages can be conjectured.  In the debug mode this
needs that no names clash: two existential counter-examples that share their
cells can be unsatisfiable for every number of states.
-/

namespace SafetyGames.Solver

open SafetyGames.Transducer SafetyGames.Learner SafetyGames.Teacher
open SafetyGames.Game SafetyGames.LabelledPath

/-! ## Solvable games -/

section Solvable

variable {lib : Library} {sp : SafetyProblem} {debug : Bool}
  {iterations : List Iteration} {learner : Learner} {N : Nat}
  {M : DFA JChar (Fin N)}

/-- The samples of a run on a solvable game are over the alphabet. -/
theorem over_of_answers (relates : sp.RelatesVertices)
    (vertices : sp.OverAlphabet) (spread : NoConsecutive sp.alphabet)
    (wins : Winning sp.game (dfaLang sp.alphabet M)) {s : Sample}
    (answers : ∀ addition, s.Records addition → Answers sp addition) :
    s.Over sp.alphabet where
  letters := by
    intro word member
    simp only [Sample.words, List.mem_append, List.mem_map] at member
    rcases member with ((inPos | inNeg) | ⟨cu, inUni, rfl⟩) | ⟨ce, inEx, rfl⟩
    · exact (wins.initial (answers (.pos word) inPos)).1
    · exact (answers (.neg word) inNeg).2
    · exact (answers (.uni cu.u cu.a) inUni).1
    · exact (answers (.ex ce.u ce.a) inEx).1
  ex := fun ce member =>
    overAlphabet_of_successors relates vertices spread
      (answers (.ex ce.u ce.a) member).2.1 (answers (.ex ce.u ce.a) member).2.2
  uni := fun cu member =>
    overAlphabet_of_successors relates vertices spread
      (answers (.uni cu.u cu.a) member).2.1
      (answers (.uni cu.u cu.a) member).2.2
  disjoint := fun word inPos inNeg =>
    (answers (.neg word) inNeg).1
      (wins.safe (wins.initial (answers (.pos word) inPos)))

variable (correct : lib.Correct) (nodup : sp.alphabet.Nodup)
  (relates : sp.RelatesVertices) (vertices : sp.OverAlphabet)
  (spread : NoConsecutive sp.alphabet)
  (wins : Winning sp.game (dfaLang sp.alphabet M))
  (solving : Solving lib sp debug iterations learner)
  (exact : ∀ iteration ∈ iterations,
    RoundExact lib iteration.image sp iteration.w)
include correct nodup relates vertices spread wins solving exact

theorem Solving.within : learner.s.Over sp.alphabet :=
  over_of_answers relates vertices spread wins
    (solving.answers correct nodup exact)

/-- One state more than the winning set needs is enough while the names are
apart. -/
theorem Solving.satisfiable (apart : NamesApart sp.alphabet debug learner.s)
    (order : StateOrder) :
    Satisfiable order sp.alphabet debug learner.s (N + 1) := by
  have within := solving.within correct nodup relates vertices spread wins exact
  have consistent := solving.consistent correct nodup relates exact wins
  exact apart.satisfiable within
    ⟨padded M, shortConsistent_padded within consistent⟩ order

/-- The searches of a run do not pass that number of states. -/
theorem Solving.small (apart : NamesApart sp.alphabet debug learner.s) :
    learner.n ≤ N + 1 := by
  induction solving with
  | start => exact Nat.succ_le_succ (Nat.zero_le N)
  | @round _ before _ earlier iteration round induction =>
      have exactBefore := (List.forall_mem_append.mp exact).1
      -- The sample of the search is the one before the addition.
      have apartBefore : NamesApart sp.alphabet debug before.s := by
        rcases checkIfWinningSet_add round.check with
          ⟨isTrue, _⟩ | ⟨_, addition, same⟩
        · exact absurd isTrue Bool.false_ne_true
        · rw [same] at apart
          exact apart.of_add
      rcases round.conjecture with ⟨tried, dfa, search, _⟩
      exact search.le_of_satisfiable
        (earlier.satisfiable correct nodup relates vertices spread wins
          exactBefore apartBefore)
        (induction exactBefore apartBefore)

end Solvable

/-! ## No infinite run -/

/-- An infinite sequence of failed rounds with documented images. -/
structure Endless (lib : Library) (sp : SafetyProblem) (debug : Bool)
    (learner : ℕ → Learner) (image : ℕ → ImageFunction) (w : ℕ → Automaton) :
    Prop where
  start : learner 0 = Learner.new
  documented : ∀ i, Documented debug (image i)
  round : ∀ i, Round lib sp debug (image i) (learner i) (w i) false
    (learner (i + 1))

section Endless

variable {lib : Library} {sp : SafetyProblem} {debug : Bool}
  {learner : ℕ → Learner} {image : ℕ → ImageFunction} {w : ℕ → Automaton}

/-- The rounds of an endless run up to some point are a run. -/
theorem Endless.solving (endless : Endless lib sp debug learner image w)
    (i : ℕ) :
    ∃ iterations, Solving lib sp debug iterations (learner i) ∧
      ∀ iteration ∈ iterations, Documented debug iteration.image := by
  induction i with
  | zero =>
      rw [endless.start]
      exact ⟨[], Solving.start, fun _ member => absurd member List.not_mem_nil⟩
  | succ i induction =>
      rcases induction with ⟨iterations, solving, documented⟩
      exact ⟨_, solving.round ⟨image i, w i⟩ (endless.round i),
        List.forall_mem_append.mpr ⟨documented,
          List.forall_mem_singleton.mpr (endless.documented i)⟩⟩

theorem Endless.included (endless : Endless lib sp debug learner image w)
    {i j : ℕ} (before : i ≤ j) : (learner i).s.Included (learner j).s := by
  induction j, before using Nat.le_induction with
  | base => exact Sample.Included.refl _
  | succ j _ induction =>
      rcases checkIfWinningSet_add (endless.round j).check with
        ⟨isTrue, _⟩ | ⟨_, addition, same⟩
      · exact absurd isTrue Bool.false_ne_true
      · rw [same]
        exact induction.trans Sample.included_add

/-- On a solvable game every round excludes its own conjecture for ever, and
while the names are apart there are finitely many languages to conjecture. -/
theorem Endless.not_solvable (correct : lib.Correct)
    (nodup : sp.alphabet.Nodup) (spread : NoConsecutive sp.alphabet)
    (literal : ∀ u, (∀ c ∈ u, c ∈ sp.alphabet) → lib.Literal u)
    (relates : sp.RelatesVertices) (vertices : sp.OverAlphabet) {N : Nat}
    {M : DFA JChar (Fin N)} (wins : Winning sp.game (dfaLang sp.alphabet M))
    (endless : Endless lib sp debug learner image w)
    (apart : ∀ i, NamesApart sp.alphabet debug (learner i).s) : False := by
  choose iterations solving documented using endless.solving
  have exact := fun i =>
    (solving i).exact correct nodup literal (documented i)
  have roundExact : ∀ i, RoundExact lib (image i) sp (w i) := fun i =>
    (endless.documented i).roundExact correct
      (fun u member =>
        literal u ((endless.round i).letters correct nodup u member))
      ((endless.round i).spec correct nodup).1
  have answers := fun i => (solving i).answers correct nodup (exact i)
  have within := fun i => (solving i).within correct nodup relates vertices spread
    wins (exact i)
  choose addition same violated answer _ using
    fun i => (endless.round i).rejects correct nodup (roundExact i)
  have consistent : ∀ i, (learner i).s.Consistent (w i).lang := fun i =>
    ((endless.round i).spec correct nodup).2.2 (within i).disjoint (within i).uni
  have excluded : ∀ i, ¬ (constraintOf (addition i)).Satisfied (w i).lang :=
    fun i satisfied => violated i (satisfied_constraintOf.mp satisfied)
  have kept : ∀ i j, i < j →
      (constraintOf (addition i)).Satisfied (w j).lang := by
    intro i j less
    have later := (consistent j).of_included (endless.included less)
    rw [same i] at later
    exact satisfied_constraintOf.mpr
      (satisfied_of_consistent_add correct (answers i) (answer i) later)
  refine not_forever excluded kept (finite_dfaLang sp.alphabet (N + 1))
    fun i => ?_
  rcases ((endless.round i).spec correct nodup).2.1 with ⟨M, recognised⟩
  exact ⟨_, (solving (i + 1)).small correct nodup relates vertices spread
    wins (exact (i + 1)) (apart (i + 1)), M, recognised⟩

end Endless

/--
On a game with a regular winning set the loop ends, and so does every search,
as long as the names of the problems are apart.  In the normal mode they always
are.
-/
theorem solve_terminates {lib : Library} {sp : SafetyProblem} (debug : Bool)
    (correct : lib.Correct) (nodup : sp.alphabet.Nodup)
    (spread : NoConsecutive sp.alphabet)
    (literal : ∀ u, (∀ c ∈ u, c ∈ sp.alphabet) → lib.Literal u)
    (relates : sp.RelatesVertices) (vertices : sp.OverAlphabet) {N : Nat}
    (M : DFA JChar (Fin N)) (wins : Winning sp.game (dfaLang sp.alphabet M)) :
    (∀ learner image w, Endless lib sp debug learner image w →
      ¬ ∀ i, NamesApart sp.alphabet debug (learner i).s) ∧
      (∀ (iterations : List Iteration) (learner : Learner),
        Solving lib sp debug iterations learner →
        (∀ iteration ∈ iterations, Documented debug iteration.image) →
        NamesApart sp.alphabet debug learner.s →
        ¬ ∀ m, learner.n ≤ m →
          ∃ order, Unsatisfiable order sp.alphabet debug learner.s m) ∧
      ∀ s, NamesApart sp.alphabet false s := by
  refine ⟨?_, ?_, fun _ => Or.inl rfl⟩
  · intro learner image w endless
    exact endless.not_solvable correct nodup spread literal relates vertices wins
  · intro iterations learner solving documented apart searching
    have exact := solving.exact correct nodup literal documented
    rcases searching (N + 1)
      (solving.small correct nodup relates vertices spread wins exact apart) with
      ⟨order, unsatisfiable⟩
    exact (solving.satisfiable correct nodup relates vertices spread wins exact
      apart order).not_unsatisfiable unsatisfiable

/-- The automaton with two states that accepts only the empty word. -/
def onlyEmptyWord : DFA JChar (Fin 2) where
  step _ _ := 1
  start := 0
  accept := {0}

theorem dfaLang_onlyEmptyWord (alphabet : List JChar) :
    dfaLang alphabet onlyEmptyWord = {[]} := by
  have stays : ∀ word, onlyEmptyWord.evalFrom 1 word = 1 := by
    intro word
    induction word with
    | nil => rfl
    | cons c word induction => exact induction
  ext word
  cases word with
  | nil => exact iff_of_true ⟨by simp, rfl⟩ rfl
  | cons c word =>
      refine iff_of_false (fun member => ?_) (List.cons_ne_nil c word)
      have last : onlyEmptyWord.evalFrom 1 word = 0 := member.2
      rw [stays] at last
      exact absurd last (by decide)

theorem loopGame_winning :
    Winning loopGame.game (dfaLang [97] onlyEmptyWord) := by
  rw [dfaLang_onlyEmptyWord]
  have only : (Automaton.makeString []).lang = {[]} :=
    Automaton.lang_makeString []
  refine ⟨only.subset, only.superset, ?_, ?_⟩
  · rintro u rfl _
    exact ⟨[], rfl, [], 0, LabelledPath.Path.nil 0, rfl, rfl, rfl⟩
  · intro u _ owned
    rw [SafetyProblem.game, loopGame, Automaton.lang_makeEmpty] at owned
    exact absurd owned (Set.notMem_empty u)

/--
On the game with one vertex, in the normal mode, there is no infinite run, and
no search of a run goes on for ever.
-/
theorem solve_terminates_loopGame :
    (¬ ∃ learner image w,
      Endless (reference []) loopGame false learner image w) ∧
      ∀ (iterations : List Iteration) (learner : Learner),
        Solving (reference []) loopGame false iterations learner →
        (∀ iteration ∈ iterations, Documented false iteration.image) →
        ¬ ∀ m, learner.n ≤ m →
          ∃ order, Unsatisfiable order [97] false learner.s m := by
  have vertices : loopGame.OverAlphabet := by
    intro u member
    rw [loopGame, Automaton.lang_makeString, Automaton.lang_makeEmpty,
      Set.union_empty, Set.mem_singleton_iff] at member
    exact member ▸ fun _ inWord => absurd inWord List.not_mem_nil
  have spread : NoConsecutive loopGame.alphabet :=
    List.forall_mem_singleton.mpr (by decide)
  rcases solve_terminates false (reference_correct []) (by decide) spread
    (fun u _ => reference_literal [] u) loopGame_relates vertices
    onlyEmptyWord loopGame_winning with ⟨ends, finds, apart⟩
  constructor
  · rintro ⟨learner, image, w, endless⟩
    exact ends learner image w endless fun i => apart (learner i).s
  · intro iterations learner solving documented
    exact finds iterations learner solving documented (apart learner.s)

/-! ## A run of the debug mode -/

/-- A rejecting state with two transitions. -/
theorem acceptsFrom_two {ta : TransducerAutomaton} {source : Nat}
    {first second : TransducerTransition}
    (only : ta.state source = ⟨false, [first, second]⟩) {u v : Word} :
    ta.AcceptsFrom source u v ↔
      (∃ restU restV, ta.AcceptsFrom first.dest restU restV ∧
        u = erase [first.pair.u] ++ restU ∧
          v = erase [first.pair.v] ++ restV) ∨
      ∃ restU restV, ta.AcceptsFrom second.dest restU restV ∧
        u = erase [second.pair.u] ++ restU ∧
          v = erase [second.pair.v] ++ restV := by
  rw [TransducerAutomaton.acceptsFrom_iff, only]
  simp only [Bool.false_eq_true, false_and, false_or, List.mem_cons,
    List.not_mem_nil, or_false, or_and_right, exists_or, exists_eq_left]

/-- The relation `{(c, cc), (cc, cc), (ε, a)}`. -/
def forkTransducer : TransducerAutomaton where
  states := [⟨false, [⟨⟨99, 99⟩, 1⟩, ⟨⟨dash, 97⟩, 2⟩]⟩,
    ⟨false, [⟨⟨dash, 99⟩, 2⟩, ⟨⟨99, 99⟩, 2⟩]⟩, ⟨true, []⟩]
  initial := 0
  initial_lt := by decide
  closed := by decide

theorem forkTransducer_rel_iff {u v : Word} :
    forkTransducer.Rel u v ↔
      (u = [99] ∨ u = [99, 99]) ∧ v = [99, 99] ∨ u = [] ∧ v = [97] := by
  have last : ∀ {u v}, forkTransducer.AcceptsFrom 2 u v ↔ u = [] ∧ v = [] := by
    intro u v
    rw [TransducerAutomaton.acceptsFrom_iff]
    simp [forkTransducer, TransducerHeap.state]
  have middle : ∀ {u v}, forkTransducer.AcceptsFrom 1 u v ↔
      (u = [] ∨ u = [99]) ∧ v = [99] := by
    intro u v
    rw [acceptsFrom_two (show forkTransducer.state 1 =
      ⟨false, [⟨⟨dash, 99⟩, 2⟩, ⟨⟨99, 99⟩, 2⟩]⟩ from rfl)]
    simp [erase, last, dash, or_and_right]
  change forkTransducer.AcceptsFrom 0 u v ↔ _
  rw [acceptsFrom_two (show forkTransducer.state 0 =
    ⟨false, [⟨⟨99, 99⟩, 1⟩, ⟨⟨dash, 97⟩, 2⟩]⟩ from rfl)]
  simp [erase, middle, last, dash, or_and_right, exists_or]

/-- The words that do not end in the letter `a`. -/
def notEndingInA : DFA JChar (Fin 2) where
  step _ c := if c = 99 then 0 else 1
  start := 0
  accept := {q | q = 0}

instance : DecidablePred (· ∈ notEndingInA.accept) :=
  fun q => inferInstanceAs (Decidable (q = 0))

instance {n : Nat} (positive : 0 < n) :
    DecidablePred (· ∈ (allWords positive).accept) :=
  fun _ => .isTrue trivial

/-- Player 0 may run through `cc` for ever, and only a word that ends in the
letter `a` is not safe. -/
def forkGame : SafetyProblem where
  alphabet := [97, 99]
  aV0 := completeAutomaton [97, 99] (allWords Nat.one_pos)
  aV1 := Automaton.makeEmpty
  aI := Automaton.makeString [99]
  aF := completeAutomaton [97, 99] notEndingInA
  tE := forkTransducer
  aV0_invariants := completeAutomaton_invariants fun _ => ⟨[], by simp, trivial⟩
  aV1_invariants := makeEmpty_invariants
  aI_invariants := makeString_invariants [99]
  aF_invariants := completeAutomaton_invariants fun _ => ⟨[99], by simp, rfl⟩

theorem forkGame_vertices {u : Word} :
    u ∈ forkGame.aV0.lang ∪ forkGame.aV1.lang ↔ ∀ c ∈ u, c ∈ [97, 99] := by
  rw [forkGame, Automaton.lang_makeEmpty, Set.union_empty, lang_completeAutomaton]
  exact ⟨fun member => member.1, mem_dfaLang_allWords⟩

theorem forkGame_relates : forkGame.RelatesVertices := by
  intro u v related
  rw [forkGame_vertices, forkGame_vertices]
  rcases forkTransducer_rel_iff.mp related with
    ⟨rfl | rfl, rfl⟩ | ⟨rfl, rfl⟩ <;> simp

/-- The words `c` and `cc`. -/
def onceOrTwice : DFA JChar (Fin 4) where
  step q c :=
    if c = 99 then (if q = 0 then 1 else if q = 1 then 2 else 3) else 3
  start := 0
  accept := {q | q = 1 ∨ q = 2}

/-- Every run stays in the last state, and reaches it on the letter `a` and after
three letters. -/
theorem mem_onceOrTwice {word : Word} :
    word ∈ dfaLang [97, 99] onceOrTwice ↔ word = [99] ∨ word = [99, 99] := by
  have lost : ∀ word : Word, onceOrTwice.evalFrom 3 word = 3 := by
    intro word
    induction word with
    | nil => rfl
    | cons c word induction =>
        have stays : onceOrTwice.step 3 c = 3 := by simp [onceOrTwice]
        rw [DFA.evalFrom_cons, stays, induction]
  have rejects : ∀ word, onceOrTwice.evalFrom 3 word ∉ onceOrTwice.accept := by
    intro word accepted
    rw [lost] at accepted
    exact absurd accepted (by simp [onceOrTwice])
  have second : ∀ word, onceOrTwice.evalFrom 2 word ∈ onceOrTwice.accept →
      word = [] := by
    intro word accepted
    cases word with
    | nil => rfl
    | cons c word =>
        have leaves : onceOrTwice.step 2 c = 3 := by simp [onceOrTwice]
        rw [DFA.evalFrom_cons, leaves] at accepted
        exact absurd accepted (rejects word)
  have first : ∀ word, onceOrTwice.evalFrom 1 word ∈ onceOrTwice.accept →
      word = [] ∨ word = [99] := by
    intro word accepted
    cases word with
    | nil => exact Or.inl rfl
    | cons c word =>
        rcases eq_or_ne c 99 with rfl | other
        · exact Or.inr (congrArg (List.cons 99) (second word accepted))
        · rw [DFA.evalFrom_cons, show onceOrTwice.step 1 c = 3 from
            if_neg other] at accepted
          exact absurd accepted (rejects word)
  constructor
  · rintro ⟨_, accepted⟩
    cases word with
    | nil => exact absurd accepted (by simp [onceOrTwice, DFA.mem_accepts])
    | cons c word =>
        rcases eq_or_ne c 99 with rfl | other
        · exact (first word accepted).imp (congrArg (List.cons 99))
            (congrArg (List.cons 99))
        · change onceOrTwice.evalFrom (onceOrTwice.step 0 c) word ∈
            onceOrTwice.accept at accepted
          rw [show onceOrTwice.step 0 c = 3 from if_neg other] at accepted
          exact absurd accepted (rejects word)
  · rintro (rfl | rfl)
    · exact ⟨by simp, Or.inl rfl⟩
    · exact ⟨by simp, Or.inr rfl⟩

theorem forkGame_winning :
    Winning forkGame.game (dfaLang [97, 99] onceOrTwice) where
  initial := by
    intro u member
    have only : u ∈ (Automaton.makeString [99]).lang := member
    rw [Automaton.lang_makeString] at only
    exact mem_onceOrTwice.mpr (Or.inl only)
  safe := by
    intro u member
    change u ∈ (completeAutomaton [97, 99] notEndingInA).lang
    rw [lang_completeAutomaton]
    rcases mem_onceOrTwice.mp member with rfl | rfl
    · exact ⟨by simp, rfl⟩
    · exact ⟨by simp, rfl⟩
  existential := by
    intro u member _
    exact ⟨[99, 99], mem_onceOrTwice.mpr (Or.inr rfl),
      forkTransducer_rel_iff.mpr (Or.inl ⟨mem_onceOrTwice.mp member, rfl⟩)⟩
  universal := by
    intro u _ owned
    rw [SafetyProblem.game, forkGame, Automaton.lang_makeEmpty] at owned
    exact absurd owned (Set.notMem_empty u)

/-- The words that end in an odd number of letters `c`. -/
def oddEnd : DFA JChar (Fin 2) where
  step q c := if c = 99 ∧ q = 0 then 1 else 0
  start := 0
  accept := {q | q = 1}

/-- The words over the letter `c`. -/
def onlyC : DFA JChar (Fin 2) where
  step q c := if c = 99 ∧ q = 0 then 0 else 1
  start := 0
  accept := {q | q = 0}

/-- An automaton that has read a letter `a` last rejects, as `notEndingInA` does. -/
theorem dfaLang_subset_safe {M : DFA JChar (Fin 2)}
    (rejects : ∀ q c, M.step q c ∈ M.accept → c = 99) :
    dfaLang [97, 99] M ⊆ forkGame.aF.lang := by
  intro word member
  change word ∈ (completeAutomaton [97, 99] notEndingInA).lang
  rw [lang_completeAutomaton]
  refine ⟨member.1, ?_⟩
  show notEndingInA.eval word ∈ notEndingInA.accept
  rcases List.eq_nil_or_concat word with rfl | ⟨before, last, rfl⟩
  · rfl
  · rw [List.concat_eq_append] at member ⊢
    have accepted : M.eval (before ++ [last]) ∈ M.accept := member.2
    rw [eval_snoc] at accepted
    rw [eval_snoc, rejects _ _ accepted]
    rfl

/-- The conjectures of the run, by their words. -/
theorem mem_oddEnd_short {word : Word} (member : word ∈ dfaLang [97, 99] oddEnd)
    (short : word.length ≤ 1) : word = [99] := by
  rcases word with _ | ⟨c, _ | ⟨d, word⟩⟩
  · exact absurd member.2 (by simp [oddEnd, DFA.mem_accepts])
  · by_contra other
    have step : oddEnd.step 0 c = 0 := if_neg fun both => other (by rw [both.1])
    have accepted : oddEnd.step 0 c = 1 := member.2
    rw [step] at accepted
    exact absurd accepted (by decide)
  · exact absurd short (by simp)

/-! ### The samples -/

/-- The words that start with `c` are asked for, the others are not. -/
def letterSample : Sample where
  pos := [[99]]
  neg := [[97]]
  ex := []
  uni := []
  size := 2

/-- The word `c` leads to `cc`. -/
def onceSample : Sample where
  pos := [[99]]
  neg := [[97]]
  ex := [⟨[99], Automaton.makeString [99, 99]⟩]
  uni := []
  size := 3

/-- The empty word leads to `a`. -/
def forkSample : Sample where
  pos := [[99]]
  neg := [[97]]
  ex := [⟨[99], Automaton.makeString [99, 99]⟩, ⟨[], Automaton.makeString [97]⟩]
  uni := []
  size := 4

theorem forkSample_over : forkSample.Over [97, 99] where
  letters := by simp [forkSample, Sample.words]
  ex := List.forall_mem_cons.mpr ⟨overAlphabet_of_states (by decide),
    List.forall_mem_singleton.mpr (overAlphabet_of_states (by decide))⟩
  uni := fun _ member => absurd member List.not_mem_nil
  disjoint := by simp [forkSample]

/-- The letters `a` and `c` lead to different states, but the cells that the two
counter-examples share ask for the same one. -/
theorem forkSample_not_satisfiable {n : Nat} (several : 2 ≤ n) :
    ¬ Satisfiable StateOrder.found [97, 99] true forkSample n := by
  rintro ⟨problem, returns, model, satisfied⟩
  have positive : 0 < n := by omega
  rcases solved_of_constructSAT positive returns satisfied with ⟨_, solved⟩
  rcases moves_existsUnique solved.total positive
    (List.mem_cons_of_mem _ List.mem_cons_self : (99 : JChar) ∈ [97, 99]) with
    ⟨q, move, _⟩
  have path := Path.single move
  have step : ∀ {word : Word} {c : JChar}, word[0]? = some c →
      (Automaton.makeString word).states.Step 0 c 1 :=
    fun letter => chainStates_step_iff.mpr ⟨letter, rfl⟩
  have walk := Path.single (step (rfl : ([99, 99] : Word)[0]? = some 99))
  have otherWalk := Path.single (step (rfl : ([97] : Word)[0]? = some 97))
  have bound : ∀ na, 2 ≤ na → ([99] : Word).length < lMax n na := by
    intro na large
    have product := Nat.mul_le_mul several large
    rw [lMax, List.length_singleton]
    omega
  rcases exists_of_shared returns satisfied
    (rfl : forkSample.ex[0]? = some ⟨[99], Automaton.makeString [99, 99]⟩)
    (rfl : forkSample.ex[1]? = some ⟨[], Automaton.makeString [97]⟩)
    (forkSample_over.ex _ List.mem_cons_self)
    (forkSample_over.ex _ (List.mem_cons_of_mem _ List.mem_cons_self))
    ⟨_, walk⟩ ⟨_, otherWalk⟩ rfl move.2.1 (bound 3 (by decide))
    (bound 2 le_rfl) path walk with ⟨twin, length, otherPath, twinWalk⟩
  obtain rfl : twin = [97] :=
    ((chainStates_path_iff (Nat.zero_le _)).mp twinWalk).2.2
  have accepted := (solved.mem_acceptedBy_iff path).mp
    (solved.mem_of_pos List.mem_cons_self)
  exact solved.not_mem_of_neg forkSample_over.disjoint List.mem_cons_self
    ((solved.mem_acceptedBy_iff otherPath).mpr accepted)

theorem forkSample_unsatisfiable {n : Nat} (several : 2 ≤ n) :
    Unsatisfiable StateOrder.found [97, 99] true forkSample n := by
  apply unsatisfiable_of_not_satisfiable forkSample_over
  · have bound : ∀ na, 2 ≤ na → 0 < lMax n na := by
      intro na large
      have product := Nat.mul_le_mul several large
      rw [lMax]
      omega
    exact List.forall_mem_cons.mpr
      ⟨bound 3 (by decide), List.forall_mem_singleton.mpr (bound 2 le_rfl)⟩
  · exact forkSample_not_satisfiable several

/-! ### The searches -/

theorem noClash_of_small {s : Sample} (ex : s.ex.length ≤ 1)
    (uni : s.uni.length ≤ 1) (dashes : ∀ word ∈ s.words, word.head? ≠ some dash) :
    NoClash [97, 99] s :=
  ⟨by decide, uni, ex, dashes⟩

/-- With a single state both letters are accepted, or none. -/
theorem letterSample_unsatisfiable :
    Unsatisfiable StateOrder.found [97, 99] true letterSample 1 := by
  have within : letterSample.Over [97, 99] :=
    { letters := by simp [letterSample, Sample.words]
      ex := fun _ member => absurd member List.not_mem_nil
      uni := fun _ member => absurd member List.not_mem_nil
      disjoint := by simp [letterSample] }
  apply unsatisfiable_of_not_satisfiable within
  · exact fun _ member => absurd member List.not_mem_nil
  · intro satisfiable
    rcases satisfiable.shortLearnable Nat.one_pos within with ⟨M, short⟩
    have accepted := (short.consistent.pos [99] List.mem_cons_self).2
    have rejected := short.consistent.neg [97] List.mem_cons_self
    have same : M.eval [97] = M.eval [99] := Subsingleton.elim _ _
    exact rejected ⟨by simp, show M.eval [97] ∈ M.accept from same ▸ accepted⟩

theorem letterSample_search :
    ∃ dfa, Search [97, 99] true letterSample 1 [1, 2] 2 dfa ∧
      dfa.lang = dfaLang [97, 99] oddEnd := by
  have short : ShortConsistent letterSample 2 (dfaLang [97, 99] oddEnd) :=
    { consistent :=
        { pos := List.forall_mem_singleton.mpr ⟨by simp, rfl⟩
          neg := List.forall_mem_singleton.mpr fun member =>
            absurd (mem_oddEnd_short member le_rfl) (by decide)
          ex := fun _ member => absurd member List.not_mem_nil
          uni := fun _ member => absurd member List.not_mem_nil }
      positive := fun _ member => absurd member List.not_mem_nil
      short := fun _ member => absurd member List.not_mem_nil }
  have within : letterSample.Over [97, 99] := forkSample_over.of_included
    ⟨fun _ => id, fun _ => id, List.nil_subset _, fun _ => id⟩
  rcases search_of_noClash short within
    (noClash_of_small (by decide) (by decide) (by decide)) true with
    ⟨dfa, search, same⟩
  exact ⟨dfa, Search.unsatisfiable _ letterSample_unsatisfiable search, same⟩

theorem onceSample_search :
    ∃ dfa, Search [97, 99] true onceSample 2 [2] 2 dfa ∧
      dfa.lang = dfaLang [97, 99] onlyC := by
  have twice : ([99, 99] : Word) ∈ dfaLang [97, 99] onlyC := ⟨by simp, rfl⟩
  have short : ShortConsistent onceSample 2 (dfaLang [97, 99] onlyC) :=
    { consistent :=
        { pos := List.forall_mem_singleton.mpr ⟨by simp, rfl⟩
          neg := List.forall_mem_singleton.mpr fun member =>
            absurd (show (1 : Fin 2) = 0 from member.2) (by decide)
          ex := List.forall_mem_singleton.mpr fun _ =>
            ⟨[99, 99], by rw [Automaton.lang_makeString]; rfl, twice⟩
          uni := fun _ member => absurd member List.not_mem_nil }
      positive := List.forall_mem_singleton.mpr (by decide)
      short := List.forall_mem_singleton.mpr fun _ =>
        ⟨[99, 99], by rw [Automaton.lang_makeString]; rfl, twice, by decide⟩ }
  have within : onceSample.Over [97, 99] := forkSample_over.of_included
    ⟨fun _ => id, fun _ => id, List.cons_subset_cons _ (List.nil_subset _),
      fun _ => id⟩
  exact search_of_noClash short within
    (noClash_of_small (by decide) (by decide) (by decide)) true

theorem positiveC_search :
    ∃ dfa, Search [97, 99] true (Sample.empty.addPos [99]) 1 [1] 1 dfa ∧
      dfa.lang = dfaLang [97, 99] (allWords Nat.one_pos) := by
  have short : ShortConsistent (Sample.empty.addPos [99]) 1
      (dfaLang [97, 99] (allWords Nat.one_pos)) :=
    { consistent :=
        { pos := List.forall_mem_singleton.mpr ⟨by simp, trivial⟩
          neg := fun _ member => absurd member List.not_mem_nil
          ex := fun _ member => absurd member List.not_mem_nil
          uni := fun _ member => absurd member List.not_mem_nil }
      positive := fun _ member => absurd member List.not_mem_nil
      short := fun _ member => absurd member List.not_mem_nil }
  have within : (Sample.empty.addPos [99]).Over [97, 99] :=
    forkSample_over.of_included
      ⟨fun _ => id, List.nil_subset _, List.nil_subset _, fun _ => id⟩
  exact search_of_noClash short within
    (noClash_of_small (by decide) (by decide) (by decide)) true

theorem noWords_search :
    ∃ dfa, Search [97, 99] true Sample.empty 1 [1] 1 dfa ∧ dfa.lang = ∅ := by
  have short : ShortConsistent Sample.empty 1 (dfaLang [97, 99] noWords) :=
    ⟨Sample.consistent_empty _, fun _ member => absurd member List.not_mem_nil,
      fun _ member => absurd member List.not_mem_nil⟩
  rcases search_of_noClash short (empty_over [97, 99])
    (noClash_of_small (by decide) (by decide) (by decide)) true with
    ⟨dfa, search, same⟩
  exact ⟨dfa, search, same.trans (dfaLang_noWords _)⟩

/-! ### The rounds -/

/-- The images of the run are the two automata `cc` and `a` where these are right. -/
noncomputable def forkImage : ImageFunction :=
  documentedImage [Automaton.makeString [99, 99], Automaton.makeString [97]]

/-- The consequence automaton of a word with a single successor. -/
theorem fork_consequence {u v : Word} (preferred : v = [99, 99] ∨ v = [97])
    (only : ∀ word, forkTransducer.Rel u word ↔ word = v) :
    consequence (reference []) forkImage forkGame u =
      some (Automaton.makeString v) := by
  show documentedImage _ forkTransducer (Automaton.makeString u) = _
  apply documentedImage_eq
  · rcases preferred with rfl | rfl <;> simp
  · exact makeString_invariants v
  · intro other inList same
    obtain ⟨word, rfl⟩ : ∃ word, other = Automaton.makeString word := by
      rcases List.mem_pair.mp inList with rfl | rfl <;> exact ⟨_, rfl⟩
    rw [Automaton.lang_makeString, Automaton.lang_makeString,
      Set.singleton_eq_singleton_iff] at same
    rw [same]
  · ext word
    rw [TransducerAutomaton.mem_relImage, Automaton.lang_makeString,
      Automaton.lang_makeString]
    simp [only]

/-- Without the word `a`, the words with a successor in a language are `c` and
`cc`, or there are none. -/
theorem fork_preimage {inverse : TransducerAutomaton}
    (inverts : forkTransducer.invert = some inverse) {a : Automaton}
    (noA : [97] ∉ a.lang) : ∃ b, forkImage inverse a = some b := by
  have before : ∀ word, word ∈ inverse.relImage a.lang ↔
      (word = [99] ∨ word = [99, 99]) ∧ [99, 99] ∈ a.lang := by
    intro word
    simp only [TransducerAutomaton.mem_relImage,
      TransducerAutomaton.invert_rel_iff inverts, forkTransducer_rel_iff]
    constructor
    · rintro ⟨v, inside, ⟨isC, rfl⟩ | ⟨_, rfl⟩⟩
      · exact ⟨isC, inside⟩
      · exact absurd inside noA
    · rintro ⟨isC, inside⟩
      exact ⟨_, inside, Or.inl ⟨isC, rfl⟩⟩
  have regular : ∃ b : Automaton, ClassInvariants b ∧
      b.lang = inverse.relImage a.lang := by
    by_cases twice : [99, 99] ∈ a.lang
    · rcases exists_automaton ((isRegular_lang (Automaton.makeString [99])).add
        (isRegular_lang (Automaton.makeString [99, 99]))) with
        ⟨b, invariants, same⟩
      refine ⟨b, invariants, same.trans ?_⟩
      ext word
      rw [before, Automaton.lang_makeString, Automaton.lang_makeString]
      exact (and_iff_left twice).symm
    · refine ⟨Automaton.makeEmpty, makeEmpty_invariants, ?_⟩
      ext word
      rw [before, Automaton.lang_makeEmpty]
      exact iff_of_false (Set.notMem_empty word) fun both => twice both.2
  rw [forkImage, documentedImage, if_pos regular]
  exact ⟨_, rfl⟩

/-- A check of a safe conjecture with the initial vertex finds the shortest
vertex without a successor. -/
theorem fork_existential {w : Automaton} {s : Sample} {u v : Word}
    (honest : w.HonestFlag) (initial : [99] ∈ w.lang)
    (safe : w.lang ⊆ forkGame.aF.lang) (inside : u ∈ w.lang)
    (preferred : v = [99, 99] ∨ v = [97])
    (only : ∀ word, forkTransducer.Rel u word ↔ word = v)
    (outside : v ∉ w.lang)
    (shortest : ∀ other ∈ w.lang, other.length ≤ u.length → other = u)
    (fresh : ∀ ce ∈ s.ex, u ≠ ce.u) :
    checkIfWinningSet (reference []) forkImage forkGame w s =
      some (false, s.addEx (reference []).same u (Automaton.makeString v)) := by
  have correct := reference_correct []
  rcases Option.isSome_iff_exists.mp
    (show forkTransducer.invert.isSome = true from rfl) with ⟨inverse, inverts⟩
  have noA : [97] ∉ w.lang := by
    intro member
    have isSafe : [97] ∈ (completeAutomaton [97, 99] notEndingInA).lang :=
      safe member
    rw [lang_completeAutomaton] at isSafe
    exact absurd (show (1 : Fin 2) = 0 from isSafe.2) (by decide)
  rcases fork_preimage inverts noA with ⟨b, isImage⟩
  have isStuck := a3c_of_image (reference [])
    (show forkGame.tE.invert = some inverse from inverts) isImage
  rcases a3c_spec correct honest
    (fun inverse _ => documentedImage_exact _ inverse w) isStuck with
    ⟨_, stuck⟩
  have vertex : u ∈ forkGame.stuck w.lang := by
    have isSafe : u ∈ (completeAutomaton [97, 99] notEndingInA).lang :=
      safe inside
    rw [lang_completeAutomaton] at isSafe
    refine ⟨inside, ?_, fun other member related => ?_⟩
    · change u ∈ (completeAutomaton [97, 99] (allWords Nat.one_pos)).lang
      rw [lang_completeAutomaton]
      exact mem_dfaLang_allWords isSafe.1
    · rw [(only other).mp related] at member
      exact outside member
  have starts : isEmpty (a1 (reference []) forkGame w) = true := by
    apply reference_isEmpty_minus.mpr
    rw [show forkGame.aI.lang = {[99]} from Automaton.lang_makeString _]
    exact Set.singleton_subset_iff.mpr initial
  have stays : isEmpty (a2 (reference []) forkGame w) = true :=
    reference_isEmpty_minus.mpr safe
  have found : isEmpty ((reference []).intersection w
      ((reference []).minus forkGame.aV0 b)) = false := by
    rw [← Bool.not_eq_true]
    intro empty
    rw [← stuck, lang_of_isEmpty empty] at vertex
    exact Set.notMem_empty u vertex
  have picked : (reference []).getShortestExample _ = some u :=
    reference_shortest_of_unique (stuck.symm ▸ vertex) fun other member =>
      shortest other (stuck.subset member).1
  exact (Checked.existential starts stays isStuck found picked
    (fork_consequence preferred only)
    (Library.contains_of_ne _ fresh)).returns

theorem documented_forkImage : Documented true forkImage :=
  fun ta a _ => documentedImage_exact _ ta a

/-- A round of the debug mode. -/
theorem debug_round {before : Learner} {s : Sample} {tried : List Nat}
    {m : Nat} {dfa : Automaton}
    (search : Search [97, 99] true before.s before.n tried m dfa)
    (check : checkIfWinningSet (reference []) forkImage forkGame dfa before.s =
      some (false, s)) :
    Round (reference []) forkGame true forkImage before dfa false ⟨m, s⟩ :=
  ⟨⟨tried, dfa, search, rfl⟩, check⟩

/-- No word is conjectured, and `c` is recorded. -/
theorem fork_initial {w : Automaton} (honest : w.HonestFlag)
    (none : w.lang = ∅) (s : Sample) :
    checkIfWinningSet (reference []) forkImage forkGame w s =
      some (false, s.addPos [99]) := by
  have initial : forkGame.aI.lang = {[99]} := Automaton.lang_makeString _
  have found : isEmpty (a1 (reference []) forkGame w) = false := by
    rw [← Bool.not_eq_true, a1, reference_isEmpty_minus, none, initial]
    exact fun empty => empty rfl
  have only : (a1 (reference []) forkGame w).lang = {[99]} := by
    rw [(a1_spec (reference_correct []) honest).2, none, initial,
      Set.sdiff_empty]
  exact (Checked.initial found (reference_shortest_singleton only)).returns

/-- All words are conjectured, and `a` is recorded. -/
theorem fork_safe {w : Automaton} (honest : w.HonestFlag)
    (all : w.lang = dfaLang [97, 99] (allWords Nat.one_pos)) (s : Sample) :
    checkIfWinningSet (reference []) forkImage forkGame w s =
      some (false, s.addNeg [97]) := by
  have safe : forkGame.aF.lang = dfaLang [97, 99] notEndingInA :=
    lang_completeAutomaton
  have inside : [97] ∈ w.lang \ forkGame.aF.lang := by
    rw [all, safe]
    exact ⟨⟨by simp, trivial⟩,
      fun member => absurd (show (1 : Fin 2) = 0 from member.2) (by decide)⟩
  have starts : isEmpty (a1 (reference []) forkGame w) = true := by
    apply reference_isEmpty_minus.mpr
    rw [show forkGame.aI.lang = {[99]} from Automaton.lang_makeString _, all]
    exact Set.singleton_subset_iff.mpr ⟨by simp, trivial⟩
  have found : isEmpty (a2 (reference []) forkGame w) = false := by
    rw [← Bool.not_eq_true, a2, reference_isEmpty_minus]
    exact fun stays => inside.2 (stays inside.1)
  have a2_lang : (a2 (reference []) forkGame w).lang =
      w.lang \ forkGame.aF.lang := (a2_spec (reference_correct []) honest).2
  have picked : (reference []).getShortestExample
      (a2 (reference []) forkGame w) = some [97] := by
    apply reference_shortest_of_unique (a2_lang.symm ▸ inside)
    intro other member short
    rw [a2_lang, all, safe] at member
    rcases other with _ | ⟨c, _ | ⟨d, other⟩⟩
    · exact absurd ⟨by simp, rfl⟩ member.2
    · rcases List.mem_pair.mp (member.1.1 c List.mem_cons_self) with rfl | rfl
      · rfl
      · exact absurd ⟨by simp, rfl⟩ member.2
    · exact absurd short (by simp)
  exact (Checked.safe starts found picked).returns

/-- The words that end in an odd number of `c`'s are conjectured, and the
successor of `c` is recorded. -/
theorem fork_third {w : Automaton} (honest : w.HonestFlag)
    (words : w.lang = dfaLang [97, 99] oddEnd) :
    checkIfWinningSet (reference []) forkImage forkGame w letterSample =
      some (false, onceSample) := by
  apply fork_existential honest
  · rw [words]
    exact ⟨by simp, rfl⟩
  · rw [words]
    apply dfaLang_subset_safe
    intro q c accepted
    by_contra other
    have rejects : oddEnd.step q c = 0 := if_neg fun both => other both.1
    rw [rejects] at accepted
    exact absurd (show (0 : Fin 2) = 1 from accepted) (by decide)
  · rw [words]
    exact ⟨by simp, rfl⟩
  · exact Or.inl rfl
  · simp [forkTransducer_rel_iff]
  · rw [words]
    exact fun member => absurd (show (0 : Fin 2) = 1 from member.2) (by decide)
  · rw [words]
    exact fun other member short => mem_oddEnd_short member short
  · exact fun _ member => absurd member List.not_mem_nil

/-- The words over `c` are conjectured, and the successor of the empty word is
recorded. -/
theorem fork_fourth {w : Automaton} (honest : w.HonestFlag)
    (words : w.lang = dfaLang [97, 99] onlyC) :
    checkIfWinningSet (reference []) forkImage forkGame w onceSample =
      some (false, forkSample) := by
  have extended : onceSample.addEx (reference []).same []
      (Automaton.makeString [97]) = forkSample := rfl
  rw [← extended]
  apply fork_existential honest
  · rw [words]
    exact ⟨by simp, rfl⟩
  · rw [words]
    apply dfaLang_subset_safe
    intro q c accepted
    by_contra other
    have rejects : onlyC.step q c = 1 := if_neg fun both => other both.1
    rw [rejects] at accepted
    exact absurd (show (1 : Fin 2) = 0 from accepted) (by decide)
  · rw [words]
    exact ⟨by simp, rfl⟩
  · exact Or.inr rfl
  · simp [forkTransducer_rel_iff]
  · rw [words]
    exact fun member => absurd (show (1 : Fin 2) = 0 from member.2) (by decide)
  · intro other _ short
    exact List.length_eq_zero_iff.mp (Nat.le_zero.mp short)
  · exact List.forall_mem_singleton.mpr (by simp)

/-- Four rounds of the debug mode record both counter-examples. -/
theorem fork_solving :
    ∃ iterations, Solving (reference []) forkGame true iterations
        ⟨2, forkSample⟩ ∧
      ∀ iteration ∈ iterations, Documented true iteration.image := by
  rcases noWords_search with ⟨w1, search1, lang1⟩
  rcases positiveC_search with ⟨w2, search2, lang2⟩
  rcases letterSample_search with ⟨w3, search3, lang3⟩
  rcases onceSample_search with ⟨w4, search4, lang4⟩
  have honest : ∀ {s n tried m w}, Search [97, 99] true s n tried m w →
      w.HonestFlag := fun search => (search.spec (by decide)).1
  have round1 : Round (reference []) forkGame true forkImage Learner.new w1
      false ⟨1, Sample.empty.addPos [99]⟩ :=
    debug_round search1 (fork_initial (honest search1) lang1 _)
  have round2 : Round (reference []) forkGame true forkImage
      ⟨1, Sample.empty.addPos [99]⟩ w2 false ⟨1, letterSample⟩ :=
    debug_round search2 (fork_safe (honest search2) lang2 _)
  have round3 : Round (reference []) forkGame true forkImage
      ⟨1, letterSample⟩ w3 false ⟨2, onceSample⟩ :=
    debug_round search3 (fork_third (honest search3) lang3)
  have round4 : Round (reference []) forkGame true forkImage
      ⟨2, onceSample⟩ w4 false ⟨2, forkSample⟩ :=
    debug_round search4 (fork_fourth (honest search4) lang4)
  have solving := (((Solving.start.round ⟨forkImage, w1⟩ round1).round
    ⟨forkImage, w2⟩ round2).round ⟨forkImage, w3⟩ round3).round
      ⟨forkImage, w4⟩ round4
  refine ⟨_, solving, fun iteration member => ?_⟩
  have isImage : iteration.image = forkImage := by
    simp only [List.nil_append, List.cons_append, List.mem_cons,
      List.not_mem_nil, or_false] at member
    rcases member with rfl | rfl | rfl | rfl <;> rfl
  rw [isImage]
  exact documented_forkImage

/--
In the debug mode a run on a solvable game reaches a search without end: the
automata `cc` of `c` and `a` of `ε` share their cells, which ask the letters `a`
and `c` to lead to the same state, while `c` is accepted and `a` is not.
-/
theorem debug_mode_searches :
    (reference []).Correct ∧ (∀ u, (reference []).Literal u) ∧
      forkGame.RelatesVertices ∧ forkGame.OverAlphabet ∧
      NoConsecutive forkGame.alphabet ∧
      Winning forkGame.game (dfaLang forkGame.alphabet onceOrTwice) ∧
      ∃ iterations learner,
        Solving (reference []) forkGame true iterations learner ∧
          (∀ iteration ∈ iterations, Documented true iteration.image) ∧
          ∀ m, learner.n ≤ m →
            ∃ order, Unsatisfiable order forkGame.alphabet true learner.s m := by
  refine ⟨reference_correct [], reference_literal [], forkGame_relates,
    fun u member => forkGame_vertices.mp member, ?_, forkGame_winning, ?_⟩
  · exact List.forall_mem_cons.mpr ⟨by decide,
      List.forall_mem_singleton.mpr (by decide)⟩
  · rcases fork_solving with ⟨iterations, solving, documented⟩
    exact ⟨iterations, _, solving, documented,
      fun m large => ⟨_, forkSample_unsatisfiable large⟩⟩

end SafetyGames.Solver
