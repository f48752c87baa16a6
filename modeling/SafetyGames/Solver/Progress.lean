import SafetyGames.Solver.Verdict
import SafetyGames.Solver.Recorded

/-!
# Progress of the loop

A round whose conjecture is consistent with the sample adds a counter-example
that was not there.  The conjecture is consistent as long as no word is marked
twice; a game with an unsafe initial vertex may mark it twice and then repeat
the same round for ever.
-/

namespace SafetyGames.Solver

open SafetyGames.Transducer SafetyGames.Learner SafetyGames.Teacher
open SafetyGames.Game SafetyGames.LabelledPath

/-- A counter-example for the word is built as it should be: the word is a
regular expression for itself, and its image is safe. -/
structure ConsequenceSafe (lib : Library) (sp : SafetyProblem)
    (orders : ImageOrders) (u : Word) : Prop where
  literal : lib.Literal u
  safe : ∀ word, lib.regExp u = some word →
    ImageSafe (orders sp.tE word) sp.tE word

/-- The word that a check marks does not have the other mark in the sample. -/
structure FreshMarks (lib : Library) (sp : SafetyProblem) (s : Sample)
    (set : Set Word) : Prop where
  pos : ∀ u, lib.Picked sp set (.pos u) → u ∉ s.neg
  neg : ∀ u, lib.Picked sp set (.neg u) → u ∉ s.pos

/-- What a round needs.  The images that decide the verdict are safe; where one
of the first two conditions is violated, the word that is picked does not have
the other mark, and where the third or the fourth one is, the counter-example is
built as it should be.  The automata in the `Uni` list have single letters. -/
structure RoundSafe (lib : Library) (sp : SafetyProblem)
    (orders : ImageOrders) (s : Sample) (w : Automaton) :
    Prop extends VerdictSafe lib sp orders w where
  marks : FreshMarks lib sp s w.lang
  stuck : sp.Between w.lang → ∀ u, lib.Picks (sp.stuck w.lang) u →
    ConsequenceSafe lib sp orders u
  leaving : sp.Between w.lang → sp.stuck w.lang = ∅ →
    ∀ u, lib.Picks (sp.leaving w.lang) u → ConsequenceSafe lib sp orders u
  uni : ∀ cu ∈ s.uni, OverAlphabet sp.alphabet cu.a

section Safe

variable {lib : Library} {sp : SafetyProblem} {orders : ImageOrders}
  {fuel : Nat} (correct : lib.Correct)
include correct

theorem ConsequenceSafe.exact {u : Word}
    (safe : ConsequenceSafe lib sp orders u) :
    ConsequenceExact lib (image lib orders fuel) sp u where
  literal := safe.literal
  exact := fun word isWord => imageExact_of_safe correct (safe.safe word isWord)

theorem RoundSafe.exact {s : Sample} {w : Automaton}
    (safe : RoundSafe lib sp orders s w) :
    RoundExact lib (image lib orders fuel) sp w where
  toChecksExact := safe.toVerdictSafe.checksExact correct
  stuck := fun between u picked => (safe.stuck between u picked).exact correct
  leaving := fun between noneStuck u picked =>
    (safe.leaving between noneStuck u picked).exact correct

end Safe

/-- The runs of the loop whose rounds meet these conditions. -/
inductive SafeSolving (lib : Library) (sp : SafetyProblem) (debug : Bool) :
    Learner → Prop where
  | start : SafeSolving lib sp debug Learner.new
  | round {before after : Learner} (earlier : SafeSolving lib sp debug before)
      {orders : ImageOrders} {fuel : Nat} {w : Automaton}
      (safe : RoundSafe lib sp orders before.s w)
      (round : Round lib sp debug (image lib orders fuel) before w false after) :
      SafeSolving lib sp debug after

section Progress

variable {lib : Library} {sp : SafetyProblem} {debug : Bool}
  {before after : Learner} (correct : lib.Correct)
include correct

/-- The sample of such a run records facts about the game. -/
theorem SafeSolving.answers (nodup : sp.alphabet.Nodup)
    (solving : SafeSolving lib sp debug before) :
    ∀ addition, before.s.Records addition → Answers sp addition := by
  induction solving with
  | start =>
      intro addition recorded
      cases addition <;> exact absurd recorded List.not_mem_nil
  | round _ safe round induction =>
      rcases round.rejects correct nodup (safe.exact correct) with
        ⟨addition, same, _, answer, _⟩
      intro other recorded
      rw [same] at recorded
      rcases Sample.records_add recorded with old | rfl
      · exact induction other old
      · exact answer

omit correct in
/-- A round that marks a word afresh marks no word twice. -/
theorem FreshMarks.disjoint_add {s : Sample} {set : Set Word}
    {addition : Sample.Addition} (marks : FreshMarks lib sp s set)
    (picked : lib.Picked sp set addition)
    (disjoint : ∀ word ∈ s.pos, word ∉ s.neg) :
    ∀ word ∈ (s.add lib.same addition).pos,
      word ∉ (s.add lib.same addition).neg := by
  intro word inPos inNeg
  have isPos := Sample.records_add
    (show (s.add lib.same addition).Records (.pos word) from inPos)
  have isNeg := Sample.records_add
    (show (s.add lib.same addition).Records (.neg word) from inNeg)
  rcases isPos with oldPos | rfl
  · rcases isNeg with oldNeg | rfl
    · exact disjoint word oldPos oldNeg
    · exact marks.neg word picked oldPos
  · rcases isNeg with oldNeg | other
    · exact marks.pos word picked oldNeg
    · exact Sample.Addition.noConfusion other

/-- In such a run no word is recorded as both kinds. -/
theorem SafeSolving.disjoint (nodup : sp.alphabet.Nodup)
    (solving : SafeSolving lib sp debug before) :
    ∀ word ∈ before.s.pos, word ∉ before.s.neg := by
  induction solving with
  | start => exact fun _ member => absurd member List.not_mem_nil
  | round _ safe round induction =>
      rcases round.rejects correct nodup (safe.exact correct) with
        ⟨addition, same, _, _, picked⟩
      rw [same]
      exact safe.marks.disjoint_add picked induction

/-- Where every initial vertex is safe, no word is picked for both marks. -/
theorem freshMarks_of_answers (starts : sp.aI.lang ⊆ sp.aF.lang) {s : Sample}
    (answers : ∀ addition, s.Records addition → Answers sp addition)
    (set : Set Word) : FreshMarks lib sp s set where
  pos := by
    rintro u ⟨a, honest, same, picked⟩ inNeg
    have member := correct.getShortestExample a u honest picked
    rw [same] at member
    exact (answers (.neg u) inNeg).1 (starts member.1)
  neg := by
    rintro u ⟨_, a, honest, same, picked⟩ inPos
    have member := correct.getShortestExample a u honest picked
    rw [same] at member
    exact member.2 (starts (answers (.pos u) inPos))

/-- The counter-example of a failed round is new. -/
theorem Round.progress (nodup : sp.alphabet.Nodup)
    (answers : ∀ addition, before.s.Records addition → Answers sp addition)
    {orders : ImageOrders} {fuel : Nat} {w : Automaton}
    (safe : RoundSafe lib sp orders before.s w)
    (consistent : before.s.Consistent w.lang)
    (round : Round lib sp debug (image lib orders fuel) before w false after) :
    ∃ addition, after.s = before.s.add lib.same addition ∧
      ¬ before.s.Records addition ∧ after.s.Records addition ∧
        after.s.size = before.s.size + 1 := by
  rcases round.rejects correct nodup (safe.exact correct) with
    ⟨addition, same, violated, answer, _⟩
  have grows : before.s.add lib.same addition ≠ before.s := by
    intro unchanged
    rw [← unchanged] at consistent
    exact violated
      (satisfied_of_consistent_add correct answers answer consistent)
  have isNew : ¬ before.s.Records addition := fun recorded =>
    violated (Sample.consistent_iff.mp consistent addition recorded)
  rcases Sample.add_eq_or_recorded lib.same before.s addition with
    unchanged | ⟨recorded, size⟩
  · exact absurd unchanged grows
  · rw [← same] at recorded size
    exact ⟨addition, same, isNew, recorded, size⟩

end Progress

/--
In every run whose rounds meet the conditions, in either mode, no word is marked
twice, and a further round that meets them and fails has a conjecture consistent
with the sample and enlarges the sample by a counter-example that was not there.
On a game with safe initial vertices the marks are always fresh.
-/
theorem solve_progress {lib : Library} {sp : SafetyProblem} {debug : Bool}
    (correct : lib.Correct) (nodup : sp.alphabet.Nodup) {before : Learner}
    (solving : SafeSolving lib sp debug before) :
    (∀ word ∈ before.s.pos, word ∉ before.s.neg) ∧
      (∀ (orders : ImageOrders) (fuel : Nat) (w : Automaton)
        (after : Learner),
        RoundSafe lib sp orders before.s w →
        Round lib sp debug (image lib orders fuel) before w false after →
        (∀ word ∈ after.s.pos, word ∉ after.s.neg) ∧
          before.s.Consistent w.lang ∧
          ∃ addition, after.s = before.s.add lib.same addition ∧
            ¬ before.s.Records addition ∧ after.s.Records addition ∧
              after.s.size = before.s.size + 1) ∧
      (sp.aI.lang ⊆ sp.aF.lang → ∀ set, FreshMarks lib sp before.s set) := by
  have answers := solving.answers correct nodup
  have disjoint := solving.disjoint correct nodup
  refine ⟨disjoint, ?_, fun starts => freshMarks_of_answers correct starts answers⟩
  intro orders fuel w after safe round
  have consistent : before.s.Consistent w.lang :=
    (round.spec correct nodup).2.2 disjoint safe.uni
  exact ⟨(solving.round safe round).disjoint correct nodup, consistent,
    round.progress correct nodup answers safe consistent⟩

/--
The first round of the game with one vertex meets the conditions.  It adds the
vertex, which was not recorded before.
-/
theorem solve_progress_loopGame :
    ∃ w after, Round smallReference loopGame false
        (image smallReference (fun _ _ => .insertion) 1) Learner.new w false
        after ∧
      ∃ addition, after.s = Learner.new.s.add smallReference.same addition ∧
        ¬ Learner.new.s.Records addition ∧ after.s.Records addition ∧
          after.s.size = Learner.new.s.size + 1 := by
  have correct : smallReference.Correct := reference_correct _
  rcases @first_round loopGame rfl rfl
    [Automaton.makeEmpty, Automaton.makeString []]
    (image smallReference (fun _ _ => .insertion) 1) with ⟨w, isEmpty, round⟩
  rw [pick_small_empty] at isEmpty
  rw [isEmpty] at round
  have none : ∀ {u}, u ∉ Automaton.makeEmpty.lang := by simp
  have noneBetween : ¬ loopGame.Between Automaton.makeEmpty.lang := by
    intro between
    exact none (between.1 (show [] ∈ (Automaton.makeString []).lang by simp))
  have safe : RoundSafe smallReference loopGame (fun _ _ => .insertion)
      Learner.new.s Automaton.makeEmpty :=
    { existential := fun between => absurd between noneBetween
      universal := fun between => absurd between noneBetween
      marks := ⟨fun _ _ => List.not_mem_nil, fun _ _ => List.not_mem_nil⟩
      stuck := fun between => absurd between noneBetween
      leaving := fun between => absurd between noneBetween
      uni := fun cu member => absurd member List.not_mem_nil }
  exact ⟨_, _, round, ((solve_progress correct (by decide)
    SafeSolving.start).2.1 _ _ _ _ safe round).2.2⟩

/-! ## An unsafe initial vertex -/

/-- The empty word is the only vertex; it is initial, and no vertex is safe. -/
def unsafeGame : SafetyProblem :=
  { loopGame with
    aF := Automaton.makeEmpty
    aF_invariants := makeEmpty_invariants }

/-- The empty word is marked as both kinds. -/
def bothSample : Sample where
  pos := [[]]
  neg := [[]]
  ex := []
  uni := []
  size := 2

/-- The second mark is dropped: the problems are those of the first mark. -/
theorem constructSAT_bothSample (order : StateOrder) (n : Nat) :
    constructSAT order [97] false bothSample n =
      constructSAT order [97] false positiveSample n := by
  have sameTree : fillTree [97] bothSample = fillTree [97] positiveSample :=
    rfl
  rw [constructSAT, constructSAT, sameTree]
  rfl

/-- The search depends on the problems only. -/
theorem search_congr {alphabet : List JChar} {debug : Bool} {s other : Sample}
    (same : ∀ order n, constructSAT order alphabet debug other n =
      constructSAT order alphabet debug s n)
    {n m : Nat} {tried : List Nat} {dfa : Automaton}
    (search : Search alphabet debug s n tried m dfa) :
    Search alphabet debug other n tried m dfa := by
  induction search with
  | satisfiable positive order returns satisfied =>
      exact Search.satisfiable positive order ((same order _).trans returns)
        satisfied
  | unsatisfiable order unsatisfiable _ induction =>
      rcases unsatisfiable with ⟨problem, returns, none⟩
      exact Search.unsatisfiable order
        ⟨problem, (same order _).trans returns, none⟩ induction

/-- The conjecture that accepts every word fails for its unsafe words. -/
theorem unsafeGame_check {image : ImageFunction} {w : Automaton}
    (invariants : ClassInvariants w)
    (all : w.lang = dfaLang [97] (allWords Nat.one_pos)) (s : Sample) :
    checkIfWinningSet (reference []) image unsafeGame w s =
      some (false, s.addNeg []) := by
  have correct := reference_correct []
  have inside : [] ∈ w.lang := by
    rw [all]
    exact mem_dfaLang_allWords (by simp)
  have starts : isEmpty (a1 (reference []) unsafeGame w) = true := by
    refine (a1_isEmpty_iff correct invariants).mpr fun word initial => ?_
    rw [unsafeGame, loopGame, Automaton.lang_makeString,
      Set.mem_singleton_iff] at initial
    exact initial ▸ inside
  have only : (a2 (reference []) unsafeGame w).lang = _ :=
    (a2_spec correct invariants.honest).2
  have outside : [] ∈ (a2 (reference []) unsafeGame w).lang := by
    rw [only, unsafeGame, Automaton.lang_makeEmpty, Set.sdiff_empty]
    exact inside
  have found : isEmpty (a2 (reference []) unsafeGame w) = false := by
    rw [← Bool.not_eq_true]
    intro empty
    rw [lang_of_isEmpty empty] at outside
    exact absurd outside (Set.notMem_empty [])
  exact (Checked.safe starts found (reference_shortest_nil outside)).returns

/--
A run marks the empty word twice, the second mark is dropped, and then the same
round may repeat for ever without a change to the sample.
-/
theorem solve_no_progress :
    ∃ iterations before w,
      Solving (reference []) unsafeGame false iterations before ∧
        [] ∈ before.s.pos ∧ [] ∈ before.s.neg ∧ ¬ before.s.Consistent w.lang ∧
          Round (reference []) unsafeGame false (documentedImage []) before w false
            before := by
  have correct := reference_correct []
  rcases @first_round unsafeGame rfl rfl [] (documentedImage []) with ⟨_, _, first⟩
  have short : ShortConsistent positiveSample 1
      (dfaLang [97] (allWords Nat.one_pos)) := by
    have none : ∀ {P : CounterExample → Prop}, ∀ ce ∈ [], P ce :=
      fun _ member => absurd member List.not_mem_nil
    refine ⟨⟨?_, ?_, none, none⟩, none, none⟩
    · exact List.forall_mem_singleton.mpr (mem_dfaLang_allWords (by simp))
    · exact fun _ member => absurd member List.not_mem_nil
  rcases short.search (by decide)
    ⟨by simp [positiveSample, Sample.words],
      fun _ member => absurd member List.not_mem_nil,
      fun _ member => absurd member List.not_mem_nil, by decide⟩ with
    ⟨dfa, search, all⟩
  have conjecture : (reference []).minimize dfa = some (pick [] dfa.lang) := rfl
  rcases correct.minimize dfa _ (search.spec (by decide)).1
    (not_deadLoop_of_singleChars search.singleChars) conjecture with
    ⟨invariants, same⟩
  have check : ∀ s, checkIfWinningSet (reference []) (documentedImage []) unsafeGame
      (pick [] dfa.lang) s = some (false, s.addNeg []) :=
    unsafeGame_check invariants (same.trans all)
  have second : Round (reference []) unsafeGame false (documentedImage [])
      ⟨1, positiveSample⟩ (pick [] dfa.lang) false ⟨1, bothSample⟩ :=
    ⟨⟨[1], dfa, search, conjecture⟩, check positiveSample⟩
  have third : Round (reference []) unsafeGame false (documentedImage [])
      ⟨1, bothSample⟩ (pick [] dfa.lang) false ⟨1, bothSample⟩ :=
    ⟨⟨[1], dfa, search_congr constructSAT_bothSample search, conjecture⟩,
      check bothSample⟩
  have marked := Solving.start.round ⟨documentedImage [], _⟩ first
  refine ⟨_, _, _, marked.round ⟨documentedImage [], _⟩ second, List.mem_cons_self,
    List.mem_cons_self, fun consistent => ?_, third⟩
  exact consistent.neg [] List.mem_cons_self
    (consistent.pos [] List.mem_cons_self)

end SafetyGames.Solver
