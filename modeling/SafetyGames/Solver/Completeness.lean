import SafetyGames.Learner.LeastStates
import SafetyGames.Solver.Solve

/-!
# Completeness of the encoding

The constraints of a sample are satisfiable for every number of states that
suffices for it, provided that short witnesses do.  In every session of the
learner, and so in every run of `solve`, a conjecture then has the least number
of states that is possible.
-/

namespace SafetyGames.Solver

open SafetyGames.Transducer SafetyGames.Learner SafetyGames.Teacher

/--
In the normal mode, and in the debug mode where no names clash, the encoding is
complete for a sample exactly when a learnable number of states is learnable
with short witnesses.  Where this holds of all problems of a session, the result
of the search is the least number of states, in whatever order `conjecture` and
the add calls are made.  The runs of `solve` are such sessions.
-/
theorem constructSAT_complete_iff (alphabet : List JChar) (debug : Bool) :
    (∀ (order : StateOrder) (s : Sample) (n : Nat), 0 < n → s.Over alphabet →
      (debug = true → NoClash alphabet s) →
      ((Learnable alphabet s n → Satisfiable order alphabet debug s n) ↔
        (Learnable alphabet s n → ShortLearnable alphabet s n))) ∧
    (∀ (problems : List (Sample × Nat)) (learner : Learner),
      Session alphabet debug problems learner →
      ∀ (tried : List Nat) (m : Nat) (dfa : Automaton),
        Search alphabet debug learner.s learner.n tried m dfa →
        (∀ problem ∈ problems ++ tried.map (learner.s, ·),
          Decided alphabet debug problem) →
        IsLeast {k | 0 < k ∧ Learnable alphabet learner.s k} m) ∧
    ∀ (lib : Library) (sp : SafetyProblem) (iterations : List Iteration)
      (learner : Learner), sp.alphabet = alphabet →
      Solving lib sp debug iterations learner →
      ∃ problems, Session alphabet debug problems learner ∧
        ∀ (image : ImageFunction) (w : Automaton) (isWinningSet : Bool)
          (after : Learner),
          Round lib sp debug image learner w isWinningSet after →
          ∃ tried dfa,
            Search alphabet debug learner.s learner.n tried after.n dfa ∧
              (if debug then some dfa else lib.minimize dfa) = some w ∧
              ((∀ problem ∈ problems ++ tried.map (learner.s, ·),
                Decided alphabet debug problem) →
                IsLeast {k | 0 < k ∧ Learnable alphabet learner.s k}
                  after.n) := by
  refine ⟨?_, fun _ _ session _ _ _ => session.isLeast, ?_⟩
  · intro order s n positive within apart
    rw [satisfiable_iff_shortLearnable positive apart within]
  · rintro lib sp iterations learner rfl solving
    rcases solving.session with ⟨problems, session⟩
    refine ⟨problems, session, ?_⟩
    intro image w isWinningSet after round
    rcases round.conjecture with ⟨tried, dfa, search, isConjecture⟩
    exact ⟨tried, dfa, search, isConjecture, session.isLeast search⟩

/-! ## A witness that is too long -/

/-- The empty word is accepted, and then the word `a` is. -/
def nextSample : Sample where
  pos := [[]]
  neg := []
  ex := [⟨[], Automaton.makeString [97]⟩]
  uni := []
  size := 2

theorem nextSample_over : nextSample.Over [97] where
  letters := by simp [nextSample, Sample.words]
  ex := List.forall_mem_singleton.mpr (overAlphabet_of_states (by decide))
  uni := fun _ member => absurd member List.not_mem_nil
  disjoint := by decide

theorem nextSample_consistent {n : Nat} (positive : 0 < n) :
    nextSample.Consistent (dfaLang [97] (allWords positive)) where
  pos := fun word member =>
    mem_dfaLang_allWords (nextSample_over.letters word (by
      simp only [Sample.words, List.mem_append, member, true_or]))
  neg := fun _ member => absurd member List.not_mem_nil
  ex := List.forall_mem_singleton.mpr fun _ => ⟨[97], by simp,
    mem_dfaLang_allWords (by simp)⟩
  uni := fun _ member => absurd member List.not_mem_nil

/-- With one state the only witness `a` is too long for the length index. -/
theorem nextSample_not_shortLearnable : ¬ ShortLearnable [97] nextSample 1 := by
  rintro ⟨M, short⟩
  have accepted := short.consistent.pos [] (by decide)
  rcases short.short ⟨[], Automaton.makeString [97]⟩ (List.mem_singleton_self _)
      accepted with ⟨v, inA, _, bound⟩
  rw [Automaton.lang_makeString, Set.mem_singleton_iff] at inA
  rw [inA] at bound
  exact absurd bound (by decide)

theorem nextSample_shortConsistent :
    ShortConsistent nextSample 2 (dfaLang [97] (allWords two_pos)) := by
  refine ⟨nextSample_consistent two_pos, ?_, ?_⟩
  · exact List.forall_mem_singleton.mpr (by decide)
  · exact List.forall_mem_singleton.mpr fun _ => ⟨[97], by simp,
      mem_dfaLang_allWords (by simp), by decide⟩

theorem nextSample_unsatisfiable :
    Unsatisfiable StateOrder.found [97] false nextSample 1 := by
  have completes :
      (constructSAT StateOrder.found [97] false nextSample 1).isSome = true := by
    decide +kernel
  rcases Option.isSome_iff_exists.mp completes with ⟨problem, returns⟩
  refine ⟨problem, returns, fun satisfied => ?_⟩
  exact nextSample_not_shortLearnable
    (Satisfiable.shortLearnable ⟨problem, returns, satisfied⟩ Nat.one_pos
      nextSample_over)

/--
With two states the encoding is complete for the sample, and the result for the
sample of the empty word is the least one.
-/
theorem constructSAT_complete_iff_next :
    (Learnable [97] nextSample 2 →
      Satisfiable StateOrder.found [97] false nextSample 2) ∧
    ∃ dfa, Search [97] false positiveSample 1 [1] 1 dfa ∧
      IsLeast {k | 0 < k ∧ Learnable [97] positiveSample k} 1 := by
  rcases constructSAT_complete_iff [97] false with ⟨complete, least, _⟩
  have normal : ∀ {s : Sample}, false = true → NoClash [97] s :=
    fun isDebug => absurd isDebug Bool.false_ne_true
  refine ⟨(complete StateOrder.found nextSample 2 two_pos nextSample_over
    normal).mpr fun _ => ⟨_, nextSample_shortConsistent⟩, ?_⟩
  have none : ∀ {P : CounterExample → Prop}, ∀ ce ∈ [], P ce :=
    fun _ member => absurd member List.not_mem_nil
  have within : Sample.Over [97] positiveSample :=
    ⟨by simp [positiveSample, Sample.words], none, none, by decide⟩
  have short : ShortConsistent positiveSample 1
      (dfaLang [97] (allWords Nat.one_pos)) := by
    refine ⟨⟨?_, ?_, none, none⟩, none, none⟩
    · exact List.forall_mem_singleton.mpr (mem_dfaLang_allWords (by simp))
    · exact fun _ member => absurd member List.not_mem_nil
  rcases short.search (by decide) within with ⟨dfa, search, _⟩
  have session : Session [97] false [] ⟨1, positiveSample⟩ :=
    Session.new.add (fun _ _ => false) (.pos [])
  exact ⟨dfa, search, least [] _ session [1] 1 dfa search
    (List.forall_mem_singleton.mpr ⟨within, normal, fun _ => ⟨_, short⟩⟩)⟩

/--
One state is enough for the sample, but its only witness has as many letters as
the product has states but one: the problem with one state is unsatisfiable, and
the search ends at two.
-/
theorem constructSAT_not_complete :
    nextSample.Over [97] ∧ Learnable [97] nextSample 1 ∧
      ¬ Satisfiable StateOrder.found [97] false nextSample 1 ∧
      Session [97] false [] ⟨1, nextSample⟩ ∧
      ∃ dfa, Search [97] false nextSample 1 [1, 2] 2 dfa := by
  rcases nextSample_shortConsistent.search (by decide) nextSample_over with
    ⟨dfa, search, _⟩
  refine ⟨nextSample_over, ⟨_, nextSample_consistent Nat.one_pos⟩, ?_, ?_, dfa,
    Search.unsatisfiable StateOrder.found nextSample_unsatisfiable search⟩
  · exact fun satisfiable => nextSample_not_shortLearnable
      (satisfiable.shortLearnable Nat.one_pos nextSample_over)
  · exact (Session.new.add (fun _ _ => false) (.pos [])).add
      (fun _ _ => false) (.ex [] (Automaton.makeString [97]))

end SafetyGames.Solver
