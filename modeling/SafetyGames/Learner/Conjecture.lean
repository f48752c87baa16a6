import SafetyGames.Learner.EncodingComplete
import Mathlib.Order.Bounds.Basic

/-!
# The search of the learner

`conjecture` starts at the number of states of its last result and adds a
state for every unsatisfiable problem.  Between two calls the sample grows.
-/

namespace SafetyGames.Learner

open SafetyGames.Transducer SafetyGames.LabelledPath

/-! ## Runs of the learner -/

set_option linter.dupNamespace false in
/-- A `Learner`: the number of states of its last result, and its sample. -/
structure Learner where
  n : Nat
  s : Sample

set_option linter.dupNamespace false in
/-- `new Learner(alphabet, verbose, debug)`. -/
def Learner.new : Learner where
  n := 1
  s := Sample.empty

section Search

variable (alphabet : List JChar) (debug : Bool)

/-- The loop of `conjecture` from `n` on: the numbers of states it tries, the
one it ends at, and the automaton of the model, before it is minimized.  The
solver decides satisfiability and picks any model. -/
inductive Search (s : Sample) : Nat → List Nat → Nat → Automaton → Prop where
  | satisfiable {n : Nat} (positive : 0 < n) (order : StateOrder)
      {problem : Encoding} {model : Z3Name → Bool}
      (returns : constructSAT order alphabet debug s n = some problem)
      (satisfied : Satisfies model problem.constraints) :
      Search s n [n] n (translateModel alphabet n problem.name model positive)
  | unsatisfiable {n : Nat} (order : StateOrder)
      (unsatisfiable : Unsatisfiable order alphabet debug s n)
      {tried : List Nat} {m : Nat} {dfa : Automaton}
      (rest : Search s (n + 1) tried m dfa) :
      Search s n (n :: tried) m dfa

/-- The calls of a learner, in any order, with the problems that were constructed. -/
inductive Session : List (Sample × Nat) → Learner → Prop where
  | new : Session [] Learner.new
  | conjecture {problems : List (Sample × Nat)} {learner : Learner}
      (earlier : Session problems learner) {tried : List Nat} {m : Nat}
      {dfa : Automaton}
      (search : Search alphabet debug learner.s learner.n tried m dfa) :
      Session (problems ++ tried.map (learner.s, ·)) ⟨m, learner.s⟩
  | add {problems : List (Sample × Nat)} {learner : Learner}
      (earlier : Session problems learner)
      (automataEqual : Automaton → Automaton → Bool)
      (addition : Sample.Addition) :
      Session problems ⟨learner.n, learner.s.add automataEqual addition⟩

end Search

/-! ## Results of the search -/

section Results

variable {alphabet : List JChar} {debug : Bool} {s : Sample}

/-- The result of a search is a complete automaton with an honest flag, and it
is consistent with the sample. -/
theorem Search.spec (nodup : alphabet.Nodup) {n m : Nat} {tried : List Nat}
    {dfa : Automaton} (search : Search alphabet debug s n tried m dfa) :
    dfa.HonestFlag ∧
      (∃ M : DFA JChar (Fin m), dfa.lang = dfaLang alphabet M) ∧
      ((∀ word ∈ s.pos, word ∉ s.neg) →
        (∀ cu ∈ s.uni, OverAlphabet alphabet cu.a) →
        s.Consistent dfa.lang) := by
  induction search with
  | @satisfiable n positive order problem model returns satisfied =>
      rcases solved_of_constructSAT positive returns satisfied with ⟨w, solved⟩
      refine ⟨translateModel_honestFlag nodup solved.total,
        ⟨dfaOf (model ∘ problem.name) alphabet positive, ?_⟩,
        fun disjoint within => ?_⟩
      · rw [translateModel_lang nodup, dfaLang_dfaOf solved.total]
      · rw [translateModel_lang nodup]
        exact (solved.shortConsistent disjoint within).consistent
  | unsatisfiable _ _ _ induction => exact induction

theorem Search.singleChars {n m : Nat} {tried : List Nat} {dfa : Automaton}
    (search : Search alphabet debug s n tried m dfa) : dfa.SingleChars := by
  induction search with
  | satisfiable => exact singleChars_translateModel _ _ _ _ _
  | unsatisfiable _ _ _ induction => exact induction

/-- The number of states that the search ends at is large enough. -/
theorem Search.learnable (within : s.Over alphabet) {n m : Nat}
    {tried : List Nat} {dfa : Automaton}
    (search : Search alphabet debug s n tried m dfa) :
    0 < m ∧ Learnable alphabet s m := by
  induction search with
  | satisfiable positive order returns satisfied =>
      have satisfiable : Satisfiable order alphabet debug s _ :=
        ⟨_, returns, _, satisfied⟩
      exact ⟨positive, (satisfiable.shortLearnable positive within).learnable⟩
  | unsatisfiable _ _ _ induction => exact induction

/-- A search may end at once with any automaton that has short witnesses. -/
theorem ShortConsistent.search {n : Nat} {M : DFA JChar (Fin n)}
    (short : ShortConsistent s n (dfaLang alphabet M))
    (nodup : alphabet.Nodup) (within : s.Over alphabet) :
    ∃ dfa, Search alphabet false s n [n] n dfa ∧
      dfa.lang = dfaLang alphabet M := by
  rcases short.exists_model within StateOrder.found with
    ⟨problem, model, returns, satisfied, same⟩
  have positive := Fin.pos M.start
  exact ⟨_, Search.satisfiable positive StateOrder.found returns satisfied,
    (translateModel_lang nodup).trans same⟩

end Results

/-! ## Small examples -/

/-- The complete automaton that accepts every word. -/
def allWords {n : Nat} (positive : 0 < n) : DFA JChar (Fin n) where
  step p _ := p
  start := ⟨0, positive⟩
  accept := Set.univ

theorem mem_dfaLang_allWords {alphabet : List JChar} {n : Nat}
    {positive : 0 < n} {word : Word} (letters : ∀ c ∈ word, c ∈ alphabet) :
    word ∈ dfaLang alphabet (allWords positive) :=
  ⟨letters, Set.mem_univ _⟩

/-- The empty word is accepted. -/
def positiveSample : Sample where
  pos := [[]]
  neg := []
  ex := []
  uni := []
  size := 1

end SafetyGames.Learner
