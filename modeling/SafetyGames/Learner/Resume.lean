import SafetyGames.Learner.ExactPairs
import SafetyGames.Learner.Regrouping
import SafetyGames.Learner.SearchBounds
import SafetyGames.Transducer.ImageLanguage

/-!
# Resuming the search

`conjecture` starts from the number of states at which the previous search
ended.  The solutions of a sample are those of the smaller one, and an
automaton with one more state that no word leads to is still a solution, since
the bound of the length index only grows.  In the debug mode the second part
fails: the automata of two existential counter-examples share their cells, and
with one more length the constraints of one contradict those of the other.
-/

namespace SafetyGames.Learner

open SafetyGames.Transducer SafetyGames.LabelledPath SafetyGames.Worklist
open PrefixTree BoolExpr

/-! ## Further additions -/

/-- The sample after a sequence of calls. -/
def Sample.addAll (automataEqual : Automaton → Automaton → Bool)
    (sample : Sample) (additions : List Sample.Addition) : Sample :=
  additions.foldl (Sample.add automataEqual) sample

theorem Sample.included_addAll
    {automataEqual : Automaton → Automaton → Bool} {sample : Sample}
    {additions : List Sample.Addition} :
    sample.Included (sample.addAll automataEqual additions) := by
  induction additions generalizing sample with
  | nil => exact Sample.Included.refl sample
  | cons addition additions induction =>
      exact Sample.Included.trans Sample.included_add induction

/-- No word is asked for and forbidden. -/
def Sample.Disjoint (s : Sample) : Prop :=
  ∀ word ∈ s.pos, word ∉ s.neg

section Seen

variable {alphabet : List JChar} {s later : Sample}

theorem seen_included (included : s.Included later)
    (disjoint : later.Disjoint) : s.seen.Included later.seen where
  pos := included.pos
  neg := by
    intro word member
    have inNeg := included.neg (List.mem_filter.mp member).1
    have notPos : later.pos.contains word ≠ true := fun inPos =>
      disjoint word (List.contains_iff_mem.mp inPos) inNeg
    apply List.mem_filter.mpr
    exact ⟨inNeg, by simpa using notPos⟩
  ex := List.map_subset _ included.ex
  uni := List.map_subset _ included.uni

theorem words_subset_of_included (included : s.Included later) :
    s.words ⊆ later.words := by
  intro word member
  simp only [Sample.words, List.mem_append, List.mem_map] at member ⊢
  rcases member with ((inPos | inNeg) | ⟨cu, inUni, same⟩) | ⟨ce, inEx, same⟩
  · exact Or.inl (Or.inl (Or.inl (included.pos inPos)))
  · exact Or.inl (Or.inl (Or.inr (included.neg inNeg)))
  · exact Or.inl (Or.inr ⟨cu, included.uni inUni, same⟩)
  · exact Or.inr ⟨ce, included.ex inEx, same⟩

theorem Sample.Over.of_included (within : later.Over alphabet)
    (included : s.Included later) : s.Over alphabet where
  letters := fun word member =>
    within.letters word (words_subset_of_included included member)
  ex := fun ce member => within.ex ce (included.ex member)
  uni := fun cu member => within.uni cu (included.uni member)
  disjoint := fun word inPos inNeg =>
    within.disjoint word (included.pos inPos) (included.neg inNeg)

end Seen

/-! ## Smaller samples and more states -/

section Short

variable {alphabet : List JChar} {s later : Sample} {n : Nat}

theorem ShortConsistent.of_included {language : Set Word}
    (short : ShortConsistent later n language)
    (included : s.Included later) : ShortConsistent s n language where
  consistent := short.consistent.of_included included
  positive := fun ce member => short.positive ce (included.ex member)
  short := fun ce member => short.short ce (included.ex member)

theorem ShortLearnable.of_included (short : ShortLearnable alphabet later n)
    (included : s.Included later) : ShortLearnable alphabet s n :=
  short.imp fun _ short => short.of_included included

theorem lMax_le_succ (n na : Nat) : lMax n na ≤ lMax (n + 1) na :=
  Nat.sub_le_sub_right (Nat.mul_le_mul_right na n.le_succ) 1

/-- The length index of one more state reaches at least as far. -/
theorem ShortConsistent.succ {language : Set Word}
    (short : ShortConsistent s n language) :
    ShortConsistent s (n + 1) language where
  consistent := short.consistent
  positive := fun ce member =>
    (short.positive ce member).trans_le (lMax_le_succ n _)
  short := by
    intro ce member inLanguage
    rcases short.short ce member inLanguage with ⟨v, inA, accepted, bound⟩
    exact ⟨v, inA, accepted, bound.trans_le (lMax_le_succ n _)⟩

/-- A state that no word leads to may be added. -/
theorem ShortLearnable.succ (short : ShortLearnable alphabet s n) :
    ShortLearnable alphabet s (n + 1) := by
  rcases short with ⟨M, short⟩
  refine ⟨padded M, ?_⟩
  rw [dfaLang_padded]
  exact short.succ

end Short

/-! ## Satisfiable problems -/

section Satisfiable

variable {order other : StateOrder} {alphabet : List JChar} {debug : Bool}
  {s later : Sample} {w : PrefixTree} {n : Nat}

/-- The lower ends of a numbered automaton are over the alphabet. -/
theorem overAlphabet_of_numbered {a : Automaton} {numbers : Numbered}
    (returns : numbered order (charMap alphabet) a.lowered = some numbers) :
    OverAlphabet alphabet a.lowered := by
  rw [numbered] at returns
  split_ifs at returns with known
  intro ref reachable transition member
  have letter := known ref (order.mem_states.mpr reachable) transition member
  rcases mem_lowered.mp member with ⟨group, _, rfl⟩
  exact ⟨rfl, charMap_isSome_iff.mp letter⟩

/-- The sample of a solution is over the alphabet, as far as it is seen. -/
theorem Realizes.over_seen {part : Part n alphabet.length}
    (realizes : Realizes order alphabet s n w part)
    (filled : Filled alphabet s w) : s.seen.Over alphabet := by
  have known : ∀ word ∈ s.words, ∀ c ∈ word, c ∈ alphabet := by
    intro word member
    rcases filled.words word member with ⟨_, leads⟩
    exact leads_letters leads
  have seen : Realizes order alphabet s.seen n w part :=
    (realizes_seen_iff filled).mp realizes
  rcases seen with ⟨v, satisfied, _⟩
  have parts := satisfied_cellConstraints.mp satisfied
  refine ⟨fun word member => known word (words_seen member), ?_, ?_,
    disjoint_seen⟩
  · intro ce member
    rcases List.mem_iff_getElem?.mp member with ⟨e, position⟩
    rcases filled.seen.leads_of_ex member with ⟨_, leads⟩
    rcases (satisfied_exProblem leads).mp (parts.2.1 (ce, e)
      (List.mem_zipIdx_iff_getElem?.mpr position)) with ⟨_, returns, _⟩
    rcases List.mem_map.mp member with ⟨_, _, rfl⟩
    exact overAlphabet_of_numbered returns
  · intro cu member
    rcases List.mem_iff_getElem?.mp member with ⟨u, position⟩
    rcases filled.seen.leads_of_uni member with ⟨_, leads⟩
    rcases (satisfied_uniProblem leads).mp (parts.1 (cu, u)
      (List.mem_zipIdx_iff_getElem?.mpr position)) with ⟨_, returns, _⟩
    rcases List.mem_map.mp member with ⟨_, _, rfl⟩
    exact overAlphabet_of_numbered returns

/-- A satisfiable problem has an automaton with short witnesses for what is
seen of the sample. -/
theorem Satisfiable.seen (satisfiable : Satisfiable order alphabet debug s n)
    (positive : 0 < n) :
    s.seen.Over alphabet ∧ ShortLearnable alphabet s.seen n := by
  rcases satisfiable_iff_solutions.mp satisfiable with ⟨part, member⟩
  rcases mem_cellSolutions_iff.mp (solutions_subset member) with
    ⟨w, fills, realizes⟩
  have filled := fillTree_spec fills
  have within := realizes.over_seen filled
  have seen : Realizes order alphabet s.seen n w part :=
    (realizes_seen_iff filled).mp realizes
  rcases seen with ⟨v, satisfied, _⟩
  have solved := solved_of_satisfied positive filled.seen satisfied
  refine ⟨within, dfaOf v alphabet positive, ?_⟩
  rw [dfaLang_dfaOf solved.total]
  exact solved.shortConsistent within.disjoint within.uni

theorem letters_of_over_seen (within : s.seen.Over alphabet) :
    ∀ word ∈ s.words, ∀ c ∈ word, c ∈ alphabet := by
  intro word member
  apply within.letters
  simp only [Sample.words, Sample.seen, List.mem_append, List.mem_map,
    List.mem_filter, exists_exists_and_eq_and] at member ⊢
  rcases member with ((inPos | inNeg) | inUni) | inEx
  · exact Or.inl (Or.inl (Or.inl inPos))
  · by_cases inPos : word ∈ s.pos
    · exact Or.inl (Or.inl (Or.inl inPos))
    · exact Or.inl (Or.inl (Or.inr ⟨inNeg, by simpa using inPos⟩))
  · exact Or.inl (Or.inr inUni)
  · exact Or.inr inEx

/-- The cells of an automaton with short witnesses. -/
theorem exists_realizes (within : s.seen.Over alphabet)
    (short : ShortLearnable alphabet s.seen n) (order : StateOrder) :
    ∃ part, part ∈ cellSolutions order alphabet s n := by
  rcases short with ⟨M, short⟩
  rcases exists_dfa_start_zero alphabet M with ⟨N, start, sameLang⟩
  rw [← sameLang] at short
  rcases fillTree_returns (letters_of_over_seen within) with ⟨w, fills⟩
  have filled := fillTree_spec fills
  have seen : Realizes order alphabet s.seen n w (partOfDfa alphabet N) :=
    realizes_of_shortConsistent filled.seen within start short
  exact ⟨_, mem_cellSolutions_iff.mpr
    ⟨w, fills, (realizes_seen_iff filled).mpr seen⟩⟩

/-- In the normal mode, and without a clash, an automaton with short witnesses
satisfies the problem. -/
theorem satisfiable_of_seen (positive : 0 < n)
    (apart : debug = true → NoClash alphabet s)
    (within : s.seen.Over alphabet)
    (short : ShortLearnable alphabet s.seen n) :
    Satisfiable order alphabet debug s n := by
  rw [satisfiable_iff_solutions, solutions_of_noClash positive apart]
  exact exists_realizes within short order

/-- Without a clash a search may end at once with any automaton that has short
witnesses, in both modes. -/
theorem search_of_noClash {M : DFA JChar (Fin n)}
    (short : ShortConsistent s n (dfaLang alphabet M))
    (within : s.Over alphabet) (clash : NoClash alphabet s) (debug : Bool) :
    ∃ dfa, Search alphabet debug s n [n] n dfa ∧
      dfa.lang = dfaLang alphabet M := by
  have positive := Fin.pos M.start
  rcases short.exists_model within StateOrder.found with
    ⟨problem, model, returns, satisfied, same⟩
  have found : partOf n alphabet.length (model ∘ problem.name) ∈
      solutions StateOrder.found alphabet debug s n := by
    rw [solutions_of_noClash positive fun _ => clash,
      ← solutions_number positive]
    exact ⟨problem, model, returns, satisfied, rfl⟩
  rcases found with ⟨other, otherModel, otherReturns, otherSatisfied, samePart⟩
  rcases solved_of_constructSAT positive returns satisfied with ⟨_, solved⟩
  rcases solved_of_constructSAT positive otherReturns otherSatisfied with
    ⟨_, otherSolved⟩
  have lang : dfaLang alphabet (dfaOf (model ∘ problem.name) alphabet positive) =
      acceptedBy (model ∘ problem.name) alphabet n :=
    dfaLang_dfaOf solved.total
  have otherLang :
      dfaLang alphabet (dfaOf (otherModel ∘ other.name) alphabet positive) =
        acceptedBy (otherModel ∘ other.name) alphabet n :=
    dfaLang_dfaOf otherSolved.total
  refine ⟨_, Search.satisfiable positive StateOrder.found otherReturns
    otherSatisfied, ?_⟩
  rw [translateModel_lang clash.letters, ← same, ← otherLang, ← lang]
  apply dfaLang_eq_of_part rfl rfl
  rw [partOfDfa_dfaOf clash.letters otherSolved.total,
    partOfDfa_dfaOf clash.letters solved.total, samePart]

/-- Where nothing clashes in the smaller sample, satisfiability passes to it
and to one more state. -/
theorem satisfiable_resume (positive : 0 < n)
    (apart : debug = true → NoClash alphabet s)
    (included : s.Included later) (disjoint : later.Disjoint) :
    (Satisfiable order alphabet debug later n →
        Satisfiable other alphabet debug s n) ∧
      (Satisfiable order alphabet debug s n →
        Satisfiable other alphabet debug s (n + 1)) := by
  constructor
  · intro satisfiable
    rcases satisfiable.seen positive with ⟨within, short⟩
    have seen := seen_included included disjoint
    exact satisfiable_of_seen positive apart (within.of_included seen)
      (short.of_included seen)
  · intro satisfiable
    rcases satisfiable.seen positive with ⟨within, short⟩
    exact satisfiable_of_seen n.succ_pos apart within short.succ

end Satisfiable

/-! ## Shared cells -/

section Shared

variable {order : StateOrder} {alphabet : List JChar} {n e id : Nat}
  {v : Var → Bool} {a : Automaton} {numbers : Numbered}

/-- An automaton with a single state has the number 0 only. -/
theorem number_eq_zero (single : a.getNumberOfStates = 1) {ref : Nat}
    (reachable : a.Reachable ref) : order.number a ref = 0 := by
  have bound := order.number_lt reachable
  omega

/-- With a single length only the pair of the initial states is constrained. -/
theorem exSatisfied_of_single
    (isNumbered : IsNumbered order alphabet a numbers)
    (single : a.getNumberOfStates = 1) (lengths : lMax n numbers.na = 1)
    (initial : v (.z e 0 0 0) = true)
    (onlyZero : ∀ q, v (.z e q 0 0) = true → q = 0)
    (rejects : ∀ q, v (.f q) = false) : ExSatisfied v n e numbers id := by
  have isInitial : numbers.initial = 0 :=
    isNumbered.initial.trans (number_eq_zero single Automaton.Reachable.initial)
  have states : ∀ m ∈ numbers.states, m = 0 := by
    intro m member
    rcases (isNumbered.states m).mp member with ⟨ref, reachable, rfl⟩
    exact number_eq_zero single reachable
  exact
    { initial := by
        rw [isInitial]
        exact initial
      onlyInitial := by
        intro state member q _ reached
        rw [states state member] at reached ⊢
        exact ⟨isInitial.symm, onlyZero q reached⟩
      forward := by
        intro _ _ _ _ _ _ _ _ _ l bound
        omega
      backward := by
        intro _ _ _ _ l bound
        omega
      implication := by
        rintro ⟨q, _, _, accepts⟩
        rw [rejects q] at accepts
        exact absurd accepts Bool.false_ne_true }

/-- The empty word has no consequence, and the word `c` has the consequences `c*`. -/
def sharedSample (c : JChar) : Sample where
  pos := []
  neg := []
  ex := [⟨[], Automaton.makeEmpty⟩, ⟨[c], starAutomaton c⟩]
  uni := []
  size := 2

/-- Everything stays in state 0, and nothing is accepted. -/
def restingModel : Z3Name → Bool
  | .number _ => false
  | .f _ => false
  | .d _ _ q => q == 0
  | .x _ q => q == 0
  | .y _ _ => false
  | .z p _ _ => p == 0

theorem starAutomaton_over {c : JChar} (letter : c ∈ alphabet) :
    OverAlphabet alphabet (starAutomaton c) := by
  intro ref reachable transition member
  have step : (starAutomaton c).states.Step ref transition.min transition.dest :=
    ⟨transition, member, transition.reads_min, rfl⟩
  rcases starAutomaton_step_iff.mp step with ⟨rfl, _, _⟩
  rcases List.mem_singleton.mp member with rfl
  exact ⟨rfl, letter⟩

theorem sharedSample_over {c : JChar} (letter : c ∈ alphabet) :
    (sharedSample c).Over alphabet where
  letters := by simp [sharedSample, Sample.words, letter]
  ex := by
    have empty : OverAlphabet alphabet Automaton.makeEmpty :=
      fun _ _ transition member => absurd
        ⟨transition, member, transition.reads_min, rfl⟩ Automaton.not_step_makeEmpty
    exact List.forall_mem_cons.mpr
      ⟨empty, List.forall_mem_singleton.mpr (starAutomaton_over letter)⟩
  uni := fun _ member => absurd member List.not_mem_nil
  disjoint := fun _ member => absurd member List.not_mem_nil

/-- With two states the automaton that rejects everything satisfies the
problem, in both modes. -/
theorem sharedSample_satisfiable {c : JChar} (letter : c ∈ alphabet)
    (order : StateOrder) :
    Satisfiable order alphabet true (sharedSample c) 2 := by
  have within := sharedSample_over letter
  rcases fillTree_returns within.letters with ⟨w, fills⟩
  have filled := fillTree_spec fills
  let v := restingModel ∘
    nameOf true alphabet w (allocated alphabet (sharedSample c) 2 w)
  have single : ∀ ce ∈ (sharedSample c).ex, ce.a.getNumberOfStates = 1 :=
    List.forall_mem_cons.mpr ⟨rfl, List.forall_mem_singleton.mpr rfl⟩
  have x : ∀ u q, v (.x u q) = true ↔ q = 0 := fun _ _ => beq_iff_eq
  have d : ∀ p a q, v (.d p a q) = true ↔ q = 0 := fun _ _ _ => beq_iff_eq
  have satisfied : Satisfied v
      (cellConstraints order alphabet (sharedSample c) 2 w) := by
    refine satisfied_cellConstraints.mpr ⟨?_, ?_, ?_, ?_, ?_⟩
    · exact fun _ member => absurd member List.not_mem_nil
    · rintro ⟨ce, e⟩ inList
      have member := List.mem_of_getElem? (List.mem_zipIdx_iff_getElem?.mp inList)
      rcases filled.leads_of_ex member with ⟨id, leads⟩
      rcases numbered_returns (within.ex ce member) with ⟨numbers, returns⟩
      have isNumbered : IsNumbered order alphabet ce.a numbers :=
        numbered_spec returns
      have lengths : lMax 2 numbers.na = 1 := by
        rw [isNumbered.na, single ce member, lMax]
      apply (satisfied_exProblem leads).mpr
      refine ⟨numbers, returns, lengths ▸ one_pos, ?_⟩
      exact exSatisfied_of_single isNumbered (single ce member) lengths rfl
        (fun q reached => beq_iff_eq.mp reached) fun _ => rfl
    · apply satisfies_dConstraints.mpr
      intro p _ a _
      refine ⟨fun q _ r _ left right => ?_, 0, two_pos, rfl⟩
      rw [(d p a q).mp left, (d p a r).mp right]
    · apply (satisfies_initialConstraints two_pos).mpr
      exact ⟨rfl, fun q _ reached => (x 0 q).mp reached⟩
    · rcases filled.isTree.traverse_returns with ⟨prefixes, traversed⟩
      refine ⟨prefixes, traversed, fun id member => ⟨?_, ?_, ?_, ?_⟩⟩
      · intro q _ r _ left right
        rw [(x id q).mp left, (x id r).mp right]
      · intro a _ next _ p _ q _ _ chosen
        rw [(d p a q).mp chosen]
        rfl
      · intro mark
        rcases filled.exists_leads traversed member with ⟨word, leads⟩
        rw [filled.marks word id leads] at mark
        exact absurd mark (by simp [markOf, sharedSample])
      · exact fun _ _ _ _ => Bool.false_ne_true
  have agree : ∀ cell ∈ allocated alphabet (sharedSample c) 2 w,
      restingModel (nameOf true alphabet w
        (allocated alphabet (sharedSample c) 2 w) cell) = v cell :=
    fun _ _ => rfl
  exact satisfiable_iff_solutions.mpr
    ⟨_, mem_solutions_of_agree two_pos fills satisfied agree⟩

/-- The names of the debug mode leave out the index of the counter-example. -/
theorem name_z_debug {s : Sample} {problem : Encoding}
    (returns : constructSAT order alphabet true s n = some problem)
    {e e' p p2 l : Nat} :
    problem.name (.z e p p2 l) = problem.name (.z e' p p2 l) := by
  simp only [constructSAT, Option.bind_eq_bind, Option.bind_eq_some_iff,
    Option.some.injEq] at returns
  rcases returns with ⟨_, _, _, _, rfl⟩
  rfl

/-- In the debug mode two existential counter-examples share the cells of states
with the same number, so that words of the same length lead to the same pairs. -/
theorem exists_of_shared {s : Sample} {problem : Encoding}
    (returns : constructSAT order alphabet true s n = some problem)
    {model : Z3Name → Bool} (satisfied : Satisfies model problem.constraints)
    {ce other : CounterExample} {e e' : Nat} (position : s.ex[e]? = some ce)
    (otherPosition : s.ex[e']? = some other)
    (within : OverAlphabet alphabet ce.a)
    (otherWithin : OverAlphabet alphabet other.a) {ref otherRef q : Nat}
    (reachable : ce.a.Reachable ref) (otherReachable : other.a.Reachable otherRef)
    (sameNumber : order.number ce.a ref = order.number other.a otherRef)
    (inside : q < n) {word : Word}
    (bound : word.length < lMax n ce.a.getNumberOfStates)
    (otherBound : word.length < lMax n other.a.getNumberOfStates)
    (path : Path (Moves (model ∘ problem.name) alphabet n) 0 word q)
    (walk : Path ce.a.states.Step ce.a.initial word ref) :
    ∃ twin : Word, twin.length = word.length ∧
      Path (Moves (model ∘ problem.name) alphabet n) 0 twin q ∧
        Path other.a.states.Step other.a.initial twin otherRef := by
  rcases exSatisfied_of_constructSAT returns satisfied position with
    ⟨numbers, _, isNumbered, holds⟩
  rcases exSatisfied_of_constructSAT returns satisfied otherPosition with
    ⟨others, _, isOthers, otherHolds⟩
  rw [← isNumbered.na] at bound
  rw [← isOthers.na] at otherBound
  have demanded : (model ∘ problem.name)
      (.z e q (order.number ce.a ref) word.length) = true :=
    (z_iff isNumbered within holds reachable inside bound).mpr
      ⟨word, rfl, path, walk⟩
  apply (z_iff isOthers otherWithin otherHolds otherReachable inside
    otherBound).mp
  rwa [Function.comp_apply, ← sameNumber, ← name_z_debug returns]

/-- With three states the loop demands a pair that the automaton without
transitions forbids. -/
theorem sharedSample_not_satisfiable {c : JChar} (letter : c ∈ alphabet)
    (order : StateOrder) :
    ¬ Satisfiable order alphabet true (sharedSample c) 3 := by
  rintro ⟨problem, returns, model, satisfied⟩
  have within := sharedSample_over letter
  rcases solved_of_constructSAT (Nat.succ_pos 2) returns satisfied with
    ⟨_, solved⟩
  rcases moves_existsUnique solved.total (Nat.succ_pos 2) letter with
    ⟨q, move, _⟩
  have sameNumber : order.number (starAutomaton c) 0 =
      order.number Automaton.makeEmpty 0 :=
    (number_eq_zero rfl Automaton.Reachable.initial).trans
      (number_eq_zero rfl Automaton.Reachable.initial).symm
  have loop : Path (starAutomaton c).states.Step 0 [c] 0 :=
    Path.single (starAutomaton_step_iff.mpr ⟨rfl, rfl, rfl⟩)
  have bound : ([c] : Word).length < 2 := Nat.lt_succ_self 1
  rcases exists_of_shared returns satisfied
    (rfl : (sharedSample c).ex[1]? = some ⟨[c], starAutomaton c⟩)
    (rfl : (sharedSample c).ex[0]? = some ⟨[], Automaton.makeEmpty⟩)
    (within.ex _ (by simp [sharedSample])) (within.ex _ (by simp [sharedSample]))
    Automaton.Reachable.initial Automaton.Reachable.initial sameNumber
    move.2.1 bound bound (Path.single move) loop with
    ⟨twin, length, _, walk⟩
  cases walk with
  | nil => exact absurd length (by simp)
  | cons head _ => exact Automaton.not_step_makeEmpty head

/-- A call on a sample over the alphabet completes where all `z` arrays have a
length. -/
theorem unsatisfiable_of_not_satisfiable {debug : Bool} {s : Sample}
    (within : s.Over alphabet)
    (lengths : ∀ ce ∈ s.ex, 0 < lMax n ce.a.getNumberOfStates)
    (none : ¬ Satisfiable order alphabet debug s n) :
    Unsatisfiable order alphabet debug s n := by
  rcases fillTree_returns within.letters with ⟨w, fills⟩
  have readsOver : ∀ ce ∈ s.uni ++ s.ex, ReadsOver alphabet ce.a :=
    List.forall_mem_append.mpr
      ⟨fun cu member => (within.uni cu member).readsOver,
        fun ce member => (within.ex ce member).readsOver⟩
  rcases (constructSAT_returns_iff fills).mpr
    ((cellConstraints_returns_iff order (fillTree_spec fills) readsOver).mpr
      lengths) with ⟨problem, returns⟩
  exact ⟨problem, returns, fun ⟨model, satisfied⟩ =>
    none ⟨problem, returns, model, satisfied⟩⟩

/-- The call completes all the same. -/
theorem sharedSample_unsatisfiable {c : JChar} (letter : c ∈ alphabet)
    (order : StateOrder) :
    Unsatisfiable order alphabet true (sharedSample c) 3 :=
  unsatisfiable_of_not_satisfiable (sharedSample_over letter)
    (List.forall_mem_cons.mpr ⟨two_pos, List.forall_mem_singleton.mpr two_pos⟩)
    (sharedSample_not_satisfiable letter order)

end Shared

/-! ## Without letters -/

section Empty

variable {order other : StateOrder} {s later : Sample} {w : PrefixTree}
  {n : Nat}

theorem over_of_seen_nil (within : s.seen.Over []) (disjoint : s.Disjoint) :
    s.Over [] where
  letters := letters_of_over_seen within
  ex := by
    intro ce member ref reachable transition inState
    have lowered := within.ex ce.lowered (List.mem_map_of_mem member) ref
      (reachable_lowered_iff.mpr reachable) transition.lower
      (mem_lowered.mpr ⟨transition, inState, rfl⟩)
    exact absurd lowered.2 List.not_mem_nil
  uni := by
    intro cu member ref reachable transition inState
    have lowered := within.uni cu.lowered (List.mem_map_of_mem member) ref
      (reachable_lowered_iff.mpr reachable) transition.lower
      (mem_lowered.mpr ⟨transition, inState, rfl⟩)
    exact absurd lowered.2 List.not_mem_nil
  disjoint := disjoint

theorem eq_nil_of_letters {word : Word} (letters : ∀ c ∈ word, c ∈ []) :
    word = [] :=
  List.eq_nil_iff_forall_not_mem.mpr fun c member =>
    List.not_mem_nil (letters c member)

/-- Without letters an automaton stays in its initial state, which is number 0. -/
theorem path_iff_of_nil {a : Automaton} (within : OverAlphabet [] a)
    {word : Word} {ref : Nat} :
    Path a.states.Step a.initial word ref ↔ word = [] ∧ a.initial = ref := by
  constructor
  · intro path
    rcases eq_nil_of_letters (within.letters Automaton.Reachable.initial path) with
      rfl
    exact ⟨rfl, Path.nil_iff.mp path⟩
  · rintro ⟨rfl, rfl⟩
    exact Path.nil _

theorem number_initial_of_nil {a : Automaton} (within : OverAlphabet [] a) :
    order.number a a.initial = 0 := by
  have only : ∀ ref ∈ order.states a, a.initial = ref := by
    intro ref member
    rcases order.mem_states.mp member with ⟨word, path⟩
    exact ((path_iff_of_nil within).mp path).2
  have known : a.initial ∈ order.states a :=
    order.mem_states.mpr Automaton.Reachable.initial
  rw [StateOrder.number]
  cases states : order.states a with
  | nil =>
      rw [states] at known
      exact absurd known List.not_mem_nil
  | cons head tail =>
      have isHead := only head (states ▸ List.mem_cons_self)
      rw [← isHead]
      exact List.idxOf_cons_self

/-- The names of a problem without letters have one value each. -/
def stillModel (accept : Nat → Bool) : Z3Name → Bool
  | .f q => accept q
  | .x _ q => q == 0
  | .y p p2 => p == 0 && p2 == 0
  | .z p p2 l => p == 0 && p2 == 0 && l == 0
  | .d _ _ _ => false
  | .number _ => false

/-- Without letters the counter-examples may share their cells. -/
theorem stillModel_agree {M : DFA JChar (Fin n)} {v : Var → Bool}
    (describes : Describes order [] s w M v)
    (fills : fillTree [] s = some w) :
    ∀ cell ∈ allocated [] s n w,
      stillModel (fun q => v (.f q))
        (nameOf true [] w (allocated [] s n w) cell) = v cell := by
  have start : ∀ {q : Nat}, (M.eval []).val = q ↔ q = 0 := by
    intro q
    rw [DFA.eval_nil, describes.start]
    exact eq_comm
  intro cell member
  rw [mem_declarations] at member
  rw [Bool.eq_iff_iff]
  cases cell with
  | f q => exact Iff.rfl
  | d p a q => exact absurd member.2.1 (Nat.not_lt_zero a)
  | x u q =>
      rcases fillTree_stores fills u member.1 with ⟨word, leads, _⟩
      rcases eq_nil_of_letters (leads_letters leads) with rfl
      rw [describes.run_iff leads, start]
      exact beq_iff_eq
  | y u p p2 =>
      rcases member with ⟨_, _, size, _⟩
      have position := List.getElem?_eq_getElem (index_lt_of_sizes size)
      have within := describes.within.uni _ (List.mem_of_getElem? position)
      rw [describes.pair_iff position]
      simp only [stillModel, nameOf, if_true, Bool.and_eq_true, beq_iff_eq]
      constructor
      · rintro ⟨isStart, isInitial⟩
        exact ⟨[], _, Path.nil _, (number_initial_of_nil within).trans
          isInitial.symm, start.mpr isStart⟩
      · rintro ⟨word, ref, path, isNumber, isState⟩
        rcases (path_iff_of_nil within).mp path with ⟨rfl, rfl⟩
        exact ⟨start.mp isState,
          isNumber.symm.trans (number_initial_of_nil within)⟩
  | z e p p2 l =>
      rcases member with ⟨_, _, size, _, bound⟩
      have inside := index_lt_of_sizes size
      have position := List.getElem?_eq_getElem inside
      rcases Option.some.inj (size.symm.trans (position_sizes position)) with rfl
      have within := describes.within.ex _ (List.mem_of_getElem? position)
      rw [describes.timed_iff position]
      simp only [stillModel, nameOf, if_true, Bool.and_eq_true, beq_iff_eq]
      constructor
      · rintro ⟨⟨isStart, isInitial⟩, isZero⟩
        exact ⟨bound, [], _, Path.nil _, (number_initial_of_nil within).trans
          isInitial.symm, start.mpr isStart, isZero.symm⟩
      · rintro ⟨_, word, ref, path, isNumber, isState, length⟩
        rcases (path_iff_of_nil within).mp path with ⟨rfl, rfl⟩
        exact ⟨⟨start.mp isState,
          isNumber.symm.trans (number_initial_of_nil within)⟩, length.symm⟩

/-- Without letters an automaton with short witnesses satisfies the problem of
the debug mode too. -/
theorem satisfiable_of_nil (within : s.Over []) {n : Nat}
    (short : ShortLearnable [] s n) :
    Satisfiable order [] true s n := by
  rcases short with ⟨M, short⟩
  rcases exists_dfa_start_zero [] M with ⟨N, start, sameLang⟩
  rw [← sameLang] at short
  rcases fillTree_returns within.letters with ⟨w, fills⟩
  have describes : Describes order [] s w N (describedBy order [] s w N) :=
    { chosen := fun _ => describedBy_iff
      filled := fillTree_spec fills
      within := within
      start := start }
  exact satisfiable_iff_solutions.mpr ⟨_, mem_solutions_of_agree
    (Fin.pos N.start) fills (describes.satisfied short)
    (stillModel_agree describes fills)⟩

end Empty

/-! ## Resuming -/

section Resume

variable {alphabet : List JChar} {debug : Bool}

/-- No two cells of the problem share a name: the learner is in the normal mode,
or it has no letters, or nothing clashes in its sample. -/
def NamesApart (alphabet : List JChar) (debug : Bool) (s : Sample) : Prop :=
  debug = false ∨ alphabet = [] ∨ NoClash alphabet s

theorem Sample.Disjoint.of_included {s later : Sample}
    (disjoint : later.Disjoint) (included : s.Included later) : s.Disjoint :=
  fun word inPos inNeg =>
    disjoint word (included.pos inPos) (included.neg inNeg)

theorem length_le_add {automataEqual : Automaton → Automaton → Bool}
    {s : Sample} {addition : Sample.Addition} :
    s.ex.length ≤ (s.add automataEqual addition).ex.length ∧
      s.uni.length ≤ (s.add automataEqual addition).uni.length := by
  cases addition with
  | pos word =>
      rw [Sample.add, Sample.addPos]
      split_ifs <;> exact ⟨le_rfl, le_rfl⟩
  | neg word =>
      rw [Sample.add, Sample.addNeg]
      split_ifs <;> exact ⟨le_rfl, le_rfl⟩
  | ex u a =>
      rw [Sample.add, Sample.addEx]
      split_ifs
      · exact ⟨le_rfl, le_rfl⟩
      · exact ⟨by simp, le_rfl⟩
  | uni u a =>
      rw [Sample.add, Sample.addUni]
      split_ifs
      · exact ⟨le_rfl, le_rfl⟩
      · exact ⟨le_rfl, by simp⟩

/-- Names that are apart after an addition were apart before it. -/
theorem NamesApart.of_add {automataEqual : Automaton → Automaton → Bool}
    {s : Sample} {addition : Sample.Addition}
    (apart : NamesApart alphabet debug (s.add automataEqual addition)) :
    NamesApart alphabet debug s := by
  apply apart.imp_right
  apply Or.imp_right
  intro clash
  have lengths :
      s.ex.length ≤ (s.add automataEqual addition).ex.length ∧
        s.uni.length ≤ (s.add automataEqual addition).uni.length :=
    length_le_add
  have included : s.Included (s.add automataEqual addition) :=
    Sample.included_add
  exact ⟨clash.letters, lengths.2.trans clash.uni, lengths.1.trans clash.ex,
    fun word member =>
      clash.dashes word (words_subset_of_included included member)⟩

/-- Without letters satisfiability passes to smaller samples and to one more
state even where the names clash. -/
theorem satisfiable_resume_nil {order other : StateOrder} {s later : Sample}
    {n : Nat} (positive : 0 < n) (included : s.Included later)
    (disjoint : later.Disjoint) :
    (Satisfiable order [] true later n → Satisfiable other [] true s n) ∧
      (Satisfiable order [] true s n →
        Satisfiable other [] true s (n + 1)) := by
  constructor
  · intro satisfiable
    have within := over_of_seen_nil (satisfiable.seen positive).1 disjoint
    exact satisfiable_of_nil (within.of_included included)
      ((satisfiable.shortLearnable positive within).of_included included)
  · intro satisfiable
    have within := over_of_seen_nil (satisfiable.seen positive).1
      (disjoint.of_included included)
    exact satisfiable_of_nil within
      (satisfiable.shortLearnable positive within).succ

/-- While the names are apart, satisfiability passes to smaller samples and to
one more state. -/
theorem NamesApart.resume {order other : StateOrder} {s later : Sample}
    {n : Nat} (apart : NamesApart alphabet debug s) (positive : 0 < n)
    (included : s.Included later) (disjoint : later.Disjoint) :
    (Satisfiable order alphabet debug later n →
        Satisfiable other alphabet debug s n) ∧
      (Satisfiable order alphabet debug s n →
        Satisfiable other alphabet debug s (n + 1)) := by
  rcases apart with rfl | rfl | clash
  · exact satisfiable_resume positive
      (fun isDebug => absurd isDebug Bool.false_ne_true) included disjoint
  · cases debug with
    | false =>
        exact satisfiable_resume positive
          (fun isDebug => absurd isDebug Bool.false_ne_true) included disjoint
    | true => exact satisfiable_resume_nil positive included disjoint
  · exact satisfiable_resume positive (fun _ => clash) included disjoint

/-- While the names are apart, short witnesses satisfy the problem. -/
theorem NamesApart.satisfiable {s : Sample} {n : Nat}
    (apart : NamesApart alphabet debug s) (within : s.Over alphabet)
    (short : ShortLearnable alphabet s n) (order : StateOrder) :
    Satisfiable order alphabet debug s n := by
  have positive : 0 < n := by
    rcases short with ⟨M, _⟩
    exact Fin.pos M.start
  have normal : Satisfiable order alphabet false s n :=
    short.satisfiable within order
  cases debug with
  | false => exact normal
  | true =>
      rcases apart with normalMode | rfl | clash
      · exact absurd normalMode.symm Bool.false_ne_true
      · exact satisfiable_of_nil within short
      · exact (satisfiable_iff_of_noClash positive fun _ => clash).mpr normal

/-- What a search has passed is not satisfiable in any other order. -/
theorem Search.not_satisfiable {s : Sample}
    (apart : NamesApart alphabet debug s) (disjoint : s.Disjoint) {n m : Nat}
    {tried : List Nat} {dfa : Automaton}
    (search : Search alphabet debug s n tried m dfa)
    (passed : ∀ k, 0 < k → k < n → ∀ order,
      ¬ Satisfiable order alphabet debug s k) :
    ∀ k, 0 < k → k < m → ∀ order, ¬ Satisfiable order alphabet debug s k := by
  induction search with
  | satisfiable => exact passed
  | @unsatisfiable n order unsatisfiable _ _ _ _ induction =>
      apply induction
      intro k positive bound other satisfiable
      rcases Nat.lt_succ_iff_lt_or_eq.mp bound with less | rfl
      · exact passed k positive less other satisfiable
      · have found : Satisfiable order alphabet debug s k :=
          (apart.resume positive (Sample.Included.refl s) disjoint).1 satisfiable
        exact found.not_unsatisfiable unsatisfiable

/-- Below the number of states at which a learner resumes nothing is satisfiable. -/
theorem Session.not_satisfiable {problems : List (Sample × Nat)}
    {learner : Learner} (session : Session alphabet debug problems learner)
    (apart : NamesApart alphabet debug learner.s)
    (disjoint : learner.s.Disjoint) :
    ∀ k, 0 < k → k < learner.n → ∀ order,
      ¬ Satisfiable order alphabet debug learner.s k := by
  induction session with
  | new =>
      intro k positive bound
      exact absurd bound (Nat.not_lt.mpr positive)
  | conjecture _ search induction =>
      exact search.not_satisfiable apart disjoint (induction apart disjoint)
  | @add _ learner _ automataEqual addition induction =>
      intro k positive bound order satisfiable
      have included : learner.s.Included
          (learner.s.add automataEqual addition) := Sample.included_add
      apply induction apart.of_add (disjoint.of_included included) k positive
        bound order
      exact (apart.of_add.resume positive included disjoint).1 satisfiable

/-- Resuming the search from a sample loses nothing: where the calls complete,
satisfiability passes to it from larger samples, and from it to one more state,
and no search for it passes a number of states at which its problem is
satisfiable. -/
structure Lossless (alphabet : List JChar) (debug : Bool) (s : Sample) :
    Prop where
  smaller : ∀ (automataEqual : Automaton → Automaton → Bool)
    (order other : StateOrder) (additions : List Sample.Addition) (n : Nat),
    0 < n → (s.addAll automataEqual additions).Disjoint →
      Satisfiable order alphabet debug (s.addAll automataEqual additions) n →
        ¬ Unsatisfiable other alphabet debug s n
  more : ∀ (order other : StateOrder) (n : Nat), 0 < n →
    Satisfiable order alphabet debug s n →
      ¬ Unsatisfiable other alphabet debug s (n + 1)
  searched : ∀ (problems : List (Sample × Nat)) (learner : Learner),
    Session alphabet debug problems learner → learner.s = s →
      ∀ n, 0 < n → n < learner.n → ∀ order,
        ¬ Satisfiable order alphabet debug s n

theorem NamesApart.lossless {s : Sample} (apart : NamesApart alphabet debug s)
    (disjoint : s.Disjoint) : Lossless alphabet debug s where
  smaller := fun _ _ _ _ _ positive later satisfiable =>
    ((apart.resume positive Sample.included_addAll later).1
      satisfiable).not_unsatisfiable
  more := fun _ _ _ positive satisfiable =>
    ((apart.resume positive (Sample.Included.refl s) disjoint).2
      satisfiable).not_unsatisfiable
  searched := by
    rintro problems learner session rfl
    exact session.not_satisfiable apart disjoint

/--
Resuming the search from a sample loses nothing while the names of its problem
are apart.  In the debug mode every alphabet with a letter has a sample whose
names clash and from which a solution is lost.
-/
theorem lossless_iff (alphabet : List JChar) (debug : Bool) :
    (∀ s : Sample, s.Disjoint → NamesApart alphabet debug s →
      Lossless alphabet debug s) ∧
      ((∀ s : Sample, s.Disjoint → Lossless alphabet debug s) ↔
        debug = false ∨ alphabet = []) := by
  refine ⟨fun s disjoint apart => apart.lossless disjoint, ?_, ?_⟩
  · intro lossless
    cases debug with
    | false => exact Or.inl rfl
    | true =>
        cases alphabet with
        | nil => exact Or.inr rfl
        | cons c rest =>
            have letter : c ∈ c :: rest := List.mem_cons_self
            have found := sharedSample_satisfiable letter StateOrder.found
            have lost := sharedSample_unsatisfiable letter StateOrder.found
            have disjoint := (sharedSample_over letter).disjoint
            exact absurd lost ((lossless _ disjoint).more _ _ 2 two_pos found)
  · rintro (rfl | rfl) s disjoint
    · exact NamesApart.lossless (Or.inl rfl) disjoint
    · exact NamesApart.lossless (Or.inr (Or.inl rfl)) disjoint

/--
With the letter `a`, the automata of `ε` and of `a` contradict each other at
three states and not at two.
-/
theorem debug_mode_loses :
    (sharedSample 97).Disjoint ∧
      Satisfiable StateOrder.found [97] true (sharedSample 97) 2 ∧
        Unsatisfiable StateOrder.found [97] true (sharedSample 97) 3 := by
  have letter : (97 : JChar) ∈ [97] := List.mem_singleton_self 97
  exact ⟨(sharedSample_over letter).disjoint,
    sharedSample_satisfiable letter StateOrder.found,
    sharedSample_unsatisfiable letter StateOrder.found⟩

end Resume

end SafetyGames.Learner
