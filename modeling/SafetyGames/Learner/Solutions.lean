import SafetyGames.Learner.Names

/-!
# The solutions of the encoding

The `f` and `d` parts of the satisfying assignments.  While the names of the
cells are distinct they are those of the assignments of the cells.  The names
of the debug mode are distinct on samples with one implication of each kind.
-/

namespace SafetyGames.Learner

open SafetyGames.Transducer SafetyGames.LabelledPath SafetyGames.Worklist
open PrefixTree BoolExpr

/-! ## Solutions -/

/-- The `f` and `d` cells of an assignment. -/
@[ext]
structure Part (n alphabetSize : Nat) where
  f : Fin n → Bool
  d : Fin n → Fin alphabetSize → Fin n → Bool

/-- The part of an assignment of the cells. -/
def partOf (n alphabetSize : Nat) (v : Var → Bool) : Part n alphabetSize where
  f q := v (.f q)
  d p a q := v (.d p a q)

section Solutions

variable (order : StateOrder) (alphabet : List JChar) (debug : Bool)
  (s : Sample) (n : Nat)

/-- The parts of the assignments that satisfy the problem of a call. -/
def solutions : Set (Part n alphabet.length) :=
  {part | ∃ problem model,
    constructSAT order alphabet debug s n = some problem ∧
      Satisfies model problem.constraints ∧
        partOf n alphabet.length (model ∘ problem.name) = part}

/-- The parts of the assignments of the cells that satisfy the constraints. -/
def cellSolutions : Set (Part n alphabet.length) :=
  {part | ∃ w v, fillTree alphabet s = some w ∧
    Satisfied v (cellConstraints order alphabet s n w) ∧
      partOf n alphabet.length v = part}

end Solutions

variable {order : StateOrder} {alphabet : List JChar} {debug : Bool}
  {s : Sample} {w : PrefixTree} {n : Nat}

/-- Assignments that agree on the allocated cells have the same part. -/
theorem partOf_congr {v v' : Var → Bool}
    (agree : ∀ cell ∈ allocated alphabet s n w, v cell = v' cell) :
    partOf n alphabet.length v = partOf n alphabet.length v' := by
  ext q a p
  · apply agree
    rw [mem_declarations]
    exact q.isLt
  · apply agree
    rw [mem_declarations]
    exact ⟨q.isLt, a.isLt, p.isLt⟩

theorem solutions_subset :
    solutions order alphabet debug s n ⊆ cellSolutions order alphabet s n := by
  rintro part ⟨problem, model, returns, satisfied, rfl⟩
  simp only [constructSAT, Option.bind_eq_bind, Option.bind_eq_some_iff,
    Option.some.injEq] at returns
  rcases returns with ⟨w, fills, constraints, adds, rfl⟩
  simp only [satisfies_map, BoolExpr.holds_map] at satisfied
  exact ⟨w, _, fills, ⟨constraints, adds, satisfied⟩, rfl⟩

open Classical in
/-- The assignment of the names of the cells. -/
noncomputable def namedModel (name : Var → Z3Name) (cells : List Var)
    (v : Var → Bool) (constant : Z3Name) : Bool :=
  decide (∃ cell ∈ cells, name cell = constant ∧ v cell = true)

/-- Distinct names give every allocated cell its own value. -/
theorem namedModel_name {name : Var → Z3Name} {cells : List Var}
    (distinct : ∀ left ∈ cells, ∀ right ∈ cells,
      name left = name right → left = right)
    (v : Var → Bool) {cell : Var} (member : cell ∈ cells) :
    namedModel name cells v (name cell) = v cell := by
  rw [Bool.eq_iff_iff, namedModel, decide_eq_true_eq]
  constructor
  · rintro ⟨other, inCells, same, holds⟩
    rw [← distinct other inCells cell member same]
    exact holds
  · exact fun holds => ⟨cell, member, rfl, holds⟩

/-- An assignment of the names that gives the allocated cells the values of a
satisfying assignment of the cells. -/
theorem mem_solutions_of_agree (positive : 0 < n)
    (fills : fillTree alphabet s = some w) {v : Var → Bool}
    (satisfied : Satisfied v (cellConstraints order alphabet s n w))
    {model : Z3Name → Bool}
    (agree : ∀ cell ∈ allocated alphabet s n w,
      model (nameOf debug alphabet w (allocated alphabet s n w) cell) =
        v cell) :
    partOf n alphabet.length v ∈ solutions order alphabet debug s n := by
  rcases satisfied with ⟨constraints, adds, satisfied⟩
  let name := nameOf debug alphabet w (allocated alphabet s n w)
  have within :=
    cellConstraints_within positive (fillTree_spec fills) adds
  refine ⟨⟨name, constraints.map (BoolExpr.map name)⟩, model, ?_, ?_,
    partOf_congr agree⟩
  · simp only [constructSAT, fills, adds, Option.bind_eq_bind, Option.bind_some,
      name]
  · simp only [satisfies_map, BoolExpr.holds_map]
    apply (within.satisfies_congr fun cell declared => ?_).mpr satisfied
    exact agree cell (mem_declarations.mpr declared)

/-- With distinct names every assignment of the cells is one of the names. -/
theorem solutions_eq (positive : 0 < n)
    (distinct : ∀ w, fillTree alphabet s = some w →
      Distinct debug alphabet s n w) :
    solutions order alphabet debug s n = cellSolutions order alphabet s n := by
  apply solutions_subset.antisymm
  rintro part ⟨w, v, fills, satisfied, rfl⟩
  let name := nameOf debug alphabet w (allocated alphabet s n w)
  have apart : ∀ left ∈ allocated alphabet s n w,
      ∀ right ∈ allocated alphabet s n w, name left = name right →
        left = right :=
    fun left inLeft right inRight same =>
      distinct w fills left inLeft right inRight (congrArg Z3Name.text same)
  exact mem_solutions_of_agree positive fills satisfied fun cell member =>
    namedModel_name apart v member

theorem solutions_number (positive : 0 < n) :
    solutions order alphabet false s n = cellSolutions order alphabet s n :=
  solutions_eq positive fun _ _ => distinct_number

/-- The debug mode never adds a solution. -/
theorem solutions_debug_subset (positive : 0 < n) :
    solutions order alphabet true s n ⊆ solutions order alphabet false s n := by
  rw [solutions_number positive]
  exact solutions_subset

/-! ## The debug mode -/

/-- In both modes different cells have different names. -/
def DistinctNames (alphabet : List JChar) (s : Sample) (n : Nat) : Prop :=
  ∀ debug w, fillTree alphabet s = some w → Distinct debug alphabet s n w

theorem NoClash.distinctNames (clash : NoClash alphabet s) :
    DistinctNames alphabet s n := by
  intro debug w fills
  cases debug with
  | false => exact distinct_number
  | true => exact clash.distinct fills

/-- In the normal mode, and without a clash, the solutions are those of the cells. -/
theorem solutions_of_noClash (positive : 0 < n)
    (apart : debug = true → NoClash alphabet s) :
    solutions order alphabet debug s n = cellSolutions order alphabet s n := by
  apply solutions_eq positive
  intro w fills
  cases debug with
  | false => exact distinct_number
  | true => exact (apart rfl).distinct fills

theorem satisfiable_iff_solutions :
    Satisfiable order alphabet debug s n ↔
      (solutions order alphabet debug s n).Nonempty := by
  constructor
  · rintro ⟨problem, returns, model, satisfied⟩
    exact ⟨_, problem, model, returns, satisfied, rfl⟩
  · rintro ⟨_, problem, model, returns, satisfied, _⟩
    exact ⟨problem, returns, model, satisfied⟩

/-- In the normal mode, and without a clash, a problem is satisfiable in both
modes or in none. -/
theorem satisfiable_iff_of_noClash (positive : 0 < n)
    (apart : debug = true → NoClash alphabet s) :
    Satisfiable order alphabet debug s n ↔
      Satisfiable order alphabet false s n := by
  rw [satisfiable_iff_solutions, satisfiable_iff_solutions,
    solutions_of_noClash positive apart, solutions_number positive]

/--
The debug mode keeps the names apart exactly when nothing clashes, and then it
keeps the solutions.
-/
theorem debug_mode_iff (order : StateOrder) (alphabet : List JChar)
    (s : Sample) {n : Nat} (positive : 0 < n) {problem : Encoding}
    (returns : constructSAT order alphabet debug s n = some problem) :
    (DistinctNames alphabet s n ↔ NoClash alphabet s) ∧
      (NoClash alphabet s →
        solutions order alphabet true s n =
          solutions order alphabet false s n) := by
  simp only [constructSAT, Option.bind_eq_bind, Option.bind_eq_some_iff]
    at returns
  rcases returns with ⟨w, fills, constraints, adds, _⟩
  refine ⟨⟨fun distinct => ?_, fun clash => clash.distinctNames⟩,
    fun clash => ?_⟩
  · exact (distinct true w fills).noClash positive fills
      fun ce member => lMax_pos_of_cellConstraints adds member
  · rw [solutions_of_noClash positive fun _ => clash,
      solutions_number positive]

/--
In a sample with one implication of each kind nothing clashes, so all names are
different and both modes have the same solutions.
-/
theorem debug_mode_even :
    DistinctNames [97] evenSample 2 ∧
      solutions StateOrder.found [97] true evenSample 2 =
        solutions StateOrder.found [97] false evenSample 2 := by
  rcases evenModel_satisfied with ⟨problem, returns, _⟩
  have clash : NoClash [97] evenSample := by
    refine ⟨by decide, le_rfl, le_rfl, fun word member => ?_⟩
    simp only [evenSample, Sample.words, List.map_cons, List.map_nil,
      List.mem_append, List.mem_singleton] at member
    rcases member with ((rfl | rfl) | rfl) | rfl <;> decide
  rcases debug_mode_iff StateOrder.found [97] evenSample two_pos returns with
    ⟨apart, same⟩
  exact ⟨apart.mpr clash, same clash⟩

/-- The minimal automaton of the words `a` and `ba`. -/
def shortcut : Automaton where
  states :=
    [⟨false, [Transition.single 97 1, Transition.single 98 2]⟩,
      ⟨true, []⟩, ⟨false, [Transition.single 97 1]⟩]
  initial := 0
  deterministic := true
  initial_lt := by decide
  closed := by decide

/-- Two existential implications whose automata have three states. -/
def twinSample : Sample where
  pos := []
  neg := []
  ex := [⟨[], Automaton.makeString [97, 97]⟩, ⟨[97], shortcut⟩]
  uni := []
  size := 2

theorem twinSample_over : twinSample.Over [97, 98] where
  letters := by simp [twinSample, Sample.words]
  ex := List.forall_mem_cons.mpr
    ⟨overAlphabet_of_states (by decide),
      List.forall_mem_singleton.mpr (overAlphabet_of_states (by decide))⟩
  uni := fun _ member => absurd member List.not_mem_nil
  disjoint := fun _ member => absurd member List.not_mem_nil

/-- The automaton that accepts nothing is consistent with the sample. -/
theorem twinSample_shortLearnable : ShortLearnable [97, 98] twinSample 1 := by
  let rejecting : DFA JChar (Fin 1) := ⟨fun p _ => p, 0, ∅⟩
  have empty : ∀ word, word ∉ dfaLang [97, 98] rejecting :=
    fun word member => member.2
  refine ⟨rejecting, ⟨?_, ?_, ?_, ?_⟩, by decide, ?_⟩
  · exact fun _ member => absurd member List.not_mem_nil
  · exact fun _ member => absurd member List.not_mem_nil
  · exact fun ce _ inLanguage => absurd inLanguage (empty ce.u)
  · exact fun _ member => absurd member List.not_mem_nil
  · exact fun ce _ inLanguage => absurd inLanguage (empty ce.u)

/-- Under common `z` cells the second automaton demands a pair that the first
one forbids. -/
theorem twinSample_unsatisfied {v : Var → Bool}
    (fills : fillTree [97, 98] twinSample = some w)
    (twins : ∀ p p2 l, v (.z 0 p p2 l) = v (.z 1 p p2 l)) :
    ¬ Satisfied v
      (cellConstraints StateOrder.found [97, 98] twinSample 1 w) := by
  intro satisfied
  have filled := fillTree_spec fills
  rcases satisfied_cellConstraints.mp satisfied with ⟨_, exHolds, total, _⟩
  rcases filled.leads_of_ex
    (List.mem_cons_self : (⟨[], Automaton.makeString [97, 97]⟩ :
      CounterExample) ∈ twinSample.ex) with ⟨_, firstLeads⟩
  rcases filled.leads_of_ex
    (List.mem_cons_of_mem _ List.mem_cons_self : (⟨[97], shortcut⟩ :
      CounterExample) ∈ twinSample.ex) with ⟨_, secondLeads⟩
  rcases (satisfied_exProblem firstLeads).mp (exHolds (_, 0) List.mem_cons_self) with
    ⟨numbers, isNumbers, _, first⟩
  rcases (satisfied_exProblem secondLeads).mp
    (exHolds (_, 1) (List.mem_cons_of_mem _ List.mem_cons_self)) with
    ⟨others, isOthers, _, second⟩
  obtain rfl : (⟨3, 0, [0, 1, 2], [⟨0, 0, 1⟩, ⟨1, 0, 2⟩], [2]⟩ : Numbered) =
      numbers := Option.some.inj isNumbers
  obtain rfl :
      (⟨3, 0, [0, 1, 2], [⟨0, 0, 1⟩, ⟨0, 1, 2⟩, ⟨2, 0, 1⟩], [1]⟩ : Numbered) =
        others := Option.some.inj isOthers
  have letter : v (.d 0 1 0) = true := by
    rcases satisfies_dConstraints.mp total 0 one_pos 1 (by decide) with
      ⟨_, q, inside, chosen⟩
    rwa [Nat.lt_one_iff.mp inside] at chosen
  -- The letter `b` leads the second automaton to its state number 2 at once.
  have demanded : v (.z 1 0 2 1) = true :=
    second.forward 0 (by decide) ⟨0, 1, 2⟩ (by decide) rfl 0 one_pos 0 one_pos
      0 (by decide) second.initial letter
  rw [← twins] at demanded
  rcases first.backward 2 (by decide) 0 one_pos 0 (by decide) demanded with
    ⟨edge, member, dest, p, _, _, before⟩
  obtain rfl : edge = ⟨1, 0, 2⟩ := by
    rcases List.mem_pair.mp member with rfl | rfl
    · exact absurd dest (by decide)
    · rfl
  exact absurd (first.onlyInitial 1 (by decide) p ‹p < 1› before).1 (by decide)

/--
Two existential counter-examples share the names of their cells.  The automaton
that accepts nothing is a solution in the normal mode only.
-/
theorem debug_mode_twin :
    ¬ DistinctNames [97, 98] twinSample 1 ∧
      solutions StateOrder.found [97, 98] true twinSample 1 ≠
        solutions StateOrder.found [97, 98] false twinSample 1 := by
  rcases twinSample_shortLearnable.satisfiable twinSample_over StateOrder.found with
    ⟨problem, returns, model, satisfied⟩
  constructor
  · intro distinct
    rcases fillTree_returns twinSample_over.letters with ⟨w, fills⟩
    have clash := (distinct true w fills).noClash one_pos fills (by decide)
    exact absurd clash.ex (by decide)
  · intro same
    have found : partOf 1 2 (model ∘ problem.name) ∈
        solutions StateOrder.found [97, 98] false twinSample 1 :=
      ⟨problem, model, returns, satisfied, rfl⟩
    rw [← same] at found
    rcases found with ⟨other, debugModel, debugReturns, debugSatisfied, _⟩
    simp only [constructSAT, Option.bind_eq_bind, Option.bind_eq_some_iff,
      Option.some.injEq] at debugReturns
    rcases debugReturns with ⟨w, fills, constraints, adds, rfl⟩
    simp only [satisfies_map, BoolExpr.holds_map] at debugSatisfied
    exact twinSample_unsatisfied fills (fun _ _ _ => rfl)
      ⟨constraints, adds, debugSatisfied⟩

end SafetyGames.Learner
