import SafetyGames.Learner.EncodingComplete
import SafetyGames.Learner.StoredWords

/-!
# The accesses of the encoding

Which cells the constraints read, compared with the cells that were allocated.
Every group of constraints stays within the bounds of the arrays, except that
the `z` array of a counter-example has no length at all when the product of
the numbers of states is one.
-/

namespace SafetyGames.Learner

open SafetyGames.Transducer SafetyGames.LabelledPath SafetyGames.Worklist
open SafetyGames.PartialFold PrefixTree BoolExpr

/-! ## Lists of constraints -/

section Lists

variable {ν : Type} {P : ν → Prop}

@[simp]
theorem allWithin_append {left right : List (BoolExpr ν)} :
    AllWithin P (left ++ right) ↔ AllWithin P left ∧ AllWithin P right :=
  List.forall_mem_append

@[simp]
theorem allWithin_singleton {e : BoolExpr ν} :
    AllWithin P [e] ↔ e.Within P :=
  List.forall_mem_singleton

@[simp]
theorem allWithin_flatMap {α : Type} {list : List α}
    {f : α → List (BoolExpr ν)} :
    AllWithin P (list.flatMap f) ↔ ∀ value ∈ list, AllWithin P (f value) :=
  List.forall_mem_flatMap

@[simp]
theorem allWithin_flatten {lists : List (List (BoolExpr ν))} :
    AllWithin P lists.flatten ↔ ∀ list ∈ lists, AllWithin P list :=
  List.forall_mem_flatten

@[simp]
theorem allWithin_map {α : Type} {list : List α} {f : α → BoolExpr ν} :
    AllWithin P (list.map f) ↔ ∀ value ∈ list, (f value).Within P :=
  List.forall_mem_map

end Lists

/-! ## Numbers -/

/-- The numbers of an automaton are below the number of its states, and those
of its letters below the size of the alphabet. -/
structure Numbered.Bounded (numbers : Numbered) (alphabetSize : Nat) :
    Prop where
  initial : numbers.initial < numbers.na
  states : ∀ m ∈ numbers.states, m < numbers.na
  source : ∀ edge ∈ numbers.edges, edge.source < numbers.na
  letter : ∀ edge ∈ numbers.edges, edge.letter < alphabetSize
  dest : ∀ edge ∈ numbers.edges, edge.dest < numbers.na
  acceptStates : ∀ m ∈ numbers.acceptStates, m < numbers.na

theorem IsNumbered.bounded {order : StateOrder} {alphabet : List JChar}
    {a : Automaton} {numbers : Numbered}
    (isNumbered : IsNumbered order alphabet a numbers) :
    numbers.Bounded alphabet.length := by
  have number_lt : ∀ {ref}, a.Reachable ref →
      order.number a ref < numbers.na := by
    intro ref reachable
    rw [isNumbered.na]
    exact order.number_lt reachable
  exact
    { initial := by
        rw [isNumbered.initial]
        exact number_lt Automaton.Reachable.initial
      states := by
        intro m member
        rcases (isNumbered.states m).mp member with ⟨ref, reachable, rfl⟩
        exact number_lt reachable
      source := by
        intro edge member
        rcases (isNumbered.edges edge).mp member with ⟨ref, reachable, _, _, _, _, rfl⟩
        exact number_lt reachable
      letter := by
        intro edge member
        rcases (isNumbered.edges edge).mp member with ⟨_, _, _, _, letter, mapped, rfl⟩
        exact charMap_lt mapped
      dest := by
        intro edge member
        rcases (isNumbered.edges edge).mp member with
          ⟨ref, reachable, transition, inState, _, _, rfl⟩
        exact number_lt (reachable.step
          ⟨transition, inState, transition.reads_min, rfl⟩)
      acceptStates := by
        intro m member
        rcases (isNumbered.acceptStates m).mp member with ⟨ref, reachable, _, rfl⟩
        exact number_lt reachable }

/-! ## The cells of each group of constraints -/

section Cells

variable {n alphabetSize size : Nat} {uni ex : List Nat}

theorem atMostOne_within {row : Nat → Var}
    (cells : ∀ q < n, Declared n alphabetSize size uni ex (row q)) :
    AllWithin (Declared n alphabetSize size uni ex) (atMostOne n row) := by
  simp only [atMostOne, allWithin_flatMap, allWithin_map, within_not,
    within_and, within_const, List.mem_range, List.mem_range'_1]
  intro q inside q2 bounds
  exact ⟨cells q inside, cells q2 (by omega)⟩

theorem dConstraints_within :
    AllWithin (Declared n alphabetSize size uni ex)
      (dConstraints n alphabetSize) := by
  simp only [dConstraints, allWithin_flatMap, allWithin_append,
    allWithin_singleton, within_anyOf, List.forall_mem_map, within_const,
    List.mem_range]
  intro p inside a bound
  constructor
  · apply atMostOne_within
    intro q qInside
    exact ⟨inside, bound, qInside⟩
  · intro q qInside
    exact ⟨inside, bound, qInside⟩

theorem initialConstraints_within (positive : 0 < n) (root : 0 < size) :
    AllWithin (Declared n alphabetSize size uni ex) (initialConstraints n) := by
  simp only [initialConstraints, allWithin_append, allWithin_singleton,
    allWithin_map, within_not, within_const, List.mem_range'_1]
  constructor
  · exact ⟨root, positive⟩
  · intro q bounds
    exact ⟨root, by omega⟩

theorem childConstraints_within {id a : Nat} (inside : id < size)
    (bound : a < alphabetSize) {child : Option Nat}
    (childInside : ∀ next, child = some next → next < size) :
    AllWithin (Declared n alphabetSize size uni ex)
      (childConstraints n id a child) := by
  cases child with
  | none => exact fun _ member => absurd member List.not_mem_nil
  | some next =>
      simp only [childConstraints, allWithin_flatMap, allWithin_map,
        within_implies, within_and, within_const, List.mem_range]
      intro p pInside q qInside
      exact ⟨⟨⟨inside, pInside⟩, pInside, bound, qInside⟩,
        childInside next rfl, qInside⟩

theorem prefixConstraints_within {alphabet : List JChar} {w : PrefixTree}
    (isTree : IsTree alphabet w) {id : Nat} (inside : id < w.length) :
    AllWithin (Declared n alphabet.length w.length uni ex)
      (prefixConstraints n w alphabet.length id) := by
  rw [prefixConstraints, allWithin_append, allWithin_append, allWithin_flatMap]
  refine ⟨⟨?_, ?_⟩, ?_⟩
  · apply atMostOne_within
    intro q qInside
    exact ⟨inside, qInside⟩
  · intro a member
    apply childConstraints_within inside (List.mem_range.mp member)
    intro next isChild
    exact (isTree.child_gt isChild).2
  · have mark : ∀ q ∈ List.range n,
        Declared n alphabet.length w.length uni ex (.x id q) ∧
          Declared n alphabet.length w.length uni ex (.f q) :=
      fun q member =>
        ⟨⟨inside, List.mem_range.mp member⟩, List.mem_range.mp member⟩
    split_ifs
    · exact allWithin_map.mpr mark
    · exact allWithin_map.mpr mark
    · exact fun _ member => absurd member List.not_mem_nil

theorem anteAccepted_within {id : Nat} (inside : id < size) :
    (anteAccepted n id).Within (Declared n alphabetSize size uni ex) := by
  simp only [anteAccepted, within_anyOf, List.forall_mem_map, within_and,
    within_const, List.mem_range]
  intro q qInside
  exact ⟨⟨inside, qInside⟩, qInside⟩

theorem uniConstraints_within (positive : 0 < n) {u uante : Nat}
    {cua : Numbered} (bounded : cua.Bounded alphabetSize)
    (position : uni[u]? = some cua.na) (known : uante < size) :
    AllWithin (Declared n alphabetSize size uni ex)
      (uniConstraints n u cua uante) := by
  have pair : ∀ {p p2}, p < n → p2 < cua.na →
      Declared n alphabetSize size uni ex (.y u p p2) :=
    fun inside bound => ⟨inside, cua.na, position, bound⟩
  simp only [uniConstraints, allWithin_append, allWithin_singleton,
    allWithin_flatMap, allWithin_map, within_implies, within_and, within_const,
    within_allOf, List.forall_mem_flatMap, List.forall_mem_map, List.mem_range]
  refine ⟨⟨pair positive bounded.initial, ?_⟩, anteAccepted_within known, ?_⟩
  · intro edge member p pInside q qInside
    exact ⟨⟨pair pInside (bounded.source edge member), pInside,
      bounded.letter edge member, qInside⟩,
      pair qInside (bounded.dest edge member)⟩
  · intro q qInside fa member
    exact ⟨pair qInside (bounded.acceptStates fa member), qInside⟩

section Existential

variable {e : Nat} {cea : Numbered} (bounded : cea.Bounded alphabetSize)
  (position : ex[e]? = some cea.na)
include bounded position

theorem zInitial_within (positive : 0 < n) (lengths : 0 < lMax n cea.na) :
    AllWithin (Declared n alphabetSize size uni ex) (zInitial n e cea) := by
  simp only [zInitial, allWithin_append, allWithin_singleton,
    allWithin_flatMap, allWithin_map, within_not, within_const, List.mem_filter,
    List.mem_range]
  constructor
  · exact ⟨positive, cea.na, position, bounded.initial, lengths⟩
  · intro state member q inside
    exact ⟨inside.1, cea.na, position, bounded.states state member, lengths⟩

theorem zForward_within {state : Nat} (member : state ∈ cea.states) :
    AllWithin (Declared n alphabetSize size uni ex)
      (zForward n e cea state) := by
  simp only [zForward, allWithin_flatMap, allWithin_map, within_implies,
    within_and, within_const, List.mem_filter, List.mem_range]
  intro edge inEdges p pInside q qInside l bound
  refine ⟨⟨?_, pInside, bounded.letter edge inEdges.1, qInside⟩, ?_⟩
  · exact ⟨pInside, cea.na, position, bounded.states state member, by omega⟩
  · exact ⟨qInside, cea.na, position, bounded.dest edge inEdges.1, by omega⟩

theorem zBackward_within {state : Nat} (member : state ∈ cea.states) :
    AllWithin (Declared n alphabetSize size uni ex)
      (zBackward n e cea state) := by
  simp only [zBackward, allWithin_flatMap, allWithin_map, List.mem_range,
    List.mem_range'_1]
  intro q qInside l bounds
  have target : Declared n alphabetSize size uni ex (.z e q state l) :=
    ⟨qInside, cea.na, position, bounded.states state member, by omega⟩
  split_ifs
  · rw [within_implies, within_anyOf]
    refine ⟨target, ?_⟩
    simp only [List.forall_mem_flatMap, List.forall_mem_map, within_and,
      within_const, List.mem_filter, List.mem_range]
    intro edge inEdges p pInside
    refine ⟨⟨pInside, bounded.letter edge inEdges.1, qInside⟩, ?_⟩
    exact ⟨pInside, cea.na, position, bounded.source edge inEdges.1, by omega⟩
  · exact target

theorem exConstraints_within (positive : 0 < n) {eante : Nat}
    (known : eante < size) {constraints : List (BoolExpr Var)}
    (returns : exConstraints n e cea eante = some constraints) :
    AllWithin (Declared n alphabetSize size uni ex) constraints := by
  rw [exConstraints] at returns
  split_ifs at returns with none
  rcases Option.some.inj returns with rfl
  have lengths : 0 < lMax n cea.na := Nat.pos_of_ne_zero none
  rw [allWithin_append, allWithin_append, allWithin_flatMap,
    allWithin_singleton, within_implies, within_anyOf]
  refine ⟨⟨zInitial_within bounded position positive lengths, ?_⟩,
    anteAccepted_within known, ?_⟩
  · intro state member
    exact allWithin_append.mpr ⟨zForward_within bounded position member,
      zBackward_within bounded position member⟩
  · simp only [List.forall_mem_flatMap, List.forall_mem_map, within_and,
      within_const, List.mem_range]
    intro q qInside fa member l bound
    exact ⟨⟨qInside, cea.na, position, bounded.acceptStates fa member, bound⟩,
      qInside⟩

end Existential

end Cells

/-! ## All accesses of a call -/

section Call

variable {order : StateOrder} {alphabet : List JChar} {s : Sample}
  {w : PrefixTree} {n : Nat}

/-- The constraints of a call that returns read allocated cells only. -/
theorem cellConstraints_within (positive : 0 < n)
    (filled : Filled alphabet s w) {constraints : List (BoolExpr Var)}
    (returns : cellConstraints order alphabet s n w = some constraints) :
    AllWithin
      (Declared n alphabet.length w.length (sizes s.uni) (sizes s.ex))
      constraints := by
  simp only [cellConstraints, Option.bind_eq_bind, Option.bind_eq_some_iff]
    at returns
  rcases returns with ⟨uni, uniReturns, ex, exReturns, prefixes, traversed, returns⟩
  rcases Option.some.inj returns with rfl
  simp only [allWithin_append, allWithin_flatten, allWithin_flatMap]
  refine ⟨⟨⟨⟨?_, ?_⟩, dConstraints_within⟩,
    initialConstraints_within positive filled.isTree.root⟩, ?_⟩
  · intro part inUni
    rcases mem_of_mapM uniReturns inUni with ⟨⟨cu, u⟩, inList, partReturns⟩
    have position := List.mem_zipIdx_iff_getElem?.mp inList
    rcases filled.leads_of_uni (List.mem_of_getElem? position) with ⟨id, leads⟩
    simp only [uniProblem, getNode_of_leads leads, Option.bind_eq_bind,
      Option.bind_some, Option.bind_eq_some_iff, Option.some.injEq]
      at partReturns
    rcases partReturns with ⟨numbers, isNumbers, rfl⟩
    have isNumbered := numbered_spec isNumbers
    apply uniConstraints_within positive isNumbered.bounded _
      (leads.lt filled.isTree)
    rw [isNumbered.na]
    exact position_sizes position
  · intro part inEx
    rcases mem_of_mapM exReturns inEx with ⟨⟨ce, e⟩, inList, partReturns⟩
    have position := List.mem_zipIdx_iff_getElem?.mp inList
    rcases filled.leads_of_ex (List.mem_of_getElem? position) with ⟨id, leads⟩
    simp only [exProblem, getNode_of_leads leads, Option.bind_eq_bind,
      Option.bind_some, Option.bind_eq_some_iff] at partReturns
    rcases partReturns with ⟨numbers, isNumbers, partReturns⟩
    have isNumbered := numbered_spec isNumbers
    apply exConstraints_within isNumbered.bounded _ positive
      (leads.lt filled.isTree) partReturns
    rw [isNumbered.na]
    exact position_sizes position
  · intro id member
    rcases filled.exists_leads traversed member with ⟨word, leads⟩
    exact prefixConstraints_within filled.isTree (leads.lt filled.isTree)

/-- What a call of `constructSAT` looks up and accesses once its tree is filled. -/
structure InBounds (order : StateOrder) (alphabet : List JChar) (s : Sample)
    (n : Nat) (w : PrefixTree) : Prop where
  /-- The numbers are defined, and the cells were allocated. -/
  cells : ∃ constraints,
    cellConstraints order alphabet s n w = some constraints ∧
      AllWithin
        (Declared n alphabet.length w.length (sizes s.uni) (sizes s.ex))
        constraints
  /-- `getNode` creates no node. -/
  nodes : ∀ ce ∈ s.uni ++ s.ex, ∃ id < w.length,
    w.getNode alphabet.length (charMap alphabet) ce.u = some (w, id)
  /-- `getWord`, which names the cells in debug mode, ends. -/
  words : ∀ id < w.length, ∃ fuel,
    findWord w alphabet.length id fuel 0 [] = some (w.getWord id)

/-- A call of `constructSAT` returns, and all of its accesses are in bounds. -/
def Completes (order : StateOrder) (alphabet : List JChar) (debug : Bool)
    (s : Sample) (n : Nat) : Prop :=
  (∃ problem, constructSAT order alphabet debug s n = some problem) ∧
    ∃ w, fillTree alphabet s = some w ∧ InBounds order alphabet s n w

/-- The characters that the reachable states read are in the alphabet. -/
def ReadsOver (alphabet : List JChar) (a : Automaton) : Prop :=
  ∀ ref, a.Reachable ref → ∀ transition ∈ (a.state ref).transitions,
    ∀ c, transition.Reads c → c ∈ alphabet

theorem OverAlphabet.readsOver {a : Automaton}
    (within : OverAlphabet alphabet a) : ReadsOver alphabet a := by
  intro ref reachable transition member c reads
  rcases within ref reachable transition member with ⟨single, inAlphabet⟩
  rw [(single.reads_iff c).mp reads]
  exact inAlphabet

theorem ReadsOver.numbered_returns {a : Automaton}
    (within : ReadsOver alphabet a) (order : StateOrder) :
    ∃ numbers, numbered order (charMap alphabet) a = some numbers := by
  refine ⟨_, if_pos ?_⟩
  intro ref member transition inState
  rw [charMap_isSome_iff]
  exact within ref (order.mem_states.mp member) transition inState _
    transition.reads_min

/-- A counter-example whose problem is built has a `z` array with a length. -/
theorem lMax_pos_of_exProblem {ce : CounterExample} {e : Nat}
    {constraints : List (BoolExpr Var)}
    (returns : exProblem order alphabet w n (ce, e) = some constraints) :
    0 < lMax n ce.a.getNumberOfStates := by
  simp only [exProblem, Option.bind_eq_bind, Option.bind_eq_some_iff] at returns
  rcases returns with ⟨numbers, isNumbers, ⟨_, id⟩, _, returns⟩
  rw [exConstraints] at returns
  split_ifs at returns with none
  rw [← (numbered_spec isNumbers).na]
  exact Nat.pos_of_ne_zero none

theorem lMax_pos_of_cellConstraints {constraints : List (BoolExpr Var)}
    (returns : cellConstraints order alphabet s n w = some constraints)
    {ce : CounterExample} (member : ce ∈ s.ex) :
    0 < lMax n ce.a.getNumberOfStates := by
  simp only [cellConstraints, Option.bind_eq_bind, Option.bind_eq_some_iff]
    at returns
  rcases returns with ⟨_, _, ex, exReturns, _⟩
  rcases List.mem_iff_getElem?.mp member with ⟨e, position⟩
  rcases exists_of_mapM exReturns
    (List.mem_zipIdx_iff_getElem?.mpr position : (ce, e) ∈ s.ex.zipIdx) with
    ⟨part, _, returned⟩
  exact lMax_pos_of_exProblem returned

/-- The problem of an existential counter-example is built when its `z` array
has a length. -/
theorem exProblem_returns (filled : Filled alphabet s w)
    {ce : CounterExample} (member : ce ∈ s.ex) (within : ReadsOver alphabet ce.a)
    (lengths : 0 < lMax n ce.a.getNumberOfStates) (e : Nat) :
    ∃ constraints,
      exProblem order alphabet w n (ce, e) = some constraints := by
  rcases filled.leads_of_ex member with ⟨id, leads⟩
  rcases within.numbered_returns order with ⟨numbers, isNumbers⟩
  rw [← (numbered_spec isNumbers).na] at lengths
  simp only [exProblem, isNumbers, getNode_of_leads leads, Option.bind_eq_bind,
    Option.bind_some, exConstraints, if_neg (Nat.ne_of_gt lengths)]
  exact ⟨_, rfl⟩

theorem uniProblem_returns (filled : Filled alphabet s w)
    {cu : CounterExample} (member : cu ∈ s.uni) (within : ReadsOver alphabet cu.a)
    (u : Nat) :
    ∃ constraints,
      uniProblem order alphabet w n (cu, u) = some constraints := by
  rcases filled.leads_of_uni member with ⟨id, leads⟩
  rcases within.numbered_returns order with ⟨numbers, isNumbers⟩
  exact ⟨_, by rw [uniProblem, isNumbers, getNode_of_leads leads]; rfl⟩

/-- The constraints are built exactly when all `z` arrays have a length. -/
theorem cellConstraints_returns_iff (order : StateOrder)
    (filled : Filled alphabet s w)
    (within : ∀ ce ∈ s.uni ++ s.ex, ReadsOver alphabet ce.a) :
    (∃ constraints, cellConstraints order alphabet s n w = some constraints) ↔
      ∀ ce ∈ s.ex, 0 < lMax n ce.a.getNumberOfStates := by
  rcases List.forall_mem_append.mp within with ⟨uniWithin, exWithin⟩
  constructor
  · rintro ⟨constraints, returns⟩ ce member
    exact lMax_pos_of_cellConstraints returns member
  · intro lengths
    obtain ⟨uni, uniReturns⟩ : ∃ uni,
        s.uni.zipIdx.mapM (uniProblem order alphabet w n) = some uni := by
      apply mapM_returns
      rintro ⟨cu, u⟩ inList
      have member := List.mem_of_getElem? (List.mem_zipIdx_iff_getElem?.mp inList)
      exact uniProblem_returns filled member (uniWithin cu member) u
    obtain ⟨ex, exReturns⟩ : ∃ ex,
        s.ex.zipIdx.mapM (exProblem order alphabet w n) = some ex := by
      apply mapM_returns
      rintro ⟨ce, e⟩ inList
      have member := List.mem_of_getElem? (List.mem_zipIdx_iff_getElem?.mp inList)
      exact exProblem_returns filled member (exWithin ce member)
        (lengths ce member) e
    rcases filled.isTree.traverse_returns with ⟨prefixes, traversed⟩
    exact ⟨_, by rw [cellConstraints, uniReturns, exReturns, traversed]; rfl⟩

theorem constructSAT_returns_iff {debug : Bool}
    (fills : fillTree alphabet s = some w) :
    (∃ problem, constructSAT order alphabet debug s n = some problem) ↔
      ∃ constraints,
        cellConstraints order alphabet s n w = some constraints := by
  simp only [constructSAT, fills, Option.bind_eq_bind, Option.bind_some]
  cases cellConstraints order alphabet s n w with
  | none => simp
  | some constraints => simp

/--
A call of `constructSAT` completes exactly when no existential counter-example
has a single state for a single state of the conjecture.
-/
theorem constructSAT_completes_iff (order : StateOrder)
    (alphabet : List JChar) (debug : Bool) (s : Sample) {n : Nat}
    (positive : 0 < n) (letters : ∀ word ∈ s.words, ∀ c ∈ word, c ∈ alphabet)
    (within : ∀ ce ∈ s.uni ++ s.ex, ReadsOver alphabet ce.a) :
    Completes order alphabet debug s n ↔
      ∀ ce ∈ s.ex, 2 ≤ n * ce.a.getNumberOfStates := by
  rcases fillTree_returns letters with ⟨w, fills⟩
  have filled := fillTree_spec fills
  have lengths : (∀ ce ∈ s.ex, 2 ≤ n * ce.a.getNumberOfStates) ↔
      ∀ ce ∈ s.ex, 0 < lMax n ce.a.getNumberOfStates := by
    refine forall₂_congr fun ce _ => ?_
    rw [lMax]
    omega
  rw [lengths, ← cellConstraints_returns_iff order filled within]
  constructor
  · rintro ⟨_, other, otherFills, bounds⟩
    rcases Option.some.inj (otherFills.symm.trans fills) with rfl
    rcases bounds.cells with ⟨constraints, returns, _⟩
    exact ⟨constraints, returns⟩
  · rintro ⟨constraints, returns⟩
    refine ⟨(constructSAT_returns_iff fills).mpr ⟨constraints, returns⟩, w,
      fills, ?_, ?_, ?_⟩
    · exact ⟨constraints, returns, cellConstraints_within positive filled returns⟩
    · intro ce member
      obtain ⟨id, leads⟩ : ∃ id, Leads (charMap alphabet) w ce.u id := by
        rcases List.mem_append.mp member with inUni | inEx
        · exact filled.leads_of_uni inUni
        · exact filled.leads_of_ex inEx
      exact ⟨id, leads.lt filled.isTree, getNode_of_leads leads⟩
    · intro id inside
      exact ⟨w.length, (fillTree_stores fills).findWord_returns
        filled.isTree inside⟩

/--
Two states of the conjecture and three of the counter-example are enough.
-/
theorem constructSAT_completes_even :
    Completes StateOrder.found [97] true evenSample 2 := by
  apply (constructSAT_completes_iff StateOrder.found [97] true evenSample
    two_pos (by simp [evenSample, Sample.words]) ?_).mpr
  · decide
  · intro ce member
    apply OverAlphabet.readsOver
    rw [List.mem_pair.mp member |>.elim id id]
    exact overAlphabet_of_states (by decide)

/-- The word `a` has no successor. -/
def stuckSample : Sample where
  pos := []
  neg := []
  ex := [⟨[97], Automaton.makeEmpty⟩]
  uni := []
  size := 1

/--
One state of the conjecture and one of the counter-example leave no cell even
for the empty word, and the call throws.
-/
theorem constructSAT_stuck :
    (∀ word ∈ stuckSample.words, ∀ c ∈ word, c ∈ [97]) ∧
      (∀ ce ∈ stuckSample.uni ++ stuckSample.ex, ReadsOver [97] ce.a) ∧
        ¬ Completes StateOrder.found [97] false stuckSample 1 := by
  refine ⟨by simp [stuckSample, Sample.words], ?_, ?_⟩
  · intro ce member
    apply OverAlphabet.readsOver
    rw [List.mem_singleton.mp member]
    exact overAlphabet_of_states (by decide)
  · rintro ⟨⟨problem, returns⟩, _⟩
    have fails : constructSAT StateOrder.found [97] false stuckSample 1 =
        none := by
      rfl
    rw [fails] at returns
    exact Option.some_ne_none problem returns.symm

end Call

end SafetyGames.Learner
