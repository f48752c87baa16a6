import SafetyGames.Automata.Construction
import SafetyGames.Automata.Live

/-!
# Determinization

`getStartPoints()` and the subset construction of `determinize`, which reads
one character of every piece between two start points.
-/

namespace SafetyGames.Automata

open SafetyGames.Transducer SafetyGames.Teacher SafetyGames.Worklist
open SafetyGames.Intervals SafetyGames.LabelledPath

/-! ## getStartPoints() -/

/-- The characters `getStartPoints()` collects for one transition. -/
def transitionPoints (transition : Transition) : List Nat :=
  transition.min.toNat ::
    if transition.max.toNat < maxValue then [transition.max.toNat + 1] else []

/-- `getStartPoints()`: the set of characters, as numbers, is sorted. -/
def getStartPoints (a : Automaton) : List Nat :=
  ((0 :: a.getStates.flatMap fun ref =>
    (a.state ref).transitions.flatMap transitionPoints).dedup).insertionSort
      (· ≤ ·)

section StartPoints

variable {a : Automaton}

theorem mem_getStartPoints {point : Nat} :
    point ∈ getStartPoints a ↔ point = 0 ∨
      ∃ ref, a.Reachable ref ∧ ∃ transition ∈ (a.state ref).transitions,
        point ∈ transitionPoints transition := by
  simp only [getStartPoints, List.mem_insertionSort, List.mem_dedup,
    List.mem_cons, List.mem_flatMap, Automaton.mem_getStates]

theorem pairwise_getStartPoints : (getStartPoints a).Pairwise (· < ·) := by
  have sorted : (getStartPoints a).Pairwise (· ≤ ·) :=
    List.pairwise_insertionSort _ _
  have nodup : (getStartPoints a).Nodup :=
    (List.perm_insertionSort _ _).nodup_iff.mpr (List.nodup_dedup _)
  exact (sorted.and nodup).imp fun order => lt_of_le_of_ne order.1 order.2

theorem getStartPoints_le {point : Nat} (member : point ∈ getStartPoints a) :
    point ≤ maxValue := by
  rcases mem_getStartPoints.mp member with rfl | ⟨_, _, transition, _, isPoint⟩
  · exact Nat.zero_le _
  · rcases List.mem_cons.mp isPoint with rfl | isNext
    · exact toNat_le_maxValue _
    · split_ifs at isNext with room
      · rw [List.mem_singleton.mp isNext]
        exact room
      · exact absurd isNext List.not_mem_nil

/-- `points[n]` to `points[n + 1] - 1`, the last piece up to the greatest character. -/
def pointPieces (a : Automaton) : List (Nat × Nat) :=
  pieces maxValue (getStartPoints a)

theorem pointPieces_spec {piece : Nat × Nat} (member : piece ∈ pointPieces a) :
    piece.1 ≤ piece.2 ∧ piece.2 ≤ maxValue ∧
      ∀ point ∈ getStartPoints a, point ≤ piece.2 → point ≤ piece.1 :=
  pieces_spec pairwise_getStartPoints (fun _ => getStartPoints_le) member

theorem exists_pointPiece (c : JChar) :
    ∃ piece ∈ pointPieces a, piece.1 ≤ c.toNat ∧ c.toNat ≤ piece.2 := by
  have zero : 0 ∈ getStartPoints a := mem_getStartPoints.mpr (Or.inl rfl)
  rw [pointPieces]
  cases points : getStartPoints a with
  | nil => exact absurd (points ▸ zero) List.not_mem_nil
  | cons point rest =>
      have first : point = 0 := by
        have sorted := points ▸ @pairwise_getStartPoints a
        rw [points] at zero
        rcases List.mem_cons.mp zero with same | later
        · exact same.symm
        · exact absurd ((List.pairwise_cons.mp sorted).1 0 later)
            (Nat.not_lt_zero point)
      exact exists_piece (first ▸ Nat.zero_le _) (toNat_le_maxValue c)

/-- The start of a piece is a point. -/
theorem fst_mem_getStartPoints {piece : Nat × Nat}
    (member : piece ∈ pointPieces a) : piece.1 ∈ getStartPoints a := by
  rw [← @map_fst_pieces maxValue (getStartPoints a)]
  exact List.mem_map_of_mem member

/-- Every transition of the state is a transition of a reachable state. -/
def Pointed (a : Automaton) (ref : Nat) : Prop :=
  ∀ transition ∈ (a.state ref).transitions,
    ∃ source, a.Reachable source ∧ transition ∈ (a.state source).transitions

theorem pointed_of_reachable {ref : Nat} (reachable : a.Reachable ref) :
    Pointed a ref :=
  fun _ member => ⟨ref, reachable, member⟩

/-- No transition separates the characters of a piece. -/
theorem reads_piece {ref : Nat} (pointed : Pointed a ref)
    {transition : Transition} (member : transition ∈ (a.state ref).transitions)
    {piece : Nat × Nat} (inPieces : piece ∈ pointPieces a) {c : JChar}
    (lower : piece.1 ≤ c.toNat) (upper : c.toNat ≤ piece.2) :
    transition.Reads c ↔ transition.Reads (toChar piece.1) := by
  rcases pointPieces_spec inPieces with ⟨proper, bounded, free⟩
  rcases pointed transition member with ⟨source, reachable, known⟩
  have low : transition.min.toNat ∈ getStartPoints a :=
    mem_getStartPoints.mpr (Or.inr ⟨source, reachable, transition, known,
      List.mem_cons_self⟩)
  have high : transition.max.toNat < maxValue →
      transition.max.toNat + 1 ∈ getStartPoints a := by
    intro room
    refine mem_getStartPoints.mpr (Or.inr ⟨source, reachable, transition,
      known, List.mem_cons_of_mem _ ?_⟩)
    rw [if_pos room]
    exact List.mem_singleton_self _
  have below := free _ low
  have start := toNat_toChar (proper.trans bounded)
  rw [← interval_has, ← interval_has, Segment.Has, Segment.Has, start]
  simp only [interval]
  constructor
  · rintro ⟨first, second⟩
    exact ⟨below (first.trans upper), lower.trans second⟩
  · rintro ⟨first, second⟩
    refine ⟨first.trans lower, ?_⟩
    by_contra beyond
    have room : transition.max.toNat < maxValue := by omega
    have cut := free _ (high room) (by omega)
    omega

end StartPoints

/-! ## The subset construction -/

section Subsets

variable (a : Automaton)

/-- The states that some state of the set reaches with the character. -/
def successorSet (set : Finset Nat) (c : JChar) : Finset Nat :=
  set.biUnion fun ref => (stepAll (a.state ref) c).toFinset

/-- The transitions of the new state of a set. -/
def subsetTransitions (set : Finset Nat) : List (Segment (Finset Nat)) :=
  ((pointPieces a).map fun piece =>
    { low := piece.1
      high := piece.2
      key := successorSet a set (toChar piece.1) }).filter
        fun numbers => numbers.key.Nonempty

variable {a}

theorem mem_successorSet {set : Finset Nat} {c : JChar} {target : Nat} :
    target ∈ successorSet a set c ↔
      ∃ source ∈ set, a.states.Step source c target := by
  simp only [successorSet, Finset.mem_biUnion, List.mem_toFinset, mem_stepAll]

theorem successorSet_subset (set : Finset Nat) (c : JChar) :
    successorSet a set c ⊆ Finset.range a.states.length := by
  intro target member
  rcases mem_successorSet.mp member with ⟨source, _, taken⟩
  exact Finset.mem_range.mpr (a.closed.step_lt taken)

theorem mem_subsetTransitions {set : Finset Nat}
    {numbers : Segment (Finset Nat)} :
    numbers ∈ subsetTransitions a set ↔
      (numbers.low, numbers.high) ∈ pointPieces a ∧
        numbers.key = successorSet a set (toChar numbers.low) ∧
          numbers.key.Nonempty := by
  simp only [subsetTransitions, List.mem_filter, List.mem_map,
    decide_eq_true_eq]
  constructor
  · rintro ⟨⟨piece, member, rfl⟩, nonempty⟩
    exact ⟨member, rfl, nonempty⟩
  · rintro ⟨member, isKey, nonempty⟩
    refine ⟨⟨_, member, ?_⟩, nonempty⟩
    rw [← isKey]

variable (a) (initialset : Finset Nat)

/-- The sets that `determinize(a, initialset)` makes new states for. -/
def subsets : List (Finset Nat) :=
  (exploreFrom (fun set => (subsetTransitions a set).map Segment.key)
    (2 ^ (Finset.range a.states.length ∪ initialset).card) initialset).getD []

variable {a initialset}

theorem mem_subsets {set : Finset Nat} :
    set ∈ subsets a initialset ↔ Relation.ReflTransGen
      (Edge fun set => (subsetTransitions a set).map Segment.key)
      initialset set := by
  have closed : ∀ set ∈ (Finset.range a.states.length ∪ initialset).powerset,
      ∀ next ∈ (subsetTransitions a set).map Segment.key,
        next ∈ (Finset.range a.states.length ∪ initialset).powerset := by
    intro set _ next edge
    rcases List.mem_map.mp edge with ⟨numbers, member, rfl⟩
    rw [(mem_subsetTransitions.mp member).2.1, Finset.mem_powerset]
    exact (successorSet_subset _ _).trans Finset.subset_union_left
  rcases exploreFrom_spec closed
      (Finset.mem_powerset.mpr Finset.subset_union_right)
      (Finset.card_powerset _).le with
    ⟨result, returned, _, reached⟩
  rw [subsets, returned, Option.getD_some]
  exact reached set

variable (a initialset)

/-- The loop of `determinize(a, initialset)`. -/
def subsetConstruction : Construction (Finset Nat) where
  keys := subsets a initialset
  start := initialset
  accept := fun set => decide (∃ ref ∈ set, (a.state ref).accept = true)
  next := subsetTransitions a
  start_mem := mem_subsets.mpr Relation.ReflTransGen.refl
  next_mem := fun _ known _ member => mem_subsets.mpr
    ((mem_subsets.mp known).tail (List.mem_map_of_mem member))

variable {a initialset}

theorem subsetConstruction_proper :
    (subsetConstruction a initialset).Proper := by
  intro set _ numbers member
  rcases pointPieces_spec (mem_subsetTransitions.mp member).1 with
    ⟨proper, bounded, _⟩
  exact ⟨proper, bounded⟩

/-- On a character a set goes on to the set of the successors. -/
theorem subset_next {set : Finset Nat} (pointed : ∀ ref ∈ set, Pointed a ref)
    {c : JChar} {numbers : Segment (Finset Nat)}
    (member : numbers ∈ subsetTransitions a set)
    (has : numbers.Has c.toNat) : numbers.key = successorSet a set c := by
  rcases mem_subsetTransitions.mp member with ⟨piece, isKey, _⟩
  rw [isKey]
  ext target
  rw [mem_successorSet, mem_successorSet]
  refine exists_congr fun source => and_congr_right fun inSet => ?_
  refine exists_congr fun transition => and_congr_right fun inState => ?_
  rw [reads_piece (pointed source inSet) inState piece has.1 has.2]

theorem pointed_of_mem_subsets (pointed : ∀ ref ∈ initialset, Pointed a ref)
    {set : Finset Nat} (known : set ∈ subsets a initialset) :
    ∀ ref ∈ set, Pointed a ref := by
  have reached := mem_subsets.mp known
  induction reached with
  | refl => exact pointed
  | tail before edge induction =>
      intro target inSet
      rcases List.mem_map.mp edge with ⟨numbers, member, rfl⟩
      rw [(mem_subsetTransitions.mp member).2.1] at inSet
      rcases mem_successorSet.mp inSet with
        ⟨source, inBefore, transition, inState, _, rfl⟩
      have here := induction (mem_subsets.mpr before) source inBefore
      rcases here transition inState with ⟨other, reachable, known⟩
      exact pointed_of_reachable (reachable.step
        ⟨transition, known, transition.reads_min, rfl⟩)

/-- The state of a set accepts what some state of the set accepts. -/
theorem subsetConstruction_accepts_iff
    (pointed : ∀ ref ∈ initialset, Pointed a ref) {set : Finset Nat}
    (known : set ∈ subsets a initialset) {word : Word} {deterministic : Bool} :
    ((subsetConstruction a initialset).automaton deterministic).states.Accepts
        ((subsetConstruction a initialset).ref set) word ↔
      ∃ ref ∈ set, a.states.Accepts ref word := by
  apply @Construction.accepts_iff _ _ _ _ subsetConstruction_proper
    fun set word => ∃ ref ∈ set, a.states.Accepts ref word
  · intro set _
    rw [subsetConstruction, decide_eq_true_eq]
    simp only [Heap.accepts_nil]
  · intro set known c word
    have here := pointed_of_mem_subsets pointed known
    simp only [Heap.accepts_cons]
    constructor
    · rintro ⟨ref, inSet, middle, taken, accepts⟩
      rcases @exists_pointPiece a c with ⟨piece, member, lower, upper⟩
      have target : middle ∈ successorSet a set c :=
        mem_successorSet.mpr ⟨ref, inSet, taken⟩
      have found : (⟨piece.1, piece.2, successorSet a set (toChar piece.1)⟩ :
          Segment (Finset Nat)) ∈ subsetTransitions a set := by
        refine mem_subsetTransitions.mpr ⟨member, rfl, middle, ?_⟩
        rcases taken with ⟨transition, inState, reads, dest⟩
        exact mem_successorSet.mpr ⟨ref, inSet, transition, inState,
          (reads_piece (here ref inSet) inState member lower upper).mp reads,
          dest⟩
      refine ⟨_, found, ⟨lower, upper⟩, middle, ?_, accepts⟩
      exact (subset_next here found ⟨lower, upper⟩) ▸ target
    · rintro ⟨numbers, member, has, middle, inNext, accepts⟩
      rw [subset_next here member has] at inNext
      rcases mem_successorSet.mp inNext with ⟨ref, inSet, taken⟩
      exact ⟨ref, inSet, middle, taken, accepts⟩
  · exact known

theorem subsetConstruction_deterministicFrom {deterministic : Bool} :
    ((subsetConstruction a initialset).automaton
        deterministic).states.DeterministicFrom
      ((subsetConstruction a initialset).automaton deterministic).initial := by
  refine Construction.deterministicFrom subsetConstruction_proper ?_
  intro set _ point left inLeft right inRight first second
  rcases mem_subsetTransitions.mp inLeft with ⟨piece, isKey, _⟩
  rcases mem_subsetTransitions.mp inRight with ⟨piece', isKey', _⟩
  -- two pieces with a common number start at the same point
  have below := (pointPieces_spec piece).2.2 _ (fst_mem_getStartPoints piece')
    (second.1.trans first.2)
  have above := (pointPieces_spec piece').2.2 _ (fst_mem_getStartPoints piece)
    (first.1.trans second.2)
  have same : left.low = right.low := le_antisymm above below
  rw [isKey, isKey', same]

end Subsets

/-! ## determinize -/

section Determinize

variable (order : StateOrder)

/-- `determinize(a, initialset)`. -/
def determinizeFrom (a : Automaton) (initialset : Finset Nat) : Automaton :=
  removeDeadTransitions order ((subsetConstruction a initialset).automaton true)

/-- `determinize(a)`. -/
def determinize (a : Automaton) : Automaton :=
  if a.deterministic then a else determinizeFrom order a {a.initial}

variable {order} {a : Automaton}

/-- From a set of states the automaton accepts what one of them accepts. -/
theorem determinizeFrom_spec {initialset : Finset Nat}
    (pointed : ∀ ref ∈ initialset, Pointed a ref) :
    ClassInvariants (determinizeFrom order a initialset) ∧
      (determinizeFrom order a initialset).states.DeterministicFrom
        (determinizeFrom order a initialset).initial ∧
      ∀ word, word ∈ (determinizeFrom order a initialset).lang ↔
        ∃ ref ∈ initialset, a.states.Accepts ref word := by
  have trimmed := @trimmed_removeDeadTransitions order
    ((subsetConstruction a initialset).automaton true)
  refine ⟨trimmed.invariants fun _ => subsetConstruction_deterministicFrom,
    trimmed.deterministicFrom subsetConstruction_deterministicFrom,
    fun word => ?_⟩
  rw [determinizeFrom, trimmed.lang_eq, Automaton.mem_lang]
  exact subsetConstruction_accepts_iff pointed
    (mem_subsets.mpr Relation.ReflTransGen.refl)

/-- What `determinize` builds if the flag is not set. -/
theorem determinizeFrom_initial :
    ClassInvariants (determinizeFrom order a {a.initial}) ∧
      (determinizeFrom order a {a.initial}).states.DeterministicFrom
        (determinizeFrom order a {a.initial}).initial ∧
      (determinizeFrom order a {a.initial}).lang = a.lang := by
  have pointed : ∀ ref ∈ ({a.initial} : Finset Nat), Pointed a ref := by
    intro ref member
    rw [Finset.mem_singleton.mp member]
    exact pointed_of_reachable Automaton.Reachable.initial
  rcases @determinizeFrom_spec order a {a.initial} pointed with
    ⟨invariants, deterministic, accepts⟩
  refine ⟨invariants, deterministic, ?_⟩
  ext word
  rw [accepts]
  simp only [Finset.mem_singleton, exists_eq_left]
  rfl

/-- `determinize` keeps the language, whatever the flag says. -/
theorem lang_determinize : (determinize order a).lang = a.lang := by
  rw [determinize]
  split_ifs
  · rfl
  · exact determinizeFrom_initial.2.2

/-- `determinize` makes the automaton deterministic. -/
theorem determinize_spec (honest : a.HonestFlag) :
    (determinize order a).deterministic = true ∧
      (determinize order a).states.DeterministicFrom
        (determinize order a).initial ∧
      (determinize order a).lang = a.lang := by
  refine ⟨?_, ?_, lang_determinize⟩ <;> rw [determinize] <;> split_ifs with flag
  · exact flag
  · rfl
  · exact honest flag
  · exact determinizeFrom_initial.2.1

theorem determinize_invariants (invariants : ClassInvariants a) :
    ClassInvariants (determinize order a) := by
  rw [determinize]
  split_ifs
  · exact invariants
  · exact determinizeFrom_initial.1

end Determinize

end SafetyGames.Automata
