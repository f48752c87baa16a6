import SafetyGames.Automata.Complement

/-!
# Intersection

The product construction of `intersection`, whose scan of the sorted
transitions of two states gives the overlapping intervals.
-/

namespace SafetyGames.Automata

open SafetyGames.Transducer SafetyGames.Teacher SafetyGames.Worklist
open SafetyGames.Intervals SafetyGames.LabelledPath

section Scan

variable (order : StateOrder)

/-- The row of a state in `getSortedTransitions(a.getStates())`. -/
def sortedRow (a : Automaton) (ref : Nat) : List (Segment Nat) :=
  (getSortedTransitions (order.number a) (a.state ref) false).map interval

variable {order} {a a1 a2 : Automaton}

theorem pairwise_sortedRow (ref : Nat) :
    (sortedRow order a ref).Pairwise fun left right => left.low ≤ right.low :=
  pairwise_low _ _

theorem mem_sortedRow {ref : Nat} {numbers : Segment Nat} :
    numbers ∈ sortedRow order a ref ↔
      ∃ transition ∈ (a.state ref).transitions,
        interval transition = numbers := by
  simp only [sortedRow, List.mem_map, mem_getSortedTransitions]

theorem sortedRow_proper {ref : Nat} {numbers : Segment Nat}
    (member : numbers ∈ sortedRow order a ref) :
    numbers.low ≤ numbers.high ∧ numbers.high ≤ maxValue := by
  rcases mem_sortedRow.mp member with ⟨transition, _, rfl⟩
  exact ⟨interval_proper transition, toNat_le_maxValue _⟩

theorem step_iff_sortedRow {ref target : Nat} {c : JChar} :
    a.states.Step ref c target ↔
      ∃ numbers ∈ sortedRow order a ref,
        numbers.Has c.toNat ∧ numbers.key = target := by
  simp only [mem_sortedRow, exists_exists_and_eq_and, interval_has]
  rfl

theorem sortedRow_step {ref : Nat} {numbers : Segment Nat}
    (member : numbers ∈ sortedRow order a ref) {point : Nat}
    (has : numbers.Has point) :
    a.states.Step ref (toChar point) numbers.key := by
  have bound := has.2.trans (sortedRow_proper member).2
  refine (@step_iff_sortedRow order _ _ _ _).mpr ⟨numbers, member, ?_, rfl⟩
  rwa [toNat_toChar bound]

end Scan

/-! ## The product -/

section Product

variable (order : StateOrder) (a1 a2 : Automaton)

/-- The transitions of the new state of a pair. -/
def productTransitions (pair : Nat × Nat) : List (Segment (Nat × Nat)) :=
  (overlaps (sortedRow order a1 pair.1) (sortedRow order a2 pair.2)).map
    fun found =>
      { low := if found.1.low > found.2.low then found.1.low else found.2.low
        high := if found.1.high < found.2.high then found.1.high
          else found.2.high
        key := (found.1.key, found.2.key) }

variable {order a1 a2}

theorem mem_productTransitions {pair : Nat × Nat}
    {numbers : Segment (Nat × Nat)} :
    numbers ∈ productTransitions order a1 a2 pair ↔
      ∃ left ∈ sortedRow order a1 pair.1, ∃ right ∈ sortedRow order a2 pair.2,
        left.low ≤ right.high ∧ right.low ≤ left.high ∧
          numbers = ⟨max left.low right.low, min left.high right.high,
            (left.key, right.key)⟩ := by
  have greater : ∀ m n : Nat, (if m > n then m else n) = max m n := by
    intro m n
    split_ifs <;> omega
  have smaller : ∀ m n : Nat, (if m < n then m else n) = min m n := by
    intro m n
    split_ifs <;> omega
  simp only [productTransitions, List.mem_map, Prod.exists, greater, smaller,
    mem_overlaps (pairwise_sortedRow _) (pairwise_sortedRow _)]
  constructor
  · rintro ⟨left, right, ⟨inLeft, inRight, high, low⟩, rfl⟩
    exact ⟨left, inLeft, right, inRight, high, low, rfl⟩
  · rintro ⟨left, inLeft, right, inRight, high, low, rfl⟩
    exact ⟨left, right, ⟨inLeft, inRight, high, low⟩, rfl⟩

/-- What a transition of the product contains, both transitions contain. -/
theorem productTransitions_has {pair : Nat × Nat}
    {numbers : Segment (Nat × Nat)}
    (member : numbers ∈ productTransitions order a1 a2 pair) {point : Nat}
    (has : numbers.Has point) :
    a1.states.Step pair.1 (toChar point) numbers.key.1 ∧
      a2.states.Step pair.2 (toChar point) numbers.key.2 := by
  rcases mem_productTransitions.mp member with
    ⟨left, inLeft, right, inRight, _, _, rfl⟩
  rcases has with ⟨lower, upper⟩
  simp only [max_le_iff, le_min_iff] at lower upper
  exact ⟨sortedRow_step inLeft ⟨lower.1, upper.1⟩,
    sortedRow_step inRight ⟨lower.2, upper.2⟩⟩

theorem productTransitions_proper {pair : Nat × Nat}
    {numbers : Segment (Nat × Nat)}
    (member : numbers ∈ productTransitions order a1 a2 pair) :
    numbers.low ≤ numbers.high ∧ numbers.high ≤ maxValue := by
  rcases mem_productTransitions.mp member with
    ⟨left, inLeft, right, inRight, high, low, rfl⟩
  have proper := sortedRow_proper inLeft
  have proper' := sortedRow_proper inRight
  simp only [max_le_iff, le_min_iff, min_le_iff]
  exact ⟨⟨⟨proper.1, low⟩, high, proper'.1⟩, Or.inl proper.2⟩

theorem exists_productTransition {pair : Nat × Nat} {c : JChar}
    {target1 target2 : Nat} (first : a1.states.Step pair.1 c target1)
    (second : a2.states.Step pair.2 c target2) :
    ∃ numbers ∈ productTransitions order a1 a2 pair,
      numbers.Has c.toNat ∧ numbers.key = (target1, target2) := by
  rcases (@step_iff_sortedRow order _ _ _ _).mp first with
    ⟨left, inLeft, has, rfl⟩
  rcases (@step_iff_sortedRow order _ _ _ _).mp second with
    ⟨right, inRight, has', rfl⟩
  refine ⟨_, mem_productTransitions.mpr ⟨left, inLeft, right, inRight,
    has.1.trans has'.2, has'.1.trans has.2, rfl⟩, ⟨?_, ?_⟩, rfl⟩
  · exact max_le has.1 has'.1
  · exact le_min has.2 has'.2

variable (order a1 a2)

/-- The pairs that `intersection` makes new states for. -/
def pairs : List (Nat × Nat) :=
  (exploreFrom (fun pair => (productTransitions order a1 a2 pair).map
    Segment.key) (a1.states.length * a2.states.length)
    (a1.initial, a2.initial)).getD []

variable {order a1 a2}

theorem mem_pairs {pair : Nat × Nat} :
    pair ∈ pairs order a1 a2 ↔ Relation.ReflTransGen
      (Edge fun pair => (productTransitions order a1 a2 pair).map Segment.key)
      (a1.initial, a2.initial) pair := by
  have closed : ∀ pair ∈ Finset.range a1.states.length ×ˢ
      Finset.range a2.states.length,
        ∀ next ∈ (productTransitions order a1 a2 pair).map Segment.key,
          next ∈ Finset.range a1.states.length ×ˢ
            Finset.range a2.states.length := by
    intro pair _ next edge
    rcases List.mem_map.mp edge with ⟨numbers, member, rfl⟩
    rcases productTransitions_has member
      ⟨le_rfl, (productTransitions_proper member).1⟩ with ⟨first, second⟩
    exact Finset.mem_product.mpr ⟨Finset.mem_range.mpr (a1.closed.step_lt first),
      Finset.mem_range.mpr (a2.closed.step_lt second)⟩
  have enough : (Finset.range a1.states.length ×ˢ
      Finset.range a2.states.length).card ≤
        a1.states.length * a2.states.length := by
    rw [Finset.card_product, Finset.card_range, Finset.card_range]
  have start : (a1.initial, a2.initial) ∈
      Finset.range a1.states.length ×ˢ Finset.range a2.states.length :=
    Finset.mem_product.mpr ⟨Finset.mem_range.mpr a1.initial_lt,
      Finset.mem_range.mpr a2.initial_lt⟩
  rcases exploreFrom_spec closed start enough with
    ⟨result, returned, _, reached⟩
  rw [pairs, returned, Option.getD_some]
  exact reached pair

theorem pairs_reachable {pair : Nat × Nat} (known : pair ∈ pairs order a1 a2) :
    a1.Reachable pair.1 ∧ a2.Reachable pair.2 := by
  have reached := mem_pairs.mp known
  induction reached with
  | refl => exact ⟨Automaton.Reachable.initial, Automaton.Reachable.initial⟩
  | tail before edge induction =>
      rcases induction (mem_pairs.mpr before) with ⟨left, right⟩
      rcases List.mem_map.mp edge with ⟨numbers, member, rfl⟩
      rcases productTransitions_has member
        ⟨le_rfl, (productTransitions_proper member).1⟩ with ⟨first, second⟩
      exact ⟨left.step first, right.step second⟩

variable (order a1 a2)

/-- The loop of `intersection`. -/
def productConstruction : Construction (Nat × Nat) where
  keys := pairs order a1 a2
  start := (a1.initial, a2.initial)
  accept := fun pair => (a1.state pair.1).accept && (a2.state pair.2).accept
  next := productTransitions order a1 a2
  start_mem := mem_pairs.mpr Relation.ReflTransGen.refl
  next_mem := fun _ known _ member => mem_pairs.mpr
    ((mem_pairs.mp known).tail (List.mem_map_of_mem member))

variable {order a1 a2}

theorem productConstruction_proper :
    (productConstruction order a1 a2).Proper :=
  fun _ _ _ member => productTransitions_proper member

/-- A pair accepts what both of its states accept. -/
theorem productConstruction_accepts_iff {pair : Nat × Nat}
    (known : pair ∈ pairs order a1 a2) {word : Word} {deterministic : Bool} :
    ((productConstruction order a1 a2).automaton deterministic).states.Accepts
        ((productConstruction order a1 a2).ref pair) word ↔
      a1.states.Accepts pair.1 word ∧ a2.states.Accepts pair.2 word := by
  apply @Construction.accepts_iff _ _ _ _ productConstruction_proper
    fun pair word => a1.states.Accepts pair.1 word ∧
      a2.states.Accepts pair.2 word
  · intro pair _
    rw [productConstruction, Bool.and_eq_true, Heap.accepts_nil,
      Heap.accepts_nil]
  · intro pair _ c word
    rw [Heap.accepts_cons, Heap.accepts_cons]
    constructor
    · rintro ⟨⟨target1, first, accepts1⟩, target2, second, accepts2⟩
      rcases @exists_productTransition order _ _ _ _ _ _ first second with
        ⟨numbers, member, has, isKey⟩
      rw [← Prod.eta numbers.key, Prod.mk.injEq] at isKey
      exact ⟨numbers, member, has, isKey.1 ▸ accepts1, isKey.2 ▸ accepts2⟩
    · rintro ⟨numbers, member, has, accepts1, accepts2⟩
      rcases productTransitions_has member has with ⟨first, second⟩
      rw [toChar_toNat] at first second
      exact ⟨⟨_, first, accepts1⟩, _, second, accepts2⟩
  · exact known

theorem productConstruction_deterministicFrom {deterministic : Bool}
    (first : a1.states.DeterministicFrom a1.initial)
    (second : a2.states.DeterministicFrom a2.initial) :
    ((productConstruction order a1 a2).automaton
        deterministic).states.DeterministicFrom
      ((productConstruction order a1 a2).automaton deterministic).initial := by
  refine Construction.deterministicFrom productConstruction_proper ?_
  intro pair known point left inLeft right inRight has has'
  rcases pairs_reachable known with ⟨⟨word1, path1⟩, word2, path2⟩
  rcases productTransitions_has inLeft has with ⟨step1, step2⟩
  rcases productTransitions_has inRight has' with ⟨step1', step2'⟩
  exact Prod.ext (first word1 pair.1 path1 _ _ _ step1 step1')
    (second word2 pair.2 path2 _ _ _ step2 step2')

variable (order a1 a2)

/-- `intersection(a1, a2)` on two automata without singleton strings. -/
def product : Automaton :=
  removeDeadTransitions order ((productConstruction order a1 a2).automaton
    (a1.deterministic && a2.deterministic))

variable {order a1 a2}

/-- The product accepts the intersection. -/
theorem product_spec (honest1 : a1.HonestFlag) (honest2 : a2.HonestFlag) :
    ClassInvariants (product order a1 a2) ∧
      (product order a1 a2).lang = a1.lang ∩ a2.lang := by
  have trimmed := @trimmed_removeDeadTransitions order
    ((productConstruction order a1 a2).automaton
      (a1.deterministic && a2.deterministic))
  constructor
  · apply trimmed.invariants
    intro flag
    have flags := Bool.and_eq_true_iff.mp flag
    exact productConstruction_deterministicFrom (honest1 flags.1)
      (honest2 flags.2)
  · rw [product, trimmed.lang_eq]
    ext word
    exact productConstruction_accepts_iff
      (mem_pairs.mpr Relation.ReflTransGen.refl)

end Product

end SafetyGames.Automata
