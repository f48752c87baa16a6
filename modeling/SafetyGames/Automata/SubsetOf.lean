import SafetyGames.Automata.Intersection

/-!
# Inclusion of languages

`subsetOf` walks over the pairs of states that one word leads to and stops at a
pair that separates the languages: the first state accepts and the second does
not, or the first reads a character that the second does not read.
-/

namespace SafetyGames.Automata

open SafetyGames.Transducer SafetyGames.Teacher SafetyGames.Worklist
open SafetyGames.Intervals SafetyGames.LabelledPath

section SubsetOf

variable (order : StateOrder) (a1 a2 : Automaton)

/-- The transitions of the first state with those of the second one that the
inner loop of `subsetOf` looks at. -/
def pairWindows (pair : Nat × Nat) :
    List (Segment Nat × List (Segment Nat)) :=
  windows (sortedRow order a1 pair.1) (sortedRow order a2 pair.2)

/-- The pair does not make `subsetOf` return false. -/
def pairAgrees (pair : Nat × Nat) : Bool :=
  !((a1.state pair.1).accept && !(a2.state pair.2).accept) &&
    (pairWindows order a1 a2 pair).all fun found =>
      fills maxValue found.1.low found.1.high found.2

/-- The pairs that `subsetOf` adds to its worklist for a pair. -/
def pairSuccessors (pair : Nat × Nat) : List (Nat × Nat) :=
  (pairWindows order a1 a2 pair).flatMap fun found =>
    found.2.map fun right => (found.1.key, right.key)

/-- The loop of `subsetOf(a1, a2)`, behind `a2.determinize()`. -/
def walkPairs : Bool :=
  (exploreAll (pairSuccessors order a1 a2) (pairAgrees order a1 a2)
    (a1.states.length * a2.states.length)
    ⟨[(a1.initial, a2.initial)], [(a1.initial, a2.initial)]⟩).getD false

variable {order a1 a2}

theorem walkPairs_iff :
    walkPairs order a1 a2 = true ↔ ∀ pair, Relation.ReflTransGen
      (Edge (pairSuccessors order a1 a2)) (a1.initial, a2.initial) pair →
        pairAgrees order a1 a2 pair = true := by
  have closed : ∀ pair ∈ Finset.range a1.states.length ×ˢ
      Finset.range a2.states.length,
        ∀ next ∈ pairSuccessors order a1 a2 pair,
          next ∈ Finset.range a1.states.length ×ˢ
            Finset.range a2.states.length := by
    intro pair _ next edge
    simp only [pairSuccessors, List.mem_flatMap, List.mem_map] at edge
    rcases edge with ⟨⟨left, window⟩, found, right, inWindow, rfl⟩
    rcases windows_spec found with ⟨inLeft, part, _⟩
    have inRight := part.subset inWindow
    have first := sortedRow_step inLeft ⟨le_rfl, (sortedRow_proper inLeft).1⟩
    have second := sortedRow_step inRight
      ⟨le_rfl, (sortedRow_proper inRight).1⟩
    exact Finset.mem_product.mpr ⟨Finset.mem_range.mpr (a1.closed.step_lt first),
      Finset.mem_range.mpr (a2.closed.step_lt second)⟩
  have enough : (Finset.range a1.states.length ×ˢ
      Finset.range a2.states.length).card ≤
        a1.states.length * a2.states.length := by
    rw [Finset.card_product, Finset.card_range, Finset.card_range]
  have start : (a1.initial, a2.initial) ∈
      Finset.range a1.states.length ×ˢ Finset.range a2.states.length :=
    Finset.mem_product.mpr ⟨Finset.mem_range.mpr a1.initial_lt,
      Finset.mem_range.mpr a2.initial_lt⟩
  rcases @exploreAll_spec _ _ _ _ _ (pairAgrees order a1 a2) closed start _
    enough with ⟨answer, returned, decided⟩
  rw [walkPairs, returned]
  exact decided

theorem pairAgrees_accept {pair : Nat × Nat}
    (agrees : pairAgrees order a1 a2 pair = true)
    (accept : (a1.state pair.1).accept = true) :
    (a2.state pair.2).accept = true := by
  have ending := (Bool.and_eq_true_iff.mp agrees).1
  simpa [accept] using ending

/-- What the first state of a pair reads, the second one reads, and the pair of
the destinations is added. -/
theorem pairAgrees_step {pair : Nat × Nat}
    (agrees : pairAgrees order a1 a2 pair = true) {c : JChar} {target : Nat}
    (taken : a1.states.Step pair.1 c target) :
    ∃ other, a2.states.Step pair.2 c other ∧
      (target, other) ∈ pairSuccessors order a1 a2 pair := by
  rcases (@step_iff_sortedRow order _ _ _ _).mp taken with
    ⟨left, inLeft, has, rfl⟩
  rcases exists_window (sortedRow order a2 pair.2) inLeft with ⟨window, found⟩
  have filled := List.all_eq_true.mp (Bool.and_eq_true_iff.mp agrees).2 _ found
  rcases fills_sound filled has.1 has.2 (toNat_le_maxValue c) with
    ⟨right, inWindow, has'⟩
  have inRight := (windows_spec found).2.1.subset inWindow
  refine ⟨right.key, (@step_iff_sortedRow order _ _ _ _).mpr
    ⟨right, inRight, has', rfl⟩, ?_⟩
  simp only [pairSuccessors, List.mem_flatMap, List.mem_map]
  exact ⟨_, found, right, inWindow, rfl⟩

/-- If no pair separates the languages, the first is a part of the second. -/
theorem subset_of_walkPairs (walked : walkPairs order a1 a2 = true) :
    a1.lang ⊆ a2.lang := by
  have agrees := walkPairs_iff.mp walked
  have onward : ∀ word pair, Relation.ReflTransGen
      (Edge (pairSuccessors order a1 a2)) (a1.initial, a2.initial) pair →
        a1.states.Accepts pair.1 word → a2.states.Accepts pair.2 word := by
    intro word
    induction word with
    | nil =>
        intro pair reached accepts
        exact Heap.accepts_nil.mpr
          (pairAgrees_accept (agrees pair reached) (Heap.accepts_nil.mp accepts))
    | cons c word induction =>
        intro pair reached accepts
        rcases Heap.accepts_cons.mp accepts with ⟨middle, taken, rest⟩
        rcases pairAgrees_step (agrees pair reached) taken with
          ⟨other, follows, added⟩
        exact Heap.accepts_cons.mpr ⟨other, follows,
          induction (middle, other) (reached.tail added) rest⟩
  intro word accepted
  exact onward word _ Relation.ReflTransGen.refl accepted

/-- No two transitions of a reachable state read one character. -/
def Disjoint (a : Automaton) : Prop :=
  ∀ ref, a.Reachable ref → ∀ t1 ∈ (a.state ref).transitions,
    ∀ t2 ∈ (a.state ref).transitions, ∀ c, t1.Reads c → t2.Reads c → t1 = t2

/-- In a deterministic automaton the transitions of a reduced state are disjoint. -/
theorem disjoint_of_reduced {a : Automaton}
    (deterministic : a.states.DeterministicFrom a.initial)
    (reduced : ∀ ref, a.Reachable ref → Reduced (a.state ref).transitions) :
    Disjoint a := by
  rintro ref ⟨word, path⟩ t1 first t2 second c reads1 reads2
  by_contra different
  have same := deterministic word ref path c _ _ ⟨t1, first, reads1, rfl⟩
    ⟨t2, second, reads2, rfl⟩
  have separate := (reduced ref ⟨word, path⟩).forall first second different same
  rw [← interval_has] at reads1 reads2
  simp only [Segment.Has, interval] at reads1 reads2
  omega

/-- Disjoint transitions, sorted, lie one behind the other. -/
theorem pairwise_disjoint (disjoint : Disjoint a2) {ref : Nat}
    (reachable : a2.Reachable ref) (nodup : (a2.state ref).transitions.Nodup) :
    (sortedRow order a2 ref).Pairwise
      fun left right => left.high < right.low := by
  have distinct : (getSortedTransitions (order.number a2) (a2.state ref)
      false).Nodup :=
    (List.perm_insertionSort _ _).nodup_iff.mpr nodup
  have sorted := @pairwise_sortedRow order a2 ref
  rw [sortedRow, List.pairwise_map] at sorted ⊢
  refine (sorted.and distinct).imp_of_mem ?_
  rintro t1 t2 first second ⟨below, different⟩
  by_contra overlapping
  refine different (disjoint ref reachable t1
    (mem_getSortedTransitions.mp first) t2
    (mem_getSortedTransitions.mp second) t2.min ?_ t2.reads_min)
  rw [← interval_has]
  exact ⟨below, not_lt.mp overlapping⟩

/-- The walk over a live automaton and a deterministic reduced one is exact. -/
theorem walkPairs_of_subset (live : ∀ ref, a1.Reachable ref →
      ∀ transition ∈ (a1.state ref).transitions,
        ∃ word, a1.states.Accepts transition.dest word)
    (deterministic : a2.states.DeterministicFrom a2.initial)
    (reduced : ∀ ref, a2.Reachable ref → Reduced (a2.state ref).transitions)
    (subset : a1.lang ⊆ a2.lang) : walkPairs order a1 a2 = true := by
  have disjoint := disjoint_of_reduced deterministic reduced
  have rowDisjoint : ∀ ref, a2.Reachable ref → (sortedRow order a2 ref).Pairwise
      fun left right => left.high < right.low :=
    fun ref reachable =>
      pairwise_disjoint disjoint reachable (reduced ref reachable).nodup
  have rowProper : ∀ ref, ∀ right ∈ sortedRow order a2 ref,
      right.low ≤ right.high :=
    fun ref right member => (sortedRow_proper member).1
  refine walkPairs_iff.mpr fun pair reached => ?_
  -- one word leads to both states of a pair
  have together : ∃ word, Path a1.states.Step a1.initial word pair.1 ∧
      Path a2.states.Step a2.initial word pair.2 := by
    induction reached with
    | refl => exact ⟨[], Path.nil _, Path.nil _⟩
    | @tail middle next before edge induction =>
        rcases induction with ⟨word, path1, path2⟩
        simp only [Edge, pairSuccessors, List.mem_flatMap, List.mem_map] at edge
        rcases edge with ⟨⟨left, window⟩, found, right, inWindow, rfl⟩
        rcases windows_spec found with ⟨inLeft, part, early⟩
        have reaches := low_le_of_mem_window (rowDisjoint _ ⟨word, path2⟩)
          (rowProper _) found right inWindow
        have inRight := part.subset inWindow
        have common : left.Has (max left.low right.low) ∧
            right.Has (max left.low right.low) := by
          have order1 := (sortedRow_proper inLeft).1
          have order2 := (sortedRow_proper inRight).1
          have start := early right inWindow
          simp only [Segment.Has]
          omega
        exact ⟨word ++ [toChar (max left.low right.low)],
          path1.snoc (sortedRow_step inLeft common.1),
          path2.snoc (sortedRow_step inRight common.2)⟩
  rcases together with ⟨word, path1, path2⟩
  have included : ∀ rest, a1.states.Accepts pair.1 rest →
      a2.states.Accepts pair.2 rest := by
    rintro rest ⟨target, path, accept⟩
    have whole : word ++ rest ∈ a2.lang :=
      subset ⟨target, path1.append path, accept⟩
    exact (deterministic.accepts_append_iff path2).mp whole
  refine Bool.and_eq_true_iff.mpr ⟨?_, List.all_eq_true.mpr ?_⟩
  · cases accept : (a1.state pair.1).accept with
    | false => rfl
    | true =>
        rw [Heap.accepts_nil.mp (included [] (Heap.accepts_nil.mpr accept))]
        rfl
  · rintro ⟨left, window⟩ found
    rcases windows_spec found with ⟨inLeft, part, early⟩
    have bounds := sortedRow_proper inLeft
    apply fills_complete (by decide)
    · exact (rowDisjoint _ ⟨word, path2⟩).sublist part
    · exact fun right inWindow => rowProper _ right (part.subset inWindow)
    · exact early
    · exact low_le_of_mem_window (rowDisjoint _ ⟨word, path2⟩) (rowProper _)
        found
    · exact fun right inWindow => (early right inWindow).trans bounds.2
    · intro point lower upper
      rcases mem_sortedRow.mp inLeft with ⟨transition, inState, rfl⟩
      rcases live pair.1 ⟨word, path1⟩ transition inState with ⟨rest, accepts⟩
      have taken := sortedRow_step inLeft ⟨lower, upper⟩
      rcases Heap.accepts_cons.mp (included (toChar point :: rest)
        (Heap.accepts_cons.mpr ⟨_, taken, accepts⟩)) with ⟨other, taken', _⟩
      rcases (@step_iff_sortedRow order _ _ _ _).mp taken' with
        ⟨right, inRight, has, _⟩
      rw [toNat_toChar (upper.trans bounds.2)] at has
      refine ⟨right, ?_, has⟩
      exact mem_window (pairwise_sortedRow _) (pairwise_sortedRow _) found
        inRight (lower.trans has.2) (has.1.trans upper)

end SubsetOf

end SafetyGames.Automata
