import SafetyGames.Automata.Epsilons
import SafetyGames.Automata.NumberTrees
import SafetyGames.Automata.Tidy

/-!
# Automata of decimal intervals

`makeInterval`: the tree of the numbers between the padded bounds.  Without a
fixed number of digits, epsilon transitions skip the leading zeros of the tree
and a loop reads further ones.
-/

namespace SafetyGames.Automata

open SafetyGames.Transducer SafetyGames.LabelledPath SafetyGames.Teacher
open SafetyGames.Decimal

/-! ## The states behind leading zeros -/

section Zeros

theorem atLeast_initials_false (offset : Nat) (x : Word) :
    (atLeast offset x false).2 = [] := by
  induction x generalizing offset with
  | nil => rfl
  | cons c x induction =>
      rw [atLeast, Bool.false_and, induction]
      rfl

/-- The positions of a text behind zeros only. -/
def BehindZeros (x : Word) (k : Nat) (rest : Word) : Prop :=
  rest ≠ [] ∧ x = List.replicate k 48 ++ rest

theorem behindZeros_cons {c : JChar} {x rest : Word} {k : Nat} :
    BehindZeros (c :: x) k rest ↔
      k = 0 ∧ rest = c :: x ∨
        c = 48 ∧ ∃ before, k = before + 1 ∧ BehindZeros x before rest := by
  constructor
  · rintro ⟨nonempty, same⟩
    cases k with
    | zero => exact Or.inl ⟨rfl, same.symm⟩
    | succ k =>
        rw [List.replicate_succ, List.cons_append] at same
        rcases List.cons.inj same with ⟨rfl, further⟩
        exact Or.inr ⟨rfl, k, rfl, nonempty, further⟩
  · rintro (⟨rfl, rfl⟩ | ⟨rfl, before, rfl, nonempty, rfl⟩)
    · exact ⟨List.cons_ne_nil _ _, rfl⟩
    · exact ⟨nonempty, rfl⟩

/-- A state, and those behind it if it reads a zero. -/
theorem mem_initials_cons {c : JChar} {x : Word} {offset p : Nat}
    {behind : List Nat}
    (zero : c = 48 → (p ∈ behind ↔
      ∃ k rest, BehindZeros x k rest ∧ p = offset + 1 + k))
    (other : c ≠ 48 → behind = []) :
    p ∈ offset :: behind ↔
      ∃ k rest, BehindZeros (c :: x) k rest ∧ p = offset + k := by
  simp only [behindZeros_cons, List.mem_cons]
  by_cases isZero : c = 48
  · rw [zero isZero]
    constructor
    · rintro (rfl | ⟨k, rest, further, rfl⟩)
      · exact ⟨0, _, Or.inl ⟨rfl, rfl⟩, rfl⟩
      · exact ⟨k + 1, rest, Or.inr ⟨isZero, k, rfl, further⟩, by omega⟩
    · rintro ⟨_, rest, ⟨rfl, rfl⟩ | ⟨_, k, rfl, further⟩, rfl⟩
      · exact Or.inl rfl
      · exact Or.inr ⟨k, rest, further, by omega⟩
  · rw [other isZero]
    constructor
    · rintro (rfl | none)
      · exact ⟨0, _, Or.inl ⟨rfl, rfl⟩, rfl⟩
      · exact absurd none List.not_mem_nil
    · rintro ⟨_, rest, ⟨rfl, rfl⟩ | ⟨reads, _⟩, rfl⟩
      · exact Or.inl rfl
      · exact absurd reads isZero

theorem not_behindZeros_nil {k : Nat} {rest : Word} :
    ¬ BehindZeros [] k rest :=
  fun ⟨nonempty, same⟩ => nonempty (List.append_eq_nil_iff.mp same.symm).2

theorem atLeast_initials {x : Word} {offset p : Nat} :
    p ∈ (atLeast offset x true).2 ↔
      ∃ k rest, BehindZeros x k rest ∧ p = offset + k := by
  induction x generalizing offset with
  | nil =>
      exact iff_of_false List.not_mem_nil
        fun ⟨_, _, behind, _⟩ => not_behindZeros_nil behind
  | cons c x induction =>
      refine mem_initials_cons (fun zero => ?_) fun other => ?_
      · rw [zero]
        exact induction
      · rw [beq_eq_false_iff_ne.mpr other]
        exact atLeast_initials_false (offset + 1) x

theorem between_initials_false (offset : Nat) (x y : Word) :
    (between offset x y false).2 = [] := by
  induction x generalizing offset y with
  | nil => rw [between.eq_2 _ _ _ _ (by simp)]
  | cons cx x induction =>
      cases y with
      | nil => rfl
      | cons cy y =>
          rw [between]
          by_cases one : cx = cy
          · rw [if_pos one]
            exact induction (offset + 1) y
          · rw [if_neg one]
            exact atLeast_initials_false (offset + 1) x

theorem between_initials {x y : Word} (lengths : x.length = y.length)
    {offset p : Nat} :
    p ∈ (between offset x y true).2 ↔
      ∃ k rest, BehindZeros x k rest ∧ p = offset + k := by
  induction x generalizing y offset with
  | nil =>
      rw [between.eq_2 _ _ _ _ (by simp)]
      refine iff_of_false List.not_mem_nil ?_
      rintro ⟨_, _, behind, _⟩
      exact not_behindZeros_nil behind
  | cons cx x induction =>
      cases y with
      | nil => exact absurd lengths (Nat.succ_ne_zero _)
      | cons cy y =>
          rw [between]
          by_cases one : cx = cy
          · rw [if_pos one]
            refine mem_initials_cons (fun zero => ?_) fun other => ?_
            · rw [zero]
              exact induction (Nat.add_right_cancel lengths)
            · rw [beq_eq_false_iff_ne.mpr other]
              exact between_initials_false (offset + 1) x y
          · rw [if_neg one]
            refine mem_initials_cons (fun zero => ?_) fun other => ?_
            · rw [zero]
              exact atLeast_initials
            · rw [beq_eq_false_iff_ne.mpr other]
              exact atLeast_initials_false (offset + 1) x

/-- From a state behind zeros the shorter numbers are accepted. -/
theorem atLeast_accepts_behind {heap : Heap} {x rest : Word} {k offset : Nat}
    {zeros : Bool} (behind : BehindZeros x k rest) (digits : Digits x)
    (placed : Placed heap offset (atLeast offset x zeros).1) {word : Word} :
    heap.Accepts (offset + k) word ↔
      word.length = rest.length ∧ Digits word ∧ value rest ≤ value word := by
  induction x generalizing offset k zeros with
  | nil => exact absurd behind not_behindZeros_nil
  | cons c x induction =>
      rcases behindZeros_cons.mp behind with ⟨rfl, rfl⟩ | ⟨_, k, rfl, further⟩
      · exact atLeast_accepts digits placed
      · have accepts := induction further (digits_cons.mp digits).2
          placed.cons.2.append.1
        rwa [Nat.add_assoc, Nat.add_comm 1] at accepts

theorem between_accepts_behind {heap : Heap} {x y rest : Word} {k offset : Nat}
    {zeros : Bool} (behind : BehindZeros x k rest) (bounds : Bounds x y)
    (placed : Placed heap offset (between offset x y zeros).1) {word : Word} :
    heap.Accepts (offset + k) word ↔ word.length = rest.length ∧ Digits word ∧
      value rest ≤ value word ∧ value word ≤ value y := by
  induction x generalizing y offset k zeros with
  | nil => exact absurd behind not_behindZeros_nil
  | cons cx x induction =>
      cases y with
      | nil => exact absurd bounds.lengths (Nat.succ_ne_zero _)
      | cons cy y =>
          rcases behindZeros_cons.mp behind with ⟨rfl, rfl⟩ |
            ⟨rfl, k, rfl, further⟩
          · exact between_accepts bounds.lengths bounds.digitsX bounds.digitsY
              bounds.order placed
          · rcases bounds.cons with ⟨othersX, othersY, lengths,
              ⟨rfl, others⟩ | ⟨one, less⟩⟩
            · rw [between, if_pos rfl] at placed
              have accepts := induction further others placed.cons.2
              rw [Nat.add_assoc, Nat.add_comm 1] at accepts
              rw [value_zero_cons]
              exact accepts
            · rw [between, if_neg one] at placed
              have accepts := @atLeast_accepts_behind _ _ _ _ _ _ further othersX
                placed.cons.2.append.1 word
              rw [Nat.add_assoc, Nat.add_comm 1] at accepts
              rw [accepts]
              -- fewer digits than those of the upper bound
              refine and_congr_right fun length => and_congr_right fun digits => ?_
              refine (and_iff_left ?_).symm
              by_contra greater
              have short : rest.length ≤ y.length := by
                rw [← lengths, further.2, List.length_append]
                exact Nat.le_add_left _ _
              have bound := (not_le.mp greater).trans (value_lt digits)
              exact one (eq_zero_of_value_lt
                (digits_cons.mp bounds.digitsY).1 bound (length ▸ short)).symm

end Zeros

/-! ## makeInterval() -/

/-- The decimal text of a number, filled with zeros in front. -/
def padded (d k : Nat) : Word :=
  List.replicate (d - (decimal k).length) 48 ++ decimal k

theorem length_padded {d k : Nat} (room : (decimal k).length ≤ d) :
    (padded d k).length = d := by
  rw [padded, List.length_append, List.length_replicate, Nat.sub_add_cancel room]

theorem digits_padded (d k : Nat) : Digits (padded d k) := by
  intro c member
  rcases List.mem_append.mp member with isZero | inDecimal
  · rw [List.eq_of_mem_replicate isZero]
    exact ⟨le_rfl, by decide⟩
  · exact digits_decimal k c inDecimal

@[simp]
theorem value_padded (d k : Nat) : value (padded d k) = k :=
  (value_zeros _ _).trans (value_decimal k)

theorem length_decimal_mono {min max : Nat} (order : min ≤ max) :
    (decimal min).length ≤ (decimal max).length :=
  length_decimal_le (digits_decimal max) (decimal_ne_nil max)
    (order.trans_eq (value_decimal max).symm)

theorem bounds_padded {min max d : Nat} (order : min ≤ max)
    (room : (decimal max).length ≤ d) : Bounds (padded d min) (padded d max) where
  lengths := (length_padded ((length_decimal_mono order).trans room)).trans
    (length_padded room).symm
  digitsX := digits_padded d min
  digitsY := digits_padded d max
  order := by rwa [value_padded, value_padded]

/-- The automaton with `a.initial = between(x, y, 0, initials, zeros)`. -/
def betweenAutomaton {x y : Word} (bounds : Bounds x y) (zeros : Bool) :
    Automaton where
  states := (between 0 x y zeros).1
  initial := 0
  deterministic := true
  initial_lt := length_between_pos 0 x y zeros
  closed := by
    intro state member t inState
    have inside := ((bounds.between_sprouts (placed_self _) state member).inside
      t inState).2
    rwa [Nat.zero_add] at inside

/-- `state.addTransition(t)`. -/
def addTransition (t : Transition) (state : State) : State where
  accept := state.accept
  transitions := state.transitions.insert t

/-- `a.initial.addTransition(new Transition('0', a.initial))`. -/
def loopOnZero (a : Automaton) : Automaton where
  states := update a.states [a.initial]
    (addTransition (Transition.single 48 a.initial))
  initial := a.initial
  deterministic := false
  initial_lt := by
    rw [length_update]
    exact a.initial_lt
  closed := by
    intro state member t inState
    rw [length_update]
    rcases mem_update member with ⟨old, inHeap, rfl | rfl⟩
    · rcases List.mem_insert_iff.mp inState with rfl | inOld
      · exact a.initial_lt
      · exact a.closed old inHeap t inOld
    · exact a.closed _ inHeap t inState

/-- The epsilon transitions from the initial state to the other `initials`. -/
def initialPairs (initials : List Nat) : List (Nat × Nat) :=
  (initials.filter fun p => p ≠ 0).map fun p => (0, p)

/-- The number of digits of the tree. -/
def treeDigits (max digits : Nat) : Nat :=
  if digits > 0 then digits else (decimal max).length

theorem room_treeDigits {max digits : Nat}
    (fits : ¬ (digits > 0 ∧ (decimal max).length > digits)) :
    (decimal max).length ≤ treeDigits max digits := by
  rw [treeDigits]
  split_ifs with fixed
  · exact not_lt.mp fun long => fits ⟨fixed, long⟩
  · exact le_rfl

section Tree

variable {x y : Word} (bounds : Bounds x y)

/-- The automaton with the epsilon transitions from its initial state. -/
def epsilonAutomaton : Automaton :=
  addEpsilons (betweenAutomaton bounds true)
    (initialPairs (between 0 x y true).2)

/-- The automaton of numbers with any number of digits. -/
def unfixedAutomaton : Automaton :=
  loopOnZero (epsilonAutomaton bounds)

/-- `makeInterval` behind the padding; `(char)n` in `atMost` sends indices above
65535 back to the beginning of the text, and the recursion does not end. -/
def treeAutomaton (digits : Nat) : Option Automaton :=
  if x.length > 65536 ∧ x.dropLast ≠ y.dropLast then none
  else if digits > 0 then some (betweenAutomaton bounds false)
  else some (unfixedAutomaton bounds)

end Tree

/-- `makeInterval(min, max, digits)` for natural numbers, `none` if it throws or
does not end. -/
def makeInterval (min max digits : Nat) : Option Automaton :=
  if refused : min > max ∨ digits > 0 ∧ (decimal max).length > digits then none
  else treeAutomaton (bounds_padded
    (not_lt.mp fun less => refused (Or.inl less))
    (room_treeDigits fun long => refused (Or.inr long))) digits

/-! ### Numbers with a fixed number of digits -/

section Fixed

variable {x y : Word} (bounds : Bounds x y) {zeros : Bool}

theorem betweenAutomaton_sprouts (ref : Nat) :
    ∃ low high, Sprouts (betweenAutomaton bounds zeros).states low high
      ((betweenAutomaton bounds zeros).state ref) := by
  by_cases inside : ref < (betweenAutomaton bounds zeros).states.length
  · exact ⟨_, _, bounds.between_sprouts (placed_self _) _
      (Heap.state_mem inside)⟩
  · rw [Automaton.state, Heap.state_of_length_le (not_lt.mp inside)]
    exact ⟨0, 0, sprouts_nil⟩

theorem betweenAutomaton_dest_pos {ref : Nat} {t : Transition}
    (inState : t ∈ ((betweenAutomaton bounds zeros).state ref).transitions) :
    t.dest ≠ 0 := by
  rcases @betweenAutomaton_sprouts _ _ bounds zeros ref with
    ⟨low, high, sprouts⟩
  have inside := (sprouts.inside t inState).1
  omega

theorem tidy_betweenAutomaton : Tidy (betweenAutomaton bounds zeros) := by
  refine ⟨⟨fun _ word source _ c left right first second => ?_, ?_⟩, ?_⟩
  · rcases first with ⟨t, inT, readsT, rfl⟩
    rcases second with ⟨u, inU, readsU, rfl⟩
    rcases @betweenAutomaton_sprouts _ _ bounds zeros source with
      ⟨low, high, sprouts⟩
    by_contra different
    have symmetric : Std.Symm Apart := ⟨fun t u apart =>
      ⟨apart.1.symm, fun c reads other => apart.2 c other reads⟩⟩
    have apart := sprouts.apart.forall inT inU fun same =>
      different (congrArg Transition.dest same)
    exact apart.2 c readsT readsU
  · intro ref _ t inState
    rcases @betweenAutomaton_sprouts _ _ bounds zeros ref with
      ⟨low, high, sprouts⟩
    exact sprouts.alive t inState
  · intro _ ref _
    rcases @betweenAutomaton_sprouts _ _ bounds zeros ref with
      ⟨low, high, sprouts⟩
    exact sprouts.apart.imp fun apart same => absurd same apart.1

theorem mem_betweenAutomaton {word : Word} :
    word ∈ language (betweenAutomaton bounds zeros) ↔
      word.length = x.length ∧ Digits word ∧
        value x ≤ value word ∧ value word ≤ value y :=
  between_accepts bounds.lengths bounds.digitsX bounds.digitsY bounds.order
    (placed_self _)

end Fixed

/-! ### Numbers with any number of digits -/

theorem asked_iff {initials : List Nat} {s t : Nat} :
    EpsilonClosure.Asked (initialPairs initials) s t ↔
      s = 0 ∧ t ∈ initials ∧ t ≠ 0 := by
  simp only [EpsilonClosure.Asked, initialPairs, List.mem_map, List.mem_filter,
    Prod.mk.injEq, decide_eq_true_eq]
  constructor
  · rintro ⟨p, member, rfl, rfl⟩
    exact ⟨rfl, member⟩
  · rintro ⟨rfl, member⟩
    exact ⟨t, member, rfl, rfl⟩

/-- The epsilon transitions cannot be followed by others. -/
theorem leads_iff {initials : List Nat} {s t : Nat} :
    Relation.ReflTransGen (EpsilonClosure.Asked (initialPairs initials)) s t ↔
      t = s ∨ s = 0 ∧ t ∈ initials ∧ t ≠ 0 := by
  constructor
  · intro leads
    induction leads with
    | refl => exact Or.inl rfl
    | tail _ asked induction =>
        rcases asked_iff.mp asked with ⟨isInitial, member⟩
        rcases induction with same | ⟨_, _, other⟩
        · exact Or.inr ⟨same.symm.trans isInitial, member⟩
        · exact absurd isInitial other
  · rintro (rfl | asked)
    · exact Relation.ReflTransGen.refl
    · exact Relation.ReflTransGen.single (asked_iff.mpr asked)

section Unfixed

variable {x y : Word} (bounds : Bounds x y)

theorem epsilon_offers {s : Nat} {offer : Option Transition} :
    Offers ((epsilonAutomaton bounds).state s) offer ↔
      ∃ t, (t = s ∨ s = 0 ∧ t ∈ (between 0 x y true).2 ∧ t ≠ 0) ∧
        Offers ((betweenAutomaton bounds true).state t) offer := by
  have inside : ∀ p ∈ initialPairs (between 0 x y true).2,
      p.1 < (betweenAutomaton bounds true).states.length := by
    intro p member
    rw [(asked_iff.mp member).1]
    exact length_between_pos 0 x y true
  rw [epsilonAutomaton, addEpsilons_offers inside]
  simp only [leads_iff]

theorem epsilon_offers_of_ne {s : Nat} (other : s ≠ 0)
    {offer : Option Transition} :
    Offers ((epsilonAutomaton bounds).state s) offer ↔
      Offers ((betweenAutomaton bounds true).state s) offer := by
  rw [epsilon_offers]
  constructor
  · rintro ⟨_, rfl | ⟨isInitial, _⟩, offers⟩
    · exact offers
    · exact absurd isInitial other
  · exact fun offers => ⟨s, Or.inl rfl, offers⟩

/-- The initial state offers what the states behind leading zeros offer. -/
theorem epsilon_offers_zero (nonempty : x ≠ []) {offer : Option Transition} :
    Offers ((epsilonAutomaton bounds).state 0) offer ↔
      ∃ k rest, BehindZeros x k rest ∧
        Offers ((betweenAutomaton bounds true).state k) offer := by
  rw [epsilon_offers]
  simp only [between_initials bounds.lengths, Nat.zero_add]
  constructor
  · rintro ⟨t, rfl | ⟨_, ⟨_, rest, behind, rfl⟩, _⟩, offers⟩
    · exact ⟨0, x, ⟨nonempty, rfl⟩, offers⟩
    · exact ⟨t, rest, behind, offers⟩
  · rintro ⟨k, rest, behind, offers⟩
    rcases Nat.eq_zero_or_pos k with rfl | positive
    · exact ⟨0, Or.inl rfl, offers⟩
    · exact ⟨k, Or.inr ⟨trivial, ⟨k, rest, behind, rfl⟩, positive.ne'⟩,
        offers⟩

theorem unfixed_state_of_ne {s : Nat} (other : s ≠ 0) :
    (unfixedAutomaton bounds).states.state s =
      (epsilonAutomaton bounds).state s :=
  update_state_of_notMem (fun member => other (List.mem_singleton.mp member))

theorem unfixed_state_zero :
    (unfixedAutomaton bounds).states.state 0 =
      addTransition (Transition.single 48 0)
        ((epsilonAutomaton bounds).state 0) := by
  refine update_state_of_mem (fun ref member => ?_) (List.mem_singleton_self _)
  rw [List.mem_singleton.mp member]
  exact (epsilonAutomaton bounds).initial_lt

/-- Behind the initial state the tree is unchanged. -/
theorem unfixed_agree :
    Agree (fun s => s ≠ 0) (betweenAutomaton bounds true).states
      (unfixedAutomaton bounds).states where
  keeps := by
    rintro source _ c _ ⟨t, inState, _, rfl⟩
    exact betweenAutomaton_dest_pos bounds inState
  steps := by
    intro source other c target
    rw [Heap.Step, unfixed_state_of_ne bounds other]
    exact exists_congr fun t => and_congr_left fun _ =>
      @epsilon_offers_of_ne _ _ bounds _ other (some t)
  accept := by
    intro source other
    rw [unfixed_state_of_ne bounds other, Bool.eq_iff_iff]
    exact @epsilon_offers_of_ne _ _ bounds _ other none

theorem unfixed_not_nil (nonempty : x ≠ []) :
    [] ∉ language (unfixedAutomaton bounds) := by
  intro member
  have accepts := Heap.accepts_nil.mp member
  change ((unfixedAutomaton bounds).states.state 0).accept = true at accepts
  rw [unfixed_state_zero] at accepts
  rcases (@epsilon_offers_zero _ _ bounds nonempty none).mp accepts with
    ⟨k, rest, behind, accept⟩
  have short := ((between_accepts_behind behind bounds (placed_self _)).mp
    ((Nat.zero_add k).symm ▸ Heap.accepts_nil.mpr accept)).1
  exact behind.1 (List.length_eq_zero_iff.mp short.symm)

/-- A zero may be skipped; any other number is read by the tree. -/
theorem unfixed_cons_iff (nonempty : x ≠ []) {c : JChar} {word : Word} :
    c :: word ∈ language (unfixedAutomaton bounds) ↔
      c = 48 ∧ word ∈ language (unfixedAutomaton bounds) ∨
        ∃ k rest, BehindZeros x k rest ∧
          (betweenAutomaton bounds true).states.Accepts k (c :: word) := by
  have further : ∀ {ref : Nat} {t : Transition},
      t ∈ ((betweenAutomaton bounds true).state ref).transitions →
        ((unfixedAutomaton bounds).states.Accepts t.dest word ↔
          (betweenAutomaton bounds true).states.Accepts t.dest word) :=
    fun inState => (unfixed_agree bounds).accepts_iff
      (betweenAutomaton_dest_pos bounds inState) word
  refine Heap.accepts_cons.trans ?_
  constructor
  · rintro ⟨_, ⟨t, inState, reads, rfl⟩, accepts⟩
    change t ∈ ((unfixedAutomaton bounds).states.state 0).transitions at inState
    rw [unfixed_state_zero] at inState
    rcases List.mem_insert_iff.mp inState with rfl | inTree
    · exact Or.inl ⟨(Transition.single_reads 48 c 0).mp reads, accepts⟩
    · rcases (@epsilon_offers_zero _ _ bounds nonempty (some t)).mp inTree with
        ⟨k, rest, behind, member⟩
      exact Or.inr ⟨k, rest, behind, Heap.accepts_cons.mpr
        ⟨t.dest, ⟨t, member, reads, rfl⟩, (further member).mp accepts⟩⟩
  · rintro (⟨rfl, accepts⟩ | ⟨k, rest, behind, accepts⟩)
    · refine ⟨0, ⟨Transition.single 48 0, ?_, Transition.reads_min _, rfl⟩, accepts⟩
      change _ ∈ ((unfixedAutomaton bounds).states.state 0).transitions
      rw [unfixed_state_zero]
      exact List.mem_insert_self
    · rcases Heap.accepts_cons.mp accepts with ⟨_, ⟨t, member, reads, rfl⟩, rest'⟩
      refine ⟨t.dest, ⟨t, ?_, reads, rfl⟩, (further member).mpr rest'⟩
      change _ ∈ ((unfixedAutomaton bounds).states.state 0).transitions
      rw [unfixed_state_zero]
      exact List.mem_insert_of_mem ((@epsilon_offers_zero _ _ bounds
        nonempty (some t)).mpr ⟨k, rest, behind, member⟩)

end Unfixed

theorem isDigit_iff {c : JChar} : isDigit c = true ↔ Digit c := by
  rw [isDigit, decide_eq_true_eq, Digit, UInt16.le_iff_toNat_le,
    UInt16.le_iff_toNat_le]
  exact Iff.rfl

theorem mem_numbers {min max digits : Nat} {word : Word} :
    word ∈ numbers min max digits ↔ word ≠ [] ∧ Digits word ∧
      min ≤ value word ∧ value word ≤ max ∧
        (0 < digits → word.length = digits) := by
  change _ ∧ (∀ c ∈ word, isDigit c = true) ∧ _ ↔ _
  simp only [isDigit_iff]
  exact Iff.rfl

/-! ### The language -/

section Language

variable {min max : Nat} (order : min ≤ max)

/-- A number has a place in the tree unless it begins with further zeros. -/
theorem exists_behindZeros {word : Word} (digits : Digits word)
    (nonempty : word ≠ []) (lower : min ≤ value word)
    (short : word.length ≤ (decimal max).length) :
    ∃ k rest, BehindZeros (padded (decimal max).length min) k rest ∧
      rest.length = word.length ∧ value rest = min := by
  have fits := length_decimal_le digits nonempty lower
  have split : List.replicate ((decimal max).length - (decimal min).length)
      (48 : JChar) =
        List.replicate ((decimal max).length - word.length) 48 ++
          List.replicate (word.length - (decimal min).length) 48 := by
    rw [List.replicate_append_replicate]
    congr 1
    omega
  refine ⟨(decimal max).length - word.length,
    List.replicate (word.length - (decimal min).length) 48 ++ decimal min,
    ⟨?_, ?_⟩, ?_, ?_⟩
  · exact List.append_ne_nil_of_right_ne_nil _ (decimal_ne_nil min)
  · rw [padded, split, List.append_assoc]
  · rw [List.length_append, List.length_replicate, Nat.sub_add_cancel fits]
  · rw [value_zeros, value_decimal]

variable {d : Nat} (bounds : Bounds (padded d min) (padded d max))
  (free : d = (decimal max).length)

theorem padded_ne_nil (d k : Nat) : padded d k ≠ [] :=
  List.append_ne_nil_of_right_ne_nil _ (decimal_ne_nil k)

include free in
theorem mem_unfixedAutomaton {word : Word} :
    word ∈ language (unfixedAutomaton bounds) ↔
      word ≠ [] ∧ Digits word ∧ min ≤ value word ∧ value word ≤ max := by
  subst free
  have positive : 0 < (decimal max).length :=
    List.length_pos_iff.mpr (decimal_ne_nil max)
  have nonempty := padded_ne_nil (decimal max).length min
  induction word with
  | nil =>
      exact iff_of_false (unfixed_not_nil bounds nonempty)
        fun both => both.1 rfl
  | cons c word induction =>
      refine (unfixed_cons_iff bounds nonempty).trans ?_
      constructor
      · rintro (⟨rfl, inside⟩ | ⟨k, rest, behind, accepts⟩)
        · rcases induction.mp inside with ⟨_, digits, lower, upper⟩
          refine ⟨List.cons_ne_nil _ _, digits_cons.mpr ⟨⟨le_rfl, by decide⟩,
            digits⟩, ?_, ?_⟩
          · rwa [value_zero_cons]
          · rwa [value_zero_cons]
        · rw [← Nat.zero_add k] at accepts
          rcases (between_accepts_behind behind bounds (placed_self _)).mp accepts
            with ⟨_, digits, lower, upper⟩
          have isMin : value rest = min := by
            rw [← value_padded (decimal max).length min, behind.2, value_zeros]
          exact ⟨List.cons_ne_nil _ _, digits, isMin.symm.trans_le lower,
            upper.trans_eq (value_padded _ _)⟩
      · rintro ⟨_, digits, lower, upper⟩
        rcases Nat.lt_or_ge (decimal max).length (c :: word).length with
          long | short
        · -- a longer number begins with a zero that is read by the loop
          have long' := Nat.le_of_lt_succ long
          have bound : value (c :: word) < 10 ^ (decimal max).length :=
            upper.trans_lt ((value_decimal max).symm.trans_lt
              (value_lt (digits_decimal max)))
          rcases digits_cons.mp digits with ⟨digit, others⟩
          have isZero := eq_zero_of_value_lt digit bound long'
          rw [isZero, value_zero_cons] at lower upper
          exact Or.inl ⟨isZero, induction.mpr
            ⟨List.length_pos_iff.mp (positive.trans_le long'), others, lower,
              upper⟩⟩
        · rcases exists_behindZeros digits (List.cons_ne_nil _ _) lower short with
            ⟨k, rest, behind, length, isMin⟩
          refine Or.inr ⟨k, rest, behind, ?_⟩
          rw [← Nat.zero_add k]
          exact (between_accepts_behind behind bounds (placed_self _)).mpr
            ⟨length.symm, digits, isMin.trans_le lower,
              upper.trans_eq (value_padded _ _).symm⟩

include free order in
theorem live_unfixedAutomaton : Live (unfixedAutomaton bounds) := by
  have nonempty := padded_ne_nil d min
  have alive : ∀ {ref : Nat} {t : Transition},
      t ∈ ((betweenAutomaton bounds true).state ref).transitions →
        ∃ word, (unfixedAutomaton bounds).states.Accepts t.dest word := by
    intro ref t inState
    rcases @betweenAutomaton_sprouts _ _ bounds true ref with ⟨_, _, sprouts⟩
    rcases sprouts.alive t inState with ⟨word, accepts⟩
    exact ⟨word, ((unfixed_agree bounds).accepts_iff
      (betweenAutomaton_dest_pos bounds inState) word).mpr accepts⟩
  intro ref _ t inState
  change t ∈ ((unfixedAutomaton bounds).states.state ref).transitions at inState
  by_cases isInitial : ref = 0
  · rw [isInitial, unfixed_state_zero] at inState
    rcases List.mem_insert_iff.mp inState with rfl | inTree
    · exact ⟨decimal min, (mem_unfixedAutomaton bounds free).mpr
        ⟨decimal_ne_nil min, digits_decimal min, (value_decimal min).ge,
          (value_decimal min).trans_le order⟩⟩
    · rcases (@epsilon_offers_zero _ _ bounds nonempty (some t)).mp inTree
        with ⟨_, _, _, member⟩
      exact alive member
  · rw [unfixed_state_of_ne bounds isInitial] at inState
    exact alive ((@epsilon_offers_of_ne _ _ bounds _ isInitial (some t)).mp inState)

end Language

/-- What `makeInterval` returns accepts the decimal numbers of the interval. -/
theorem tidy_makeInterval {min max digits : Nat} {a : Automaton}
    (returned : makeInterval min max digits = some a) :
    Tidy a ∧ language a = numbers min max digits := by
  rw [makeInterval] at returned
  by_cases refused : min > max ∨ digits > 0 ∧ (decimal max).length > digits
  · rw [dif_pos refused] at returned
    exact absurd returned (Option.some_ne_none a).symm
  · rw [dif_neg refused, treeAutomaton] at returned
    have order : min ≤ max := not_lt.mp fun less => refused (Or.inl less)
    have room := room_treeDigits fun long => refused (Or.inr long)
    split_ifs at returned with _ fixed
    · rcases Option.some.inj returned with rfl
      refine ⟨tidy_betweenAutomaton _, Language.ext fun word => ?_⟩
      have length : (padded (treeDigits max digits) min).length = digits := by
        rw [length_padded ((length_decimal_mono order).trans room), treeDigits,
          if_pos fixed]
      rw [mem_betweenAutomaton, mem_numbers, value_padded, value_padded, length]
      constructor
      · rintro ⟨isLength, further, lower, upper⟩
        exact ⟨List.length_pos_iff.mp (isLength ▸ fixed), further, lower, upper,
          fun _ => isLength⟩
      · rintro ⟨_, further, lower, upper, isLength⟩
        exact ⟨isLength fixed, further, lower, upper⟩
    · rcases Option.some.inj returned with rfl
      have free : treeDigits max digits = (decimal max).length := if_neg fixed
      have live := live_unfixedAutomaton order (bounds_padded order room) free
      refine ⟨.of_unflagged ⟨fun isSet => absurd isSet Bool.false_ne_true, live⟩
        rfl, Language.ext fun word => ?_⟩
      rw [mem_unfixedAutomaton _ free, mem_numbers]
      simp only [fixed, false_imp_iff, and_true]

/-- What keeps `makeInterval` from returning: bounds in the wrong order, too few
digits, or a tree deeper than the index type whose bounds differ in time. -/
theorem makeInterval_eq_none_iff {min max digits : Nat} :
    makeInterval min max digits = none ↔
      min > max ∨ 0 < digits ∧ digits < (decimal max).length ∨
        65536 < treeDigits max digits ∧
          (padded (treeDigits max digits) min).dropLast ≠
            (padded (treeDigits max digits) max).dropLast := by
  rw [makeInterval]
  split_ifs with refused
  · exact iff_of_true rfl (or_assoc.mp (Or.inl refused))
  · have order : min ≤ max := not_lt.mp fun less => refused (Or.inl less)
    have room := room_treeDigits fun long => refused (Or.inr long)
    have length := length_padded ((length_decimal_mono order).trans room)
    have deep : ∀ P : Prop, (min > max ∨ 0 < digits ∧
        digits < (decimal max).length ∨ P) ↔ P := fun P => by
      rw [← or_assoc]
      exact or_iff_right refused
    rw [deep, treeAutomaton, length]
    by_cases fails : 65536 < treeDigits max digits ∧
        (padded (treeDigits max digits) min).dropLast ≠
          (padded (treeDigits max digits) max).dropLast
    · rw [if_pos fails]
      exact iff_of_true rfl fails
    · rw [if_neg fails]
      refine iff_of_false ?_ fails
      by_cases fixed : digits > 0
      · rw [if_pos fixed]
        exact Option.some_ne_none _
      · rw [if_neg fixed]
        exact Option.some_ne_none _

/--
On natural numbers `makeInterval` fails exactly on bad bounds and on trees that
are too deep.  Otherwise it builds a tidy automaton of exactly the decimal
numbers in the interval.
-/
theorem makeInterval_exact (min max digits : Nat) :
    (makeInterval min max digits = none ↔
      min > max ∨ 0 < digits ∧ digits < (decimal max).length ∨
        65536 < treeDigits max digits ∧
          (padded (treeDigits max digits) min).dropLast ≠
            (padded (treeDigits max digits) max).dropLast) ∧
      ∀ a, makeInterval min max digits = some a → Tidy a ∧
        ∀ word, word ∈ a.lang ↔ word ≠ [] ∧ (∀ c ∈ word, isDigit c = true) ∧
          min ≤ Decimal.value word ∧ Decimal.value word ≤ max ∧
            (0 < digits → word.length = digits) := by
  refine ⟨makeInterval_eq_none_iff, fun a returned => ?_⟩
  rcases tidy_makeInterval returned with ⟨tidy, isNumbers⟩
  exact ⟨tidy, fun word => Set.ext_iff.mp isNumbers word⟩

/--
The numbers from 5 to 12.  With any number of digits `7` is one of them, behind
the leading zero of the tree, and so is `012`, by the loop, but not `13`.  With
three digits `007` is one of them, and `7` is not.
-/
theorem makeInterval_exact_five_twelve :
    (∃ a, makeInterval 5 12 0 = some a ∧ Tidy a ∧ [55] ∈ a.lang ∧
      [48, 49, 50] ∈ a.lang ∧ [49, 51] ∉ a.lang) ∧
    ∃ a, makeInterval 5 12 3 = some a ∧ Tidy a ∧ [48, 48, 55] ∈ a.lang ∧
      [55] ∉ a.lang := by
  have digits : ∀ word : Word, word.all isDigit = true →
      ∀ c ∈ word, isDigit c = true := fun _ => List.all_eq_true.mp
  constructor
  · rcases makeInterval_exact 5 12 0 with ⟨fails, returns⟩
    cases returned : makeInterval 5 12 0 with
    | none => exact absurd (fails.mp returned) (by decide)
    | some a =>
        rcases returns a returned with ⟨tidy, isNumber⟩
        refine ⟨a, rfl, tidy, ?_, ?_, fun member => ?_⟩
        · exact (isNumber [55]).mpr ⟨List.cons_ne_nil _ _, digits _ rfl,
            by decide, by decide, by decide⟩
        · exact (isNumber [48, 49, 50]).mpr ⟨List.cons_ne_nil _ _,
            digits _ rfl, by decide, by decide, by decide⟩
        · exact absurd ((isNumber [49, 51]).mp member).2.2.2.1 (by decide)
  · rcases makeInterval_exact 5 12 3 with ⟨fails, returns⟩
    cases returned : makeInterval 5 12 3 with
    | none => exact absurd (fails.mp returned) (by decide)
    | some a =>
        rcases returns a returned with ⟨tidy, isNumber⟩
        refine ⟨a, rfl, tidy, ?_, fun member => ?_⟩
        · exact (isNumber [48, 48, 55]).mpr ⟨List.cons_ne_nil _ _,
            digits _ rfl, by decide, by decide, fun _ => rfl⟩
        · exact absurd (((isNumber [55]).mp member).2.2.2.2 (by decide))
            (by decide)

end SafetyGames.Automata
