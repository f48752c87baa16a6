import SafetyGames.Lib.Intervals
import SafetyGames.Transducer.States

/-!
# States and their transitions

The methods of `State` and the orders of `TransitionComparator`.  A transition
is also read as an interval of numbers, whose key is the destination: the
source computes with the end points as `int`.
-/

namespace SafetyGames.Automata

open SafetyGames.Transducer SafetyGames.Intervals SafetyGames.LabelledPath

/-! ## Transitions as intervals -/

/-- `Character.MAX_VALUE`. -/
def maxValue : Nat := 65535

/-- The cast `(char)n`. -/
def toChar (number : Nat) : JChar :=
  UInt16.ofNat number

theorem toNat_le_maxValue (c : JChar) : c.toNat ≤ maxValue :=
  Nat.le_of_lt_succ c.toNat_lt

theorem toNat_toChar {number : Nat} (inside : number ≤ maxValue) :
    (toChar number).toNat = number :=
  UInt16.toNat_ofNat_of_lt' (Nat.lt_succ_of_le inside)

@[simp]
theorem toChar_toNat (c : JChar) : toChar c.toNat = c :=
  UInt16.ofNat_toNat

/-- `new Transition(min, max, to)`: end points in the wrong order are swapped. -/
def newTransition (min max : JChar) (dest : Nat) : Transition :=
  if order : min ≤ max then ⟨min, max, dest, order⟩
  else ⟨max, min, dest, (UInt16.le_total min max).resolve_left order⟩

/-- The numbers a transition reads, with its destination. -/
def interval (transition : Transition) : Segment Nat where
  low := transition.min.toNat
  high := transition.max.toNat
  key := transition.dest

/-- `new Transition((char)low, (char)high, key)`. -/
def ofInterval (numbers : Segment Nat) : Transition :=
  newTransition (toChar numbers.low) (toChar numbers.high) numbers.key

theorem interval_proper (transition : Transition) :
    (interval transition).low ≤ (interval transition).high :=
  UInt16.le_iff_toNat_le.mp transition.min_le_max

@[simp]
theorem interval_has {transition : Transition} {c : JChar} :
    (interval transition).Has c.toNat ↔ transition.Reads c := by
  rw [Segment.Has, interval, Transition.Reads, UInt16.le_iff_toNat_le,
    UInt16.le_iff_toNat_le]

theorem interval_injective : Function.Injective interval := by
  intro left right same
  rcases left with ⟨min, max, dest, order⟩
  rcases right with ⟨min', max', dest', order'⟩
  simp only [interval, Segment.mk.injEq, UInt16.toNat_inj] at same
  rcases same with ⟨rfl, rfl, rfl⟩
  rfl

theorem newTransition_dest (min max : JChar) (dest : Nat) :
    (newTransition min max dest).dest = dest := by
  rw [newTransition]
  split_ifs <;> rfl

theorem newTransition_of_le {min max : JChar} (order : min ≤ max) (dest : Nat) :
    newTransition min max dest = ⟨min, max, dest, order⟩ :=
  dif_pos order

theorem ofInterval_dest (numbers : Segment Nat) :
    (ofInterval numbers).dest = numbers.key :=
  newTransition_dest _ _ _

theorem interval_ofInterval {numbers : Segment Nat}
    (proper : numbers.low ≤ numbers.high) (bounded : numbers.high ≤ maxValue) :
    interval (ofInterval numbers) = numbers := by
  have low := toNat_toChar (proper.trans bounded)
  have high := toNat_toChar bounded
  have order : toChar numbers.low ≤ toChar numbers.high := by
    rw [UInt16.le_iff_toNat_le, low, high]
    exact proper
  rw [ofInterval, newTransition_of_le order, interval, low, high]

theorem ofInterval_reads {numbers : Segment Nat}
    (proper : numbers.low ≤ numbers.high) (bounded : numbers.high ≤ maxValue)
    {c : JChar} : (ofInterval numbers).Reads c ↔ numbers.Has c.toNat := by
  rw [← interval_has, interval_ofInterval proper bounded]

/-- Transitions as intervals cover what some transition reads. -/
theorem covers_map_interval {list : List Transition} {dest : Nat} {c : JChar} :
    Covers (list.map interval) dest c.toNat ↔
      ∃ transition ∈ list, transition.Reads c ∧ transition.dest = dest := by
  simp only [Covers, List.mem_map, exists_exists_and_eq_and, interval_has]
  refine exists_congr fun transition => and_congr_right fun _ => ?_
  exact and_comm

/-! ## Sorted transitions -/

section Sorting

variable (number : Nat → Nat)

/-- `new TransitionComparator(to_first).compare`: by (to, min, reverse max), or
by (min, reverse max, to). -/
def compare (to_first : Bool) : Transition → Transition → Ordering :=
  let byTo := compareOn fun t => number t.dest
  let byInterval := compareLex (compareOn fun t => t.min.toNat)
    fun t1 t2 => Ord.compare t2.max.toNat t1.max.toNat
  if to_first then compareLex byTo byInterval else compareLex byInterval byTo

instance (to_first : Bool) : Std.TransCmp (compare number to_first) := by
  have reversed : Std.TransCmp fun t1 t2 : Transition =>
      Ord.compare t2.max.toNat t1.max.toNat :=
    inferInstanceAs (Std.TransCmp fun t1 t2 : Transition =>
      compareOn (fun t : Transition => t.max.toNat) t2 t1)
  cases to_first with
  | false => exact inferInstanceAs (Std.TransCmp (compareLex (compareLex _ _) _))
  | true => exact inferInstanceAs (Std.TransCmp (compareLex _ (compareLex _ _)))

/-- The first transition does not come after the second one. -/
def NotAfter (to_first : Bool) (t1 t2 : Transition) : Prop :=
  (compare number to_first t1 t2).isLE = true

instance (to_first : Bool) : DecidableRel (NotAfter number to_first) :=
  fun _ _ => inferInstanceAs (Decidable (_ = true))

instance (to_first : Bool) : Std.Total (NotAfter number to_first) where
  total t1 t2 := by
    by_cases order : NotAfter number to_first t1 t2
    · exact Or.inl order
    · exact Or.inr (Std.OrientedCmp.isLE_of_isGE (by
        simpa [NotAfter, Ordering.isGE_iff_ne_lt] using fun less =>
          order (Ordering.isLE_of_eq_lt less)))

instance (to_first : Bool) : IsTrans Transition (NotAfter number to_first) where
  trans _ _ _ := Std.TransCmp.isLE_trans

/-- `getSortedTransitions(to_first)`. -/
def getSortedTransitions (state : State) (to_first : Bool) : List Transition :=
  state.transitions.insertionSort (NotAfter number to_first)

variable {number}

@[simp]
theorem mem_getSortedTransitions {state : State} {to_first : Bool}
    {transition : Transition} :
    transition ∈ getSortedTransitions number state to_first ↔
      transition ∈ state.transitions :=
  List.mem_insertionSort _

theorem NotAfter.min_le {t1 t2 : Transition}
    (order : NotAfter number false t1 t2) : t1.min.toNat ≤ t2.min.toNat := by
  rw [NotAfter, compare, if_neg Bool.false_ne_true] at order
  simp only [compareLex, Ordering.isLE_then_iff_and] at order
  exact Nat.isLE_compare.mp order.1.1

theorem NotAfter.dest_le {t1 t2 : Transition}
    (order : NotAfter number true t1 t2) :
    number t1.dest < number t2.dest ∨
      number t1.dest = number t2.dest ∧ t1.min.toNat ≤ t2.min.toNat := by
  rw [NotAfter, compare, if_pos rfl] at order
  simp only [compareLex, compareOn, Ordering.isLE_then_iff_and,
    Nat.isLE_compare, Nat.compare_eq_lt] at order
  omega

/-- Sorted by the interval, the transitions start later and later. -/
theorem pairwise_low (number : Nat → Nat) (state : State) :
    ((getSortedTransitions number state false).map interval).Pairwise
      fun left right => left.low ≤ right.low := by
  refine List.pairwise_map.mpr ?_
  apply (List.pairwise_insertionSort (NotAfter number false) _).imp
  exact NotAfter.min_le

/-- Sorted by the destination, the transitions of one destination are together. -/
theorem pairwise_before {state : State}
    (distinct : ∀ t1 ∈ state.transitions, ∀ t2 ∈ state.transitions,
      number t1.dest = number t2.dest → t1.dest = t2.dest) :
    ((getSortedTransitions number state true).map interval).Pairwise
      (Before number) := by
  refine List.pairwise_map.mpr ?_
  apply (List.pairwise_insertionSort (NotAfter number true)
    state.transitions).imp_of_mem
  intro t1 t2 first second order
  rcases order.dest_le with less | ⟨same, low⟩
  · exact Or.inl less
  · exact Or.inr ⟨distinct t1 ((List.mem_insertionSort _).mp first)
      t2 ((List.mem_insertionSort _).mp second) same, low⟩

end Sorting

/-! ## Methods of states -/

/-- `state.step(c)`: the destination of the first transition that reads the
character, `none` for null. -/
def step (state : State) (c : JChar) : Option Nat :=
  (state.transitions.find? fun t => t.Reads c).map Transition.dest

/-- `state.step(c, dest)`: the destinations of all transitions that read it. -/
def stepAll (state : State) (c : JChar) : List Nat :=
  (state.transitions.filter fun t => t.Reads c).map Transition.dest

/-- `state.addEpsilon(to)`. -/
def addEpsilon (state next : State) : State where
  accept := next.accept || state.accept
  transitions := next.transitions ∪ state.transitions

theorem mem_stepAll {heap : Heap} {source target : Nat} {c : JChar} :
    target ∈ stepAll (heap.state source) c ↔ heap.Step source c target := by
  simp only [stepAll, List.mem_map, List.mem_filter, decide_eq_true_eq,
    Heap.Step, and_assoc]

theorem step_of_step {heap : Heap} {source target : Nat} {c : JChar}
    (found : step (heap.state source) c = some target) :
    heap.Step source c target := by
  rcases Option.map_eq_some_iff.mp found with ⟨transition, first, dest⟩
  exact ⟨transition, List.mem_of_find?_eq_some first,
    by simpa using List.find?_some first, dest⟩

/-- Without choices `step` finds the only destination. -/
theorem step_eq_some_iff {heap : Heap} {source target : Nat} {c : JChar}
    (unique : ∀ left right, heap.Step source c left →
      heap.Step source c right → left = right) :
    step (heap.state source) c = some target ↔ heap.Step source c target := by
  constructor
  · exact step_of_step
  · intro taken
    cases found : step (heap.state source) c with
    | some other => rw [unique other target (step_of_step found) taken]
    | none =>
        rcases taken with ⟨transition, member, reads, _⟩
        rw [step, Option.map_eq_none_iff, List.find?_eq_none] at found
        exact absurd (decide_eq_true reads) (found transition member)

@[simp]
theorem addEpsilon_accept (state next : State) :
    (addEpsilon state next).accept = (next.accept || state.accept) := rfl

@[simp]
theorem mem_addEpsilon {state next : State} {transition : Transition} :
    transition ∈ (addEpsilon state next).transitions ↔
      transition ∈ next.transitions ∨ transition ∈ state.transitions :=
  List.mem_union_iff

end SafetyGames.Automata
