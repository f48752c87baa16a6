import SafetyGames.Automata.HopcroftRounds
import SafetyGames.Automata.Complement
import Mathlib.Data.List.GetD

/-!
# Hopcroft's minimization

`minimizeHopcroft` numbers the states of the total deterministic automaton,
refines their partition and makes one state for every block.  It fails only on
an automaton of one state whose loops are not written as a single transition.
-/

namespace SafetyGames.Automata

open SafetyGames.Transducer SafetyGames.Teacher SafetyGames.Intervals
open SafetyGames.LabelledPath SafetyGames.PartitionRefinement

/-! ## The numbered states -/

section Table

variable (order : StateOrder) (a : Automaton)

/-- `states[q]`. -/
def stateAt (q : Nat) : Nat :=
  (order.states a).getD q a.initial

variable {order a}

theorem nodup_states : (order.states a).Nodup :=
  (order.states_perm a).nodup_iff.mpr Automaton.nodup_getStates

theorem stateAt_number {ref : Nat} (reachable : a.Reachable ref) :
    stateAt order a (order.number a ref) = ref := by
  have inside := List.idxOf_lt_length_of_mem (order.mem_states.mpr reachable)
  rw [stateAt, StateOrder.number, List.getD_eq_getElem _ _ inside,
    List.getElem_idxOf]

theorem reachable_stateAt (q : Nat) : a.Reachable (stateAt order a q) := by
  rw [stateAt]
  by_cases inside : q < (order.states a).length
  · rw [List.getD_eq_getElem _ _ inside]
    exact order.mem_states.mp (List.getElem_mem inside)
  · rw [List.getD_eq_default _ _ (not_lt.mp inside)]
    exact Automaton.Reachable.initial

theorem number_lt_length {ref : Nat} (reachable : a.Reachable ref) :
    order.number a ref < (order.states a).length :=
  List.idxOf_lt_length_of_mem (order.mem_states.mpr reachable)

/-- The destination of a step of a reachable state is reachable. -/
theorem reachable_step {source target : Nat} {c : JChar}
    (reachable : a.Reachable source)
    (found : step (a.state source) c = some target) : a.Reachable target :=
  reachable.step (step_of_step found)

variable (order a)

/-- The numbered states with the effective alphabet `sigma`.  In a total
automaton `step` is not null. -/
def stateTable : StateTable where
  size := (order.states a).length
  letters := (getStartPoints a).length
  delta := fun q x => order.number a
    ((step (a.state (stateAt order a q))
      (toChar ((getStartPoints a).getD x 0))).getD a.initial)
  accept := fun q => (a.state (stateAt order a q)).accept
  delta_lt := by
    intro q x _ _
    apply number_lt_length
    cases found : step (a.state (stateAt order a q))
        (toChar ((getStartPoints a).getD x 0)) with
    | none => exact Automaton.Reachable.initial
    | some target => exact reachable_step (reachable_stateAt q) found

/-- The character is in the piece of the letter. -/
def InPiece (c : JChar) (x : Nat) : Prop :=
  ∃ piece, (pointPieces a)[x]? = some piece ∧
    piece.1 ≤ c.toNat ∧ c.toNat ≤ piece.2

/-- Every reachable state has exactly one step on every character. -/
structure Complete (a : Automaton) : Prop where
  total : ∀ ref, a.Reachable ref → ∀ c, ∃ target, a.states.Step ref c target
  deterministic : a.states.DeterministicFrom a.initial

variable {a}

theorem getStartPoints_getElem {x : Nat} {piece : Nat × Nat}
    (isPiece : (pointPieces a)[x]? = some piece) :
    (getStartPoints a)[x]? = some piece.1 := by
  rw [← @map_fst_pieces maxValue (getStartPoints a), List.getElem?_map]
  exact congrArg (Option.map Prod.fst) isPiece

theorem InPiece.lt {c : JChar} {x : Nat} (inPiece : InPiece a c x) :
    x < (getStartPoints a).length := by
  rcases inPiece with ⟨piece, isPiece, _⟩
  exact (List.getElem?_eq_some_iff.mp (getStartPoints_getElem isPiece)).1

theorem exists_inPiece (c : JChar) : ∃ x, InPiece a c x := by
  rcases @exists_pointPiece a c with ⟨piece, member, inside⟩
  rcases List.mem_iff_getElem?.mp member with ⟨x, isPiece⟩
  exact ⟨x, piece, isPiece, inside⟩

theorem exists_char {x : Nat} (inside : x < (getStartPoints a).length) :
    ∃ c, InPiece a c x := by
  have length : (pointPieces a).length = (getStartPoints a).length := by
    rw [← @map_fst_pieces maxValue (getStartPoints a), List.length_map]
    rfl
  rw [← length] at inside
  have member := List.getElem_mem inside
  have proper := pointPieces_spec member
  refine ⟨toChar (pointPieces a)[x].1, _, List.getElem?_eq_getElem inside, ?_⟩
  rw [toNat_toChar (proper.1.trans proper.2.1)]
  exact ⟨le_rfl, proper.1⟩

variable {order}

theorem Complete.unique (complete : Complete a) {ref : Nat}
    (reachable : a.Reachable ref) {c : JChar} {left right : Nat}
    (first : a.states.Step ref c left) (second : a.states.Step ref c right) :
    left = right := by
  rcases reachable with ⟨word, path⟩
  exact complete.deterministic word ref path c left right first second

/-- On the characters of a piece the table has the steps of the automaton. -/
theorem Complete.step_iff (complete : Complete a) {q x target : Nat}
    {c : JChar} (inPiece : InPiece a c x) :
    a.states.Step (stateAt order a q) c target ↔
      target = stateAt order a ((stateTable order a).delta q x) := by
  rcases inPiece with ⟨piece, isPiece, lower, upper⟩
  have reachable := @reachable_stateAt order a q
  have member := List.mem_of_getElem? isPiece
  have letter : (getStartPoints a).getD x 0 = piece.1 := by
    rw [List.getD_eq_getElem?_getD, getStartPoints_getElem isPiece,
      Option.getD_some]
  have reads : ∀ other, a.states.Step (stateAt order a q) c other ↔
      a.states.Step (stateAt order a q) (toChar piece.1) other := by
    intro other
    refine exists_congr fun transition => and_congr_right fun inState => ?_
    rw [reads_piece (pointed_of_reachable reachable) inState member lower upper]
  rcases complete.total _ reachable (toChar piece.1) with ⟨next, taken⟩
  have found := (step_eq_some_iff fun left right first second =>
    complete.unique reachable first second).mpr taken
  have isNext : stateAt order a ((stateTable order a).delta q x) = next := by
    rw [stateTable]
    simp only [letter, found, Option.getD_some]
    exact stateAt_number (reachable.step taken)
  rw [isNext, reads]
  constructor
  · exact fun taken' => complete.unique reachable taken' taken
  · rintro rfl
    exact taken

/-- A word of characters, piece by piece, is accepted as its word of letters. -/
theorem Complete.accepts_iff (complete : Complete a) {word : Word}
    {letters : List Nat} (pieces : List.Forall₂ (InPiece a) word letters)
    (q : Nat) :
    a.states.Accepts (stateAt order a q) word ↔
      (stateTable order a).accept
        (letters.foldl (stateTable order a).delta q) = true := by
  induction pieces generalizing q with
  | nil => exact Heap.accepts_nil
  | cons inPiece _ induction =>
      rw [Heap.accepts_cons, List.foldl_cons, ← induction]
      constructor
      · rintro ⟨middle, taken, accepts⟩
        exact (complete.step_iff inPiece).mp taken ▸ accepts
      · intro accepts
        exact ⟨_, (complete.step_iff inPiece).mpr rfl, accepts⟩

/-- The states of the table are equivalent if they accept the same words. -/
theorem Complete.same_iff (complete : Complete a) {p q : Nat} :
    (stateTable order a).Same p q ↔ ∀ word,
      (a.states.Accepts (stateAt order a p) word ↔
        a.states.Accepts (stateAt order a q) word) := by
  constructor
  · intro same word
    have chosen : ∃ letters, List.Forall₂ (InPiece a) word letters := by
      induction word with
      | nil => exact ⟨[], List.Forall₂.nil⟩
      | cons c word induction =>
          rcases @exists_inPiece a c with ⟨x, inPiece⟩
          rcases induction with ⟨letters, pieces⟩
          exact ⟨x :: letters, pieces.cons inPiece⟩
    rcases chosen with ⟨letters, pieces⟩
    rw [complete.accepts_iff pieces, complete.accepts_iff pieces]
    refine same letters fun x member => ?_
    rcases List.forall₂_iff_get.mp pieces with ⟨length, all⟩
    rcases List.getElem_of_mem member with ⟨i, inside, rfl⟩
    exact (all i (length ▸ inside) inside).lt
  · intro same letters inLetters
    have chosen : ∃ word, List.Forall₂ (InPiece a) word letters := by
      induction letters with
      | nil => exact ⟨[], List.Forall₂.nil⟩
      | cons x letters induction =>
          rcases List.forall_mem_cons.mp inLetters with ⟨inside, others⟩
          rcases exists_char inside with ⟨c, inPiece⟩
          rcases induction others with ⟨word, pieces⟩
          exact ⟨c :: word, pieces.cons inPiece⟩
    rcases chosen with ⟨word, pieces⟩
    exact (complete.accepts_iff pieces p).symm.trans
      ((same word).trans (complete.accepts_iff pieces q))

end Table

/-! ## One state for every block -/

section Quotient

variable (order : StateOrder) (a : Automaton) (r : Refinement)

/-- The representative of a block; a new state has the number 0. -/
def representative (n : Nat) : Nat :=
  (r.partition n).getLast?.getD 0

/-- `q.number` after the loop that makes the new states. -/
def blockNumber (q : Nat) : Nat :=
  ((List.range r.k).find? fun n => q ∈ r.partition n).getD q

/-- The transitions of the new state of a block. -/
def quotientTransitions (n : Nat) : List (Segment Nat) :=
  (a.state (stateAt order a (representative r n))).transitions.map fun t =>
    { interval t with key := blockNumber r (order.number a t.dest) }

/-- `newstates`, with the new initial state; a number beyond the array gives
nothing. -/
def quotient : Option Automaton :=
  if bounds : blockNumber r (order.number a a.initial) ∈ List.range r.k ∧
      ∀ n ∈ List.range r.k, ∀ numbers ∈ quotientTransitions order a r n,
        numbers.key ∈ List.range r.k then
    some (Construction.automaton
      { keys := List.range r.k
        start := blockNumber r (order.number a a.initial)
        accept := fun n =>
          (a.state (stateAt order a (representative r n))).accept
        next := quotientTransitions order a r
        start_mem := bounds.1
        next_mem := bounds.2 } a.deterministic)
  else
    none

end Quotient

/-! ## minimizeHopcroft -/

section MinimizeHopcroft

variable (order : StateOrder)

/-- The test of `minimizeHopcroft` in front of `totalize()`. -/
def loopsOnly (a : Automaton) : Bool :=
  match (a.state a.initial).transitions with
  | [t] => t.dest = a.initial && t.min = 0 && t.max = 65535
  | _ => false

/-- `minimizeHopcroft` behind `totalize()`; `partition.get(1)` needs two states. -/
def refineAndBuild (a : Automaton) : Option Automaton :=
  if (stateTable order a).size < 2 then
    none
  else do
    let r ← processPending (stateTable order a)
      ((stateTable order a).letters * (stateTable order a).size)
      (stateTable order a).start
    let b ← quotient order a r
    return removeDeadTransitions order b

/-- `minimizeHopcroft(a)`; `none` if an index is out of bounds. -/
def minimizeHopcroft (a : Automaton) : Option Automaton :=
  let a := determinize order a
  if loopsOnly a then some a else refineAndBuild order (totalize order a)

end MinimizeHopcroft

end SafetyGames.Automata
