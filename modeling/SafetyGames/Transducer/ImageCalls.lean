import Mathlib.Logic.Relation
import SafetyGames.Transducer.Image

/-!
# The calls that the image construction makes

Which calls `imageRec` makes, and what they find, is decided step by step: a
call comes to one of its moves when the calls of its earlier moves have
returned, and the move either is cut or begins an inner call.  `Called` are the
calls that the first call leads to in this way.  A property of heaps that every
entered move keeps holds whenever one of these calls comes to a move.
-/

namespace SafetyGames.Transducer

open SafetyGames.PartialFold

/-- A call of `imageRec` as it begins: the states built so far, the built state
`current`, and the states `as` and `tas`. -/
structure Frame where
  heap : Heap
  node : Nat
  state : ProductState

section Calls

variable (order : HashOrder) (a : Automaton) (ta : TransducerAutomaton)

/-- The first call, `imageRec(ret.initial, a.initial, ta.initial)`. -/
def Frame.initial : Frame where
  heap := newAutomaton
  node := 0
  state := (a.initial, ta.initial)

/-- The call comes to the move with the index: the calls of the moves before
have returned and left the heap `before`. -/
def Comes (frame : Frame) (index : Nat) (before : Heap) : Prop :=
  ∃ fuel, ((moves order a ta frame.state).take index).foldlM
    (makeMove order a ta fuel frame.node)
    (place a ta frame.heap frame.node frame.state) = some before

/-- The call makes the move, on the heap `before`. -/
def Makes (frame : Frame) (move : Move) (before : Heap) : Prop :=
  ∃ index, (moves order a ta frame.state)[index]? = some move ∧
    Comes order a ta frame index before

/-- A move of the call that is not cut begins the inner call. -/
def Enters (frame inner : Frame) : Prop :=
  ∃ move before, Makes order a ta frame move before ∧
    enter order before frame.node move.branch =
      some (inner.heap, inner.node) ∧
    inner.state = move.dest

/-- The calls that are made. -/
def Called (frame : Frame) : Prop :=
  Relation.ReflTransGen (Enters order a ta) (Frame.initial a ta) frame

end Calls

/-! ## Heaps grow -/

/-- The heap has grown: its states are there with their transitions. -/
structure Extends (heap later : Heap) : Prop where
  length_le : heap.length ≤ later.length
  transitions : ∀ ref transition,
    transition ∈ (heap.state ref).transitions →
      transition ∈ (later.state ref).transitions

theorem Extends.refl (heap : Heap) : Extends heap heap where
  length_le := le_rfl
  transitions := fun _ _ member => member

theorem Extends.trans {heap middle later : Heap} (first : Extends heap middle)
    (second : Extends middle later) : Extends heap later where
  length_le := first.length_le.trans second.length_le
  transitions := fun ref transition member =>
    second.transitions ref transition (first.transitions ref transition member)

theorem extends_newState (heap : Heap) : Extends heap heap.newState where
  length_le := by
    rw [Heap.length_newState]
    exact Nat.le_succ _
  transitions := by
    intro ref transition member
    rwa [Heap.state_newState]

theorem extends_addTransition (heap : Heap) (ref : Nat)
    (transition : Transition) :
    Extends heap (heap.addTransition ref transition) where
  length_le := by rw [Heap.length_addTransition]
  transitions := by
    intro other known member
    by_cases inside : ref < heap.length
    · exact (Heap.mem_addTransition inside).mpr (Or.inl member)
    · rw [Heap.addTransition, List.modify_eq_self (Nat.le_of_not_lt inside)]
      exact member

section Grows

variable {order : HashOrder} {a : Automaton} {ta : TransducerAutomaton}

@[simp]
theorem length_place (heap : Heap) (node : Nat) (state : ProductState) :
    (place a ta heap node state).length = heap.length := by
  rw [place]
  split_ifs <;> simp

@[simp]
theorem place_transitions (heap : Heap) (node ref : Nat)
    (state : ProductState) :
    ((place a ta heap node state).state ref).transitions =
      (heap.state ref).transitions := by
  rw [place]
  split_ifs
  · exact Heap.setAccept_transitions
  · rfl

theorem extends_place (heap : Heap) (node : Nat) (state : ProductState) :
    Extends heap (place a ta heap node state) where
  length_le := by rw [length_place]
  transitions := by simp

theorem extends_enter {heap next : Heap} {node target : Nat} {branch : Branch}
    (entered : enter order heap node branch = some (next, target)) :
    Extends heap next := by
  cases branch with
  | silent =>
      rcases Prod.mk.inj (Option.some.inj entered) with ⟨rfl, rfl⟩
      exact Extends.refl heap
  | loop v =>
      rw [enter] at entered
      split_ifs at entered with present
      rcases Prod.mk.inj (Option.some.inj entered) with ⟨rfl, rfl⟩
      exact extends_addTransition heap node _
  | emit v =>
      rcases Prod.mk.inj (Option.some.inj entered) with ⟨rfl, rfl⟩
      exact (extends_newState heap).trans (extends_addTransition _ node _)
  | epsilon v =>
      rcases Prod.mk.inj (Option.some.inj entered) with ⟨rfl, rfl⟩
      exact (extends_newState heap).trans (extends_addTransition _ node _)

/-- What a call returns extends what it was given. -/
theorem imageRec_extends {fuel node : Nat} {heap result : Heap}
    {state : ProductState}
    (returns : imageRec order a ta fuel heap node state.1 state.2 =
      some result) : Extends heap result := by
  induction fuel generalizing heap node state result with
  | zero => exact absurd returns (by simp [imageRec])
  | succ fuel induction =>
      rw [imageRec_succ] at returns
      apply (extends_place heap node state).trans
      refine foldlM_rel Extends.refl (fun _ _ _ => Extends.trans) ?_ returns
      intro move _ before after made
      rw [makeMove] at made
      split at made
      · rcases Option.some.inj made with rfl
        exact Extends.refl before
      · next entered => exact (extends_enter entered).trans (induction made)

theorem makeMove_extends {fuel node : Nat} {before after : Heap} {move : Move}
    (made : makeMove order a ta fuel node before move = some after) :
    Extends before after := by
  rw [makeMove] at made
  split at made
  · rcases Option.some.inj made with rfl
    exact Extends.refl before
  · next entered => exact (extends_enter entered).trans (imageRec_extends made)

theorem foldlM_makeMove_extends {fuel node : Nat} {heap result : Heap}
    {list : List Move}
    (returns : list.foldlM (makeMove order a ta fuel node) heap = some result) :
    Extends heap result :=
  foldlM_rel Extends.refl (fun _ _ _ => Extends.trans)
    (fun _ _ _ _ => makeMove_extends) returns

theorem Comes.extends {frame : Frame} {index : Nat} {before : Heap}
    (comes : Comes order a ta frame index before) :
    Extends frame.heap before := by
  rcases comes with ⟨fuel, early⟩
  exact (extends_place _ _ _).trans (foldlM_makeMove_extends early)

end Grows

/-! ## Calls of a run that returns -/

section Returns

variable {order : HashOrder} {a : Automaton} {ta : TransducerAutomaton}

theorem foldlM_makeMove_unique {fuel fuel' node : Nat}
    {heap result result' : Heap} {list : List Move}
    (returns : list.foldlM (makeMove order a ta fuel node) heap = some result)
    (returns' : list.foldlM (makeMove order a ta fuel' node) heap =
      some result') : result = result' := by
  have more : list.foldlM (makeMove order a ta (max fuel fuel') node) heap =
      some result :=
    foldlM_mono (fun _ _ _ _ => makeMove_mono (Nat.le_max_left fuel fuel'))
      returns
  have more' : list.foldlM (makeMove order a ta (max fuel fuel') node) heap =
      some result' :=
    foldlM_mono (fun _ _ _ _ => makeMove_mono (Nat.le_max_right fuel fuel'))
      returns'
  exact Option.some.inj (more.symm.trans more')

/-- A call finds one heap at each of its moves. -/
theorem Comes.unique {frame : Frame} {index : Nat} {before before' : Heap}
    (comes : Comes order a ta frame index before)
    (comes' : Comes order a ta frame index before') : before = before' := by
  rcases comes with ⟨fuel, early⟩
  rcases comes' with ⟨fuel', early'⟩
  exact foldlM_makeMove_unique early early'

/-- The call returns with the fuel. -/
def Frame.Returns (order : HashOrder) (a : Automaton)
    (ta : TransducerAutomaton) (fuel : Nat) (frame : Frame) (result : Heap) :
    Prop :=
  imageRec order a ta fuel frame.heap frame.node frame.state.1 frame.state.2 =
    some result

/-- A call that returns has made each of its moves. -/
theorem Frame.Returns.exists_after {frame : Frame} {fuel : Nat} {result : Heap}
    (returns : frame.Returns order a ta (fuel + 1) result) {move : Move}
    {before : Heap} (makes : Makes order a ta frame move before) :
    ∃ after, makeMove order a ta fuel frame.node before move = some after ∧
      Extends after result := by
  rw [Frame.Returns, imageRec_succ] at returns
  rcases makes with ⟨index, position, comes⟩
  rcases foldlM_split returns position with ⟨other, after, early, made, late⟩
  have same : other = before :=
    Comes.unique ⟨fuel, early⟩ comes
  rcases same with rfl
  exact ⟨after, made, foldlM_makeMove_extends late⟩

/-- The inner calls of a call that returns have returned with less fuel. -/
theorem Frame.Returns.enters {frame inner : Frame} {fuel : Nat} {result : Heap}
    (returns : frame.Returns order a ta fuel result)
    (enters : Enters order a ta frame inner) :
    ∃ less after, fuel = less + 1 ∧ inner.Returns order a ta less after ∧
      Extends after result := by
  cases fuel with
  | zero => exact absurd returns (by simp [Frame.Returns, imageRec])
  | succ fuel =>
      rcases enters with ⟨move, before, makes, entered, isState⟩
      rcases returns.exists_after makes with ⟨after, made, grown⟩
      rw [makeMove_enter entered, ← isState] at made
      exact ⟨fuel, after, rfl, made, grown⟩

/-- Every call of a run that returns has returned. -/
theorem Called.returns {fuel : Nat} {states : Heap}
    (builds : imageStates order a ta fuel = some states) {frame : Frame}
    (called : Called order a ta frame) :
    ∃ less result, frame.Returns order a ta (less + 1) result ∧
      Extends result states := by
  have positive : ∀ {frame fuel result},
      Frame.Returns order a ta fuel frame result →
        Extends result states →
          ∃ less result, frame.Returns order a ta (less + 1) result ∧
            Extends result states := by
    intro frame fuel result returns grown
    cases fuel with
    | zero => exact absurd returns (by simp [Frame.Returns, imageRec])
    | succ fuel => exact ⟨fuel, result, returns, grown⟩
  induction called with
  | refl =>
      have returns : (Frame.initial a ta).Returns order a ta fuel states := builds
      exact positive returns (Extends.refl states)
  | tail _ enters induction =>
      rcases induction with ⟨fuel, result, returns, grown⟩
      rcases returns.enters enters with ⟨_, after, _, inner, within⟩
      exact positive inner (within.trans grown)

end Returns

/-! ## Invariants of a run -/

section Invariant

variable {order : HashOrder} {a : Automaton} {ta : TransducerAutomaton}

/-- A property of heaps that the acceptance of a call and every entered move keep. -/
structure KeptByCalls (order : HashOrder) (a : Automaton)
    (ta : TransducerAutomaton) (property : Heap → Prop) : Prop where
  start : property newAutomaton
  place : ∀ heap node state, property heap →
    property (place a ta heap node state)
  enter : ∀ frame move before next target, Called order a ta frame →
    Makes order a ta frame move before →
      enter order before frame.node move.branch = some (next, target) →
        property before → property next

variable {property : Heap → Prop}

/-- The moves of a call keep the property when its inner calls do. -/
theorem KeptByCalls.foldlM (kept : KeptByCalls order a ta property)
    {fuel index : Nat} {frame : Frame} {before : Heap}
    (inner : ∀ frame result, Called order a ta frame → property frame.heap →
      frame.Returns order a ta fuel result → property result)
    (called : Called order a ta frame) (holds : property frame.heap)
    (early : ((moves order a ta frame.state).take index).foldlM
      (makeMove order a ta fuel frame.node)
      (Transducer.place a ta frame.heap frame.node frame.state) =
        some before) : property before := by
  induction index generalizing before with
  | zero =>
      have same : Transducer.place a ta frame.heap frame.node frame.state =
          before := by simpa using early
      exact same ▸ kept.place _ _ _ holds
  | succ index induction =>
      cases position : (moves order a ta frame.state)[index]? with
      | none =>
          rw [List.take_add_one, position] at early
          exact induction (by simpa using early)
      | some move =>
          rw [List.take_add_one, List.foldlM_append] at early
          rcases Option.bind_eq_some_iff.mp early with ⟨middle, earlier, _⟩
          rw [← List.foldlM_append, ← List.take_add_one,
            foldlM_take_succ earlier position, makeMove] at early
          have found := induction earlier
          split at early
          · exact Option.some.inj early ▸ found
          · next next target entered =>
              have makes : Makes order a ta frame move middle :=
                ⟨index, position, fuel, earlier⟩
              exact inner ⟨next, target, move.dest⟩ before
                (called.tail ⟨move, middle, makes, entered, rfl⟩)
                (kept.enter _ _ _ _ _ called makes entered found) early

/-- A call that returns keeps the property.  The induction is on the fuel,
which the inner calls have less of. -/
theorem KeptByCalls.returns (kept : KeptByCalls order a ta property)
    {fuel : Nat} {frame : Frame} {result : Heap}
    (called : Called order a ta frame) (holds : property frame.heap)
    (returns : frame.Returns order a ta fuel result) : property result := by
  induction fuel generalizing frame result with
  | zero => exact absurd returns (by simp [Frame.Returns, imageRec])
  | succ fuel induction =>
      rw [Frame.Returns, imageRec_succ, ← List.take_length
        (l := moves order a ta frame.state)] at returns
      exact kept.foldlM (fun _ _ => induction) called holds returns

theorem KeptByCalls.comes (kept : KeptByCalls order a ta property)
    {frame : Frame} {index : Nat} {before : Heap}
    (called : Called order a ta frame) (holds : property frame.heap)
    (comes : Comes order a ta frame index before) : property before := by
  rcases comes with ⟨fuel, early⟩
  exact kept.foldlM (fun _ _ => kept.returns) called holds early

/-- Every call begins with the property. -/
theorem KeptByCalls.called (kept : KeptByCalls order a ta property)
    {frame : Frame} (called : Called order a ta frame) :
    property frame.heap := by
  induction called with
  | refl => exact kept.start
  | tail reached enters induction =>
      rcases enters with ⟨move, before, makes, entered, _⟩
      rcases makes with ⟨index, position, comes⟩
      exact kept.enter _ _ _ _ _ reached ⟨index, position, comes⟩ entered
        (kept.comes reached induction comes)

/-- Every move of a call finds the property. -/
theorem KeptByCalls.makes (kept : KeptByCalls order a ta property)
    {frame : Frame} {move : Move} {before : Heap}
    (called : Called order a ta frame)
    (makes : Makes order a ta frame move before) : property before := by
  rcases makes with ⟨index, _, comes⟩
  exact kept.comes called (kept.called called) comes

/-- The states that are built have the property. -/
theorem KeptByCalls.states (kept : KeptByCalls order a ta property)
    {fuel : Nat} {states : Heap}
    (builds : imageStates order a ta fuel = some states) : property states := by
  have called : Called order a ta (Frame.initial a ta) :=
    Relation.ReflTransGen.refl
  exact kept.returns called kept.start builds

end Invariant

end SafetyGames.Transducer
