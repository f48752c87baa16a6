import SafetyGames.Transducer.ImageDeterminism
import Mathlib.Data.Set.Finite.Lattice
import Mathlib.Data.FinEnum
import Mathlib.Order.Interval.Finset.Nat

/-!
# Termination of the image construction

`imageRec` remembers nothing but the transitions of the states it builds.  It
ends when no call is repeated inside itself: made again for the same product
state, while the built state has the same self-loops.  On transducers that read
a letter with every transition it ends only then.
-/

namespace SafetyGames.Transducer

open SafetyGames.LabelledPath SafetyGames.PartialFold

section Conditions

variable (order : HashOrder) (a : Automaton) (ta : TransducerAutomaton)

/-- No cycle of the transducer consists of transitions with a `'-'` component. -/
def NoDashCycle : Prop :=
  ∀ ref pairs, Path ta.states.Step ref pairs ref →
    (∀ pair ∈ pairs, pair.u = dash ∨ pair.v = dash) → pairs = []

/-- Every transition of the transducer reads a letter. -/
def NoDashInput : Prop :=
  ∀ state ∈ ta.states, ∀ transition ∈ state.transitions,
    transition.pair.u ≠ dash

instance : Decidable (NoDashInput ta) :=
  inferInstanceAs (Decidable (∀ state ∈ ta.states,
    ∀ transition ∈ state.transitions, transition.pair.u ≠ dash))

/-- The letters of the self-loops of a built state. -/
def loopLetters (heap : Heap) (node : Nat) : Set JChar :=
  {v | Transition.single v node ∈ (heap.state node).transitions}

/-- No call is repeated inside itself: among the calls that a call leads to,
none is made for the same product state on a built state with the same
self-loops. -/
def NoRepeatedCall : Prop :=
  ∀ frame inner, Called order a ta frame →
    Relation.TransGen (Enters order a ta) frame inner →
      frame.state = inner.state →
        loopLetters frame.heap frame.node ≠ loopLetters inner.heap inner.node

/-- The moves are not loops. -/
def LoopFree (branches : List Branch) : Prop :=
  ∀ branch ∈ branches, ∀ v, branch ≠ .loop v

/-- No cycle without loops can be reached without loops. -/
def NoPlainCycle : Prop :=
  ∀ before state, Path (productStep a ta) (a.initial, ta.initial) before state →
    LoopFree before → ∀ branches, Path (productStep a ta) state branches state →
      LoopFree branches → branches = []

end Conditions

/-! ## Cycles that are not cut -/

section Diverges

variable {order : HashOrder} {a : Automaton} {ta : TransducerAutomaton}

/-- A call that returns needs more fuel than it has moves without loops in a row. -/
theorem imageRec_depth {fuel current : Nat} {heap result : Heap}
    {state target : ProductState} {branches : List Branch}
    (returns : imageRec order a ta fuel heap current state.1 state.2 =
      some result)
    (path : Path (productStep a ta) state branches target)
    (loopFree : LoopFree branches) :
    branches.length < fuel := by
  induction fuel generalizing heap current state result branches with
  | zero => exact absurd returns (by simp [imageRec])
  | succ fuel induction =>
      cases path with
      | nil => exact Nat.succ_pos fuel
      | @cons _ middle _ branch branches head tail =>
          rw [imageRec_succ] at returns
          rcases foldlM_step returns (mem_moves.mpr head) with ⟨before, after, made⟩
          rw [makeMove] at made
          split at made
          · next entered =>
              rcases enter_none entered with ⟨v, isLoop, _⟩
              exact absurd isLoop (loopFree branch List.mem_cons_self v)
          · have shorter := induction made tail
              (fun other member =>
                loopFree other (List.mem_cons_of_mem branch member))
            rw [List.length_cons]
            omega

/-- When the recursion ends, no cycle is reached without loops. -/
theorem ImageReturns.noPlainCycle (returns : ImageReturns order a ta) :
    NoPlainCycle a ta := by
  rcases returns with ⟨fuel, states, done⟩
  intro before state path beforeFree branches cycle cycleFree
  by_contra some
  have walk := path.append (cycle.iterate fuel)
  have walkFree : LoopFree (before ++ (List.replicate fuel branches).flatten) := by
    intro branch member
    rcases List.mem_append.mp member with early | late
    · exact beforeFree branch early
    · rcases List.mem_flatten.mp late with ⟨word, isWord, inWord⟩
      rw [List.eq_of_mem_replicate isWord] at inWord
      exact cycleFree branch inWord
  have long := imageRec_depth (show imageRec order a ta fuel newAutomaton 0
    (a.initial, ta.initial).1 (a.initial, ta.initial).2 = _ from done)
    walk walkFree
  have positive : 1 ≤ branches.length :=
    Nat.one_le_iff_ne_zero.mpr (fun empty => some (List.length_eq_zero_iff.mp empty))
  have many : fuel ≤ fuel * branches.length :=
    Nat.le_mul_of_pos_right fuel positive
  simp only [List.length_append, List.length_flatten, List.map_replicate,
    List.sum_replicate, smul_eq_mul] at long
  omega

end Diverges

/-! ## Runs without repeated calls end -/

section Converges

variable {order : HashOrder} {a : Automaton} {ta : TransducerAutomaton}

theorem productStep_lt {state next : ProductState} {branch : Branch}
    (step : productStep a ta state branch next)
    (inside : state.1 < a.states.length ∧ state.2 < ta.states.length) :
    next.1 < a.states.length ∧ next.2 < ta.states.length := by
  rcases step with ⟨ast, inA, tast, inT, _, _, equal⟩ | ⟨tast, inT, _, equal⟩
  · have right := ta.closed.transition_lt inT
    have left : ast.dest < a.states.length :=
      a.closed _ (Heap.state_mem inside.1) _ inA
    rw [alphaMove] at equal
    split_ifs at equal
    · rcases Move.mk.inj equal with ⟨_, rfl⟩
      exact ⟨left, right⟩
    · rcases Move.mk.inj equal with ⟨_, rfl⟩
      exact ⟨inside.1, right⟩
    · rcases Move.mk.inj equal with ⟨_, rfl⟩
      exact ⟨left, right⟩
  · rcases Move.mk.inj equal with ⟨_, rfl⟩
    exact ⟨inside.1, ta.closed.transition_lt inT⟩

/-- An inner call is made for a product state that a move leads to. -/
theorem Enters.productStep {frame inner : Frame}
    (enters : Enters order a ta frame inner) :
    ∃ branch, productStep a ta frame.state branch inner.state := by
  rcases enters with ⟨move, before, ⟨index, position, _⟩, _, isState⟩
  refine ⟨move.branch, ?_⟩
  rw [isState]
  exact mem_moves.mp (List.mem_of_getElem? position)

theorem Called.state_lt {frame : Frame} (called : Called order a ta frame) :
    frame.state.1 < a.states.length ∧ frame.state.2 < ta.states.length := by
  induction called with
  | refl => exact ⟨a.initial_lt, ta.initial_lt⟩
  | tail _ enters induction =>
      rcases enters.productStep with ⟨branch, step⟩
      exact productStep_lt step induction

/-- Without repeated calls the inner calls end somewhere: there are finitely
many product states and sets of letters. -/
theorem NoRepeatedCall.wellFounded (noRepeat : NoRepeatedCall order a ta) :
    WellFounded fun inner frame :
        {frame // Relation.ReflTransGen (Enters order a ta)
          (Frame.initial a ta) frame} =>
      Enters order a ta frame inner := by
  apply wellFounded_of_fresh_keys
    (fun frame : Frame => (frame.state, loopLetters frame.heap frame.node))
    (((Set.finite_Iio a.states.length).prod
      (Set.finite_Iio ta.states.length)).prod
        (Set.finite_univ : (Set.univ : Set (Set JChar)).Finite))
  · intro frame called
    exact ⟨Called.state_lt called, Set.mem_univ _⟩
  · intro frame inner called nested same
    have parts := Prod.mk.inj same
    exact noRepeat frame inner called nested parts.1 parts.2

/-- A call whose inner calls return comes to each of its moves and returns. -/
theorem exists_returns_of_inner {frame : Frame}
    (inner : ∀ next, Enters order a ta frame next →
      ∃ fuel result, next.Returns order a ta fuel result) :
    ∃ fuel result, frame.Returns order a ta fuel result := by
  have all : ∀ index, ∃ before, Comes order a ta frame index before := by
    intro index
    induction index with
    | zero => exact ⟨_, 0, rfl⟩
    | succ index induction =>
        rcases induction with ⟨before, fuel, early⟩
        cases position : (moves order a ta frame.state)[index]? with
        | none =>
            refine ⟨before, fuel, ?_⟩
            rw [List.take_add_one, position]
            simpa using early
        | some move =>
            have makes : Makes order a ta frame move before :=
              ⟨index, position, fuel, early⟩
            have made : ∃ more after,
                makeMove order a ta more frame.node before move = some after := by
              cases entered : enter order before frame.node move.branch with
              | none => exact ⟨0, before, makeMove_cut entered⟩
              | some into =>
                  rcases into with ⟨next, target⟩
                  rcases inner ⟨next, target, move.dest⟩
                    ⟨move, before, makes, entered, rfl⟩ with
                    ⟨more, after, returns⟩
                  exact ⟨more, after, (makeMove_enter entered).trans returns⟩
            rcases made with ⟨more, after, made⟩
            refine ⟨after, max fuel more, ?_⟩
            have earlier := foldlM_mono (fun _ _ _ _ =>
              makeMove_mono (Nat.le_max_left fuel more)) early
            rw [foldlM_take_succ earlier position]
            exact makeMove_mono (Nat.le_max_right fuel more) made
  rcases all (moves order a ta frame.state).length with ⟨result, fuel, returns⟩
  refine ⟨fuel + 1, result, ?_⟩
  rw [Frame.Returns, imageRec_succ]
  rwa [List.take_length] at returns

/-- Without repeated calls the recursion ends. -/
theorem NoRepeatedCall.imageReturns (noRepeat : NoRepeatedCall order a ta) :
    ImageReturns order a ta := by
  have wellFounded := noRepeat.wellFounded
  have every : ∀ frame : {frame // Relation.ReflTransGen (Enters order a ta)
      (Frame.initial a ta) frame},
        ∃ fuel result, frame.1.Returns order a ta fuel result := by
    intro frame
    induction frame using wellFounded.induction with
    | _ frame induction =>
        apply exists_returns_of_inner
        intro next enters
        exact induction ⟨next, frame.2.tail enters⟩ enters
  exact every ⟨Frame.initial a ta, Relation.ReflTransGen.refl⟩

end Converges

/-! ## Repeated calls without epsilon-input moves -/

section Repeats

variable {order : HashOrder} {a : Automaton} {ta : TransducerAutomaton}

theorem NoDashInput.branch_ne (noDashInput : NoDashInput ta)
    {state : ProductState} {move : Move} (isMove : IsMove a ta state move)
    (v : JChar) : move.branch ≠ .epsilon v := by
  intro branch
  rcases isMove with ⟨ast, _, tast, _, _, _, rfl⟩ | ⟨tast, inT, epsilon, _⟩
  · rw [alphaMove] at branch
    split_ifs at branch
  · by_cases inside : state.2 < ta.states.length
    · exact noDashInput _ (TransducerHeap.state_mem inside) _ inT epsilon
    · rw [TransducerAutomaton.state,
        TransducerHeap.state_of_length_le (Nat.le_of_not_lt inside)] at inT
      exact absurd inT List.not_mem_nil

/-- The later heap differs on the built state and on new states only. -/
structure Apart (node : Nat) (heap later : Heap) : Prop where
  length_le : heap.length ≤ later.length
  same : ∀ ref, ref ≠ node → ref < heap.length →
    (later.state ref).transitions = (heap.state ref).transitions

theorem Apart.refl (node : Nat) (heap : Heap) : Apart node heap heap where
  length_le := le_rfl
  same := fun _ _ _ => rfl

theorem Apart.trans {node : Nat} {heap middle later : Heap}
    (first : Apart node heap middle) (second : Apart node middle later) :
    Apart node heap later where
  length_le := first.length_le.trans second.length_le
  same := fun ref other inside =>
    (second.same ref other (inside.trans_le first.length_le)).trans
      (first.same ref other inside)

/-- Entering a state writes transitions of the state only. -/
theorem Apart.enter {heap next : Heap} {node target : Nat} {branch : Branch}
    (entered : enter order heap node branch = some (next, target)) :
    Apart node heap next where
  length_le := (extends_enter entered).length_le
  same := by
    have added : ∀ (heap : Heap) transition ref, ref ≠ node →
        ((heap.addTransition node transition).state ref).transitions =
          (heap.state ref).transitions := by
      intro heap transition ref other
      by_cases inside : node < heap.length
      · rw [Heap.addTransition, Heap.state_modify inside, if_neg (Ne.symm other)]
      · rw [Heap.addTransition, List.modify_eq_self (Nat.le_of_not_lt inside)]
    intro ref other _
    cases branch with
    | silent =>
        rcases Prod.mk.inj (Option.some.inj entered) with ⟨rfl, rfl⟩
        rfl
    | loop v =>
        rw [Transducer.enter] at entered
        split_ifs at entered
        rcases Prod.mk.inj (Option.some.inj entered) with ⟨rfl, rfl⟩
        exact added _ _ _ other
    | emit v =>
        rcases Prod.mk.inj (Option.some.inj entered) with ⟨rfl, rfl⟩
        rw [added _ _ _ other, Heap.state_newState]
    | epsilon v =>
        rcases Prod.mk.inj (Option.some.inj entered) with ⟨rfl, rfl⟩
        rw [added _ _ _ other, Heap.state_newState]

/-- Without epsilon-input moves a call changes its built state and new states
only. -/
theorem NoDashInput.apart (noDashInput : NoDashInput ta) {fuel node : Nat}
    {heap result : Heap} {state : ProductState} (inside : node < heap.length)
    (returns : imageRec order a ta fuel heap node state.1 state.2 =
      some result) : Apart node heap result := by
  induction fuel generalizing heap node state result with
  | zero => exact absurd returns (by simp [imageRec])
  | succ fuel induction =>
      rw [imageRec_succ] at returns
      have placed : Apart node heap (place a ta heap node state) := by
        constructor
        · rw [length_place]
        · intro ref _ _
          rw [place_transitions]
      have long : node < (place a ta heap node state).length := by
        rwa [length_place]
      suffices related : ∀ move ∈ moves order a ta state, ∀ before after,
          makeMove order a ta fuel node before move = some after →
            node < before.length → Apart node before after by
        have whole : node < (place a ta heap node state).length →
            Apart node (place a ta heap node state) result :=
          foldlM_rel (fun before _ => Apart.refl node before)
            (fun _ _ _ first second ready => (first ready).trans
              (second (ready.trans_le (first ready).length_le)))
            related returns
        exact placed.trans (whole long)
      intro move member before after made ready
      rw [makeMove] at made
      split at made
      · rcases Option.some.inj made with rfl
        exact Apart.refl node before
      · next next target entered =>
          have into := Apart.enter entered
          have spec := enter_some ready entered
          rcases spec.target_spec with ⟨rfl, _⟩ | ⟨rfl, less, _⟩ |
            ⟨v, epsilon, _⟩
          · exact into.trans (induction (ready.trans_le into.length_le) made)
          · have inner := induction less made
            refine ⟨into.length_le.trans inner.length_le, ?_⟩
            intro ref other old
            rw [inner.same ref (Nat.ne_of_lt old)
              (old.trans_le into.length_le), into.same ref other old]
          · exact absurd epsilon
              (noDashInput.branch_ne (mem_moves.mp member) v)

/-- Two heaps with states to build that have the same self-loops. -/
structure SameLoops (node node' : Nat) (heap heap' : Heap) : Prop where
  inside : node < heap.length
  inside' : node' < heap'.length
  same : loopLetters heap node = loopLetters heap' node'

theorem SameLoops.place {node node' : Nat} {heap heap' : Heap}
    (same : SameLoops node node' heap heap') (state : ProductState) :
    SameLoops node node' (place a ta heap node state)
      (place a ta heap' node' state) where
  inside := by
    rw [length_place]
    exact same.inside
  inside' := by
    rw [length_place]
    exact same.inside'
  same := by
    simp only [loopLetters, place_transitions]
    exact same.same

theorem mem_loopLetters {heap : Heap} {node : Nat} {v : JChar} :
    v ∈ loopLetters heap node ↔
      Transition.single v node ∈ (heap.state node).transitions := Iff.rfl

theorem mem_loopLetters_addTransition {heap : Heap} {node target : Nat}
    (inside : node < heap.length) (v w : JChar) :
    w ∈ loopLetters (heap.addTransition node (.single v target)) node ↔
      w ∈ loopLetters heap node ∨ w = v ∧ node = target := by
  rw [mem_loopLetters, mem_loopLetters, Heap.mem_addTransition inside]
  constructor
  · rintro (old | ⟨_, equal⟩)
    · exact Or.inl old
    · exact Or.inr (Transition.single_inj equal)
  · rintro (old | ⟨rfl, rfl⟩)
    · exact Or.inl old
    · exact Or.inr ⟨rfl, rfl⟩

/-- A new state has no self-loops. -/
theorem loopLetters_newState (heap : Heap) {node : Nat} (v : JChar)
    (inside : node < heap.length) :
    loopLetters (heap.newState.addTransition node (.single v heap.length))
      heap.length = ∅ := by
  ext w
  have fresh : node < heap.newState.length := by
    rw [Heap.length_newState]
    omega
  rw [mem_loopLetters, Heap.mem_addTransition fresh, Heap.state_newState,
    Heap.state_of_length_le (le_refl heap.length)]
  constructor
  · rintro (old | ⟨isNode, _⟩)
    · exact absurd old List.not_mem_nil
    · exact absurd isNode (Nat.ne_of_lt inside)
  · intro impossible
    exact absurd impossible (Set.notMem_empty w)

/-- Both built states get the same self-loop. -/
theorem SameLoops.addLoop {node node' : Nat} {heap heap' : Heap}
    (now : SameLoops node node' heap heap') (v : JChar) :
    SameLoops node node' (heap.addTransition node (.single v node))
      (heap'.addTransition node' (.single v node')) where
  inside := by
    rw [Heap.length_addTransition]
    exact now.inside
  inside' := by
    rw [Heap.length_addTransition]
    exact now.inside'
  same := by
    ext w
    rw [mem_loopLetters_addTransition now.inside,
      mem_loopLetters_addTransition now.inside', now.same]
    simp

/-- Both built states get a new successor. -/
theorem SameLoops.fresh {node node' : Nat} {heap heap' : Heap}
    (now : SameLoops node node' heap heap') (v : JChar) :
    SameLoops heap.length heap'.length
      (heap.newState.addTransition node (.single v heap.length))
      (heap'.newState.addTransition node' (.single v heap'.length)) where
  inside := by simp
  inside' := by simp
  same := by
    rw [loopLetters_newState heap v now.inside,
      loopLetters_newState heap' v now.inside']

/-- A call for a new successor leaves the built state as it was entered. -/
theorem NoDashInput.keeps_loops (noDashInput : NoDashInput ta) {fuel ref : Nat}
    {heap result : Heap} {v : JChar} {state : ProductState}
    (inside : ref < heap.length)
    (returns : imageRec order a ta fuel
      (heap.newState.addTransition ref (.single v heap.length)) heap.length
      state.1 state.2 = some result) :
    ref < result.length ∧ loopLetters result ref = loopLetters heap ref := by
  have long : ref < heap.newState.length := by
    rw [Heap.length_newState]
    omega
  have apart := noDashInput.apart (by simp) returns
  have length := apart.length_le
  rw [Heap.length_addTransition] at length
  refine ⟨long.trans_le length, ?_⟩
  have within : ref < (heap.newState.addTransition ref
      (.single v heap.length)).length := by
    rwa [Heap.length_addTransition]
  ext w
  rw [mem_loopLetters, apart.same ref (Nat.ne_of_lt inside) within,
    ← mem_loopLetters, mem_loopLetters_addTransition long, mem_loopLetters,
    mem_loopLetters, Heap.state_newState]
  constructor
  · rintro (old | ⟨_, new⟩)
    · exact old
    · exact absurd new (Nat.ne_of_lt inside)
  · exact Or.inl

/-- Without epsilon-input moves, whether a call returns with the fuel depends on
the product state and on the self-loops of the built state only. -/
theorem NoDashInput.simulation (noDashInput : NoDashInput ta)
    {fuel node node' : Nat} {heap heap' result : Heap} {state : ProductState}
    (same : SameLoops node node' heap heap')
    (returns : imageRec order a ta fuel heap node state.1 state.2 =
      some result) :
    ∃ result', imageRec order a ta fuel heap' node' state.1 state.2 =
        some result' ∧ SameLoops node node' result result' := by
  induction fuel generalizing heap heap' node node' state result with
  | zero => exact absurd returns (by simp [imageRec])
  | succ fuel induction =>
      rw [imageRec_succ] at returns
      rw [imageRec_succ]
      refine foldlM_simulation (SameLoops node node') ?_ (same.place state)
        returns
      rintro ⟨branch, dest⟩ member before after before' now made
      cases branch with
      | silent => exact induction now made
      | loop v =>
          by_cases cut : v ∈ loopLetters before node
          · have cut' : v ∈ loopLetters before' node' := now.same ▸ cut
            have entered : enter order before node (.loop v) = none :=
              if_pos cut
            rw [makeMove_cut entered] at made
            rcases Option.some.inj made with rfl
            exact ⟨before', makeMove_cut (if_pos cut'), now⟩
          · have cut' : v ∉ loopLetters before' node' := now.same ▸ cut
            have entered : enter order before node (.loop v) =
                some (before.addTransition node (.single v node), node) :=
              if_neg cut
            have entered' : enter order before' node' (.loop v) =
                some (before'.addTransition node' (.single v node'), node') :=
              if_neg cut'
            rw [makeMove_enter entered] at made
            rw [makeMove_enter entered']
            exact induction (now.addLoop v) made
      | emit v =>
          have entered : enter order before node (.emit v) =
              some (before.newState.addTransition node (.single v before.length),
                before.length) := rfl
          have entered' : enter order before' node' (.emit v) =
              some (before'.newState.addTransition node'
                (.single v before'.length), before'.length) := rfl
          rw [makeMove_enter entered] at made
          rw [makeMove_enter entered']
          rcases induction (now.fresh v) made with ⟨after', made', _⟩
          rcases noDashInput.keeps_loops now.inside made with ⟨inside, letters⟩
          rcases noDashInput.keeps_loops now.inside' made' with
            ⟨inside', letters'⟩
          exact ⟨after', made', inside, inside',
            letters.trans (now.same.trans letters'.symm)⟩
      | epsilon v =>
          exact absurd rfl (noDashInput.branch_ne (mem_moves.mp member) v)

/-- Every call inside a call that returns has returned with less fuel. -/
theorem Frame.Returns.nested {frame inner : Frame} {fuel : Nat} {result : Heap}
    (returns : frame.Returns order a ta fuel result)
    (nested : Relation.TransGen (Enters order a ta) frame inner) :
    ∃ less after, less < fuel ∧ inner.Returns order a ta less after := by
  induction nested with
  | single enters =>
      rcases returns.enters enters with ⟨less, after, rfl, inside, _⟩
      exact ⟨less, after, Nat.lt_succ_self less, inside⟩
  | tail _ enters induction =>
      rcases induction with ⟨more, middle, bound, outside⟩
      rcases outside.enters enters with ⟨less, after, rfl, inside, _⟩
      exact ⟨less, after, (Nat.lt_succ_self less).trans bound, inside⟩

/-- When the recursion ends, no call is repeated inside itself: the repeated
call would need the least fuel of the call, and has less. -/
theorem ImageReturns.noRepeatedCall (noDashInput : NoDashInput ta)
    (returns : ImageReturns order a ta) : NoRepeatedCall order a ta := by
  classical
  rcases returns with ⟨fuel, states, builds⟩
  intro frame inner called nested same letters
  have some : ∃ fuel result, frame.Returns order a ta fuel result := by
    rcases called.returns builds with ⟨fuel, result, returned, _⟩
    exact ⟨_, result, returned⟩
  rcases Nat.find_spec some with ⟨result, least⟩
  rcases least.nested nested with ⟨less, after, bound, inside⟩
  have innerCalled : Called order a ta inner := called.trans nested.to_reflTransGen
  rw [Frame.Returns, ← same] at inside
  rcases noDashInput.simulation
    ⟨innerCalled.inside, called.inside, letters.symm⟩ inside with
    ⟨again, returned, _⟩
  exact Nat.find_min some bound ⟨again, returned⟩

end Repeats

/-! ## When the recursion ends -/

/--
The recursion of `image` ends when no call is repeated inside itself, and on
transducers that read a letter with every transition only then.  In general it
ends only if the product has no cycle without self-loops.
-/
theorem imageReturns_of_noRepeatedCall (order : HashOrder) (a : Automaton)
    (ta : TransducerAutomaton) :
    (NoRepeatedCall order a ta → ImageReturns order a ta) ∧
      (NoDashInput ta →
        (ImageReturns order a ta ↔ NoRepeatedCall order a ta)) ∧
      (ImageReturns order a ta → NoPlainCycle a ta) := by
  refine ⟨NoRepeatedCall.imageReturns, ?_, ImageReturns.noPlainCycle⟩
  intro noDashInput
  exact ⟨ImageReturns.noRepeatedCall noDashInput, NoRepeatedCall.imageReturns⟩

theorem copyTransducer_noDashCycle {c : JChar} (letter : c ≠ dash) :
    NoDashCycle (copyTransducer c) := by
  intro ref pairs path dashes
  cases path with
  | nil => rfl
  | @cons _ _ _ pair pairs head _ =>
      have isPair : pair = ⟨c, c⟩ := by
        rcases Nat.eq_zero_or_pos ref with rfl | positive
        · exact congrArg TransducerTransition.pair (List.mem_singleton.mp head)
        · rw [TransducerHeap.Step,
            TransducerHeap.state_of_length_le (show 1 ≤ ref from positive)]
            at head
          exact absurd head List.not_mem_nil
      have isDash := dashes pair List.mem_cons_self
      rw [isPair] at isDash
      exact absurd (isDash.elim id id) letter

/-- Back to the built state by an epsilon-input move that reuses its self-loop,
in front of a second `(a, b)` that is cut; behind it the letters `c` and `d`
alternate for ever. -/
def reuseTransducer : TransducerAutomaton where
  states := [⟨false, [⟨⟨97, 98⟩, 1⟩]⟩, ⟨false, [⟨⟨dash, 98⟩, 2⟩]⟩,
    ⟨true, [⟨⟨97, 98⟩, 3⟩]⟩, ⟨false, [⟨⟨97, 99⟩, 4⟩]⟩,
    ⟨false, [⟨⟨dash, 100⟩, 3⟩]⟩]
  initial := 0
  initial_lt := by decide
  closed := by decide

/-- A call with a single move leads to the call of this move. -/
theorem Enters.of_single {order : HashOrder} {a : Automaton}
    {ta : TransducerAutomaton} {frame inner : Frame}
    (enters : Enters order a ta frame inner) (only : Move)
    (single : moves order a ta frame.state = [only]) :
    enter order (place a ta frame.heap frame.node frame.state) frame.node
        only.branch = some (inner.heap, inner.node) ∧
      inner.state = only.dest := by
  rcases enters with ⟨move, before, ⟨index, position, fuel, early⟩, entered,
    isState⟩
  rw [single] at position early
  have first : index = 0 := by
    have inside := (List.getElem?_eq_some_iff.mp position).1
    simpa using inside
  rcases first with rfl
  rcases Option.some.inj position with rfl
  rcases Option.some.inj early with rfl
  exact ⟨entered, isState⟩

/-- Of the calls on `a*` and the transducer, only three are made. -/
theorem reuseTransducer_called {frame : Frame}
    (called : Called .insertion (starAutomaton 97) reuseTransducer frame) :
    frame = ⟨[⟨false, []⟩], 0, (0, 0)⟩ ∨
      frame = ⟨[⟨false, [Transition.single 98 0]⟩], 0, (0, 1)⟩ ∨
        frame = ⟨[⟨false, [Transition.single 98 0]⟩, ⟨false, []⟩], 0, (0, 2)⟩ := by
  induction called with
  | refl => exact Or.inl rfl
  | @tail frame inner _ enters induction =>
      rcases inner with ⟨heap, node, state⟩
      rcases induction with rfl | rfl | rfl
      · rcases enters.of_single ⟨.loop 98, (0, 1)⟩ rfl with
          ⟨entered, rfl⟩
        rcases Prod.mk.inj (Option.some.inj entered) with ⟨rfl, rfl⟩
        exact Or.inr (Or.inl rfl)
      · rcases enters.of_single ⟨.epsilon 98, (0, 2)⟩ rfl with
          ⟨entered, rfl⟩
        rcases Prod.mk.inj (Option.some.inj entered) with ⟨rfl, rfl⟩
        exact Or.inr (Or.inr rfl)
      · rcases enters.of_single ⟨.loop 98, (0, 3)⟩ rfl with
          ⟨entered, _⟩
        exact absurd (entered.symm.trans (show _ = none from rfl))
          (Option.some_ne_none _)

/-- Each of these calls is made for a later state of the transducer. -/
theorem reuseTransducer_state_lt {frame inner : Frame}
    (called : Called .insertion (starAutomaton 97) reuseTransducer frame)
    (enters : Enters .insertion (starAutomaton 97) reuseTransducer frame inner) :
    frame.state.2 < inner.state.2 := by
  rcases reuseTransducer_called called with rfl | rfl | rfl
  · rw [(enters.of_single ⟨.loop 98, (0, 1)⟩ rfl).2]
    exact Nat.lt_succ_self 0
  · rw [(enters.of_single ⟨.epsilon 98, (0, 2)⟩ rfl).2]
    exact Nat.lt_succ_self 1
  · rw [(enters.of_single ⟨.loop 98, (0, 3)⟩ rfl).2]
    exact Nat.lt_succ_self 2

/--
The recursion ends where the self-loop that an epsilon-input move reuses cuts
the way to a cycle of the product.
-/
theorem imageReturns_reuse :
    ImageReturns .insertion (starAutomaton 97) reuseTransducer := by
  apply (imageReturns_of_noRepeatedCall .insertion (starAutomaton 97)
    reuseTransducer).1
  have later : ∀ frame inner,
      Called .insertion (starAutomaton 97) reuseTransducer frame →
        Relation.TransGen
          (Enters .insertion (starAutomaton 97) reuseTransducer) frame inner →
          frame.state.2 < inner.state.2 := by
    intro frame inner called nested
    induction nested with
    | single enters => exact reuseTransducer_state_lt called enters
    | tail before enters induction =>
        have between := called.trans before.to_reflTransGen
        exact induction.trans (reuseTransducer_state_lt between enters)
  intro frame inner called nested same
  have less := later frame inner called nested
  rw [same] at less
  exact absurd less (lt_irrefl _)

/-- Two states that `a` leads back and forth: a cycle without self-loops. -/
def seesawAutomaton : Automaton where
  states := [⟨true, [Transition.single 97 1]⟩,
    ⟨false, [Transition.single 97 0]⟩]
  initial := 0
  deterministic := true
  initial_lt := by decide
  closed := by decide

/--
The identity has no cycle that reads nothing, but on a cycle of two states it
makes the recursion run for ever.
-/
theorem imageRec_never_returns :
    NoDashCycle (copyTransducer 97) ∧
      ¬ ImageReturns .insertion seesawAutomaton (copyTransducer 97) := by
  refine ⟨copyTransducer_noDashCycle (by decide), fun returns => ?_⟩
  have there : productStep seesawAutomaton (copyTransducer 97) (0, 0)
      (.emit 97) (1, 0) :=
    Or.inl ⟨_, List.mem_cons_self, _, List.mem_cons_self, by decide, rfl, rfl⟩
  have back : productStep seesawAutomaton (copyTransducer 97) (1, 0)
      (.emit 97) (0, 0) :=
    Or.inl ⟨_, List.mem_cons_self, _, List.mem_cons_self, by decide, rfl, rfl⟩
  have empty := returns.noPlainCycle [] (0, 0) (Path.nil _)
    (fun _ member => absurd member List.not_mem_nil)
    [.emit 97, .emit 97] (Path.cons there (Path.single back))
    (by simp [LoopFree])
  exact List.cons_ne_nil _ _ empty

end SafetyGames.Transducer
