import SafetyGames.Lib.PartialFold
import SafetyGames.Transducer.Transducer

/-!
# The image of an automaton under a transducer

`imageRec` walks over the product of an automaton and a transducer and builds
the states of the image as it goes.  The sets it iterates over are hash sets;
their orders are the parameter `HashOrder`.  The recursion has no bound of its
own, so the embedding takes fuel and gives nothing when the fuel is used up.

The two nested loops of a call are then flattened into one list of `Move`s,
one for each recursive call that the source may make.
-/

namespace SafetyGames.Transducer

open SafetyGames.PartialFold

/-! ## Operations on heaps -/

namespace Heap

/-- `ref.setAccept(accept)`. -/
def setAccept (heap : Heap) (ref : Nat) (accept : Bool) : Heap :=
  heap.modify ref fun state => { state with accept := accept }

/-- `ref.addTransition(t)`; the transitions of a state are a set. -/
def addTransition (heap : Heap) (ref : Nat) (transition : Transition) : Heap :=
  heap.modify ref fun state =>
    if transition ∈ state.transitions then state
    else { state with transitions := state.transitions ++ [transition] }

/-- The heap once `new State()` was evaluated; the new reference is `heap.length`. -/
def newState (heap : Heap) : Heap :=
  heap ++ [State.new]

variable {heap : Heap}

@[simp]
theorem length_setAccept {ref : Nat} {accept : Bool} :
    (heap.setAccept ref accept).length = heap.length := by
  simp [setAccept]

@[simp]
theorem length_addTransition {ref : Nat} {transition : Transition} :
    (heap.addTransition ref transition).length = heap.length := by
  simp [addTransition]

@[simp]
theorem length_newState : heap.newState.length = heap.length + 1 := by
  simp [newState]

@[simp]
theorem state_newState (ref : Nat) :
    heap.newState.state ref = heap.state ref := by
  rcases lt_trichotomy ref heap.length with inside | rfl | outside
  · simp [state, newState, List.getElem?_append, inside]
  · simp [state, newState]
  · have long : heap.newState.length ≤ ref := by
      rw [length_newState]
      omega
    rw [state_of_length_le long, state_of_length_le outside.le]

theorem state_modify {change : State → State} {ref other : Nat}
    (inside : ref < heap.length) :
    Heap.state (heap.modify ref change) other =
      if ref = other then change (heap.state ref) else heap.state other := by
  by_cases same : ref = other
  · subst same
    simp [state, inside]
  · simp [state, same]

theorem setAccept_transitions {ref other : Nat} {accept : Bool} :
    ((heap.setAccept ref accept).state other).transitions =
      (heap.state other).transitions := by
  by_cases inside : ref < heap.length
  · rw [setAccept, state_modify inside]
    split_ifs with same
    · rw [same]
    · rfl
  · rw [setAccept, List.modify_eq_self (Nat.le_of_not_lt inside)]

theorem setAccept_accept {ref other : Nat} {accept : Bool}
    (inside : ref < heap.length) :
    ((heap.setAccept ref accept).state other).accept =
      if ref = other then accept else (heap.state other).accept := by
  rw [setAccept, state_modify inside]
  split_ifs <;> rfl

theorem mem_addTransition {ref other : Nat}
    {transition new : Transition} (inside : ref < heap.length) :
    transition ∈ ((heap.addTransition ref new).state other).transitions ↔
      transition ∈ (heap.state other).transitions ∨
        ref = other ∧ transition = new := by
  rw [addTransition, state_modify inside]
  by_cases same : ref = other
  · subst same
    by_cases member : new ∈ (heap.state ref).transitions
    · simp only [if_true, member, true_and]
      constructor
      · exact Or.inl
      · rintro (old | rfl)
        · exact old
        · exact member
    · simp [member]
  · simp [same]

@[simp]
theorem addTransition_accept {ref other : Nat} {transition : Transition} :
    ((heap.addTransition ref transition).state other).accept =
      (heap.state other).accept := by
  by_cases inside : ref < heap.length
  · rw [addTransition, state_modify inside]
    by_cases same : ref = other
    · subst same
      by_cases member : transition ∈ (heap.state ref).transitions <;>
        simp [member]
    · simp [same]
  · rw [addTransition, List.modify_eq_self (Nat.le_of_not_lt inside)]

end Heap

/-! ## The recursion -/

/-- The orders in which the hash sets of a run are iterated. -/
structure HashOrder where
  /-- The transitions of a state of the given automaton. -/
  read : Nat → List Transition → List Transition
  /-- The transitions of a transducer state. -/
  pairs : Nat → List TransducerTransition → List TransducerTransition
  /-- The transitions of a state of the automaton that is built. -/
  built : Nat → List Transition → List Transition
  read_perm : ∀ ref list, (read ref list).Perm list
  pairs_perm : ∀ ref list, (pairs ref list).Perm list
  built_perm : ∀ ref list, (built ref list).Perm list

/-- Every set in the order of its construction. -/
def HashOrder.insertion : HashOrder where
  read := fun _ list => list
  pairs := fun _ list => list
  built := fun _ list => list
  read_perm := fun _ list => List.Perm.refl list
  pairs_perm := fun _ list => List.Perm.refl list
  built_perm := fun _ list => List.Perm.refl list

section Recursion

variable (order : HashOrder) (a : Automaton) (ta : TransducerAutomaton)

/-- `imageRec(current, as, tas)` on the heap of the states built so far. -/
def imageRec : Nat → Heap → Nat → Nat → Nat → Option Heap
  | 0, _, _, _, _ => none
  | fuel + 1, heap, current, as, tas => do
      let heap :=
        if (a.state as).accept && (ta.state tas).accept then
          heap.setAccept current true
        else
          heap
      let heap ← (order.read as (a.state as).transitions).foldlM
        (fun heap ast =>
          (order.pairs tas (ta.state tas).getAlphaTransitions).foldlM
            (fun heap tast =>
              let p := tast.pair
              if ast.min = p.u then
                if p.v = dash then
                  imageRec fuel heap current ast.dest tast.dest
                else if ast.dest = as then
                  let tmp := Transition.single p.v current
                  if tmp ∈ (heap.state current).transitions then
                    some heap
                  else
                    imageRec fuel (heap.addTransition current tmp)
                      current as tast.dest
                else
                  let next := heap.length
                  imageRec fuel
                    (heap.newState.addTransition current
                      (Transition.single p.v next))
                    next ast.dest tast.dest
              else
                some heap)
            heap)
        heap
      (order.pairs tas (ta.state tas).getEpsilonTransitions).foldlM
        (fun heap tast =>
          let p := tast.pair
          let next :=
            (order.built current (heap.state current).transitions).foldl
              (fun next tmp => if tmp.min = p.v then tmp.dest else next)
              heap.length
          imageRec fuel
            (heap.newState.addTransition current (Transition.single p.v next))
            next as tast.dest)
        heap

/-- The heap of `new Automaton()`: one initial reject state. -/
def newAutomaton : Heap :=
  [State.new]

/-- The states that `imageRec(ret.initial, a.initial, ta.initial)` leaves in `ret`. -/
def imageStates (fuel : Nat) : Option Heap :=
  imageRec order a ta fuel newAutomaton 0 a.initial ta.initial

/-- The recursion of `image` ends. -/
def ImageReturns : Prop :=
  ∃ fuel states, imageStates order a ta fuel = some states

end Recursion

/-! ## The moves of a call -/

/-- A state of the automaton and a state of the transducer. -/
abbrev ProductState := Nat × Nat

/-- The branch of `imageRec` that makes a recursive call, with the letter it writes. -/
inductive Branch where
  /-- The output is `'-'`: the built state is kept. -/
  | silent
  /-- The automaton reads a self-loop: the built state gets one too. -/
  | loop (v : JChar)
  /-- Any other letter: the built state gets a new successor. -/
  | emit (v : JChar)
  /-- The input is `'-'`: an existing successor is looked for. -/
  | epsilon (v : JChar)
deriving DecidableEq

/-- The letter written to the built automaton, if any. -/
def Branch.letter : Branch → Option JChar
  | silent => none
  | loop v => some v
  | emit v => some v
  | epsilon v => some v

/-- A recursive call that `imageRec` may make. -/
structure Move where
  branch : Branch
  dest : ProductState
deriving DecidableEq

/-- The move of a transition of the automaton and a matching transition of the transducer. -/
def alphaMove (as : Nat) (ast : Transition) (tast : TransducerTransition) :
    Move :=
  if tast.pair.v = dash then
    ⟨.silent, (ast.dest, tast.dest)⟩
  else if ast.dest = as then
    ⟨.loop tast.pair.v, (as, tast.dest)⟩
  else
    ⟨.emit tast.pair.v, (ast.dest, tast.dest)⟩

/-- The state an epsilon move leads to: the last successor on the letter, or a new one. -/
def epsilonTarget (order : HashOrder) (heap : Heap) (current : Nat)
    (v : JChar) : Nat :=
  (order.built current (heap.state current).transitions).foldl
    (fun next tmp => if tmp.min = v then tmp.dest else next) heap.length

/-- What a branch does before its recursive call: the heap and the built state, or a cut. -/
def enter (order : HashOrder) (heap : Heap) (current : Nat) :
    Branch → Option (Heap × Nat)
  | .silent => some (heap, current)
  | .loop v =>
      if Transition.single v current ∈ (heap.state current).transitions then
        none
      else
        some (heap.addTransition current (.single v current), current)
  | .emit v =>
      some (heap.newState.addTransition current (.single v heap.length),
        heap.length)
  | .epsilon v =>
      some (heap.newState.addTransition current
          (.single v (epsilonTarget order heap current v)),
        epsilonTarget order heap current v)

section Moves

variable (order : HashOrder) (a : Automaton) (ta : TransducerAutomaton)

/-- The moves of the alpha loop for one transition of the automaton. -/
def alphaMoves (state : ProductState) (ast : Transition) : List Move :=
  ((order.pairs state.2 (ta.state state.2).getAlphaTransitions).filter
      fun tast => ast.min = tast.pair.u).map
    (alphaMove state.1 ast)

/-- The moves of the epsilon loop. -/
def epsilonMoves (state : ProductState) : List Move :=
  (order.pairs state.2 (ta.state state.2).getEpsilonTransitions).map
    fun tast => ⟨.epsilon tast.pair.v, (state.1, tast.dest)⟩

/-- The moves of a call, in the order in which the call makes them. -/
def moves (state : ProductState) : List Move :=
  (order.read state.1 (a.state state.1).transitions).flatMap
      (alphaMoves order ta state) ++
    epsilonMoves order ta state

/-- A move of a call on the product state, in any order of the hash sets. -/
def IsMove (state : ProductState) (move : Move) : Prop :=
  (∃ ast ∈ (a.state state.1).transitions,
    ∃ tast ∈ (ta.state state.2).transitions,
      tast.pair.u ≠ dash ∧ ast.min = tast.pair.u ∧
        move = alphaMove state.1 ast tast) ∨
    ∃ tast ∈ (ta.state state.2).transitions,
      tast.pair.u = dash ∧
        move = ⟨.epsilon tast.pair.v, (state.1, tast.dest)⟩

/-- Both components of a product state accept. -/
def Accepting (state : ProductState) : Prop :=
  (a.state state.1).accept = true ∧ (ta.state state.2).accept = true

instance (state : ProductState) : Decidable (Accepting a ta state) :=
  inferInstanceAs (Decidable (_ ∧ _))

/-- The acceptance a call records on its built state. -/
def place (heap : Heap) (current : Nat) (state : ProductState) : Heap :=
  if Accepting a ta state then heap.setAccept current true else heap

/-- One move of a call, with its recursive call. -/
def makeMove (fuel current : Nat) (heap : Heap) (move : Move) : Option Heap :=
  match enter order heap current move.branch with
  | none => some heap
  | some (entered, next) =>
      imageRec order a ta fuel entered next move.dest.1 move.dest.2

end Moves

section Flattening

variable {order : HashOrder} {a : Automaton} {ta : TransducerAutomaton}

theorem foldlM_filter_map {α β γ : Type} (keep : α → Prop) [DecidablePred keep]
    (image : α → β) (step : γ → β → Option γ) (list : List α) (start : γ) :
    list.foldlM
        (fun before value =>
          if keep value then step before (image value) else some before)
        start =
      ((list.filter keep).map image).foldlM step start := by
  induction list generalizing start with
  | nil => rfl
  | cons value list induction =>
      by_cases kept : keep value
      · simp [kept, induction]
      · simp [kept, induction]

theorem foldlM_flatMap {α β γ : Type} (image : α → List β)
    (step : γ → β → Option γ) (list : List α) (start : γ) :
    list.foldlM (fun before value => (image value).foldlM step before) start =
      (list.flatMap image).foldlM step start := by
  induction list generalizing start with
  | nil => rfl
  | cons value list induction =>
      simp [List.flatMap_cons, List.foldlM_append, induction]

/-- The moves of a call do not depend on the orders of the hash sets. -/
theorem mem_moves {state : ProductState} {move : Move} :
    move ∈ moves order a ta state ↔ IsMove a ta state move := by
  simp only [moves, alphaMoves, epsilonMoves, List.mem_append,
    List.mem_flatMap, List.mem_map, List.mem_filter,
    (order.read_perm _ _).mem_iff, (order.pairs_perm _ _).mem_iff,
    TransducerState.getAlphaTransitions,
    TransducerState.getEpsilonTransitions, decide_eq_true_eq]
  constructor
  · rintro (⟨ast, inA, tast, ⟨⟨inT, alpha⟩, reads⟩, rfl⟩ |
      ⟨tast, ⟨inT, epsilon⟩, rfl⟩)
    · exact Or.inl ⟨ast, inA, tast, inT, alpha, reads, rfl⟩
    · exact Or.inr ⟨tast, inT, epsilon, rfl⟩
  · rintro (⟨ast, inA, tast, inT, alpha, reads, rfl⟩ |
      ⟨tast, inT, epsilon, rfl⟩)
    · exact Or.inl ⟨ast, inA, tast, ⟨⟨inT, alpha⟩, reads⟩, rfl⟩
    · exact Or.inr ⟨tast, ⟨inT, epsilon⟩, rfl⟩

/-- A call makes its moves one after the other. -/
theorem imageRec_succ (fuel : Nat) (heap : Heap) (current : Nat)
    (state : ProductState) :
    imageRec order a ta (fuel + 1) heap current state.1 state.2 =
      (moves order a ta state).foldlM
        (makeMove order a ta fuel current)
        (place a ta heap current state) := by
  have alpha : ∀ (ast : Transition) (heap : Heap),
      (order.pairs state.2 (ta.state state.2).getAlphaTransitions).foldlM
          (fun heap tast =>
            let p := tast.pair
            if ast.min = p.u then
              if p.v = dash then
                imageRec order a ta fuel heap current ast.dest tast.dest
              else if ast.dest = state.1 then
                let tmp := Transition.single p.v current
                if tmp ∈ (heap.state current).transitions then
                  some heap
                else
                  imageRec order a ta fuel (heap.addTransition current tmp)
                    current state.1 tast.dest
              else
                let next := heap.length
                imageRec order a ta fuel
                  (heap.newState.addTransition current
                    (Transition.single p.v next))
                  next ast.dest tast.dest
            else
              some heap)
          heap =
        (alphaMoves order ta state ast).foldlM
          (makeMove order a ta fuel current) heap := by
    intro ast heap
    rw [alphaMoves, ← foldlM_filter_map]
    congr 1
    funext heap tast
    simp only [makeMove, alphaMove]
    split_ifs <;> simp_all [enter]
  rw [imageRec, moves, List.foldlM_append, ← foldlM_flatMap]
  simp only [alpha, epsilonMoves, List.foldlM_map, place, Accepting,
    Bool.and_eq_true]
  rfl

theorem makeMove_cut {fuel current : Nat} {heap : Heap} {move : Move}
    (entered : enter order heap current move.branch = none) :
    makeMove order a ta fuel current heap move = some heap := by
  rw [makeMove, entered]

theorem makeMove_enter {fuel current target : Nat} {heap next : Heap}
    {move : Move}
    (entered : enter order heap current move.branch = some (next, target)) :
    makeMove order a ta fuel current heap move =
      imageRec order a ta fuel next target move.dest.1 move.dest.2 := by
  rw [makeMove, entered]

/-- More fuel does not change what a call returns. -/
theorem imageRec_mono {fuel more : Nat} (enough : fuel ≤ more) {heap : Heap}
    {current : Nat} {state : ProductState} {result : Heap}
    (returns : imageRec order a ta fuel heap current state.1 state.2 =
      some result) :
    imageRec order a ta more heap current state.1 state.2 = some result := by
  induction fuel generalizing more heap current state result with
  | zero => exact absurd returns (by simp [imageRec])
  | succ fuel induction =>
      obtain ⟨more, rfl⟩ : ∃ other, more = other + 1 :=
        ⟨more - 1, by omega⟩
      rw [imageRec_succ] at returns ⊢
      refine foldlM_mono ?_ returns
      intro move _ before after made
      rw [makeMove] at made ⊢
      split at made
      · exact made
      · exact induction (Nat.le_of_succ_le_succ enough) made

theorem makeMove_mono {fuel more : Nat} (enough : fuel ≤ more)
    {current : Nat} {heap result : Heap} {move : Move}
    (returns : makeMove order a ta fuel current heap move = some result) :
    makeMove order a ta more current heap move = some result := by
  rw [makeMove] at returns ⊢
  split at returns
  · exact returns
  · exact imageRec_mono enough returns

/-- The states that a call builds do not depend on the fuel. -/
theorem imageStates_unique {fuel fuel' : Nat} {states states' : Heap}
    (builds : imageStates order a ta fuel = some states)
    (builds' : imageStates order a ta fuel' = some states') :
    states = states' := by
  let start : ProductState := (a.initial, ta.initial)
  have more : imageRec order a ta (max fuel fuel') newAutomaton 0
      start.1 start.2 = some states :=
    imageRec_mono (Nat.le_max_left fuel fuel') builds
  have more' : imageRec order a ta (max fuel fuel') newAutomaton 0
      start.1 start.2 = some states' :=
    imageRec_mono (Nat.le_max_right fuel fuel') builds'
  exact Option.some.inj (more.symm.trans more')

end Flattening

end SafetyGames.Transducer
