import SafetyGames.Transducer.ImageCalls

/-!
# Traces of the image construction

An abstract description of `imageRec`: a trace lists the moves that were made,
each by a call at a position of its list of moves.  A call is named by the
positions of the moves that lead to it.  `Built` says which heap a trace
builds, whatever the order of its moves; the main theorem shows that a call
that returns extends the trace by all of the moves below it.
-/

namespace SafetyGames.Transducer

open SafetyGames.PartialFold

/-- A call of `imageRec`, named by the positions of the moves that lead to it. -/
structure Call where
  address : List Nat
  state : ProductState
deriving DecidableEq

/-- The call that a move makes. -/
def Call.child (call : Call) (index : Nat) (move : Move) : Call where
  address := call.address ++ [index]
  state := move.dest

/-- A move that was made; a move that was cut has no target. -/
structure Event where
  call : Call
  index : Nat
  move : Move
  node : Nat
  target : Option Nat

/-- The call that the event makes unless it is cut. -/
def Event.child (event : Event) : Call :=
  event.call.child event.index event.move

/-- The moves made so far. -/
abbrev Trace := List Event

/-- The first call, `imageRec(ret.initial, a.initial, ta.initial)`. -/
def Call.initial (a : Automaton) (ta : TransducerAutomaton) : Call where
  address := []
  state := (a.initial, ta.initial)

section Built

variable (order : HashOrder) (a : Automaton) (ta : TransducerAutomaton)

/-- The call was made for the built state. -/
def Placed (trace : Trace) (call : Call) (node : Nat) : Prop :=
  (call = Call.initial a ta ∧ node = 0) ∨
    ∃ event ∈ trace, event.child = call ∧ event.target = some node

/-- The heap that the moves of a trace build. -/
inductive Built : Heap → Trace → Prop where
  | start :
      Built (place a ta newAutomaton 0 (Call.initial a ta).state) []
  | cut {heap : Heap} {trace : Trace} {call : Call} {node index : Nat}
      {move : Move}
      (built : Built heap trace)
      (placed : Placed a ta trace call node)
      (position : (moves order a ta call.state)[index]? = some move)
      (entered : enter order heap node move.branch = none) :
      Built heap (trace ++ [⟨call, index, move, node, none⟩])
  | enter {heap next : Heap} {trace : Trace} {call : Call}
      {node index target : Nat} {move : Move}
      (built : Built heap trace)
      (placed : Placed a ta trace call node)
      (position : (moves order a ta call.state)[index]? = some move)
      (entered : enter order heap node move.branch = some (next, target)) :
      Built (place a ta next target move.dest)
        (trace ++ [⟨call, index, move, node, some target⟩])

/-- Every move of the call was made. -/
def AllMade (trace : Trace) (call : Call) (node : Nat) : Prop :=
  ∀ index move, (moves order a ta call.state)[index]? = some move →
    ∃ target, ⟨call, index, move, node, target⟩ ∈ trace

/-- The event is a move that one of the calls of the run makes. -/
def Event.Made (event : Event) : Prop :=
  ∃ frame before, Called order a ta frame ∧ frame.node = event.node ∧
    frame.state = event.call.state ∧ Makes order a ta frame event.move before ∧
      ∀ target, event.target = some target →
        ∃ next, enter order before event.node event.move.branch =
          some (next, target)

end Built

variable {order : HashOrder} {a : Automaton} {ta : TransducerAutomaton}

theorem Placed.mono {trace later : Trace} {call : Call} {node : Nat}
    (placed : Placed a ta trace call node)
    (included : ∀ event ∈ trace, event ∈ later) :
    Placed a ta later call node := by
  rcases placed with initial | ⟨event, member, child, target⟩
  · exact Or.inl initial
  · exact Or.inr ⟨event, included event member, child, target⟩

theorem AllMade.mono {trace later : Trace} {call : Call} {node : Nat}
    (made : AllMade order a ta trace call node)
    (included : ∀ event ∈ trace, event ∈ later) :
    AllMade order a ta later call node := by
  intro index move position
  rcases made index move position with ⟨target, member⟩
  exact ⟨target, included _ member⟩

/-- After one more event a call was placed before, or is the call of the event. -/
theorem placed_append_iff {trace : Trace} {event : Event} {call : Call}
    {node : Nat} :
    Placed a ta (trace ++ [event]) call node ↔
      Placed a ta trace call node ∨
        event.child = call ∧ event.target = some node := by
  simp only [Placed, List.mem_append, List.mem_singleton]
  constructor
  · rintro (initial | ⟨other, member | rfl, spec⟩)
    · exact Or.inl (Or.inl initial)
    · exact Or.inl (Or.inr ⟨other, member, spec⟩)
    · exact Or.inr spec
  · rintro ((initial | ⟨other, member, spec⟩) | spec)
    · exact Or.inl initial
    · exact Or.inr ⟨other, Or.inl member, spec⟩
    · exact Or.inr ⟨event, Or.inr rfl, spec⟩

/-! ## A call that returns makes every move below it -/

section Refinement

/-- What the moves of a call before the position `bound` have done. -/
structure Progress (order : HashOrder) (a : Automaton)
    (ta : TransducerAutomaton) (trace : Trace) (call : Call) (node : Nat)
    (bound : Nat) (heap : Heap) (made : Trace) : Prop where
  built : Built order a ta heap (trace ++ made)
  own : ∀ index < bound, ∀ move,
    (moves order a ta call.state)[index]? = some move →
      ∃ target, ⟨call, index, move, node, target⟩ ∈ made
  deeper : ∀ event ∈ made, ∀ target, event.target = some target →
    AllMade order a ta made event.child target
  calls : ∀ event ∈ made, event.Made order a ta

namespace Progress

variable {trace made : Trace} {call : Call} {node bound : Nat} {heap : Heap}

theorem initially (built : Built order a ta heap trace) :
    Progress order a ta trace call node 0 heap [] where
  built := by rwa [List.append_nil]
  own := fun _ less => absurd less (Nat.not_lt_zero _)
  deeper := fun _ member => absurd member List.not_mem_nil
  calls := fun _ member => absurd member List.not_mem_nil

/-- The next move is cut. -/
theorem cut
    (progress : Progress order a ta trace call node bound heap made)
    (placed : Placed a ta trace call node)
    {move : Move}
    (position : (moves order a ta call.state)[bound]? = some move)
    (entered : enter order heap node move.branch = none)
    (isMade : Event.Made order a ta ⟨call, bound, move, node, none⟩) :
    Progress order a ta trace call node (bound + 1) heap
      (made ++ [⟨call, bound, move, node, none⟩]) where
  built := by
    rw [← List.append_assoc]
    exact Built.cut progress.built
      (placed.mono fun _ => List.mem_append_left _) position entered
  own := by
    intro index less other otherPosition
    rcases Nat.lt_succ_iff_lt_or_eq.mp less with old | rfl
    · rcases progress.own index old other otherPosition with ⟨target, member⟩
      exact ⟨target, List.mem_append_left _ member⟩
    · rw [position, Option.some.injEq] at otherPosition
      subst otherPosition
      exact ⟨none, List.mem_append_right _ (List.mem_singleton_self _)⟩
  deeper := by
    intro event member target spec
    rcases List.mem_append.mp member with old | new
    · exact (progress.deeper event old target spec).mono
        fun _ => List.mem_append_left _
    · rw [List.mem_singleton.mp new] at spec
      exact absurd spec (Option.some_ne_none _).symm
  calls := List.forall_mem_append.mpr
    ⟨progress.calls, List.forall_mem_singleton.mpr isMade⟩

/-- The next move is entered, and the moves below it are made. -/
theorem enter
    (progress : Progress order a ta trace call node bound heap made)
    {move : Move} {target : Nat} {result : Heap} {deeper : Trace}
    {event : Event}
    (position : (moves order a ta call.state)[bound]? = some move)
    (isMove : event = ⟨call, bound, move, node, some target⟩)
    (isMade : event.Made order a ta)
    (inner : Progress order a ta (trace ++ (made ++ [event])) event.child
      target (moves order a ta event.child.state).length result deeper) :
    Progress order a ta trace call node (bound + 1) result
      (made ++ [event] ++ deeper) where
  built := by
    rw [← List.append_assoc]
    exact inner.built
  own := by
    intro index less other otherPosition
    rcases Nat.lt_succ_iff_lt_or_eq.mp less with old | rfl
    · rcases progress.own index old other otherPosition with ⟨found, member⟩
      exact ⟨found, List.mem_append_left _ (List.mem_append_left _ member)⟩
    · rw [position, Option.some.injEq] at otherPosition
      subst otherPosition
      refine ⟨some target, List.mem_append_left _ (List.mem_append_right _ ?_)⟩
      rw [isMove]
      exact List.mem_singleton_self _
  deeper := by
    intro other member found spec
    rcases List.mem_append.mp member with old | new
    · rcases List.mem_append.mp old with older | self
      · exact (progress.deeper other older found spec).mono
          fun _ inMade => List.mem_append_left _ (List.mem_append_left _ inMade)
      · rw [List.mem_singleton.mp self] at spec ⊢
        have same : found = target := by
          rw [isMove] at spec
          exact (Option.some.inj spec).symm
        subst same
        intro index inside insidePosition
        rcases inner.own index
          (List.getElem?_eq_some_iff.mp insidePosition).1 inside insidePosition with
          ⟨last, inDeeper⟩
        exact ⟨last, List.mem_append_right _ inDeeper⟩
    · exact (inner.deeper other new found spec).mono
        fun _ => List.mem_append_right _
  calls := List.forall_mem_append.mpr
    ⟨List.forall_mem_append.mpr
      ⟨progress.calls, List.forall_mem_singleton.mpr isMade⟩, inner.calls⟩

end Progress

/-- A call that returns extends the trace by all of the moves below it. -/
theorem imageRec_progress {fuel : Nat} {heap result : Heap} {trace : Trace}
    {call : Call} {node : Nat}
    (returns : imageRec order a ta fuel heap node call.state.1 call.state.2 =
      some result)
    (built : Built order a ta (place a ta heap node call.state) trace)
    (placed : Placed a ta trace call node)
    (called : Called order a ta ⟨heap, node, call.state⟩) :
    ∃ made, Progress order a ta trace call node
      (moves order a ta call.state).length result made := by
  induction fuel generalizing heap result trace call node with
  | zero => exact absurd returns (by simp [imageRec])
  | succ fuel induction =>
      rw [imageRec_succ] at returns
      refine (foldlM_invariant
        (fun bound current => (∃ made,
          Progress order a ta trace call node bound current made) ∧
          ((moves order a ta call.state).take bound).foldlM
            (makeMove order a ta fuel node)
            (place a ta heap node call.state) = some current)
        ?_ ⟨⟨[], Progress.initially built⟩, rfl⟩ returns).1
      rintro bound move current after position ⟨⟨made, progress⟩, early⟩ step
      have makes : Makes order a ta ⟨heap, node, call.state⟩ move current :=
        ⟨bound, position, fuel, early⟩
      refine ⟨?_, (foldlM_take_succ early position).trans step⟩
      rw [makeMove] at step
      split at step
      · next entered =>
          rcases Option.some.inj step with rfl
          exact ⟨_, progress.cut placed position entered
            ⟨_, current, called, rfl, rfl, makes,
              fun _ isTarget => absurd isTarget (Option.some_ne_none _).symm⟩⟩
      · next next target entered =>
          have placedNow : Placed a ta (trace ++ made) call node :=
            placed.mono fun _ => List.mem_append_left _
          have extended := Built.enter progress.built placedNow position entered
          rw [List.append_assoc] at extended
          have childPlaced : Placed a ta
              (trace ++ (made ++ [⟨call, bound, move, node, some target⟩]))
              (call.child bound move) target :=
            Or.inr ⟨_, List.mem_append_right _
              (List.mem_append_right _ (List.mem_singleton_self _)), rfl, rfl⟩
          have childCalled : Called order a ta
              ⟨next, target, (call.child bound move).state⟩ :=
            called.tail ⟨move, current, makes, entered, rfl⟩
          rcases induction step extended childPlaced childCalled with
            ⟨deeper, inner⟩
          refine ⟨_, progress.enter position rfl
            ⟨_, current, called, rfl, rfl, makes, ?_⟩ inner⟩
          intro other isTarget
          exact ⟨next, Option.some.inj isTarget ▸ entered⟩

/-- The states `image` builds come from a finished trace. -/
theorem imageStates_built {fuel : Nat} {states : Heap}
    (returns : imageStates order a ta fuel = some states) :
    ∃ trace, Built order a ta states trace ∧
      (∀ call node, Placed a ta trace call node →
        AllMade order a ta trace call node) ∧
      ∀ event ∈ trace, event.Made order a ta := by
  have placed : Placed a ta [] (Call.initial a ta) 0 := Or.inl ⟨rfl, rfl⟩
  have first : imageRec order a ta fuel newAutomaton 0
      (Call.initial a ta).state.1 (Call.initial a ta).state.2 = some states :=
    returns
  rcases imageRec_progress first Built.start placed
    Relation.ReflTransGen.refl with ⟨made, progress⟩
  refine ⟨made, progress.built, ?_, progress.calls⟩
  rintro call node (⟨rfl, rfl⟩ | ⟨event, member, rfl, target⟩)
  · intro index move position
    exact progress.own index (List.getElem?_eq_some_iff.mp position).1
      move position
  · exact progress.deeper event member node target

/-- The call that a trace of such events places was made. -/
theorem Placed.exists_called {trace : Trace}
    (calls : ∀ event ∈ trace, event.Made order a ta) {call : Call} {node : Nat}
    (placed : Placed a ta trace call node) :
    ∃ frame, Called order a ta frame ∧ frame.node = node ∧
      frame.state = call.state := by
  rcases placed with ⟨rfl, rfl⟩ | ⟨event, member, rfl, isTarget⟩
  · exact ⟨Frame.initial a ta, Relation.ReflTransGen.refl, rfl, rfl⟩
  · rcases calls event member with
      ⟨frame, before, called, isNode, _, makes, entered⟩
    rcases entered node isTarget with ⟨next, into⟩
    rw [← isNode] at into
    exact ⟨⟨next, node, event.move.dest⟩,
      called.tail ⟨event.move, before, makes, into, rfl⟩, rfl, rfl⟩

end Refinement

end SafetyGames.Transducer
