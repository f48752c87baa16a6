import SafetyGames.Transducer.ImageTrace

/-!
# The shape of a built image

The invariants of the heaps that traces build, independent of the order of the
moves: every transition carries one letter and comes from an event, every
event has left its transition behind, a state accepts exactly when a call
placed on it accepts, and a successor other than the state itself has a unique
predecessor and letter.
-/

namespace SafetyGames.Transducer

theorem forall_mem_snoc {α : Type} {P : α → Prop} {list : List α} {last : α}
    (before : ∀ value ∈ list, P value) (now : P last) :
    ∀ value ∈ list ++ [last], P value :=
  List.forall_mem_append.mpr ⟨before, List.forall_mem_singleton.mpr now⟩

section Entering

variable {order : HashOrder}

/-- The last destination on the letter is kept, or none has the letter. -/
theorem foldl_dest_spec (list : List Transition) (v : JChar) (start : Nat) :
    (list.foldl
          (fun next tmp => if tmp.min = v then tmp.dest else next) start =
        start ∧ ∀ transition ∈ list, transition.min ≠ v) ∨
      ∃ transition ∈ list, transition.min = v ∧
        transition.dest = list.foldl
          (fun next tmp => if tmp.min = v then tmp.dest else next) start := by
  induction list generalizing start with
  | nil => simp
  | cons first list induction =>
      rw [List.foldl_cons]
      rcases induction (if first.min = v then first.dest else start) with
        ⟨equal, none⟩ | ⟨transition, member, spec⟩
      · by_cases reads : first.min = v
        · refine Or.inr ⟨first, List.mem_cons_self, reads, ?_⟩
          rw [equal, if_pos reads]
        · refine Or.inl ⟨by rw [equal, if_neg reads], ?_⟩
          intro transition member
          rcases List.mem_cons.mp member with rfl | later
          · exact reads
          · exact none transition later
      · exact Or.inr ⟨transition, List.mem_cons_of_mem _ member, spec⟩

/-- The state an epsilon move leads to is the destination of one of the
transitions on the letter, if there is one, and is new otherwise. -/
theorem epsilonTarget_spec (order : HashOrder) (heap : Heap) (current : Nat) (v : JChar) :
    (epsilonTarget order heap current v = heap.length ∧
        ∀ transition ∈ (heap.state current).transitions,
          transition.min ≠ v) ∨
      ∃ transition ∈ (heap.state current).transitions,
        transition.min = v ∧
          transition.dest = epsilonTarget order heap current v := by
  have permuted := order.built_perm current (heap.state current).transitions
  rcases foldl_dest_spec (order.built current (heap.state current).transitions)
      v heap.length with ⟨equal, none⟩ | ⟨transition, member, spec⟩
  · exact Or.inl ⟨equal,
      fun transition member => none transition (permuted.mem_iff.mpr member)⟩
  · exact Or.inr ⟨transition, permuted.mem_iff.mp member, spec⟩

/-- What entering a branch does to the heap. -/
structure Entered (heap : Heap) (node : Nat) (branch : Branch) (next : Heap)
    (target : Nat) : Prop where
  length_le : heap.length ≤ next.length
  accept : ∀ ref, (next.state ref).accept = (heap.state ref).accept
  mem_transitions : ∀ ref transition,
    transition ∈ (next.state ref).transitions ↔
      transition ∈ (heap.state ref).transitions ∨
        ref = node ∧ ∃ v, branch.letter = some v ∧
          transition = Transition.single v target
  /-- The target is the node itself, a new state, or a successor on the letter. -/
  target_spec : (target = node ∧ (branch = .silent ∨ ∃ v, branch = .loop v)) ∨
    (target = heap.length ∧ target < next.length ∧
      ((∃ v, branch = .emit v) ∨ ∃ v, branch = .epsilon v ∧
        ∀ transition ∈ (heap.state node).transitions, transition.min ≠ v)) ∨
    ∃ v, branch = .epsilon v ∧
      ∃ transition ∈ (heap.state node).transitions,
        transition.min = v ∧ transition.dest = target

/-- A silent move and a loop stay on their state. -/
theorem Entered.target_eq {heap next : Heap} {node target : Nat}
    {branch : Branch} (entered : Entered heap node branch next target)
    (stays : branch = .silent ∨ ∃ v, branch = .loop v) : target = node := by
  rcases entered.target_spec with ⟨same, _⟩ | ⟨_, _, ⟨w, emits⟩ | ⟨w, epsilon, _⟩⟩ |
    ⟨w, epsilon, _⟩
  · exact same
  · rw [emits] at stays
    simp at stays
  · rw [epsilon] at stays
    simp at stays
  · rw [epsilon] at stays
    simp at stays

theorem enter_some {heap next : Heap} {node target : Nat} {branch : Branch}
    (inside : node < heap.length)
    (entered : enter order heap node branch = some (next, target)) :
    Entered heap node branch next target := by
  have fresh : node < heap.newState.length := by
    rw [Heap.length_newState]
    omega
  cases branch with
  | silent =>
      rcases Prod.mk.inj (Option.some.inj entered) with ⟨rfl, rfl⟩
      exact
        { length_le := le_rfl
          accept := fun _ => rfl
          mem_transitions := by simp [Branch.letter]
          target_spec := Or.inl ⟨rfl, Or.inl rfl⟩ }
  | loop v =>
      rw [enter] at entered
      split_ifs at entered with present
      rcases Prod.mk.inj (Option.some.inj entered) with ⟨rfl, rfl⟩
      refine ⟨by simp, by simp, ?_, Or.inl ⟨rfl, Or.inr ⟨v, rfl⟩⟩⟩
      intro ref transition
      rw [Heap.mem_addTransition inside]
      simp [Branch.letter, eq_comm]
  | emit v =>
      rcases Prod.mk.inj (Option.some.inj entered) with ⟨rfl, rfl⟩
      refine ⟨by simp, by simp, ?_,
        Or.inr (Or.inl ⟨rfl, by simp, Or.inl ⟨v, rfl⟩⟩)⟩
      intro ref transition
      rw [Heap.mem_addTransition fresh, Heap.state_newState]
      simp [Branch.letter, eq_comm]
  | epsilon v =>
      rcases Prod.mk.inj (Option.some.inj entered) with ⟨rfl, rfl⟩
      refine ⟨by simp, by simp, ?_, Or.inr ?_⟩
      · intro ref transition
        rw [Heap.mem_addTransition fresh, Heap.state_newState]
        simp [Branch.letter, eq_comm]
      · rcases epsilonTarget_spec order heap node v with
          ⟨equal, none⟩ | ⟨transition, member, reads, dest⟩
        · exact Or.inl ⟨equal, by simp [equal], Or.inr ⟨v, rfl, none⟩⟩
        · exact Or.inr ⟨v, rfl, transition, member, reads, dest⟩

theorem enter_none {heap : Heap} {node : Nat} {branch : Branch}
    (entered : enter order heap node branch = none) :
    ∃ v, branch = .loop v ∧
      Transition.single v node ∈ (heap.state node).transitions := by
  cases branch with
  | loop v =>
      rw [enter] at entered
      split_ifs at entered with present
      exact ⟨v, rfl, present⟩
  | silent | emit | epsilon => exact absurd entered (by simp [enter])

end Entering

section Place

variable {a : Automaton} {ta : TransducerAutomaton}

theorem place_accept {heap : Heap} {node : Nat} (ref : Nat)
    (state : ProductState) (inside : node < heap.length) :
    ((place a ta heap node state).state ref).accept = true ↔
      (heap.state ref).accept = true ∨ ref = node ∧ Accepting a ta state := by
  rw [place]
  split_ifs with accepting
  · rw [Heap.setAccept_accept inside]
    split_ifs with same
    · simp [same, accepting]
    · simp [Ne.symm same]
  · simp [accepting]

end Place

/-! ## Invariants of built heaps -/

/-- How the heap and the trace that built it belong together. -/
structure Shaped (order : HashOrder) (a : Automaton)
    (ta : TransducerAutomaton) (heap : Heap) (trace : Trace) : Prop where
  placed_lt : ∀ {call node}, Placed a ta trace call node → node < heap.length
  dest_lt : ∀ {node transition},
    transition ∈ (heap.state node).transitions →
      transition.dest < heap.length
  position : ∀ event ∈ trace,
    (moves order a ta event.call.state)[event.index]? = some event.move
  event_placed : ∀ event ∈ trace, Placed a ta trace event.call event.node
  /-- Every transition comes from an event. -/
  origin : ∀ {node transition},
    transition ∈ (heap.state node).transitions →
      ∃ event ∈ trace, event.node = node ∧
        event.target = some transition.dest ∧
        event.move.branch.letter = some transition.min ∧
        transition = Transition.single transition.min transition.dest
  /-- Every event left its transition behind. -/
  written : ∀ event ∈ trace, ∀ target, event.target = some target →
    ∀ v, event.move.branch.letter = some v →
      Transition.single v target ∈ (heap.state event.node).transitions
  silent : ∀ event ∈ trace, event.move.branch = .silent →
    event.target = some event.node
  loop : ∀ event ∈ trace, ∀ v, event.move.branch = .loop v →
    Transition.single v event.node ∈ (heap.state event.node).transitions
  loop_target : ∀ event ∈ trace, ∀ v, event.move.branch = .loop v →
    ∀ target, event.target = some target → target = event.node
  uncut : ∀ event ∈ trace, event.target = none →
    ∃ v, event.move.branch = .loop v
  /-- Only a loop that was not cut leads back to its state. -/
  loop_origin : ∀ {node v},
    Transition.single v node ∈ (heap.state node).transitions →
      ∃ event ∈ trace, event.node = node ∧
        event.target = some node ∧ event.move.branch = .loop v
  accept_iff : ∀ node, (heap.state node).accept = true ↔
    ∃ call, Placed a ta trace call node ∧ Accepting a ta call.state
  /-- The initial state has no predecessor besides itself. -/
  root : ∀ {node v},
    Transition.single v 0 ∈ (heap.state node).transitions → node = 0
  /-- A state has one predecessor and one letter besides itself. -/
  parent : ∀ {left right target v w},
    Transition.single v target ∈ (heap.state left).transitions →
    Transition.single w target ∈ (heap.state right).transitions →
      target ≠ left → target ≠ right → left = right ∧ v = w

namespace Shaped

variable {order : HashOrder} {a : Automaton} {ta : TransducerAutomaton}

theorem no_transition_new {order : HashOrder} {heap : Heap} {trace : Trace}
    (shaped : Shaped order a ta heap trace) {ref : Nat} {v : JChar} :
    Transition.single v heap.length ∉ (heap.state ref).transitions :=
  fun member => absurd (shaped.dest_lt member) (lt_irrefl heap.length)

theorem newAutomaton_state {node : Nat} (positive : 0 < node) :
    newAutomaton.state node = State.new :=
  Heap.state_of_length_le positive

theorem start :
    Shaped order a ta
      (place a ta newAutomaton 0 (Call.initial a ta).state) [] := by
  have empty : ∀ node,
      ((place a ta newAutomaton 0 (Call.initial a ta).state).state
        node).transitions = [] := by
    intro node
    rw [place_transitions]
    rcases Nat.eq_zero_or_pos node with rfl | positive
    · rfl
    · rw [newAutomaton_state positive]
      rfl
  have reject : ∀ node, (newAutomaton.state node).accept = false := by
    intro node
    rcases Nat.eq_zero_or_pos node with rfl | positive
    · rfl
    · rw [newAutomaton_state positive]
      rfl
  exact
    { placed_lt := by
        rintro call node (⟨_, rfl⟩ | ⟨event, member, _⟩)
        · simp [newAutomaton]
        · exact absurd member List.not_mem_nil
      dest_lt := by
        intro node transition member
        simp [empty] at member
      position := by simp
      event_placed := by simp
      origin := by
        intro node transition member
        simp [empty] at member
      written := by simp
      silent := by simp
      loop := by simp
      loop_target := by simp
      uncut := by simp
      loop_origin := by
        intro node v member
        simp [empty] at member
      accept_iff := by
        intro node
        rw [place_accept node _ (by simp [newAutomaton])]
        simp [reject, Placed, and_comm]
      root := by
        intro node v member
        simp [empty] at member
      parent := by
        intro left right target v w member
        simp [empty] at member }

theorem cut {heap : Heap} {trace : Trace} {call : Call} {node index : Nat}
    {move : Move}
    (shaped : Shaped order a ta heap trace)
    (placed : Placed a ta trace call node)
    (position : (moves order a ta call.state)[index]? = some move)
    (entered : enter order heap node move.branch = none) :
    Shaped order a ta heap (trace ++ [⟨call, index, move, node, none⟩]) := by
  rcases enter_none entered with ⟨v, isLoop, present⟩
  have placed_iff : ∀ other ref,
      Placed a ta (trace ++ [⟨call, index, move, node, none⟩]) other ref ↔
        Placed a ta trace other ref := by
    intro other ref
    rw [placed_append_iff]
    simp
  have old : ∀ event ∈ trace,
      event ∈ trace ++ [⟨call, index, move, node, none⟩] :=
    fun _ => List.mem_append_left _
  exact
    { placed_lt := fun otherPlaced =>
        shaped.placed_lt ((placed_iff _ _).mp otherPlaced)
      dest_lt := shaped.dest_lt
      position := forall_mem_snoc shaped.position position
      event_placed := by
        simp only [placed_iff]
        exact forall_mem_snoc shaped.event_placed placed
      origin := by
        intro ref transition member
        rcases shaped.origin member with ⟨event, inTrace, spec⟩
        exact ⟨event, old event inTrace, spec⟩
      written := by
        apply forall_mem_snoc shaped.written
        exact fun _ isTarget => absurd isTarget (Option.some_ne_none _).symm
      silent := by
        apply forall_mem_snoc shaped.silent
        intro isSilent
        exact Branch.noConfusion (isLoop.symm.trans isSilent)
      loop := by
        apply forall_mem_snoc shaped.loop
        intro w eventLoop
        rcases Branch.loop.inj (isLoop.symm.trans eventLoop) with rfl
        exact present
      loop_target := by
        apply forall_mem_snoc shaped.loop_target
        exact fun _ _ _ isTarget => absurd isTarget (Option.some_ne_none _).symm
      uncut := by
        apply forall_mem_snoc shaped.uncut
        exact fun _ => ⟨v, isLoop⟩
      loop_origin := by
        intro ref w member
        rcases shaped.loop_origin member with ⟨event, inTrace, spec⟩
        exact ⟨event, old event inTrace, spec⟩
      accept_iff := by
        intro ref
        simp only [placed_iff]
        exact shaped.accept_iff ref
      root := shaped.root
      parent := shaped.parent }

section Enter

variable {heap next : Heap} {trace : Trace} {call : Call}
  {node index target : Nat} {move : Move}

theorem mem_place_transitions
    (entered : Entered heap node move.branch next target) (ref : Nat)
    (transition : Transition) :
    transition ∈ ((place a ta next target move.dest).state ref).transitions ↔
      transition ∈ (heap.state ref).transitions ∨
        ref = node ∧ ∃ v, move.branch.letter = some v ∧
          transition = Transition.single v target := by
  rw [place_transitions, entered.mem_transitions]

theorem mem_snoc_self {list : Trace} {event : Event} : event ∈ list ++ [event] :=
  List.mem_append_right _ (List.mem_singleton_self _)

theorem target_lt (shaped : Shaped order a ta heap trace)
    (placed : Placed a ta trace call node)
    (entered : Entered heap node move.branch next target) :
    target < next.length := by
  rcases entered.target_spec with ⟨rfl, _⟩ | ⟨_, less, _⟩ |
    ⟨_, _, transition, member, _, rfl⟩
  · exact (shaped.placed_lt placed).trans_le entered.length_le
  · exact less
  · exact (shaped.dest_lt member).trans_le entered.length_le

/-- An epsilon move to a state on the letter repeats a transition. -/
theorem repeats_epsilon (shaped : Shaped order a ta heap trace) {v w : JChar}
    (letter : move.branch.letter = some v) (isEpsilon : move.branch = .epsilon w)
    {transition : Transition}
    (member : transition ∈ (heap.state node).transitions)
    (reads : transition.min = w) (dest : transition.dest = target) :
    Transition.single v target ∈ (heap.state node).transitions := by
  rcases shaped.origin member with ⟨_, _, _, _, _, single⟩
  rw [isEpsilon] at letter
  rcases Option.some.inj letter with rfl
  rw [reads, dest] at single
  exact single ▸ member

/-- A new transition to a state other than its node leads to a new state, or
repeats a transition. -/
theorem known (shaped : Shaped order a ta heap trace)
    (entered : Entered heap node move.branch next target) {ref other : Nat}
    {v : JChar}
    (member : Transition.single v other ∈
      ((place a ta next target move.dest).state ref).transitions)
    (different : other ≠ ref) :
    Transition.single v other ∈ (heap.state ref).transitions ∨
      ref = node ∧ move.branch.letter = some v ∧
        other = target ∧ other = heap.length := by
  rcases (mem_place_transitions entered ref _).mp member with
    before | ⟨rfl, w, letter, equal⟩
  · exact Or.inl before
  · rcases Transition.single_inj equal with ⟨rfl, rfl⟩
    rcases entered.target_spec with ⟨same, _⟩ | ⟨new, _⟩ |
      ⟨w, branch, transition, inHeap, reads, dest⟩
    · exact absurd same different
    · exact Or.inr ⟨rfl, letter, rfl, new⟩
    · exact Or.inl (shaped.repeats_epsilon letter branch inHeap reads dest)

theorem enter_origin (shaped : Shaped order a ta heap trace)
    (entered : Entered heap node move.branch next target) {ref : Nat}
    {transition : Transition}
    (member : transition ∈
      ((place a ta next target move.dest).state ref).transitions) :
    ∃ event ∈ trace ++ [⟨call, index, move, node, some target⟩],
      event.node = ref ∧ event.target = some transition.dest ∧
        event.move.branch.letter = some transition.min ∧
        transition = Transition.single transition.min transition.dest := by
  rcases (mem_place_transitions entered ref transition).mp member with
    before | ⟨rfl, v, letter, rfl⟩
  · rcases shaped.origin before with ⟨event, inTrace, spec⟩
    exact ⟨event, List.mem_append_left _ inTrace, spec⟩
  · exact ⟨_, mem_snoc_self, rfl, rfl, letter, rfl⟩

theorem enter_loop_origin (shaped : Shaped order a ta heap trace)
    (placed : Placed a ta trace call node)
    (entered : Entered heap node move.branch next target) {ref : Nat}
    {v : JChar}
    (member : Transition.single v ref ∈
      ((place a ta next target move.dest).state ref).transitions) :
    ∃ event ∈ trace ++ [⟨call, index, move, node, some target⟩],
      event.node = ref ∧ event.target = some ref ∧
        event.move.branch = .loop v := by
  have old : ∀ {ref : Nat} {v : JChar},
      Transition.single v ref ∈ (heap.state ref).transitions →
        ∃ event ∈ trace ++ [⟨call, index, move, node, some target⟩],
          event.node = ref ∧ event.target = some ref ∧
            event.move.branch = .loop v := by
    intro ref v before
    rcases shaped.loop_origin before with ⟨event, inTrace, spec⟩
    exact ⟨event, List.mem_append_left _ inTrace, spec⟩
  rcases (mem_place_transitions entered ref _).mp member with
    before | ⟨rfl, w, letter, equal⟩
  · exact old before
  · rcases Transition.single_inj equal with ⟨rfl, rfl⟩
    rcases entered.target_spec with ⟨_, branch | ⟨w, branch⟩⟩ | ⟨new, _⟩ |
      ⟨w, branch, transition, inHeap, reads, dest⟩
    · rw [branch] at letter
      exact absurd letter (Option.some_ne_none _).symm
    · rw [branch] at letter
      rcases Option.some.inj letter with rfl
      exact ⟨_, mem_snoc_self, rfl, rfl, branch⟩
    · exact absurd (new ▸ shaped.placed_lt placed) (lt_irrefl heap.length)
    · exact old (shaped.repeats_epsilon letter branch inHeap reads dest)

theorem enter_accept_iff (shaped : Shaped order a ta heap trace)
    (placed : Placed a ta trace call node)
    (entered : Entered heap node move.branch next target) (ref : Nat) :
    ((place a ta next target move.dest).state ref).accept = true ↔
      ∃ other, Placed a ta
        (trace ++ [⟨call, index, move, node, some target⟩]) other ref ∧
          Accepting a ta other.state := by
  rw [place_accept ref _ (shaped.target_lt placed entered), entered.accept,
    shaped.accept_iff]
  simp only [placed_append_iff]
  constructor
  · rintro (⟨other, before, accepting⟩ | ⟨rfl, accepting⟩)
    · exact ⟨other, Or.inl before, accepting⟩
    · exact ⟨_, Or.inr ⟨rfl, rfl⟩, accepting⟩
  · rintro ⟨other, before | ⟨rfl, isTarget⟩, accepting⟩
    · exact Or.inl ⟨other, before, accepting⟩
    · exact Or.inr ⟨(Option.some.inj isTarget).symm, accepting⟩

theorem enter_parent (shaped : Shaped order a ta heap trace)
    (entered : Entered heap node move.branch next target)
    {left right other : Nat} {v w : JChar}
    (inLeft : Transition.single v other ∈
      ((place a ta next target move.dest).state left).transitions)
    (inRight : Transition.single w other ∈
      ((place a ta next target move.dest).state right).transitions)
    (notLeft : other ≠ left) (notRight : other ≠ right) :
    left = right ∧ v = w := by
  rcases shaped.known entered inLeft notLeft with
    before | ⟨rfl, letter, rfl, new⟩
  · rcases shaped.known entered inRight notRight with after | ⟨rfl, _, rfl, new⟩
    · exact shaped.parent before after notLeft notRight
    · exact absurd (new ▸ before) shaped.no_transition_new
  · rcases shaped.known entered inRight notRight with
      after | ⟨rfl, sameLetter, _, _⟩
    · exact absurd (new ▸ after) shaped.no_transition_new
    · exact ⟨rfl, Option.some.inj (letter.symm.trans sameLetter)⟩

theorem enter (shaped : Shaped order a ta heap trace)
    (placed : Placed a ta trace call node)
    (position : (moves order a ta call.state)[index]? = some move)
    (entered : Entered heap node move.branch next target) :
    Shaped order a ta (place a ta next target move.dest)
      (trace ++ [⟨call, index, move, node, some target⟩]) where
  placed_lt := by
    intro other ref otherPlaced
    rw [length_place]
    rcases placed_append_iff.mp otherPlaced with before | ⟨_, isTarget⟩
    · exact (shaped.placed_lt before).trans_le entered.length_le
    · exact Option.some.inj isTarget ▸ shaped.target_lt placed entered
  dest_lt := by
    intro ref transition member
    rw [length_place]
    rcases (mem_place_transitions entered ref transition).mp member with
      before | ⟨_, _, _, rfl⟩
    · exact (shaped.dest_lt before).trans_le entered.length_le
    · exact shaped.target_lt placed entered
  position := forall_mem_snoc shaped.position position
  event_placed := by
    apply forall_mem_snoc
    · exact fun event before =>
        (shaped.event_placed event before).mono fun _ => List.mem_append_left _
    · exact placed.mono fun _ => List.mem_append_left _
  origin := shaped.enter_origin entered
  written := by
    apply forall_mem_snoc
    · intro event before ref isTarget v letter
      exact (mem_place_transitions entered _ _).mpr
        (Or.inl (shaped.written event before ref isTarget v letter))
    · intro ref isTarget v letter
      exact (mem_place_transitions entered _ _).mpr
        (Or.inr ⟨rfl, v, letter, by rw [Option.some.inj isTarget]⟩)
  silent := by
    apply forall_mem_snoc shaped.silent
    intro isSilent
    exact congrArg some (entered.target_eq (Or.inl isSilent))
  loop := by
    apply forall_mem_snoc
    · intro event before v isLoop
      exact (mem_place_transitions entered _ _).mpr
        (Or.inl (shaped.loop event before v isLoop))
    · intro v isLoop
      have same := entered.target_eq (Or.inr ⟨v, isLoop⟩)
      exact (mem_place_transitions entered _ _).mpr
        (Or.inr ⟨rfl, v, by rw [isLoop]; rfl, by rw [same]⟩)
  loop_target := by
    apply forall_mem_snoc shaped.loop_target
    intro v isLoop ref isTarget
    have same := entered.target_eq (Or.inr ⟨v, isLoop⟩)
    exact (Option.some.inj isTarget).symm.trans same
  uncut := by
    apply forall_mem_snoc shaped.uncut
    exact fun isCut => absurd isCut (Option.some_ne_none _)
  loop_origin := shaped.enter_loop_origin placed entered
  accept_iff := shaped.enter_accept_iff placed entered
  root := by
    intro ref v member
    by_contra different
    rcases shaped.known entered member (Ne.symm different) with
      before | ⟨_, _, _, new⟩
    · exact different (shaped.root before)
    · have inside := shaped.placed_lt placed
      omega
  parent := shaped.enter_parent entered

end Enter

end Shaped

section Built

variable {order : HashOrder} {a : Automaton} {ta : TransducerAutomaton}

/-- Every built heap has the shape. -/
theorem Built.shaped {heap : Heap} {trace : Trace}
    (built : Built order a ta heap trace) :
    Shaped order a ta heap trace := by
  induction built with
  | start => exact Shaped.start
  | cut built placed position entered shaped =>
      exact shaped.cut placed position entered
  | enter built placed position entered shaped =>
      exact shaped.enter placed position
        (enter_some (shaped.placed_lt placed) entered)

theorem Built.closed {heap : Heap} {trace : Trace}
    (built : Built order a ta heap trace) :
    heap.Closed := by
  intro state member transition inState
  rcases List.mem_iff_getElem.mp member with ⟨ref, inside, rfl⟩
  have same : heap.state ref = heap[ref] := by
    rw [Heap.state, List.getElem?_eq_getElem inside]
    rfl
  exact built.shaped.dest_lt (same ▸ inState)

theorem Built.length_pos {heap : Heap} {trace : Trace}
    (built : Built order a ta heap trace) :
    0 < heap.length :=
  built.shaped.placed_lt (Or.inl ⟨rfl, rfl⟩)

end Built

/-! ## What the calls of a run find -/

section Calls

variable {order : HashOrder} {a : Automaton} {ta : TransducerAutomaton}

/-- Every transition carries one letter and leads to a state of the heap. -/
structure PlainHeap (heap : Heap) : Prop where
  dest_lt : ∀ ref, ∀ transition ∈ (heap.state ref).transitions,
    transition.dest < heap.length
  single : ∀ ref, ∀ transition ∈ (heap.state ref).transitions,
    transition = Transition.single transition.min transition.dest

theorem newAutomaton_transitions (ref : Nat) :
    (newAutomaton.state ref).transitions = [] := by
  rcases Nat.eq_zero_or_pos ref with rfl | positive
  · rfl
  · rw [Shaped.newAutomaton_state positive]
    rfl

theorem PlainHeap.place {heap : Heap} (plain : PlainHeap heap) (node : Nat)
    (state : ProductState) : PlainHeap (place a ta heap node state) where
  dest_lt := by
    intro ref transition member
    rw [place_transitions] at member
    rw [length_place]
    exact plain.dest_lt ref transition member
  single := by
    intro ref transition member
    rw [place_transitions] at member
    exact plain.single ref transition member

theorem PlainHeap.newState {heap : Heap} (plain : PlainHeap heap) :
    PlainHeap heap.newState where
  dest_lt := by
    intro ref transition member
    rw [Heap.state_newState] at member
    rw [Heap.length_newState]
    exact (plain.dest_lt ref transition member).trans (Nat.lt_succ_self _)
  single := by
    intro ref transition member
    rw [Heap.state_newState] at member
    exact plain.single ref transition member

theorem PlainHeap.addTransition {heap : Heap} (plain : PlainHeap heap) (node : Nat)
    (v : JChar) {target : Nat}
    (within : node < heap.length → target < heap.length) :
    PlainHeap (heap.addTransition node (.single v target)) := by
  by_cases inside : node < heap.length
  · constructor
    · intro ref transition member
      rw [Heap.length_addTransition]
      rcases (Heap.mem_addTransition inside).mp member with before | ⟨_, rfl⟩
      · exact plain.dest_lt ref transition before
      · exact within inside
    · intro ref transition member
      rcases (Heap.mem_addTransition inside).mp member with before | ⟨_, rfl⟩
      · exact plain.single ref transition before
      · rfl
  · rw [Heap.addTransition, List.modify_eq_self (Nat.le_of_not_lt inside)]
    exact plain

theorem PlainHeap.epsilonTarget_lt {heap : Heap} (plain : PlainHeap heap) (node : Nat)
    (v : JChar) : epsilonTarget order heap node v < heap.newState.length := by
  rw [Heap.length_newState]
  rcases epsilonTarget_spec order heap node v with
    ⟨equal, _⟩ | ⟨transition, member, _, dest⟩
  · rw [equal]
    exact Nat.lt_succ_self _
  · rw [← dest]
    exact (plain.dest_lt _ _ member).trans (Nat.lt_succ_self _)

theorem PlainHeap.enter {heap next : Heap} {node target : Nat} {branch : Branch}
    (plain : PlainHeap heap)
    (entered : enter order heap node branch = some (next, target)) :
    PlainHeap next := by
  cases branch with
  | silent =>
      rcases Prod.mk.inj (Option.some.inj entered) with ⟨rfl, rfl⟩
      exact plain
  | loop v =>
      rw [Transducer.enter] at entered
      split_ifs at entered with present
      rcases Prod.mk.inj (Option.some.inj entered) with ⟨rfl, rfl⟩
      exact plain.addTransition node v id
  | emit v =>
      rcases Prod.mk.inj (Option.some.inj entered) with ⟨rfl, rfl⟩
      apply plain.newState.addTransition node v
      intro _
      rw [Heap.length_newState]
      exact Nat.lt_succ_self _
  | epsilon v =>
      rcases Prod.mk.inj (Option.some.inj entered) with ⟨rfl, rfl⟩
      exact plain.newState.addTransition node v
        fun _ => plain.epsilonTarget_lt node v

/-- The heaps of a run are plain. -/
theorem plain_kept : KeptByCalls order a ta PlainHeap where
  start := by
    constructor
    · intro ref transition member
      rw [newAutomaton_transitions] at member
      exact absurd member List.not_mem_nil
    · intro ref transition member
      rw [newAutomaton_transitions] at member
      exact absurd member List.not_mem_nil
  place := fun _ node state plain => plain.place node state
  enter := fun _ _ _ _ _ _ _ entered plain => plain.enter entered

/-- A call is made for a built state. -/
theorem Called.inside {frame : Frame} (called : Called order a ta frame) :
    frame.node < frame.heap.length := by
  induction called with
  | refl => exact Nat.one_pos
  | @tail frame inner called enters induction =>
      rcases enters with ⟨move, before, makes, entered, _⟩
      have plain := plain_kept.makes called makes
      rcases makes with ⟨index, _, comes⟩
      have inside := induction.trans_le comes.extends.length_le
      have spec := enter_some inside entered
      rcases spec.target_spec with ⟨isNode, _⟩ | ⟨_, less, _⟩ |
        ⟨_, _, transition, member, _, isTarget⟩
      · rw [isNode]
        exact inside.trans_le spec.length_le
      · exact less
      · rw [← isTarget]
        exact (plain.dest_lt _ _ member).trans_le spec.length_le

theorem Makes.inside {frame : Frame} {move : Move} {before : Heap}
    (makes : Makes order a ta frame move before)
    (called : Called order a ta frame) : frame.node < before.length := by
  rcases makes with ⟨index, _, comes⟩
  exact called.inside.trans_le comes.extends.length_le

/-- In the states that a run builds, the state of each of its calls is
reached. -/
theorem Called.reachable {fuel : Nat} {states : Heap}
    (builds : imageStates order a ta fuel = some states) {frame : Frame}
    (called : Called order a ta frame) :
    ∃ word, SafetyGames.LabelledPath.Path states.Step 0 word frame.node := by
  induction called with
  | refl => exact ⟨[], .nil 0⟩
  | @tail frame inner called enters induction =>
      have innerCalled : Called order a ta inner := called.tail enters
      rcases innerCalled.returns builds with ⟨_, result, returns, within⟩
      have grown := (imageRec_extends returns).trans within
      rcases enters with ⟨move, before, makes, entered, _⟩
      have spec := enter_some (makes.inside called) entered
      rcases induction with ⟨word, path⟩
      cases letter : move.branch.letter with
      | none =>
          have silent : move.branch = .silent := by
            cases branch : move.branch with
            | silent => rfl
            | loop | emit | epsilon => simp [branch, Branch.letter] at letter
          rw [spec.target_eq (Or.inl silent)]
          exact ⟨word, path⟩
      | some v =>
          have written := grown.transitions _ _
            ((spec.mem_transitions frame.node _).mpr
              (Or.inr ⟨rfl, v, letter, rfl⟩))
          exact ⟨word ++ [v], path.snoc ⟨_, written, by simp, rfl⟩⟩

end Calls

section Image

variable {order : HashOrder} {a : Automaton} {ta : TransducerAutomaton}

/-- The automaton that `image` passes to `minimize()`. -/
def builtImage {fuel : Nat} {states : Heap}
    (returns : imageStates order a ta fuel = some states) : Automaton where
  states := states
  initial := 0
  deterministic := true
  initial_lt := by
    rcases imageStates_built returns with ⟨_, built, _⟩
    exact built.length_pos
  closed := by
    rcases imageStates_built returns with ⟨_, built, _⟩
    exact built.closed

end Image

end SafetyGames.Transducer
