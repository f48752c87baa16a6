import SafetyGames.Lib.ModifiedList
import SafetyGames.Transducer.Deepcopy

/-!
# Copies as objects

`deepcopy` on the objects of a running program: the states that exist already,
those of the given transducer among them, and the states and transitions that
the copy creates.  Here it can be said that a copy shares no object with the
given transducer and leaves it unchanged.  The run on objects mirrors the copy
built by `deepcopy`, so both have one relation.
-/

namespace SafetyGames.Transducer

open SafetyGames.LabelledPath SafetyGames.Worklist SafetyGames.ModifiedList

/-! ## Objects -/

/-- A transition object: its address, and the fields that never change. -/
structure TransitionObject where
  address : Nat
  pair : TransducerPair
  dest : Nat
deriving DecidableEq

/-- A state object; a reference to it is its position among the states. -/
structure StateObject where
  accept : Bool
  transitions : List TransitionObject
deriving DecidableEq

/-- The objects created so far; `allocated` is the next address of a transition. -/
structure Objects where
  states : List StateObject
  allocated : Nat
deriving DecidableEq

/-- The state object behind a reference. -/
def Objects.state (objects : Objects) (ref : Nat) : StateObject :=
  objects.states[ref]?.getD ⟨false, []⟩

/-- The values of a transition object. -/
def TransitionObject.value (t : TransitionObject) : TransducerTransition :=
  ⟨t.pair, t.dest⟩

/-- The values of a state object. -/
def StateObject.value (state : StateObject) : TransducerState where
  accept := state.accept
  transitions := state.transitions.map TransitionObject.value

/-- A transducer whose states are objects among others. -/
structure TransducerObject where
  objects : Objects
  initial : Nat
  initial_lt : initial < objects.states.length
  dest_lt : ∀ state ∈ objects.states, ∀ t ∈ state.transitions,
    t.dest < objects.states.length
  address_lt : ∀ state ∈ objects.states, ∀ t ∈ state.transitions,
    t.address < objects.allocated

/-- The transducer without the addresses of its transitions. -/
def TransducerObject.value (ta : TransducerObject) : TransducerAutomaton where
  states := ta.objects.states.map StateObject.value
  initial := ta.initial
  initial_lt := by
    rw [List.length_map]
    exact ta.initial_lt
  closed := by
    intro state member transition inState
    rcases List.mem_map.mp member with ⟨object, inObjects, rfl⟩
    rcases List.mem_map.mp inState with ⟨t, inObject, rfl⟩
    rw [List.length_map]
    exact ta.dest_lt object inObjects t inObject

theorem TransducerObject.value_state (ta : TransducerObject) (ref : Nat) :
    ta.value.state ref = (ta.objects.state ref).value := by
  show ((ta.objects.states.map StateObject.value)[ref]?).getD
    TransducerState.new = ((ta.objects.states[ref]?).getD ⟨false, []⟩).value
  rw [List.getElem?_map]
  cases ta.objects.states[ref]? with
  | none => rfl
  | some state => rfl

/-! ## The copy -/

/-- The variables of `deepcopy`: `created` and `worklist` form the search. -/
structure CopyLoop where
  objects : Objects
  search : Search Nat
  idMap : Nat → Option Nat
  initial : Nat

namespace CopyLoop

/-- `new TransducerState()`, put into the map under the id. -/
def newState (loop : CopyLoop) (sid : Nat) (accept : Bool) : CopyLoop :=
  { loop with
    objects :=
      { loop.objects with states := loop.objects.states ++ [⟨accept, []⟩] }
    idMap := Function.update loop.idMap sid (some loop.objects.states.length) }

/-- The state is taken from the map, or a new one is put into it. -/
def enter (loop : CopyLoop) (sid : Nat) (accept : Bool) : CopyLoop :=
  if loop.idMap sid = none then loop.newState sid accept else loop

/-- `id_map.get(sid)`. -/
def get (loop : CopyLoop) (sid : Nat) : Nat :=
  (loop.idMap sid).getD loop.initial

/-- `ret.setInitialState(id_map.get(sid))`. -/
def setInitialState (loop : CopyLoop) (sid : Nat) : CopyLoop :=
  { loop with initial := loop.get sid }

/-- `ts.addTransition(new TransducerTransition(p, tto))`. -/
def addTransition (loop : CopyLoop) (ts : Nat) (p : TransducerPair)
    (tto : Nat) : CopyLoop :=
  { loop with
    objects :=
      { states := loop.objects.states.modify ts fun state =>
          { state with
            transitions :=
              state.transitions ++ [⟨loop.objects.allocated, p, tto⟩] }
        allocated := loop.objects.allocated + 1 } }

/-- The destination is added to `created` and to the worklist. -/
def visit (loop : CopyLoop) (sid : Nat) : CopyLoop :=
  { loop with search := loop.search.visit sid }

end CopyLoop

section Deepcopy

variable (initial : Nat) (invert : Bool)

/-- The copy of one transition object leaves the copied state `ts`. -/
def copyTransitionObject (ts : Nat) (loop : CopyLoop) (t : TransitionObject) :
    CopyLoop :=
  let loop := loop.enter t.dest (loop.objects.state t.dest).accept
  (loop.addTransition ts (copyPair invert t.pair) (loop.get t.dest)).visit t.dest

/-- One iteration for the state taken from the worklist. -/
def copyStateObject (loop : CopyLoop) (sid : Nat) : CopyLoop :=
  let state := loop.objects.state sid
  let loop :=
    if sid = initial then (loop.newState sid state.accept).setInitialState sid
    else loop.enter sid state.accept
  state.transitions.foldl (copyTransitionObject invert (loop.get sid)) loop

/-- The loop of `deepcopy`. -/
def copyLoop : Nat → CopyLoop → Option CopyLoop
  | fuel, loop =>
      match loop.search.worklist with
      | [] => some loop
      | sid :: worklist =>
          match fuel with
          | 0 => none
          | fuel + 1 =>
              copyLoop fuel (copyStateObject initial invert
                { loop with search := ⟨loop.search.visited, worklist⟩ } sid)

end Deepcopy

/-- `deepcopy(ta, invert)` on objects: the objects afterwards, and the initial
state of the copy; `new TransducerAutomaton()` creates a first state. -/
def deepcopyObject (ta : TransducerObject) (invert : Bool) :
    Option (Objects × Nat) :=
  (copyLoop ta.initial invert ta.objects.states.length
    { objects :=
        { ta.objects with states := ta.objects.states ++ [⟨false, []⟩] }
      search := ⟨[ta.initial], [ta.initial]⟩
      idMap := fun _ => none
      initial := ta.objects.states.length }).map
    fun loop => (loop.objects, loop.initial)

/-! ## The mirror -/

/-- The transition in a heap that starts after `offset` other states. -/
def TransducerTransition.shift (offset : Nat) (t : TransducerTransition) :
    TransducerTransition :=
  ⟨t.pair, offset + t.dest⟩

def TransducerState.shift (offset : Nat) (state : TransducerState) :
    TransducerState where
  accept := state.accept
  transitions := state.transitions.map (TransducerTransition.shift offset)

/-- The objects are the given ones, unchanged, and then the states of the copy
with transitions of their own. -/
structure Mirrors (ta : TransducerObject) (fresh : List StateObject)
    (loop : CopyLoop) (copy : Copying) : Prop where
  states : loop.objects.states = ta.objects.states ++ fresh
  value : fresh.map StateObject.value =
    copy.ret.states.map (TransducerState.shift ta.objects.states.length)
  fresh_address : ∀ state ∈ fresh, ∀ t ∈ state.transitions,
    ta.objects.allocated ≤ t.address ∧ t.address < loop.objects.allocated
  allocated : ta.objects.allocated ≤ loop.objects.allocated
  idMap : ∀ sid, loop.idMap sid =
    (copy.idMap sid).map (ta.objects.states.length + ·)
  initial : loop.initial = ta.objects.states.length + copy.ret.initial

section Mirrors

variable {ta : TransducerObject} {invert : Bool} {fresh : List StateObject}
variable {loop : CopyLoop} {copy : Copying}

theorem Mirrors.length_fresh (mirrors : Mirrors ta fresh loop copy) :
    fresh.length = copy.ret.states.length := by
  have same := congrArg List.length mirrors.value
  rwa [List.length_map, List.length_map] at same

theorem Mirrors.length_states (mirrors : Mirrors ta fresh loop copy) :
    loop.objects.states.length =
      ta.objects.states.length + copy.ret.states.length := by
  rw [mirrors.states, List.length_append, mirrors.length_fresh]

theorem Mirrors.get (mirrors : Mirrors ta fresh loop copy) (sid : Nat) :
    loop.get sid = ta.objects.states.length + copy.get sid := by
  rw [CopyLoop.get, Copying.get, mirrors.idMap, mirrors.initial]
  cases copy.idMap sid with
  | none => rfl
  | some ts => rfl

/-- The given states are read as they were. -/
theorem Mirrors.state (mirrors : Mirrors ta fresh loop copy) {sid : Nat}
    (given : sid < ta.objects.states.length) :
    loop.objects.state sid = ta.objects.state sid := by
  rw [Objects.state, Objects.state, mirrors.states,
    List.getElem?_append_left given]

theorem Mirrors.newState (mirrors : Mirrors ta fresh loop copy) (sid : Nat)
    (accept : Bool) :
    Mirrors ta (fresh ++ [⟨accept, []⟩]) (loop.newState sid accept)
      (copy.newState sid accept) where
  states := by
    show loop.objects.states ++ _ = _
    rw [mirrors.states, List.append_assoc]
  value := by
    show _ = List.map _ (copy.ret.states ++ [(⟨accept, []⟩ : TransducerState)])
    rw [List.map_append, List.map_append, mirrors.value]
    rfl
  fresh_address := by
    intro state member t inState
    rcases List.mem_append.mp member with old | new
    · exact mirrors.fresh_address state old t inState
    · rw [List.mem_singleton.mp new] at inState
      exact absurd inState List.not_mem_nil
  allocated := mirrors.allocated
  idMap := by
    intro other
    show Function.update loop.idMap sid _ other =
      (Function.update copy.idMap sid _ other).map _
    by_cases same : other = sid
    · rw [same, Function.update_self, Function.update_self,
        mirrors.length_states]
      rfl
    · rw [Function.update_of_ne same, Function.update_of_ne same]
      exact mirrors.idMap other
  initial := mirrors.initial

theorem Mirrors.enter (mirrors : Mirrors ta fresh loop copy) (sid : Nat)
    (accept : Bool) :
    ∃ more, Mirrors ta more (loop.enter sid accept) (copy.enter sid accept) := by
  have new : loop.idMap sid = none ↔ copy.idMap sid = none := by
    rw [mirrors.idMap, Option.map_eq_none_iff]
  rw [CopyLoop.enter, Copying.enter]
  by_cases none : copy.idMap sid = none
  · rw [if_pos none, if_pos (new.mpr none)]
    exact ⟨_, mirrors.newState sid accept⟩
  · rw [if_neg none, if_neg (new.not.mpr none)]
    exact ⟨fresh, mirrors⟩

theorem Mirrors.setInitialState (mirrors : Mirrors ta fresh loop copy)
    (sid : Nat) :
    Mirrors ta fresh (loop.setInitialState sid) (copy.setInitialState sid) :=
  { mirrors with initial := mirrors.get sid }

/-- The new transition object gets an address of its own. -/
theorem Mirrors.addTransition (mirrors : Mirrors ta fresh loop copy)
    (ts : Nat) (p : TransducerPair) (tid : Nat) :
    ∃ more, Mirrors ta more
      (loop.addTransition (ta.objects.states.length + ts) p (loop.get tid))
      (copy.addTransition ts p tid) := by
  let add (state : StateObject) : StateObject :=
    { state with
      transitions := state.transitions ++
        [⟨loop.objects.allocated, p, loop.get tid⟩] }
  refine ⟨fresh.modify ts add, ?_, ?_, ?_, ?_, mirrors.idMap, mirrors.initial⟩
  · show loop.objects.states.modify _ add = _
    rw [mirrors.states]
    exact modify_append_length _ _ _ _
  · let grow (state : TransducerState) : TransducerState :=
      { state with transitions := state.transitions ++ [⟨p, loop.get tid⟩] }
    have left : ∀ state, (add state).value = grow state.value := by
      intro state
      simp [add, grow, StateObject.value, TransitionObject.value]
    have right : ∀ state : TransducerState,
        ({ state with
            transitions := state.transitions ++ [⟨p, copy.get tid⟩] } :
          TransducerState).shift ta.objects.states.length =
            grow (state.shift ta.objects.states.length) := by
      intro state
      simp [grow, TransducerState.shift, TransducerTransition.shift,
        mirrors.get]
    rw [map_modify left, mirrors.value]
    exact (map_modify right copy.ret.states ts).symm
  · intro state member t inState
    rcases mem_modify member with old | ⟨before, old, rfl⟩
    · have bounds := mirrors.fresh_address state old t inState
      exact ⟨bounds.1, bounds.2.trans (Nat.lt_succ_self _)⟩
    · rcases List.mem_append.mp inState with earlier | new
      · have bounds := mirrors.fresh_address before old t earlier
        exact ⟨bounds.1, bounds.2.trans (Nat.lt_succ_self _)⟩
      · rcases List.mem_singleton.mp new with rfl
        exact ⟨mirrors.allocated, Nat.lt_succ_self _⟩
  · exact mirrors.allocated.trans (Nat.le_succ _)

theorem Mirrors.transition (mirrors : Mirrors ta fresh loop copy) (ts : Nat)
    {t : TransitionObject} (given : t.dest < ta.objects.states.length) :
    ∃ more, Mirrors ta more
      (copyTransitionObject invert (ta.objects.states.length + ts) loop t)
      (copyTransition ta.value invert ts copy t.value) := by
  have accept : (loop.objects.state t.dest).accept =
      (ta.value.state t.dest).accept := by
    rw [mirrors.state given, TransducerObject.value_state]
    rfl
  rcases mirrors.enter t.dest (ta.value.state t.dest).accept with
    ⟨entered, mirrorsEntered⟩
  rcases mirrorsEntered.addTransition ts (copyPair invert t.pair) t.dest with
    ⟨more, added⟩
  refine ⟨more, ?_⟩
  rw [copyTransitionObject, accept]
  exact { added with }

/-- The loop over the transitions of a state copies them and visits their
destinations. -/
theorem Mirrors.transitions (mirrors : Mirrors ta fresh loop copy) (ts : Nat)
    {list : List TransitionObject}
    (given : ∀ t ∈ list, t.dest < ta.objects.states.length) :
    (∃ more, Mirrors ta more
        (list.foldl
          (copyTransitionObject invert (ta.objects.states.length + ts)) loop)
        ((list.map TransitionObject.value).foldl
          (copyTransition ta.value invert ts) copy)) ∧
      (list.foldl (copyTransitionObject invert (ta.objects.states.length + ts))
          loop).search =
        (list.map TransitionObject.dest).foldl Search.visit loop.search := by
  induction list generalizing fresh loop copy with
  | nil => exact ⟨⟨fresh, mirrors⟩, rfl⟩
  | cons t list induction =>
      have head : t.dest < ta.objects.states.length :=
        given t List.mem_cons_self
      have tail : ∀ other ∈ list, other.dest < ta.objects.states.length :=
        fun other member => given other (List.mem_cons_of_mem t member)
      rcases mirrors.transition ts head with ⟨more, mirrorsHead⟩
      have search : (copyTransitionObject invert
          (ta.objects.states.length + ts) loop t).search =
            loop.search.visit t.dest := by
        rw [copyTransitionObject, CopyLoop.enter]
        split_ifs <;> rfl
      rcases induction mirrorsHead tail with ⟨mirrorsTail, searchTail⟩
      refine ⟨mirrorsTail, ?_⟩
      rw [List.foldl_cons, searchTail, search]
      rfl

theorem TransducerObject.value_accept (sid : Nat) :
    (ta.value.state sid).accept = (ta.objects.state sid).accept := by
  rw [TransducerObject.value_state]
  rfl

theorem TransducerObject.value_transitions (sid : Nat) :
    (ta.value.state sid).transitions =
      (ta.objects.state sid).transitions.map TransitionObject.value := by
  rw [TransducerObject.value_state]
  rfl

theorem TransducerObject.value_successors (sid : Nat) :
    ta.value.successors sid =
      (ta.objects.state sid).transitions.map TransitionObject.dest := by
  rw [TransducerAutomaton.successors, TransducerObject.value_transitions,
    List.map_map]
  rfl

theorem TransducerObject.state_mem {sid : Nat}
    (given : sid < ta.objects.states.length) :
    ta.objects.state sid ∈ ta.objects.states := by
  rw [Objects.state, List.getElem?_eq_getElem given]
  exact List.getElem_mem given

/-- Once its copy is in the map, the transitions of a state are copied. -/
theorem Mirrors.expand (mirrors : Mirrors ta fresh loop copy) {sid : Nat}
    (given : sid < ta.objects.states.length) :
    (∃ more, Mirrors ta more
        ((ta.objects.state sid).transitions.foldl
          (copyTransitionObject invert (loop.get sid)) loop)
        ((ta.value.state sid).transitions.foldl
          (copyTransition ta.value invert (copy.get sid)) copy)) ∧
      ((ta.objects.state sid).transitions.foldl
          (copyTransitionObject invert (loop.get sid)) loop).search =
        (ta.value.successors sid).foldl Search.visit loop.search := by
  rw [mirrors.get, TransducerObject.value_transitions,
    TransducerObject.value_successors]
  exact mirrors.transitions _ (ta.dest_lt _ (TransducerObject.state_mem given))

/-- An iteration on objects mirrors one of `deepcopy`, with its visits. -/
theorem Mirrors.iteration (mirrors : Mirrors ta fresh loop copy) {sid : Nat}
    (given : sid < ta.objects.states.length) :
    (∃ more, Mirrors ta more (copyStateObject ta.initial invert loop sid)
        (copyState ta.value invert copy sid)) ∧
      (copyStateObject ta.initial invert loop sid).search =
        (ta.value.successors sid).foldl Search.visit loop.search := by
  rw [copyStateObject, copyState, mirrors.state given,
    TransducerObject.value_accept]
  by_cases isInitial : sid = ta.initial
  · have alsoInitial : sid = ta.value.initial := isInitial
    rw [if_pos isInitial, if_pos alsoInitial]
    have entered := (mirrors.newState sid
      (ta.objects.state sid).accept).setInitialState sid
    exact entered.expand given
  · have notInitial : ¬ sid = ta.value.initial := isInitial
    rw [if_neg isInitial, if_neg notInitial]
    rcases mirrors.enter sid (ta.objects.state sid).accept with ⟨_, entered⟩
    have search : (loop.enter sid (ta.objects.state sid).accept).search =
        loop.search := by
      rw [CopyLoop.enter]
      split_ifs <;> rfl
    rw [← search]
    exact entered.expand given

/-- The run on objects mirrors the run of `deepcopy`. -/
theorem Mirrors.run (mirrors : Mirrors ta fresh loop copy)
    (valid : Valid ta.value.successors ta.initial
      (Finset.range ta.objects.states.length) loop.search)
    {fuel : Nat} {after : Copying}
    (returns : exploreWith ta.value.successors (copyState ta.value invert) fuel
      loop.search copy = some after) :
    ∃ more last, copyLoop ta.initial invert fuel loop = some last ∧
      Mirrors ta more last after := by
  induction fuel generalizing fresh loop copy with
  | zero =>
      rcases loop with ⟨objects, ⟨visited, worklist⟩, idMap, initial⟩
      cases worklist with
      | nil =>
          rcases Option.some.inj returns with rfl
          exact ⟨fresh, _, rfl, mirrors⟩
      | cons sid worklist => exact absurd returns (Option.some_ne_none _).symm
  | succ fuel induction =>
      rcases loop with ⟨objects, ⟨visited, worklist⟩, idMap, initial⟩
      cases worklist with
      | nil =>
          rcases Option.some.inj returns with rfl
          exact ⟨fresh, _, rfl, mirrors⟩
      | cons sid worklist =>
          have known := valid.included sid List.mem_cons_self
          have given := Finset.mem_range.mp (valid.inside sid known)
          have popped : Mirrors ta fresh
              ⟨objects, ⟨visited, worklist⟩, idMap, initial⟩ copy :=
            { mirrors with }
          rcases @Mirrors.iteration ta invert _ _ _ popped sid given with
            ⟨⟨more, mirrorsNext⟩, search⟩
          have reached : ∀ next ∈ ta.value.successors sid,
              Relation.ReflTransGen (Edge ta.value.successors) ta.initial
                next :=
            fun next edge => (valid.reached sid known).tail edge
          have inside : ∀ next ∈ ta.value.successors sid,
              next ∈ Finset.range ta.objects.states.length := by
            intro next edge
            have bound := successors_lt edge
            rw [TransducerObject.value, List.length_map] at bound
            exact Finset.mem_range.mpr bound
          have validNext := valid.pop.foldl_visit inside reached
          rw [← search] at validNext
          apply induction mirrorsNext validNext
          rw [search]
          exact returns

/-! ## The copy among the objects -/

theorem Mirrors.start :
    Mirrors ta [⟨false, []⟩]
      { objects :=
          { ta.objects with states := ta.objects.states ++ [⟨false, []⟩] }
        search := ⟨[ta.initial], [ta.initial]⟩
        idMap := fun _ => none
        initial := ta.objects.states.length } Copying.start where
  states := rfl
  value := rfl
  fresh_address := by
    intro state member t inState
    rw [List.mem_singleton.mp member] at inState
    exact absurd inState List.not_mem_nil
  allocated := le_rfl
  idMap := fun _ => rfl
  initial := rfl

/-- The mirror of a finished copy is a transducer among the objects. -/
def Mirrors.result (mirrors : Mirrors ta fresh loop copy) :
    TransducerObject where
  objects := loop.objects
  initial := loop.initial
  initial_lt := by
    have inside := copy.ret.initial_lt
    rw [mirrors.initial, mirrors.length_states]
    omega
  dest_lt := by
    intro state member t inState
    rw [mirrors.length_states]
    rw [mirrors.states] at member
    rcases List.mem_append.mp member with old | new
    · have bound := ta.dest_lt state old t inState
      omega
    · have isValue : state.value ∈ copy.ret.states.map
          (TransducerState.shift ta.objects.states.length) := by
        rw [← mirrors.value]
        exact List.mem_map_of_mem new
      rcases List.mem_map.mp isValue with ⟨copied, inCopy, equal⟩
      have inValue : t.value ∈ state.value.transitions :=
        List.mem_map_of_mem inState
      rw [← equal] at inValue
      rcases List.mem_map.mp inValue with ⟨transition, inCopied, same⟩
      have bound := copy.ret.closed copied inCopy transition inCopied
      have dest : ta.objects.states.length + transition.dest = t.dest :=
        congrArg TransducerTransition.dest same
      omega
  address_lt := by
    intro state member t inState
    rw [mirrors.states] at member
    rcases List.mem_append.mp member with old | new
    · exact (ta.address_lt state old t inState).trans_le mirrors.allocated
    · exact (mirrors.fresh_address state new t inState).2

/-- Behind the given states the objects have the values of the copy. -/
theorem Mirrors.value_state (mirrors : Mirrors ta fresh loop copy) (ref : Nat) :
    mirrors.result.value.state (ta.objects.states.length + ref) =
      (copy.ret.state ref).shift ta.objects.states.length := by
  have heap : mirrors.result.value.states =
      ta.objects.states.map StateObject.value ++
        copy.ret.states.map
          (TransducerState.shift ta.objects.states.length) := by
    show loop.objects.states.map StateObject.value = _
    rw [mirrors.states, List.map_append, mirrors.value]
  have behind : (ta.objects.states.map StateObject.value).length ≤
      ta.objects.states.length + ref := by
    rw [List.length_map]
    exact Nat.le_add_right _ _
  rw [TransducerAutomaton.state, TransducerHeap.state, heap,
    List.getElem?_append_right behind, List.length_map,
    Nat.add_sub_cancel_left, List.getElem?_map]
  show _ = ((copy.ret.states[ref]?).getD TransducerState.new).shift _
  cases copy.ret.states[ref]? with
  | none => rfl
  | some state => rfl

theorem Mirrors.step_iff (mirrors : Mirrors ta fresh loop copy)
    {ref target : Nat} {pair : TransducerPair} :
    mirrors.result.value.states.Step (ta.objects.states.length + ref) pair
        target ↔
      ∃ next, copy.ret.states.Step ref pair next ∧
        target = ta.objects.states.length + next := by
  show _ ∈ (mirrors.result.value.state _).transitions ↔ _
  rw [mirrors.value_state]
  constructor
  · intro member
    rcases List.mem_map.mp member with ⟨t, inCopy, equal⟩
    rcases TransducerTransition.mk.inj equal with ⟨rfl, rfl⟩
    exact ⟨t.dest, inCopy, rfl⟩
  · rintro ⟨next, inCopy, rfl⟩
    exact List.mem_map.mpr ⟨_, inCopy, rfl⟩

theorem Mirrors.path_iff (mirrors : Mirrors ta fresh loop copy)
    {ref target : Nat} {pairs : List TransducerPair} :
    Path mirrors.result.value.states.Step (ta.objects.states.length + ref) pairs
        target ↔
      ∃ next, Path copy.ret.states.Step ref pairs next ∧
        target = ta.objects.states.length + next := by
  induction pairs generalizing ref with
  | nil => simp [eq_comm]
  | cons pair pairs induction =>
      rw [Path.cons_iff]
      constructor
      · rintro ⟨middle, head, tail⟩
        rcases mirrors.step_iff.mp head with ⟨next, step, rfl⟩
        rcases induction.mp tail with ⟨last, path, rfl⟩
        exact ⟨last, Path.cons step path, rfl⟩
      · rintro ⟨last, path, rfl⟩
        rcases Path.cons_iff.mp path with ⟨next, step, rest⟩
        exact ⟨_, mirrors.step_iff.mpr ⟨next, step, rfl⟩,
          induction.mpr ⟨last, rest, rfl⟩⟩

/-- The transducer among the objects has the relation of the copy. -/
theorem Mirrors.rel_iff (mirrors : Mirrors ta fresh loop copy) {u v : Word} :
    mirrors.result.value.Rel u v ↔ copy.ret.Rel u v := by
  have initial : mirrors.result.value.initial =
      ta.objects.states.length + copy.ret.initial := mirrors.initial
  have accept : ∀ ref, (mirrors.result.value.state
      (ta.objects.states.length + ref)).accept = (copy.ret.state ref).accept := by
    intro ref
    rw [mirrors.value_state]
    rfl
  rw [TransducerAutomaton.Rel, initial]
  constructor
  · rintro ⟨pairs, target, path, accepts, spells⟩
    rcases mirrors.path_iff.mp path with ⟨last, copied, rfl⟩
    rw [accept] at accepts
    exact ⟨pairs, last, copied, accepts, spells⟩
  · rintro ⟨pairs, last, copied, accepts, spells⟩
    rw [← accept] at accepts
    exact ⟨pairs, _, mirrors.path_iff.mpr ⟨last, copied, rfl⟩, accepts, spells⟩

/-! ## Sharing -/

/-- The objects of a transducer are unchanged among those of the other, which
uses no state object and no transition object of it. -/
structure TransducerObject.Separate (ta other : TransducerObject) : Prop where
  unchanged : ∀ ref < ta.objects.states.length,
    other.objects.state ref = ta.objects.state ref
  states : ∀ ref, ta.value.Reaches ref → ¬ other.value.Reaches ref
  transitions : ∀ left right, ta.value.Reaches left →
    other.value.Reaches right →
      ∀ t ∈ (ta.objects.state left).transitions,
        ∀ t' ∈ (other.objects.state right).transitions, t.address ≠ t'.address

theorem TransducerObject.reaches_lt {ref : Nat} (reaches : ta.value.Reaches ref) :
    ref < ta.objects.states.length := by
  have inside : ref < ta.value.states.length := by
    cases reaches with
    | refl => exact ta.value.initial_lt
    | tail _ edge => exact successors_lt edge
  rwa [TransducerObject.value, List.length_map] at inside

/-- The states of the copy lie behind the given ones. -/
theorem Mirrors.reaches (mirrors : Mirrors ta fresh loop copy) {ref : Nat}
    (reaches : mirrors.result.value.Reaches ref) :
    ∃ next, ref = ta.objects.states.length + next := by
  induction reaches with
  | refl => exact ⟨copy.ret.initial, mirrors.initial⟩
  | tail _ edge induction =>
      rcases induction with ⟨source, rfl⟩
      rcases List.mem_map.mp edge with ⟨t, member, rfl⟩
      rcases mirrors.step_iff.mp member with ⟨next, _, isNext⟩
      exact ⟨next, isNext⟩

theorem Mirrors.state_mem_fresh (mirrors : Mirrors ta fresh loop copy)
    {ref : Nat}
    (inside : ta.objects.states.length + ref < loop.objects.states.length) :
    loop.objects.state (ta.objects.states.length + ref) ∈ fresh := by
  have bound : ref < fresh.length := by
    rw [mirrors.length_states] at inside
    rw [mirrors.length_fresh]
    omega
  rw [Objects.state, mirrors.states,
    List.getElem?_append_right (Nat.le_add_right _ _),
    Nat.add_sub_cancel_left, List.getElem?_eq_getElem bound]
  exact List.getElem_mem bound

theorem Mirrors.separate (mirrors : Mirrors ta fresh loop copy) :
    ta.Separate mirrors.result where
  unchanged := fun _ given => mirrors.state given
  states := by
    intro ref reaches other
    have given := TransducerObject.reaches_lt reaches
    rcases mirrors.reaches other with ⟨next, rfl⟩
    omega
  transitions := by
    intro left right reaches other t inLeft t' inRight
    have given := TransducerObject.reaches_lt reaches
    have old := ta.address_lt _ (TransducerObject.state_mem given) t inLeft
    have inside := TransducerObject.reaches_lt other
    rcases mirrors.reaches other with ⟨next, rfl⟩
    have isFresh := mirrors.state_mem_fresh inside
    have new := (mirrors.fresh_address _ isFresh t' inRight).1
    omega

end Mirrors

/-! ## Inversion and copy -/

/-- `invert(ta)` on objects. -/
def TransducerObject.invert (ta : TransducerObject) : Option (Objects × Nat) :=
  deepcopyObject ta true

/-- `copy(ta)` on objects. -/
def TransducerObject.copy (ta : TransducerObject) : Option (Objects × Nat) :=
  deepcopyObject ta false

/-- `deepcopy` ends with a transducer of its own objects, whose relation is
that of the copy. -/
theorem deepcopyObject_spec (ta : TransducerObject) (invert : Bool) :
    ∃ result : TransducerObject,
      deepcopyObject ta invert = some (result.objects, result.initial) ∧
        ta.Separate result ∧
          ∃ ret, deepcopy ta.value invert = some ret ∧
            ∀ u v, result.value.Rel u v ↔ ret.Rel u v := by
  rcases deepcopy_spec ta.value invert with ⟨copy, returns, _⟩
  rcases Option.map_eq_some_iff.mp returns with ⟨after, explored, isRet⟩
  have length : ta.value.states.length = ta.objects.states.length :=
    List.length_map _
  rw [length] at explored
  have valid : Valid ta.value.successors ta.initial
      (Finset.range ta.objects.states.length)
      ⟨[ta.initial], [ta.initial]⟩ :=
    Valid.start (Finset.mem_range.mpr ta.initial_lt)
  rcases Mirrors.start.run valid explored with ⟨more, last, loops, mirrors⟩
  refine ⟨mirrors.result, ?_, mirrors.separate, copy.ret, returns, ?_⟩
  · rw [deepcopyObject, loops]
    rfl
  · intro u v
    rw [← isRet]
    exact mirrors.rel_iff

/--
`invert` swaps the relation and `copy` keeps it, without sharing an object with
the given transducer or changing it.  Two inversions restore the relation.
-/
theorem invert_copy_exact (ta : TransducerObject) :
    ∃ inverse copied double : TransducerObject,
      ta.invert = some (inverse.objects, inverse.initial) ∧
      ta.copy = some (copied.objects, copied.initial) ∧
      inverse.invert = some (double.objects, double.initial) ∧
      ta.Separate inverse ∧ ta.Separate copied ∧
      (∀ u v, inverse.value.Rel v u ↔ ta.value.Rel u v) ∧
      (∀ u v, copied.value.Rel u v ↔ ta.value.Rel u v) ∧
      ∀ u v, double.value.Rel u v ↔ ta.value.Rel u v := by
  rcases deepcopyObject_spec ta true with
    ⟨inverse, inverts, apart, ret, isInverse, inverseRel⟩
  rcases deepcopyObject_spec ta false with
    ⟨copied, copies, alsoApart, other, isCopy, copyRel⟩
  rcases deepcopyObject_spec inverse true with
    ⟨double, again, _, back, isDouble, doubleRel⟩
  have swapped : ∀ u v, inverse.value.Rel v u ↔ ta.value.Rel u v :=
    fun u v => (inverseRel v u).trans
      (TransducerAutomaton.invert_rel_iff isInverse)
  refine ⟨inverse, copied, double, inverts, copies, again, apart, alsoApart,
    swapped, ?_, ?_⟩
  · intro u v
    exact (copyRel u v).trans (TransducerAutomaton.copy_rel_iff isCopy)
  · intro u v
    calc double.value.Rel u v
        ↔ back.Rel u v := doubleRel u v
      _ ↔ inverse.value.Rel v u := TransducerAutomaton.invert_rel_iff isDouble
      _ ↔ ta.value.Rel u v := swapped u v

end SafetyGames.Transducer
