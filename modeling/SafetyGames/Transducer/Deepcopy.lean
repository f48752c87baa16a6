import SafetyGames.Lib.Worklist
import SafetyGames.Transducer.Transducer

/-!
# Copies of transducers

`deepcopy` walks over the states that the initial one reaches and copies each
of them with its transitions, with swapped pairs if it is told to.  The map
`id_map` keeps the copy of every state that was met, as a source or as a
destination.
-/

namespace SafetyGames.Transducer

open SafetyGames.LabelledPath SafetyGames.Worklist

namespace TransducerHeap

/-- `ref.addTransition(t)`; two transition objects are never the same. -/
def addTransition (heap : TransducerHeap) (ref : Nat)
    (transition : TransducerTransition) : TransducerHeap :=
  heap.modify ref fun state =>
    { state with transitions := state.transitions ++ [transition] }

variable {heap : TransducerHeap}

@[simp]
theorem length_addTransition {ref : Nat} {transition : TransducerTransition} :
    (heap.addTransition ref transition).length = heap.length := by
  simp [addTransition]

theorem state_addTransition {ref other : Nat}
    {transition : TransducerTransition} (inside : ref < heap.length) :
    (heap.addTransition ref transition).state other =
      if ref = other then
        { heap.state ref with
          transitions := (heap.state ref).transitions ++ [transition] }
      else heap.state other := by
  by_cases same : ref = other
  · subst same
    simp [state, addTransition, inside]
  · simp [state, addTransition, same]

theorem state_append_lt {state : TransducerState} {ref : Nat}
    (inside : ref < heap.length) :
    TransducerHeap.state (heap ++ [state]) ref = heap.state ref := by
  simp [TransducerHeap.state, List.getElem?_append, inside]

theorem state_append_length {state : TransducerState} :
    TransducerHeap.state (heap ++ [state]) heap.length = state := by
  simp [TransducerHeap.state]

theorem Closed.append (closed : heap.Closed) (accept : Bool) :
    TransducerHeap.Closed (heap ++ [⟨accept, []⟩]) := by
  intro state member transition inState
  rw [List.length_append]
  rcases List.mem_append.mp member with old | new
  · exact (closed state old transition inState).trans_le (Nat.le_add_right _ _)
  · rw [List.mem_singleton.mp new] at inState
    exact absurd inState List.not_mem_nil

theorem Closed.addTransition (closed : heap.Closed) {ref : Nat}
    {transition : TransducerTransition}
    (inside : transition.dest < heap.length) :
    (heap.addTransition ref transition).Closed := by
  intro state member other inState
  rw [length_addTransition]
  rcases List.mem_iff_getElem?.mp member with ⟨index, position⟩
  rw [TransducerHeap.addTransition, List.getElem?_modify, Option.map_eq_map,
    Option.map_eq_some_iff] at position
  rcases position with ⟨before, position, rfl⟩
  have old := closed before (List.mem_of_getElem? position)
  split_ifs at inState
  · rcases List.mem_append.mp inState with earlier | new
    · exact old other earlier
    · exact List.mem_singleton.mp new ▸ inside
  · exact old other inState

end TransducerHeap

/-! ## The copy under construction -/

/-- The new transducer and the map from the ids of the states met to their copies. -/
structure Copying where
  ret : TransducerAutomaton
  idMap : Nat → Option Nat
  idMap_lt : ∀ {sid ts}, idMap sid = some ts → ts < ret.states.length

namespace Copying

/-- `new TransducerAutomaton()` and the empty `id_map`. -/
def start : Copying where
  ret :=
    { states := [TransducerState.new]
      initial := 0
      initial_lt := Nat.one_pos
      closed := by decide }
  idMap _ := none
  idMap_lt := fun equal => absurd equal (Option.some_ne_none _).symm

/-- A new state is put into the map under the id. -/
def newState (copy : Copying) (sid : Nat) (accept : Bool) : Copying where
  ret :=
    { states := copy.ret.states ++ [⟨accept, []⟩]
      initial := copy.ret.initial
      initial_lt := by
        have inside := copy.ret.initial_lt
        rw [List.length_append]
        omega
      closed := copy.ret.closed.append accept }
  idMap := Function.update copy.idMap sid (some copy.ret.states.length)
  idMap_lt := by
    intro other ts mapped
    simp only [List.length_append, List.length_singleton]
    by_cases same : other = sid
    · rw [same, Function.update_self, Option.some.injEq] at mapped
      omega
    · rw [Function.update_of_ne same] at mapped
      have := copy.idMap_lt mapped
      omega

/-- The state is taken from the map, or a new one is put into it. -/
def enter (copy : Copying) (sid : Nat) (accept : Bool) : Copying :=
  if copy.idMap sid = none then copy.newState sid accept else copy

/-- `id_map.get(sid)`. -/
def get (copy : Copying) (sid : Nat) : Nat :=
  (copy.idMap sid).getD copy.ret.initial

theorem get_lt (copy : Copying) (sid : Nat) :
    copy.get sid < copy.ret.states.length := by
  rw [get]
  cases mapped : copy.idMap sid with
  | none => exact copy.ret.initial_lt
  | some ts => exact copy.idMap_lt mapped

/-- `ret.setInitialState(id_map.get(sid))`. -/
def setInitialState (copy : Copying) (sid : Nat) : Copying where
  ret :=
    { copy.ret with
      initial := copy.get sid
      initial_lt := copy.get_lt sid }
  idMap := copy.idMap
  idMap_lt := copy.idMap_lt

/-- `ts.addTransition(new TransducerTransition(p, id_map.get(tid)))`. -/
def addTransition (copy : Copying) (ts : Nat) (p : TransducerPair) (tid : Nat) :
    Copying where
  ret :=
    { states := copy.ret.states.addTransition ts ⟨p, copy.get tid⟩
      initial := copy.ret.initial
      initial_lt := by
        rw [TransducerHeap.length_addTransition]
        exact copy.ret.initial_lt
      closed := copy.ret.closed.addTransition (copy.get_lt tid) }
  idMap := copy.idMap
  idMap_lt := by
    intro sid ts mapped
    rw [TransducerHeap.length_addTransition]
    exact copy.idMap_lt mapped

end Copying

section Deepcopy

variable (ta : TransducerAutomaton) (invert : Bool)

/-- The pair of the copy of a transition. -/
def copyPair (pair : TransducerPair) : TransducerPair :=
  if invert then pair.inverse else pair.deepcopy

/-- The copy of one transition leaves the copied state `ts`. -/
def copyTransition (ts : Nat) (copy : Copying) (t : TransducerTransition) :
    Copying :=
  (copy.enter t.dest (ta.state t.dest).accept).addTransition ts
    (copyPair invert t.pair) t.dest

/-- One iteration: the state from the worklist, then its transitions. -/
def copyState (copy : Copying) (sid : Nat) : Copying :=
  let accept := (ta.state sid).accept
  let copy :=
    if sid = ta.initial then (copy.newState sid accept).setInitialState sid
    else copy.enter sid accept
  (ta.state sid).transitions.foldl
    (copyTransition ta invert (copy.get sid)) copy

/-- The states whose ids the iteration of a state may add to the worklist. -/
def TransducerAutomaton.successors (sid : Nat) : List Nat :=
  (ta.state sid).transitions.map TransducerTransition.dest

/-- `deepcopy(ta, invert)`: the set `created` and the worklist do not depend on
the copy, so they are those of a search. -/
def deepcopy : Option TransducerAutomaton :=
  (exploreWith ta.successors (copyState ta invert) ta.states.length
    ⟨[ta.initial], [ta.initial]⟩ Copying.start).map Copying.ret

end Deepcopy

/-- `invert(ta)`. -/
def TransducerAutomaton.invert (ta : TransducerAutomaton) :
    Option TransducerAutomaton :=
  deepcopy ta true

/-- `copy(ta)`. -/
def TransducerAutomaton.copy (ta : TransducerAutomaton) :
    Option TransducerAutomaton :=
  deepcopy ta false

/-! ## What is copied -/

section Copied

variable {ta : TransducerAutomaton} {invert : Bool} {copy : Copying}
  {seen : Nat → TransducerTransition → Prop}

/-- The states of the map are copies, with the transitions seen so far. -/
structure Copied (ta : TransducerAutomaton) (invert : Bool)
    (seen : Nat → TransducerTransition → Prop) (copy : Copying) : Prop where
  injective : ∀ {left right ts}, copy.idMap left = some ts →
    copy.idMap right = some ts → left = right
  accept : ∀ {sid ts}, copy.idMap sid = some ts →
    (copy.ret.state ts).accept = (ta.state sid).accept
  transitions : ∀ {sid ts}, copy.idMap sid = some ts → ∀ new,
    new ∈ (copy.ret.state ts).transitions ↔
      ∃ t, seen sid t ∧ new.pair = copyPair invert t.pair ∧
        copy.idMap t.dest = some new.dest
  source : ∀ {sid t}, seen sid t → ∃ ts, copy.idMap sid = some ts
  target : ∀ {sid t}, seen sid t → ∃ ts, copy.idMap t.dest = some ts

/-- The map only grows. -/
def Copying.Grows (copy later : Copying) : Prop :=
  ∀ sid ts, copy.idMap sid = some ts → later.idMap sid = some ts

theorem Copying.get_eq {sid ts : Nat} (mapped : copy.idMap sid = some ts) :
    copy.get sid = ts := by
  rw [Copying.get, mapped, Option.getD_some]

theorem Copying.newState_idMap {sid other ts : Nat} {accept : Bool}
    (new : copy.idMap sid = none) :
    (copy.newState sid accept).idMap other = some ts ↔
      other = sid ∧ ts = copy.ret.states.length ∨
        copy.idMap other = some ts := by
  change Function.update copy.idMap sid _ other = some ts ↔ _
  by_cases same : other = sid
  · subst same
    rw [Function.update_self, new]
    simp [eq_comm]
  · rw [Function.update_of_ne same]
    simp [same]

theorem Copying.grows_newState {sid : Nat} {accept : Bool}
    (new : copy.idMap sid = none) : copy.Grows (copy.newState sid accept) :=
  fun _ _ mapped => (newState_idMap new).mpr (Or.inr mapped)

/-- A fresh copy of a state has no transitions yet. -/
theorem Copied.newState (copied : Copied ta invert seen copy) {sid : Nat}
    (new : copy.idMap sid = none) :
    Copied ta invert seen (copy.newState sid (ta.state sid).accept) := by
  have unseen : ∀ t, ¬ seen sid t := by
    intro t isSeen
    rcases copied.source isSeen with ⟨ts, mapped⟩
    exact absurd (new.symm.trans mapped) (Option.some_ne_none ts).symm
  exact
    { injective := by
        intro left right ts isLeft isRight
        rw [Copying.newState_idMap new] at isLeft isRight
        rcases isLeft with ⟨rfl, rfl⟩ | oldLeft
        · rcases isRight with ⟨rfl, _⟩ | oldRight
          · rfl
          · exact absurd (copy.idMap_lt oldRight) (lt_irrefl _)
        · rcases isRight with ⟨rfl, rfl⟩ | oldRight
          · exact absurd (copy.idMap_lt oldLeft) (lt_irrefl _)
          · exact copied.injective oldLeft oldRight
      accept := by
        intro other ts mapped
        rcases (Copying.newState_idMap new).mp mapped with ⟨rfl, rfl⟩ | old
        · have fresh : (copy.newState other (ta.state other).accept).ret.state
              copy.ret.states.length = ⟨(ta.state other).accept, []⟩ :=
            TransducerHeap.state_append_length
          rw [fresh]
        · rw [← copied.accept old]
          exact congrArg TransducerState.accept
            (TransducerHeap.state_append_lt (copy.idMap_lt old))
      transitions := by
        intro other ts mapped transition
        rcases (Copying.newState_idMap new).mp mapped with ⟨rfl, rfl⟩ | old
        · have fresh : (copy.newState other (ta.state other).accept).ret.state
              copy.ret.states.length = ⟨(ta.state other).accept, []⟩ :=
            TransducerHeap.state_append_length
          rw [fresh]
          refine iff_of_false List.not_mem_nil ?_
          rintro ⟨t, isSeen, _⟩
          exact unseen t isSeen
        · have same : ((copy.newState sid (ta.state sid).accept).ret.state
              ts).transitions = (copy.ret.state ts).transitions :=
            congrArg TransducerState.transitions
              (TransducerHeap.state_append_lt (copy.idMap_lt old))
          rw [same, copied.transitions old]
          refine exists_congr fun t => and_congr_right fun isSeen =>
            and_congr_right fun _ => ?_
          rcases copied.target isSeen with ⟨target, isTarget⟩
          rw [Copying.newState_idMap new]
          refine ⟨Or.inr, ?_⟩
          rintro (⟨isNew, _⟩ | known)
          · rw [isNew, new] at isTarget
            exact absurd isTarget (Option.some_ne_none target).symm
          · exact known
      source := by
        intro other t isSeen
        exact (copied.source isSeen).imp fun _ => Copying.grows_newState new _ _
      target := by
        intro other t isSeen
        exact (copied.target isSeen).imp fun _ => Copying.grows_newState new _ _ }

theorem Copied.enter (copied : Copied ta invert seen copy) (sid : Nat) :
    Copied ta invert seen (copy.enter sid (ta.state sid).accept) := by
  rw [Copying.enter]
  split_ifs with new
  · exact copied.newState new
  · exact copied

theorem Copying.enter_self (sid : Nat) (accept : Bool) :
    ∃ ts, (copy.enter sid accept).idMap sid = some ts := by
  rw [Copying.enter]
  split_ifs with new
  · exact ⟨_, (newState_idMap new).mpr (Or.inl ⟨rfl, rfl⟩)⟩
  · exact Option.ne_none_iff_exists'.mp new

theorem Copying.grows_enter (sid : Nat) (accept : Bool) :
    copy.Grows (copy.enter sid accept) := by
  rw [Copying.enter]
  split_ifs with new
  · exact grows_newState new
  · exact fun _ _ => id

/-- One more transition of a copied state was seen. -/
theorem Copied.addTransition (copied : Copied ta invert seen copy)
    {sid ts : Nat} (mapped : copy.idMap sid = some ts)
    {t : TransducerTransition} {target : Nat}
    (isTarget : copy.idMap t.dest = some target) :
    Copied ta invert (fun other new => seen other new ∨ other = sid ∧ new = t)
      (copy.addTransition ts (copyPair invert t.pair) t.dest) := by
  have state : ∀ other,
      (copy.addTransition ts (copyPair invert t.pair) t.dest).ret.state other =
        if ts = other then
          { copy.ret.state ts with
            transitions := (copy.ret.state ts).transitions ++
              [⟨copyPair invert t.pair, target⟩] }
        else copy.ret.state other := by
    intro other
    rw [← Copying.get_eq isTarget]
    exact TransducerHeap.state_addTransition (copy.idMap_lt mapped)
  refine ⟨copied.injective, ?_, ?_, ?_, ?_⟩
  · intro other otherTs otherMapped
    rw [state, ← copied.accept otherMapped]
    split_ifs with same
    · rw [same]
    · rfl
  · intro other otherTs otherMapped new
    rw [state]
    by_cases same : ts = otherTs
    · subst same
      rcases copied.injective mapped otherMapped with rfl
      rw [if_pos rfl, List.mem_append, List.mem_singleton,
        copied.transitions mapped]
      constructor
      · rintro (⟨old, isSeen, isPair, isDest⟩ | rfl)
        · exact ⟨old, Or.inl isSeen, isPair, isDest⟩
        · exact ⟨t, Or.inr ⟨rfl, rfl⟩, rfl, isTarget⟩
      · rintro ⟨old, isSeen | ⟨_, rfl⟩, isPair, isDest⟩
        · exact Or.inl ⟨old, isSeen, isPair, isDest⟩
        · have isNew := Option.some.inj (isDest.symm.trans isTarget)
          rcases new with ⟨pair, dest⟩
          exact Or.inr (by rw [← isNew, ← isPair])
    · rw [if_neg same, copied.transitions otherMapped]
      refine exists_congr fun old => and_congr_left fun _ => ?_
      refine ⟨Or.inl, ?_⟩
      rintro (isSeen | ⟨rfl, _⟩)
      · exact isSeen
      · exact absurd (Option.some.inj (mapped.symm.trans otherMapped)) same
  · rintro other new (isSeen | ⟨rfl, rfl⟩)
    · exact copied.source isSeen
    · exact ⟨ts, mapped⟩
  · rintro other new (isSeen | ⟨rfl, rfl⟩)
    · exact copied.target isSeen
    · exact ⟨target, isTarget⟩

theorem Copied.transition (copied : Copied ta invert seen copy)
    {sid ts : Nat} (mapped : copy.idMap sid = some ts)
    (t : TransducerTransition) :
    Copied ta invert (fun other new => seen other new ∨ other = sid ∧ new = t)
        (copyTransition ta invert ts copy t) ∧
      copy.Grows (copyTransition ta invert ts copy t) ∧
        (copyTransition ta invert ts copy t).ret.initial = copy.ret.initial := by
  have grows := copy.grows_enter t.dest (ta.state t.dest).accept
  rcases copy.enter_self t.dest (ta.state t.dest).accept with ⟨target, isTarget⟩
  refine ⟨(copied.enter t.dest).addTransition (grows _ _ mapped) isTarget,
    grows, ?_⟩
  change (copy.enter t.dest _).ret.initial = _
  rw [Copying.enter]
  split_ifs <;> rfl

/-- The transitions of a copied state were seen. -/
theorem Copied.foldl_transitions (copied : Copied ta invert seen copy)
    {sid ts : Nat} (mapped : copy.idMap sid = some ts)
    (list : List TransducerTransition) :
    Copied ta invert (fun other new => seen other new ∨ other = sid ∧ new ∈ list)
        (list.foldl (copyTransition ta invert ts) copy) ∧
      copy.Grows
        (list.foldl (copyTransition ta invert ts) copy) ∧
      (list.foldl (copyTransition ta invert ts)
        copy).ret.initial = copy.ret.initial := by
  induction list generalizing seen copy with
  | nil =>
      refine ⟨?_, fun _ _ => id, rfl⟩
      simpa using copied
  | cons t list induction =>
      rcases copied.transition mapped t with ⟨head, headGrows, headInitial⟩
      rcases induction head (headGrows _ _ mapped) with ⟨tail, tailGrows, tailInitial⟩
      refine ⟨?_, fun _ _ known => tailGrows _ _ (headGrows _ _ known),
        tailInitial.trans headInitial⟩
      simpa [or_assoc, and_or_left] using tail

/-- The transitions of the states in a list. -/
def SeenFrom (ta : TransducerAutomaton) (done : List Nat) (sid : Nat)
    (t : TransducerTransition) : Prop :=
  sid ∈ done ∧ t ∈ (ta.state sid).transitions

/-- What the iterations keep: the states expanded so far are copied with all
their transitions, and the first one is the initial state. -/
structure CopiedFrom (ta : TransducerAutomaton) (invert : Bool)
    (done : List Nat) (copy : Copying) : Prop where
  copied : Copied ta invert (SeenFrom ta done) copy
  empty : done = [] → copy = Copying.start
  initial : done ≠ [] → copy.idMap ta.initial = some copy.ret.initial

theorem copiedFrom_start : CopiedFrom ta invert [] Copying.start where
  copied :=
    { injective := fun mapped => absurd mapped (Option.some_ne_none _).symm
      accept := fun mapped => absurd mapped (Option.some_ne_none _).symm
      transitions := fun mapped => absurd mapped (Option.some_ne_none _).symm
      source := fun isSeen => absurd isSeen.1 List.not_mem_nil
      target := fun isSeen => absurd isSeen.1 List.not_mem_nil }
  empty := fun _ => rfl
  initial := fun some => absurd rfl some

theorem seenFrom_append {done : List Nat} {sid : Nat} :
    SeenFrom ta (done ++ [sid]) =
      fun other t => SeenFrom ta done other t ∨
        other = sid ∧ t ∈ (ta.state sid).transitions := by
  funext other t
  rw [SeenFrom, SeenFrom, List.mem_append, List.mem_singleton, or_and_right]
  refine propext (or_congr Iff.rfl (and_congr_right fun same => ?_))
  rw [same]

/-- The state of an iteration is in the map before its transitions are copied. -/
theorem CopiedFrom.enter {done : List Nat} {sid : Nat}
    (before : CopiedFrom ta invert done copy)
    (first : done = [] ↔ sid = ta.initial) {entered : Copying}
    (isEntered : entered =
      if sid = ta.initial then
        (copy.newState sid (ta.state sid).accept).setInitialState sid
      else copy.enter sid (ta.state sid).accept) :
    Copied ta invert (SeenFrom ta done) entered ∧
      (∃ ts, entered.idMap sid = some ts) ∧
        entered.idMap ta.initial = some entered.ret.initial := by
  subst isEntered
  by_cases isInitial : sid = ta.initial
  · rw [if_pos isInitial]
    have isStart := before.empty (first.mpr isInitial)
    have new : copy.idMap sid = none := by
      rw [isStart]
      rfl
    have mapped : (copy.newState sid (ta.state sid).accept).idMap sid =
        some copy.ret.states.length :=
      (Copying.newState_idMap new).mpr (Or.inl ⟨rfl, rfl⟩)
    have copied := before.copied.newState new
    refine ⟨⟨copied.injective, copied.accept, copied.transitions,
      copied.source, copied.target⟩, ⟨_, mapped⟩, ?_⟩
    rw [← isInitial]
    exact mapped.trans (congrArg some (Copying.get_eq mapped).symm)
  · rw [if_neg isInitial]
    refine ⟨before.copied.enter sid, copy.enter_self sid _, ?_⟩
    have known := copy.grows_enter sid (ta.state sid).accept _ _
      (before.initial (first.not.mpr isInitial))
    rw [known, Copying.enter]
    split_ifs <;> rfl

theorem CopiedFrom.step {done : List Nat} {sid : Nat}
    (before : CopiedFrom ta invert done copy)
    (first : done = [] ↔ sid = ta.initial) :
    CopiedFrom ta invert (done ++ [sid]) (copyState ta invert copy sid) := by
  rcases before.enter first rfl with ⟨copied, ⟨ts, mapped⟩, initial⟩
  rcases copied.foldl_transitions mapped (ta.state sid).transitions with
    ⟨after, grows, sameInitial⟩
  rw [← Copying.get_eq mapped] at after grows sameInitial
  refine ⟨?_, fun none => absurd none (by simp), fun _ => ?_⟩
  · rw [seenFrom_append]
    exact after
  · have known := grows _ _ initial
    rw [← sameInitial] at known
    exact known

theorem successors_lt {sid next : Nat} (edge : next ∈ ta.successors sid) :
    next < ta.states.length := by
  rcases List.mem_map.mp edge with ⟨t, member, rfl⟩
  exact ta.closed.transition_lt member

/-- The states that the initial one reaches. -/
abbrev TransducerAutomaton.Reaches (ta : TransducerAutomaton) (sid : Nat) :
    Prop :=
  Relation.ReflTransGen (Edge ta.successors) ta.initial sid

/-- A complete copy: the states that the initial one reaches are copied. -/
structure CopiedAll (ta : TransducerAutomaton) (invert : Bool)
    (copy : Copying) : Prop where
  copied : Copied ta invert
    (fun sid t => ta.Reaches sid ∧ t ∈ (ta.state sid).transitions) copy
  initial : copy.idMap ta.initial = some copy.ret.initial

theorem CopiedFrom.all {done : List Nat} (spec : CopiedFrom ta invert done copy)
    (reached : ∀ sid, sid ∈ done ↔ ta.Reaches sid) :
    CopiedAll ta invert copy := by
  have some : done ≠ [] := List.ne_nil_of_mem
    ((reached ta.initial).mpr Relation.ReflTransGen.refl)
  have seen : SeenFrom ta done = fun sid t =>
      ta.Reaches sid ∧ t ∈ (ta.state sid).transitions := by
    funext sid t
    rw [SeenFrom, reached]
  exact ⟨seen ▸ spec.copied, spec.initial some⟩

/-- The copy ends, and the states that the initial one reaches are copied. -/
theorem deepcopy_spec (ta : TransducerAutomaton) (invert : Bool) :
    ∃ copy, deepcopy ta invert = some copy.ret ∧ CopiedAll ta invert copy := by
  have closed : ∀ sid ∈ Finset.range ta.states.length,
      ∀ next ∈ ta.successors sid, next ∈ Finset.range ta.states.length :=
    fun _ _ _ edge => Finset.mem_range.mpr (successors_lt edge)
  rcases exploreWith_spec (P := CopiedFrom ta invert)
      (fun _ _ _ first _ _ before => before.step first) closed
      (Finset.mem_range.mpr ta.initial_lt) (Finset.card_range _).le
      copiedFrom_start with ⟨done, copy, returns, spec, reached⟩
  exact ⟨copy, by rw [deepcopy, returns]; rfl, spec.all reached⟩

end Copied

/-! ## The relation of a copy -/

section Relation

variable {ta ret : TransducerAutomaton} {invert : Bool} {copy : Copying}

theorem TransducerAutomaton.Reaches.step {sid next : Nat}
    {pair : TransducerPair} (reaches : ta.Reaches sid)
    (step : ta.states.Step sid pair next) : ta.Reaches next :=
  reaches.tail (List.mem_map.mpr ⟨_, step, rfl⟩)

/-- The paths of the copy are the copies of the paths. -/
theorem Copied.path_iff
    (copied : Copied ta invert
      (fun sid t => ta.Reaches sid ∧ t ∈ (ta.state sid).transitions) copy)
    {sid ts last : Nat} {labels : List TransducerPair}
    (reaches : ta.Reaches sid) (mapped : copy.idMap sid = some ts) :
    Path copy.ret.states.Step ts labels last ↔
      ∃ pairs target, Path ta.states.Step sid pairs target ∧
        pairs.map (copyPair invert) = labels ∧
          copy.idMap target = some last := by
  induction labels generalizing sid ts with
  | nil =>
      constructor
      · intro path
        rcases Path.nil_iff.mp path with rfl
        exact ⟨[], sid, Path.nil _, rfl, mapped⟩
      · rintro ⟨pairs, target, path, isNil, isLast⟩
        rcases List.map_eq_nil_iff.mp isNil with rfl
        rcases Path.nil_iff.mp path with rfl
        rcases Option.some.inj (mapped.symm.trans isLast) with rfl
        exact Path.nil _
  | cons label labels induction =>
      rw [Path.cons_iff]
      constructor
      · rintro ⟨middle, head, tail⟩
        rcases (copied.transitions mapped _).mp head with
          ⟨t, ⟨_, member⟩, isLabel, isMiddle⟩
        have step : ta.states.Step sid t.pair t.dest := member
        rcases (induction (reaches.step step) isMiddle).mp tail with
          ⟨pairs, target, path, same, isLast⟩
        exact ⟨t.pair :: pairs, target, Path.cons step path,
          by rw [List.map_cons, same, ← isLabel], isLast⟩
      · rintro ⟨pairs, target, path, same, isLast⟩
        cases path with
        | nil => exact absurd same.symm (List.cons_ne_nil _ _)
        | @cons _ next _ pair pairs head tail =>
            rcases List.cons.inj same with ⟨rfl, rest⟩
            have seen : ta.Reaches sid ∧
                ⟨pair, next⟩ ∈ (ta.state sid).transitions := ⟨reaches, head⟩
            rcases copied.target seen with ⟨middle, isMiddle⟩
            refine ⟨middle, ?_, (induction (reaches.step head) isMiddle).mpr
              ⟨pairs, target, tail, rest, isLast⟩⟩
            exact (copied.transitions mapped ⟨_, middle⟩).mpr
              ⟨⟨pair, next⟩, seen, rfl, isMiddle⟩

/-- A complete copy spells the copies of the pairs that the transducer spells. -/
theorem CopiedAll.rel_iff (all : CopiedAll ta invert copy) {u v : Word} :
    copy.ret.Rel u v ↔
      ∃ pairs target, Path ta.states.Step ta.initial pairs target ∧
        (ta.state target).accept = true ∧
          erase (pairs.map fun pair => (copyPair invert pair).u) = u ∧
            erase (pairs.map fun pair => (copyPair invert pair).v) = v := by
  rcases all with ⟨copied, initial⟩
  constructor
  · rintro ⟨labels, last, path, accept, rfl, rfl⟩
    rcases (copied.path_iff Relation.ReflTransGen.refl initial).mp path with
      ⟨pairs, target, original, rfl, isLast⟩
    rw [copied.accept isLast] at accept
    refine ⟨pairs, target, original, accept, ?_, ?_⟩
    · rw [List.map_map]
      rfl
    · rw [List.map_map]
      rfl
  · rintro ⟨pairs, target, path, accept, rfl, rfl⟩
    have reaches : ∀ {source last : Nat} {labels : List TransducerPair},
        ta.Reaches source → (∃ ts, copy.idMap source = some ts) →
          Path ta.states.Step source labels last →
            ∃ ts, copy.idMap last = some ts := by
      intro source last labels reaches mapped path
      induction path with
      | nil => exact mapped
      | @cons source next _ pair _ head _ induction =>
          have seen : ta.Reaches source ∧
              ⟨pair, next⟩ ∈ (ta.state source).transitions := ⟨reaches, head⟩
          exact induction (reaches.step head) (copied.target seen)
    rcases reaches Relation.ReflTransGen.refl ⟨_, initial⟩ path with ⟨last, isLast⟩
    refine ⟨pairs.map (copyPair invert), last,
      (copied.path_iff Relation.ReflTransGen.refl initial).mpr
        ⟨pairs, target, path, rfl, isLast⟩,
      (copied.accept isLast).trans accept, ?_, ?_⟩
    · rw [List.map_map]
      rfl
    · rw [List.map_map]
      rfl

theorem deepcopy_acceptsFrom (returns : deepcopy ta invert = some ret)
    {u v : Word} :
    ret.Rel u v ↔ ∃ pairs target, Path ta.states.Step ta.initial pairs target ∧
      (ta.state target).accept = true ∧
        erase (pairs.map fun pair => (copyPair invert pair).u) = u ∧
          erase (pairs.map fun pair => (copyPair invert pair).v) = v := by
  rcases deepcopy_spec ta invert with ⟨copy, copies, all⟩
  rcases Option.some.inj (copies.symm.trans returns) with rfl
  exact all.rel_iff

/-- `invert` swaps the components of the relation. -/
theorem TransducerAutomaton.invert_rel_iff {inverse : TransducerAutomaton}
    (returns : ta.invert = some inverse) {u v : Word} :
    inverse.Rel v u ↔ ta.Rel u v := by
  rw [deepcopy_acceptsFrom returns]
  exact exists_congr fun pairs => exists_congr fun target =>
    and_congr_right fun _ => and_congr_right fun _ => and_comm

/-- `copy` keeps the relation. -/
theorem TransducerAutomaton.copy_rel_iff {copied : TransducerAutomaton}
    (returns : ta.copy = some copied) {u v : Word} :
    copied.Rel u v ↔ ta.Rel u v :=
  deepcopy_acceptsFrom returns

end Relation

end SafetyGames.Transducer
