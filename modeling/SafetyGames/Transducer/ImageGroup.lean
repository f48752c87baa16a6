import SafetyGames.Transducer.ImageShape
import Mathlib.Data.Set.Insert

/-!
# Groups of calls

`imageRec` makes many calls for one built state.  A `Group` bounds these calls
from the machines alone: it starts with the calls that one letter leads to and
is closed under the moves that keep the built state.  The notion is stated for
any relation labelled by branches, because it is used on product states, where
the conditions on languages live, and on calls, where the order of the moves
is known.
-/

namespace SafetyGames.Transducer

section Group

variable {σ : Type*} (step : σ → Branch → σ → Prop)

/-- The closure of a set under the moves that keep the built state. -/
inductive Near (entry : Set σ) : σ → Prop where
  | entry {call : σ} (member : call ∈ entry) : Near entry call
  | silent {call next : σ} (near : Near entry call)
      (move : step call .silent next) : Near entry next
  | loop {call next : σ} {v : JChar} (near : Near entry call)
      (move : step call (.loop v) next) : Near entry next
  /-- An epsilon move on the letter of a self-loop stays, too. -/
  | epsilon {call next looping after : σ} {v : JChar}
      (near : Near entry call) (move : step call (.epsilon v) next)
      (nearLooping : Near entry looping)
      (loop : step looping (.loop v) after) : Near entry next

/-- The calls that epsilon moves on a letter lead to. -/
def epsilonEntries (group : Set σ) (v : JChar) : Set σ :=
  {next | ∃ call ∈ group, step call (.epsilon v) next}

/-- The sets of calls that can share a built state. -/
inductive Group (initial : σ) : Set σ → Prop where
  | initial : Group initial {call | Near step {initial} call}
  | emit {group : Set σ} {call next : σ} {v : JChar}
      (known : Group initial group) (member : call ∈ group)
      (move : step call (.emit v) next) :
      Group initial
        {other | Near step (insert next (epsilonEntries step group v)) other}
  | epsilon {group : Set σ} (v : JChar) (known : Group initial group) :
      Group initial {other | Near step (epsilonEntries step group v) other}

variable {step}

/-- A group is the closure of some set. -/
theorem Group.exists_entry {initial : σ} {group : Set σ}
    (known : Group step initial group) :
    ∃ entry : Set σ, group = {call | Near step entry call} := by
  cases known with
  | initial => exact ⟨_, rfl⟩
  | emit => exact ⟨_, rfl⟩
  | epsilon => exact ⟨_, rfl⟩

/-- A property that every move keeps holds in every group. -/
theorem Group.invariant {initial : σ} (property : σ → Prop)
    (keep : ∀ call branch next,
      property call → step call branch next → property next)
    (start : property initial) {group : Set σ}
    (known : Group step initial group) :
    ∀ call ∈ group, property call := by
  have closure : ∀ entry : Set σ, (∀ call ∈ entry, property call) →
      ∀ call, Near step entry call → property call := by
    intro entry entries call near
    induction near with
    | entry member => exact entries _ member
    | silent _ move induction => exact keep _ _ _ induction move
    | loop _ move induction => exact keep _ _ _ induction move
    | epsilon _ move _ _ induction _ => exact keep _ _ _ induction move
  induction known with
  | initial =>
      refine closure _ ?_
      rintro call rfl
      exact start
  | emit _ member move induction =>
      refine closure _ ?_
      rintro call (rfl | ⟨other, inGroup, epsilonMove⟩)
      · exact keep _ _ _ (induction _ member) move
      · exact keep _ _ _ (induction _ inGroup) epsilonMove
  | epsilon v _ induction =>
      refine closure _ ?_
      rintro call ⟨other, inGroup, epsilonMove⟩
      exact keep _ _ _ (induction _ inGroup) epsilonMove

section Closure

variable {initial : σ} {group : Set σ} {call next : σ} {v : JChar}

theorem Group.silent_mem (known : Group step initial group)
    (member : call ∈ group) (move : step call .silent next) :
    next ∈ group := by
  rcases known.exists_entry with ⟨entry, rfl⟩
  exact Near.silent member move

theorem Group.loop_mem (known : Group step initial group)
    (member : call ∈ group) (move : step call (.loop v) next) :
    next ∈ group := by
  rcases known.exists_entry with ⟨entry, rfl⟩
  exact Near.loop member move

theorem Group.epsilon_mem (known : Group step initial group)
    (member : call ∈ group) (move : step call (.epsilon v) next)
    {looping after : σ} (inGroup : looping ∈ group)
    (loop : step looping (.loop v) after) :
    next ∈ group := by
  rcases known.exists_entry with ⟨entry, rfl⟩
  exact Near.epsilon member move inGroup loop

end Closure

end Group

/-! ## The moves of product states and of calls -/

section Steps

variable (order : HashOrder) (a : Automaton) (ta : TransducerAutomaton)

/-- The moves between product states. -/
def productStep (state : ProductState) (branch : Branch)
    (next : ProductState) : Prop :=
  IsMove a ta state ⟨branch, next⟩

/-- A view of calls that keeps their moves. -/
structure View (σ : Type*) where
  step : σ → Branch → σ → Prop
  view : Call → σ
  keeps : ∀ call index move,
    (moves order a ta call.state)[index]? = some move →
      step (view call) move.branch (view (call.child index move))

/-- A call seen as its product state. -/
def stateView : View order a ta ProductState where
  step := productStep a ta
  view := Call.state
  keeps := fun _ _ _ position => mem_moves.mp (List.mem_of_getElem? position)

end Steps

/-! ## Every built state has a group -/

section Grouping

variable {order : HashOrder} {a : Automaton} {ta : TransducerAutomaton}
variable {σ : Type*} (views : View order a ta σ)

/-- An assignment of groups to the states that a trace has built. -/
structure Grouping (heap : Heap) (trace : Trace)
    (group : Nat → Set σ) : Prop where
  known : ∀ {call node}, Placed a ta trace call node →
    Group views.step (views.view (Call.initial a ta)) (group node)
  placed : ∀ {call node}, Placed a ta trace call node →
    views.view call ∈ group node
  /-- The group of a successor also has what epsilon moves add to it later. -/
  successor : ∀ {node target v},
    Transition.single v target ∈ (heap.state node).transitions →
      target ≠ node →
        epsilonEntries views.step (group node) v ⊆ group target

variable {views}

/-- The group of a new successor. -/
theorem Group.exists_successor {step : σ → Branch → σ → Prop} {initial : σ}
    {group : Set σ} {call next : σ} {branch : Branch} {v : JChar}
    (known : Group step initial group) (member : call ∈ group)
    (move : step call branch next)
    (isEntry : branch = .emit v ∨ branch = .epsilon v) :
    ∃ child, Group step initial child ∧ next ∈ child ∧
      epsilonEntries step group v ⊆ child := by
  rcases isEntry with rfl | rfl
  · refine ⟨_, Group.emit known member move, Near.entry (Or.inl rfl), ?_⟩
    intro other entry
    exact Near.entry (Or.inr entry)
  · refine ⟨_, Group.epsilon v known, Near.entry ⟨call, member, move⟩, ?_⟩
    intro other entry
    exact Near.entry entry

theorem Grouping.start :
    Grouping views (place a ta newAutomaton 0 (Call.initial a ta).state) []
      (fun _ => {call | Near views.step
        {views.view (Call.initial a ta)} call}) where
  known := fun _ => Group.initial
  placed := by
    rintro call node (⟨rfl, _⟩ | ⟨event, member, _⟩)
    · exact Near.entry rfl
    · exact absurd member List.not_mem_nil
  successor := by
    intro node target v member
    have shaped : Shaped order a ta _ [] := Shaped.start
    rcases shaped.origin member with ⟨event, inTrace, _⟩
    exact absurd inTrace List.not_mem_nil

namespace Grouping

variable {heap next : Heap} {trace : Trace} {group : Nat → Set σ}
variable {call : Call} {node index target : Nat} {move : Move}

theorem cut (grouping : Grouping views heap trace group) :
    Grouping views heap (trace ++ [⟨call, index, move, node, none⟩])
      group where
  known := by
    intro other ref placed
    rcases placed_append_iff.mp placed with before | ⟨_, target⟩
    · exact grouping.known before
    · exact absurd target (Option.some_ne_none _).symm
  placed := by
    intro other ref placed
    rcases placed_append_iff.mp placed with before | ⟨_, target⟩
    · exact grouping.placed before
    · exact absurd target (Option.some_ne_none _).symm
  successor := grouping.successor

/-- A move to a state that is there already keeps the groups. -/
theorem enter_old (grouping : Grouping views heap trace group)
    (placed : Placed a ta trace call node)
    (entered : Entered heap node move.branch next target)
    (targetKnown : Group views.step (views.view (Call.initial a ta))
      (group target))
    (inside : views.view (call.child index move) ∈ group target)
    (repeated : ∀ v, move.branch.letter = some v → target ≠ node →
      Transition.single v target ∈ (heap.state node).transitions) :
    Grouping views (place a ta next target move.dest)
      (trace ++ [⟨call, index, move, node, some target⟩]) group where
  known := by
    intro other ref otherPlaced
    rcases placed_append_iff.mp otherPlaced with before | ⟨_, isTarget⟩
    · exact grouping.known before
    · exact Option.some.inj isTarget ▸ targetKnown
  placed := by
    intro other ref otherPlaced
    rcases placed_append_iff.mp otherPlaced with before | ⟨rfl, isTarget⟩
    · exact grouping.placed before
    · exact Option.some.inj isTarget ▸ inside
  successor := by
    intro ref other v member different
    rw [place_transitions, entered.mem_transitions] at member
    rcases member with before | ⟨rfl, w, letter, equal⟩
    · exact grouping.successor before different
    · rcases Transition.single_inj equal with ⟨rfl, rfl⟩
      exact grouping.successor (repeated v letter different) different

/-- A move to a new state gives it a group of its own. -/
theorem enter_new (grouping : Grouping views heap trace group)
    (shaped : Shaped order a ta heap trace)
    (placed : Placed a ta trace call node)
    (entered : Entered heap node move.branch next heap.length)
    {child : Set σ} {v : JChar}
    (letter : move.branch.letter = some v)
    (childKnown : Group views.step (views.view (Call.initial a ta)) child)
    (inside : views.view (call.child index move) ∈ child)
    (entries : epsilonEntries views.step (group node) v ⊆ child) :
    Grouping views (place a ta next heap.length move.dest)
      (trace ++ [⟨call, index, move, node, some heap.length⟩])
      (Function.update group heap.length child) := by
  have nodeOld : node ≠ heap.length :=
    Nat.ne_of_lt (shaped.placed_lt placed)
  have placedOld : ∀ {other ref}, Placed a ta trace other ref →
      ref ≠ heap.length :=
    fun before => Nat.ne_of_lt (shaped.placed_lt before)
  refine ⟨?_, ?_, ?_⟩
  · intro other ref otherPlaced
    rcases placed_append_iff.mp otherPlaced with before | ⟨_, isTarget⟩
    · rw [Function.update_of_ne (placedOld before)]
      exact grouping.known before
    · rw [← Option.some.inj isTarget, Function.update_self]
      exact childKnown
  · intro other ref otherPlaced
    rcases placed_append_iff.mp otherPlaced with before | ⟨rfl, isTarget⟩
    · rw [Function.update_of_ne (placedOld before)]
      exact grouping.placed before
    · rw [← Option.some.inj isTarget, Function.update_self]
      exact inside
  · intro ref other w member different
    rw [place_transitions, entered.mem_transitions] at member
    rcases member with before | ⟨rfl, u, isLetter, equal⟩
    · rcases shaped.origin before with ⟨event, inTrace, rfl, _⟩
      have otherOld : other ≠ heap.length :=
        Nat.ne_of_lt (shaped.dest_lt before)
      rw [Function.update_of_ne
          (placedOld (shaped.event_placed event inTrace)),
        Function.update_of_ne otherOld]
      exact grouping.successor before different
    · rcases Transition.single_inj equal with ⟨rfl, rfl⟩
      obtain rfl : w = v := Option.some.inj (isLetter.symm.trans letter)
      rw [Function.update_of_ne nodeOld, Function.update_self]
      exact entries

/-- Every move keeps the groups of the old states. -/
theorem enter (grouping : Grouping views heap trace group)
    (shaped : Shaped order a ta heap trace)
    (placed : Placed a ta trace call node)
    (position : (moves order a ta call.state)[index]? = some move)
    (entered : Entered heap node move.branch next target) :
    ∃ extended, Grouping views (place a ta next target move.dest)
      (trace ++ [⟨call, index, move, node, some target⟩]) extended := by
  have known := grouping.known placed
  have member := grouping.placed placed
  have keeps := views.keeps call index move position
  rcases entered.target_spec with ⟨rfl, stays⟩ | ⟨rfl, _, isEntry⟩ |
    ⟨v, branch, transition, inHeap, reads, rfl⟩
  · refine ⟨group, grouping.enter_old placed entered known ?_
      (fun _ _ different => absurd rfl different)⟩
    rcases stays with branch | ⟨v, branch⟩
    · exact known.silent_mem member (branch ▸ keeps)
    · exact known.loop_mem member (branch ▸ keeps)
  · have letter : ∃ v, move.branch.letter = some v ∧
        (move.branch = .emit v ∨ move.branch = .epsilon v) := by
      rcases isEntry with ⟨v, branch⟩ | ⟨v, branch, _⟩
      · exact ⟨v, by rw [branch]; rfl, Or.inl branch⟩
      · exact ⟨v, by rw [branch]; rfl, Or.inr branch⟩
    rcases letter with ⟨v, isLetter, isBranch⟩
    rcases known.exists_successor member keeps isBranch with
      ⟨child, childKnown, inside, entries⟩
    exact ⟨_, grouping.enter_new shaped placed entered isLetter childKnown
      inside entries⟩
  · have single : Transition.single v transition.dest ∈
        (heap.state node).transitions := by
      rcases shaped.origin inHeap with ⟨_, _, _, _, _, equal⟩
      rw [reads] at equal
      exact equal ▸ inHeap
    refine ⟨group, grouping.enter_old placed entered ?_ ?_ ?_⟩
    · rcases shaped.origin inHeap with ⟨event, inTrace, _, isTarget, _⟩
      exact grouping.known (Or.inr ⟨event, inTrace, rfl, isTarget⟩)
    · by_cases same : transition.dest = node
      · rw [same] at single ⊢
        rcases shaped.loop_origin single with
          ⟨event, inTrace, isNode, isTarget, isLoop⟩
        have eventPlaced := shaped.event_placed event inTrace
        have loopKeeps := views.keeps _ _ _ (shaped.position event inTrace)
        rw [isNode] at eventPlaced
        rw [branch] at keeps
        rw [isLoop] at loopKeeps
        exact known.epsilon_mem member keeps
          (grouping.placed eventPlaced) loopKeeps
      · refine grouping.successor single same ⟨_, member, ?_⟩
        exact branch ▸ keeps
    · intro w letter _
      rw [branch] at letter
      exact Option.some.inj letter ▸ single

end Grouping

/-- The states that a trace has built have groups. -/
theorem Built.exists_grouping {heap : Heap} {trace : Trace}
    (built : Built order a ta heap trace) (views : View order a ta σ) :
    ∃ group, Grouping views heap trace group := by
  induction built with
  | start => exact ⟨_, Grouping.start⟩
  | cut _ _ _ _ induction =>
      rcases induction with ⟨group, grouping⟩
      exact ⟨group, grouping.cut⟩
  | enter built placed position entered induction =>
      rcases induction with ⟨group, grouping⟩
      exact grouping.enter built.shaped placed position
        (enter_some (built.shaped.placed_lt placed) entered)

end Grouping

end SafetyGames.Transducer
