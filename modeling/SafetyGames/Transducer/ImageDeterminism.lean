import SafetyGames.Transducer.ImageLanguage

/-!
# Determinism of the built image

`image` hands the built automaton to `minimize()` with its `deterministic`
flag set.  Only the epsilon loop of `imageRec` looks for an existing successor
on the letter that it writes, so the flag is honest exactly when the alpha loop
never writes a letter on which its built state has a transition already.
-/

namespace SafetyGames.Transducer

open SafetyGames.LabelledPath

/-- No alpha move that is made, and not cut, writes a letter on which the state
that is being built already has a transition. -/
def FreshLetters (order : HashOrder) (a : Automaton)
    (ta : TransducerAutomaton) : Prop :=
  ∀ frame move before next target v, Called order a ta frame →
    Makes order a ta frame move before →
      enter order before frame.node move.branch = some (next, target) →
        move.branch = .emit v ∨ move.branch = .loop v →
          ∀ dest, Transition.single v dest ∉
            (before.state frame.node).transitions

section Determinism

variable {order : HashOrder} {a : Automaton} {ta : TransducerAutomaton}

/-- No state of the heap has two successors on a letter. -/
def OneSuccessor (heap : Heap) : Prop :=
  ∀ node v left right,
    Transition.single v left ∈ (heap.state node).transitions →
    Transition.single v right ∈ (heap.state node).transitions →
      left = right

/-- A move whose letter is written already leads to the successor on the letter:
an epsilon move, since it looks for one. -/
theorem FreshLetters.target_eq (fresh : FreshLetters order a ta)
    {frame : Frame} {move : Move} {before next : Heap} {target known : Nat}
    {v : JChar} (called : Called order a ta frame)
    (makes : Makes order a ta frame move before)
    (entered : enter order before frame.node move.branch = some (next, target))
    (one : OneSuccessor before) (letter : move.branch.letter = some v)
    (present : Transition.single v known ∈
      (before.state frame.node).transitions) :
    known = target := by
  have plain := plain_kept.makes called makes
  have spec := enter_some (makes.inside called) entered
  cases branch : move.branch with
  | silent => simp [branch, Branch.letter] at letter
  | loop w =>
      rw [branch] at letter
      rcases Option.some.inj letter with rfl
      exact absurd present
        (fresh _ _ _ _ _ w called makes entered (Or.inr branch) known)
  | emit w =>
      rw [branch] at letter
      rcases Option.some.inj letter with rfl
      exact absurd present
        (fresh _ _ _ _ _ w called makes entered (Or.inl branch) known)
  | epsilon w =>
      rw [branch] at letter
      rcases Option.some.inj letter with rfl
      rcases spec.target_spec with ⟨_, silent | ⟨u, loop⟩⟩ |
        ⟨_, _, ⟨u, emit⟩ | ⟨u, epsilon, none⟩⟩ |
          ⟨u, epsilon, transition, member, reads, rfl⟩
      · exact Branch.noConfusion (branch.symm.trans silent)
      · exact Branch.noConfusion (branch.symm.trans loop)
      · exact Branch.noConfusion (branch.symm.trans emit)
      · rcases Branch.epsilon.inj (branch.symm.trans epsilon) with rfl
        exact absurd rfl (none _ present)
      · rcases Branch.epsilon.inj (branch.symm.trans epsilon) with rfl
        have single := plain.single _ _ member
        rw [reads] at single
        exact one _ w _ _ present (single ▸ member)

/-- Fresh letters never give a state two successors on one letter. -/
theorem FreshLetters.oneSuccessor_kept (fresh : FreshLetters order a ta) :
    KeptByCalls order a ta OneSuccessor where
  start := by
    intro node v left right member
    rw [newAutomaton_transitions] at member
    exact absurd member List.not_mem_nil
  place := by
    intro heap node state one ref v left right inLeft inRight
    rw [place_transitions] at inLeft inRight
    exact one ref v left right inLeft inRight
  enter := by
    intro frame move before next target called makes entered one
    have spec := enter_some (makes.inside called) entered
    have again : ∀ v known, move.branch.letter = some v →
        Transition.single v known ∈ (before.state frame.node).transitions →
          known = target :=
      fun v known => fresh.target_eq called makes entered one
    intro ref v left right inLeft inRight
    rw [spec.mem_transitions] at inLeft inRight
    rcases inLeft with oldLeft | ⟨rfl, w, letter, equal⟩
    · rcases inRight with oldRight | ⟨rfl, w, letter, equal⟩
      · exact one ref v left right oldLeft oldRight
      · rcases Transition.single_inj equal with ⟨rfl, rfl⟩
        exact again v left letter oldLeft
    · rcases Transition.single_inj equal with ⟨rfl, rfl⟩
      rcases inRight with oldRight | ⟨_, _, _, sameEqual⟩
      · exact (again v right letter oldRight).symm
      · exact (congrArg Transition.dest sameEqual).symm

/-- On states whose transitions carry one letter, one successor a letter is
determinism. -/
theorem OneSuccessor.deterministicFrom {states : Heap} (one : OneSuccessor states)
    (plain : PlainHeap states) (source : Nat) : states.DeterministicFrom source := by
  rintro word source _ c left right
    ⟨first, inFirst, readsFirst, rfl⟩ ⟨second, inSecond, readsSecond, rfl⟩
  have singleFirst := plain.single _ _ inFirst
  have singleSecond := plain.single _ _ inSecond
  have letterFirst : c = first.min := by
    rw [singleFirst] at readsFirst
    simpa using readsFirst
  have letterSecond : c = second.min := by
    rw [singleSecond] at readsSecond
    simpa using readsSecond
  rw [← letterFirst] at singleFirst
  rw [← letterSecond] at singleSecond
  exact one source c _ _ (singleFirst ▸ inFirst) (singleSecond ▸ inSecond)

/-- An alpha move that is not cut leads to another state than the transitions
that are there. -/
theorem Called.target_ne {frame : Frame} {move : Move} {before next : Heap}
    {target dest : Nat} {v : JChar} (called : Called order a ta frame)
    (makes : Makes order a ta frame move before)
    (entered : enter order before frame.node move.branch = some (next, target))
    (alpha : move.branch = .emit v ∨ move.branch = .loop v)
    (present : Transition.single v dest ∈
      (before.state frame.node).transitions) : dest ≠ target := by
  rintro rfl
  rcases alpha with branch | branch
  · rw [branch] at entered
    rcases Prod.mk.inj (Option.some.inj entered) with ⟨_, rfl⟩
    exact lt_irrefl _ ((plain_kept.makes called makes).dest_lt _ _ present)
  · rw [branch, enter] at entered
    split_ifs at entered with cut
    rcases Prod.mk.inj (Option.some.inj entered) with ⟨_, rfl⟩
    exact cut present

/-- In a deterministic image every letter was fresh when it was written: the
state of the call is reachable, and what the move finds stays there. -/
theorem freshLetters_of_deterministic {fuel : Nat} {states : Heap}
    (builds : imageStates order a ta fuel = some states)
    (deterministic : states.DeterministicFrom 0) :
    FreshLetters order a ta := by
  intro frame move before next target v called makes entered alpha dest present
  have letter : move.branch.letter = some v := by
    rcases alpha with branch | branch <;> rw [branch] <;> rfl
  have enters : Enters order a ta frame ⟨next, target, move.dest⟩ :=
    ⟨move, before, makes, entered, rfl⟩
  have inner : Called order a ta ⟨next, target, move.dest⟩ := called.tail enters
  rcases inner.returns builds with ⟨_, result, returns, within⟩
  have grown : Extends next states := (imageRec_extends returns).trans within
  have spec := enter_some (makes.inside called) entered
  have old := grown.transitions _ _
    ((spec.mem_transitions _ _).mpr (Or.inl present))
  have new := grown.transitions _ _
    ((spec.mem_transitions frame.node _).mpr (Or.inr ⟨rfl, v, letter, rfl⟩))
  rcases called.reachable builds with ⟨word, path⟩
  have equal := deterministic word frame.node path v dest target
    ⟨_, old, by simp, rfl⟩ ⟨_, new, by simp, rfl⟩
  exact called.target_ne makes entered alpha present equal

/-- The flag of the automaton passed to `minimize()` is honest. -/
theorem FreshLetters.honestFlag (fresh : FreshLetters order a ta)
    {fuel : Nat} {states : Heap}
    (returns : imageStates order a ta fuel = some states) :
    (builtImage returns).HonestFlag := by
  intro _
  exact (fresh.oneSuccessor_kept.states returns).deterministicFrom
    (plain_kept.states returns) 0

end Determinism

/-! ## The deterministic flag of images -/

/--
The image is deterministic, as its flag says, exactly when the loop over the
letters never writes one on which its built state has a transition already.
-/
theorem imageRec_deterministic_iff_freshLetters {order : HashOrder}
    {a : Automaton} {ta : TransducerAutomaton} {fuel : Nat} {states : Heap}
    (returns : imageRec order a ta fuel newAutomaton 0 a.initial ta.initial =
      some states) :
    states.DeterministicFrom 0 ↔ FreshLetters order a ta := by
  constructor
  · exact freshLetters_of_deterministic returns
  · intro fresh
    exact (fresh.oneSuccessor_kept.states returns).deterministicFrom
      (plain_kept.states returns) 0

/-- A state with a self-loop on `a` and the successor 1 on `b`. -/
def tailAutomaton : Automaton where
  states := [⟨false, [Transition.single 97 0, Transition.single 98 1]⟩,
    ⟨true, []⟩]
  initial := 0
  deterministic := true
  initial_lt := by decide
  closed := by decide

/-- `(aab, cce)`, with two transitions for the last letter. -/
def doubleTransducer : TransducerAutomaton where
  states := [⟨false, [⟨⟨97, 99⟩, 1⟩]⟩, ⟨false, [⟨⟨97, 99⟩, 2⟩]⟩,
    ⟨false, [⟨⟨98, 101⟩, 3⟩, ⟨⟨98, 101⟩, 4⟩]⟩, ⟨true, []⟩, ⟨true, []⟩]
  initial := 0
  initial_lt := by decide
  closed := by decide

/--
The second self-loop is cut, so the two transitions on `e` behind it are never
built.  The image is one state with a loop on `c`, and every letter was fresh.
-/
theorem tailAutomaton_freshLetters :
    FreshLetters .insertion tailAutomaton doubleTransducer := by
  apply (imageRec_deterministic_iff_freshLetters
    (show imageRec .insertion tailAutomaton doubleTransducer 3
      newAutomaton 0 0 0 = some [⟨false, [Transition.single 99 0]⟩] from rfl)).mp
  apply OneSuccessor.deterministicFrom
  · intro node v left right inLeft inRight
    cases node with
    | zero =>
        have isLeft := Transition.single_inj (List.mem_singleton.mp inLeft)
        have isRight := Transition.single_inj (List.mem_singleton.mp inRight)
        exact isLeft.2.trans isRight.2.symm
    | succ node =>
        rw [Heap.state_of_length_le (Nat.le_add_left 1 node)] at inLeft
        exact absurd inLeft List.not_mem_nil
  · exact plain_kept.states
      (show imageStates .insertion tailAutomaton doubleTransducer 3 = _ from rfl)

/-- A state with the successors 1 on `a` and 2 on `b`. -/
def forkAutomaton : Automaton where
  states := [⟨false, [Transition.single 97 1, Transition.single 98 2]⟩,
    ⟨true, []⟩, ⟨true, []⟩]
  initial := 0
  deterministic := true
  initial_lt := by decide
  closed := by decide

/-- The relation `{(a, c), (b, c)}`. -/
def joinTransducer : TransducerAutomaton where
  states := [⟨false, [⟨⟨97, 99⟩, 1⟩, ⟨⟨98, 99⟩, 1⟩]⟩, ⟨true, []⟩]
  initial := 0
  initial_lt := by decide
  closed := by decide

/--
Two letters of a deterministic automaton that are both written as `c` give the
initial state of the image two successors on `c`.
-/
theorem imageRec_not_deterministic :
    ∃ states,
      imageRec .insertion forkAutomaton joinTransducer 2 newAutomaton 0
          forkAutomaton.initial joinTransducer.initial = some states ∧
        ¬ states.DeterministicFrom 0 := by
  refine ⟨[⟨false, [Transition.single 99 1, Transition.single 99 2]⟩,
    ⟨true, []⟩, ⟨true, []⟩], rfl, ?_⟩
  intro deterministic
  have left : Heap.Step [⟨false, [Transition.single 99 1,
      Transition.single 99 2]⟩, ⟨true, []⟩, ⟨true, []⟩] 0 99 1 :=
    ⟨_, List.mem_cons_self, by simp, rfl⟩
  have right : Heap.Step [⟨false, [Transition.single 99 1,
      Transition.single 99 2]⟩, ⟨true, []⟩, ⟨true, []⟩] 0 99 2 :=
    ⟨_, List.mem_cons_of_mem _ List.mem_cons_self, by simp, rfl⟩
  have equal := deterministic [] 0 (Path.nil 0) 99 1 2 left right
  omega

end SafetyGames.Transducer
