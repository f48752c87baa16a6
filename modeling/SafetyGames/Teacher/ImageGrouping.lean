import SafetyGames.Teacher.Reference
import SafetyGames.Transducer.Grouping
import SafetyGames.Transducer.ImageFinite

/-!
# Images and grouped letters

`imageRec` compares the lower end of an interval with the input of a pair and
does not look at the other characters of the interval.  The image of an
automaton is therefore the image of its lower ends.
-/

namespace SafetyGames.Teacher

open SafetyGames.Transducer SafetyGames.LabelledPath SafetyGames.PartialFold

/-! ## Calls that make the same moves -/

/-- Two runs of `imageRec` make the same moves in the same order: each call of
the first has the same list of moves in the second, and what its moves find they
enter alike. -/
structure SameMoves (order order' : HashOrder) (ta : TransducerAutomaton)
    (a a' : Automaton) : Prop where
  moves : ∀ frame, Called order a ta frame →
    moves order a ta frame.state = moves order' a' ta frame.state
  enter : ∀ frame move before, Called order a ta frame →
    Makes order a ta frame move before →
      enter order before frame.node move.branch =
        enter order' before frame.node move.branch

section SameMoves

variable {order order' : HashOrder} {ta : TransducerAutomaton}
  {a split : Automaton}

theorem place_ungrouped (ungrouped : Ungrouped a split) (heap : Heap)
    (current : Nat) (state : ProductState) :
    place split ta heap current state = place a ta heap current state := by
  have same : Accepting split ta state ↔ Accepting a ta state := by
    rw [Accepting, Accepting, ungrouped.accept]
  by_cases accepting : Accepting a ta state
  · rw [place, place, if_pos accepting, if_pos (same.mpr accepting)]
  · rw [place, place, if_neg accepting, if_neg (mt same.mp accepting)]

/-- The moves of a call build the same states, when its inner calls do. -/
theorem SameMoves.foldlM (same : SameMoves order order' ta a split)
    {fuel index : Nat} {frame : Frame} {heap before : Heap}
    (inner : ∀ frame result, Called order a ta frame →
      frame.Returns order a ta fuel result →
        frame.Returns order' split ta fuel result)
    (called : Called order a ta frame)
    (start : heap = place a ta frame.heap frame.node frame.state)
    (early : ((Transducer.moves order a ta frame.state).take index).foldlM
      (makeMove order a ta fuel frame.node) heap = some before) :
    ((Transducer.moves order a ta frame.state).take index).foldlM
      (makeMove order' split ta fuel frame.node) heap = some before := by
  induction index generalizing before with
  | zero => exact early
  | succ index induction =>
      cases position : (Transducer.moves order a ta frame.state)[index]? with
      | none =>
          rw [List.take_add_one, position] at early ⊢
          simp only [Option.toList_none, List.append_nil] at early ⊢
          exact induction early
      | some move =>
          have whole := early
          rw [List.take_add_one, List.foldlM_append] at whole
          rcases Option.bind_eq_some_iff.mp whole with ⟨middle, earlier, _⟩
          rw [foldlM_take_succ earlier position] at early
          rw [foldlM_take_succ (induction earlier) position]
          have makes : Makes order a ta frame move middle :=
            ⟨index, position, fuel, start ▸ earlier⟩
          rw [makeMove] at early ⊢
          rw [← same.enter frame move middle called makes]
          cases entered : Transducer.enter order middle frame.node move.branch with
          | none =>
              rw [entered] at early
              exact early
          | some next =>
              rw [entered] at early
              exact inner ⟨next.1, next.2, move.dest⟩ before
                (called.tail ⟨move, middle, makes, entered, rfl⟩) early

/-- The calls build the same states.  The induction is on the fuel. -/
theorem SameMoves.returns (same : SameMoves order order' ta a split)
    (ungrouped : Ungrouped a split) {fuel : Nat} {frame : Frame} {result : Heap}
    (called : Called order a ta frame)
    (returns : frame.Returns order a ta fuel result) :
    frame.Returns order' split ta fuel result := by
  induction fuel generalizing frame result with
  | zero => exact absurd returns (by simp [Frame.Returns, imageRec])
  | succ fuel induction =>
      rw [Frame.Returns, imageRec_succ] at returns ⊢
      rw [place_ungrouped ungrouped, ← same.moves frame called]
      have all : (Transducer.moves order a ta frame.state).take
          (Transducer.moves order a ta frame.state).length =
            Transducer.moves order a ta frame.state := List.take_length
      rw [← all] at returns ⊢
      exact same.foldlM (fun _ _ => induction) called rfl returns

/-- The images are the same automaton. -/
theorem SameMoves.image {lib : Library}
    {orders : TransducerAutomaton → Automaton → HashOrder} {fuel fuel' : Nat}
    {b b' : Automaton}
    (same : SameMoves (orders ta a) (orders ta split) ta a split)
    (ungrouped : Ungrouped a split)
    (returns : image lib orders fuel ta a = some b)
    (returns' : image lib orders fuel' ta split = some b') :
    b = b' := by
  rcases image_eq_some returns with ⟨states, builds, minimized⟩
  rcases image_eq_some returns' with ⟨states', builds', minimized'⟩
  have mirrored : imageStates (orders ta split) split ta fuel = some states := by
    have called : Called (orders ta a) a ta (Frame.initial a ta) :=
      Relation.ReflTransGen.refl
    rw [imageStates, ungrouped.initial]
    exact same.returns ungrouped called builds
  have equal : states = states' :=
    imageStates_unique mirrored builds'
  subst equal
  exact Option.some.inj (minimized.symm.trans minimized')

end SameMoves

/-! ## Two machines without self-loops -/

section OneLetter

variable {c d : JChar}

end OneLetter

section OneMove

variable {a : Automaton} {c d : JChar}

end OneMove

end SafetyGames.Teacher
