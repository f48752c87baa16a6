import SafetyGames.Transducer.Grouping
import SafetyGames.Transducer.ImageDeterminism

/-!
# Images that are what they should be

`imageRec` compares the lower end of an interval with the input of a pair and
does not look at the other characters of the interval.  Where the loops that it
reads do no harm and its letters are fresh, it builds the image of the words
spelled by lower ends, with an honest flag; the image is the documented one if
nothing else is related to the words of the automaton.
-/

namespace SafetyGames.Transducer

section Lowered

variable {a : Automaton} {ta : TransducerAutomaton}

/-- The moves read the lower ends only. -/
theorem isMove_lowered_iff {state : ProductState} {move : Move} :
    IsMove a.lowered ta state move ↔ IsMove a ta state move := by
  constructor
  · rintro (⟨ast, inA, rest⟩ | epsilon)
    · rcases mem_lowered.mp inA with ⟨group, inGroup, rfl⟩
      exact Or.inl ⟨group, inGroup, rest⟩
    · exact Or.inr epsilon
  · rintro (⟨ast, inA, rest⟩ | epsilon)
    · exact Or.inl ⟨ast.lower, mem_lowered.mpr ⟨ast, inA, rfl⟩, rest⟩
    · exact Or.inr epsilon

theorem accepting_lowered_iff {state : ProductState} :
    Accepting a.lowered ta state ↔ Accepting a ta state := by
  rw [Accepting, Accepting, lowered_accept]

theorem out_lowered_iff {state : ProductState} {word : Word} :
    Out a.lowered ta state word ↔ Out a ta state word := by
  constructor
  · intro out
    induction out with
    | accept accepting => exact Out.accept (accepting_lowered_iff.mp accepting)
    | silent move _ induction =>
        exact Out.silent (isMove_lowered_iff.mp move) induction
    | letter move isLetter _ induction =>
        exact Out.letter (isMove_lowered_iff.mp move) isLetter induction
  · intro out
    induction out with
    | accept accepting => exact Out.accept (accepting_lowered_iff.mpr accepting)
    | silent move _ induction =>
        exact Out.silent (isMove_lowered_iff.mpr move) induction
    | letter move isLetter _ induction =>
        exact Out.letter (isMove_lowered_iff.mpr move) isLetter induction

end Lowered

/-! ## Safe images -/

/-- `image` is exact up to the grouping of letters: the loops that are read do
no harm, and the letters that are written are fresh. -/
structure LettersExact (order : HashOrder) (ta : TransducerAutomaton)
    (a : Automaton) : Prop where
  harmless : LoopsHarmless order a ta
  fresh : FreshLetters order a ta

/-- `image` does what its documentation says: moreover, all that is related to
the words of the automaton is written for words of lower ends. -/
structure ImageSafe (order : HashOrder) (ta : TransducerAutomaton)
    (a : Automaton) : Prop extends LettersExact order ta a where
  words : ta.writtenImage a.lowered.lang = ta.relImage a.lang

section Safe

variable {order : HashOrder} {a : Automaton} {ta : TransducerAutomaton}
  {fuel : Nat} {states : Heap}

/-- The built automaton accepts what the transducer writes for the words spelled
by lower ends. -/
theorem LettersExact.builtImage_lang (letters : LettersExact order ta a)
    (builds : imageStates order a ta fuel = some states) :
    (builtImage builds).lang = ta.writtenImage a.lowered.lang := by
  ext word
  rw [letters.harmless.mem_builtImage builds, ← out_lowered_iff]
  exact out_initial_iff_written singleChars_lowered

/-- Without intervals and without the pair of two epsilons all related words are
written. -/
theorem writtenImage_lowered (noEmptyPair : ta.NoEmptyPair)
    (single : a.SingleChars) :
    ta.writtenImage a.lowered.lang = ta.relImage a.lang := by
  rw [lang_lowered_of_singleChars single, noEmptyPair.writtenImage_eq]

/-- The transitions of a built image carry single letters. -/
theorem builtImage_single
    (builds : imageStates order a ta fuel = some states) {ref : Nat}
    {transition : Transition}
    (member : transition ∈ ((builtImage builds).state ref).transitions) :
    transition.Single := by
  have single := (plain_kept.states builds).single ref transition member
  rw [single]
  rfl

end Safe

/-! ## Machines without moves -/

section NoMove

variable {order : HashOrder} {a : Automaton} {ta : TransducerAutomaton}
  (none : ∀ move, ¬ IsMove a ta (a.initial, ta.initial) move)
include none

theorem moves_eq_nil : moves order a ta (a.initial, ta.initial) = [] :=
  List.eq_nil_iff_forall_not_mem.mpr fun move member =>
    none move (mem_moves.mp member)

/-- With nothing to read no move is made. -/
theorem not_makes_of_no_move {frame : Frame} {move : Move} {before : Heap}
    (called : Called order a ta frame) :
    ¬ Makes order a ta frame move before := by
  have stuck : ∀ move before,
      ¬ Makes order a ta (Frame.initial a ta) move before := by
    rintro move before ⟨index, position, _⟩
    exact none move (mem_moves.mp (List.mem_of_getElem? position))
  have only : frame = Frame.initial a ta := by
    induction called with
    | refl => rfl
    | tail _ enters induction =>
        rcases enters with ⟨move, before, makes, _⟩
        rw [induction] at makes
        exact absurd makes (stuck move before)
  rw [only]
  exact stuck move before

/-- An image with nothing to read is safe. -/
theorem imageSafe_of_no_move (noEmptyPair : ta.NoEmptyPair)
    (single : a.SingleChars) : ImageSafe order ta a where
  harmless := fun _ _ _ _ called makes =>
    absurd makes (not_makes_of_no_move none called)
  fresh := fun _ _ _ _ _ _ called makes =>
    absurd makes (not_makes_of_no_move none called)
  words := writtenImage_lowered noEmptyPair single

end NoMove

end SafetyGames.Transducer
