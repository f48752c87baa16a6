import SafetyGames.Transducer.ImageSafe
import SafetyGames.Learner.EncodingParts

/-!
# The automaton library

The library operations that the program calls on whole automata.  They are a
parameter of the model; `Library.Correct` states what they do to automata with
an honest flag, and to automata that satisfy the class invariants of
`Automaton`.
-/

namespace SafetyGames.Teacher

open SafetyGames.Transducer SafetyGames.LabelledPath SafetyGames.Learner

/-! ## The class invariants -/

/-- The class invariants of `Automaton`: the deterministic flag is honest, and
no transition leads to a dead state. -/
structure ClassInvariants (a : Automaton) : Prop where
  honest : a.HonestFlag
  live : ∀ ref, a.Reachable ref → ∀ transition ∈ (a.state ref).transitions,
    ∃ word, a.states.Accepts transition.dest word

/-- `isEmpty(a)`: the initial state rejects and has no transitions. -/
def isEmpty (a : Automaton) : Bool :=
  !(a.state a.initial).accept && (a.state a.initial).transitions.isEmpty

section Invariants

variable {a : Automaton} {alphabet : List JChar}

/-- An automaton that is found empty accepts nothing. -/
theorem lang_of_isEmpty (empty : isEmpty a = true) : a.lang = ∅ := by
  rw [isEmpty, Bool.and_eq_true, Bool.not_eq_true', List.isEmpty_iff] at empty
  rcases empty with ⟨rejects, none⟩
  refine Set.eq_empty_of_forall_notMem fun word member => ?_
  cases word with
  | nil => exact Bool.false_ne_true (rejects.symm.trans
      (Heap.accepts_nil.mp member))
  | cons c word =>
      rcases Heap.accepts_cons.mp member with ⟨_, ⟨transition, inState, _⟩, _⟩
      rw [none] at inState
      exact List.not_mem_nil inState

/-- Without transitions to dead states the test is exact. -/
theorem ClassInvariants.isEmpty_iff (invariants : ClassInvariants a) :
    isEmpty a = true ↔ a.lang = ∅ := by
  constructor
  · exact lang_of_isEmpty
  · intro empty
    have outside : ∀ word, ¬ a.states.Accepts a.initial word :=
      fun word member => Set.eq_empty_iff_forall_notMem.mp empty word member
    rw [isEmpty, Bool.and_eq_true, Bool.not_eq_true', List.isEmpty_iff]
    constructor
    · rw [← Bool.not_eq_true]
      exact fun accepts => outside [] (Heap.accepts_nil.mpr accepts)
    · refine List.eq_nil_iff_forall_not_mem.mpr fun transition inState => ?_
      rcases invariants.live a.initial Automaton.Reachable.initial transition inState with
        ⟨word, accepted⟩
      exact outside (transition.min :: word) (Heap.accepts_cons.mpr
        ⟨_, ⟨transition, inState, transition.reads_min, rfl⟩, accepted⟩)

/-- No two letters of the alphabet have consecutive codes. -/
def NoConsecutive (alphabet : List JChar) : Prop :=
  ∀ c ∈ alphabet, c + 1 ∉ alphabet

/-- Without consecutive letters the transitions carry single letters. -/
theorem ClassInvariants.overAlphabet (invariants : ClassInvariants a)
    (spread : NoConsecutive alphabet)
    (letters : ∀ word ∈ a.lang, ∀ c ∈ word, c ∈ alphabet) :
    OverAlphabet alphabet a := by
  intro ref reachable transition inState
  rcases reachable with ⟨before, path⟩
  rcases invariants.live ref ⟨before, path⟩ transition inState with
    ⟨after, target, rest, accepts⟩
  have read : ∀ c, transition.Reads c → c ∈ alphabet := by
    intro c reads
    refine letters (before ++ c :: after) ⟨target, ?_, accepts⟩ c (by simp)
    exact path.append (Path.cons ⟨transition, inState, reads, rfl⟩ rest)
  refine ⟨?_, read _ transition.reads_min⟩
  by_contra several
  have less : transition.min < transition.max :=
    UInt16.lt_of_le_of_ne transition.min_le_max several
  have room : transition.min.toNat + 1 < 2 ^ 16 := by
    have below := UInt16.lt_iff_toNat_lt.mp less
    have bound := transition.max.toNat_lt
    omega
  have next : (transition.min + 1).toNat = transition.min.toNat + 1 := by
    rw [UInt16.toNat_add, UInt16.toNat_one, Nat.mod_eq_of_lt room]
  refine spread _ (read _ transition.reads_min) (read _ ⟨?_, ?_⟩)
  · rw [UInt16.le_iff_toNat_le, next]
    exact Nat.le_succ _
  · rw [UInt16.le_iff_toNat_le, next]
    exact UInt16.lt_iff_toNat_lt.mp less

end Invariants

/-! ## The operations -/

/-- The library operations, `new RegExp(u).toAutomaton()` among them.  What may
throw, or return `null`, gives an option. -/
structure Library where
  minus : Automaton → Automaton → Automaton
  union : Automaton → Automaton → Automaton
  intersection : Automaton → Automaton → Automaton
  minimize : Automaton → Option Automaton
  /-- `getShortestExample(a, true)`. -/
  getShortestExample : Automaton → Option Word
  regExp : Word → Option Automaton
  /-- `Automaton.equals`. -/
  equals : Automaton → Automaton → Option Bool

/-- A single transition on every character from a rejecting initial state to
itself.  `minimize` keeps it, and the loop leads to a dead state. -/
def DeadLoop (a : Automaton) : Prop :=
  (a.state a.initial).accept = false ∧
    ∃ transition, (a.state a.initial).transitions = [transition] ∧
      transition.dest = a.initial ∧ transition.min = 0 ∧ transition.max = 65535

theorem not_deadLoop_of_singleChars {a : Automaton}
    (single : a.SingleChars) : ¬ DeadLoop a := by
  rintro ⟨_, transition, only, _, low, high⟩
  have member : transition ∈ (a.state a.initial).transitions := by simp [only]
  have same : transition.min = transition.max :=
    single _ (Heap.state_mem a.initial_lt) transition member
  rw [low, high] at same
  exact absurd same (by decide)

/-- An operation on two automata that does what it should to their languages,
and keeps honest flags and the class invariants. -/
def Implements (operation : Automaton → Automaton → Automaton)
    (onLanguages : Set Word → Set Word → Set Word) : Prop :=
  ∀ a b, a.HonestFlag → b.HonestFlag →
    (operation a b).HonestFlag ∧
      (operation a b).lang = onLanguages a.lang b.lang ∧
        (ClassInvariants a → ClassInvariants b →
          ClassInvariants (operation a b))

/-- The operations are correct: `minus` and `intersection` on automata with
honest flags, of which a conjecture may be one that is not minimized, `minimize`
on those without a dead loop, and the others under the class invariants. -/
structure Library.Correct (lib : Library) : Prop where
  minus : Implements lib.minus SDiff.sdiff
  intersection : Implements lib.intersection Inter.inter
  union : ∀ a b, ClassInvariants a → ClassInvariants b →
    ClassInvariants (lib.union a b) ∧ (lib.union a b).lang = a.lang ∪ b.lang
  minimize : ∀ a b, a.HonestFlag → ¬ DeadLoop a → lib.minimize a = some b →
    ClassInvariants b ∧ b.lang = a.lang
  getShortestExample : ∀ a word, a.HonestFlag →
    lib.getShortestExample a = some word → word ∈ a.lang
  equals : ∀ a b, ClassInvariants a → ClassInvariants b →
    lib.equals a b = some true → a.lang = b.lang

/-- Calls that return: for an example of a nonempty language, and for the minimal
automaton of a state without transitions. -/
structure Library.Answers (lib : Library) : Prop where
  getShortestExample : ∀ a, a.HonestFlag → a.lang.Nonempty →
    ∃ word, lib.getShortestExample a = some word
  minimize : ∀ a : Automaton, (a.state a.initial).transitions = [] →
    ∃ b, lib.minimize a = some b

/-- A word without reserved characters is a regular expression for itself. -/
def Library.Literal (lib : Library) (word : Word) : Prop :=
  ∀ a, lib.regExp word = some a → ClassInvariants a ∧ a.lang = {word}

/-- The answer of a comparison that has returned. -/
def Library.same (lib : Library) (a b : Automaton) : Bool :=
  (lib.equals a b).getD false

/-- `list.contains(ce)`: it compares until an equal counter-example is found. -/
def Library.contains (lib : Library) (ce : CounterExample) :
    List CounterExample → Option Bool
  | [] => some false
  | other :: list =>
      if ce.u = other.u then do
        if ← lib.equals ce.a other.a then some true
        else lib.contains ce list
      else lib.contains ce list

/-- A search that returns has the answer of the comparisons. -/
theorem Library.contains_eq (lib : Library) {ce : CounterExample}
    {list : List CounterExample} {found : Bool}
    (returns : lib.contains ce list = some found) :
    found = list.any (ce.equals lib.same) := by
  induction list with
  | nil => exact (Option.some.inj returns).symm
  | cons other list induction =>
      rw [List.any_cons, CounterExample.equals, Library.same]
      rw [Library.contains] at returns
      split_ifs at returns with sameWord
      · rcases Option.bind_eq_some_iff.mp returns with ⟨answer, compared, rest⟩
        rw [compared, beq_iff_eq.mpr sameWord]
        cases answer with
        | true => exact (Option.some.inj rest).symm
        | false => exact induction rest
      · rw [beq_eq_false_iff_ne.mpr sameWord]
        exact induction returns

/-- A search for a counter-example of another word compares nothing. -/
theorem Library.contains_of_ne (lib : Library) {ce : CounterExample}
    {list : List CounterExample} (fresh : ∀ other ∈ list, ce.u ≠ other.u) :
    lib.contains ce list = some false := by
  induction list with
  | nil => rfl
  | cons other list induction =>
      rw [List.forall_mem_cons] at fresh
      rw [Library.contains, if_neg fresh.1]
      exact induction fresh.2

/-! ## Images -/

/-- `image(ta, a)` on machines that make its recursion end within the fuel. -/
def image (lib : Library)
    (orders : TransducerAutomaton → Automaton → HashOrder) (fuel : Nat)
    (ta : TransducerAutomaton) (a : Automaton) : Option Automaton :=
  match returns : imageStates (orders ta a) a ta fuel with
  | some _ => lib.minimize (builtImage returns)
  | none => none

/-- The documented meaning of a call of `image` that returns. -/
def ImageExact (image : TransducerAutomaton → Automaton → Option Automaton)
    (ta : TransducerAutomaton) (a : Automaton) : Prop :=
  ∀ b, image ta a = some b → ClassInvariants b ∧ b.lang = ta.relImage a.lang

section Image

variable {lib : Library}
  {orders : TransducerAutomaton → Automaton → HashOrder} {fuel : Nat}
  {ta : TransducerAutomaton} {a b : Automaton}

theorem image_of_returns {states : Heap}
    (builds : imageStates (orders ta a) a ta fuel = some states) :
    image lib orders fuel ta a = lib.minimize (builtImage builds) := by
  rw [image]
  split
  · next found equal =>
      rcases Option.some.inj (builds.symm.trans equal) with rfl
      rfl
  · next equal => exact absurd (builds.symm.trans equal) (Option.some_ne_none _)

theorem image_eq_some (returns : image lib orders fuel ta a = some b) :
    ∃ states, ∃ builds : imageStates (orders ta a) a ta fuel = some states,
      lib.minimize (builtImage builds) = some b := by
  rw [image] at returns
  split at returns
  · next states builds => exact ⟨states, builds, returns⟩
  · exact absurd returns (Option.some_ne_none b).symm

/-- The automaton that `image` minimizes has no dead loop: its transitions carry
single letters. -/
theorem not_deadLoop_builtImage {order : HashOrder} {states : Heap}
    (builds : imageStates order a ta fuel = some states) :
    ¬ DeadLoop (builtImage builds) := by
  rintro ⟨_, transition, only, _, low, high⟩
  have member : transition ∈
      ((builtImage builds).state (builtImage builds).initial).transitions := by
    simp [only]
  have same : transition.min = transition.max := builtImage_single builds member
  rw [low, high] at same
  exact absurd same (by decide)

/-- With an honest flag the image is that of the words spelled by lower ends. -/
theorem image_spec_of_lettersExact (correct : lib.Correct)
    (letters : LettersExact (orders ta a) ta a)
    (returns : image lib orders fuel ta a = some b) :
    ClassInvariants b ∧ b.lang = ta.writtenImage a.lowered.lang := by
  rcases image_eq_some returns with ⟨states, builds, minimized⟩
  rcases correct.minimize _ b (letters.fresh.honestFlag builds)
    (not_deadLoop_builtImage builds) minimized with ⟨invariants, same⟩
  exact ⟨invariants, same.trans (letters.builtImage_lang builds)⟩

/-- A safe image is the documented one. -/
theorem imageExact_of_safe (correct : lib.Correct)
    (safe : ImageSafe (orders ta a) ta a) :
    ImageExact (image lib orders fuel) ta a := by
  intro b returns
  rcases image_spec_of_lettersExact correct safe.toLettersExact returns with ⟨invariants, same⟩
  exact ⟨invariants, same.trans safe.words⟩

/-- An image with nothing to read is built by a single call, without
transitions. -/
theorem image_of_no_move (lib : Library)
    (orders : TransducerAutomaton → Automaton → HashOrder)
    (none : ∀ move, ¬ IsMove a ta (a.initial, ta.initial) move) :
    ∃ built, (built.state built.initial).transitions = [] ∧
      image lib orders 1 ta a = lib.minimize built := by
  have builds : imageStates (orders ta a) a ta 1 =
      some (place a ta newAutomaton 0 (a.initial, ta.initial)) := by
    rw [imageStates, imageRec_succ 0 newAutomaton 0 (a.initial, ta.initial),
      moves_eq_nil none]
    rfl
  refine ⟨builtImage builds, ?_, image_of_returns builds⟩
  exact (place_transitions newAutomaton 0 0 _).trans (newAutomaton_transitions 0)

end Image

end SafetyGames.Teacher
