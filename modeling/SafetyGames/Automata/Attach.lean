import SafetyGames.Lib.Regular
import SafetyGames.Automata.Heaps

/-!
# States that go on elsewhere

The operations of `BasicOperations` on nondeterministic automata put clones of
their operands side by side and give epsilon transitions to states.  Here: the
language of a state, the states of two clones, and what states accept behind
which other words may follow.
-/

namespace SafetyGames.Automata

open SafetyGames.Transducer SafetyGames.LabelledPath SafetyGames.Regular
open Computability

/-! ## The language of a state -/

/-- The words accepted from a state. -/
def languageFrom (heap : Heap) (ref : Nat) : Language JChar :=
  {word | heap.Accepts ref word}

section LanguageFrom

variable {heap : Heap} {ref : Nat}

theorem mem_languageFrom {word : Word} :
    word ∈ languageFrom heap ref ↔ heap.Accepts ref word := Iff.rfl

theorem nil_mem_languageFrom :
    [] ∈ languageFrom heap ref ↔ (heap.state ref).accept = true :=
  Heap.accepts_nil

theorem mem_leftQuotient_mul {c : JChar} {word : Word} {L : Language JChar} :
    word ∈ (languageFrom heap ref).leftQuotient [c] * L ↔
      ∃ target, heap.Step ref c target ∧
        word ∈ languageFrom heap target * L := by
  simp only [Language.mem_mul, Language.mem_leftQuotient,
    List.singleton_append, mem_languageFrom, Heap.accepts_cons]
  constructor
  · rintro ⟨u, ⟨target, taken, accepts⟩, v, inL, same⟩
    exact ⟨target, taken, u, accepts, v, inL, same⟩
  · rintro ⟨target, taken, u, accepts, v, inL, same⟩
    exact ⟨u, ⟨target, taken, accepts⟩, v, inL, same⟩

end LanguageFrom

/-! ## Clones side by side -/

/-- A transition between clones that stand behind `offset` other states. -/
def shiftTransition (offset : Nat) (t : Transition) : Transition :=
  { t with dest := offset + t.dest }

/-- A clone that stands behind `offset` other states. -/
def shiftState (offset : Nat) (state : State) : State where
  accept := state.accept
  transitions := state.transitions.map (shiftTransition offset)

/-- The clones of the states of two automata. -/
def beside (left right : Heap) : Heap :=
  left ++ right.map (shiftState left.length)

section Beside

variable {left right : Heap}

@[simp]
theorem length_beside :
    (beside left right).length = left.length + right.length := by
  simp [beside]

theorem beside_state_left {ref : Nat} (inside : ref < left.length) :
    (beside left right).state ref = left.state ref := by
  simp [Heap.state, beside, List.getElem?_append, inside]

theorem beside_state_right (ref : Nat) :
    (beside left right).state (left.length + ref) =
      shiftState left.length (right.state ref) := by
  by_cases inside : ref < right.length
  · simp [Heap.state, beside, inside]
  · have outside := Nat.le_of_not_lt inside
    rw [Heap.state_of_length_le outside, Heap.state_of_length_le]
    · rfl
    · rw [length_beside]
      omega

theorem closed_beside (leftClosed : left.Closed) (rightClosed : right.Closed) :
    (beside left right).Closed := by
  intro state member t inState
  rw [length_beside]
  rcases List.mem_append.mp member with inLeft | inRight
  · exact Nat.lt_add_right _ (leftClosed state inLeft t inState)
  · rcases List.mem_map.mp inRight with ⟨old, inOld, rfl⟩
    rcases List.mem_map.mp inState with ⟨u, inU, rfl⟩
    exact Nat.add_lt_add_left (rightClosed old inOld u inU) _

end Beside

/-- The states of a heap stand in another one, behind `offset` other states. -/
def Shifted (offset : Nat) (right other : Heap) : Prop :=
  ∀ ref, other.state (offset + ref) = shiftState offset (right.state ref)

namespace Shifted

variable {offset : Nat} {right other : Heap}
  (shifted : Shifted offset right other)
include shifted

theorem step_iff {source target : Nat} {c : JChar} :
    other.Step (offset + source) c target ↔
      ∃ next, right.Step source c next ∧ offset + next = target := by
  rw [Heap.Step, shifted source]
  constructor
  · rintro ⟨_, member, reads, rfl⟩
    rcases List.mem_map.mp member with ⟨t, inState, rfl⟩
    exact ⟨t.dest, ⟨t, inState, reads, rfl⟩, rfl⟩
  · rintro ⟨_, ⟨t, inState, reads, rfl⟩, rfl⟩
    exact ⟨shiftTransition offset t, List.mem_map_of_mem inState, reads, rfl⟩

theorem accepts_iff (ref : Nat) (word : Word) :
    other.Accepts (offset + ref) word ↔ right.Accepts ref word := by
  refine @accepts_iff_of_equations _ Nat (fun _ => True)
    (fun ref => offset + ref) right.Accepts right.Step
    (fun source _ c target => shifted.step_iff) (fun _ _ _ _ _ => trivial)
    (fun source _ => ?_) (fun _ _ _ _ => Heap.accepts_cons) word ref trivial
  rw [shifted source]
  exact Heap.accepts_nil.symm

theorem path_iff {source target : Nat} {word : Word} :
    Path other.Step (offset + source) word target ↔
      ∃ next, Path right.Step source word next ∧ offset + next = target := by
  induction word generalizing source with
  | nil =>
      simp only [Path.nil_iff]
      exact ⟨fun same => ⟨source, rfl, same⟩, by rintro ⟨_, rfl, same⟩; exact same⟩
  | cons c word induction =>
      simp only [Path.cons_iff, shifted.step_iff]
      constructor
      · rintro ⟨_, ⟨middle, taken, rfl⟩, rest⟩
        rcases induction.mp rest with ⟨next, path, same⟩
        exact ⟨next, ⟨middle, taken, path⟩, same⟩
      · rintro ⟨next, ⟨middle, taken, path⟩, same⟩
        exact ⟨_, ⟨middle, taken, rfl⟩, induction.mpr ⟨next, path, same⟩⟩

end Shifted

theorem shifted_beside (left right : Heap) :
    Shifted left.length right (beside left right) :=
  beside_state_right

/-! ## Words behind accepted words -/

/-- The states inside keep their steps, and behind what they accept the words
of another language may follow. -/
structure Followed (inside : Nat → Prop) (heap other : Heap)
    (onward : JChar → Nat → Prop) (further : Language JChar) : Prop where
  keeps : ∀ source, inside source → ∀ c target,
    heap.Step source c target → inside target
  steps : ∀ source, inside source → ∀ c target,
    other.Step source c target ↔ heap.Step source c target ∨
      (heap.state source).accept = true ∧ onward c target
  accept : ∀ source, inside source →
    ((other.state source).accept = true ↔
      (heap.state source).accept = true ∧ [] ∈ further)
  /-- What follows begins with a step onward. -/
  begins : ∀ c word,
    (∀ source, inside source → (other.Accepts source word ↔
      word ∈ languageFrom heap source * further)) →
    (c :: word ∈ further ↔ ∃ target, onward c target ∧ other.Accepts target word)

namespace Followed

variable {inside : Nat → Prop} {heap other : Heap}
  {onward : JChar → Nat → Prop} {further : Language JChar}
  (followed : Followed inside heap other onward further)
include followed

theorem accepts_iff {source : Nat} (known : inside source) (word : Word) :
    other.Accepts source word ↔ word ∈ languageFrom heap source * further := by
  induction word generalizing source with
  | nil =>
      rw [Heap.accepts_nil, nil_mem_mul, nil_mem_languageFrom]
      exact followed.accept source known
  | cons c word induction =>
      have begins := followed.begins c word fun source => induction
      rw [Heap.accepts_cons, cons_mem_mul, mem_leftQuotient_mul,
        nil_mem_languageFrom, begins]
      constructor
      · rintro ⟨target, taken, accepts⟩
        rcases (followed.steps source known c target).mp taken with
          inHeap | ⟨accept, away⟩
        · exact Or.inl ⟨target, inHeap,
            (induction (followed.keeps source known c target inHeap)).mp accepts⟩
        · exact Or.inr ⟨accept, target, away, accepts⟩
      · rintro (⟨target, inHeap, member⟩ | ⟨accept, target, away, accepts⟩)
        · exact ⟨target,
            (followed.steps source known c target).mpr (Or.inl inHeap),
            (induction (followed.keeps source known c target inHeap)).mpr member⟩
        · exact ⟨target, (followed.steps source known c target).mpr
            (Or.inr ⟨accept, away⟩), accepts⟩

/-- A step of a state inside stays inside or leads onward. -/
theorem step_cases {source target : Nat} {c : JChar} (known : inside source)
    (taken : other.Step source c target) :
    inside target ∨ onward c target := by
  rcases (followed.steps source known c target).mp taken with
    inHeap | ⟨_, away⟩
  · exact Or.inl (followed.keeps source known c target inHeap)
  · exact Or.inr away

end Followed

end SafetyGames.Automata
