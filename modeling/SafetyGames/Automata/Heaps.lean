import SafetyGames.Automata.State

/-!
# Languages of the states of a heap

How the languages of the states follow from their transitions: the languages
are the only ones that satisfy the equations of the states, and a heap whose
states are changed in place keeps the languages that its steps keep.
-/

namespace SafetyGames.Automata

open SafetyGames.Transducer SafetyGames.LabelledPath

variable {heap other : Heap}

/-! ## Equations -/

/-- Languages that satisfy the equations of the states are the accepted ones. -/
theorem accepts_iff_of_equations {κ : Type*} {inside : κ → Prop}
    {ref : κ → Nat} {language : κ → Word → Prop} {next : κ → JChar → κ → Prop}
    (steps : ∀ key, inside key → ∀ c target,
      heap.Step (ref key) c target ↔
        ∃ after, next key c after ∧ ref after = target)
    (keeps : ∀ key, inside key → ∀ c after, next key c after → inside after)
    (empty : ∀ key, inside key →
      ((heap.state (ref key)).accept = true ↔ language key []))
    (cons : ∀ key, inside key → ∀ c word, language key (c :: word) ↔
      ∃ after, next key c after ∧ language after word)
    {word : Word} {key : κ} (known : inside key) :
    heap.Accepts (ref key) word ↔ language key word := by
  induction word generalizing key with
  | nil => exact Heap.accepts_nil.trans (empty key known)
  | cons c word induction =>
      rw [Heap.accepts_cons, cons key known]
      constructor
      · rintro ⟨middle, taken, accepts⟩
        rcases (steps key known c middle).mp taken with ⟨after, follows, rfl⟩
        exact ⟨after, follows,
          (induction (keeps key known c after follows)).mp accepts⟩
      · rintro ⟨after, follows, holds⟩
        exact ⟨ref after, (steps key known c _).mpr ⟨after, follows, rfl⟩,
          (induction (keeps key known c after follows)).mpr holds⟩

/-- Heaps with the same steps and the same acceptance from a state on. -/
structure Agree (inside : Nat → Prop) (heap other : Heap) : Prop where
  keeps : ∀ source, inside source → ∀ c target,
    heap.Step source c target → inside target
  steps : ∀ source, inside source → ∀ c target,
    other.Step source c target ↔ heap.Step source c target
  accept : ∀ source, inside source →
    (other.state source).accept = (heap.state source).accept

namespace Agree

variable {inside : Nat → Prop}

theorem path_iff (agree : Agree inside heap other) {source target : Nat}
    {word : Word} (known : inside source) :
    Path other.Step source word target ↔ Path heap.Step source word target := by
  induction word generalizing source with
  | nil => rw [Path.nil_iff, Path.nil_iff]
  | cons c word induction =>
      rw [Path.cons_iff, Path.cons_iff]
      refine exists_congr fun middle => ?_
      rw [agree.steps source known]
      exact and_congr_right fun taken =>
        induction (agree.keeps source known c middle taken)

theorem accepts_iff (agree : Agree inside heap other) {source : Nat}
    (known : inside source) (word : Word) :
    other.Accepts source word ↔ heap.Accepts source word := by
  refine exists_congr fun target => ?_
  rw [agree.path_iff known]
  refine and_congr_right fun path => ?_
  rw [agree.accept target (path.invariant
    (fun _ _ _ here taken => agree.keeps _ here _ _ taken) known)]

end Agree

/-- Fewer steps make no new choices. -/
theorem deterministicFrom_of_steps {initial : Nat}
    (steps : ∀ source c target, other.Step source c target →
      heap.Step source c target)
    (deterministic : heap.DeterministicFrom initial) :
    other.DeterministicFrom initial := by
  intro word source path c left right first second
  exact deterministic word source (path.mono steps) c left right
    (steps source c left first) (steps source c right second)

/-- Transitions of one state that read a common character have one destination. -/
theorem deterministicFrom_of_apart {initial : Nat}
    (apart : ∀ state ∈ heap, ∀ t ∈ state.transitions, ∀ u ∈ state.transitions,
      t.dest = u.dest ∨ t.max < u.min ∨ u.max < t.min) :
    heap.DeterministicFrom initial := by
  rintro word source _ c _ _ ⟨t, inT, readsT, rfl⟩ ⟨u, inU, readsU, rfl⟩
  have inside : source < heap.length := by
    by_contra outside
    rw [Heap.state_of_length_le (Nat.le_of_not_lt outside)] at inT
    exact List.not_mem_nil inT
  rcases apart _ (Heap.state_mem inside) t inT u inU with same | below | below
  · exact same
  · exact absurd (UInt16.le_trans readsU.1 readsT.2) (UInt16.not_le.mpr below)
  · exact absurd (UInt16.le_trans readsT.1 readsU.2) (UInt16.not_le.mpr below)

/-! ## States changed in place -/

/-- The heap after a loop that changes the states behind the references. -/
def update (heap : Heap) (refs : List Nat) (change : State → State) : Heap :=
  heap.mapIdx fun ref state => if ref ∈ refs then change state else state

@[simp]
theorem length_update (heap : Heap) (refs : List Nat) (change : State → State) :
    (update heap refs change).length = heap.length := by
  simp [update]

theorem update_state {refs : List Nat} {change : State → State} {ref : Nat}
    (inside : ref < heap.length) :
    (update heap refs change).state ref =
      if ref ∈ refs then change (heap.state ref) else heap.state ref := by
  simp [Heap.state, update, inside]

theorem update_state_of_mem {refs : List Nat} {change : State → State}
    (inside : ∀ ref ∈ refs, ref < heap.length) {ref : Nat}
    (member : ref ∈ refs) :
    (update heap refs change).state ref = change (heap.state ref) := by
  rw [update_state (inside ref member), if_pos member]

theorem update_state_of_notMem {refs : List Nat} {change : State → State}
    {ref : Nat} (notMember : ref ∉ refs) :
    (update heap refs change).state ref = heap.state ref := by
  by_cases inside : ref < heap.length
  · rw [update_state inside, if_neg notMember]
  · have outside := Nat.le_of_not_lt inside
    rw [Heap.state_of_length_le outside, Heap.state_of_length_le]
    rwa [length_update]

theorem mem_update {refs : List Nat} {change : State → State} {state : State}
    (member : state ∈ update heap refs change) :
    ∃ old ∈ heap, state = change old ∨ state = old := by
  rcases List.mem_mapIdx.mp member with ⟨ref, inside, rfl⟩
  refine ⟨heap[ref], List.getElem_mem inside, ?_⟩
  by_cases isChanged : ref ∈ refs
  · exact Or.inl (if_pos isChanged)
  · exact Or.inr (if_neg isChanged)

end SafetyGames.Automata
