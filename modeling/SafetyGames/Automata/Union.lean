import SafetyGames.Automata.Concatenation

/-!
# Unions and optional words

`union` for two automata and for a collection of them, and `optional`.  A new
initial state gets epsilon transitions to the initial states of the clones.
-/

namespace SafetyGames.Automata

open SafetyGames.Transducer SafetyGames.LabelledPath SafetyGames.Regular
open SafetyGames.Teacher

/-! ## A new initial state -/

/-- Clones of automata, and the new state `s` that leads to them. -/
structure Clones where
  heap : Heap
  s : State
  closed : heap.Closed
  leads : ∀ t ∈ s.transitions, t.dest < heap.length

/-- The words that the new state accepts. -/
def Clones.words (clones : Clones) : Language JChar
  | [] => clones.s.accept = true
  | c :: word => ∃ t ∈ clones.s.transitions,
      t.Reads c ∧ clones.heap.Accepts t.dest word

/-- No state that the new one leads to is dead. -/
def Clones.Alive (clones : Clones) : Prop :=
  ∀ t ∈ clones.s.transitions, ∀ word target,
    Path clones.heap.Step t.dest word target →
      ∃ rest, clones.heap.Accepts target rest

/-- The automaton whose initial state is the new one. -/
def Clones.automaton (clones : Clones) : Automaton where
  states := clones.heap ++ [clones.s]
  initial := clones.heap.length
  deterministic := false
  initial_lt := by simp
  closed := by
    intro state member t inState
    rw [List.length_append, List.length_singleton]
    rcases List.mem_append.mp member with inHeap | isNew
    · exact Nat.lt_succ_of_lt (clones.closed state inHeap t inState)
    · rw [List.mem_singleton.mp isNew] at inState
      exact Nat.lt_succ_of_lt (clones.leads t inState)

/-- A closed part of a heap keeps the languages of its states. -/
theorem agree_of_append {heap : Heap} (closed : heap.Closed) (more : Heap) :
    Agree (fun ref => ref < heap.length) heap (heap ++ more) := by
  have same : ∀ ref, ref < heap.length →
      Heap.state (heap ++ more) ref = heap.state ref := by
    intro ref inside
    rw [Heap.state, Heap.state, List.getElem?_append_left inside]
  exact {
    keeps := fun _ _ _ _ taken => closed.step_lt taken
    steps := fun source inside c target => by
      rw [Heap.Step, Heap.Step, same source inside]
    accept := fun source inside => congrArg State.accept (same source inside) }

namespace Clones

variable (clones : Clones)

@[simp]
theorem automaton_state_initial :
    clones.automaton.states.state clones.automaton.initial = clones.s := by
  simp [automaton, Heap.state]

theorem automaton_state {ref : Nat} (inside : ref < clones.heap.length) :
    clones.automaton.states.state ref = clones.heap.state ref := by
  change Heap.state (clones.heap ++ [clones.s]) ref = _
  rw [Heap.state, Heap.state, List.getElem?_append_left inside]

theorem agree_automaton :
    Agree (fun ref => ref < clones.heap.length) clones.heap
      clones.automaton.states :=
  agree_of_append clones.closed [clones.s]

theorem lang_automaton : language clones.automaton = clones.words := by
  ext word
  cases word with
  | nil =>
      refine Heap.accepts_nil.trans ?_
      rw [automaton_state_initial]
      exact Iff.rfl
  | cons c word =>
      refine Heap.accepts_cons.trans ?_
      constructor
      · rintro ⟨_, ⟨t, inState, reads, rfl⟩, accepts⟩
        rw [automaton_state_initial] at inState
        exact ⟨t, inState, reads, (clones.agree_automaton.accepts_iff
          (clones.leads t inState) word).mp accepts⟩
      · rintro ⟨t, inState, reads, accepts⟩
        refine ⟨t.dest, ⟨t, ?_, reads, rfl⟩, (clones.agree_automaton.accepts_iff
          (clones.leads t inState) word).mpr accepts⟩
        rw [automaton_state_initial]
        exact inState

/-- Every state but the new one is reached by a step of it. -/
theorem reachable_cases {ref : Nat} (reachable : clones.automaton.Reachable ref) :
    ref = clones.automaton.initial ∨ ref < clones.heap.length ∧
      ∃ t ∈ clones.s.transitions, ∃ word,
        Path clones.heap.Step t.dest word ref := by
  rcases reachable with ⟨word, path⟩
  cases word with
  | nil => exact Or.inl (Path.nil_iff.mp path).symm
  | cons c word =>
      rcases Path.cons_iff.mp path with ⟨_, ⟨t, inState, _, rfl⟩, rest⟩
      rw [automaton_state_initial] at inState
      have inside := clones.leads t inState
      have inHeap := (clones.agree_automaton.path_iff inside).mp rest
      exact Or.inr ⟨inHeap.invariant
        (fun _ _ _ _ taken => clones.closed.step_lt taken) inside,
        t, inState, word, inHeap⟩

variable {clones}

theorem Alive.live (alive : clones.Alive) : Live clones.automaton := by
  intro ref reachable transition inState
  rcases clones.reachable_cases reachable with rfl | ⟨inside, t, inNew, word, path⟩
  · change _ ∈ (clones.automaton.states.state _).transitions at inState
    rw [automaton_state_initial] at inState
    rcases alive transition inState [] transition.dest (Path.nil _) with
      ⟨rest, accepts⟩
    exact ⟨rest, (clones.agree_automaton.accepts_iff
      (clones.leads transition inState) rest).mpr accepts⟩
  · have taken := (clones.agree_automaton.steps ref inside transition.min
      transition.dest).mp ⟨transition, inState, transition.reads_min, rfl⟩
    rcases alive t inNew _ _ (path.snoc taken) with ⟨rest, accepts⟩
    exact ⟨rest, (clones.agree_automaton.accepts_iff
      (clones.closed.step_lt taken) rest).mpr accepts⟩

theorem Alive.builds (alive : clones.Alive) :
    Builds clones.automaton clones.words :=
  ⟨⟨fun isSet => absurd isSet Bool.false_ne_true, alive.live⟩,
    clones.lang_automaton⟩

end Clones

/-! ## Adding automata -/

/-- `s.addEpsilon(b.initial)` for the clone of one more automaton. -/
def Clones.add (clones : Clones) (b : Automaton) : Clones where
  heap := beside clones.heap b.states
  s := addEpsilon clones.s
    (shiftState clones.heap.length (b.state b.initial))
  closed := closed_beside clones.closed b.closed
  leads := by
    intro t inState
    rw [length_beside]
    rcases mem_addEpsilon.mp inState with inClone | inOld
    · rcases List.mem_map.mp inClone with ⟨u, inU, rfl⟩
      exact Nat.add_lt_add_left
        (b.closed _ (Heap.state_mem b.initial_lt) u inU) _
    · exact Nat.lt_add_right _ (clones.leads t inOld)

/-- `new State()`, no automaton cloned yet. -/
def Clones.none : Clones where
  heap := []
  s := State.new
  closed := by simp [Heap.Closed]
  leads := by simp [State.new]

/-- Behind a step of a live automaton no state is dead. -/
theorem Live.alive {a : Automaton} (live : Live a) {t : Transition}
    (inState : t ∈ (a.state a.initial).transitions) {word : Word} {target : Nat}
    (path : Path a.states.Step t.dest word target) :
    ∃ rest, a.states.Accepts target rest := by
  induction word using List.reverseRecOn generalizing target with
  | nil =>
      rw [← Path.nil_iff.mp path]
      exact live a.initial Automaton.Reachable.initial t inState
  | append_singleton word c _ =>
      rcases Path.snoc_iff.mp path with ⟨middle, before, u, inMiddle, _, rfl⟩
      have taken : a.states.Step a.initial t.min t.dest :=
        ⟨t, inState, t.reads_min, rfl⟩
      exact live middle ⟨_, Path.cons taken before⟩ u inMiddle

namespace Clones

variable {clones : Clones} {b : Automaton}

theorem agree_add :
    Agree (fun ref => ref < clones.heap.length) clones.heap
      (clones.add b).heap :=
  agree_of_append clones.closed _

theorem shifted_add :
    Shifted clones.heap.length b.states (clones.add b).heap :=
  shifted_beside clones.heap b.states

/-- The new state accepts the words of the automaton, too. -/
theorem words_add : (clones.add b).words = clones.words + language b := by
  ext word
  rw [Language.mem_add]
  cases word with
  | nil =>
      change ((b.state b.initial).accept || clones.s.accept) = true ↔
        clones.s.accept = true ∨ b.states.Accepts b.initial []
      rw [Bool.or_eq_true, Heap.accepts_nil, or_comm]
  | cons c word =>
      change _ ↔ (∃ t ∈ clones.s.transitions, _) ∨
        b.states.Accepts b.initial (c :: word)
      rw [Heap.accepts_cons]
      constructor
      · rintro ⟨t, inState, reads, accepts⟩
        rcases mem_addEpsilon.mp inState with inClone | inOld
        · rcases List.mem_map.mp inClone with ⟨u, inU, rfl⟩
          exact Or.inr ⟨u.dest, ⟨u, inU, reads, rfl⟩,
            (shifted_add.accepts_iff u.dest word).mp accepts⟩
        · exact Or.inl ⟨t, inOld, reads,
            (agree_add.accepts_iff (clones.leads t inOld) word).mp accepts⟩
      · rintro (⟨t, inOld, reads, accepts⟩ | ⟨_, ⟨u, inU, reads, rfl⟩, accepts⟩)
        · exact ⟨t, mem_addEpsilon.mpr (Or.inr inOld), reads,
            (agree_add.accepts_iff (clones.leads t inOld) word).mpr accepts⟩
        · exact ⟨_, mem_addEpsilon.mpr (Or.inl (List.mem_map_of_mem inU)),
            reads, (shifted_add.accepts_iff u.dest word).mpr accepts⟩

theorem Alive.add (alive : clones.Alive) (live : Live b) :
    (clones.add b).Alive := by
  intro t inState word target path
  rcases mem_addEpsilon.mp inState with inClone | inOld
  · rcases List.mem_map.mp inClone with ⟨u, inU, rfl⟩
    rcases shifted_add.path_iff.mp path with ⟨next, inRight, rfl⟩
    rcases live.alive inU inRight with ⟨rest, accepts⟩
    exact ⟨rest, (shifted_add.accepts_iff next rest).mpr accepts⟩
  · have inside := clones.leads t inOld
    have inHeap := (agree_add.path_iff inside).mp path
    rcases alive t inOld word target inHeap with ⟨rest, accepts⟩
    exact ⟨rest, (agree_add.accepts_iff (inHeap.invariant
      (fun _ _ _ _ taken => clones.closed.step_lt taken) inside) rest).mpr accepts⟩

@[simp]
theorem words_none : Clones.none.words = 0 := by
  ext word
  cases word with
  | nil => exact iff_of_false Bool.false_ne_true (Language.notMem_zero _)
  | cons c word =>
      refine iff_of_false ?_ (Language.notMem_zero _)
      rintro ⟨t, inState, _⟩
      exact List.not_mem_nil inState

theorem alive_none : Clones.none.Alive :=
  fun _ inState => absurd inState List.not_mem_nil

end Clones

/-! ## The operations -/

/-- `union(a1, a2)` but for equal automata. -/
def union (a1 a2 : Automaton) : Automaton :=
  ((Clones.none.add a1).add a2).automaton

/-- The loop body of `union(l)`. -/
def unionNext (clones : Clones) (b : Automaton) : Clones :=
  if isEmpty b then clones else clones.add b

/-- `union(l)`. -/
def unionAll (l : List Automaton) : Automaton :=
  (l.foldl unionNext Clones.none).automaton

theorem builds_union {a1 a2 : Automaton} (invariants1 : ClassInvariants a1)
    (invariants2 : ClassInvariants a2) :
    Builds (union a1 a2) (language a1 + language a2) := by
  have alive : ((Clones.none.add a1).add a2).Alive :=
    (Clones.alive_none.add invariants1.live).add invariants2.live
  have built := alive.builds
  rwa [Clones.words_add, Clones.words_add, Clones.words_none, zero_add] at built

theorem words_unionNext {clones : Clones} {b : Automaton} :
    (unionNext clones b).words = clones.words + language b := by
  rw [unionNext]
  split_ifs with empty
  · rw [lang_of_isEmpty empty, add_zero]
  · exact Clones.words_add

theorem alive_unionNext {clones : Clones} {b : Automaton} (alive : clones.Alive)
    (live : Live b) : (unionNext clones b).Alive := by
  rw [unionNext]
  split_ifs
  · exact alive
  · exact alive.add live

theorem foldl_unionNext {l : List Automaton} {clones : Clones}
    (live : ∀ a ∈ l, Live a) (alive : clones.Alive) :
    (l.foldl unionNext clones).Alive ∧
      (l.foldl unionNext clones).words =
        clones.words + (l.map language).sum := by
  induction l generalizing clones with
  | nil =>
      rw [List.map_nil, List.sum_nil, add_zero]
      exact ⟨alive, rfl⟩
  | cons b l induction =>
      rw [List.map_cons, List.sum_cons, ← add_assoc, ← words_unionNext]
      exact induction (fun a member => live a (List.mem_cons_of_mem b member))
        (alive_unionNext alive (live b List.mem_cons_self))

theorem builds_unionAll {l : List Automaton}
    (invariants : ∀ a ∈ l, ClassInvariants a) :
    Builds (unionAll l) (l.map language).sum := by
  rcases foldl_unionNext (fun a member => (invariants a member).live)
    Clones.alive_none with ⟨alive, words⟩
  have built := alive.builds
  rwa [words, Clones.words_none, zero_add] at built

/--
The list operation agrees with one union after the other.
-/
theorem unionAll_agrees {l : List Automaton}
    (invariants : ∀ a ∈ l, ClassInvariants a) :
    ClassInvariants (unionAll l) ∧
      (unionAll l).lang = (l.foldr union Automaton.makeEmpty).lang := by
  have plain : ∀ l : List Automaton, (∀ a ∈ l, ClassInvariants a) →
      Builds (l.foldr union Automaton.makeEmpty) (l.map language).sum := by
    intro l
    induction l with
    | nil => exact fun _ => builds_makeEmpty
    | cons a l induction =>
        intro all
        rcases List.forall_mem_cons.mp all with ⟨first, others⟩
        have rest := induction others
        have joined := builds_union first rest.1
        rw [rest.2] at joined
        rw [List.map_cons, List.sum_cons]
        exact joined
  have built := builds_unionAll invariants
  exact ⟨built.1, built.2.trans (plain l invariants).2.symm⟩

/--
The list of `a` and `b`, both explicit, and the two unions.
-/
theorem unionAll_agrees_makeString :
    (unionAll [Automaton.makeString [97], Automaton.makeString [98]]).lang =
      (union (Automaton.makeString [97])
        (union (Automaton.makeString [98]) Automaton.makeEmpty)).lang :=
  (unionAll_agrees (List.forall_mem_cons.mpr ⟨makeString_invariants [97],
    List.forall_mem_singleton.mpr (makeString_invariants [98])⟩)).2

end SafetyGames.Automata
