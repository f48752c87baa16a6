import SafetyGames.Automata.State

/-!
# Running an automaton on a string

`run`: with the deterministic flag the first transition that reads a character
is taken, without it the set of all states that may have been reached is
carried along.
-/

namespace SafetyGames.Automata

open SafetyGames.Transducer SafetyGames.LabelledPath

/-! ## Deterministic automata -/

/-- The loop of `run` on a deterministic automaton, from the state `p`. -/
def runFrom (heap : Heap) : Nat → Word → Bool
  | p, [] => (heap.state p).accept
  | p, c :: rest =>
      match step (heap.state p) c with
      | none => false
      | some q => runFrom heap q rest

theorem runFrom_iff {heap : Heap} {initial : Nat}
    (deterministic : heap.DeterministicFrom initial) {word : Word} {p : Nat}
    {before : Word} (path : Path heap.Step initial before p) :
    runFrom heap p word = true ↔ heap.Accepts p word := by
  induction word generalizing p before with
  | nil => exact Heap.accepts_nil.symm
  | cons c word induction =>
      have only := @step_eq_some_iff heap p
      rw [Heap.accepts_cons, runFrom]
      cases found : step (heap.state p) c with
      | none =>
          refine iff_of_false Bool.false_ne_true ?_
          rintro ⟨q, taken, _⟩
          have first := (step_eq_some_iff (deterministic before p path c)).mpr taken
          exact Option.some_ne_none q (first.symm.trans found)
      | some q =>
          have taken := step_of_step found
          refine (induction (path.snoc taken)).trans ⟨fun accepts =>
            ⟨q, taken, accepts⟩, ?_⟩
          rintro ⟨other, taken', accepts⟩
          rwa [deterministic before p path c q other taken taken']

/-! ## Nondeterministic automata -/

/-- The states `pp_other` with the bits `bb_other`, and `accept`. -/
structure Frontier where
  pp : List Nat
  accept : Bool

/-- The loop body for one destination `q`. -/
def Frontier.meet (heap : Heap) (frontier : Frontier) (q : Nat) : Frontier where
  pp := if q ∈ frontier.pp then frontier.pp else frontier.pp ++ [q]
  accept := frontier.accept || (heap.state q).accept

/-- The loop body for one character `c`. -/
def Frontier.read (heap : Heap) (frontier : Frontier) (c : JChar) : Frontier :=
  (frontier.pp.flatMap fun p => stepAll (heap.state p) c).foldl
    (Frontier.meet heap) ⟨[], false⟩

/-- `pp.add(a.initial)` and `accept = a.initial.accept`. -/
def Frontier.start (heap : Heap) (initial : Nat) : Frontier where
  pp := [initial]
  accept := (heap.state initial).accept

/-- The flag tells whether one of the states accepts. -/
def Frontier.Exact (heap : Heap) (frontier : Frontier) : Prop :=
  frontier.accept = true ↔ ∃ p ∈ frontier.pp, (heap.state p).accept = true

section Frontier

variable {heap : Heap}

theorem Frontier.Exact.meet {frontier : Frontier} (known : frontier.Exact heap)
    (q : Nat) : (frontier.meet heap q).Exact heap := by
  have before : frontier.accept = true ↔ _ := known
  rw [Exact, Frontier.meet, Bool.or_eq_true, before]
  by_cases met : q ∈ frontier.pp
  · simp only [if_pos met, or_iff_left_iff_imp]
    exact fun accepts => ⟨q, met, accepts⟩
  · simp [if_neg met, or_and_right, exists_or]

theorem Frontier.mem_meet {frontier : Frontier} {p q : Nat} :
    p ∈ (frontier.meet heap q).pp ↔ p ∈ frontier.pp ∨ p = q := by
  rw [Frontier.meet]
  by_cases known : q ∈ frontier.pp
  · simp only [if_pos known, iff_self_or]
    rintro rfl
    exact known
  · simp [if_neg known]

theorem Frontier.foldl_meet (list : List Nat) {frontier : Frontier}
    (known : frontier.Exact heap) :
    (list.foldl (Frontier.meet heap) frontier).Exact heap ∧
      ∀ p, p ∈ (list.foldl (Frontier.meet heap) frontier).pp ↔
        p ∈ frontier.pp ∨ p ∈ list := by
  induction list generalizing frontier with
  | nil => exact ⟨known, fun p => by simp⟩
  | cons q list induction =>
      rcases induction (known.meet q) with ⟨further, members⟩
      refine ⟨further, fun p => (members p).trans ?_⟩
      rw [Frontier.mem_meet, List.mem_cons, or_assoc]

theorem Frontier.mem_read {frontier : Frontier} {c : JChar} :
    (frontier.read heap c).Exact heap ∧
      ∀ q, q ∈ (frontier.read heap c).pp ↔
        ∃ p ∈ frontier.pp, heap.Step p c q := by
  have nothing : Frontier.Exact heap ⟨[], false⟩ := by
    simp [Frontier.Exact]
  rcases Frontier.foldl_meet
    (frontier.pp.flatMap fun p => stepAll (heap.state p) c) nothing with
    ⟨further, members⟩
  refine ⟨further, fun q => (members q).trans ?_⟩
  simp [List.mem_flatMap, mem_stepAll]

/-- The frontier stands for the states that may have been reached. -/
theorem Frontier.foldl_read (word : Word) {frontier : Frontier}
    (known : frontier.Exact heap) :
    (word.foldl (Frontier.read heap) frontier).accept = true ↔
      ∃ p ∈ frontier.pp, heap.Accepts p word := by
  induction word generalizing frontier with
  | nil =>
      refine Iff.trans known ?_
      simp only [Heap.accepts_nil]
  | cons c word induction =>
      rcases @Frontier.mem_read heap frontier c with ⟨further, members⟩
      rw [List.foldl_cons, induction further]
      simp only [members, Heap.accepts_cons]
      constructor
      · rintro ⟨q, ⟨p, known, taken⟩, accepts⟩
        exact ⟨p, known, q, taken, accepts⟩
      · rintro ⟨p, known, q, taken, accepts⟩
        exact ⟨q, ⟨p, known, taken⟩, accepts⟩

theorem Frontier.exact_start (initial : Nat) :
    (Frontier.start heap initial).Exact heap := by
  simp [Frontier.Exact, Frontier.start]

end Frontier

/-! ## Both together -/

/-- `run(a, s)` on an automaton that is no singleton. -/
def run (a : Automaton) (s : Word) : Bool :=
  if a.deterministic then runFrom a.states a.initial s
  else (s.foldl (Frontier.read a.states)
    (Frontier.start a.states a.initial)).accept

/-- `run` decides membership. -/
theorem run_iff_mem_lang {a : Automaton} (honest : a.HonestFlag) {s : Word} :
    run a s = true ↔ s ∈ a.lang := by
  rw [run]
  by_cases flag : a.deterministic = true
  · rw [if_pos flag]
    exact runFrom_iff (honest flag) (Path.nil _)
  · rw [if_neg flag, Frontier.foldl_read s (Frontier.exact_start a.initial)]
    simp [Frontier.start, Automaton.mem_lang]

end SafetyGames.Automata
