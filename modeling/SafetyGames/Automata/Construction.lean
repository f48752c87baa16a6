import SafetyGames.Automata.Heaps

/-!
# Automata made from keys

The loops of the library that make a new state for every key they meet: sets
of states, pairs of states, blocks.  The map from the keys to the new states
is the list of the keys in the order of their construction.
-/

namespace SafetyGames.Automata

open SafetyGames.Transducer SafetyGames.Intervals SafetyGames.LabelledPath

/-- The keys met by a loop, with what it does for each of them. -/
structure Construction (κ : Type) [DecidableEq κ] where
  keys : List κ
  start : κ
  accept : κ → Bool
  next : κ → List (Segment κ)
  start_mem : start ∈ keys
  next_mem : ∀ key ∈ keys, ∀ numbers ∈ next key, numbers.key ∈ keys

namespace Construction

variable {κ : Type} [DecidableEq κ] (made : Construction κ)

/-- `newstates.get(key)`. -/
def ref (key : κ) : Nat :=
  made.keys.idxOf key

/-- The new state of a key; its transitions are a set. -/
def newState (key : κ) : State where
  accept := made.accept key
  transitions := ((made.next key).map fun numbers =>
    ofInterval { numbers with key := made.ref numbers.key }).dedup

/-- The automaton of the new states. -/
def automaton (deterministic : Bool) : Automaton where
  states := made.keys.map made.newState
  initial := made.ref made.start
  deterministic := deterministic
  initial_lt := by
    rw [List.length_map]
    exact List.idxOf_lt_length_of_mem made.start_mem
  closed := by
    intro state member transition inState
    rcases List.mem_map.mp member with ⟨key, known, rfl⟩
    rcases List.mem_map.mp (List.mem_dedup.mp inState) with
      ⟨numbers, inNext, rfl⟩
    rw [ofInterval_dest, List.length_map]
    exact List.idxOf_lt_length_of_mem (made.next_mem key known numbers inNext)

/-- All intervals are intervals of characters. -/
def Proper : Prop :=
  ∀ key ∈ made.keys, ∀ numbers ∈ made.next key,
    numbers.low ≤ numbers.high ∧ numbers.high ≤ maxValue

variable {made} {deterministic : Bool}

theorem state_ref {key : κ} (known : key ∈ made.keys) :
    (made.automaton deterministic).states.state (made.ref key) =
      made.newState key := by
  have inside := List.idxOf_lt_length_of_mem known
  rw [Heap.state, automaton, List.getElem?_map, ref,
    List.getElem?_eq_getElem inside, List.getElem_idxOf]
  rfl

theorem step_iff (proper : made.Proper) {key : κ} (known : key ∈ made.keys)
    {c : JChar} {target : Nat} :
    (made.automaton deterministic).states.Step (made.ref key) c target ↔
      ∃ numbers ∈ made.next key, numbers.Has c.toNat ∧
        made.ref numbers.key = target := by
  rw [Heap.Step, state_ref known]
  simp only [newState, List.mem_dedup, List.mem_map, exists_exists_and_eq_and]
  refine exists_congr fun numbers => and_congr_right fun member => ?_
  rcases proper key known numbers member with ⟨order, bounded⟩
  rw [ofInterval_dest]
  exact and_congr_left fun _ => ofInterval_reads order bounded

/-- The languages that satisfy the equations of the keys are accepted. -/
theorem accepts_iff (proper : made.Proper) {language : κ → Word → Prop}
    (empty : ∀ key ∈ made.keys, made.accept key = true ↔ language key [])
    (cons : ∀ key ∈ made.keys, ∀ c word, language key (c :: word) ↔
      ∃ numbers ∈ made.next key, numbers.Has c.toNat ∧
        language numbers.key word)
    {key : κ} (known : key ∈ made.keys) {word : Word} :
    (made.automaton deterministic).states.Accepts (made.ref key) word ↔
      language key word := by
  apply @accepts_iff_of_equations _ κ (· ∈ made.keys) made.ref language
    fun key c after => ∃ numbers ∈ made.next key,
      numbers.Has c.toNat ∧ numbers.key = after
  · intro key known c target
    rw [step_iff proper known]
    constructor
    · rintro ⟨numbers, member, has, isTarget⟩
      exact ⟨_, ⟨numbers, member, has, rfl⟩, isTarget⟩
    · rintro ⟨_, ⟨numbers, member, has, rfl⟩, isTarget⟩
      exact ⟨numbers, member, has, isTarget⟩
  · rintro key known c _ ⟨numbers, member, _, rfl⟩
    exact made.next_mem key known numbers member
  · intro key known
    rw [state_ref known]
    exact empty key known
  · intro key known c word
    rw [cons key known]
    constructor
    · rintro ⟨numbers, member, has, holds⟩
      exact ⟨_, ⟨numbers, member, has, rfl⟩, holds⟩
    · rintro ⟨_, ⟨numbers, member, has, rfl⟩, holds⟩
      exact ⟨numbers, member, has, holds⟩
  · exact known

/-- Every state that a word leads to belongs to a key. -/
theorem exists_key (proper : made.Proper) {key : κ} (known : key ∈ made.keys)
    {word : Word} {target : Nat}
    (path : Path (made.automaton deterministic).states.Step (made.ref key)
      word target) :
    ∃ after ∈ made.keys, made.ref after = target := by
  have kept : ∀ source c target, (∃ before ∈ made.keys, made.ref before = source) →
      (made.automaton deterministic).states.Step source c target →
        ∃ after ∈ made.keys, made.ref after = target := by
    rintro _ c target ⟨before, here, rfl⟩ taken
    rcases (step_iff proper here).mp taken with ⟨numbers, member, _, rfl⟩
    exact ⟨_, made.next_mem before here numbers member, rfl⟩
  exact path.invariant kept ⟨key, known, rfl⟩

/-- Without choices between keys the automaton is deterministic. -/
theorem deterministicFrom (proper : made.Proper)
    (unique : ∀ key ∈ made.keys, ∀ point, ∀ left ∈ made.next key,
      ∀ right ∈ made.next key, left.Has point → right.Has point →
        left.key = right.key) :
    (made.automaton deterministic).states.DeterministicFrom
      (made.automaton deterministic).initial := by
  intro word source path c left right first second
  rcases exists_key proper made.start_mem path with ⟨key, known, rfl⟩
  rcases (step_iff proper known).mp first with ⟨numbers, member, has, rfl⟩
  rcases (step_iff proper known).mp second with ⟨others, member', has', rfl⟩
  rw [unique key known c.toNat numbers member others member' has has']

end Construction

end SafetyGames.Automata
