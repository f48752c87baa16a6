import SafetyGames.Transducer.Deepcopy
import SafetyGames.Transducer.Grouping
import SafetyGames.Transducer.States

/-!
# From automata to transducers

The constructor `TransducerAutomaton(a, map)` walks over an automaton whose
characters are the keys of a map and replaces every transition by one on the
pair that the map holds.  It does so with the loop of `deepcopy`, so what it
builds is a copy of the translated automaton.
-/

namespace SafetyGames.Transducer

open SafetyGames.LabelledPath SafetyGames.Worklist

/-- `new TransducerPair(s)`; the components stay 0 if `s` has another length. -/
def TransducerPair.ofString : Word → TransducerPair
  | [u, v] => ⟨u, v⟩
  | _ => ⟨0, 0⟩

/-- A `HashMap<String, String>`. -/
abbrev PairMap := Word → Option Word

section FromAutomaton

variable (a : Automaton) (map : PairMap)

/-- The pair of a transition; `map.get` gives `null` on an unknown key, which
the constructor of the pair does not accept. -/
def mappedPair (t : Transition) : Option TransducerPair :=
  (map [t.min]).map TransducerPair.ofString

/-- One transition of the state `ts` under construction. -/
def translateTransition (ts : Nat) (built : Copying) (t : Transition) :
    Option Copying := do
  let p ← mappedPair map t
  return (built.enter t.dest (a.state t.dest).accept).addTransition ts p t.dest

/-- One iteration: the state from the worklist, then its transitions. -/
def translateState (built : Copying) (sid : Nat) : Option Copying :=
  let accept := (a.state sid).accept
  let built :=
    if sid = a.initial then (built.newState sid accept).setInitialState sid
    else built.enter sid accept
  (a.state sid).transitions.foldlM
    (translateTransition a map (built.get sid)) built

/-- `new TransducerAutomaton(a, map)`; as in `deepcopy` the worklist does not
depend on what was built. -/
def TransducerAutomaton.ofAutomaton : Option TransducerAutomaton := do
  let built ← exploreWith a.successors
    (fun built sid => built.bind fun built => translateState a map built sid)
    a.states.length ⟨[a.initial], [a.initial]⟩ (some Copying.start)
  return (← built).ret

end FromAutomaton

/-! ## The translated automaton -/

/-- The pair that the map holds for a character. -/
def pairOf (map : PairMap) (c : JChar) : TransducerPair :=
  TransducerPair.ofString ((map [c]).getD [])

/-- The first components of the characters of a word, without `'-'`. -/
def h1 (map : PairMap) (word : Word) : Word :=
  erase (word.map fun c => (pairOf map c).u)

/-- The second components of the characters of a word, without `'-'`. -/
def h2 (map : PairMap) (word : Word) : Word :=
  erase (word.map fun c => (pairOf map c).v)

section Components

variable {map : PairMap} {c x y : JChar} (isPair : pairOf map c = ⟨x, y⟩)
include isPair

theorem h1_cons_of_ne (letter : x ≠ dash) (word : Word) :
    h1 map (c :: word) = x :: h1 map word := by
  rw [h1, List.map_cons, isPair]
  exact erase_cons_of_ne letter _

theorem h2_cons_of_ne (letter : y ≠ dash) (word : Word) :
    h2 map (c :: word) = y :: h2 map word := by
  rw [h2, List.map_cons, isPair]
  exact erase_cons_of_ne letter _

theorem h1_replicate_append (letter : x ≠ dash) (n : Nat) (word : Word) :
    h1 map (List.replicate n c ++ word) = List.replicate n x ++ h1 map word := by
  induction n with
  | zero => rfl
  | succ n induction =>
      rw [List.replicate_succ, List.cons_append, h1_cons_of_ne isPair letter,
        induction]
      rfl

theorem h2_replicate_append (letter : y ≠ dash) (n : Nat) (word : Word) :
    h2 map (List.replicate n c ++ word) = List.replicate n y ++ h2 map word := by
  induction n with
  | zero => rfl
  | succ n induction =>
      rw [List.replicate_succ, List.cons_append, h2_cons_of_ne isPair letter,
        induction]
      rfl

end Components

/-- Every character of the automaton is a key that holds a two-character string. -/
def OverKeys (a : Automaton) (map : PairMap) : Prop :=
  ∀ ref, a.Reachable ref → ∀ t ∈ (a.state ref).transitions,
    ∀ c, t.Reads c → ∃ u v, map [c] = some [u, v]

section Translated

variable (a : Automaton) (map : PairMap)

/-- The transition on the pair of the lower end. -/
def translatedTransition (t : Transition) : TransducerTransition :=
  ⟨pairOf map t.min, t.dest⟩

/-- The state with its translated transitions. -/
def translatedState (state : State) : TransducerState where
  accept := state.accept
  transitions := state.transitions.map (translatedTransition map)

/-- The automaton with the pairs of the lower ends on its transitions. -/
def translated : TransducerAutomaton where
  states := a.states.map (translatedState map)
  initial := a.initial
  initial_lt := by
    rw [List.length_map]
    exact a.initial_lt
  closed := by
    intro state member transition inState
    rcases List.mem_map.mp member with ⟨before, inHeap, rfl⟩
    rcases List.mem_map.mp inState with ⟨t, inBefore, rfl⟩
    rw [List.length_map]
    exact a.closed before inHeap t inBefore

variable {a map}

theorem translated_state (ref : Nat) :
    (translated a map).state ref = translatedState map (a.state ref) := by
  show ((a.states.map (translatedState map))[ref]?).getD TransducerState.new =
    translatedState map ((a.states[ref]?).getD State.new)
  rw [List.getElem?_map]
  cases a.states[ref]? with
  | none => rfl
  | some state => rfl

theorem translated_accept (ref : Nat) :
    ((translated a map).state ref).accept = (a.state ref).accept := by
  rw [translated_state]
  rfl

theorem translated_transitions (ref : Nat) :
    ((translated a map).state ref).transitions =
      (a.state ref).transitions.map (translatedTransition map) := by
  rw [translated_state]
  rfl

theorem translated_successors :
    (translated a map).successors = a.successors := by
  funext ref
  rw [TransducerAutomaton.successors, translated_transitions, List.map_map]
  rfl

/-- The steps of the translated automaton are the pairs of the steps on lower ends. -/
theorem translated_step_iff {source target : Nat} {pair : TransducerPair} :
    (translated a map).states.Step source pair target ↔
      ∃ c, a.lowered.states.Step source c target ∧ pairOf map c = pair := by
  show _ ∈ ((translated a map).state source).transitions ↔ _
  rw [translated_transitions, List.mem_map]
  constructor
  · rintro ⟨t, member, equal⟩
    rcases TransducerTransition.mk.inj equal with ⟨isPair, isTarget⟩
    exact ⟨t.min, lowered_step_iff.mpr ⟨t, member, rfl, isTarget⟩, isPair⟩
  · rintro ⟨c, step, rfl⟩
    rcases lowered_step_iff.mp step with ⟨t, member, rfl, rfl⟩
    exact ⟨t, member, rfl⟩

/-- The paths of the translated automaton spell the words of lower ends. -/
theorem translated_path_iff {source target : Nat} {pairs : List TransducerPair} :
    Path (translated a map).states.Step source pairs target ↔
      ∃ word, Path a.lowered.states.Step source word target ∧
        word.map (pairOf map) = pairs := by
  induction pairs generalizing source with
  | nil =>
      rw [Path.nil_iff]
      constructor
      · rintro rfl
        exact ⟨[], Path.nil _, rfl⟩
      · rintro ⟨word, path, isNil⟩
        rw [List.map_eq_nil_iff.mp isNil] at path
        exact Path.nil_iff.mp path
  | cons pair pairs induction =>
      rw [Path.cons_iff]
      constructor
      · rintro ⟨middle, head, tail⟩
        rcases translated_step_iff.mp head with ⟨c, step, rfl⟩
        rcases induction.mp tail with ⟨word, path, rfl⟩
        exact ⟨c :: word, Path.cons step path, rfl⟩
      · rintro ⟨word, path, isCons⟩
        cases path with
        | nil => exact absurd isCons.symm (List.cons_ne_nil _ _)
        | cons head tail =>
            rcases List.cons.inj isCons with ⟨isPair, rest⟩
            exact ⟨_, translated_step_iff.mpr ⟨_, head, isPair⟩,
              induction.mpr ⟨_, tail, rest⟩⟩

end Translated

/-! ## What is built -/

section Built

variable {a : Automaton} {map : PairMap}

theorem OverKeys.mappedPair_eq (keys : OverKeys a map) {ref : Nat}
    (reachable : a.Reachable ref) {t : Transition}
    (member : t ∈ (a.state ref).transitions) :
    mappedPair map t = some (pairOf map t.min) := by
  rcases keys ref reachable t member t.min t.reads_min with ⟨u, v, isPair⟩
  rw [mappedPair, pairOf, isPair]
  rfl

/-- On known keys an iteration is one of the copy of the translated automaton. -/
theorem OverKeys.translateState_eq (keys : OverKeys a map) {sid : Nat}
    (reachable : a.Reachable sid) (built : Copying) :
    translateState a map built sid =
      some (copyState (translated a map) false built sid) := by
  have transitions : ∀ (ts : Nat) (list : List Transition) (built : Copying),
      (∀ t ∈ list, t ∈ (a.state sid).transitions) →
        list.foldlM (translateTransition a map ts) built =
          some ((list.map (translatedTransition map)).foldl
            (copyTransition (translated a map) false ts) built) := by
    intro ts list
    induction list with
    | nil =>
        intro built _
        rfl
    | cons t list induction =>
        intro built included
        have known := keys.mappedPair_eq reachable
          (included t List.mem_cons_self)
        have head : translateTransition a map ts built t =
            some (copyTransition (translated a map) false ts built
              (translatedTransition map t)) := by
          rw [translateTransition, known, copyTransition,
            translatedTransition, translated_accept]
          rfl
        rw [List.foldlM_cons, head, List.map_cons, List.foldl_cons]
        exact induction _ fun other member =>
          included other (List.mem_cons_of_mem t member)
  rw [translateState, copyState, translated_transitions, translated_accept]
  exact transitions _ _ _ fun _ => id

/-- No iteration failed, and each was one of the copy. -/
def BuiltFrom (a : Automaton) (map : PairMap) (done : List Nat)
    (value : Option Copying) : Prop :=
  ∃ built, value = some built ∧ CopiedFrom (translated a map) false done built

/-- On known keys the constructor ends with a complete copy of the translated
automaton. -/
theorem OverKeys.ofAutomaton_spec (keys : OverKeys a map) :
    ∃ built, TransducerAutomaton.ofAutomaton a map = some built.ret ∧
      CopiedAll (translated a map) false built := by
  have closed : ∀ sid ∈ Finset.range a.states.length,
      ∀ next ∈ a.successors sid, next ∈ Finset.range a.states.length := by
    intro sid _ next edge
    rcases Automaton.edge_iff.mp edge with ⟨c, step⟩
    exact Finset.mem_range.mpr (a.closed.step_lt step)
  have initially : BuiltFrom a map [] (some Copying.start) :=
    ⟨_, rfl, copiedFrom_start⟩
  have step : ∀ (done : List Nat) (sid : Nat) (value : Option Copying),
      (done = [] ↔ sid = a.initial) → sid ∉ done →
        Relation.ReflTransGen (Edge a.successors) a.initial sid →
          BuiltFrom a map done value →
            BuiltFrom a map (done ++ [sid])
              (value.bind fun built => translateState a map built sid) := by
    rintro done sid _ first _ reached ⟨known, rfl, before⟩
    have reachable := Automaton.reachable_iff.mpr reached
    exact ⟨_, keys.translateState_eq reachable known, before.step first⟩
  rcases exploreWith_spec step closed (Finset.mem_range.mpr a.initial_lt)
      (Finset.card_range _).le initially with
    ⟨done, _, returns, ⟨built, rfl, spec⟩, reached⟩
  refine ⟨built, ?_, spec.all ?_⟩
  · rw [TransducerAutomaton.ofAutomaton, returns]
    rfl
  · intro sid
    rw [reached, TransducerAutomaton.Reaches, translated_successors]
    exact Iff.rfl

/-- The constructor builds the pairs of the words spelled by lower ends. -/
theorem OverKeys.ofAutomaton_rel_iff (keys : OverKeys a map)
    {ta : TransducerAutomaton}
    (builds : TransducerAutomaton.ofAutomaton a map = some ta) {u v : Word} :
    ta.Rel u v ↔ ∃ word ∈ a.lowered.lang, h1 map word = u ∧ h2 map word = v := by
  rcases keys.ofAutomaton_spec with ⟨built, returns, all⟩
  rcases Option.some.inj (builds.symm.trans returns) with rfl
  rw [all.rel_iff]
  constructor
  · rintro ⟨pairs, target, path, accept, rfl, rfl⟩
    rcases translated_path_iff.mp path with ⟨word, spells, rfl⟩
    rw [translated_accept] at accept
    refine ⟨word, ⟨target, spells, ?_⟩, ?_, ?_⟩
    · rw [lowered_accept]
      exact accept
    · rw [List.map_map]
      rfl
    · rw [List.map_map]
      rfl
  · rintro ⟨word, ⟨target, spells, accept⟩, rfl, rfl⟩
    rw [lowered_accept] at accept
    refine ⟨word.map (pairOf map), target,
      translated_path_iff.mpr ⟨word, spells, rfl⟩, ?_, ?_, ?_⟩
    · rw [translated_accept]
      exact accept
    · rw [List.map_map]
      rfl
    · rw [List.map_map]
      rfl

end Built

/-! ## The relation of a regular expression -/

/--
The constructor ends on known keys.  What it builds is the relation of the
automaton exactly when the lower ends write all its pairs.
-/
theorem ofAutomaton_exact_iff {a : Automaton} {map : PairMap}
    (keys : OverKeys a map) :
    ∃ ta, TransducerAutomaton.ofAutomaton a map = some ta ∧
      ((∀ u v, ta.Rel u v ↔
          ∃ word ∈ a.lang, h1 map word = u ∧ h2 map word = v) ↔
        ∀ word ∈ a.lang, ∃ other ∈ a.lowered.lang,
          h1 map other = h1 map word ∧ h2 map other = h2 map word) := by
  rcases keys.ofAutomaton_spec with ⟨built, builds, _⟩
  refine ⟨built.ret, builds, ?_⟩
  constructor
  · intro isExact word member
    have related := (isExact _ _).mpr ⟨word, member, rfl, rfl⟩
    exact (keys.ofAutomaton_rel_iff builds).mp related
  · intro covered u v
    rw [keys.ofAutomaton_rel_iff builds]
    constructor
    · rintro ⟨word, member, spells⟩
      exact ⟨word, lang_lowered_subset member, spells⟩
    · rintro ⟨word, member, rfl, rfl⟩
      exact covered word member

/-- A map with the keys `a` and `b`. -/
def twoKeys (first second : Word) : PairMap :=
  fun key => [([97], first), ([98], second)].lookup key

theorem overKeys_mergedAutomaton {u v u' v' : JChar} :
    OverKeys mergedAutomaton (twoKeys [u, v] [u', v']) := by
  intro ref _ t member c reads
  rcases mergedAutomaton_transitions.mp member with ⟨_, rfl⟩
  rcases (reads_ab rfl rfl c).mp reads with rfl | rfl
  · exact ⟨u, v, rfl⟩
  · exact ⟨u', v', rfl⟩

/--
Two keys that hold the same string may share a transition: nothing is lost.
-/
theorem ofAutomaton_exact_sameValue :
    ∃ ta, TransducerAutomaton.ofAutomaton mergedAutomaton
        (twoKeys [97, 98] [97, 98]) = some ta ∧
      ∀ u v, ta.Rel u v ↔ ∃ word ∈ mergedAutomaton.lang,
        h1 (twoKeys [97, 98] [97, 98]) word = u ∧
          h2 (twoKeys [97, 98] [97, 98]) word = v := by
  rcases ofAutomaton_exact_iff (@overKeys_mergedAutomaton 97 98 97 98) with
    ⟨ta, builds, exact_iff⟩
  refine ⟨ta, builds, exact_iff.mpr ?_⟩
  intro word member
  refine ⟨[97], (mem_lang_lowered_mergedAutomaton [97]).mpr rfl, ?_⟩
  rcases (mem_lang_mergedAutomaton word).mp member with rfl | rfl
  · exact ⟨rfl, rfl⟩
  · exact ⟨rfl, rfl⟩

/--
The transition of `a` and `b` becomes one on the pair of `a`, and the pair `(b,
b)` of the word `b` is lost.
-/
theorem ofAutomaton_not_exact :
    OverKeys mergedAutomaton (twoKeys [97, 97] [98, 98]) ∧
      ∃ ta, TransducerAutomaton.ofAutomaton mergedAutomaton
          (twoKeys [97, 97] [98, 98]) = some ta ∧
        ¬ ∀ u v, ta.Rel u v ↔ ∃ word ∈ mergedAutomaton.lang,
          h1 (twoKeys [97, 97] [98, 98]) word = u ∧
            h2 (twoKeys [97, 97] [98, 98]) word = v := by
  have keys := @overKeys_mergedAutomaton 97 97 98 98
  rcases keys.ofAutomaton_spec with ⟨built, builds, _⟩
  refine ⟨keys, built.ret, builds, ?_⟩
  intro isExact
  have related : built.ret.Rel [98] [98] := by
    apply (isExact [98] [98]).mpr
    exact ⟨[98], (mem_lang_mergedAutomaton [98]).mpr (Or.inr rfl), rfl, rfl⟩
  rcases (keys.ofAutomaton_rel_iff builds).mp related with
    ⟨word, member, spells, _⟩
  rw [(mem_lang_lowered_mergedAutomaton word).mp member] at spells
  exact absurd spells (by decide)

end SafetyGames.Transducer
