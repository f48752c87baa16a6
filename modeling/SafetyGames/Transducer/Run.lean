import Mathlib.Data.List.Basic
import SafetyGames.Transducer.Transducer

/-!
# Running a transducer

`run` follows one path: it prefers a transition on both next characters to one
on the input only, that to one on the output only, and takes the first
transition that the iteration of the state's set finds.  A pair of the relation
is therefore accepted exactly when one of its accepting paths is made of
transitions that no other transition of their state overtakes.
-/

namespace SafetyGames.Transducer

open SafetyGames.LabelledPath

/-- `step(p)`: the destination of the first transition with the pair. -/
def TransducerState.step (state : TransducerState) (p : TransducerPair) :
    Option Nat :=
  (state.transitions.find? fun t => t.pair = p).map TransducerTransition.dest

/-- The variables of `run`: the state, and the words from `i` and from `j` on. -/
structure RunState where
  ts : Nat
  u : Word
  v : Word
deriving DecidableEq

section Run

variable (ta : TransducerAutomaton)

/-- One iteration of `run`; there is none once both words are read or when no
transition is found. -/
def advance : RunState → Option RunState
  | ⟨ts, c :: u, d :: v⟩ =>
      match (ta.state ts).step ⟨c, d⟩ with
      | some tq => some ⟨tq, u, v⟩
      | none =>
          match (ta.state ts).step ⟨c, dash⟩ with
          | some tq => some ⟨tq, u, d :: v⟩
          | none =>
              match (ta.state ts).step ⟨dash, d⟩ with
              | some tq => some ⟨tq, c :: u, v⟩
              | none => none
  | ⟨ts, c :: u, []⟩ =>
      match (ta.state ts).step ⟨c, dash⟩ with
      | some tq => some ⟨tq, u, []⟩
      | none => none
  | ⟨ts, [], d :: v⟩ =>
      match (ta.state ts).step ⟨dash, d⟩ with
      | some tq => some ⟨tq, [], v⟩
      | none => none
  | ⟨_, [], []⟩ => none

/-- The loop of `run`; the fuel bounds the number of its iterations. -/
def runLoop : Nat → RunState → Bool
  | 0, state =>
      if state.u = [] ∧ state.v = [] then (ta.state state.ts).accept else false
  | fuel + 1, state =>
      if state.u = [] ∧ state.v = [] then
        (ta.state state.ts).accept
      else
        match advance ta state with
        | some next => runLoop fuel next
        | none => false

/-- `run(a, u, v)`: every iteration reads a character. -/
def run (u v : Word) : Bool :=
  runLoop ta (u.length + v.length) ⟨ta.initial, u, v⟩

end Run

/-! ## Transitions that overtake each other -/

/-- What a pair reads at the front of two words, and what it leaves of them. -/
inductive Reads : TransducerPair → Word → Word → Word → Word → Prop where
  | both (c d : JChar) (u v : Word) : Reads ⟨c, d⟩ (c :: u) (d :: v) u v
  | input (c : JChar) (u v : Word) : Reads ⟨c, dash⟩ (c :: u) v u v
  | output (d : JChar) (u v : Word) : Reads ⟨dash, d⟩ u (d :: v) u v

/-- The pair can read the front of the two words. -/
def TransducerPair.Fits (pair : TransducerPair) (u v : Word) : Prop :=
  ∃ restU restV, Reads pair u v restU restV

/-- A pair of two letters goes before an input letter alone, and that before an
output letter alone. -/
def TransducerPair.rank (pair : TransducerPair) : Nat :=
  if pair.u = dash then 2 else if pair.v = dash then 1 else 0

/-- In front of the words, the state has another transition that can read them:
one whose pair goes before the pair of this one, or one with the same pair that
the iteration meets earlier. -/
def TransducerState.Overtaken (state : TransducerState) (index : Nat)
    (pair : TransducerPair) (u v : Word) : Prop :=
  ∃ (earlier : Nat) (rival : TransducerTransition),
    state.transitions[earlier]? = some rival ∧ rival.pair.Fits u v ∧
      (rival.pair.rank < pair.rank ∨ rival.pair = pair ∧ earlier < index)

/-- An accepting path for the two words on which no transition is overtaken in
front of what is left of them. -/
inductive TransducerAutomaton.AcceptsUnovertaken (ta : TransducerAutomaton) :
    Nat → Word → Word → Prop where
  | stop {source : Nat} (accept : (ta.state source).accept = true) :
      AcceptsUnovertaken ta source [] []
  | step {source index : Nat} {transition : TransducerTransition}
      {u v restU restV : Word}
      (found : (ta.state source).transitions[index]? = some transition)
      (reads : Reads transition.pair u v restU restV)
      (first : ¬ (ta.state source).Overtaken index transition.pair u v)
      (rest : AcceptsUnovertaken ta transition.dest restU restV) :
      AcceptsUnovertaken ta source u v

/-- Two pairs are rivals when they can read the front of the same two words. -/
def TransducerPair.Rivals (pair other : TransducerPair) : Prop :=
  ∃ u v, dash ∉ u ∧ dash ∉ v ∧ pair.Fits u v ∧ other.Fits u v

/-- No state has two transitions with rival pairs. -/
def TransducerAutomaton.NoRivals (ta : TransducerAutomaton) : Prop :=
  ∀ (source index other : Nat) (transition rival : TransducerTransition),
    (ta.state source).transitions[index]? = some transition →
      (ta.state source).transitions[other]? = some rival →
        transition.pair.Rivals rival.pair → index = other

/-- The transition that `step` finds: the first of the iteration with the pair. -/
theorem TransducerState.step_eq_some_iff {state : TransducerState}
    {pair : TransducerPair} {target : Nat} :
    state.step pair = some target ↔
      ∃ index : Nat, state.transitions[index]? = some ⟨pair, target⟩ ∧
        ∀ earlier < index, ∀ rival : TransducerTransition,
          state.transitions[earlier]? = some rival → rival.pair ≠ pair := by
  rw [TransducerState.step, Option.map_eq_some_iff]
  constructor
  · rintro ⟨⟨other, target⟩, isFirst, rfl⟩
    rcases List.find?_eq_some_iff_getElem.mp isFirst with
      ⟨isPair, index, inside, isAt, before⟩
    have same : other = pair := by simpa using isPair
    rcases same with rfl
    refine ⟨index, List.getElem?_eq_some_iff.mpr ⟨inside, isAt⟩, ?_⟩
    intro earlier less rival found
    rcases List.getElem?_eq_some_iff.mp found with ⟨_, rfl⟩
    simpa using before earlier less
  · rintro ⟨index, found, before⟩
    refine ⟨⟨pair, target⟩, ?_, rfl⟩
    rcases List.getElem?_eq_some_iff.mp found with ⟨inside, isAt⟩
    refine List.find?_eq_some_iff_getElem.mpr
      ⟨by simp, index, inside, isAt, ?_⟩
    intro earlier less
    have differs := before earlier less _
      (List.getElem?_eq_getElem (less.trans inside))
    simpa using differs

theorem TransducerState.step_eq_none_iff {state : TransducerState}
    {pair : TransducerPair} :
    state.step pair = none ↔
      ∀ (index : Nat) (rival : TransducerTransition),
        state.transitions[index]? = some rival → rival.pair ≠ pair := by
  rw [TransducerState.step, Option.map_eq_none_iff, List.find?_eq_none]
  constructor
  · intro without index rival found
    simpa using without rival (List.mem_of_getElem? found)
  · intro without rival member
    rcases List.getElem?_of_mem member with ⟨index, found⟩
    simpa using without index rival found

@[simp]
theorem TransducerPair.rank_both {c d : JChar} (input : c ≠ dash)
    (output : d ≠ dash) : (⟨c, d⟩ : TransducerPair).rank = 0 := by
  simp [rank, input, output]

@[simp]
theorem TransducerPair.rank_input {c : JChar} (input : c ≠ dash) :
    (⟨c, dash⟩ : TransducerPair).rank = 1 := by
  simp [rank, input]

@[simp]
theorem TransducerPair.rank_output (d : JChar) :
    (⟨dash, d⟩ : TransducerPair).rank = 2 := by
  simp [rank]

/-! ## The iterations of `run` -/

section Advance

variable {ta : TransducerAutomaton}

/-- A transition with the pair at an earlier index, or with a pair that goes
before it, would overtake the transition. -/
theorem not_overtaken_iff {state : TransducerState} {index : Nat}
    {pair : TransducerPair} {u v : Word} (fits : pair.Fits u v) :
    ¬ state.Overtaken index pair u v ↔
      (∀ earlier < index, ∀ rival : TransducerTransition,
        state.transitions[earlier]? = some rival → rival.pair ≠ pair) ∧
      ∀ other : TransducerPair, other.Fits u v → other.rank < pair.rank →
        state.step other = none := by
  constructor
  · intro first
    constructor
    · rintro earlier less rival found rfl
      exact first ⟨earlier, rival, found, fits, Or.inr ⟨rfl, less⟩⟩
    · intro other otherFits before
      rw [TransducerState.step_eq_none_iff]
      rintro earlier rival found rfl
      exact first ⟨earlier, rival, found, otherFits, Or.inl before⟩
  · rintro ⟨noneEarlier, noneBefore⟩ ⟨earlier, rival, found, rivalFits, overtakes⟩
    rcases overtakes with before | ⟨same, less⟩
    · exact TransducerState.step_eq_none_iff.mp
        (noneBefore _ rivalFits before) _ _ found rfl
    · exact noneEarlier _ less _ found same

/-- What `step` and the pairs that go before say of a transition that is not
overtaken. -/
theorem exists_not_overtaken_iff {state : TransducerState} {target : Nat}
    {pair : TransducerPair} {u v : Word} (fits : pair.Fits u v) :
    (∃ index : Nat, state.transitions[index]? = some ⟨pair, target⟩ ∧
        ¬ state.Overtaken index pair u v) ↔
      state.step pair = some target ∧
        ∀ other : TransducerPair, other.Fits u v → other.rank < pair.rank →
          state.step other = none := by
  rw [TransducerState.step_eq_some_iff]
  constructor
  · rintro ⟨index, found, first⟩
    rcases (not_overtaken_iff fits).mp first with ⟨noneEarlier, noneBefore⟩
    exact ⟨⟨index, found, noneEarlier⟩, noneBefore⟩
  · rintro ⟨⟨index, found, noneEarlier⟩, noneBefore⟩
    exact ⟨index, found,
      (not_overtaken_iff fits).mpr ⟨noneEarlier, noneBefore⟩⟩

@[simp]
theorem fits_cons_cons {pair : TransducerPair} {c d : JChar} {u v : Word} :
    pair.Fits (c :: u) (d :: v) ↔
      pair = ⟨c, d⟩ ∨ pair = ⟨c, dash⟩ ∨ pair = ⟨dash, d⟩ := by
  constructor
  · rintro ⟨_, _, reads⟩
    cases reads with
    | both => exact Or.inl rfl
    | input => exact Or.inr (Or.inl rfl)
    | output => exact Or.inr (Or.inr rfl)
  · rintro (rfl | rfl | rfl)
    · exact ⟨_, _, Reads.both c d u v⟩
    · exact ⟨_, _, Reads.input c u (d :: v)⟩
    · exact ⟨_, _, Reads.output d (c :: u) v⟩

@[simp]
theorem fits_cons_nil {pair : TransducerPair} {c : JChar} {u : Word} :
    pair.Fits (c :: u) [] ↔ pair = ⟨c, dash⟩ := by
  constructor
  · rintro ⟨_, _, reads⟩
    cases reads
    rfl
  · rintro rfl
    exact ⟨_, _, Reads.input c u []⟩

@[simp]
theorem fits_nil_cons {pair : TransducerPair} {d : JChar} {v : Word} :
    pair.Fits [] (d :: v) ↔ pair = ⟨dash, d⟩ := by
  constructor
  · rintro ⟨_, _, reads⟩
    cases reads
    rfl
  · rintro rfl
    exact ⟨_, _, Reads.output d [] v⟩

/-- The two words hold no `'-'`. -/
def NoDash (u v : Word) : Prop :=
  dash ∉ u ∧ dash ∉ v

theorem NoDash.rest {pair : TransducerPair} {u v restU restV : Word}
    (noDash : NoDash u v) (reads : Reads pair u v restU restV) :
    NoDash restU restV := by
  rcases noDash with ⟨input, output⟩
  cases reads with
  | both =>
      exact ⟨List.not_mem_of_not_mem_cons input,
        List.not_mem_of_not_mem_cons output⟩
  | input => exact ⟨List.not_mem_of_not_mem_cons input, output⟩
  | output => exact ⟨input, List.not_mem_of_not_mem_cons output⟩

theorem ne_dash {c : JChar} {word : Word} (without : dash ∉ c :: word) :
    c ≠ dash := by
  rintro rfl
  exact without List.mem_cons_self

/-- One iteration reads a pair that the state has, and none of the pairs that
go before it. -/
theorem advance_eq_some_iff {source target : Nat} {u v restU restV : Word}
    (noDash : NoDash u v) :
    advance ta ⟨source, u, v⟩ = some ⟨target, restU, restV⟩ ↔
      ∃ pair, Reads pair u v restU restV ∧
        (ta.state source).step pair = some target ∧
          ∀ other : TransducerPair, other.Fits u v →
            other.rank < pair.rank → (ta.state source).step other = none := by
  rcases noDash with ⟨input, output⟩
  constructor
  · intro move
    cases u with
    | nil =>
        cases v with
        | nil => exact absurd move (Option.some_ne_none _).symm
        | cons d v =>
            simp only [advance] at move
            split at move
            · next tq found =>
                cases move
                exact ⟨_, Reads.output .., found, by simp⟩
            · exact absurd move (Option.some_ne_none _).symm
    | cons c u =>
        have isInput := ne_dash input
        cases v with
        | nil =>
            simp only [advance] at move
            split at move
            · next tq found =>
                cases move
                exact ⟨_, Reads.input .., found, by simp⟩
            · exact absurd move (Option.some_ne_none _).symm
        | cons d v =>
            have isOutput := ne_dash output
            simp only [advance] at move
            split at move
            · next tq found =>
                cases move
                refine ⟨_, Reads.both .., found, ?_⟩
                simp [isInput, isOutput]
            · next noBoth =>
                split at move
                · next tq found =>
                    cases move
                    refine ⟨_, Reads.input .., found, ?_⟩
                    simp [isInput, isOutput, noBoth]
                · next noInput =>
                    split at move
                    · next tq found =>
                        cases move
                        refine ⟨_, Reads.output .., found, ?_⟩
                        simp [isInput, isOutput, noBoth, noInput]
                    · exact absurd move (Option.some_ne_none _).symm
  · rintro ⟨pair, reads, found, before⟩
    cases reads with
    | both => simp [advance, found]
    | input c u v =>
        have isInput := ne_dash input
        cases v with
        | nil => simp [advance, found]
        | cons d v =>
            have isOutput := ne_dash output
            have noBoth := before ⟨c, d⟩ (by simp)
              (by simp [isInput, isOutput])
            simp [advance, noBoth, found]
    | output d u v =>
        have isOutput := ne_dash output
        cases u with
        | nil => simp [advance, found]
        | cons c u =>
            have isInput := ne_dash input
            have noBoth := before ⟨c, d⟩ (by simp)
              (by simp [isInput, isOutput])
            have noInput := before ⟨c, dash⟩ (by simp) (by simp [isInput])
            simp [advance, noBoth, noInput, found]

/-- One iteration takes a transition that is not overtaken. -/
theorem advance_iff_not_overtaken {source target : Nat}
    {u v restU restV : Word} (noDash : NoDash u v) :
    advance ta ⟨source, u, v⟩ = some ⟨target, restU, restV⟩ ↔
      ∃ pair index,
        (ta.state source).transitions[index]? = some ⟨pair, target⟩ ∧
          Reads pair u v restU restV ∧
            ¬ (ta.state source).Overtaken index pair u v := by
  rw [advance_eq_some_iff noDash]
  constructor
  · rintro ⟨pair, reads, chosen⟩
    rcases (exists_not_overtaken_iff ⟨restU, restV, reads⟩).mpr chosen with
      ⟨index, found, first⟩
    exact ⟨pair, index, found, reads, first⟩
  · rintro ⟨pair, index, found, reads, first⟩
    exact ⟨pair, reads,
      (exists_not_overtaken_iff ⟨restU, restV, reads⟩).mp
        ⟨index, found, first⟩⟩

theorem Reads.length_lt {pair : TransducerPair} {u v restU restV : Word}
    (reads : Reads pair u v restU restV) :
    restU.length + restV.length < u.length + v.length := by
  cases reads <;> simp only [List.length_cons] <;> omega

/-- With enough fuel, the loop accepts exactly the words of the accepting paths
without an overtaken transition.  The induction is on the fuel, since every
iteration reads a character. -/
theorem runLoop_iff {fuel source : Nat} {u v : Word} (noDash : NoDash u v)
    (enough : u.length + v.length ≤ fuel) :
    runLoop ta fuel ⟨source, u, v⟩ = true ↔
      ta.AcceptsUnovertaken source u v := by
  have whenRead : ∀ source, ta.AcceptsUnovertaken source [] [] ↔
      (ta.state source).accept = true := by
    intro source
    constructor
    · intro accepts
      cases accepts with
      | stop accept => exact accept
      | step _ reads => exact absurd reads.length_lt (Nat.not_lt_zero _)
    · exact TransducerAutomaton.AcceptsUnovertaken.stop
  induction fuel generalizing source u v with
  | zero =>
      have read : u = [] ∧ v = [] := by
        constructor
        · exact List.length_eq_zero_iff.mp (by omega)
        · exact List.length_eq_zero_iff.mp (by omega)
      rcases read with ⟨rfl, rfl⟩
      rw [whenRead]
      simp [runLoop]
  | succ fuel induction =>
      rw [runLoop]
      split_ifs with read
      · rcases read with ⟨rfl, rfl⟩
        exact (whenRead source).symm
      · constructor
        · intro accepts
          split at accepts
          · next next move =>
              rcases next with ⟨target, restU, restV⟩
              rcases (advance_iff_not_overtaken noDash).mp move with
                ⟨pair, index, found, reads, first⟩
              have less := reads.length_lt
              have rest := (induction (noDash.rest reads) (by omega)).mp accepts
              exact .step found reads first rest
          · exact absurd accepts Bool.false_ne_true
        · intro accepts
          cases accepts with
          | stop => exact absurd ⟨rfl, rfl⟩ read
          | @step _ index transition _ _ restU restV found reads first rest =>
              have move := (advance_iff_not_overtaken noDash).mpr
                ⟨_, index, found, reads, first⟩
              have less := reads.length_lt
              rw [move]
              exact (induction (noDash.rest reads) (by omega)).mpr rest

end Advance

/-! ## The relation and the run -/

section Decides

variable {ta : TransducerAutomaton}

/-- `run` accepts exactly along the accepting paths without an overtaken
transition. -/
theorem run_iff_acceptsUnovertaken {u v : Word} (noDash : NoDash u v) :
    run ta u v = true ↔ ta.AcceptsUnovertaken ta.initial u v :=
  runLoop_iff noDash le_rfl

theorem Reads.eq_append {pair : TransducerPair} {u v restU restV : Word}
    (noDash : NoDash u v) (reads : Reads pair u v restU restV) :
    u = erase [pair.u] ++ restU ∧ v = erase [pair.v] ++ restV := by
  rcases noDash with ⟨input, output⟩
  cases reads with
  | both =>
      rw [erase_cons_of_ne (ne_dash input), erase_cons_of_ne (ne_dash output)]
      exact ⟨rfl, rfl⟩
  | input =>
      rw [erase_cons_of_ne (ne_dash input), erase_cons_dash]
      exact ⟨rfl, rfl⟩
  | output =>
      rw [erase_cons_of_ne (ne_dash output), erase_cons_dash]
      exact ⟨rfl, rfl⟩

theorem TransducerAutomaton.AcceptsUnovertaken.acceptsFrom {source : Nat}
    {u v : Word} (accepts : ta.AcceptsUnovertaken source u v)
    (noDash : NoDash u v) : ta.AcceptsFrom source u v := by
  induction accepts with
  | stop accept =>
      exact TransducerAutomaton.acceptsFrom_iff.mpr
        (Or.inl ⟨accept, rfl, rfl⟩)
  | step found reads _ _ induction =>
      have rest := induction (noDash.rest reads)
      exact TransducerAutomaton.acceptsFrom_iff.mpr
        (Or.inr ⟨_, List.mem_of_getElem? found, _, _, rest,
          reads.eq_append noDash⟩)

/-- A pair that `run` accepts is in the relation. -/
theorem rel_of_run {u v : Word} (noDash : NoDash u v)
    (accepts : run ta u v = true) : ta.Rel u v :=
  ((run_iff_acceptsUnovertaken noDash).mp accepts).acceptsFrom noDash

theorem dash_not_mem_erase (word : Word) : dash ∉ erase word := by
  simp [erase]

/-- What a pair other than `('-', '-')` reads of the words that a path from it
spells. -/
theorem reads_erase {pair : TransducerPair}
    (letter : pair.u = dash → pair.v ≠ dash) (us vs : Word) :
    Reads pair (erase (pair.u :: us)) (erase (pair.v :: vs))
      (erase us) (erase vs) := by
  rcases pair with ⟨c, d⟩
  by_cases input : c = dash
  · rcases input with rfl
    rw [erase_cons_dash, erase_cons_of_ne (letter rfl)]
    exact Reads.output d _ _
  · rw [erase_cons_of_ne input]
    by_cases output : d = dash
    · rcases output with rfl
      rw [erase_cons_dash]
      exact Reads.input c _ _
    · rw [erase_cons_of_ne output]
      exact Reads.both c d _ _

/-- Without rivals no transition is ever overtaken. -/
theorem acceptsUnovertaken_of_noRivals (noEmptyPair : ta.NoEmptyPair)
    (noRivals : ta.NoRivals) {source : Nat} {u v : Word}
    (accepts : ta.AcceptsFrom source u v) :
    ta.AcceptsUnovertaken source u v := by
  rcases accepts with ⟨pairs, target, path, accept, rfl, rfl⟩
  induction path with
  | nil source => exact .stop accept
  | @cons source middle target pair pairs head tail induction =>
      rcases List.getElem?_of_mem head with ⟨index, found⟩
      have reads := reads_erase (noEmptyPair.letter head)
        (pairs.map TransducerPair.u) (pairs.map TransducerPair.v)
      refine .step found reads ?_ (induction accept)
      rintro ⟨other, rival, rivalFound, rivalFits, overtakes⟩
      have same := noRivals source index other _ _ found rivalFound
        ⟨_, _, dash_not_mem_erase _, dash_not_mem_erase _,
          ⟨_, _, reads⟩, rivalFits⟩
      rcases same with rfl
      rcases Option.some.inj (found.symm.trans rivalFound) with rfl
      rcases overtakes with less | ⟨_, less⟩
      · exact lt_irrefl _ less
      · exact lt_irrefl _ less

end Decides

/--
`run` decides whether a pair is in the relation exactly when the relation has it
by an accepting path on which no transition is overtaken.  In particular it
decides the relation of every transducer without `('-', '-')` whose states have
no two transitions that can read the front of the same two words.
-/
theorem run_iff_rel_iff (ta : TransducerAutomaton) :
    (∀ u v, dash ∉ u → dash ∉ v →
      ((run ta u v = true ↔ ta.Rel u v) ↔
        (ta.Rel u v → ta.AcceptsUnovertaken ta.initial u v))) ∧
    (ta.NoEmptyPair → ta.NoRivals →
      ∀ u v, dash ∉ u → dash ∉ v → (run ta u v = true ↔ ta.Rel u v)) := by
  constructor
  · intro u v input output
    have noDash : NoDash u v := ⟨input, output⟩
    constructor
    · intro decides related
      exact (run_iff_acceptsUnovertaken noDash).mp (decides.mpr related)
    · intro unovertaken
      constructor
      · exact rel_of_run noDash
      · intro related
        exact (run_iff_acceptsUnovertaken noDash).mpr (unovertaken related)
  · intro noEmptyPair noRivals u v input output
    have noDash : NoDash u v := ⟨input, output⟩
    constructor
    · exact rel_of_run noDash
    · intro related
      exact (run_iff_acceptsUnovertaken noDash).mpr
        (acceptsUnovertaken_of_noRivals noEmptyPair noRivals related)

/-- Two words over `a`, of which the first is the longer one: `(a,a)` and
`(a,-)` are rivals at the initial state. -/
def shorteningTransducer : TransducerAutomaton where
  states := [⟨false, [⟨⟨97, 97⟩, 0⟩, ⟨⟨97, dash⟩, 1⟩]⟩, ⟨true, [⟨⟨97, dash⟩, 1⟩]⟩]
  initial := 0
  initial_lt := by decide
  closed := by decide

/-- The identity on `a*`, which has no rivals. -/
def identityTransducer : TransducerAutomaton where
  states := [⟨true, [⟨⟨97, 97⟩, 0⟩]⟩]
  initial := 0
  initial_lt := by decide
  closed := by decide

theorem identityTransducer_noRivals : identityTransducer.NoRivals := by
  intro source index other transition rival found rivalFound _
  have only : ∀ i (t : TransducerTransition),
      (identityTransducer.state source).transitions[i]? = some t → i = 0 := by
    intro i t isAt
    have inside := (List.getElem?_eq_some_iff.mp isAt).1
    cases source with
    | zero => exact Nat.lt_one_iff.mp inside
    | succ source => exact absurd inside (Nat.not_lt_zero i)
  rw [only _ _ found, only _ _ rivalFound]

/--
The pair `(aa, a)` is found past the rival of its second transition, and the
identity on `a*` is decided for all words.
-/
theorem run_iff_rel_shortening :
    (run shorteningTransducer [97, 97] [97] = true ↔
      shorteningTransducer.Rel [97, 97] [97]) ∧
    ∀ u v, dash ∉ u → dash ∉ v →
      (run identityTransducer u v = true ↔ identityTransducer.Rel u v) := by
  constructor
  · apply ((run_iff_rel_iff shorteningTransducer).1 _ _
      (by decide) (by decide)).mpr
    intro _
    exact (run_iff_acceptsUnovertaken ⟨by decide, by decide⟩).mp (by decide)
  · exact (run_iff_rel_iff identityTransducer).2 (by decide)
      identityTransducer_noRivals

/-- The pair `(a, a)`, on the transitions `(a, -)` and `(-, a)` only: the
transition on both letters leads to a dead end. -/
def detourTransducer : TransducerAutomaton where
  states := [⟨false, [⟨⟨97, 97⟩, 1⟩, ⟨⟨97, dash⟩, 2⟩]⟩, ⟨false, []⟩,
    ⟨false, [⟨⟨dash, 97⟩, 3⟩]⟩, ⟨true, []⟩]
  initial := 0
  initial_lt := by decide
  closed := by decide

/--
On the detour, `run` takes the transition on both letters, which overtakes the
one on the input letter, and does not turn back.
-/
theorem run_not_exact :
    dash ∉ ([97] : Word) ∧
      ¬ (run detourTransducer [97] [97] = true ↔
        detourTransducer.Rel [97] [97]) := by
  have rejects : run detourTransducer [97] [97] = false := by decide
  have head : detourTransducer.states.Step 0 ⟨97, dash⟩ 2 := by
    show _ ∈ [_, _]
    simp
  have tail : detourTransducer.states.Step 2 ⟨dash, 97⟩ 3 := by
    show _ ∈ [_]
    simp
  have related : detourTransducer.Rel [97] [97] :=
    ⟨_, 3, Path.cons head (Path.single tail), rfl, rfl, rfl⟩
  refine ⟨by decide, ?_⟩
  intro decides
  have accepts := decides.mpr related
  rw [rejects] at accepts
  exact Bool.false_ne_true accepts

end SafetyGames.Transducer
