import SafetyGames.Automata.Constructed
import SafetyGames.Problem.LinearGame
import SafetyGames.Problem.BoxGame

/-!
# The library behind the parameters

The solver and the games are verified for any operations that satisfy the laws
of `Library.Correct` and `Operations.Correct`.  Here the operations of the
library are shown to satisfy them, whatever representation an automaton has
(`view`), whichever references are those of one object (`identical`) and in
whatever order the states of an automaton are iterated (`order`).
-/

namespace SafetyGames.Automata

open SafetyGames.Transducer SafetyGames.LabelledPath SafetyGames.Teacher
open SafetyGames.Regular SafetyGames.Problem
open Computability

/-! ## Minimization without class invariants -/

section Minimize

variable {a b : Automaton} {order : StateOrder}

/-- A single loop on every character is a dead loop unless it accepts. -/
theorem deadLoop_of_loopsOnly (single : loopsOnly a = true)
    (rejects : (a.state a.initial).accept = false) : DeadLoop a := by
  rcases loopsOnly_iff.mp single with ⟨t, only, leads, low, high⟩
  exact ⟨rejects, t, only, leads, low, high⟩

/-- A single loop at an accepting state leads to no dead state. -/
theorem live_of_loopsOnly (single : loopsOnly a = true)
    (accept : (a.state a.initial).accept = true) : Live a := by
  have loops := loopsOnAll_of_loopsOnly single
  intro ref reachable t inState
  rw [reachable_of_loops loops.1 reachable] at inState
  rw [loops.1 t inState]
  exact ⟨[], Heap.accepts_nil.mpr accept⟩

/-- Whatever `minimizeHopcroft` returns on an automaton with an honest flag
accepts the same language, and it has no transition to a dead state unless the
automaton is a dead loop. -/
theorem builds_minimizeHopcroft (honest : a.HonestFlag) (alive : ¬ DeadLoop a)
    (returned : minimizeHopcroft order a = some b) : Builds b (language a) := by
  rcases @minimizeHopcroft_cases order a honest with
    ⟨_, _, fails⟩ | ⟨single, early⟩ | ⟨c, found, minimal, same⟩
  · exact absurd (fails.symm.trans returned) (Option.some_ne_none b).symm
  · cases Option.some.inj (early.symm.trans returned)
    refine ⟨?_, lang_determinize⟩
    cases flag : a.deterministic with
    | false => exact (tidy_determinize_of_unflagged flag).invariants
    | true =>
        rw [determinize_of_flag flag] at single ⊢
        refine ⟨honest, live_of_loopsOnly single ?_⟩
        by_contra rejects
        exact alive (deadLoop_of_loopsOnly single (Bool.not_eq_true _ ▸ rejects))
  · cases Option.some.inj (found.symm.trans returned)
    exact ⟨minimal.invariants, same⟩

/-- A state without transitions is minimized. -/
theorem minimizeHopcroft_of_no_transitions
    (none : (a.state a.initial).transitions = []) :
    ∃ b, minimizeHopcroft order a = some b := by
  have noStep : ∀ t, t ∉ (a.state a.initial).transitions := by
    rw [none]
    exact fun _ => List.not_mem_nil
  have honest : a.HonestFlag := by
    rintro _ word source path c _ _ ⟨t, inState, _⟩
    rw [reachable_of_loops (fun t member => absurd member (noStep t))
      ⟨word, path⟩] at inState
    exact absurd inState (noStep t)
  cases returned : minimizeHopcroft order a with
  | some b => exact ⟨b, rfl⟩
  | none =>
      rcases (minimizeHopcroft_eq_none_iff honest).mp returned with
        ⟨_, ⟨_, reads⟩, _⟩
      rcases reads 0 with ⟨t, inState, _⟩
      exact absurd inState (noStep t)

end Minimize

/-! ## The parameters -/

section Instances

variable (view : Automaton → Representation)
  (identical : Representation → Representation → Bool) (order : StateOrder)

/-- The operations of the library on automata. -/
def libraryOperations : Operations where
  union := fun l => (Representation.unionAll (l.map view)).expand
  concatenate := fun l => (Representation.concatenateAll (l.map view)).expand
  intersection := fun a b =>
    (Representation.intersection order identical (view a) (view b)).expand
  optional := fun a => (Representation.optional (view a)).expand
  repetition := fun a => (Representation.repetition (view a)).expand
  repeatMin := fun a min => (Representation.repeatMin (view a) min).expand
  repeatMinMax := fun a min max =>
    (Representation.repeatMinMax (view a) min max).expand
  complement := fun a => (Representation.complement order (view a)).expand
  minimize := fun a =>
    (Representation.minimize order (view a)).map Representation.expand
  reduce := fun a => (Representation.reduce order (view a)).expand
  makeInterval := makeInterval

/-- The operations of the library that the teacher calls. -/
def automatonLibrary : Library where
  minus := fun a b =>
    (Representation.minus order identical (view a) (view b)).expand
  union := fun a b => (Representation.union identical (view a) (view b)).expand
  intersection := fun a b =>
    (Representation.intersection order identical (view a) (view b)).expand
  minimize := fun a =>
    (Representation.minimize order (view a)).map Representation.expand
  getShortestExample := fun a => Representation.getShortestExample (view a) true
  regExp := automatonOf (libraryOperations view identical order)
  equals := fun a b => Representation.equals order identical (view a) (view b)

variable {view identical order} {a b : Automaton} {L : Language JChar}
  (expands : ∀ a, (view a).expand = a)
  (same : ∀ r1 r2, identical r1 r2 = true → r1 = r2)

theorem Representation.Denotes.gives {r : Representation}
    (denotes : r.Denotes L) : Gives Tidy r.expand L :=
  ⟨denotes.tidy, denotes.lang_eq⟩

include expands

theorem denotes_view (tidy : Tidy a) : (view a).Denotes (language a) :=
  ⟨(expands a).symm ▸ tidy, congrArg language (expands a)⟩

theorem represents_view (invariants : ClassInvariants a) :
    (view a).Represents (language a) :=
  ⟨(expands a).symm ▸ invariants, congrArg language (expands a)⟩

theorem recognizes_view (honest : a.HonestFlag) :
    (view a).Recognizes (language a) :=
  ⟨(expands a).symm ▸ honest, congrArg language (expands a)⟩

theorem map_view (l : List Automaton) :
    (l.map view).map (fun r => language r.expand) = l.map language := by
  rw [List.map_map]
  exact List.map_congr_left fun a _ => congrArg language (expands a)

theorem tidy_map_view {l : List Automaton} (tidy : ∀ a ∈ l, Tidy a) :
    ∀ r ∈ l.map view, Tidy r.expand := by
  refine List.forall_mem_map.mpr fun a member => ?_
  rw [expands a]
  exact tidy a member

/-- `minimize` returns on tidy automata. -/
theorem minimize_view_returns (tidy : Tidy a) :
    ∃ b, (Representation.minimize order (view a)).map Representation.expand =
        some b ∧ Gives Tidy b (language a) ∧ b.deterministic = true := by
  rcases @Representation.Denotes.minimize_returns order _ _
    (denotes_view expands tidy) with ⟨m, returned, minimal, denotes⟩
  exact ⟨m.expand, by rw [returned]; rfl, denotes.gives, minimal.flag⟩

/-- What `minimize` returns on any automaton with an honest flag. -/
theorem builds_minimize_view (honest : a.HonestFlag) (alive : ¬ DeadLoop a)
    (returned : (Representation.minimize order (view a)).map
      Representation.expand = some b) : Builds b (language a) := by
  rcases Option.map_eq_some_iff.mp returned with ⟨m, found, rfl⟩
  have isExpanded := expands a
  cases isView : view a with
  | singleton s =>
      rw [isView] at found isExpanded
      cases Option.some.inj found
      rw [← isExpanded]
      exact ⟨makeString_invariants s, rfl⟩
  | explicit c =>
      rw [isView] at found isExpanded
      rcases Option.map_eq_some_iff.mp found with ⟨d, minimized, rfl⟩
      rcases isExpanded with rfl
      exact builds_minimizeHopcroft honest alive minimized

include same

/-- The operations that `toAutomaton()` calls satisfy their laws on tidy
automata. -/
theorem libraryOperations_correctOn :
    (libraryOperations view identical order).CorrectOn Tidy where
  invariants _ tidy := tidy.invariants
  makeString := tidy_makeString
  makeCharRange := Representation.tidy_makeCharRange
  makeEmpty := tidy_makeEmpty
  makeAnyString := Representation.denotes_makeAnyString.tidy
  union := by
    intro l tidy
    have united := Representation.denotes_unionAll fun r member =>
      (tidy_map_view expands tidy r member).invariants
    rw [map_view expands] at united
    exact united.gives
  concatenate := by
    intro l tidy
    have joined :=
      Representation.denotes_concatenateAll (tidy_map_view expands tidy)
    rw [map_view expands] at joined
    exact joined.gives
  intersection := by
    intro a b first second
    have common := @Representation.Denotes.intersection _ _ _ _ order _ same
      (denotes_view expands first) (denotes_view expands second)
    exact common.gives
  optional := fun _ tidy => (denotes_view expands tidy).optional.gives
  repetition := fun _ tidy => (denotes_view expands tidy).repetition.gives
  repeatMin := fun _ min tidy => ((denotes_view expands tidy).repeatMin min).gives
  repeatMinMax := fun _ min max tidy =>
    ((denotes_view expands tidy).repeatMinMax min max).gives
  complement := by
    intro a tidy
    have turned := @Representation.Recognizes.complement _ _ order
      (denotes_view expands tidy).recognizes
    exact turned.gives
  minimize := fun _ tidy => minimize_view_returns expands tidy
  reduce := by
    intro a invariants
    have reduced := @Representation.Represents.reduce _ _ order
      (represents_view expands invariants)
    exact reduced.gives
  makeInterval := by
    intro min max digits a returned
    exact tidy_makeInterval returned

theorem libraryOperations_correct :
    (libraryOperations view identical order).Correct :=
  ⟨Tidy, libraryOperations_correctOn expands same⟩

/-- The operations that the teacher calls satisfy their laws. -/
theorem automatonLibrary_correct :
    (automatonLibrary view identical order).Correct where
  minus := by
    intro a b first second
    have left := @Representation.Recognizes.minus _ _ _ _ order _ same
      (recognizes_view expands first) (recognizes_view expands second)
    refine ⟨left.honest, left.lang_eq, fun invariants _ => ?_⟩
    exact Representation.invariants_minus
      (represents_view expands invariants).invariants
      (recognizes_view expands second).honest
  intersection := by
    intro a b first second
    have common := @Representation.Recognizes.intersection _ _ _ _ order _ same
      (recognizes_view expands first) (recognizes_view expands second)
    refine ⟨common.honest, common.lang_eq, fun invariants1 invariants2 => ?_⟩
    exact Representation.invariants_intersection
      (represents_view expands invariants1).invariants
      (represents_view expands invariants2).invariants
  union := by
    intro a b first second
    have united := (represents_view expands first).union same
      (represents_view expands second)
    exact ⟨united.invariants, united.lang_eq⟩
  minimize := fun _ _ honest alive returned =>
    builds_minimize_view expands honest alive returned
  getShortestExample := by
    intro a word honest returned
    exact ((recognizes_view expands honest).getShortestExample.2 word returned).1
  equals := by
    intro a b first second equal
    exact (represents_view expands first).lang_eq_of_equals same
      (represents_view expands second) equal

omit same in
/-- An example is found in every nonempty language, and a state without
transitions is minimized. -/
theorem automatonLibrary_answers :
    (automatonLibrary view identical order).Answers where
  getShortestExample := by
    rintro a honest ⟨word, member⟩
    have exact := (recognizes_view expands honest).getShortestExample.1
    change ∃ word, Representation.getShortestExample (view a) true = some word
    cases found : Representation.getShortestExample (view a) true with
    | some word => exact ⟨word, rfl⟩
    | none =>
        exfalso
        have empty : language a = 0 := exact.mp found
        exact Language.notMem_zero word (empty ▸ member)
  minimize := by
    intro a none
    have isExpanded := expands a
    cases isView : view a with
    | singleton s =>
        refine ⟨Automaton.makeString s, ?_⟩
        change (Representation.minimize order (view a)).map _ = _
        rw [isView]
        rfl
    | explicit c =>
        rw [isView] at isExpanded
        rcases isExpanded with rfl
        rcases @minimizeHopcroft_of_no_transitions c order none with
          ⟨b, returned⟩
        refine ⟨b, ?_⟩
        have isExplicit : view c = .explicit c := isView
        change (Representation.minimize order (view c)).map _ = _
        rw [isExplicit, Representation.minimize, returned]
        rfl

/--
The operations of the library satisfy what the solver and the games ask of their
parameters.
-/
theorem library_laws :
    (automatonLibrary view identical order).Correct ∧
      (automatonLibrary view identical order).Answers ∧
      (libraryOperations view identical order).Correct :=
  ⟨automatonLibrary_correct expands same, automatonLibrary_answers expands,
    libraryOperations_correct expands same⟩

omit expands same in
/--
On automata with states, and no two references of one object.
-/
theorem library_laws_explicit :
    (automatonLibrary .explicit (fun _ _ => false) .found).Correct ∧
      (automatonLibrary .explicit (fun _ _ => false) .found).Answers ∧
      (libraryOperations .explicit (fun _ _ => false) .found).Correct :=
  library_laws (fun _ => rfl) (by simp)

end Instances

end SafetyGames.Automata
