import SafetyGames.Solver.HonestTeacher

/-!
# The verdict of the teacher

The verdict of `checkIfWinningSet` with the images that the code computes.
It is exact where these images are; a self-loop that `imageRec` cuts makes the
teacher reject a winning set.
-/

namespace SafetyGames.Solver

open SafetyGames.Transducer SafetyGames.Learner SafetyGames.Teacher
open SafetyGames.Game SafetyGames.LabelledPath

/-- The orders of the hash sets in the calls of `image`. -/
abbrev ImageOrders :=
  TransducerAutomaton → Automaton → HashOrder

/-- The images that decide the verdict are safe, each if it is asked for: that of
the conjecture where the first two conditions hold, that of the vertices outside
of it where the third one holds as well. -/
structure VerdictSafe (lib : Library) (sp : SafetyProblem)
    (orders : ImageOrders) (w : Automaton) : Prop where
  existential : sp.Between w.lang →
    ∀ inverse, sp.tE.invert = some inverse →
      ImageSafe (orders inverse w) inverse w
  universal : sp.Between w.lang → sp.stuck w.lang = ∅ →
    ∀ inverse, sp.tE.invert = some inverse →
      ImageSafe (orders inverse (a4a lib sp w)) inverse (a4a lib sp w)

theorem VerdictSafe.checksExact {lib : Library} {sp : SafetyProblem}
    {orders : ImageOrders} {fuel : Nat} {w : Automaton} (correct : lib.Correct)
    (safe : VerdictSafe lib sp orders w) :
    ChecksExact lib (image lib orders fuel) sp w where
  existential := fun between inverse inverts =>
    imageExact_of_safe correct (safe.existential between inverse inverts)
  universal := fun between noneStuck inverse inverts =>
    imageExact_of_safe correct (safe.universal between noneStuck inverse inverts)

/--
A check that returns is right when the images that decide it are safe, whatever
automaton with an honest flag it is asked about, and so is the automaton that
`solve` returns in either mode.
-/
theorem checkIfWinningSet_exact {lib : Library} {sp : SafetyProblem}
    (correct : lib.Correct) (nodup : sp.alphabet.Nodup)
    (relates : sp.RelatesVertices) :
    (∀ (w : Automaton) (orders : ImageOrders) (fuel : Nat) (s : Sample)
      (verdict : Bool) (after : Sample),
      w.HonestFlag → VerdictSafe lib sp orders w →
      checkIfWinningSet lib (image lib orders fuel) sp w s =
        some (verdict, after) →
      (verdict = true ↔ Winning sp.game w.lang)) ∧
    ∀ (debug : Bool) (iterations : List Iteration) (w : Automaton)
      (orders : ImageOrders) (fuel : Nat),
      Returns lib sp debug iterations (image lib orders fuel) w →
      VerdictSafe lib sp orders w → Winning sp.game w.lang := by
  constructor
  · intro w orders fuel s verdict after honest safe returns
    have exact : ChecksExact lib (image lib orders fuel) sp w :=
      safe.checksExact correct
    cases verdict with
    | true =>
        exact iff_of_true rfl
          (checkIfWinningSet_true correct honest relates exact returns).2
    | false =>
        exact iff_of_false Bool.false_ne_true
          (checkIfWinningSet_not_winning correct honest relates exact returns)
  · rintro debug iterations w orders fuel ⟨before, after, _, round⟩ safe
    have honest := (round.spec correct nodup).1.honest
    exact (checkIfWinningSet_true correct honest relates
      (safe.checksExact correct) round.check).2

/-! ## A game without initial vertices -/

/-- The game on the empty word without initial vertices. -/
def idleGame : SafetyProblem :=
  { loopGame with
    aI := Automaton.makeEmpty
    aI_invariants := makeEmpty_invariants }

/-- The inverse that `invert` builds of `{(ε, ε)}`. -/
def emptyWordInverse : TransducerAutomaton where
  states := [TransducerState.new, ⟨true, []⟩]
  initial := 1
  initial_lt := by decide
  closed := by decide

theorem invert_emptyWordTransducer :
    emptyWordTransducer.invert = some emptyWordInverse := rfl

theorem emptyWordInverse_safe {order : HashOrder} {a : Automaton}
    (single : a.SingleChars) : ImageSafe order emptyWordInverse a := by
  refine imageSafe_of_no_move ?_ (by decide) single
  intro move isMove
  rcases isMove with ⟨_, _, _, inT, _⟩ | ⟨_, inT, _⟩
  · exact List.not_mem_nil inT
  · exact List.not_mem_nil inT

/-- The reference library that prefers two small automata. -/
noncomputable def smallReference : Library :=
  reference [Automaton.makeEmpty, Automaton.makeString []]

theorem small_unique {a b : Automaton}
    (small : a ∈ [Automaton.makeEmpty, Automaton.makeString []])
    (other : b ∈ [Automaton.makeEmpty, Automaton.makeString []])
    (same : b.lang = a.lang) : b = a := by
  have different : (∅ : Set Word) ≠ {[]} := (Set.singleton_ne_empty []).symm
  simp only [List.mem_cons, List.not_mem_nil, or_false] at small other
  rcases small with rfl | rfl <;> rcases other with rfl | rfl
  · rfl
  · exact absurd (by simpa using same.symm) different
  · exact absurd (by simpa using same.symm) different
  · rfl

theorem idleGame_a4a :
    a4a smallReference idleGame Automaton.makeEmpty =
      Automaton.makeString [] := by
  have correct := reference_correct
    [Automaton.makeEmpty, Automaton.makeString []]
  have vertices := (correct.union _ _ idleGame.aV0_invariants
    idleGame.aV1_invariants).2
  have outside : (smallReference.union idleGame.aV0 idleGame.aV1).lang \
      Automaton.makeEmpty.lang = (Automaton.makeString []).lang := by
    rw [smallReference, vertices]
    simp [idleGame, loopGame]
  change pick _ _ = _
  rw [outside]
  exact pick_eq (by simp) (makeString_invariants [])
    fun b => small_unique (by simp)

theorem idleGame_verdictSafe :
    VerdictSafe smallReference idleGame (fun _ _ => .insertion)
      Automaton.makeEmpty where
  existential := by
    intro _ inverse inverts
    rcases Option.some.inj (invert_emptyWordTransducer.symm.trans inverts) with rfl
    exact emptyWordInverse_safe (by decide)
  universal := by
    intro _ _ inverse inverts
    rcases Option.some.inj (invert_emptyWordTransducer.symm.trans inverts) with rfl
    rw [idleGame_a4a]
    exact emptyWordInverse_safe (by decide)

theorem idleGame_relates : idleGame.RelatesVertices :=
  loopGame_relates

theorem idleGame_winning :
    Winning idleGame.game Automaton.makeEmpty.lang := by
  have none : ∀ {u}, u ∉ Automaton.makeEmpty.lang := by simp
  exact ⟨fun _ => id, fun _ member => absurd member none,
    fun _ member => absurd member none, fun _ member => absurd member none⟩

theorem idleGame_check (s : Sample) :
    checkIfWinningSet smallReference
        (image smallReference (fun _ _ => .insertion) 1) idleGame
        Automaton.makeEmpty s = some (true, s) := by
  have correct : smallReference.Correct := reference_correct _
  rcases (idleGame.winning_iff idleGame_relates).mp idleGame_winning with
    ⟨between, noneStuck, noneLeaving⟩
  have exact : ChecksExact smallReference
      (image smallReference (fun _ _ => .insertion) 1) idleGame
      Automaton.makeEmpty := idleGame_verdictSafe.checksExact correct
  have inverts : idleGame.tE.invert = some emptyWordInverse :=
    invert_emptyWordTransducer
  have before : ∃ b, image smallReference (fun _ _ => .insertion) 1
      emptyWordInverse Automaton.makeEmpty = some b :=
    ⟨_, image_of_returns (show imageStates .insertion _ _ 1 =
      some [State.new] from rfl)⟩
  have outside : ∃ b, image smallReference (fun _ _ => .insertion) 1
      emptyWordInverse (a4a smallReference idleGame Automaton.makeEmpty) =
        some b := by
    rw [idleGame_a4a]
    exact ⟨_, image_of_returns (show imageStates .insertion _ _ 1 =
      some [⟨true, []⟩] from rfl)⟩
  rcases before with ⟨a3a, isA3a⟩
  rcases outside with ⟨a4b, isA4b⟩
  have starts := (a1_isEmpty_iff correct makeEmpty_invariants).mpr between.1
  have stays := (a2_isEmpty_iff correct makeEmpty_invariants).mpr between.2
  have isStuck := a3c_of_image smallReference inverts isA3a
  have isLeaving := a4c_of_image smallReference inverts isA4b
  have moves := (a3c_isEmpty_iff correct makeEmpty_invariants
    (exact.existential between) isStuck).mpr noneStuck
  have leaves := (a4c_isEmpty_iff correct makeEmpty_invariants
    (exact.universal between noneStuck) isLeaving).mpr noneLeaving
  exact (Checked.passes starts stays isStuck moves isLeaving leaves).returns

theorem pick_small_empty :
    pick [Automaton.makeEmpty, Automaton.makeString []] ∅ =
      Automaton.makeEmpty := by
  rw [← Automaton.lang_makeEmpty]
  exact pick_eq (by simp) makeEmpty_invariants fun b => small_unique (by simp)

theorem idleGame_round :
    Round smallReference idleGame false
      (image smallReference (fun _ _ => .insertion) 1) Learner.new
      Automaton.makeEmpty true ⟨1, Sample.empty⟩ := by
  have short : ShortConsistent Sample.empty 1 (dfaLang [97] noWords) :=
    ⟨Sample.consistent_empty _, fun _ member => absurd member List.not_mem_nil,
      fun _ member => absurd member List.not_mem_nil⟩
  rcases short.search (by decide) (empty_over [97]) with ⟨dfa, search, same⟩
  rw [dfaLang_noWords] at same
  refine ⟨⟨[1], dfa, search, ?_⟩, idleGame_check _⟩
  show some (pick _ _) = _
  rw [same, pick_small_empty]

/--
Without initial vertices the conjecture `∅` passes all four conditions, and it is
what the first round of `solve` returns.  The check and the run say that it wins.
-/
theorem checkIfWinningSet_exact_idleGame :
    checkIfWinningSet smallReference
        (image smallReference (fun _ _ => .insertion) 1) idleGame
        Automaton.makeEmpty Sample.empty = some (true, Sample.empty) ∧
      (true = true ↔ Winning idleGame.game Automaton.makeEmpty.lang) ∧
      Returns smallReference idleGame false []
        (image smallReference (fun _ _ => .insertion) 1) Automaton.makeEmpty ∧
      Winning idleGame.game Automaton.makeEmpty.lang := by
  have correct : smallReference.Correct := reference_correct _
  have returned : Returns smallReference idleGame false []
      (image smallReference (fun _ _ => .insertion) 1) Automaton.makeEmpty :=
    ⟨_, _, Solving.start, idleGame_round⟩
  rcases checkIfWinningSet_exact correct (by decide) idleGame_relates with
    ⟨checks, runs⟩
  refine ⟨idleGame_check _, ?_, returned, ?_⟩
  · exact checks _ _ _ _ _ _ makeEmpty_invariants.honest idleGame_verdictSafe
      (idleGame_check Sample.empty)
  · exact runs _ [] _ _ _ returned idleGame_verdictSafe

/-! ## A cut self-loop -/

theorem mem_lang_starAutomaton {c : JChar} {word : Word} :
    word ∈ (starAutomaton c).lang ↔ ∀ d ∈ word, d = c := by
  have accepts : (starAutomaton c).states.Accepts 0 word ↔
      ∀ d ∈ word, d = c := by
    induction word with
    | nil => exact iff_of_true (Heap.accepts_nil.mpr rfl) (by simp)
    | cons d word induction =>
        rw [Heap.accepts_cons, List.forall_mem_cons, ← induction]
        simp only [starAutomaton_step_iff]
        constructor
        · rintro ⟨_, ⟨_, same, rfl⟩, rest⟩
          exact ⟨same, rest⟩
        · rintro ⟨same, rest⟩
          exact ⟨0, ⟨trivial, same, rfl⟩, rest⟩
  exact accepts

theorem starAutomaton_invariants (c : JChar) :
    ClassInvariants (starAutomaton c) where
  honest := fun _ _ _ _ _ _ _ first second =>
    (starAutomaton_step_iff.mp first).2.2.trans
      (starAutomaton_step_iff.mp second).2.2.symm
  live := fun ref _ transition inState => by
    have step : (starAutomaton c).states.Step ref transition.min
        transition.dest := ⟨transition, inState, transition.reads_min, rfl⟩
    rw [(starAutomaton_step_iff.mp step).2.2]
    exact ⟨[], Heap.accepts_nil.mpr rfl⟩

/-- A rejecting state with one transition, on two letters. -/
theorem acceptsFrom_one {ta : TransducerAutomaton} {source dest : Nat}
    {c d : JChar} (only : ta.state source = ⟨false, [⟨⟨c, d⟩, dest⟩]⟩)
    (input : c ≠ dash) (output : d ≠ dash) {u v : Word} :
    ta.AcceptsFrom source u v ↔
      ∃ restU restV, ta.AcceptsFrom dest restU restV ∧
        u = c :: restU ∧ v = d :: restV := by
  rw [TransducerAutomaton.acceptsFrom_iff, only]
  simp [erase, input, output]

theorem twiceTransducer_rel_iff {c : JChar} (letter : c ≠ dash) {u v : Word} :
    (twiceTransducer c).Rel u v ↔ u = [c, c] ∧ v = [c, c] := by
  have last : ∀ {u v}, (twiceTransducer c).AcceptsFrom 2 u v ↔
      u = [] ∧ v = [] := by
    intro u v
    rw [TransducerAutomaton.acceptsFrom_iff]
    simp [twiceTransducer, TransducerHeap.state]
  change (twiceTransducer c).AcceptsFrom 0 u v ↔ _
  rw [acceptsFrom_one (show (twiceTransducer c).state 0 = _ from rfl) letter
    letter]
  simp only [acceptsFrom_one (show (twiceTransducer c).state 1 = _ from rfl)
    letter letter, last]
  constructor
  · rintro ⟨_, _, ⟨_, _, ⟨rfl, rfl⟩, rfl, rfl⟩, rfl, rfl⟩
    exact ⟨rfl, rfl⟩
  · rintro ⟨rfl, rfl⟩
    exact ⟨_, _, ⟨_, _, ⟨rfl, rfl⟩, rfl, rfl⟩, rfl, rfl⟩

/-- Player 0 has to run through the word `aa` for ever; every word is safe. -/
def twiceGame : SafetyProblem where
  alphabet := [97]
  aV0 := Automaton.makeString [97, 97]
  aV1 := Automaton.makeEmpty
  aI := Automaton.makeString [97, 97]
  aF := starAutomaton 97
  tE := twiceTransducer 97
  aV0_invariants := makeString_invariants [97, 97]
  aV1_invariants := makeEmpty_invariants
  aI_invariants := makeString_invariants [97, 97]
  aF_invariants := starAutomaton_invariants 97

theorem twiceGame_relates : twiceGame.RelatesVertices := by
  intro u v related
  rcases (twiceTransducer_rel_iff (by decide)).mp related with ⟨rfl, rfl⟩
  simp [twiceGame]

theorem twiceGame_winning :
    Winning twiceGame.game (starAutomaton 97).lang := by
  have twice : [97, 97] ∈ (starAutomaton 97).lang :=
    mem_lang_starAutomaton.mpr (by simp)
  refine ⟨?_, fun _ => id, ?_, ?_⟩
  · intro u initial
    rw [SafetyProblem.game, twiceGame, Automaton.lang_makeString,
      Set.mem_singleton_iff] at initial
    exact initial ▸ twice
  · intro u _ owned
    rw [SafetyProblem.game, twiceGame, Automaton.lang_makeString,
      Set.mem_singleton_iff] at owned
    exact ⟨[97, 97], twice,
      (twiceTransducer_rel_iff (by decide)).mpr ⟨owned, rfl⟩⟩
  · intro u _ owned
    rw [SafetyProblem.game, twiceGame, Automaton.lang_makeEmpty] at owned
    exact absurd owned (Set.notMem_empty u)

/-- The inverse that `invert` builds of `{(aa, aa)}`. -/
def twiceInverse : TransducerAutomaton where
  states := [TransducerState.new, ⟨false, [⟨⟨97, 97⟩, 2⟩]⟩,
    ⟨false, [⟨⟨97, 97⟩, 3⟩]⟩, ⟨true, []⟩]
  initial := 1
  initial_lt := by decide
  closed := by decide

/-- The second self-loop is cut, so that no state accepts. -/
theorem twiceInverse_imageStates :
    imageStates .insertion (starAutomaton 97) twiceInverse 4 =
      some [⟨false, [Transition.single 97 0]⟩] := rfl

/-- One rejecting state with a self-loop accepts no word. -/
theorem loopStates_spec {built : Automaton} (initial : built.initial = 0)
    (states : built.states = [⟨false, [Transition.single 97 0]⟩]) :
    built.HonestFlag ∧ built.lang = ∅ := by
  have stays : ∀ {source c target},
      built.states.Step source c target → source = 0 ∧ target = 0 := by
    rintro source c target ⟨transition, inState, _, rfl⟩
    rw [states] at inState
    rcases Nat.eq_zero_or_pos source with rfl | positive
    · rw [List.mem_singleton.mp inState]
      exact ⟨rfl, rfl⟩
    · rw [Heap.state_of_length_le (show 1 ≤ source from positive)] at inState
      exact absurd inState List.not_mem_nil
  constructor
  · exact fun _ _ _ _ _ _ _ first second =>
      (stays first).2.trans (stays second).2.symm
  · refine Set.eq_empty_of_forall_notMem ?_
    rintro word ⟨target, path, accept⟩
    have keep : ∀ source c target, source = 0 →
        built.states.Step source c target → target = 0 :=
      fun _ _ _ _ step => (stays step).2
    have only : target = 0 := path.invariant keep initial
    rw [only, states] at accept
    exact Bool.false_ne_true accept

/-- The reference library that prefers `a*`. -/
noncomputable def starReference : Library :=
  reference [starAutomaton 97]

/-- The images of the reference library in insertion order. -/
noncomputable def starImage : ImageFunction :=
  image starReference (fun _ _ => .insertion) 4

/-- The first conjecture of a run may be `a*`. -/
theorem starReference_search :
    ∃ dfa, Search [97] false Sample.empty 1 [1] 1 dfa ∧
      starReference.minimize dfa = some (starAutomaton 97) := by
  have short : ShortConsistent Sample.empty 1
      (dfaLang [97] (allWords Nat.one_pos)) :=
    ⟨Sample.consistent_empty _, fun _ member => absurd member List.not_mem_nil,
      fun _ member => absurd member List.not_mem_nil⟩
  rcases short.search (by decide) (empty_over [97]) with ⟨dfa, search, same⟩
  have isStar : dfa.lang = (starAutomaton 97).lang := by
    rw [same]
    ext word
    rw [mem_lang_starAutomaton]
    exact ⟨fun member d inWord => List.mem_singleton.mp (member.1 d inWord),
      fun letters => mem_dfaLang_allWords fun d inWord =>
        List.mem_singleton.mpr (letters d inWord)⟩
  refine ⟨dfa, search, ?_⟩
  show some (pick _ _) = _
  rw [isStar, pick_eq (List.mem_singleton_self _) (starAutomaton_invariants 97)
    fun b member _ => List.mem_singleton.mp member]

/-- The vertex `aa` of `a*` is reported to have no successor in it. -/
theorem twiceGame_stuck :
    ∃ stuck, a3c starReference starImage twiceGame (starAutomaton 97) =
        some stuck ∧ stuck.lang = {[97, 97]} := by
  have correct : starReference.Correct := reference_correct _
  rcases @loopStates_spec (builtImage twiceInverse_imageStates) rfl rfl with
    ⟨honest, empty⟩
  have cut : starReference.minimize (builtImage twiceInverse_imageStates) =
      some (pick [starAutomaton 97] ∅) := by
    show some (pick _ _) = _
    rw [empty]
  rcases correct.minimize _ _ honest
    (not_deadLoop_builtImage twiceInverse_imageStates) cut with
    ⟨beforeInvariants, before⟩
  rcases correct.minus _ _ twiceGame.aV0_invariants.honest
    beforeInvariants.honest with ⟨minusHonest, minus, _⟩
  rcases correct.intersection _ _ (starAutomaton_invariants 97).honest
    minusHonest with ⟨_, stuck, _⟩
  have owned : twiceGame.aV0.lang = {[97, 97]} := Automaton.lang_makeString _
  rw [minus, before, empty, Set.sdiff_empty, owned,
    Set.inter_eq_right.mpr (Set.singleton_subset_iff.mpr
      (mem_lang_starAutomaton.mpr (by simp)))] at stuck
  have inverts : twiceGame.tE.invert = some twiceInverse := rfl
  have isImage : starImage twiceInverse (starAutomaton 97) =
      some (pick [starAutomaton 97] ∅) :=
    (image_of_returns twiceInverse_imageStates).trans cut
  exact ⟨_, a3c_of_image starReference inverts isImage, stuck⟩

theorem twiceGame_consequence :
    ∃ a, consequence starReference starImage twiceGame [97, 97] = some a := by
  rcases Option.isSome_iff_exists.mp
    (show (imageStates .insertion (Automaton.makeString [97, 97])
      (twiceTransducer 97) 4).isSome = true from rfl) with ⟨states, builds⟩
  have isImage : starImage twiceGame.tE (Automaton.makeString [97, 97]) =
      some _ := image_of_returns builds
  exact ⟨_, isImage⟩

/--
The teacher rejects the winning set `a*` in the first round of a run: the image
of `a*` is cut at its second self-loop, so that `aa` seems to have no successor.
-/
theorem checkIfWinningSet_not_exact :
    starReference.Correct ∧ twiceGame.RelatesVertices ∧
      (∀ u ∈ twiceGame.aV0.lang ∪ twiceGame.aV1.lang,
        dash ∉ u ∧ ∃ v, twiceGame.tE.Rel u v) ∧
      (∃ after, Round starReference twiceGame false starImage Learner.new
        (starAutomaton 97) false after) ∧
      Winning twiceGame.game (starAutomaton 97).lang := by
  have correct : starReference.Correct := reference_correct _
  refine ⟨correct, twiceGame_relates, ?_, ?_, twiceGame_winning⟩
  · intro u member
    rw [twiceGame, Automaton.lang_makeString, Automaton.lang_makeEmpty,
      Set.union_empty, Set.mem_singleton_iff] at member
    rw [member]
    exact ⟨by decide, [97, 97],
      (twiceTransducer_rel_iff (by decide)).mpr ⟨rfl, rfl⟩⟩
  · rcases starReference_search with ⟨dfa, search, conjecture⟩
    have invariants := starAutomaton_invariants 97
    have starts := (a1_isEmpty_iff correct invariants).mpr
      twiceGame_winning.initial
    have stays := (a2_isEmpty_iff correct invariants).mpr
      twiceGame_winning.safe
    rcases twiceGame_stuck with ⟨stuck, isStuck, only⟩
    have found : isEmpty stuck = false := by
      rw [← Bool.not_eq_true]
      intro empty
      exact Set.singleton_ne_empty _ (only.symm.trans (lang_of_isEmpty empty))
    have picked : starReference.getShortestExample stuck = some [97, 97] :=
      reference_shortest_singleton only
    rcases twiceGame_consequence with ⟨a, isConsequence⟩
    have checked : Checked starReference starImage twiceGame (starAutomaton 97)
        Learner.new.s _ :=
      Checked.existential starts stays isStuck found picked isConsequence rfl
    exact ⟨⟨1, _⟩, ⟨[1], dfa, search, conjecture⟩, checked.returns⟩

end SafetyGames.Solver
