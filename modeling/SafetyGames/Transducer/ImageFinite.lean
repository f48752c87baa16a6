import SafetyGames.Transducer.ImageTermination

/-!
# Images of finite languages

On an acyclic automaton no self-loop is read, so the image is exact, and every
move either reads a letter or goes along an epsilon-input transition, so the
recursion ends as soon as the transducer has no cycle of such transitions.
-/

namespace SafetyGames.Transducer

open SafetyGames.LabelledPath

/-- No cycle can be reached from the initial state. -/
def Automaton.Acyclic (a : Automaton) : Prop :=
  ∀ ref, a.Reachable ref → ∀ word, Path a.states.Step ref word ref → word = []

/-- No cycle of the transducer consists of transitions whose input is `'-'`. -/
def NoDashInputCycle (ta : TransducerAutomaton) : Prop :=
  ∀ ref pairs, Path ta.states.Step ref pairs ref →
    (∀ pair ∈ pairs, pair.u = dash) → pairs = []

section Finite

variable {order : HashOrder} {a : Automaton} {ta : TransducerAutomaton}

/-- A move reads a letter, or it follows an epsilon-input transition. -/
theorem productStep_projects {state next : ProductState} {branch : Branch}
    (step : productStep a ta state branch next) :
    ∃ pair, ta.states.Step state.2 pair next.2 ∧
      ((∃ c, a.states.Step state.1 c next.1) ∨
        next.1 = state.1 ∧ pair.u = dash) := by
  rcases step with ⟨ast, inA, tast, inT, _, _, equal⟩ | ⟨tast, inT, epsilon, equal⟩
  · have reads : a.states.Step state.1 ast.min ast.dest :=
      ⟨ast, inA, ast.reads_min, rfl⟩
    have dest : next = (ast.dest, tast.dest) := by
      rw [alphaMove] at equal
      split_ifs at equal with silent loops
      · exact (Move.mk.inj equal).2
      · rw [loops]
        exact (Move.mk.inj equal).2
      · exact (Move.mk.inj equal).2
    rw [dest]
    exact ⟨tast.pair, inT, Or.inl ⟨ast.min, reads⟩⟩
  · rcases Move.mk.inj equal with ⟨_, rfl⟩
    exact ⟨tast.pair, inT, Or.inr ⟨rfl, epsilon⟩⟩

/-- The moves of a walk spell a word of the automaton and a path of the
transducer; a walk that reads nothing follows epsilon-input transitions. -/
theorem productPath_projects {state target : ProductState}
    {branches : List Branch}
    (path : Path (productStep a ta) state branches target) :
    ∃ word pairs, Path a.states.Step state.1 word target.1 ∧
      Path ta.states.Step state.2 pairs target.2 ∧
        pairs.length = branches.length ∧
          (word = [] → ∀ pair ∈ pairs, pair.u = dash) := by
  induction path with
  | nil source =>
      refine ⟨[], [], Path.nil _, Path.nil _, rfl, ?_⟩
      intro _ pair member
      exact absurd member List.not_mem_nil
  | @cons source middle target branch branches head tail induction =>
      rcases induction with ⟨word, pairs, reads, walks, same, quiet⟩
      rcases productStep_projects head with ⟨pair, step, letter | epsilon⟩
      · rcases letter with ⟨c, move⟩
        refine ⟨c :: word, pair :: pairs, Path.cons move reads,
          Path.cons step walks, by simp [same], ?_⟩
        intro empty
        exact absurd empty (List.cons_ne_nil c word)
      · rcases epsilon with ⟨stays, isDash⟩
        rw [stays] at reads
        refine ⟨word, pair :: pairs, reads, Path.cons step walks,
          by simp [same], ?_⟩
        intro empty other member
        rcases List.mem_cons.mp member with rfl | later
        · exact isDash
        · exact quiet empty other later

/-- The calls inside a call follow a walk of the product. -/
theorem exists_productPath {frame inner : Frame}
    (nested : Relation.TransGen (Enters order a ta) frame inner) :
    ∃ branches ≠ [], Path (productStep a ta) frame.state branches inner.state := by
  induction nested with
  | single enters =>
      rcases enters.productStep with ⟨branch, step⟩
      exact ⟨[branch], List.cons_ne_nil _ _, Path.single step⟩
  | tail _ enters induction =>
      rcases induction with ⟨branches, _, path⟩
      rcases enters.productStep with ⟨branch, step⟩
      exact ⟨branches ++ [branch], by simp, path.snoc step⟩

theorem Called.automaton_reachable {frame : Frame}
    (called : Called order a ta frame) : a.Reachable frame.state.1 := by
  induction called with
  | refl => exact ⟨[], Path.nil a.initial⟩
  | tail _ enters induction =>
      rcases enters.productStep with ⟨branch, step⟩
      rcases induction with ⟨word, path⟩
      rcases productPath_projects (Path.single step) with ⟨read, _, reads, _⟩
      exact ⟨word ++ read, path.append reads⟩

/-- On acyclic automata no product state is met again inside a call. -/
theorem Automaton.Acyclic.noRepeatedCall (acyclic : a.Acyclic)
    (noCycle : NoDashInputCycle ta) : NoRepeatedCall order a ta := by
  intro frame inner called nested same
  rcases exists_productPath nested with ⟨branches, some, cycle⟩
  rw [← same] at cycle
  rcases productPath_projects cycle with ⟨word, pairs, reads, walks, length, quiet⟩
  have empty : word = [] :=
    acyclic _ called.automaton_reachable word reads
  have none : pairs = [] := noCycle _ pairs walks (quiet empty)
  rw [none] at length
  exact absurd (List.length_eq_zero_iff.mp length.symm) some

/-- No self-loop is read. -/
theorem Automaton.Acyclic.not_loop (acyclic : a.Acyclic)
    {state after : ProductState} {v : JChar} (reachable : a.Reachable state.1) :
    ¬ productStep a ta state (.loop v) after := by
  rintro (⟨ast, inA, tast, _, _, _, equal⟩ | ⟨_, _, _, equal⟩)
  · have loops : ast.dest = state.1 := by
      rw [alphaMove] at equal
      split_ifs at equal with silent loops
      · exact Branch.noConfusion (Move.mk.inj equal).1
      · exact loops
      · exact Branch.noConfusion (Move.mk.inj equal).1
    have cycle : Path a.states.Step state.1 [ast.min] state.1 :=
      Path.single ⟨ast, inA, ast.reads_min, loops⟩
    exact absurd (acyclic _ reachable _ cycle) (List.cons_ne_nil _ _)
  · exact Branch.noConfusion (Move.mk.inj equal).1

theorem Automaton.Acyclic.harmlessLoops (acyclic : a.Acyclic) :
    HarmlessLoops a ta := by
  intro group known state member v after move
  have keep : ∀ (state : ProductState) branch next, a.Reachable state.1 →
      productStep a ta state branch next → a.Reachable next.1 := by
    rintro state branch next ⟨word, path⟩ step
    rcases productStep_projects step with ⟨_, _, ⟨c, reads⟩ | ⟨stays, _⟩⟩
    · exact ⟨word ++ [c], path.snoc reads⟩
    · rw [stays]
      exact ⟨word, path⟩
  have reachable : a.Reachable state.1 :=
    known.invariant (fun state => a.Reachable state.1) keep
      ⟨[], Path.nil a.initial⟩ state member
  exact absurd move (acyclic.not_loop reachable)

/-- The one-word automata are acyclic. -/
theorem Automaton.acyclic_makeString (word : Word) :
    (Automaton.makeString word).Acyclic := by
  intro ref reachable read cycle
  have inside : ref ≤ word.length := by
    have bound := reachable.lt
    rw [Automaton.makeString, length_chainStates] at bound
    omega
  rcases (chainStates_path_iff inside).mp cycle with ⟨_, _, rfl⟩
  rw [Nat.sub_self, List.take_zero]

end Finite

/--
On acyclic automata of single letters the recursion ends and the image is exact,
for every order of the hash sets.
-/
theorem imageRec_acyclic {order : HashOrder} {a : Automaton}
    {ta : TransducerAutomaton} (noEmptyPair : ta.NoEmptyPair)
    (noCycle : NoDashInputCycle ta) (acyclic : a.Acyclic)
    (single : a.SingleChars) :
    ∃ fuel states,
      imageRec order a ta fuel newAutomaton 0 a.initial ta.initial =
        some states ∧
      ∀ v, states.Accepts 0 v ↔ ∃ u ∈ a.lang, ta.Rel u v := by
  have ends : ImageReturns order a ta :=
    (acyclic.noRepeatedCall noCycle).imageReturns
  rcases ends with ⟨fuel, states, returns⟩
  have same := builtImage_lang returns noEmptyPair single acyclic.harmlessLoops
  exact ⟨fuel, states, returns, fun v => Set.ext_iff.mp same v⟩

/--
The identity on the chain of `aa`: the recursion ends, and the built automaton
accepts the image.
-/
theorem imageRec_acyclic_makeString :
    ∃ fuel states,
      imageRec .insertion (Automaton.makeString [97, 97]) (copyTransducer 97)
          fuel newAutomaton 0 0 0 = some states ∧
      ∀ v, states.Accepts 0 v ↔
        ∃ u ∈ (Automaton.makeString [97, 97]).lang,
          (copyTransducer 97).Rel u v := by
  have noCycle : NoDashInputCycle (copyTransducer 97) := by
    intro ref pairs path dashes
    apply copyTransducer_noDashCycle (by decide) ref pairs path
    exact fun pair member => Or.inl (dashes pair member)
  exact imageRec_acyclic (by decide) noCycle
    (Automaton.acyclic_makeString [97, 97]) (by decide)

end SafetyGames.Transducer
