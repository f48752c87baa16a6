import SafetyGames.Learner.EncodingSound

/-!
# Exactness of the `z` cells

The initial and the forward constraints push a `z` cell along every pair of
runs on one word, the backward constraints lead from a true cell back to such
a pair.  Below the bound of the length index the cells of a satisfying
assignment are therefore exactly the pairs that some word of their length
reaches, also in the debug mode, where the automata of a sample share cells.
-/

namespace SafetyGames.Learner

open SafetyGames.Transducer SafetyGames.LabelledPath SafetyGames.Worklist
open PrefixTree

/-! ## From runs to cells -/

section Forward

variable {order : StateOrder} {alphabet : List JChar} {n : Nat}
  {v : Var → Bool} {a : Automaton} {numbers : Numbered} {e eante : Nat}

/-- One step of both automata pushes a `z` cell forward. -/
theorem z_of_step
    (isNumbered : IsNumbered order alphabet a numbers)
    (within : OverAlphabet alphabet a)
    (satisfied : ExSatisfied v n e numbers eante)
    {source target p q l : Nat} {c : JChar}
    (reachable : a.Reachable source)
    (step : a.states.Step source c target)
    (move : Moves v alphabet n p c q)
    (bound : l + 1 < lMax n numbers.na)
    (reached : v (.z e p (order.number a source) l) = true) :
    v (.z e q (order.number a target) (l + 1)) = true := by
  rcases isNumbered.edge_of_step within reachable step with ⟨letter, mapped, member⟩
  have known : order.number a source ∈ numbers.states :=
    (isNumbered.states _).mpr ⟨source, reachable, rfl⟩
  have inside : l < lMax n numbers.na - 1 := by omega
  exact satisfied.forward _ known _ member rfl p move.1 q move.2.1 l inside
    reached (move.cell mapped)

/-- The `z` cells are pushed forward along the words of the automaton. -/
theorem z_of_path
    (isNumbered : IsNumbered order alphabet a numbers)
    (within : OverAlphabet alphabet a)
    (satisfied : ExSatisfied v n e numbers eante)
    {word : Word} {source target p q l : Nat}
    (reachable : a.Reachable source)
    (walk : Path a.states.Step source word target)
    (path : Path (Moves v alphabet n) p word q)
    (bound : l + word.length < lMax n numbers.na)
    (reached : v (.z e p (order.number a source) l) = true) :
    v (.z e q (order.number a target) (l + word.length)) = true := by
  induction walk generalizing p l with
  | nil =>
      rcases Path.nil_iff.mp path with rfl
      exact reached
  | cons head tail induction =>
      rcases Path.cons_iff.mp path with ⟨next, move, rest⟩
      rw [List.length_cons, ← Nat.add_assoc, Nat.add_right_comm] at bound ⊢
      apply induction (reachable.step head) rest bound
      exact z_of_step isNumbered within satisfied reachable head move
        (by omega) reached

/-- Below the bound of the length index a `z` cell is true exactly when a word
of its length leads to its pair. -/
theorem z_iff
    (isNumbered : IsNumbered order alphabet a numbers)
    (within : OverAlphabet alphabet a)
    (satisfied : ExSatisfied v n e numbers eante)
    {ref q l : Nat} (reachable : a.Reachable ref) (inside : q < n)
    (bound : l < lMax n numbers.na) :
    v (.z e q (order.number a ref) l) = true ↔
      ∃ word, word.length = l ∧ Path (Moves v alphabet n) 0 word q ∧
        Path a.states.Step a.initial word ref := by
  constructor
  · exact path_of_z isNumbered satisfied bound inside reachable
  · rintro ⟨word, rfl, path, walk⟩
    have initial : v (.z e 0 (order.number a a.initial) 0) = true :=
      isNumbered.initial ▸ satisfied.initial
    have reached := z_of_path isNumbered within satisfied
      Automaton.Reachable.initial walk path (by omega) initial
    rwa [Nat.zero_add] at reached

end Forward

/-! ## The cells of a completed call -/

section Call

variable {order : StateOrder} {alphabet : List JChar} {debug : Bool}
  {s : Sample} {n : Nat} {problem : Encoding}

/-- The constraints of the existential counter-example at a position, in a
completed call. -/
theorem exSatisfied_of_constructSAT
    (returns : constructSAT order alphabet debug s n = some problem)
    {model : Z3Name → Bool} (satisfied : Satisfies model problem.constraints)
    {e : Nat} {ce : CounterExample} (position : s.ex[e]? = some ce) :
    ∃ numbers id, IsNumbered order alphabet ce.a numbers ∧
      ExSatisfied (model ∘ problem.name) n e numbers id := by
  simp only [constructSAT, Option.bind_eq_bind, Option.bind_eq_some_iff,
    Option.some.injEq] at returns
  rcases returns with ⟨w, fills, constraints, adds, rfl⟩
  simp only [satisfies_map, BoolExpr.holds_map] at satisfied
  have parts := satisfied_cellConstraints.mp ⟨constraints, adds, satisfied⟩
  rcases (fillTree_spec fills).leads_of_ex (List.mem_of_getElem? position) with
    ⟨id, leads⟩
  rcases (satisfied_exProblem leads).mp
    (parts.2.1 (ce, e) (List.mem_zipIdx_iff_getElem?.mpr position)) with
    ⟨numbers, returned, _, holds⟩
  exact ⟨numbers, id, numbered_spec returned, holds⟩

/--
In every satisfying assignment of a completed call the `z` cells of an
existential counter-example over the alphabet are exact.
-/
theorem z_cell_iff
    (returns : constructSAT order alphabet debug s n = some problem)
    {model : Z3Name → Bool} (satisfied : Satisfies model problem.constraints)
    {e : Nat} {ce : CounterExample} (position : s.ex[e]? = some ce)
    (within : OverAlphabet alphabet ce.a)
    {q ref l : Nat} (inside : q < n) (reachable : ce.a.Reachable ref)
    (bound : l < lMax n ce.a.getNumberOfStates) :
    model (problem.name (.z e q (order.number ce.a ref) l)) = true ↔
      ∃ word, word.length = l ∧
        Path (Moves (model ∘ problem.name) alphabet n) 0 word q ∧
          Path ce.a.states.Step ce.a.initial word ref := by
  rcases exSatisfied_of_constructSAT returns satisfied position with
    ⟨numbers, _, isNumbered, holds⟩
  rw [← isNumbered.na] at bound
  exact z_iff isNumbered within holds reachable inside bound

/--
The word `aa` leads both automata to an accepting state.
-/
theorem z_cell_even :
    ∃ problem,
      constructSAT StateOrder.found [97] true evenSample 2 = some problem ∧
        (evenModel (problem.name
            (.z 0 0 (StateOrder.found.number (Automaton.makeString [97, 97]) 2)
              2)) = true ↔
          ∃ word, word.length = 2 ∧
            Path (Moves (evenModel ∘ problem.name) [97] 2) 0 word 0 ∧
              Path (Automaton.makeString [97, 97]).states.Step
                (Automaton.makeString [97, 97]).initial word 2) := by
  rcases evenModel_satisfied with ⟨problem, returns, satisfied⟩
  have position : evenSample.ex[0]? =
      some ⟨[], Automaton.makeString [97, 97]⟩ := rfl
  have within : OverAlphabet [97] (Automaton.makeString [97, 97]) :=
    overAlphabet_of_states (by decide)
  have reachable : (Automaton.makeString [97, 97]).Reachable 2 :=
    Automaton.mem_getStates.mp (by decide)
  have bound : 2 < lMax 2 (Automaton.makeString [97, 97]).getNumberOfStates := by
    decide
  exact ⟨problem, returns,
    z_cell_iff returns satisfied position within two_pos reachable bound⟩

end Call

end SafetyGames.Learner
