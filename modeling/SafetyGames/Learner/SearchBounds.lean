import SafetyGames.Learner.Conjecture
import Mathlib.Data.Set.Finite.Lattice
import Mathlib.Data.FinEnum
import Mathlib.Data.Fintype.Pi

/-!
# Bounds of the search

A consistent automaton with `n` states has witnesses with fewer letters than
the product has states.  The length index misses the last length, but with one
more state it reaches all of them, so no search passes `n + 1`.
-/

namespace SafetyGames.Learner

open SafetyGames.Transducer SafetyGames.LabelledPath

/-! ## The length of a witness -/

/-- An accepted antecedent of a consistent automaton with `n` states has a
witness with fewer than `n * na` letters; `lMax` misses the last length. -/
theorem exists_witness_lt {alphabet : List JChar} {s : Sample} {n : Nat}
    {M : DFA JChar (Fin n)} (consistent : s.Consistent (dfaLang alphabet M))
    {ce : CounterExample} (member : ce ∈ s.ex)
    (within : OverAlphabet alphabet ce.a)
    (accepted : ce.u ∈ dfaLang alphabet M) :
    ∃ v ∈ ce.a.lang, v ∈ dfaLang alphabet M ∧
      v.length < n * ce.a.getNumberOfStates := by
  rcases consistent.ex ce member accepted with ⟨v, ⟨target, path, accept⟩, inLanguage⟩
  let step : Fin n × Nat → JChar → Fin n × Nat → Prop :=
    fun source c next =>
      next.1 = M.step source.1 c ∧ ce.a.states.Step source.2 c next.2
  have forget : ∀ {source target : Fin n × Nat} {word : Word},
      Path step source word target →
        Path ce.a.states.Step source.2 word target.2 ∧
          M.evalFrom source.1 word = target.1 := by
    intro source target word path
    induction path with
    | nil => exact ⟨Path.nil _, rfl⟩
    | cons head _ induction =>
        refine ⟨Path.cons head.2 induction.1, ?_⟩
        rw [DFA.evalFrom_cons, ← head.1]
        exact induction.2
  have pair : ∀ {source target : Nat} {word : Word} (p : Fin n),
      Path ce.a.states.Step source word target →
        Path step (p, source) word (M.evalFrom p word, target) := by
    intro source target word p path
    induction path generalizing p with
    | nil => exact Path.nil _
    | @cons _ middle _ c _ head _ induction =>
        exact Path.cons (show step (p, _) c (M.step p c, middle) from
          ⟨rfl, head⟩) (induction _)
  let vertices := (Finset.univ : Finset (Fin n)) ×ˢ ce.a.getStates.toFinset
  have closed : ∀ source c next, source ∈ vertices → step source c next →
      next ∈ vertices := by
    intro source c next inside move
    simp only [vertices, Finset.mem_product, Finset.mem_univ, true_and,
      List.mem_toFinset, Automaton.mem_getStates] at inside ⊢
    exact inside.step move.2
  have start : (M.start, ce.a.initial) ∈ vertices := by
    simp only [vertices, Finset.mem_product, Finset.mem_univ, true_and,
      List.mem_toFinset, Automaton.mem_getStates]
    exact Automaton.Reachable.initial
  rcases Path.exists_short closed start (pair M.start path) with
    ⟨short, bound, shortPath⟩
  rcases forget shortPath with ⟨walk, run⟩
  have size : vertices.card = n * ce.a.getNumberOfStates := by
    rw [Finset.card_product, Finset.card_univ, Fintype.card_fin,
      List.toFinset_card_of_nodup Automaton.nodup_getStates]
    rfl
  refine ⟨short, ⟨target, walk, accept⟩,
    ⟨within.letters Automaton.Reachable.initial walk, ?_⟩, size ▸ bound⟩
  change M.evalFrom M.start short ∈ M.accept
  rw [run]
  exact inLanguage.2

/-! ## One more state -/

section Padding

variable {n : Nat}

/-- The automaton with one more state, which no word leads to. -/
def padded (M : DFA JChar (Fin n)) : DFA JChar (Fin (n + 1)) where
  step p c := if inside : p.val < n then (M.step ⟨p, inside⟩ c).castSucc else p
  start := M.start.castSucc
  accept := {q | ∃ state ∈ M.accept, q = state.castSucc}

theorem padded_evalFrom (M : DFA JChar (Fin n)) (p : Fin n) (word : Word) :
    (padded M).evalFrom p.castSucc word = (M.evalFrom p word).castSucc := by
  induction word generalizing p with
  | nil => rfl
  | cons c word induction =>
      have head : (padded M).step p.castSucc c = (M.step p c).castSucc :=
        dif_pos p.isLt
      rw [DFA.evalFrom_cons, DFA.evalFrom_cons, head, induction]

theorem dfaLang_padded (alphabet : List JChar) (M : DFA JChar (Fin n)) :
    dfaLang alphabet (padded M) = dfaLang alphabet M := by
  ext word
  refine and_congr_right fun _ => ?_
  change (padded M).evalFrom M.start.castSucc word ∈ (padded M).accept ↔
    M.evalFrom M.start word ∈ M.accept
  rw [padded_evalFrom]
  constructor
  · rintro ⟨state, member, same⟩
    rwa [Fin.castSucc_injective n same]
  · exact fun member => ⟨_, member, rfl⟩

/-- With one more state the witnesses of a consistent automaton are short. -/
theorem shortConsistent_padded {alphabet : List JChar} {s : Sample}
    (within : s.Over alphabet) {M : DFA JChar (Fin n)}
    (consistent : s.Consistent (dfaLang alphabet M)) :
    ShortConsistent s (n + 1) (dfaLang alphabet (padded M)) := by
  rw [dfaLang_padded]
  have room : ∀ na, 0 < na → n * na ≤ lMax (n + 1) na := by
    intro na positive
    rw [lMax, Nat.add_mul, one_mul]
    omega
  refine ⟨consistent, fun ce _ => ?_, fun ce member accepted => ?_⟩
  · exact (Nat.mul_pos (Fin.pos M.start) ce.a.getNumberOfStates_pos).trans_le
      (room _ ce.a.getNumberOfStates_pos)
  · rcases exists_witness_lt consistent member (within.ex ce member) accepted with
      ⟨v, inA, inLanguage, short⟩
    exact ⟨v, inA, inLanguage,
      short.trans_le (room _ ce.a.getNumberOfStates_pos)⟩

end Padding

/-- A search does not pass a number of states with a satisfiable problem. -/
theorem Search.le_of_satisfiable {alphabet : List JChar} {debug : Bool}
    {s : Sample} {k : Nat}
    (satisfiable : ∀ order, Satisfiable order alphabet debug s k)
    {n m : Nat} {tried : List Nat} {dfa : Automaton}
    (search : Search alphabet debug s n tried m dfa) (first : n ≤ k) :
    m ≤ k := by
  induction search with
  | satisfiable => exact first
  | unsatisfiable order unsatisfiable _ induction =>
      refine induction (Nat.lt_of_le_of_ne first ?_)
      rintro rfl
      exact (satisfiable order).not_unsatisfiable unsatisfiable

/-! ## Finitely many conjectures -/

theorem finite_dfaLang (alphabet : List JChar) (bound : Nat) :
    {language | ∃ n ≤ bound, ∃ M : DFA JChar (Fin n),
      language = dfaLang alphabet M}.Finite := by
  have finite : ∀ n, Finite (DFA JChar (Fin n)) := by
    intro n
    refine Finite.of_injective
      (fun M : DFA JChar (Fin n) => (M.step, M.start, M.accept)) ?_
    rintro ⟨step, start, accept⟩ ⟨_, _, _⟩ same
    rcases Prod.mk.injEq _ _ _ _ ▸ same with ⟨rfl, rfl, rfl⟩
    rfl
  have each : ∀ n ∈ {n | n ≤ bound},
      (Set.range fun M : DFA JChar (Fin n) => dfaLang alphabet M).Finite :=
    fun n _ => Set.finite_range _
  refine ((Set.finite_le_nat bound).biUnion each).subset ?_
  rintro language ⟨n, small, M, rfl⟩
  exact Set.mem_biUnion small ⟨M, rfl⟩

end SafetyGames.Learner
