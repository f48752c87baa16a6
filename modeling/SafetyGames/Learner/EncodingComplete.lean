import SafetyGames.Learner.EncodingSound
import Mathlib.Computability.DFA

/-!
# Completeness of the SAT encoding

A complete automaton with `n` states describes a value for every cell of the
arrays.  These values satisfy the constraints when the automaton is consistent
with the sample and every existential counter-example has a witness whose
length the index of its `z` array reaches.
-/

namespace SafetyGames.Learner

open SafetyGames.Transducer SafetyGames.LabelledPath SafetyGames.Worklist
open PrefixTree

/-! ## The cells of an automaton -/

/-- The bounds within which the cells are declared. -/
def Declared (n alphabetSize size : Nat) (uni ex : List Nat) : Var → Prop
  | .f q => q < n
  | .d p a q => p < n ∧ a < alphabetSize ∧ q < n
  | .x u q => u < size ∧ q < n
  | .y u p p2 => p < n ∧ ∃ na, uni[u]? = some na ∧ p2 < na
  | .z e p p2 l => p < n ∧ ∃ na, ex[e]? = some na ∧ p2 < na ∧ l < lMax n na

theorem mem_declarations {n alphabetSize size : Nat} {uni ex : List Nat}
    {cell : Var} :
    cell ∈ declarations n alphabetSize size uni ex ↔
      Declared n alphabetSize size uni ex cell := by
  cases cell with
  | f q | d p a q | x u q => simp [declarations, Declared]
  | y u p p2 =>
      simp only [declarations, Declared, List.mem_append, List.mem_map,
        List.mem_flatMap, List.mem_range, reduceCtorEq, and_false, exists_false,
        false_or, or_false, Var.y.injEq, Prod.exists,
        List.mem_zipIdx_iff_getElem?]
      constructor
      · rintro ⟨na, u, position, p, inside, p2, bound, rfl, rfl, rfl⟩
        exact ⟨inside, na, position, bound⟩
      · rintro ⟨inside, na, position, bound⟩
        exact ⟨na, u, position, p, inside, p2, bound, rfl, rfl, rfl⟩
  | z e p p2 l =>
      simp only [declarations, Declared, List.mem_append, List.mem_map,
        List.mem_flatMap, List.mem_range, reduceCtorEq, and_false, exists_false,
        false_or, Var.z.injEq, Prod.exists, List.mem_zipIdx_iff_getElem?]
      constructor
      · rintro ⟨na, e, position, p, inside, p2, bound, l, short, rfl, rfl,
          rfl, rfl⟩
        exact ⟨inside, na, position, bound, short⟩
      · rintro ⟨inside, na, position, bound, short⟩
        exact ⟨na, e, position, p, inside, p2, bound, l, short, rfl, rfl,
          rfl, rfl⟩

/-- The words over the alphabet that a complete automaton accepts. -/
def dfaLang (alphabet : List JChar) {n : Nat} (M : DFA JChar (Fin n)) :
    Set Word :=
  {word | (∀ c ∈ word, c ∈ alphabet) ∧ word ∈ M.accepts}

section Cells

variable (order : StateOrder) (alphabet : List JChar) (s : Sample)
  (w : PrefixTree) {n : Nat} (M : DFA JChar (Fin n))

/-- What a cell says about the runs of the automaton. -/
def CellHolds : Var → Prop
  | .f q => ∃ state ∈ M.accept, state.val = q
  | .d p a q => ∃ state c, alphabet[a]? = some c ∧ state.val = p ∧
      (M.step state c).val = q
  | .x u q => ∃ word, Leads (charMap alphabet) w word u ∧
      (M.eval word).val = q
  | .y u p p2 => ∃ cu, s.uni[u]? = some cu ∧ ∃ word ref,
      Path cu.a.states.Step cu.a.initial word ref ∧
        order.number cu.a ref = p2 ∧ (M.eval word).val = p
  | .z e p p2 l => ∃ ce, s.ex[e]? = some ce ∧ ∃ word ref,
      Path ce.a.states.Step ce.a.initial word ref ∧
        order.number ce.a ref = p2 ∧ (M.eval word).val = p ∧ word.length = l

/-- The cells of the arrays that hold. -/
def Chosen (cell : Var) : Prop :=
  Declared n alphabet.length w.length (sizes s.uni) (sizes s.ex) cell ∧
    CellHolds order alphabet s w M cell

end Cells

/-- The words and the automata of a sample are over the alphabet, and no word
is asked for and forbidden. -/
structure Sample.Over (alphabet : List JChar) (s : Sample) : Prop where
  letters : ∀ word ∈ s.words, ∀ c ∈ word, c ∈ alphabet
  ex : ∀ ce ∈ s.ex, OverAlphabet alphabet ce.a
  uni : ∀ cu ∈ s.uni, OverAlphabet alphabet cu.a
  disjoint : ∀ word ∈ s.pos, word ∉ s.neg

/-! ## The constraints hold -/

section Complete

variable {order : StateOrder} {alphabet : List JChar} {s : Sample}
  {w : PrefixTree} {n : Nat} {M : DFA JChar (Fin n)} {v : Var → Bool}

theorem eval_snoc (word : Word) (c : JChar) :
    M.eval (word ++ [c]) = M.step (M.eval word) c :=
  M.evalFrom_append_singleton M.start word c

/-- An automaton whose steps and accepting states are those of the cells
accepts the words that the cells accept. -/
theorem dfaLang_eq_acceptedBy (start : M.start.val = 0)
    (satisfied : Satisfies v (dConstraints n alphabet.length))
    (steps : ∀ p : Fin n, ∀ c ∈ alphabet, Moves v alphabet n p c (M.step p c))
    (accept : ∀ q : Fin n, q ∈ M.accept ↔ v (.f q) = true) :
    dfaLang alphabet M = acceptedBy v alphabet n := by
  have runs : ∀ word : Word, (∀ c ∈ word, c ∈ alphabet) →
      Path (Moves v alphabet n) 0 word (M.eval word) := by
    intro word
    induction word using List.reverseRecOn with
    | nil =>
        intro _
        rw [DFA.eval_nil, start]
        exact Path.nil 0
    | append_singleton word c induction =>
        intro letters
        rcases List.forall_mem_append.mp letters with ⟨before, last⟩
        rw [eval_snoc]
        exact (induction before).snoc
          (steps _ c (last c (List.mem_singleton_self c)))
  ext word
  constructor
  · rintro ⟨letters, accepts⟩
    exact ⟨_, runs word letters, (accept _).mp accepts⟩
  · rintro ⟨q, path, accepts⟩
    have letters := moves_letters path
    rcases moves_path_unique satisfied path (runs word letters) with rfl
    exact ⟨letters, (accept _).mpr accepts⟩

theorem position_sizes {list : List CounterExample} {index : Nat}
    {ce : CounterExample} (position : list[index]? = some ce) :
    (sizes list)[index]? = some ce.a.getNumberOfStates := by
  rw [sizes, List.getElem?_map, position]
  rfl

/-- The assignment that the automaton describes. -/
structure Describes (order : StateOrder) (alphabet : List JChar) (s : Sample)
    (w : PrefixTree) (M : DFA JChar (Fin n)) (v : Var → Bool) : Prop where
  chosen : ∀ cell, v cell = true ↔ Chosen order alphabet s w M cell
  filled : Filled alphabet s w
  within : s.Over alphabet
  start : M.start.val = 0

namespace Describes

variable (describes : Describes order alphabet s w M v)
include describes

theorem accept_iff (q : Fin n) : v (.f q) = true ↔ q ∈ M.accept := by
  rw [describes.chosen]
  constructor
  · rintro ⟨_, state, member, same⟩
    rw [Fin.val_injective same] at member
    exact member
  · exact fun member => ⟨q.isLt, q, member, rfl⟩

theorem accepts_iff {word : Word} :
    v (.f (M.eval word).val) = true ↔ word ∈ M.accepts :=
  describes.accept_iff (M.eval word)

theorem dfaLang_iff {word : Word} (letters : ∀ c ∈ word, c ∈ alphabet) :
    word ∈ dfaLang alphabet M ↔ v (.f (M.eval word).val) = true := by
  rw [describes.accepts_iff]
  exact ⟨fun member => member.2, fun member => ⟨letters, member⟩⟩

/-- The `d` cells are the transitions of the automaton. -/
theorem moves_iff (p : Fin n) {a q : Nat} {c : JChar}
    (position : alphabet[a]? = some c) :
    v (.d p a q) = true ↔ (M.step p c).val = q := by
  rw [describes.chosen]
  constructor
  · rintro ⟨_, state, other, otherPosition, same, target⟩
    rcases Option.some.inj (position.symm.trans otherPosition) with rfl
    rwa [Fin.val_injective same] at target
  · rintro rfl
    exact ⟨⟨p.isLt, (List.getElem?_eq_some_iff.mp position).1,
      (M.step p c).isLt⟩, p, c, position, rfl, rfl⟩

/-- The `x` cells are the runs on the words of the tree. -/
theorem run_iff {word : Word} {id q : Nat}
    (leads : Leads (charMap alphabet) w word id) :
    v (.x id q) = true ↔ (M.eval word).val = q := by
  rw [describes.chosen]
  constructor
  · rintro ⟨_, other, otherLeads, target⟩
    rwa [otherLeads.injective describes.filled.isTree leads] at target
  · rintro rfl
    exact ⟨⟨leads.lt describes.filled.isTree, (M.eval word).isLt⟩, word, leads,
      rfl⟩

/-- The `y` cells are the pairs that the words of a counter-example reach. -/
theorem pair_iff {u p p2 : Nat} {cu : CounterExample}
    (position : s.uni[u]? = some cu) :
    v (.y u p p2) = true ↔ ∃ word ref,
      Path cu.a.states.Step cu.a.initial word ref ∧
        order.number cu.a ref = p2 ∧ (M.eval word).val = p := by
  rw [describes.chosen]
  constructor
  · rintro ⟨_, other, otherPosition, runs⟩
    rwa [Option.some.inj (position.symm.trans otherPosition)]
  · rintro ⟨word, ref, path, rfl, rfl⟩
    exact ⟨⟨(M.eval word).isLt, _, position_sizes position,
      order.number_lt ⟨word, path⟩⟩, cu, position, word, ref, path, rfl, rfl⟩

/-- The `z` cells are the pairs that the words of one length reach. -/
theorem timed_iff {e p p2 l : Nat} {ce : CounterExample}
    (position : s.ex[e]? = some ce) :
    v (.z e p p2 l) = true ↔ l < lMax n ce.a.getNumberOfStates ∧
      ∃ word ref, Path ce.a.states.Step ce.a.initial word ref ∧
        order.number ce.a ref = p2 ∧ (M.eval word).val = p ∧
          word.length = l := by
  rw [describes.chosen]
  constructor
  · rintro ⟨⟨_, na, size, _, bound⟩, other, otherPosition, runs⟩
    rcases Option.some.inj (position.symm.trans otherPosition) with rfl
    rcases Option.some.inj ((position_sizes position).symm.trans size) with rfl
    exact ⟨bound, runs⟩
  · rintro ⟨bound, word, ref, path, rfl, rfl, rfl⟩
    exact ⟨⟨(M.eval word).isLt, _, position_sizes position,
      order.number_lt ⟨word, path⟩, bound⟩, ce, position, word, ref, path, rfl,
      rfl, rfl⟩

theorem dConstraints :
    Satisfies v (dConstraints n alphabet.length) := by
  refine satisfies_dConstraints.mpr fun p inside a bound => ?_
  have moves : ∀ {q}, v (.d p a q) = true ↔
      (M.step ⟨p, inside⟩ alphabet[a]).val = q :=
    describes.moves_iff ⟨p, inside⟩ (List.getElem?_eq_getElem bound)
  refine ⟨fun q _ q2 _ left right => ?_, _, Fin.isLt _, moves.mpr rfl⟩
  exact (moves.mp left).symm.trans (moves.mp right)

/-- The cells accept the words of the automaton. -/
theorem acceptedBy_eq : acceptedBy v alphabet n = dfaLang alphabet M := by
  refine (dfaLang_eq_acceptedBy describes.start describes.dConstraints
    (fun p c letter => ?_) fun q => (describes.accept_iff q).symm).symm
  rcases Option.isSome_iff_exists.mp (charMap_isSome_iff.mpr letter) with ⟨a, mapped⟩
  exact ⟨p.isLt, (M.step p c).isLt, a, mapped,
    (describes.moves_iff p (charMap_get mapped)).mpr rfl⟩

theorem initialConstraints : Satisfies v (initialConstraints n) := by
  have run : ∀ {q}, v (.x 0 q) = true ↔ M.start.val = q :=
    describes.run_iff (Path.nil 0)
  refine (satisfies_initialConstraints (Fin.pos M.start)).mpr
    ⟨run.mpr describes.start, fun q _ reached => ?_⟩
  exact (run.mp reached).symm.trans describes.start

theorem prefixSatisfied (consistent : s.Consistent (dfaLang alphabet M))
    {word : Word} {id : Nat} (leads : Leads (charMap alphabet) w word id) :
    PrefixSatisfied v n w alphabet.length id := by
  have letters := leads_letters leads
  refine ⟨?_, ?_, ?_, ?_⟩
  · intro q _ q2 _ left right
    exact ((describes.run_iff leads).mp left).symm.trans
      ((describes.run_iff leads).mp right)
  · intro a bound next isChild p _ q _ reached chosen
    rcases describes.filled.isTree.letter isChild with ⟨c, mapped⟩
    rcases (describes.run_iff leads).mp reached with rfl
    rw [describes.moves_iff _ (charMap_get mapped)] at chosen
    rw [describes.run_iff (leads.snoc ⟨a, mapped, isChild⟩), eval_snoc]
    exact chosen
  · intro mark q _ reached
    rcases (describes.run_iff leads).mp reached with rfl
    have member : word ∈ s.pos := by
      by_contra notPos
      rw [describes.filled.marks word id leads, markOf, if_neg notPos] at mark
      split_ifs at mark <;> omega
    exact (describes.dfaLang_iff letters).mp (consistent.pos word member)
  · intro mark q _ reached accepts
    rcases (describes.run_iff leads).mp reached with rfl
    have member : word ∈ s.neg := by
      by_contra notNeg
      rw [describes.filled.marks word id leads, markOf, if_neg notNeg] at mark
      split_ifs at mark <;> omega
    exact consistent.neg word member
      ((describes.dfaLang_iff letters).mpr accepts)

/-- The antecedent constraints see an accepted antecedent only. -/
theorem mem_of_ante {word : Word} {id : Nat}
    (leads : Leads (charMap alphabet) w word id)
    (accepted : ∃ q < n, v (.x id q) = true ∧ v (.f q) = true) :
    word ∈ dfaLang alphabet M := by
  rcases accepted with ⟨q, _, reached, accepts⟩
  rcases (describes.run_iff leads).mp reached with rfl
  exact (describes.dfaLang_iff (leads_letters leads)).mpr accepts

theorem uniSatisfied (consistent : s.Consistent (dfaLang alphabet M))
    {u id : Nat} {cu : CounterExample} {numbers : Numbered}
    (position : s.uni[u]? = some cu)
    (isNumbered : IsNumbered order alphabet cu.a numbers)
    (leads : Leads (charMap alphabet) w cu.u id) :
    UniSatisfied v n u numbers id := by
  refine ⟨?_, ?_, ?_⟩
  · rw [isNumbered.initial, describes.pair_iff position]
    exact ⟨[], cu.a.initial, Path.nil _, rfl, describes.start⟩
  · intro edge member p _ q _ before chosen
    rcases (describes.pair_iff position).mp before with
      ⟨word, ref, path, isSource, rfl⟩
    rcases isNumbered.step_of_edge member with
      ⟨source, target, c, _, step, mapped, source', isDest⟩
    rcases order.number_inj ⟨word, path⟩ (isSource.trans source'.symm) with rfl
    rw [describes.moves_iff _ (charMap_get mapped)] at chosen
    rw [describes.pair_iff position]
    refine ⟨word ++ [c], target, path.snoc step, isDest, ?_⟩
    rw [eval_snoc]
    exact chosen
  · intro accepted q _ fa isAccept reached
    have member := List.mem_of_getElem? position
    rcases (describes.pair_iff position).mp reached with ⟨word, ref, path, isRef, rfl⟩
    rcases (isNumbered.acceptStates fa).mp isAccept with ⟨other, _, accept, isOther⟩
    rcases order.number_inj ⟨word, path⟩ (isRef.trans isOther.symm) with rfl
    have inLanguage := consistent.uni cu member
      (describes.mem_of_ante leads accepted) word ⟨ref, path, accept⟩
    exact describes.accepts_iff.mpr inLanguage.2

theorem exSatisfied (short : ShortConsistent s n (dfaLang alphabet M))
    {e id : Nat} {ce : CounterExample} {numbers : Numbered}
    (position : s.ex[e]? = some ce)
    (isNumbered : IsNumbered order alphabet ce.a numbers)
    (leads : Leads (charMap alphabet) w ce.u id) :
    ExSatisfied v n e numbers id := by
  have member := List.mem_of_getElem? position
  exact
    { initial := by
        rw [isNumbered.initial, describes.timed_iff position]
        exact ⟨short.positive ce member, [], ce.a.initial, Path.nil _, rfl,
          describes.start, rfl⟩
      onlyInitial := by
        intro state _ q _ reached
        rcases (describes.timed_iff position).mp reached with
          ⟨_, word, ref, path, rfl, rfl, empty⟩
        rcases List.length_eq_zero_iff.mp empty with rfl
        rcases Path.nil_iff.mp path with rfl
        exact ⟨isNumbered.initial.symm, describes.start⟩
      forward := by
        intro state _ edge inEdges isSource p _ q _ l bound before chosen
        rw [isNumbered.na] at bound
        rcases (describes.timed_iff position).mp before with
          ⟨_, word, ref, path, isRef, rfl, rfl⟩
        rcases isNumbered.step_of_edge inEdges with
          ⟨source, target, c, _, step, mapped, source', isDest⟩
        rcases order.number_inj ⟨word, path⟩
          (isRef.trans (isSource.symm.trans source'.symm)) with rfl
        rw [describes.moves_iff _ (charMap_get mapped)] at chosen
        rw [describes.timed_iff position]
        refine ⟨by omega, word ++ [c], target, path.snoc step, isDest, ?_, by simp⟩
        rw [eval_snoc]
        exact chosen
      backward := by
        intro state _ q _ l _ reached
        rcases (describes.timed_iff position).mp reached with
          ⟨bound, word, ref, path, rfl, rfl, length⟩
        obtain ⟨before, c, rfl⟩ : ∃ before c, word = before ++ [c] := by
          rcases List.eq_nil_or_concat' word with rfl | snoc
          · exact absurd length (Nat.zero_ne_add_one l)
          · exact snoc
        rcases Path.snoc_iff.mp path with ⟨middle, walk, step⟩
        obtain ⟨letter, mapped, inEdges⟩ :=
          isNumbered.edge_of_step (describes.within.ex ce member) ⟨before, walk⟩ step
        refine ⟨_, inEdges, rfl, (M.eval before).val, (M.eval before).isLt, ?_, ?_⟩
        · rw [describes.moves_iff _ (charMap_get mapped), eval_snoc]
        · rw [describes.timed_iff position]
          refine ⟨by omega, before, middle, walk, rfl, rfl, ?_⟩
          simpa using length
      implication := by
        intro accepted
        rcases short.short ce member (describes.mem_of_ante leads accepted) with
          ⟨word, ⟨ref, path, accept⟩, inLanguage, bound⟩
        refine ⟨(M.eval word).val, (M.eval word).isLt, order.number ce.a ref,
          (isNumbered.acceptStates _).mpr ⟨ref, ⟨word, path⟩, accept, rfl⟩,
          word.length, by rwa [isNumbered.na], ?_,
          describes.accepts_iff.mpr inLanguage.2⟩
        rw [describes.timed_iff position]
        exact ⟨bound, word, ref, path, rfl, rfl, rfl⟩ }

/-- All constraints hold for the cells of an automaton with short witnesses. -/
theorem satisfied (short : ShortConsistent s n (dfaLang alphabet M)) :
    Satisfied v (cellConstraints order alphabet s n w) := by
  rw [satisfied_cellConstraints]
  refine ⟨?_, ?_, describes.dConstraints, describes.initialConstraints, ?_⟩
  · rintro ⟨cu, u⟩ inList
    have position := List.mem_zipIdx_iff_getElem?.mp inList
    have member := List.mem_of_getElem? position
    rcases describes.filled.leads_of_uni member with ⟨id, leads⟩
    rcases numbered_returns (describes.within.uni cu member) with ⟨numbers, returns⟩
    exact (satisfied_uniProblem leads).mpr ⟨numbers, returns,
      describes.uniSatisfied short.consistent position (numbered_spec returns)
        leads⟩
  · rintro ⟨ce, e⟩ inList
    have position := List.mem_zipIdx_iff_getElem?.mp inList
    have member := List.mem_of_getElem? position
    rcases describes.filled.leads_of_ex member with ⟨id, leads⟩
    rcases numbered_returns (describes.within.ex ce member) with ⟨numbers, returns⟩
    have isNumbered := numbered_spec returns
    refine (satisfied_exProblem leads).mpr ⟨numbers, returns, ?_,
      describes.exSatisfied short position isNumbered leads⟩
    rw [isNumbered.na]
    exact short.positive ce member
  · rcases describes.filled.isTree.traverse_returns with ⟨prefixes, traversed⟩
    refine ⟨prefixes, traversed, fun id member => ?_⟩
    rcases describes.filled.exists_leads traversed member with ⟨word, leads⟩
    exact describes.prefixSatisfied short.consistent leads

end Describes

end Complete

/-! ## The names of the cells -/

section Names

variable {alphabet : List JChar} {w : PrefixTree} {declared : List Var}

open Classical in
/-- The assignment of the numbers of the declared cells. -/
noncomputable def numberedModel (declared : List Var) (truth : Var → Prop) :
    Z3Name → Bool
  | .number k => declared[k]?.any fun cell => decide (truth cell)
  | _ => false

/-- Different declared cells have different numbers. -/
theorem numberedModel_name {truth : Var → Prop} {cell : Var} :
    numberedModel declared truth (nameOf false alphabet w declared cell) =
        true ↔
      cell ∈ declared ∧ truth cell := by
  change declared[declared.idxOf cell]?.any _ = true ↔ _
  simp only [Option.any_eq_true, decide_eq_true_eq]
  constructor
  · rintro ⟨other, position, holds⟩
    rcases List.getElem?_eq_some_iff.mp position with ⟨bound, equal⟩
    have same : cell = other := (List.getElem_idxOf bound).symm.trans equal
    exact ⟨List.idxOf_lt_length_iff.mp bound, same ▸ holds⟩
  · rintro ⟨member, holds⟩
    have bound := List.idxOf_lt_length_of_mem member
    exact ⟨cell, List.getElem?_eq_some_iff.mpr
      ⟨bound, List.getElem_idxOf bound⟩, holds⟩

end Names

/-! ## Satisfiable exactly with short witnesses -/

section Exact

variable {order : StateOrder} {alphabet : List JChar} {debug : Bool}
  {s : Sample} {w : PrefixTree} {n : Nat} {v : Var → Bool}

/-- A call of `constructSAT` completes and its problem is satisfiable. -/
def Satisfiable (order : StateOrder) (alphabet : List JChar) (debug : Bool)
    (s : Sample) (n : Nat) : Prop :=
  ∃ problem, constructSAT order alphabet debug s n = some problem ∧
    ∃ model, Satisfies model problem.constraints

/-- A call of `constructSAT` completes and its problem is unsatisfiable. -/
def Unsatisfiable (order : StateOrder) (alphabet : List JChar) (debug : Bool)
    (s : Sample) (n : Nat) : Prop :=
  ∃ problem, constructSAT order alphabet debug s n = some problem ∧
    ¬ ∃ model, Satisfies model problem.constraints

theorem Satisfiable.not_unsatisfiable
    (satisfiable : Satisfiable order alphabet debug s n) :
    ¬ Unsatisfiable order alphabet debug s n := by
  rintro ⟨problem, returns, none⟩
  rcases satisfiable with ⟨same, sameReturns, model⟩
  rcases Option.some.inj (returns.symm.trans sameReturns) with rfl
  exact none model

/-- Some complete automaton with `n` states is consistent with the sample. -/
def Learnable (alphabet : List JChar) (s : Sample) (n : Nat) : Prop :=
  ∃ M : DFA JChar (Fin n), s.Consistent (dfaLang alphabet M)

/-- One of these automata has only witnesses below the bound of the length index. -/
def ShortLearnable (alphabet : List JChar) (s : Sample) (n : Nat) : Prop :=
  ∃ M : DFA JChar (Fin n), ShortConsistent s n (dfaLang alphabet M)

theorem ShortLearnable.learnable (short : ShortLearnable alphabet s n) :
    Learnable alphabet s n :=
  short.imp fun _ short => short.consistent

/-- The initial state may be any state. -/
theorem exists_dfa_start_zero (alphabet : List JChar)
    (M : DFA JChar (Fin n)) :
    ∃ N : DFA JChar (Fin n), N.start.val = 0 ∧
      dfaLang alphabet N = dfaLang alphabet M := by
  let swap := Equiv.swap M.start ⟨0, Fin.pos M.start⟩
  refine ⟨DFA.reindex swap M, ?_, ?_⟩
  · exact congrArg Fin.val (Equiv.swap_apply_left M.start ⟨0, Fin.pos M.start⟩)
  · rw [dfaLang, dfaLang, DFA.accepts_reindex]

/-- An automaton with short witnesses is one that the solver may find. -/
theorem ShortConsistent.exists_model {M : DFA JChar (Fin n)}
    (short : ShortConsistent s n (dfaLang alphabet M))
    (within : s.Over alphabet) (order : StateOrder) :
    ∃ problem model, constructSAT order alphabet false s n = some problem ∧
      Satisfies model problem.constraints ∧
        acceptedBy (model ∘ problem.name) alphabet n =
          dfaLang alphabet M := by
  rcases exists_dfa_start_zero alphabet M with ⟨N, start, sameLang⟩
  rcases fillTree_returns within.letters with ⟨w, fills⟩
  let declared := declarations n alphabet.length w.length (sizes s.uni)
    (sizes s.ex)
  let name := nameOf false alphabet w declared
  let model := numberedModel declared (CellHolds order alphabet s w N)
  have describes : Describes order alphabet s w N (model ∘ name) :=
    { chosen := fun cell => by
        rw [Function.comp_apply, numberedModel_name, mem_declarations]
        rfl
      filled := fillTree_spec fills
      within := within
      start := start }
  rcases describes.satisfied (sameLang ▸ short) with ⟨constraints, adds, satisfied⟩
  refine ⟨⟨name, constraints.map (BoolExpr.map name)⟩, model, ?_, ?_, ?_⟩
  · simp only [constructSAT, fills, adds, Option.bind_eq_bind, Option.bind_some,
      name, declared]
  · simp only [satisfies_map, BoolExpr.holds_map]
    exact satisfied
  · rw [← sameLang]
    exact describes.acceptedBy_eq

/-- An automaton with short witnesses satisfies the problem. -/
theorem ShortLearnable.satisfiable (short : ShortLearnable alphabet s n)
    (within : s.Over alphabet) (order : StateOrder) :
    Satisfiable order alphabet false s n := by
  rcases short with ⟨M, short⟩
  rcases short.exists_model within order with ⟨problem, model, returns, satisfied, _⟩
  exact ⟨problem, returns, model, satisfied⟩

/-- The automaton of the `d` and `f` cells, made total by loops. -/
def dfaOf (v : Var → Bool) (alphabet : List JChar) {n : Nat}
    (positive : 0 < n) : DFA JChar (Fin n) where
  step p c := match charMap alphabet c with
    | some a => ((List.finRange n).find? fun q : Fin n => v (.d p a q)).getD p
    | none => p
  start := ⟨0, positive⟩
  accept := {q | v (.f q) = true}

theorem dfaOf_step {positive : 0 < n}
    (satisfied : Satisfies v (dConstraints n alphabet.length)) (p : Fin n)
    {c : JChar} (letter : c ∈ alphabet) :
    Moves v alphabet n p c ((dfaOf v alphabet positive).step p c) := by
  rcases moves_existsUnique satisfied p.isLt letter with
    ⟨q, ⟨_, inside, a, mapped, chosen⟩, _⟩
  rcases Option.isSome_iff_exists.mp
    (List.find?_isSome.mpr
      ⟨⟨q, inside⟩, List.mem_finRange _, chosen⟩ :
        ((List.finRange n).find? fun q : Fin n => v (.d p a q)).isSome = true) with
    ⟨found, isFound⟩
  have isStep : (dfaOf v alphabet positive).step p c = found := by
    simp only [dfaOf, mapped, isFound, Option.getD_some]
  have holds := List.find?_some isFound
  rw [isStep]
  exact ⟨p.isLt, found.isLt, a, mapped, holds⟩

/-- The automaton of the cells accepts the words that the cells accept. -/
theorem dfaLang_dfaOf {positive : 0 < n}
    (satisfied : Satisfies v (dConstraints n alphabet.length)) :
    dfaLang alphabet (dfaOf v alphabet positive) =
      acceptedBy v alphabet n :=
  dfaLang_eq_acceptedBy rfl satisfied
    (fun p _ letter => dfaOf_step satisfied p letter) fun _ => Iff.rfl

/-- A satisfiable problem has an automaton with short witnesses, in both modes. -/
theorem Satisfiable.shortLearnable
    (satisfiable : Satisfiable order alphabet debug s n) (positive : 0 < n)
    (within : s.Over alphabet) :
    ShortLearnable alphabet s n := by
  rcases satisfiable with ⟨problem, returns, model, satisfied⟩
  rcases solved_of_constructSAT positive returns satisfied with ⟨w, solved⟩
  refine ⟨dfaOf (model ∘ problem.name) alphabet positive, ?_⟩
  rw [dfaLang_dfaOf solved.total]
  exact solved.shortConsistent within.disjoint within.uni

theorem satisfiable_iff (positive : 0 < n) (within : s.Over alphabet) :
    Satisfiable order alphabet false s n ↔ ShortLearnable alphabet s n :=
  ⟨fun satisfiable => satisfiable.shortLearnable positive within,
    fun short => short.satisfiable within order⟩

end Exact

end SafetyGames.Learner
