import SafetyGames.Learner.EncodingParts

/-!
# Soundness of the SAT encoding

The `d` cells of a satisfying assignment are a complete deterministic
automaton.  The `x` cells follow its runs along the prefix tree, the `y` cells
follow them along the words of a universal counter-example, and a `z` cell is
true only when some word of its length leads to its pair.
-/

namespace SafetyGames.Learner

open SafetyGames.Transducer SafetyGames.LabelledPath SafetyGames.Worklist
open PrefixTree

/-! ## The automaton of an assignment -/

section Moves

variable (v : Var → Bool) (alphabet : List JChar) (n : Nat)

/-- The transitions that the `d` cells describe, by the numbers of the letters. -/
def Moves (p : Nat) (c : JChar) (q : Nat) : Prop :=
  p < n ∧ q < n ∧ ∃ a, charMap alphabet c = some a ∧ v (.d p a q) = true

/-- The words that lead from state 0 to an accepting state. -/
def acceptedBy : Set Word :=
  {word | ∃ q, Path (Moves v alphabet n) 0 word q ∧ v (.f q) = true}

end Moves

section Automaton

variable {alphabet : List JChar} {n : Nat} {v : Var → Bool}

theorem Moves.path_lt {source target : Nat} {word : Word}
    (path : Path (Moves v alphabet n) source word target)
    (inside : source < n) : target < n := by
  have keeps : ∀ source c target, source < n →
      Moves v alphabet n source c target → target < n :=
    fun _ _ _ _ move => move.2.1
  exact path.invariant keeps inside

/-- Every state has exactly one successor on every letter. -/
theorem moves_existsUnique
    (satisfied : Satisfies v (dConstraints n alphabet.length)) {p : Nat}
    (inside : p < n) {c : JChar} (letter : c ∈ alphabet) :
    ∃! q, Moves v alphabet n p c q := by
  rcases Option.isSome_iff_exists.mp (charMap_isSome_iff.mpr letter) with ⟨a, mapped⟩
  rcases satisfies_dConstraints.mp satisfied p inside a (charMap_lt mapped) with
    ⟨unique, q, qInside, chosen⟩
  refine ⟨q, ⟨inside, qInside, a, mapped, chosen⟩, ?_⟩
  rintro other ⟨_, otherInside, b, otherMapped, otherChosen⟩
  rcases Option.some.inj (mapped.symm.trans otherMapped) with rfl
  exact unique other otherInside q qInside otherChosen chosen

/-- Every word over the alphabet leads somewhere. -/
theorem exists_moves_path
    (satisfied : Satisfies v (dConstraints n alphabet.length)) {p : Nat}
    (inside : p < n) {word : Word} (letters : ∀ c ∈ word, c ∈ alphabet) :
    ∃ q, Path (Moves v alphabet n) p word q := by
  induction word generalizing p with
  | nil => exact ⟨p, Path.nil p⟩
  | cons c word induction =>
      rcases moves_existsUnique satisfied inside (letters c List.mem_cons_self) with
        ⟨middle, move, _⟩
      rcases induction move.2.1
        fun d member => letters d (List.mem_cons_of_mem c member) with ⟨q, path⟩
      exact ⟨q, Path.cons move path⟩

theorem moves_path_unique
    (satisfied : Satisfies v (dConstraints n alphabet.length))
    {p left right : Nat} {word : Word}
    (first : Path (Moves v alphabet n) p word left)
    (second : Path (Moves v alphabet n) p word right) :
    left = right := by
  refine Path.unique ?_ first second
  intro source c left right isLeft isRight
  rcases isLeft.2.2 with ⟨a, mapped, _⟩
  exact (moves_existsUnique satisfied isLeft.1
    (List.mem_of_getElem? (charMap_get mapped))).unique isLeft isRight

/-- A transition of the assignment is the cell of the number of its letter. -/
theorem Moves.cell {p q index : Nat} {c : JChar}
    (move : Moves v alphabet n p c q)
    (mapped : charMap alphabet c = some index) :
    v (.d p index q) = true := by
  rcases move with ⟨_, _, a, same, chosen⟩
  rw [mapped, Option.some.injEq] at same
  exact same ▸ chosen

/-- The transitions of an assignment read letters of the alphabet. -/
theorem moves_letters {source target : Nat} {word : Word}
    (path : Path (Moves v alphabet n) source word target) :
    ∀ c ∈ word, c ∈ alphabet := by
  refine path.forall_label (fun _ => True) ?_ trivial
  rintro _ c _ _ ⟨_, _, a, mapped, _⟩
  exact ⟨List.mem_of_getElem? (charMap_get mapped), trivial⟩

/-- The words of the prefix tree are over the alphabet. -/
theorem leads_letters {w : PrefixTree} {word : Word} {source id : Nat}
    (path : Path (PrefixTree.Step (charMap alphabet) w) source word id) :
    ∀ c ∈ word, c ∈ alphabet := by
  refine path.forall_label (fun _ => True) ?_ trivial
  rintro _ c _ _ ⟨index, mapped, _⟩
  exact ⟨List.mem_of_getElem? (charMap_get mapped), trivial⟩

theorem reachable_path {a : Automaton} {source target : Nat} {word : Word}
    (reachable : a.Reachable source)
    (path : Path a.states.Step source word target) : a.Reachable target := by
  rcases reachable with ⟨before, first⟩
  exact ⟨before ++ word, first.append path⟩

/-- The words of a counter-example automaton are over the alphabet. -/
theorem OverAlphabet.letters {a : Automaton} (within : OverAlphabet alphabet a)
    {source target : Nat} {word : Word} (reachable : a.Reachable source)
    (path : Path a.states.Step source word target) :
    ∀ c ∈ word, c ∈ alphabet := by
  refine path.forall_label a.Reachable ?_ reachable
  intro state c next known move
  refine ⟨?_, known.step move⟩
  rcases move with ⟨transition, member, reads, _⟩
  rcases within _ known transition member with ⟨single, inAlphabet⟩
  rw [(single.reads_iff _).mp reads]
  exact inAlphabet

end Automaton

/-! ## The cells follow the runs -/

section Runs

variable {order : StateOrder} {alphabet : List JChar} {s : Sample}
  {w : PrefixTree} {n : Nat} {v : Var → Bool}

/-- The `x` cells are pushed forward along the tree. -/
theorem x_of_path
    (prefixes : ∀ word id, Leads (charMap alphabet) w word id →
      PrefixSatisfied v n w alphabet.length id)
    {before word : Word} {source id p q : Nat}
    (leads : Leads (charMap alphabet) w before source)
    (walk : Path (PrefixTree.Step (charMap alphabet) w) source word id)
    (path : Path (Moves v alphabet n) p word q)
    (reached : v (.x source p) = true) :
    v (.x id q) = true := by
  induction walk generalizing before p with
  | nil =>
      rcases Path.nil_iff.mp path with rfl
      exact reached
  | cons head tail induction =>
      rcases Path.cons_iff.mp path with ⟨middle, move, rest⟩
      refine induction (leads.snoc head) rest ?_
      rcases head with ⟨index, mapped, isChild⟩
      exact (prefixes before _ leads).forward index (charMap_lt mapped) _
        isChild p move.1 middle move.2.1 reached (move.cell mapped)

/-- The `y` cells are pushed forward along the words of the automaton. -/
theorem y_of_path {a : Automaton}
    {numbers : Numbered} {u uante : Nat}
    (isNumbered : IsNumbered order alphabet a numbers)
    (within : OverAlphabet alphabet a)
    (satisfied : UniSatisfied v n u numbers uante)
    {word : Word} {source target p q : Nat}
    (reachable : a.Reachable source)
    (walk : Path a.states.Step source word target)
    (path : Path (Moves v alphabet n) p word q)
    (reached : v (.y u p (order.number a source)) = true) :
    v (.y u q (order.number a target)) = true := by
  induction walk generalizing p with
  | nil =>
      rcases Path.nil_iff.mp path with rfl
      exact reached
  | cons head tail induction =>
      rcases Path.cons_iff.mp path with ⟨middle, move, rest⟩
      refine induction (reachable.step head) rest ?_
      rcases isNumbered.edge_of_step within reachable head with
        ⟨letter, mapped, member⟩
      exact satisfied.forward _ member p move.1 middle move.2.1 reached
        (move.cell mapped)

/-- A true `z` cell has a word of its length that leads to its pair. -/
theorem path_of_z {a : Automaton} {numbers : Numbered} {e eante : Nat}
    (isNumbered : IsNumbered order alphabet a numbers)
    (satisfied : ExSatisfied v n e numbers eante)
    {l q ref : Nat} (bound : l < lMax n numbers.na) (inside : q < n)
    (reachable : a.Reachable ref)
    (reached : v (.z e q (order.number a ref) l) = true) :
    ∃ word, word.length = l ∧ Path (Moves v alphabet n) 0 word q ∧
      Path a.states.Step a.initial word ref := by
  induction l generalizing q ref with
  | zero =>
      rcases satisfied.onlyInitial _
        ((isNumbered.states _).mpr ⟨ref, reachable, rfl⟩) q inside reached with
        ⟨isInitial, rfl⟩
      rw [isNumbered.initial] at isInitial
      rcases order.number_inj reachable isInitial with rfl
      exact ⟨[], rfl, Path.nil _, Path.nil _⟩
  | succ l induction =>
      rcases satisfied.backward _
          ((isNumbered.states _).mpr ⟨ref, reachable, rfl⟩) q inside l
          (by omega) reached with ⟨edge, member, dest, p, pInside, chosen, before⟩
      rcases isNumbered.step_of_edge member with
        ⟨source, target, c, sourceReachable, step, mapped, isSource, isDest⟩
      rw [← isSource] at before
      rcases induction (by omega) pInside sourceReachable before with
        ⟨word, length, path, walk⟩
      rcases order.number_inj (sourceReachable.step step) (isDest.trans dest) with rfl
      refine ⟨word ++ [c], by simp [length], path.snoc ?_, walk.snoc step⟩
      exact ⟨pInside, inside, edge.letter, mapped, chosen⟩

end Runs

/-! ## Soundness -/

section Sound

variable {order : StateOrder} {alphabet : List JChar} {s : Sample}
  {w : PrefixTree} {n : Nat} {v : Var → Bool}

/-- Consistency with witnesses below the bound of the length index. -/
structure ShortConsistent (s : Sample) (n : Nat) (language : Set Word) :
    Prop where
  consistent : s.Consistent language
  positive : ∀ ce ∈ s.ex, 0 < lMax n ce.a.getNumberOfStates
  short : ∀ ce ∈ s.ex, ce.u ∈ language →
    ∃ v ∈ ce.a.lang, v ∈ language ∧ v.length < lMax n ce.a.getNumberOfStates

/-- The parts of a satisfied problem, by the words of the sample. -/
structure Solved (order : StateOrder) (alphabet : List JChar) (s : Sample)
    (w : PrefixTree) (n : Nat) (v : Var → Bool) : Prop where
  positive : 0 < n
  filled : Filled alphabet s w
  total : Satisfies v (dConstraints n alphabet.length)
  root : v (.x 0 0) = true
  prefixes : ∀ word id, Leads (charMap alphabet) w word id →
    PrefixSatisfied v n w alphabet.length id
  uni : ∀ cu ∈ s.uni, ∃ numbers u id,
    IsNumbered order alphabet cu.a numbers ∧ UniSatisfied v n u numbers id ∧
      Leads (charMap alphabet) w cu.u id
  ex : ∀ ce ∈ s.ex, ∃ numbers e id,
    IsNumbered order alphabet ce.a numbers ∧ 0 < lMax n numbers.na ∧
      ExSatisfied v n e numbers id ∧ Leads (charMap alphabet) w ce.u id

theorem solved_of_satisfied (positive : 0 < n)
    (filled : Filled alphabet s w)
    (satisfied : Satisfied v (cellConstraints order alphabet s n w)) :
    Solved order alphabet s w n v := by
  rcases satisfied_cellConstraints.mp satisfied with
    ⟨uniHolds, exHolds, total, initialHolds, ids, traversed, prefixHolds⟩
  refine ⟨positive, filled, total,
    ((satisfies_initialConstraints positive).mp initialHolds).1,
    fun word id leads => prefixHolds id (leads.mem_prefixes traversed), ?_, ?_⟩
  · intro cu member
    rcases List.mem_iff_getElem?.mp member with ⟨u, position⟩
    rcases filled.leads_of_uni member with ⟨id, leads⟩
    rcases (satisfied_uniProblem leads).mp
      (uniHolds (cu, u) (List.mem_zipIdx_iff_getElem?.mpr position)) with
      ⟨numbers, returns, holds⟩
    exact ⟨numbers, u, id, numbered_spec returns, holds, leads⟩
  · intro ce member
    rcases List.mem_iff_getElem?.mp member with ⟨e, position⟩
    rcases filled.leads_of_ex member with ⟨id, leads⟩
    rcases (satisfied_exProblem leads).mp
      (exHolds (ce, e) (List.mem_zipIdx_iff_getElem?.mpr position)) with
      ⟨numbers, returns, bound, holds⟩
    exact ⟨numbers, e, id, numbered_spec returns, bound, holds, leads⟩

namespace Solved

variable (solved : Solved order alphabet s w n v)
include solved

/-- The node of a word knows the state that the word leads to. -/
theorem run {word : Word} {id : Nat}
    (leads : Leads (charMap alphabet) w word id) :
    ∃ q < n, Path (Moves v alphabet n) 0 word q ∧ v (.x id q) = true := by
  rcases exists_moves_path solved.total solved.positive (leads_letters leads) with
    ⟨q, path⟩
  exact ⟨q, Moves.path_lt path solved.positive, path,
    x_of_path solved.prefixes (Path.nil 0) leads path solved.root⟩

theorem mem_acceptedBy_iff {word : Word} {q : Nat}
    (path : Path (Moves v alphabet n) 0 word q) :
    word ∈ acceptedBy v alphabet n ↔ v (.f q) = true := by
  constructor
  · rintro ⟨other, otherPath, accepts⟩
    rwa [moves_path_unique solved.total path otherPath]
  · exact fun accepts => ⟨q, path, accepts⟩

/-- An accepted antecedent is seen by the implication constraints. -/
theorem ante {word : Word} {id : Nat}
    (leads : Leads (charMap alphabet) w word id)
    (member : word ∈ acceptedBy v alphabet n) :
    ∃ q < n, v (.x id q) = true ∧ v (.f q) = true := by
  rcases solved.run leads with ⟨q, inside, path, reached⟩
  exact ⟨q, inside, reached, (solved.mem_acceptedBy_iff path).mp member⟩

theorem mem_of_pos {word : Word} (member : word ∈ s.pos) :
    word ∈ acceptedBy v alphabet n := by
  rcases solved.filled.words word (by simp [Sample.words, member]) with ⟨id, leads⟩
  rcases solved.run leads with ⟨q, inside, path, reached⟩
  have mark : 0 < w.accept id := by
    rw [solved.filled.marks word id leads, markOf, if_pos member]
    decide
  exact ⟨q, path, (solved.prefixes word id leads).accepted mark q inside reached⟩

theorem not_mem_of_neg (disjoint : ∀ word ∈ s.pos, word ∉ s.neg)
    {word : Word} (member : word ∈ s.neg) :
    word ∉ acceptedBy v alphabet n := by
  intro inLanguage
  rcases solved.filled.words word (by simp [Sample.words, member]) with ⟨id, leads⟩
  rcases solved.run leads with ⟨q, inside, path, reached⟩
  have notPos : word ∉ s.pos := fun inPos => disjoint word inPos member
  have mark : w.accept id < 0 := by
    rw [solved.filled.marks word id leads, markOf, if_neg notPos, if_pos member]
    decide
  exact (solved.prefixes word id leads).rejected mark q inside reached
    ((solved.mem_acceptedBy_iff path).mp inLanguage)

/-- An accepted antecedent has a short witness. -/
theorem exists_short {ce : CounterExample} (member : ce ∈ s.ex)
    (inLanguage : ce.u ∈ acceptedBy v alphabet n) :
    ∃ word ∈ ce.a.lang, word ∈ acceptedBy v alphabet n ∧
      word.length < lMax n ce.a.getNumberOfStates := by
  rcases solved.ex ce member with ⟨numbers, e, id, isNumbered, _, holds, leads⟩
  rcases holds.implication (solved.ante leads inLanguage) with
    ⟨p, inside, fa, isAccept, l, bound, reached, accepts⟩
  rcases (isNumbered.acceptStates fa).mp isAccept with
    ⟨ref, reachable, acceptRef, rfl⟩
  rcases path_of_z isNumbered holds bound inside reachable reached with
    ⟨word, length, path, walk⟩
  refine ⟨word, ⟨ref, walk, acceptRef⟩, ⟨p, path, accepts⟩, ?_⟩
  rw [length, ← isNumbered.na]
  exact bound

/-- An accepted antecedent has all of its consequences accepted. -/
theorem forall_mem_uni {cu : CounterExample} (member : cu ∈ s.uni)
    (within : OverAlphabet alphabet cu.a)
    (inLanguage : cu.u ∈ acceptedBy v alphabet n) :
    ∀ word ∈ cu.a.lang, word ∈ acceptedBy v alphabet n := by
  rintro word ⟨target, walk, acceptTarget⟩
  rcases solved.uni cu member with ⟨numbers, u, id, isNumbered, holds, leads⟩
  rcases exists_moves_path solved.total
    solved.positive (within.letters Automaton.Reachable.initial walk) with ⟨p, path⟩
  have reached := y_of_path isNumbered within holds
    Automaton.Reachable.initial walk path
    (isNumbered.initial ▸ holds.initial)
  have isAccept := (isNumbered.acceptStates _).mpr ⟨target,
    reachable_path Automaton.Reachable.initial walk, acceptTarget, rfl⟩
  exact ⟨p, path, holds.implication (solved.ante leads inLanguage) p
    (Moves.path_lt path solved.positive) _ isAccept reached⟩

/-- The automaton of a satisfying assignment is consistent with the sample. -/
theorem shortConsistent (disjoint : ∀ word ∈ s.pos, word ∉ s.neg)
    (within : ∀ cu ∈ s.uni, OverAlphabet alphabet cu.a) :
    ShortConsistent s n (acceptedBy v alphabet n) where
  consistent :=
    { pos := fun _ => solved.mem_of_pos
      neg := fun _ => solved.not_mem_of_neg disjoint
      ex := fun ce member inLanguage => by
        rcases solved.exists_short member inLanguage with ⟨word, inA, inL, _⟩
        exact ⟨word, inA, inL⟩
      uni := fun cu member => solved.forall_mem_uni member (within cu member) }
  positive := by
    intro ce member
    rcases solved.ex ce member with ⟨numbers, _, _, isNumbered, bound, _⟩
    rwa [isNumbered.na] at bound
  short := fun _ => solved.exists_short

end Solved

end Sound

/-! ## The automaton of a model -/

section Translate

variable {alphabet : List JChar} {n : Nat} {name : Var → Z3Name}
  {model : Z3Name → Bool}

theorem translateModel_state {positive : 0 < n} {p : Nat} (inside : p < n) :
    (translateModel alphabet n name model positive).states.state p =
      modelState alphabet n name model p := by
  rw [Heap.state, translateModel, List.getElem?_map, List.getElem?_range inside]
  rfl

/-- The steps of the automaton of a model are the transitions of its `d` cells. -/
theorem translateModel_step_iff (nodup : alphabet.Nodup) {positive : 0 < n}
    {p q : Nat} {c : JChar} :
    (translateModel alphabet n name model positive).states.Step p c q ↔
      Moves (model ∘ name) alphabet n p c q := by
  by_cases inside : p < n
  · rw [Heap.Step, translateModel_state inside]
    simp only [modelState, modelTransitions, List.mem_dedup, List.mem_flatMap,
      List.mem_filterMap, List.mem_range, Moves, inside, true_and]
    constructor
    · rintro ⟨transition, ⟨a, bound, r, rInside, chosen⟩, reads, dest⟩
      split_ifs at chosen with holds
      rcases Option.some.inj chosen with rfl
      rw [Transition.single_reads] at reads
      obtain rfl : r = q := dest
      refine ⟨rInside, a, (charMap_eq_some_iff nodup).mpr ?_, holds⟩
      rw [reads, List.getElem?_eq_getElem bound]
      rfl
    · rintro ⟨qInside, a, mapped, holds⟩
      have position := charMap_get mapped
      have bound := charMap_lt mapped
      refine ⟨Transition.single c q, ⟨a, bound, q, qInside, ?_⟩, by simp, rfl⟩
      rw [position]
      exact if_pos holds
  · have outside : (translateModel alphabet n name model positive).states.length ≤
        p := by
      simpa [translateModel] using inside
    constructor
    · rintro ⟨transition, member, _⟩
      rw [Heap.state_of_length_le outside] at member
      exact absurd member List.not_mem_nil
    · exact fun move => absurd move.1 inside

theorem translateModel_lang (nodup : alphabet.Nodup) {positive : 0 < n} :
    (translateModel alphabet n name model positive).lang =
      acceptedBy (model ∘ name) alphabet n := by
  have steps : (translateModel alphabet n name model positive).states.Step =
      Moves (model ∘ name) alphabet n := by
    funext p c q
    exact propext (translateModel_step_iff nodup)
  ext word
  have accept : ∀ {q}, Path (Moves (model ∘ name) alphabet n) 0 word q →
      (((translateModel alphabet n name model positive).states.state q).accept =
        true ↔ (model ∘ name) (.f q) = true) := by
    intro q path
    rw [translateModel_state (Moves.path_lt path positive)]
    rfl
  constructor
  · rintro ⟨q, path, accepts⟩
    rw [steps] at path
    exact ⟨q, path, (accept path).mp accepts⟩
  · rintro ⟨q, path, accepts⟩
    refine ⟨q, ?_, (accept path).mpr accepts⟩
    rw [steps]
    exact path

/-- The deterministic flag of the automaton of a model is honest. -/
theorem translateModel_honestFlag (nodup : alphabet.Nodup)
    {positive : 0 < n}
    (satisfied : Satisfies (model ∘ name) (dConstraints n alphabet.length)) :
    (translateModel alphabet n name model positive).HonestFlag := by
  intro _ word source _ c left right first second
  rw [translateModel_step_iff nodup] at first second
  rcases first.2.2 with ⟨a, mapped, _⟩
  have letter := List.mem_of_getElem? (charMap_get mapped)
  exact (moves_existsUnique satisfied first.1 letter).unique first second

end Translate

/-! ## A completed call -/

section Call

variable {order : StateOrder} {alphabet : List JChar} {debug : Bool}
  {s : Sample} {n : Nat} {problem : Encoding}

/-- The problem of a completed call is solved by the assignments of its cells. -/
theorem solved_of_constructSAT (positive : 0 < n)
    (returns : constructSAT order alphabet debug s n = some problem)
    {model : Z3Name → Bool} (satisfied : Satisfies model problem.constraints) :
    ∃ w, Solved order alphabet s w n (model ∘ problem.name) := by
  simp only [constructSAT, Option.bind_eq_bind, Option.bind_eq_some_iff,
    Option.some.injEq] at returns
  rcases returns with ⟨w, fills, constraints, adds, rfl⟩
  simp only [satisfies_map, BoolExpr.holds_map] at satisfied
  exact ⟨w, solved_of_satisfied positive (fillTree_spec fills)
    ⟨constraints, adds, satisfied⟩⟩

/--
The automaton that a satisfying assignment describes is a complete deterministic
automaton, and it is consistent with the sample.
-/
theorem translateModel_sound (nodup : alphabet.Nodup) (positive : 0 < n)
    (disjoint : ∀ word ∈ s.pos, word ∉ s.neg)
    (within : ∀ cu ∈ s.uni, OverAlphabet alphabet cu.a)
    (returns : constructSAT order alphabet debug s n = some problem)
    {model : Z3Name → Bool} (satisfied : Satisfies model problem.constraints) :
    (∀ p < n, ∀ c ∈ alphabet, ∃! q,
      (translateModel alphabet n problem.name model positive).states.Step
        p c q) ∧
    s.Consistent
      (translateModel alphabet n problem.name model positive).lang := by
  rcases solved_of_constructSAT positive returns satisfied with ⟨w, solved⟩
  constructor
  · intro p inside c letter
    simp only [translateModel_step_iff nodup]
    exact moves_existsUnique solved.total inside letter
  · rw [translateModel_lang nodup]
    exact (solved.shortConsistent disjoint within).consistent

end Call

/-! ## The even words -/

/-- The even words are accepted, and the odd word `a` is forbidden. -/
def evenSample : Sample where
  pos := [[]]
  neg := [[97]]
  ex := [⟨[], Automaton.makeString [97, 97]⟩]
  uni := [⟨[], Automaton.makeString [97, 97]⟩]
  size := 4

/-- The runs of the automaton with two states that accepts the even words. -/
def evenModel : Z3Name → Bool
  | .number _ => false
  | .f q => q == 0
  | .d p _ q => p != q
  | .x word q => word.count 97 % 2 == q
  | .y p p2 => p2 % 2 == p
  | .z p p2 l => l == p2 && p2 % 2 == p

theorem evenModel_satisfied :
    ∃ problem,
      constructSAT StateOrder.found [97] true evenSample 2 = some problem ∧
        Satisfies evenModel problem.constraints := by
  have holds : (constructSAT StateOrder.found [97] true evenSample 2).any
      (fun problem => decide (Satisfies evenModel problem.constraints)) =
        true := by
    decide +kernel
  rcases (Option.any_eq_true _ _).mp holds with ⟨problem, returns, satisfied⟩
  exact ⟨problem, returns, of_decide_eq_true satisfied⟩

/--
In the sample all four kinds of constraints occur.  The model is the automaton
with two states of the words of even length, in the debug mode.
-/
theorem translateModel_even :
    ∃ problem,
      constructSAT StateOrder.found [97] true evenSample 2 = some problem ∧
        (∀ p < 2, ∀ c ∈ [97], ∃! q,
          (translateModel [97] 2 problem.name evenModel two_pos).states.Step
            p c q) ∧
        evenSample.Consistent
          (translateModel [97] 2 problem.name evenModel two_pos).lang := by
  rcases evenModel_satisfied with ⟨problem, returns, satisfied⟩
  have within : ∀ cu ∈ evenSample.uni, OverAlphabet [97] cu.a :=
    List.forall_mem_singleton.mpr (overAlphabet_of_states (by decide))
  exact ⟨problem, returns, translateModel_sound (by decide) two_pos (by decide)
    within returns satisfied⟩

end SafetyGames.Learner
