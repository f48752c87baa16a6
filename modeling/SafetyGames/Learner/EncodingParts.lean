import SafetyGames.Learner.EncodingMeaning

/-!
# The parts of the SAT problem

The prefix tree of a sample and the numbered counter-example automata, as both
directions of the encoding use them: which nodes the tree has and how they are
marked, that the traversal of the tree meets all of them, and which
transitions the numbered automata have.
-/

namespace SafetyGames.Learner

open SafetyGames.Transducer SafetyGames.LabelledPath SafetyGames.Worklist
open PrefixTree

variable {alphabet : List JChar} {s : Sample} {w : PrefixTree}

/-! ## The filled tree -/

/-- The tree holds the words of the sample with their marks. -/
structure Filled (alphabet : List JChar) (s : Sample) (w : PrefixTree) :
    Prop where
  isTree : IsTree alphabet w
  words : ∀ word ∈ s.words, ∃ id, Leads (charMap alphabet) w word id
  marks : ∀ word id, Leads (charMap alphabet) w word id →
    w.accept id = markOf s word

theorem isTree_init (alphabet : List JChar) :
    IsTree alphabet (PrefixTree.init alphabet.length) := by
  have noChild : ∀ id index,
      (PrefixTree.init alphabet.length).child id index = none := by
    intro id index
    rcases Nat.eq_zero_or_pos id with rfl | positive
    · simp only [PrefixTree.init, child, Node.init_unmarked,
        List.getElem?_cons_zero, Option.bind_some, List.getElem?_replicate]
      split_ifs <;> rfl
    · exact child_of_length_le positive
  refine ⟨Nat.one_pos, ?_, ?_, ?_, ?_⟩
  · intro node member
    rw [List.mem_singleton.mp member, Node.init_unmarked]
    exact List.length_replicate
  · intro id index next isChild
    rw [noChild] at isChild
    exact absurd isChild (Option.some_ne_none _).symm
  · intro id index next isChild
    rw [noChild] at isChild
    exact absurd isChild (Option.some_ne_none _).symm
  · intro left right i j next isLeft
    rw [noChild] at isLeft
    exact absurd isLeft (Option.some_ne_none _).symm

theorem accept_init (size id : Nat) : (PrefixTree.init size).accept id = 0 := by
  rcases Nat.eq_zero_or_pos id with rfl | positive
  · rfl
  · exact accept_of_length_le positive

/-- Adding words without a mark keeps all marks. -/
theorem accept_of_unmarked {tree after : PrefixTree} {words : List Word}
    (marks : ∀ id,
      ((∃ s ∈ words, Leads (charMap alphabet) after s id) →
        after.accept id = marked (tree.accept id) 0) ∧
      ((∀ s ∈ words, ¬ Leads (charMap alphabet) after s id) →
        after.accept id = tree.accept id)) (id : Nat) :
    after.accept id = tree.accept id := by
  have zero : marked (tree.accept id) 0 = tree.accept id := by
    rw [marked]
    split_ifs <;> omega
  by_cases some : ∃ s ∈ words, Leads (charMap alphabet) after s id
  · rw [(marks id).1 some, zero]
  · exact (marks id).2 (by simpa using some)

/-- A node that some of the words led to in an earlier tree is the node of one of them. -/
theorem exists_leads_iff {tree : PrefixTree} {words : List Word} {word : Word}
    {id : Nat} (isTree : IsTree alphabet w)
    (extended : tree.Extends w)
    (known : ∀ s ∈ words, ∃ id, Leads (charMap alphabet) tree s id)
    (leads : Leads (charMap alphabet) w word id) :
    (∃ other ∈ words, Leads (charMap alphabet) tree other id) ↔
      word ∈ words := by
  constructor
  · rintro ⟨other, member, earlier⟩
    exact (earlier.extend extended).injective isTree leads ▸ member
  · intro member
    rcases known word member with ⟨other, earlier⟩
    have same : other = id := (earlier.extend extended).unique leads
    exact ⟨word, member, same ▸ earlier⟩

/-- The tree that `constructSAT` fills holds the words with their marks. -/
theorem fillTree_spec (returns : fillTree alphabet s = some w) :
    Filled alphabet s w := by
  simp only [fillTree, Option.bind_eq_bind, Option.bind_eq_some_iff] at returns
  rcases returns with
    ⟨first, posReturns, second, negReturns, third, uniReturns, exReturns⟩
  rcases addWords_spec (isTree_init _) posReturns with
    ⟨firstTree, _, posLeads, posMarks⟩
  rcases addWords_spec firstTree negReturns with
    ⟨secondTree, secondExtends, negLeads, negMarks⟩
  rcases addWords_spec secondTree uniReturns with
    ⟨thirdTree, thirdExtends, uniLeads, uniMarks⟩
  rcases addWords_spec thirdTree exReturns with ⟨isTree, wExtends, exLeads, exMarks⟩
  have undecided : ∀ id, w.accept id = second.accept id := by
    intro id
    rw [accept_of_unmarked exMarks, accept_of_unmarked uniMarks]
  refine ⟨isTree, ?_, ?_⟩
  · simp only [Sample.words, List.forall_mem_append]
    refine ⟨⟨⟨fun word member => ?_, fun word member => ?_⟩,
      fun word member => ?_⟩, exLeads⟩
    · rcases posLeads word member with ⟨id, leads⟩
      exact ⟨id, wExtends.path (thirdExtends.path (secondExtends.path leads))⟩
    · rcases negLeads word member with ⟨id, leads⟩
      exact ⟨id, wExtends.path (thirdExtends.path leads)⟩
    · rcases uniLeads word member with ⟨id, leads⟩
      exact ⟨id, wExtends.path leads⟩
  · intro word id leads
    have inPos : (∃ other ∈ s.pos, Leads (charMap alphabet) first other id) ↔
        word ∈ s.pos :=
      exists_leads_iff isTree
        ((secondExtends.trans thirdExtends).trans wExtends) posLeads leads
    have inNeg : (∃ other ∈ s.neg, Leads (charMap alphabet) second other id) ↔
        word ∈ s.neg :=
      exists_leads_iff isTree (thirdExtends.trans wExtends) negLeads leads
    have afterPos : first.accept id = if word ∈ s.pos then 1 else 0 := by
      split_ifs with member
      · rw [(posMarks id).1 (inPos.mpr member), accept_init]
        rfl
      · rw [(posMarks id).2 (by simpa using inPos.not.mpr member), accept_init]
    rw [undecided, markOf]
    by_cases member : word ∈ s.neg
    · rw [(negMarks id).1 (inNeg.mpr member), afterPos]
      split_ifs <;> rfl
    · rw [(negMarks id).2 (by simpa using inNeg.not.mpr member), afterPos]
      split_ifs <;> rfl

/-- The tree is filled when the words are over the alphabet. -/
theorem fillTree_returns (letters : ∀ word ∈ s.words, ∀ c ∈ word, c ∈ alphabet) :
    ∃ w, fillTree alphabet s = some w := by
  simp only [Sample.words, List.forall_mem_append] at letters
  rcases letters with ⟨⟨⟨posLetters, negLetters⟩, uniLetters⟩, exLetters⟩
  rcases addWords_returns (PrefixTree.init alphabet.length) posLetters 1 with
    ⟨first, posReturns⟩
  rcases addWords_returns first negLetters (-1) with ⟨second, negReturns⟩
  rcases addWords_returns second uniLetters 0 with ⟨third, uniReturns⟩
  rcases addWords_returns third exLetters 0 with ⟨w, exReturns⟩
  refine ⟨w, ?_⟩
  simp only [fillTree, Option.bind_eq_bind, Option.bind_eq_some_iff]
  exact ⟨first, posReturns, second, negReturns, third, uniReturns, exReturns⟩

theorem Filled.leads_of_uni (filled : Filled alphabet s w)
    {cu : CounterExample} (member : cu ∈ s.uni) :
    ∃ id, Leads (charMap alphabet) w cu.u id := by
  apply filled.words
  simp only [Sample.words, List.mem_append, List.mem_map]
  exact Or.inl (Or.inr ⟨cu, member, rfl⟩)

theorem Filled.leads_of_ex (filled : Filled alphabet s w)
    {ce : CounterExample} (member : ce ∈ s.ex) :
    ∃ id, Leads (charMap alphabet) w ce.u id := by
  apply filled.words
  simp only [Sample.words, List.mem_append, List.mem_map]
  exact Or.inr ⟨ce, member, rfl⟩

/-! ## The traversal of the tree -/

theorem mem_children {id next : Nat} :
    next ∈ children w alphabet.length id ↔
      ∃ index < alphabet.length, w.child id index = some next := by
  simp [children]

/-- A node that a word leads to is met by the traversal. -/
theorem PrefixTree.Leads.mem_prefixes {word : Word} {id : Nat}
    (leads : Leads (charMap alphabet) w word id) {fuel : Nat}
    {prefixes : List Nat}
    (traversed : traverse (children w alphabet.length) fuel [0] =
      some prefixes) :
    id ∈ prefixes := by
  have walk : ∀ {source target : Nat} {word : Word},
      Path (PrefixTree.Step (charMap alphabet) w) source word target →
        Relation.ReflTransGen (Worklist.Edge (children w alphabet.length))
          source target := by
    intro source target word path
    induction path with
    | nil => exact Relation.ReflTransGen.refl
    | cons head _ induction =>
        rcases head with ⟨index, mapped, isChild⟩
        exact induction.head
          (mem_children.mpr ⟨index, charMap_lt mapped, isChild⟩)
  exact mem_traverse_of_reached traversed (List.mem_singleton_self 0)
    (walk leads)

/-- A node that the traversal meets is one that a word leads to. -/
theorem Filled.exists_leads (filled : Filled alphabet s w) {id fuel : Nat}
    {prefixes : List Nat}
    (traversed : traverse (children w alphabet.length) fuel [0] =
      some prefixes)
    (member : id ∈ prefixes) :
    ∃ word, Leads (charMap alphabet) w word id := by
  rcases reached_of_mem_traverse traversed member with ⟨source, isRoot, reached⟩
  rw [List.mem_singleton.mp isRoot] at reached
  clear member
  induction reached with
  | refl => exact ⟨[], Path.nil 0⟩
  | tail _ edge induction =>
      rcases induction with ⟨word, leads⟩
      rcases mem_children.mp edge with ⟨index, _, isChild⟩
      rcases filled.isTree.letter isChild with ⟨c, mapped⟩
      exact ⟨word ++ [c], leads.snoc ⟨index, mapped, isChild⟩⟩

/-- The traversal of the tree ends. -/
theorem PrefixTree.IsTree.traverse_returns (isTree : IsTree alphabet w) :
    ∃ prefixes, traverse (children w alphabet.length) w.length [0] =
      some prefixes := by
  have inside : ∀ vertex next, next ∈ children w alphabet.length vertex →
      next ∈ Finset.range w.length := by
    intro vertex next edge
    rcases mem_children.mp edge with ⟨index, _, isChild⟩
    exact Finset.mem_range.mpr (isTree.child_gt isChild).2
  have nodup : ∀ vertex, (children w alphabet.length vertex).Nodup := by
    intro vertex
    refine List.Nodup.filterMap ?_ List.nodup_range
    intro i j next left right
    exact (isTree.parent left right).2
  have noParent : ∀ vertex, 0 ∉ children w alphabet.length vertex := by
    intro vertex edge
    rcases mem_children.mp edge with ⟨index, _, isChild⟩
    exact absurd (isTree.child_gt isChild).1 (Nat.not_lt_zero _)
  have parent : ∀ left right next,
      next ∈ children w alphabet.length left →
        next ∈ children w alphabet.length right → left = right := by
    intro left right next isLeft isRight
    rcases mem_children.mp isLeft with ⟨i, _, leftChild⟩
    rcases mem_children.mp isRight with ⟨j, _, rightChild⟩
    exact (isTree.parent leftChild rightChild).1
  have start : Worklist.Frontier (children w alphabet.length)
      (Finset.range w.length) 0 [] [0] :=
    { distinct := List.nodup_singleton 0
      known := by
        intro vertex member
        rw [List.mem_singleton.mp member]
        exact Finset.mem_range.mpr isTree.root
      reached := fun vertex member => Or.inl (List.mem_singleton.mp member) }
  exact Worklist.Frontier.traverse_returns inside nodup noParent parent start
    (by simp)

/-! ## Numbered automata -/

/-- The states that the initial one reaches have single-character transitions
over the alphabet. -/
def OverAlphabet (alphabet : List JChar) (a : Automaton) : Prop :=
  ∀ ref, a.Reachable ref → ∀ transition ∈ (a.state ref).transitions,
    transition.Single ∧ transition.min ∈ alphabet

theorem overAlphabet_of_states {a : Automaton}
    (within : ∀ state ∈ a.states, ∀ transition ∈ state.transitions,
      transition.Single ∧ transition.min ∈ alphabet) :
    OverAlphabet alphabet a :=
  fun _ reachable => within _ (Heap.state_mem reachable.lt)

section Numbered

variable {order : StateOrder} {a : Automaton}

/-- The fields of a numbered automaton. -/
structure IsNumbered (order : StateOrder) (alphabet : List JChar)
    (a : Automaton) (numbers : Numbered) : Prop where
  na : numbers.na = a.getNumberOfStates
  initial : numbers.initial = order.number a a.initial
  states : ∀ m, m ∈ numbers.states ↔
    ∃ ref, a.Reachable ref ∧ order.number a ref = m
  edges : ∀ edge, edge ∈ numbers.edges ↔
    ∃ ref, a.Reachable ref ∧ ∃ transition ∈ (a.state ref).transitions,
      ∃ letter, charMap alphabet transition.min = some letter ∧
        edge = ⟨order.number a ref, letter, order.number a transition.dest⟩
  acceptStates : ∀ m, m ∈ numbers.acceptStates ↔
    ∃ ref, a.Reachable ref ∧ (a.state ref).accept = true ∧
      order.number a ref = m

theorem numbered_spec {numbers : Numbered}
    (returns : numbered order (charMap alphabet) a = some numbers) :
    IsNumbered order alphabet a numbers := by
  rw [numbered] at returns
  split_ifs at returns with known
  rcases Option.some.inj returns with rfl
  refine ⟨rfl, rfl, ?_, ?_, ?_⟩
  · intro m
    simp [order.mem_states]
  · intro edge
    simp only [List.mem_flatMap, order.mem_states, numberedEdges,
      List.mem_filterMap, Option.map_eq_some_iff]
    constructor
    · rintro ⟨ref, reachable, transition, member, letter, mapped, rfl⟩
      exact ⟨ref, reachable, transition, member, letter, mapped, rfl⟩
    · rintro ⟨ref, reachable, transition, member, letter, mapped, rfl⟩
      exact ⟨ref, reachable, transition, member, letter, mapped, rfl⟩
  · intro m
    simp [and_assoc]

theorem numbered_returns (within : OverAlphabet alphabet a) :
    ∃ numbers, numbered order (charMap alphabet) a = some numbers := by
  refine ⟨_, if_pos ?_⟩
  intro ref member transition inState
  exact charMap_isSome_iff.mpr
    (within ref (order.mem_states.mp member) transition inState).2

/-- A step of a counter-example automaton is one of its numbered transitions. -/
theorem IsNumbered.edge_of_step {numbers : Numbered}
    (isNumbered : IsNumbered order alphabet a numbers)
    (within : OverAlphabet alphabet a) {source target : Nat} {c : JChar}
    (reachable : a.Reachable source)
    (step : a.states.Step source c target) :
    ∃ letter, charMap alphabet c = some letter ∧
      ⟨order.number a source, letter, order.number a target⟩ ∈
        numbers.edges := by
  rcases step with ⟨transition, member, reads, rfl⟩
  rcases within source reachable transition member with ⟨single, inAlphabet⟩
  rcases Option.isSome_iff_exists.mp (charMap_isSome_iff.mpr inAlphabet) with
    ⟨letter, mapped⟩
  rw [(single.reads_iff c).mp reads]
  exact ⟨letter, mapped, (isNumbered.edges _).mpr
    ⟨source, reachable, transition, member, letter, mapped, rfl⟩⟩

/-- A numbered transition is a step of the automaton. -/
theorem IsNumbered.step_of_edge {numbers : Numbered}
    (isNumbered : IsNumbered order alphabet a numbers) {edge : Edge}
    (member : edge ∈ numbers.edges) :
    ∃ source target c, a.Reachable source ∧ a.states.Step source c target ∧
      charMap alphabet c = some edge.letter ∧
        order.number a source = edge.source ∧
          order.number a target = edge.dest := by
  rcases (isNumbered.edges edge).mp member with
    ⟨source, reachable, transition, inState, letter, mapped, rfl⟩
  exact ⟨source, transition.dest, transition.min, reachable,
    ⟨transition, inState, transition.reads_min, rfl⟩, mapped, rfl, rfl⟩

end Numbered

/-! ## The problem of a filled tree -/

section Problem

variable {order : StateOrder} {n : Nat} {v : Var → Bool}

theorem satisfied_uniProblem {cu : CounterExample × Nat} {id : Nat}
    (leads : Leads (charMap alphabet) w cu.1.u id) :
    Satisfied v (uniProblem order alphabet w n cu) ↔
      ∃ numbers, numbered order (charMap alphabet) cu.1.a = some numbers ∧
        UniSatisfied v n cu.2 numbers id := by
  have found := getNode_of_leads leads
  simp only [Satisfied, uniProblem, found, Option.bind_eq_bind,
    Option.bind_some, Option.bind_eq_some_iff, Option.some.injEq]
  constructor
  · rintro ⟨_, ⟨numbers, returns, rfl⟩, satisfied⟩
    exact ⟨numbers, returns, satisfies_uniConstraints.mp satisfied⟩
  · rintro ⟨numbers, returns, satisfied⟩
    exact ⟨_, ⟨numbers, returns, rfl⟩, satisfies_uniConstraints.mpr satisfied⟩

theorem satisfied_exProblem {ce : CounterExample × Nat} {id : Nat}
    (leads : Leads (charMap alphabet) w ce.1.u id) :
    Satisfied v (exProblem order alphabet w n ce) ↔
      ∃ numbers, numbered order (charMap alphabet) ce.1.a = some numbers ∧
        0 < lMax n numbers.na ∧ ExSatisfied v n ce.2 numbers id := by
  have found := getNode_of_leads leads
  simp only [exProblem, found, Option.bind_eq_bind, Option.bind_some]
  constructor
  · rintro ⟨constraints, returns, satisfied⟩
    rcases Option.bind_eq_some_iff.mp returns with ⟨numbers, isNumbered, returned⟩
    exact ⟨numbers, isNumbered,
      satisfied_exConstraints.mp ⟨constraints, returned, satisfied⟩⟩
  · rintro ⟨numbers, isNumbered, holds⟩
    rcases satisfied_exConstraints.mpr holds with ⟨constraints, returned, satisfied⟩
    exact ⟨constraints,
      Option.bind_eq_some_iff.mpr ⟨numbers, isNumbered, returned⟩, satisfied⟩

end Problem

end SafetyGames.Learner
