import SafetyGames.Learner.EncodingParts

/-!
# The words stored in a prefix tree

A node stores the word that leads to it, except for the root, which stores a
dash.  `getWord` searches the tree for an id with a queue; the search meets
every node, so that it ends with the stored word.
-/

namespace SafetyGames.Learner

open SafetyGames.Transducer SafetyGames.LabelledPath SafetyGames.Worklist

namespace PrefixTree

/-- The word that the node of a prefix stores. -/
def shown : Word → Word
  | [] => [dash]
  | c :: rest => c :: rest

theorem shown_snoc (word : Word) (c : JChar) :
    shown (word ++ [c]) = word ++ [c] := by
  cases word with
  | nil => rfl
  | cons => rfl

/-- Every node stores the word that leads to it. -/
def Stores (alphabet : List JChar) (tree : PrefixTree) : Prop :=
  ∀ id < tree.length, ∃ word,
    Leads (charMap alphabet) tree word id ∧ getWord tree id = shown word

variable {alphabet : List JChar} {tree after : PrefixTree}

theorem stores_init (alphabet : List JChar) :
    Stores alphabet (PrefixTree.init alphabet.length) := by
  intro id inside
  obtain rfl : id = 0 := Nat.lt_one_iff.mp inside
  exact ⟨[], Path.nil 0, rfl⟩

/-- A node that the tree stores is that of its word. -/
theorem Stores.getWord_of_leads (stores : Stores alphabet tree)
    (isTree : IsTree alphabet tree) {word : Word} {id : Nat}
    (leads : Leads (charMap alphabet) tree word id) :
    getWord tree id = shown word := by
  rcases stores id (leads.lt isTree) with ⟨other, otherLeads, stored⟩
  rw [stored, otherLeads.injective isTree leads]

/-! ## Inserting words -/

theorem getWord_link {alphabetSize current index : Nat} (word : Word)
    {id : Nat} (inside : id < tree.length) :
    getWord (link alphabetSize tree current index word) id =
      getWord tree id := by
  by_cases same : current = id
  · subst same
    simp [getWord, link, List.getElem?_append_left inside, Node.setChild,
      List.getElem?_eq_getElem inside]
  · simp [getWord, link, same, List.getElem?_append_left inside]

theorem getWord_link_new {alphabetSize current index : Nat} (word : Word)
    (inside : current < tree.length) :
    getWord (link alphabetSize tree current index word) tree.length = word := by
  simp [getWord, link, Nat.ne_of_lt inside, Node.init_unmarked]

theorem getWord_setAccept (current id : Nat) (mark : Int) :
    getWord (tree.modify current fun node => node.setAccept mark) id =
      getWord tree id := by
  have kept : ∀ node : Node, (node.setAccept mark).word = node.word := by
    intro node
    rw [Node.setAccept]
    split_ifs <;> rfl
  by_cases same : current = id
  · subst same
    cases position : tree[current]? with
    | none => simp [getWord, position]
    | some node => simp [getWord, position, kept]
  · simp [getWord, same]

/-- A new node stores its word. -/
theorem Stores.of_link (stores : Stores alphabet tree)
    (isTree : IsTree alphabet tree) {current index : Nat} {read : Word}
    {c : JChar} (leads : Leads (charMap alphabet) tree read current)
    (mapped : charMap alphabet c = some index)
    (noChild : child tree current index = none) :
    Stores alphabet
      (link alphabet.length tree current index (read ++ [c])) := by
  have inside := leads.lt isTree
  have extended := extends_link isTree inside mapped noChild (read ++ [c])
  intro id bound
  rw [length_link] at bound
  rcases Nat.lt_succ_iff_lt_or_eq.mp bound with old | rfl
  · rcases stores id old with ⟨word, wordLeads, stored⟩
    refine ⟨word, extended.path wordLeads, ?_⟩
    rw [getWord_link _ old]
    exact stored
  · refine ⟨read ++ [c], ?_, ?_⟩
    · exact (extended.path leads).snoc (step_link isTree inside mapped _)
    · rw [getWord_link_new _ inside, shown_snoc]

theorem Stores.of_descend (stores : Stores alphabet tree)
    (isTree : IsTree alphabet tree) {current : Nat} {read rest : Word}
    (leads : Leads (charMap alphabet) tree read current) {id : Nat}
    (returns : descend alphabet.length (charMap alphabet) tree current read
      rest = some (after, id)) :
    Stores alphabet after := by
  induction rest generalizing tree current read with
  | nil =>
      rcases Prod.mk.inj (Option.some.inj returns) with ⟨rfl, rfl⟩
      exact stores
  | cons c rest induction =>
      rw [descend, Option.bind_eq_bind, Option.bind_eq_some_iff]
        at returns
      rcases returns with ⟨index, mapped, returns⟩
      cases isChild : child tree current index with
      | some next =>
          rw [isChild] at returns
          exact induction stores isTree
            (leads.snoc ⟨index, mapped, isChild⟩) returns
      | none =>
          rw [isChild] at returns
          have inside := leads.lt isTree
          have extended :=
            extends_link isTree inside mapped isChild (read ++ [c])
          apply induction (stores.of_link isTree leads mapped isChild)
            (isTree.link inside mapped _) _ returns
          exact (extended.path leads).snoc (step_link isTree inside mapped _)

/-- A word that leads to a node after the loop of `addWord` led to one before,
or is a prefix of the word that was inserted. -/
theorem Stores.leads_of_descend (stores : Stores alphabet tree)
    (isTree : IsTree alphabet tree) {current : Nat} {read rest : Word}
    (leads : Leads (charMap alphabet) tree read current) {id : Nat}
    (returns : descend alphabet.length (charMap alphabet) tree current read
      rest = some (after, id))
    {word : Word} {place : Nat}
    (wordLeads : Leads (charMap alphabet) after word place) :
    (∃ earlier, Leads (charMap alphabet) tree word earlier) ∨
      word <+: read ++ rest := by
  induction rest generalizing tree current read with
  | nil =>
      rcases Prod.mk.inj (Option.some.inj returns) with ⟨rfl, rfl⟩
      exact Or.inl ⟨place, wordLeads⟩
  | cons c rest induction =>
      rw [descend, Option.bind_eq_bind, Option.bind_eq_some_iff]
        at returns
      rcases returns with ⟨index, mapped, returns⟩
      have regroup : read ++ [c] ++ rest = read ++ c :: rest :=
        List.append_assoc read [c] rest
      cases isChild : child tree current index with
      | some next =>
          rw [isChild] at returns
          rw [← regroup]
          exact induction stores isTree
            (leads.snoc ⟨index, mapped, isChild⟩) returns
      | none =>
          rw [isChild] at returns
          have inside := leads.lt isTree
          have extended :=
            extends_link isTree inside mapped isChild (read ++ [c])
          have linkedTree := isTree.link inside mapped (read ++ [c])
          have newLeads := (extended.path leads).snoc
            (step_link isTree inside mapped (read ++ [c]))
          have linked := induction (stores.of_link isTree leads mapped isChild)
            linkedTree newLeads returns
          rw [regroup] at linked
          rcases linked with ⟨earlier, earlierLeads⟩ | isPrefix
          · have bound := earlierLeads.lt linkedTree
            rw [length_link] at bound
            rcases Nat.lt_succ_iff_lt_or_eq.mp bound with old | rfl
            · rcases stores earlier old with ⟨other, otherLeads, _⟩
              have same := earlierLeads.injective linkedTree
                (extended.path otherLeads)
              exact Or.inl ⟨earlier, same ▸ otherLeads⟩
            · have same := earlierLeads.injective linkedTree newLeads
              rw [same, ← regroup]
              exact Or.inr (List.prefix_append _ rest)
          · exact Or.inr isPrefix

/-- The loop of `setAccept` keeps the links in both directions. -/
theorem leads_setAccept {current : Nat} {mark : Int} {word : Word} {id : Nat}
    (leads : Leads (charMap alphabet)
      (tree.modify current fun node => node.setAccept mark) word id) :
    Leads (charMap alphabet) tree word id := by
  have links : Extends
      (tree.modify current fun node => node.setAccept mark) tree :=
    fun other index next known =>
      (child_setAccept current other index mark).symm.trans known
  exact links.path leads

theorem Stores.of_addWord (stores : Stores alphabet tree)
    (isTree : IsTree alphabet tree) {s : Word} {mark : Int} {id : Nat}
    (returns : addWord tree alphabet.length (charMap alphabet) s mark =
      some (after, id)) :
    Stores alphabet after := by
  rw [addWord, Option.bind_eq_bind, Option.bind_eq_some_iff]
    at returns
  rcases returns with ⟨⟨nodes, current⟩, descended, returned⟩
  rcases Prod.mk.inj (Option.some.inj returned) with ⟨rfl, rfl⟩
  have links : Extends nodes
      (nodes.modify current fun node => node.setAccept mark) :=
    fun other index next known =>
      (child_setAccept current other index mark).trans known
  intro other inside
  rw [List.length_modify] at inside
  rcases stores.of_descend isTree (Path.nil 0) descended other inside with
    ⟨word, leads, stored⟩
  refine ⟨word, links.path leads, ?_⟩
  rw [getWord_setAccept]
  exact stored

/-- A word that leads to a node after a call of `addWord` led to one before, or
is a prefix of the word that was added. -/
theorem Stores.leads_of_addWord (stores : Stores alphabet tree)
    (isTree : IsTree alphabet tree) {s : Word} {mark : Int} {id : Nat}
    (returns : addWord tree alphabet.length (charMap alphabet) s mark =
      some (after, id))
    {word : Word} {place : Nat}
    (leads : Leads (charMap alphabet) after word place) :
    (∃ earlier, Leads (charMap alphabet) tree word earlier) ∨ word <+: s := by
  rw [addWord, Option.bind_eq_bind, Option.bind_eq_some_iff] at returns
  rcases returns with ⟨⟨nodes, current⟩, descended, returned⟩
  rcases Prod.mk.inj (Option.some.inj returned) with ⟨rfl, rfl⟩
  exact stores.leads_of_descend isTree (Path.nil 0) descended
    (leads_setAccept leads)

theorem Stores.of_addWords (stores : Stores alphabet tree)
    (isTree : IsTree alphabet tree) {words : List Word} {mark : Int}
    (returns : addWords tree alphabet.length (charMap alphabet) words mark =
      some after) :
    Stores alphabet after := by
  induction words generalizing tree with
  | nil =>
      have same : tree = after := by simpa [addWords] using returns
      exact same ▸ stores
  | cons word words induction =>
      rcases PartialFold.foldlM_cons_eq_some.mp returns with ⟨middle, head, tail⟩
      rw [Option.map_eq_some_iff] at head
      rcases head with ⟨⟨first, node⟩, head, rfl⟩
      exact induction (stores.of_addWord isTree head)
        (addWord_spec isTree head).1 tail

theorem Stores.leads_of_addWords (stores : Stores alphabet tree)
    (isTree : IsTree alphabet tree) {words : List Word} {mark : Int}
    (returns : addWords tree alphabet.length (charMap alphabet) words mark =
      some after)
    {word : Word} {id : Nat}
    (leads : Leads (charMap alphabet) after word id) :
    (∃ earlier, Leads (charMap alphabet) tree word earlier) ∨
      ∃ s ∈ words, word <+: s := by
  induction words generalizing tree with
  | nil =>
      have same : tree = after := by simpa [addWords] using returns
      exact Or.inl ⟨id, same ▸ leads⟩
  | cons added words induction =>
      rcases PartialFold.foldlM_cons_eq_some.mp returns with ⟨middle, head, tail⟩
      rw [Option.map_eq_some_iff] at head
      rcases head with ⟨⟨first, node⟩, head, rfl⟩
      rcases induction (stores.of_addWord isTree head)
        (addWord_spec isTree head).1 tail with ⟨earlier, before⟩ | later
      · apply (stores.leads_of_addWord isTree head before).imp_right
        exact fun isPrefix => ⟨added, List.mem_cons_self, isPrefix⟩
      · rcases later with ⟨s, member, isPrefix⟩
        exact Or.inr ⟨s, List.mem_cons_of_mem added member, isPrefix⟩

theorem leads_init {word : Word} {id : Nat}
    (leads : Leads (charMap alphabet) (PrefixTree.init alphabet.length) word
      id) : word = [] := by
  have isRoot : id = 0 := Nat.lt_one_iff.mp (leads.lt (isTree_init alphabet))
  subst isRoot
  exact leads.injective (isTree_init alphabet) (Path.nil 0)

end PrefixTree

open PrefixTree

variable {alphabet : List JChar} {s : Sample} {w : PrefixTree}

/-- What holds of the root alone, and is kept by adding words of the sample,
holds of the tree that `constructSAT` fills. -/
theorem fillTree_invariant (invariant : PrefixTree → Prop)
    (initially : invariant (PrefixTree.init alphabet.length))
    (keep : ∀ tree after words mark, (∀ word ∈ words, word ∈ s.words) →
      invariant tree →
      addWords tree alphabet.length (charMap alphabet) words mark =
        some after → invariant after)
    (returns : fillTree alphabet s = some w) : invariant w := by
  simp only [fillTree, Option.bind_eq_bind, Option.bind_eq_some_iff] at returns
  rcases returns with
    ⟨first, posReturns, second, negReturns, third, uniReturns, exReturns⟩
  have inWords : (∀ word ∈ s.pos, word ∈ s.words) ∧
      (∀ word ∈ s.neg, word ∈ s.words) ∧
        (∀ word ∈ s.uni.map CounterExample.u, word ∈ s.words) ∧
          ∀ word ∈ s.ex.map CounterExample.u, word ∈ s.words := by
    simp only [Sample.words, List.mem_append]
    exact ⟨fun _ member => Or.inl (Or.inl (Or.inl member)),
      fun _ member => Or.inl (Or.inl (Or.inr member)),
      fun _ member => Or.inl (Or.inr member), fun _ member => Or.inr member⟩
  rcases inWords with ⟨pos, neg, uni, ex⟩
  have afterPos := keep _ _ _ _ pos initially posReturns
  have afterNeg := keep _ _ _ _ neg afterPos negReturns
  have afterUni := keep _ _ _ _ uni afterNeg uniReturns
  exact keep _ _ _ _ ex afterUni exReturns

/-- The tree that `constructSAT` fills stores its words. -/
theorem fillTree_stores (returns : fillTree alphabet s = some w) :
    Stores alphabet w := by
  have both : IsTree alphabet w ∧ Stores alphabet w := by
    apply fillTree_invariant
      (fun tree => IsTree alphabet tree ∧ Stores alphabet tree) _ _ returns
    · exact ⟨isTree_init alphabet, stores_init alphabet⟩
    · rintro tree after words mark _ ⟨isTree, stores⟩ adds
      exact ⟨(addWords_spec isTree adds).1, stores.of_addWords isTree adds⟩
  exact both.2

/-- A word that leads to a node is empty or a prefix of a word of the sample. -/
theorem prefix_of_leads (returns : fillTree alphabet s = some w)
    {word : Word} {id : Nat} (leads : Leads (charMap alphabet) w word id) :
    word = [] ∨ ∃ other ∈ s.words, word <+: other := by
  have all : IsTree alphabet w ∧ Stores alphabet w ∧
      ∀ word id, Leads (charMap alphabet) w word id →
        word = [] ∨ ∃ other ∈ s.words, word <+: other := by
    apply fillTree_invariant (fun tree => IsTree alphabet tree ∧
      Stores alphabet tree ∧ ∀ word id, Leads (charMap alphabet) tree word id →
        word = [] ∨ ∃ other ∈ s.words, word <+: other) _ _ returns
    · exact ⟨isTree_init alphabet, stores_init alphabet,
        fun word id leads => Or.inl (leads_init leads)⟩
    · rintro tree after words mark inSample ⟨isTree, stores, prefixes⟩ adds
      refine ⟨(addWords_spec isTree adds).1, stores.of_addWords isTree adds,
        fun word id leads => ?_⟩
      rcases stores.leads_of_addWords isTree adds leads with
        ⟨earlier, before⟩ | ⟨other, member, isPrefix⟩
      · exact prefixes word earlier before
      · exact Or.inr ⟨other, inSample other member, isPrefix⟩
  exact all.2.2 word id leads

/-! ## The search for an id -/

/-- The loop of `getWord(id)` from node `current`, with the queue `nodes`.  An
empty queue leaves the loop where it is. -/
def findWord (w : PrefixTree) (alphabetSize id : Nat) :
    Nat → Nat → List Nat → Option Word
  | 0, _, _ => none
  | fuel + 1, current, nodes =>
      if current = id then
        some (w.getWord current)
      else
        match nodes ++ children w alphabetSize current with
        | next :: rest => findWord w alphabetSize id fuel next rest
        | [] => findWord w alphabetSize id fuel current []

/-- The search goes through the tree in the order of its traversal. -/
theorem findWord_of_traverse {alphabetSize id fuel current : Nat}
    {nodes prefixes : List Nat}
    (traversed : traverse (children w alphabetSize) fuel (current :: nodes) =
      some prefixes)
    (member : id ∈ prefixes) :
    findWord w alphabetSize id fuel current nodes = some (w.getWord id) := by
  induction fuel generalizing current nodes prefixes with
  | zero => exact absurd traversed (by simp [Worklist.traverse])
  | succ fuel induction =>
      rcases traverse_succ traversed with ⟨rest, returned, rfl⟩
      rw [findWord]
      split_ifs with found
      · rw [found]
      · have later : id ∈ rest := by
          rcases List.mem_cons.mp member with same | later
          · exact absurd same.symm found
          · exact later
        cases queue : nodes ++ children w alphabetSize current with
        | nil =>
            rw [queue] at returned
            have empty : rest = [] := by
              cases fuel <;> simpa [Worklist.traverse, eq_comm] using returned
            rw [empty] at later
            exact absurd later List.not_mem_nil
        | cons next others =>
            rw [queue] at returned
            exact induction returned later

/-- `getWord` ends on the id of every node, with the word that the node stores. -/
theorem PrefixTree.Stores.findWord_returns (stores : Stores alphabet w)
    (isTree : IsTree alphabet w) {id : Nat} (inside : id < w.length) :
    findWord w alphabet.length id w.length 0 [] = some (w.getWord id) := by
  rcases stores id inside with ⟨word, leads, _⟩
  rcases isTree.traverse_returns with ⟨prefixes, traversed⟩
  exact findWord_of_traverse traversed (leads.mem_prefixes traversed)

end SafetyGames.Learner
