import SafetyGames.Lib.PartialFold
import SafetyGames.Learner.Sample
import Mathlib.Tactic.SplitIfs

/-!
# The prefix tree

The prefix tree of the learner.  The nodes are kept in a list in the order of
their construction, so that the id of a node is its position.  A word is
inserted character by character; a character that the map does not know ends
the insertion with an exception, which is `none` here.
-/

namespace SafetyGames.Learner

open SafetyGames.Transducer SafetyGames.LabelledPath

/-! ## The numbering of the characters -/

/-- `map.put(c, i)`. -/
def put (map : JChar → Option Nat) (letter : JChar × Nat) :
    JChar → Option Nat :=
  Function.update map letter.1 (some letter.2)

/-- `map`: the constructor of `Learner` puts every position in turn. -/
def charMap (alphabet : List JChar) : JChar → Option Nat :=
  alphabet.zipIdx.foldl put fun _ => none

/-- A character is mapped to one of its positions. -/
theorem charMap_get {alphabet : List JChar} {c : JChar} {index : Nat}
    (mapped : charMap alphabet c = some index) :
    alphabet[index]? = some c := by
  have scan : ∀ (letters : List (JChar × Nat)) (map : JChar → Option Nat),
      (∀ c index, map c = some index → alphabet[index]? = some c) →
      (∀ letter ∈ letters, alphabet[letter.2]? = some letter.1) →
      ∀ c index, letters.foldl put map c = some index →
        alphabet[index]? = some c := by
    intro letters
    induction letters with
    | nil => exact fun _ known _ => known
    | cons letter letters induction =>
        intro map known inside
        refine induction _ ?_
          (fun other member => inside other (List.mem_cons_of_mem _ member))
        intro c index updated
        rw [put] at updated
        by_cases same : c = letter.1
        · rw [same, Function.update_self, Option.some.injEq] at updated
          rw [same, ← updated]
          exact inside letter List.mem_cons_self
        · rw [Function.update_of_ne same] at updated
          exact known c index updated
  refine scan alphabet.zipIdx _ (fun _ _ empty => ?_) ?_ c index mapped
  · exact absurd empty (Option.some_ne_none _).symm
  · intro letter member
    exact List.mem_zipIdx_iff_getElem?.mp member

theorem charMap_isSome_iff {alphabet : List JChar} {c : JChar} :
    (charMap alphabet c).isSome ↔ c ∈ alphabet := by
  have scan : ∀ (letters : List (JChar × Nat)) (map : JChar → Option Nat),
      (letters.foldl put map c).isSome ↔
        (map c).isSome ∨ c ∈ letters.map Prod.fst := by
    intro letters
    induction letters with
    | nil => simp
    | cons letter letters induction =>
        intro map
        rw [List.foldl_cons, induction, List.map_cons, List.mem_cons, put]
        by_cases same : c = letter.1
        · simp [same]
        · rw [Function.update_of_ne same]
          simp [same]
  rw [charMap, scan]
  simp [List.zipIdx_map_fst]

/-- Over distinct characters the number of a character is its position. -/
theorem charMap_eq_some_iff {alphabet : List JChar} (nodup : alphabet.Nodup)
    {c : JChar} {index : Nat} :
    charMap alphabet c = some index ↔ alphabet[index]? = some c := by
  refine ⟨charMap_get, fun position => ?_⟩
  have known : (charMap alphabet c).isSome :=
    charMap_isSome_iff.mpr (List.mem_of_getElem? position)
  rcases Option.isSome_iff_exists.mp known with ⟨other, mapped⟩
  have same : other = index := by
    rcases List.getElem?_eq_some_iff.mp (charMap_get mapped) with ⟨less, equal⟩
    rcases List.getElem?_eq_some_iff.mp position with ⟨less', equal'⟩
    exact (nodup.getElem_inj_iff).mp (equal.trans equal'.symm)
  exact same ▸ mapped

/-! ## Nodes -/

/-- A `Node`; its id is its position in the list of nodes. -/
structure Node where
  children : List (Option Nat)
  accept : Int
  word : Word

/-- `setAccept(accept)`: a mark that is set is kept. -/
def Node.setAccept (node : Node) (accept : Int) : Node :=
  if node.accept = 0 then
    if 0 < accept then { node with accept := 1 }
    else if accept < 0 then { node with accept := -1 }
    else node
  else
    node

/-- `new Node(alphabetSize, id, accept, word)`. -/
def Node.init (alphabetSize : Nat) (accept : Int) (word : Word) : Node :=
  Node.setAccept ⟨List.replicate alphabetSize none, 0, word⟩ accept

/-- `node.children[index] = child`. -/
def Node.setChild (node : Node) (index child : Nat) : Node :=
  { node with children := node.children.set index (some child) }

/-- The nodes of a prefix tree, the root first. -/
abbrev PrefixTree := List Node

namespace PrefixTree

/-- `new PrefixTree(alphabetSize, map)`. -/
def init (alphabetSize : Nat) : PrefixTree :=
  [Node.init alphabetSize 0 [dash]]

variable (tree : PrefixTree)

/-- `nodes[id].children[index]`. -/
def child (id index : Nat) : Option Nat :=
  tree[id]?.bind fun node => (node.children[index]?).join

/-- The mark of a node. -/
def accept (id : Nat) : Int :=
  (tree[id]?.map Node.accept).getD 0

/-- The prefix stored in a node. -/
def getWord (id : Nat) : Word :=
  (tree[id]?.map Node.word).getD []

section Adding

variable (alphabetSize : Nat) (map : JChar → Option Nat)

/-- The loop of `addWord`: from node `current`, reached by `read`, along the rest of the word. -/
def descend : PrefixTree → Nat → Word → Word → Option (PrefixTree × Nat)
  | tree, current, _, [] => some (tree, current)
  | tree, current, read, c :: rest => do
      let index ← map c
      match child tree current index with
      | some next => descend tree next (read ++ [c]) rest
      | none =>
          let next := tree.length
          let extended := tree ++ [Node.init alphabetSize 0 (read ++ [c])]
          descend
            (extended.modify current fun node => node.setChild index next)
            next (read ++ [c]) rest

/-- `addWord(s, accept)`: the tree afterwards and the id of the node of the word. -/
def addWord (s : Word) (accept : Int) : Option (PrefixTree × Nat) := do
  let (nodes, current) ← descend alphabetSize map tree 0 [] s
  some (nodes.modify current fun node => node.setAccept accept, current)

/-- `getNode(s)`. -/
def getNode (s : Word) : Option (PrefixTree × Nat) :=
  addWord tree alphabetSize map s 0

/-- `for(String s : words) addWord(s, accept)`. -/
def addWords (words : List Word) (accept : Int) : Option PrefixTree :=
  words.foldlM
    (fun tree s => (addWord tree alphabetSize map s accept).map Prod.fst) tree

end Adding

/-! ## Trees -/

/-- The list of nodes is a tree with the first node as its root, and every
edge belongs to a character. -/
structure IsTree (alphabet : List JChar) (tree : PrefixTree) : Prop where
  root : 0 < tree.length
  width : ∀ node ∈ tree, node.children.length = alphabet.length
  letter : ∀ {id index next}, child tree id index = some next →
    ∃ c, charMap alphabet c = some index
  child_gt : ∀ {id index next}, child tree id index = some next →
    id < next ∧ next < tree.length
  parent : ∀ {left right i j next}, child tree left i = some next →
    child tree right j = some next → left = right ∧ i = j

/-- One edge of the tree on a character. -/
def Step (map : JChar → Option Nat) (tree : PrefixTree) (id : Nat) (c : JChar)
    (next : Nat) : Prop :=
  ∃ index, map c = some index ∧ child tree id index = some next

/-- The word leads from the root to the node. -/
def Leads (map : JChar → Option Nat) (tree : PrefixTree) (word : Word)
    (id : Nat) : Prop :=
  Path (Step map tree) 0 word id

section Lookup

variable {tree : PrefixTree}

theorem child_of_length_le {id index : Nat} (outside : tree.length ≤ id) :
    child tree id index = none := by
  rw [child, List.getElem?_eq_none outside]
  rfl

theorem accept_of_length_le {id : Nat} (outside : tree.length ≤ id) :
    accept tree id = 0 := by
  rw [accept, List.getElem?_eq_none outside]
  rfl

theorem child_setAccept (id other index : Nat) (mark : Int) :
    child (tree.modify id fun node => node.setAccept mark) other index =
      child tree other index := by
  have kept : ∀ node : Node, (node.setAccept mark).children = node.children := by
    intro node
    rw [Node.setAccept]
    split_ifs <;> rfl
  by_cases same : id = other
  · subst same
    cases position : tree[id]? <;> simp [child, position, kept]
  · simp [child, same]

/-- The mark that a call of `setAccept` leaves. -/
def marked (old mark : Int) : Int :=
  if old = 0 then if 0 < mark then 1 else if mark < 0 then -1 else 0
  else old

theorem accept_setAccept {id : Nat} (inside : id < tree.length) (other : Nat)
    (mark : Int) :
    accept (tree.modify id fun node => node.setAccept mark) other =
      if other = id then marked (accept tree id) mark
      else accept tree other := by
  have set : ∀ node : Node,
      (node.setAccept mark).accept = marked node.accept mark := by
    intro node
    rw [Node.setAccept, marked]
    split_ifs with unset <;> first | rfl | exact unset
  by_cases same : other = id
  · subst same
    simp [accept, inside, set]
  · simp [accept, same, Ne.symm same]

end Lookup

/-! ## A new child -/

section Linking

variable {alphabetSize : Nat} {alphabet : List JChar} {tree : PrefixTree}
  {current index : Nat}

/-- The tree once a node without children was linked to `current`. -/
def link (alphabetSize : Nat) (tree : PrefixTree) (current index : Nat)
    (word : Word) : PrefixTree :=
  (tree ++ [Node.init alphabetSize 0 word]).modify current
    fun node => node.setChild index tree.length

@[simp]
theorem length_link (word : Word) :
    (link alphabetSize tree current index word).length = tree.length + 1 := by
  simp [link]

theorem Node.init_unmarked (word : Word) :
    Node.init alphabetSize 0 word =
      ⟨List.replicate alphabetSize none, 0, word⟩ := rfl

theorem charMap_lt {c : JChar} (mapped : charMap alphabet c = some index) :
    index < alphabet.length :=
  (List.getElem?_eq_some_iff.mp (charMap_get mapped)).1

theorem child_link (isTree : IsTree alphabet tree)
    (inside : current < tree.length) (small : index < alphabet.length)
    (word : Word) (id other : Nat) :
    child (link alphabet.length tree current index word) id other =
      if id = current ∧ other = index then some tree.length
      else child tree id other := by
  have width : tree[current].children.length = alphabet.length :=
    isTree.width _ (List.getElem_mem inside)
  rcases lt_trichotomy id tree.length with old | rfl | beyond
  · by_cases same : id = current
    · subst same
      have position : (tree ++ [Node.init alphabet.length 0 word])[id]? =
          some tree[id] := by
        rw [List.getElem?_append_left inside, List.getElem?_eq_getElem inside]
      by_cases here : other = index
      · subst here
        simp [child, link, position, Node.setChild, width, small]
      · simp [child, link, position, Node.setChild, here, Ne.symm here,
          List.getElem?_eq_getElem inside]
    · simp [child, link, same, Ne.symm same, List.getElem?_append_left old]
  · have different : current ≠ tree.length := Nat.ne_of_lt inside
    rw [if_neg (fun both => different both.1.symm),
      child_of_length_le le_rfl]
    simp only [child, link, List.getElem?_modify, different,
      List.getElem?_concat_length, Node.init_unmarked, if_false, id_map',
      Option.bind_some]
    rw [List.getElem?_replicate]
    split_ifs <;> rfl
  · have different : current ≠ id := by omega
    rw [if_neg (fun both => different both.1.symm),
      child_of_length_le beyond.le, child_of_length_le]
    rw [length_link]
    omega

theorem accept_link (word : Word) (id : Nat) :
    accept (link alphabetSize tree current index word) id = accept tree id := by
  rcases lt_trichotomy id tree.length with old | rfl | beyond
  · by_cases same : current = id
    · subst same
      simp [accept, link, List.getElem?_append_left old, Node.setChild,
        List.getElem?_eq_getElem old]
    · simp [accept, link, same, List.getElem?_append_left old]
  · rw [accept_of_length_le le_rfl]
    by_cases same : current = tree.length
    · simp [accept, link, same, Node.setChild, Node.init_unmarked]
    · simp [accept, link, same, Node.init_unmarked]
  · rw [accept_of_length_le beyond.le, accept_of_length_le]
    rw [length_link]
    omega

theorem IsTree.link (isTree : IsTree alphabet tree)
    (inside : current < tree.length) {c : JChar}
    (mapped : charMap alphabet c = some index) (word : Word) :
    IsTree alphabet (link alphabet.length tree current index word) := by
  have small := charMap_lt mapped
  have new : ∀ {id other}, child tree id other ≠ some tree.length :=
    fun isChild => absurd (isTree.child_gt isChild).2 (lt_irrefl _)
  refine ⟨by simp, ?_, ?_, ?_, ?_⟩
  · intro node member
    rcases List.mem_iff_getElem?.mp member with ⟨id, position⟩
    rw [PrefixTree.link, List.getElem?_modify, Option.map_eq_map,
      Option.map_eq_some_iff] at position
    rcases position with ⟨before, position, rfl⟩
    have width : before.children.length = alphabet.length := by
      rcases List.mem_append.mp (List.mem_of_getElem? position) with old | new
      · exact isTree.width before old
      · rw [List.mem_singleton.mp new]
        exact List.length_replicate
    split_ifs
    · simpa [Node.setChild] using width
    · exact width
  · intro id other next isChild
    rw [child_link isTree inside small] at isChild
    split_ifs at isChild with here
    · exact ⟨c, here.2 ▸ mapped⟩
    · exact isTree.letter isChild
  · intro id other next isChild
    rw [child_link isTree inside small] at isChild
    rw [length_link]
    split_ifs at isChild with here
    · rcases Option.some.inj isChild with rfl
      exact ⟨here.1 ▸ inside, Nat.lt_succ_self _⟩
    · have bounds := isTree.child_gt isChild
      exact ⟨bounds.1, bounds.2.trans (Nat.lt_succ_self _)⟩
  · intro left right i j next isLeft isRight
    rw [child_link isTree inside small] at isLeft isRight
    split_ifs at isLeft isRight with hereLeft hereRight hereRight
    · exact ⟨hereLeft.1.trans hereRight.1.symm,
        hereLeft.2.trans hereRight.2.symm⟩
    · exact absurd (isRight.trans isLeft.symm) new
    · exact absurd (isLeft.trans isRight.symm) new
    · exact isTree.parent isLeft isRight

end Linking

/-! ## Inserting words -/

/-- The links of one tree are links of the other. -/
def Extends (tree later : PrefixTree) : Prop :=
  ∀ id index next, child tree id index = some next →
    child later id index = some next

section Insertion

variable {alphabet : List JChar} {tree : PrefixTree}

theorem Extends.trans {middle later : PrefixTree} (first : Extends tree middle)
    (second : Extends middle later) : Extends tree later :=
  fun _ _ _ known => second _ _ _ (first _ _ _ known)

theorem Extends.path {later : PrefixTree} (extended : Extends tree later)
    {map : JChar → Option Nat} {source target : Nat} {word : Word}
    (path : Path (Step map tree) source word target) :
    Path (Step map later) source word target := by
  induction path with
  | nil => exact Path.nil _
  | cons head _ induction =>
      rcases head with ⟨index, mapped, isChild⟩
      exact Path.cons ⟨index, mapped, extended _ _ _ isChild⟩ induction

theorem Leads.extend {later : PrefixTree} {map : JChar → Option Nat}
    {word : Word} {id : Nat} (leads : Leads map tree word id)
    (extended : Extends tree later) : Leads map later word id :=
  extended.path leads

/-- A word leads to one node at most. -/
theorem Leads.unique {map : JChar → Option Nat} {word : Word} {left right : Nat}
    (first : Leads map tree word left) (second : Leads map tree word right) :
    left = right := by
  refine Path.unique ?_ first second
  rintro source c left right ⟨i, mapped, isLeft⟩ ⟨j, mapped', isRight⟩
  rcases Option.some.inj (mapped.symm.trans mapped') with rfl
  exact Option.some.inj (isLeft.symm.trans isRight)

theorem Leads.lt (isTree : IsTree alphabet tree) {word : Word} {id : Nat}
    (leads : Leads (charMap alphabet) tree word id) : id < tree.length := by
  have inside : ∀ source c target, source < tree.length →
      Step (charMap alphabet) tree source c target → target < tree.length :=
    fun _ _ _ _ step => (isTree.child_gt step.choose_spec.2).2
  exact Path.invariant inside leads isTree.root

/-- One word at most leads to a node. -/
theorem Leads.injective (isTree : IsTree alphabet tree)
    {first second : Word} {id : Nat}
    (left : Leads (charMap alphabet) tree first id)
    (right : Leads (charMap alphabet) tree second id) :
    first = second := by
  have notRoot : ∀ {word : Word} {c : JChar},
      ¬ Leads (charMap alphabet) tree (word ++ [c]) 0 := by
    intro word c leads
    rcases Path.snoc_iff.mp leads with ⟨middle, _, index, _, isChild⟩
    exact absurd (isTree.child_gt isChild).1 (Nat.not_lt_zero _)
  induction first using List.reverseRecOn generalizing second id with
  | nil =>
      have isRoot : 0 = id := Path.nil_iff.mp left
      subst isRoot
      rcases List.eq_nil_or_concat' second with rfl | ⟨word, c, rfl⟩
      · rfl
      · exact absurd right notRoot
  | append_singleton first c induction =>
      rcases Path.snoc_iff.mp left with ⟨middle, before, index, mapped, isChild⟩
      rcases List.eq_nil_or_concat' second with rfl | ⟨word, d, rfl⟩
      · have isRoot : 0 = id := Path.nil_iff.mp right
        exact absurd (isRoot ▸ left) notRoot
      · rcases Path.snoc_iff.mp right with
          ⟨other, otherBefore, j, otherMapped, otherChild⟩
        rcases isTree.parent isChild otherChild with ⟨rfl, rfl⟩
        have sameLetter : c = d := Option.some.inj
          ((charMap_get mapped).symm.trans (charMap_get otherMapped))
        rw [induction before otherBefore, sameLetter]

/-- A new child keeps the links. -/
theorem extends_link (isTree : IsTree alphabet tree) {current index : Nat}
    (inside : current < tree.length) {c : JChar}
    (mapped : charMap alphabet c = some index)
    (noChild : child tree current index = none) (word : Word) :
    Extends tree (link alphabet.length tree current index word) := by
  intro other j next known
  rw [child_link isTree inside (charMap_lt mapped), if_neg, known]
  rintro ⟨rfl, rfl⟩
  rw [noChild] at known
  exact Option.some_ne_none _ known.symm

theorem step_link (isTree : IsTree alphabet tree) {current index : Nat}
    (inside : current < tree.length) {c : JChar}
    (mapped : charMap alphabet c = some index) (word : Word) :
    Step (charMap alphabet) (link alphabet.length tree current index word)
      current c tree.length := by
  refine ⟨index, mapped, ?_⟩
  rw [child_link isTree inside (charMap_lt mapped), if_pos ⟨rfl, rfl⟩]

/-- What the loop of `addWord` does. -/
theorem descend_spec {current : Nat} {read rest : Word}
    (isTree : IsTree alphabet tree)
    (leads : Leads (charMap alphabet) tree read current)
    {after : PrefixTree} {id : Nat}
    (returns : descend alphabet.length (charMap alphabet) tree current read
      rest = some (after, id)) :
    IsTree alphabet after ∧ Extends tree after ∧
      Leads (charMap alphabet) after (read ++ rest) id ∧
        ∀ node, accept after node = accept tree node := by
  induction rest generalizing tree current read with
  | nil =>
      rcases Prod.mk.inj (Option.some.inj returns) with ⟨rfl, rfl⟩
      refine ⟨isTree, fun _ _ _ => id, ?_, fun _ => rfl⟩
      rwa [List.append_nil]
  | cons c rest induction =>
      rw [descend, Option.bind_eq_bind, Option.bind_eq_some_iff] at returns
      rcases returns with ⟨index, mapped, returns⟩
      have inside := leads.lt isTree
      cases isChild : child tree current index with
      | some next =>
          rw [isChild] at returns
          have spec := induction isTree
            (leads.snoc ⟨index, mapped, isChild⟩) returns
          simpa using spec
      | none =>
          rw [isChild] at returns
          have extended := extends_link isTree inside mapped isChild (read ++ [c])
          have step := step_link isTree inside mapped (read ++ [c])
          rcases induction (isTree.link inside mapped _)
              ((extended.path leads).snoc step) returns with
            ⟨afterTree, afterExtends, afterLeads, afterAccept⟩
          refine ⟨afterTree, fun _ _ _ known =>
            afterExtends _ _ _ (extended _ _ _ known), ?_, fun node => ?_⟩
          · simpa using afterLeads
          · rw [afterAccept, accept_link]

/-- The loop of `addWord` returns on a word over the alphabet. -/
theorem descend_returns (tree : PrefixTree) (current : Nat)
    (read : Word) {rest : Word} (letters : ∀ c ∈ rest, c ∈ alphabet) :
    ∃ after id, descend alphabet.length (charMap alphabet) tree current read
      rest = some (after, id) := by
  induction rest generalizing tree current read with
  | nil => exact ⟨tree, current, rfl⟩
  | cons c rest induction =>
      rcases Option.isSome_iff_exists.mp
        (charMap_isSome_iff.mpr (letters c List.mem_cons_self)) with ⟨index, mapped⟩
      have tail : ∀ d ∈ rest, d ∈ alphabet :=
        fun d member => letters d (List.mem_cons_of_mem c member)
      rw [descend, mapped, Option.bind_eq_bind, Option.bind_some]
      cases isChild : child tree current index with
      | some next => exact induction _ _ _ tail
      | none => exact induction _ _ _ tail

/-- Along a path of the tree the loop of `addWord` changes nothing. -/
theorem descend_of_path {current id : Nat} {read rest : Word}
    (path : Path (Step (charMap alphabet) tree) current rest id) :
    descend alphabet.length (charMap alphabet) tree current read rest =
      some (tree, id) := by
  induction path generalizing read with
  | nil => rfl
  | cons head _ induction =>
      rcases head with ⟨index, mapped, isChild⟩
      rw [descend, mapped, Option.bind_eq_bind, Option.bind_some, isChild]
      exact induction

/-- `addWord` makes the word lead to a node, marks this node and keeps all else. -/
theorem addWord_spec (isTree : IsTree alphabet tree) {s : Word}
    {mark : Int} {after : PrefixTree} {id : Nat}
    (returns : addWord tree alphabet.length (charMap alphabet) s mark =
      some (after, id)) :
    IsTree alphabet after ∧ Extends tree after ∧
      Leads (charMap alphabet) after s id ∧
        ∀ node, accept after node =
          if node = id then marked (accept tree id) mark
          else accept tree node := by
  rw [addWord, Option.bind_eq_bind, Option.bind_eq_some_iff] at returns
  rcases returns with ⟨⟨nodes, current⟩, descended, returned⟩
  rcases Prod.mk.inj (Option.some.inj returned) with ⟨rfl, rfl⟩
  rcases descend_spec isTree (Path.nil 0) descended with
    ⟨nodesTree, extended, leads, kept⟩
  have children : ∀ other index, child
      (nodes.modify current fun node => node.setAccept mark) other index =
        child nodes other index :=
    fun other index => child_setAccept current other index mark
  have links : Extends nodes
      (nodes.modify current fun node => node.setAccept mark) :=
    fun other index next known => (children other index).trans known
  have widths : ∀ node ∈ nodes.modify current fun node => node.setAccept mark,
      node.children.length = alphabet.length := by
    intro node member
    rcases List.mem_iff_getElem?.mp member with ⟨other, position⟩
    rw [List.getElem?_modify, Option.map_eq_map, Option.map_eq_some_iff]
      at position
    rcases position with ⟨before, position, rfl⟩
    have width := nodesTree.width before (List.mem_of_getElem? position)
    split_ifs
    · rw [Node.setAccept]
      split_ifs <;> exact width
    · exact width
  refine ⟨⟨?_, widths, ?_, ?_, ?_⟩, ?_, links.path leads, ?_⟩
  · rw [List.length_modify]
    exact nodesTree.root
  · intro other index next isChild
    rw [children] at isChild
    exact nodesTree.letter isChild
  · intro other index next isChild
    rw [children] at isChild
    rw [List.length_modify]
    exact nodesTree.child_gt isChild
  · intro left right i j next isLeft isRight
    rw [children] at isLeft isRight
    exact nodesTree.parent isLeft isRight
  · exact fun _ _ _ known => links _ _ _ (extended _ _ _ known)
  · intro node
    rw [accept_setAccept (leads.lt nodesTree), kept, kept]

theorem addWord_returns (tree : PrefixTree) {s : Word} (letters : ∀ c ∈ s, c ∈ alphabet)
    (mark : Int) :
    ∃ after id, addWord tree alphabet.length (charMap alphabet) s mark =
      some (after, id) := by
  rcases descend_returns tree 0 [] letters with ⟨nodes, current, descended⟩
  exact ⟨_, current, by rw [addWord, descended]; rfl⟩

/-- `getNode` finds the node of a word of the tree and changes nothing. -/
theorem getNode_of_leads {s : Word} {place : Nat}
    (leads : Leads (charMap alphabet) tree s place) :
    getNode tree alphabet.length (charMap alphabet) s = some (tree, place) := by
  have unchanged : (fun node : Node => node.setAccept 0) = id := by
    funext node
    rw [Node.setAccept]
    split_ifs <;> first | rfl | omega
  rw [getNode, addWord, descend_of_path leads, Option.bind_eq_bind,
    Option.bind_some, unchanged]
  exact congrArg (fun nodes => some (nodes, place)) (List.modify_id place tree)

/-- Marking twice is marking once. -/
theorem marked_marked (old mark : Int) :
    marked (marked old mark) mark = marked old mark := by
  unfold marked
  split_ifs <;> omega

/-- `addWord` for every word of a list marks exactly the nodes of these words. -/
theorem addWords_spec (isTree : IsTree alphabet tree) {words : List Word}
    {mark : Int} {after : PrefixTree}
    (returns : addWords tree alphabet.length (charMap alphabet) words mark =
      some after) :
    IsTree alphabet after ∧ Extends tree after ∧
      (∀ s ∈ words, ∃ id, Leads (charMap alphabet) after s id) ∧
        ∀ id,
          ((∃ s ∈ words, Leads (charMap alphabet) after s id) →
            accept after id = marked (accept tree id) mark) ∧
          ((∀ s ∈ words, ¬ Leads (charMap alphabet) after s id) →
            accept after id = accept tree id) := by
  induction words generalizing tree with
  | nil =>
      have same : tree = after := by simpa [addWords] using returns
      subst same
      exact ⟨isTree, fun _ _ _ => id, by simp, by simp⟩
  | cons word words induction =>
      rcases PartialFold.foldlM_cons_eq_some.mp returns with ⟨middle, head, tail⟩
      rw [Option.map_eq_some_iff] at head
      rcases head with ⟨⟨first, node⟩, head, rfl⟩
      rcases addWord_spec isTree head with
        ⟨firstTree, firstExtends, firstLeads, firstAccept⟩
      rcases induction firstTree tail with
        ⟨afterTree, afterExtends, afterLeads, afterAccept⟩
      have wordLeads := afterExtends.path firstLeads
      refine ⟨afterTree, fun _ _ _ known =>
        afterExtends _ _ _ (firstExtends _ _ _ known), ?_, ?_⟩
      · exact List.forall_mem_cons.mpr ⟨⟨node, wordLeads⟩, afterLeads⟩
      · intro id
        have same : Leads (charMap alphabet) after word id ↔ id = node := by
          constructor
          · exact fun leads => leads.unique wordLeads
          · rintro rfl
            exact wordLeads
        rcases afterAccept id with ⟨someLead, noLead⟩
        rw [firstAccept id] at someLead noLead
        by_cases inWords : ∃ s ∈ words, Leads (charMap alphabet) after s id
        · refine ⟨fun _ => ?_, fun none => ?_⟩
          · rw [someLead inWords]
            split_ifs with isNode
            · rw [isNode, marked_marked]
            · rfl
          · rcases inWords with ⟨s, member, leads⟩
            exact absurd leads (none s (List.mem_cons_of_mem word member))
        · have rest := noLead (by simpa using inWords)
          by_cases isNode : id = node
          · rw [if_pos isNode, ← isNode] at rest
            refine ⟨fun _ => rest, fun none => ?_⟩
            exact absurd (same.mpr isNode) (none word List.mem_cons_self)
          · rw [if_neg isNode] at rest
            refine ⟨?_, fun _ => rest⟩
            rintro ⟨s, member, leads⟩
            rcases List.mem_cons.mp member with rfl | later
            · exact absurd (same.mp leads) isNode
            · exact absurd ⟨s, later, leads⟩ inWords

theorem addWords_returns (tree : PrefixTree) {words : List Word}
    (letters : ∀ s ∈ words, ∀ c ∈ s, c ∈ alphabet) (mark : Int) :
    ∃ after, addWords tree alphabet.length (charMap alphabet) words mark =
      some after := by
  have step : ∀ s ∈ words, ∀ tree : PrefixTree, True → ∃ after,
      (addWord tree alphabet.length (charMap alphabet) s mark).map Prod.fst =
        some after ∧ True := by
    intro s member tree _
    rcases addWord_returns tree (letters s member) mark with ⟨after, id, returns⟩
    exact ⟨after, by rw [returns]; rfl, trivial⟩
  rcases PartialFold.foldlM_total (fun _ => True) step trivial with
    ⟨after, returns, _⟩
  exact ⟨after, returns⟩

end Insertion

end PrefixTree

end SafetyGames.Learner
