import SafetyGames.Lib.ModifiedList
import SafetyGames.Learner.StoredWords
import Mathlib.Data.Set.Function

/-!
# The prefix tree as objects

The `Node` objects of a prefix tree carry the ids that are drawn from the
counter `size` while a word is inserted.  The calls of `addWord` on the objects
mirror those on the list of nodes, where an id is a position.  After any
sequence of calls the nodes are therefore the prefixes of the added words, each
with an id of its own below `size` and with the first mark of its word.
-/

namespace SafetyGames.Learner

open SafetyGames.Transducer SafetyGames.LabelledPath SafetyGames.Worklist
open SafetyGames.ModifiedList PrefixTree

/-! ## Objects -/

/-- A `Node` object; a reference to it is its position among the objects. -/
structure NodeObject extends Node where
  id : Nat

/-- `new Node(alphabetSize, id, accept, word)`. -/
def NodeObject.new (alphabetSize id : Nat) (accept : Int) (word : Word) :
    NodeObject where
  toNode := Node.init alphabetSize accept word
  id := id

/-- `node.children[index] = child`. -/
def NodeObject.setChild (node : NodeObject) (index child : Nat) :
    NodeObject where
  toNode := node.toNode.setChild index child
  id := node.id

/-- `node.setAccept(accept)`. -/
def NodeObject.setAccept (node : NodeObject) (accept : Int) : NodeObject where
  toNode := node.toNode.setAccept accept
  id := node.id

/-- A `PrefixTree` object, with the nodes created so far and the counter of ids. -/
@[ext]
structure TreeObject where
  nodes : List NodeObject
  initial : Nat
  size : Nat

namespace TreeObject

/-- `new PrefixTree(alphabetSize, map)`. -/
def new (alphabetSize : Nat) : TreeObject where
  nodes := [NodeObject.new alphabetSize 0 0 [dash]]
  initial := 0
  size := 1

section Calls

variable (tree : TreeObject)

/-- `node.children[index]`. -/
def child (ref index : Nat) : Option Nat :=
  tree.nodes[ref]?.bind fun node => (node.children[index]?).join

/-- `next = new Node(alphabetSize, size++, 0, word); current.children[index] = next`. -/
def addChild (alphabetSize current index : Nat) (word : Word) :
    TreeObject where
  nodes :=
    (tree.nodes ++ [NodeObject.new alphabetSize tree.size 0 word]).modify
      current fun node => node.setChild index tree.nodes.length
  initial := tree.initial
  size := tree.size + 1

/-- `current.setAccept(accept)`. -/
def setAccept (current : Nat) (accept : Int) : TreeObject :=
  { tree with
    nodes := tree.nodes.modify current fun node => node.setAccept accept }

variable (alphabetSize : Nat) (map : JChar → Option Nat)

/-- The loop of `addWord`: from the node `current`, reached by `read`, along
the rest of the word. -/
def descend : TreeObject → Nat → Word → Word → Option (TreeObject × Nat)
  | tree, current, _, [] => some (tree, current)
  | tree, current, read, c :: rest => do
      let index ← map c
      match child tree current index with
      | some next => descend tree next (read ++ [c]) rest
      | none =>
          descend (addChild tree alphabetSize current index (read ++ [c]))
            tree.nodes.length (read ++ [c]) rest

/-- `addWord(s, accept)`: the tree afterwards and the node of the word. -/
def addWord (s : Word) (accept : Int) : Option (TreeObject × Nat) := do
  let (tree, current) ← descend alphabetSize map tree tree.initial [] s
  some (setAccept tree current accept, current)

/-- `getNode(s)`. -/
def getNode (s : Word) : Option (TreeObject × Nat) :=
  addWord tree alphabetSize map s 0

/-- A sequence of calls of `addWord`. -/
def addCalls (calls : List (Word × Int)) : Option TreeObject :=
  calls.foldlM (fun tree call =>
    (addWord tree alphabetSize map call.1 call.2).map Prod.fst) tree

/-- The loop of `getWord(id)` from the node `current`, with the queue `nodes`. -/
def search (id : Nat) : Nat → Nat → List Nat → Option Word
  | 0, _, _ => none
  | fuel + 1, current, nodes => do
      let node ← tree.nodes[current]?
      if node.id = id then
        some node.word
      else
        match nodes ++ node.children.filterMap fun child => child with
        | next :: rest => search id fuel next rest
        | [] => search id fuel current []

/-- `getWord(id)`, given up after so many rounds of its loop. -/
def getWord (rounds id : Nat) : Option Word :=
  tree.search id rounds tree.initial []

end Calls

/-! ## The mirror -/

/-- The tree without the ids. -/
def value (tree : TreeObject) : PrefixTree :=
  tree.nodes.map NodeObject.toNode

/-- The ids are the positions of the nodes, and the counter is past them. -/
structure WellNumbered (tree : TreeObject) : Prop where
  ids : tree.nodes.map NodeObject.id = List.range tree.nodes.length
  size : tree.size = tree.nodes.length
  initial : tree.initial = 0

section Mirror

variable {alphabetSize : Nat} {map : JChar → Option Nat}
  {tree after : TreeObject}

@[simp]
theorem length_value : tree.value.length = tree.nodes.length :=
  List.length_map _

theorem value_get (ref : Nat) :
    tree.value[ref]? = tree.nodes[ref]?.map NodeObject.toNode :=
  List.getElem?_map

theorem child_value (ref index : Nat) :
    PrefixTree.child tree.value ref index = tree.child ref index := by
  rw [PrefixTree.child, child, value_get]
  cases tree.nodes[ref]? with
  | none => rfl
  | some node => rfl

theorem value_addChild (current index : Nat) (word : Word) :
    (tree.addChild alphabetSize current index word).value =
      PrefixTree.link alphabetSize tree.value current index word := by
  have commutes : ∀ list : List NodeObject,
      (list.modify current fun node => node.setChild index
          tree.nodes.length).map NodeObject.toNode =
        (list.map NodeObject.toNode).modify current
          fun node => node.setChild index tree.nodes.length :=
    fun list => map_modify (by intro node; rfl) list current
  rw [value, addChild, commutes, List.map_append, PrefixTree.link, length_value]
  rfl

theorem value_setAccept (current : Nat) (mark : Int) :
    (tree.setAccept current mark).value =
      tree.value.modify current fun node => node.setAccept mark :=
  map_modify (by intro node; rfl) tree.nodes current

theorem ids_modify (f : NodeObject → NodeObject)
    (keeps : ∀ node, (f node).id = node.id) (nodes : List NodeObject)
    (current : Nat) :
    (nodes.modify current f).map NodeObject.id = nodes.map NodeObject.id := by
  have mapped : (nodes.modify current f).map NodeObject.id =
      (nodes.map NodeObject.id).modify current fun id => id :=
    map_modify keeps nodes current
  rw [mapped]
  exact List.modify_id current _

theorem wellNumbered_new (alphabetSize : Nat) :
    (TreeObject.new alphabetSize).WellNumbered where
  ids := rfl
  size := rfl
  initial := rfl

namespace WellNumbered

variable (numbered : tree.WellNumbered)
include numbered

/-- The new node takes the next id. -/
theorem addChild (alphabetSize current index : Nat) (word : Word) :
    (tree.addChild alphabetSize current index word).WellNumbered where
  ids := by
    have fresh : (tree.nodes ++
        [NodeObject.new alphabetSize tree.size 0 word]).map NodeObject.id =
          List.range (tree.nodes.length + 1) := by
      rw [List.map_append, numbered.ids, List.range_succ, numbered.size]
      rfl
    have length : (tree.addChild alphabetSize current index word).nodes.length =
        tree.nodes.length + 1 := by
      rw [TreeObject.addChild, List.length_modify, List.length_append,
        List.length_singleton]
    rw [length, ← fresh]
    exact ids_modify (fun node => node.setChild index tree.nodes.length)
      (fun _ => rfl) _ current
  size := by
    rw [TreeObject.addChild, List.length_modify, List.length_append,
      List.length_singleton, numbered.size]
  initial := numbered.initial

theorem setAccept (current : Nat) (mark : Int) :
    (tree.setAccept current mark).WellNumbered where
  ids := by
    have length : (tree.setAccept current mark).nodes.length =
        tree.nodes.length :=
      List.length_modify ..
    rw [length, ← numbered.ids]
    exact ids_modify (fun node => node.setAccept mark) (fun _ => rfl)
      tree.nodes current
  size := by
    rw [TreeObject.setAccept, List.length_modify, numbered.size]
  initial := numbered.initial

theorem id_eq {ref : Nat} {node : NodeObject}
    (position : tree.nodes[ref]? = some node) : node.id = ref := by
  have inside := (List.getElem?_eq_some_iff.mp position).1
  have same : (tree.nodes.map NodeObject.id)[ref]? = some ref := by
    rw [numbered.ids, List.getElem?_range inside]
  rw [List.getElem?_map, position] at same
  exact Option.some.inj same

/-- Two numbered trees with the same nodes are the same. -/
theorem eq_of_value_eq (other : after.WellNumbered)
    (same : after.value = tree.value) : after = tree := by
  have lengths : after.nodes.length = tree.nodes.length := by
    rw [← length_value, same, length_value]
  ext1
  · apply List.ext_getElem?
    intro ref
    have nodes := congrArg (fun list : List Node => list[ref]?) same
    simp only [value_get] at nodes
    cases left : after.nodes[ref]? with
    | none =>
        rw [left, Option.map_none, eq_comm, Option.map_eq_none_iff] at nodes
        rw [nodes]
    | some node =>
        rw [left, Option.map_some, eq_comm, Option.map_eq_some_iff] at nodes
        rcases nodes with ⟨twin, right, sameNode⟩
        have sameId := (other.id_eq left).trans (numbered.id_eq right).symm
        cases node with
        | mk node id =>
            cases twin with
            | mk twin twinId =>
                cases sameNode
                cases sameId
                exact right.symm
  · rw [other.initial, numbered.initial]
  · rw [other.size, numbered.size, lengths]

end WellNumbered

/-- The loop of `addWord` on the objects mirrors the loop on the nodes. -/
theorem descend_mirror (numbered : tree.WellNumbered) (current : Nat)
    (read rest : Word) :
    PrefixTree.descend alphabetSize map tree.value current read rest =
        (descend alphabetSize map tree current read rest).map
          (fun result => (result.1.value, result.2)) ∧
      ∀ after ref, descend alphabetSize map tree current read rest =
        some (after, ref) → after.WellNumbered := by
  induction rest generalizing tree current read with
  | nil =>
      refine ⟨rfl, fun after ref returns => ?_⟩
      rcases Prod.mk.inj (Option.some.inj returns) with ⟨rfl, rfl⟩
      exact numbered
  | cons c rest induction =>
      rw [PrefixTree.descend, descend]
      cases map c with
      | none => exact ⟨rfl, fun _ _ returns => absurd returns (by simp)⟩
      | some index =>
          simp only [Option.bind_eq_bind, Option.bind_some, child_value]
          cases tree.child current index with
          | some next => exact induction numbered next (read ++ [c])
          | none =>
              have linked := induction
                (numbered.addChild alphabetSize current index (read ++ [c]))
                tree.nodes.length (read ++ [c])
              rw [value_addChild, PrefixTree.link] at linked
              simpa only [length_value] using linked

/-- A call of `addWord` on the objects mirrors the call on the nodes. -/
theorem addWord_mirror (numbered : tree.WellNumbered) (s : Word) (mark : Int) :
    PrefixTree.addWord tree.value alphabetSize map s mark =
        (addWord tree alphabetSize map s mark).map
          (fun result => (result.1.value, result.2)) ∧
      ∀ after ref, addWord tree alphabetSize map s mark = some (after, ref) →
        after.WellNumbered := by
  have mirror : PrefixTree.descend alphabetSize map tree.value 0 [] s = _ ∧ _ :=
    descend_mirror numbered 0 [] s
  rw [PrefixTree.addWord, addWord, numbered.initial, mirror.1]
  cases descended : descend alphabetSize map tree 0 [] s with
  | none => exact ⟨rfl, fun _ _ returns => absurd returns (by simp)⟩
  | some result =>
      have middle := mirror.2 result.1 result.2 descended
      constructor
      · exact congrArg (fun nodes => some (nodes, result.2))
          (value_setAccept result.2 mark).symm
      · intro after ref returns
        rcases Prod.mk.inj (Option.some.inj returns) with ⟨rfl, rfl⟩
        exact middle.setAccept result.2 mark

end Mirror

/-! ## Sequences of calls -/

/-- The sign of the first non-zero value with which a word is added. -/
def firstMark : List (Word × Int) → Word → Int
  | [], _ => 0
  | (s, mark) :: calls, word =>
      if s = word ∧ mark ≠ 0 then mark.sign else firstMark calls word

/-- The empty word and the prefixes of the added words. -/
def prefixes (calls : List (Word × Int)) : Set Word :=
  {word | word = [] ∨ ∃ call ∈ calls, word <+: call.1}

theorem marked_eq (old mark : Int) :
    marked old mark = if old = 0 then mark.sign else old := by
  have sign : (if 0 < mark then 1 else if mark < 0 then -1 else 0) =
      mark.sign := by
    rcases lt_trichotomy mark 0 with negative | rfl | positive
    · rw [if_neg negative.not_gt, if_pos negative,
        Int.sign_eq_neg_one_of_neg negative]
    · rfl
    · rw [if_pos positive, Int.sign_eq_one_of_pos positive]
  rw [marked, sign]

/-- One more call marks its word if it has no mark. -/
theorem firstMark_snoc (calls : List (Word × Int)) (s word : Word)
    (mark : Int) :
    firstMark (calls ++ [(s, mark)]) word =
      if word = s then marked (firstMark calls word) mark
      else firstMark calls word := by
  induction calls with
  | nil =>
      by_cases same : word = s
      · by_cases zero : mark = 0
        · simp [firstMark, marked_eq, same, zero]
        · simp [firstMark, marked_eq, same, zero]
      · simp [firstMark, same, Ne.symm same]
  | cons call calls induction =>
      rw [List.cons_append, firstMark, firstMark, induction]
      split_ifs with first same
      · rw [marked_eq, if_neg (Int.sign_eq_zero_iff_zero.not.mpr first.2)]
      · rfl
      · rfl
      · rfl

theorem firstMark_of_not_mem {calls : List (Word × Int)} {word : Word}
    (new : ∀ call ∈ calls, call.1 ≠ word) : firstMark calls word = 0 := by
  induction calls with
  | nil => rfl
  | cons call calls induction =>
      rcases List.forall_mem_cons.mp new with ⟨head, tail⟩
      rw [firstMark, if_neg fun first => head first.1]
      exact induction tail

/-- What the calls have built. -/
structure Built (alphabet : List JChar) (calls : List (Word × Int))
    (tree : TreeObject) : Prop where
  numbered : tree.WellNumbered
  isTree : IsTree alphabet tree.value
  stores : Stores alphabet tree.value
  words : ∀ word, (∃ ref, Leads (charMap alphabet) tree.value word ref) ↔
    word ∈ prefixes calls
  marks : ∀ word ref, Leads (charMap alphabet) tree.value word ref →
    tree.value.accept ref = firstMark calls word

theorem built_new (alphabet : List JChar) :
    Built alphabet [] (TreeObject.new alphabet.length) where
  numbered := wellNumbered_new alphabet.length
  isTree := isTree_init alphabet
  stores := stores_init alphabet
  words := by
    intro word
    constructor
    · rintro ⟨ref, leads⟩
      exact Or.inl (leads_init leads)
    · rintro (rfl | ⟨_, member, _⟩)
      · exact ⟨0, Path.nil 0⟩
      · exact absurd member List.not_mem_nil
  marks := fun _ ref _ => accept_init alphabet.length ref

namespace Built

variable {alphabet : List JChar} {calls : List (Word × Int)}
  {tree : TreeObject} (built : Built alphabet calls tree)
include built

/-- A node that a word leads to later on has the mark of the word already, a
new one has none. -/
theorem accept_eq {later : PrefixTree} (isTree : IsTree alphabet later)
    (extended : tree.value.Extends later) {word : Word} {ref : Nat}
    (leads : Leads (charMap alphabet) later word ref) :
    tree.value.accept ref = firstMark calls word := by
  by_cases inside : ref < tree.value.length
  · rcases built.stores ref inside with ⟨other, otherLeads, _⟩
    rcases (otherLeads.extend extended).injective isTree leads with rfl
    exact built.marks other ref otherLeads
  · have new : ∀ call ∈ calls, call.1 ≠ word := by
      rintro call member rfl
      rcases (built.words call.1).mpr
        (Or.inr ⟨call, member, List.prefix_refl call.1⟩) with ⟨earlier, before⟩
      have same : earlier = ref := (before.extend extended).unique leads
      exact inside (same ▸ before.lt built.isTree)
    rw [accept_of_length_le (Nat.not_lt.mp inside), firstMark_of_not_mem new]

/-- A call of `addWord` builds the prefixes of its word. -/
theorem addWord {s : Word} (letters : ∀ c ∈ s, c ∈ alphabet) (mark : Int) :
    ∃ after ref, tree.addWord alphabet.length (charMap alphabet) s mark =
        some (after, ref) ∧
      Leads (charMap alphabet) after.value s ref ∧
        Built alphabet (calls ++ [(s, mark)]) after := by
  rcases addWord_mirror built.numbered s mark with ⟨mirror, keeps⟩
  rcases addWord_returns tree.value letters mark with ⟨nodes, id, returns⟩
  rw [mirror, Option.map_eq_some_iff] at returns
  rcases returns with ⟨⟨after, ref⟩, added, same⟩
  rcases Prod.mk.inj same with ⟨rfl, rfl⟩
  rw [added] at mirror
  rcases addWord_spec built.isTree mirror with ⟨isTree, extended, leads, accepts⟩
  refine ⟨after, ref, added, leads, keeps after ref added, isTree,
    built.stores.of_addWord built.isTree mirror, ?_, ?_⟩
  · intro word
    constructor
    · rintro ⟨place, wordLeads⟩
      rcases built.stores.leads_of_addWord built.isTree mirror wordLeads with
        earlier | isPrefix
      · rcases (built.words word).mp earlier with empty | ⟨call, member, isPrefix⟩
        · exact Or.inl empty
        · exact Or.inr ⟨call, List.mem_append_left _ member, isPrefix⟩
      · exact Or.inr ⟨(s, mark),
          List.mem_append_right _ (List.mem_singleton_self _), isPrefix⟩
    · rintro (rfl | ⟨call, member, isPrefix⟩)
      · exact ⟨0, Path.nil 0⟩
      · rcases List.mem_append.mp member with old | new
        · rcases (built.words word).mpr (Or.inr ⟨call, old, isPrefix⟩) with
            ⟨place, before⟩
          exact ⟨place, extended.path before⟩
        · rw [List.mem_singleton.mp new] at isPrefix
          rcases isPrefix with ⟨rest, rfl⟩
          rcases Path.append_iff.mp leads with ⟨place, before, _⟩
          exact ⟨place, before⟩
  · intro word place wordLeads
    rw [accepts, firstMark_snoc]
    by_cases isWord : word = s
    · rcases isWord with rfl
      obtain rfl : place = ref := wordLeads.unique leads
      rw [if_pos rfl, if_pos rfl,
        built.accept_eq isTree extended wordLeads]
    · have different : place ≠ ref := by
        rintro rfl
        exact isWord (wordLeads.injective isTree leads)
      rw [if_neg different, if_neg isWord]
      exact built.accept_eq isTree extended wordLeads

/-- A sequence of calls builds the prefixes of its words. -/
theorem addCalls {more : List (Word × Int)}
    (letters : ∀ call ∈ more, ∀ c ∈ call.1, c ∈ alphabet) :
    ∃ after, tree.addCalls alphabet.length (charMap alphabet) more =
        some after ∧ Built alphabet (calls ++ more) after := by
  induction more generalizing calls tree with
  | nil => exact ⟨tree, rfl, by rwa [List.append_nil]⟩
  | cons call more induction =>
      rcases List.forall_mem_cons.mp letters with ⟨head, tail⟩
      rcases built.addWord head call.2 with ⟨middle, ref, added, _, next⟩
      rcases induction next tail with ⟨after, returns, rest⟩
      refine ⟨after, ?_, ?_⟩
      · rw [TreeObject.addCalls, List.foldlM_cons, added]
        exact returns
      · rwa [List.append_assoc] at rest

end Built

/-! ## The search for an id -/

theorem filterMap_range (list : List (Option Nat)) :
    ((List.range list.length).filterMap fun index => (list[index]?).join) =
      list.filterMap fun value => value := by
  have read : ((List.range list.length).map fun index => (list[index]?).join) =
      list := by
    apply List.ext_getElem
    · simp
    · intro index _ bound
      simp [bound]
  have kept := congrArg (List.filterMap fun value => value) read
  rw [List.filterMap_map] at kept
  exact kept

section Search

variable {alphabet : List JChar} {tree : TreeObject}

theorem children_value (isTree : IsTree alphabet tree.value) {ref : Nat}
    {node : NodeObject} (position : tree.nodes[ref]? = some node) :
    children tree.value alphabet.length ref =
      node.children.filterMap fun child => child := by
  have isNode : tree.value[ref]? = some node.toNode := by
    rw [value_get, position]
    rfl
  have width := isTree.width _ (List.mem_of_getElem? isNode)
  have child : ∀ index, tree.value.child ref index =
      (node.children[index]?).join := by
    intro index
    rw [PrefixTree.child, isNode]
    rfl
  rw [children, ← width, ← filterMap_range]
  exact congrArg (fun read => (List.range node.children.length).filterMap read)
    (funext child)

/-- The loop of `getWord` on the objects mirrors the loop on the nodes. -/
theorem search_mirror (numbered : tree.WellNumbered)
    (isTree : IsTree alphabet tree.value) (id fuel : Nat) {current : Nat}
    {nodes : List Nat} (inside : current < tree.nodes.length)
    (queued : ∀ ref ∈ nodes, ref < tree.nodes.length) :
    tree.search id fuel current nodes =
      findWord tree.value alphabet.length id fuel current nodes := by
  induction fuel generalizing current nodes with
  | zero => rfl
  | succ fuel induction =>
      have position := List.getElem?_eq_getElem inside
      have word : tree.value.getWord current = tree.nodes[current].word := by
        rw [PrefixTree.getWord, value_get, position]
        rfl
      have more : ∀ ref ∈ nodes ++ children tree.value alphabet.length current,
          ref < tree.nodes.length := by
        refine List.forall_mem_append.mpr ⟨queued, fun ref member => ?_⟩
        rcases mem_children.mp member with ⟨index, _, isChild⟩
        rw [← length_value]
        exact (isTree.child_gt isChild).2
      rw [search, findWord, position, Option.bind_eq_bind, Option.bind_some,
        numbered.id_eq position, word, ← children_value isTree position]
      split_ifs
      · rfl
      · cases queue : nodes ++ children tree.value alphabet.length current with
        | nil => exact induction inside fun _ member => absurd member List.not_mem_nil
        | cons next rest =>
            rw [queue] at more
            rcases List.forall_mem_cons.mp more with ⟨isNext, others⟩
            exact induction isNext others

end Search

/-! ## What the tree represents -/

/-- The word of a node: the stored one, which is a dash for the root. -/
def wordOf (tree : TreeObject) (ref : Nat) : Word :=
  if ref = tree.initial then []
  else (tree.nodes[ref]?.map fun node => node.word).getD []

/-- The tree holds the prefixes of the added words. -/
structure Represents (alphabet : List JChar) (calls : List (Word × Int))
    (tree : TreeObject) : Prop where
  /-- The ids are the numbers below `size`. -/
  ids : tree.nodes.map NodeObject.id = List.range tree.size
  bijection : Set.BijOn tree.wordOf {ref | ref < tree.nodes.length}
    (prefixes calls)
  /-- A child holds its parent's word extended by its letter. -/
  child : ∀ ref < tree.nodes.length, ∀ next < tree.nodes.length, ∀ index,
    tree.child ref index = some next ↔
      ∃ c, charMap alphabet c = some index ∧
        tree.wordOf next = tree.wordOf ref ++ [c]
  marks : ∀ ref node, tree.nodes[ref]? = some node →
    node.accept = firstMark calls (tree.wordOf ref)
  /-- `getNode` finds an added prefix and creates nothing. -/
  getNode : ∀ ref < tree.nodes.length,
    tree.getNode alphabet.length (charMap alphabet) (tree.wordOf ref) =
      some (tree, ref)
  /-- `getWord` ends, on the word whose node has the id. -/
  getWord : ∀ id < tree.size, ∃ word ref node,
    tree.getNode alphabet.length (charMap alphabet) word = some (tree, ref) ∧
      tree.nodes[ref]? = some node ∧ node.id = id ∧
        tree.getWord tree.size id = some (shown word)

namespace Built

variable {alphabet : List JChar} {calls : List (Word × Int)}
  {tree : TreeObject} (built : Built alphabet calls tree)
include built

/-- The word of a node is the one that leads to it. -/
theorem wordOf_eq {word : Word} {ref : Nat}
    (leads : Leads (charMap alphabet) tree.value word ref) :
    tree.wordOf ref = word := by
  rw [wordOf, built.numbered.initial]
  split_ifs with isRoot
  · subst isRoot
    have root : Leads (charMap alphabet) tree.value [] 0 := Path.nil 0
    exact root.injective built.isTree leads
  · have stored := built.stores.getWord_of_leads built.isTree leads
    have read : tree.value.getWord ref =
        (tree.nodes[ref]?.map fun node => node.word).getD [] := by
      rw [PrefixTree.getWord, value_get, Option.map_map]
      rfl
    rw [← read, stored]
    cases word with
    | nil => exact absurd (Path.nil_iff.mp leads).symm isRoot
    | cons => rfl

theorem leads_wordOf {ref : Nat} (inside : ref < tree.nodes.length) :
    Leads (charMap alphabet) tree.value (tree.wordOf ref) ref := by
  rw [← length_value] at inside
  rcases built.stores ref inside with ⟨word, leads, _⟩
  rw [built.wordOf_eq leads]
  exact leads

theorem getNode_eq {word : Word} {ref : Nat}
    (leads : Leads (charMap alphabet) tree.value word ref) :
    tree.getNode alphabet.length (charMap alphabet) word = some (tree, ref) := by
  rcases addWord_mirror built.numbered word 0 with ⟨mirror, keeps⟩
  have found := getNode_of_leads leads
  rw [PrefixTree.getNode, mirror, Option.map_eq_some_iff] at found
  rcases found with ⟨⟨after, place⟩, returns, same⟩
  rcases Prod.mk.inj same with ⟨sameValue, rfl⟩
  have unchanged := built.numbered.eq_of_value_eq (keeps after place returns)
    sameValue
  rw [TreeObject.getNode, returns, unchanged]

theorem bijection : Set.BijOn tree.wordOf {ref | ref < tree.nodes.length}
    (prefixes calls) := by
  refine ⟨?_, ?_, ?_⟩
  · intro ref inside
    exact (built.words _).mp ⟨ref, built.leads_wordOf inside⟩
  · intro left inLeft right inRight same
    have leads := built.leads_wordOf inLeft
    rw [same] at leads
    exact leads.unique (built.leads_wordOf inRight)
  · intro word member
    rcases (built.words word).mpr member with ⟨ref, leads⟩
    have inside := leads.lt built.isTree
    rw [length_value] at inside
    exact ⟨ref, inside, built.wordOf_eq leads⟩

theorem child_iff {ref next index : Nat} (inside : ref < tree.nodes.length)
    (isNode : next < tree.nodes.length) :
    tree.child ref index = some next ↔
      ∃ c, charMap alphabet c = some index ∧
        tree.wordOf next = tree.wordOf ref ++ [c] := by
  have leads := built.leads_wordOf inside
  rw [← child_value]
  constructor
  · intro isChild
    rcases built.isTree.letter isChild with ⟨c, mapped⟩
    exact ⟨c, mapped, built.wordOf_eq (leads.snoc ⟨index, mapped, isChild⟩)⟩
  · rintro ⟨c, mapped, extended⟩
    have nextLeads := built.leads_wordOf isNode
    rw [extended] at nextLeads
    rcases Path.snoc_iff.mp nextLeads with
      ⟨middle, before, other, otherMapped, isChild⟩
    rcases Option.some.inj (mapped.symm.trans otherMapped) with rfl
    obtain rfl : middle = ref := Leads.unique before leads
    exact isChild

theorem getWord_eq {ref : Nat} (inside : ref < tree.nodes.length) :
    tree.getWord tree.size ref = some (shown (tree.wordOf ref)) := by
  have root : 0 < tree.nodes.length := by
    rw [← length_value]
    exact built.isTree.root
  rw [← built.stores.getWord_of_leads built.isTree (built.leads_wordOf inside),
    TreeObject.getWord, built.numbered.initial, built.numbered.size,
    search_mirror built.numbered built.isTree ref tree.nodes.length root
      fun _ member => absurd member List.not_mem_nil]
  rw [← length_value] at inside ⊢
  exact built.stores.findWord_returns built.isTree inside

theorem represents : Represents alphabet calls tree where
  ids := built.numbered.size ▸ built.numbered.ids
  bijection := built.bijection
  child := fun _ inside _ isNode _ => built.child_iff inside isNode
  marks := by
    intro ref node position
    have inside := (List.getElem?_eq_some_iff.mp position).1
    rw [← built.marks _ ref (built.leads_wordOf inside), PrefixTree.accept,
      value_get, position]
    rfl
  getNode := fun _ inside => built.getNode_eq (built.leads_wordOf inside)
  getWord := by
    intro id bound
    rw [built.numbered.size] at bound
    have position := List.getElem?_eq_getElem bound
    exact ⟨tree.wordOf id, id, tree.nodes[id],
      built.getNode_eq (built.leads_wordOf bound), position,
      built.numbered.id_eq position, built.getWord_eq bound⟩

end Built

/--
After any sequence of calls over the alphabet the prefix tree represents the
prefixes of the added words.
-/
theorem addCalls_represents (alphabet : List JChar)
    (calls : List (Word × Int))
    (letters : ∀ call ∈ calls, ∀ c ∈ call.1, c ∈ alphabet) :
    ∃ tree, (TreeObject.new alphabet.length).addCalls alphabet.length
        (charMap alphabet) calls = some tree ∧
      Represents alphabet calls tree := by
  rcases (built_new alphabet).addCalls letters with ⟨tree, returns, built⟩
  exact ⟨tree, returns, built.represents⟩

/--
A word, its prefix with the other mark, and the word again, with a mark that
comes too late.
-/
theorem addCalls_represents_repeated :
    ∃ tree, (TreeObject.new 2).addCalls 2 (charMap [97, 98])
        [([97, 98], 1), ([97], -1), ([97, 98], -1)] = some tree ∧
      Represents [97, 98] [([97, 98], 1), ([97], -1), ([97, 98], -1)] tree :=
  addCalls_represents [97, 98] _ (by simp)

end TreeObject

end SafetyGames.Learner
