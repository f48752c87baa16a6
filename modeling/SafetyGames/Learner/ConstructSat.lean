import SafetyGames.Learner.BoolExpr
import SafetyGames.Learner.PrefixTree
import SafetyGames.Transducer.States

/-!
# The SAT encoding of the learner

`constructSAT` and `translateModel`.  The cells of the arrays `f`, `d`, `x`,
`y` and `z` are the variables `Var`; the solver knows a cell by its name only,
so the constraints that reach it are renamed by `nameOf`.  An exception of the
source (an unknown character, an array access out of bounds) is `none`.
-/

namespace SafetyGames.Learner

open SafetyGames.Transducer SafetyGames.Worklist BoolExpr

/-! ## Variables and their names -/

/-- A cell of one of the five arrays. -/
inductive Var where
  /-- State `q` accepts. -/
  | f (q : Nat)
  /-- State `p` has a transition to `q` on the letter number `a`. -/
  | d (p a q : Nat)
  /-- The prefix in node `u` leads to state `q`. -/
  | x (u q : Nat)
  /-- Universal counter-example `u`: the pair `(p, p2)` is reached. -/
  | y (u p p2 : Nat)
  /-- Existential counter-example `e`: the pair `(p, p2)` is reached by a word of length `l`. -/
  | z (e p p2 l : Nat)
deriving DecidableEq

/-- What `mkBoolConst` is called with: a number, or the text of the debug mode. -/
inductive Z3Name where
  | number (k : Nat)
  | f (q : Nat)
  | d (p : Nat) (c : JChar) (q : Nat)
  | x (word : Word) (q : Nat)
  | y (p p2 : Nat)
  | z (p p2 l : Nat)
deriving DecidableEq

/-- The bound of the length index of a `z` array. -/
def lMax (n na : Nat) : Nat :=
  n * na - 1

/-- The cells in the order in which `varID` counts them. -/
def declarations (n alphabetSize size : Nat) (uni ex : List Nat) : List Var :=
  (List.range n).map .f ++
  ((List.range n).flatMap fun p =>
    (List.range alphabetSize).flatMap fun a =>
      (List.range n).map fun q => .d p a q) ++
  ((List.range size).flatMap fun u =>
    (List.range n).map fun q => .x u q) ++
  (uni.zipIdx.flatMap fun cu =>
    (List.range n).flatMap fun p =>
      (List.range cu.1).map fun p2 => .y cu.2 p p2) ++
  (ex.zipIdx.flatMap fun ce =>
    (List.range n).flatMap fun p =>
      (List.range ce.1).flatMap fun p2 =>
        (List.range (lMax n ce.1)).map fun l => .z ce.2 p p2 l)

/-- The name a cell is created with. -/
def nameOf (debug : Bool) (alphabet : List JChar) (w : PrefixTree)
    (declared : List Var) (cell : Var) : Z3Name :=
  if debug then
    match cell with
    | .f q => .f q
    | .d p a q => .d p (alphabet[a]?.getD 0) q
    | .x u q => .x (w.getWord u) q
    | .y _ p p2 => .y p p2
    | .z _ p p2 l => .z p p2 l
  else
    .number (declared.idxOf cell)

/-! ## Numbered counter-example automata -/

/-- A transition by the numbers of its source, its letter and its destination. -/
structure Edge where
  source : Nat
  letter : Nat
  dest : Nat
deriving DecidableEq

/-- A counter-example automaton after `setStateNumbers`. -/
structure Numbered where
  /-- `getNumberOfStates()`. -/
  na : Nat
  initial : Nat
  states : List Nat
  edges : List Edge
  acceptStates : List Nat

section Numbering

variable (order : StateOrder) (map : JChar → Option Nat) (a : Automaton)

/-- The numbered transitions of a state. -/
def numberedEdges (ref : Nat) : List Edge :=
  (a.state ref).transitions.filterMap fun transition =>
    (map transition.min).map fun letter =>
      ⟨order.number a ref, letter, order.number a transition.dest⟩

/-- The automaton as `constructSAT` reads it; `map.get` fails on an unknown character. -/
def numbered : Option Numbered :=
  if ∀ ref ∈ order.states a, ∀ transition ∈ (a.state ref).transitions,
      (map transition.min).isSome then
    some
      { na := a.getNumberOfStates
        initial := order.number a a.initial
        states := (order.states a).map (order.number a)
        edges := (order.states a).flatMap (numberedEdges order map a)
        acceptStates := a.getAcceptStates.map (order.number a) }
  else
    none

end Numbering

/-! ## The constraints -/

section Constraints

variable (n : Nat)

/-- A cell as an expression. -/
abbrev cell (cell : Var) : BoolExpr Var :=
  mkBoolConst cell

/-- The antecedent word in node `id` is accepted. -/
def anteAccepted (id : Nat) : BoolExpr Var :=
  anyOf ((List.range n).map fun q => mkAnd (cell (.x id q)) (cell (.f q)))

/-- The `y` constraints of the universal counter-example number `u`. -/
def uniConstraints (u : Nat) (cua : Numbered) (uante : Nat) :
    List (BoolExpr Var) :=
  [cell (.y u 0 cua.initial)] ++
  (cua.edges.flatMap fun edge =>
    (List.range n).flatMap fun p =>
      (List.range n).map fun q =>
        mkImplies
          (mkAnd (cell (.y u p edge.source)) (cell (.d p edge.letter q)))
          (cell (.y u q edge.dest))) ++
  [mkImplies (anteAccepted n uante)
    (allOf ((List.range n).flatMap fun q =>
      cua.acceptStates.map fun fa =>
        mkImplies (cell (.y u q fa)) (cell (.f q))))]

/-- Only the pair of the initial states is reached by the empty word. -/
def zInitial (e : Nat) (cea : Numbered) : List (BoolExpr Var) :=
  [cell (.z e 0 cea.initial 0)] ++
  cea.states.flatMap fun state =>
    ((List.range n).filter fun q => ¬ (state = cea.initial ∧ q = 0)).map
      fun q => mkNot (cell (.z e q state 0))

/-- The transitions that leave a state push the pairs forward. -/
def zForward (e : Nat) (cea : Numbered) (state : Nat) : List (BoolExpr Var) :=
  (cea.edges.filter fun edge => edge.source = state).flatMap fun edge =>
    (List.range n).flatMap fun p =>
      (List.range n).flatMap fun q =>
        (List.range (lMax n cea.na - 1)).map fun l =>
          mkImplies
            (mkAnd (cell (.z e p state l)) (cell (.d p edge.letter q)))
            (cell (.z e q edge.dest (l + 1)))

/-- A pair is reached only through one of the transitions that enter its state. -/
def zBackward (e : Nat) (cea : Numbered) (state : Nat) : List (BoolExpr Var) :=
  let entering := cea.edges.filter fun edge => edge.dest = state
  (List.range n).flatMap fun q =>
    (List.range' 1 (lMax n cea.na - 1)).map fun l =>
      if entering ≠ [] then
        mkImplies (cell (.z e q state l))
          (anyOf (entering.flatMap fun edge =>
            (List.range n).map fun p =>
              mkAnd (cell (.d p edge.letter q))
                (cell (.z e p edge.source (l - 1)))))
      else
        mkNot (cell (.z e q state l))

/-- The `z` constraints of the existential counter-example number `e`; the
access to `z[e][0][initial][0]` fails when no length is below `lMax`. -/
def exConstraints (e : Nat) (cea : Numbered) (eante : Nat) :
    Option (List (BoolExpr Var)) :=
  if lMax n cea.na = 0 then
    none
  else
    some (
      zInitial n e cea ++
      (cea.states.flatMap fun state =>
        zForward n e cea state ++ zBackward n e cea state) ++
      [mkImplies (anteAccepted n eante)
        (anyOf ((List.range n).flatMap fun q =>
          cea.acceptStates.flatMap fun fa =>
            (List.range (lMax n cea.na)).map fun l =>
              mkAnd (cell (.z e q fa l)) (cell (.f q))))])

/-- The cells of one row are not both true: `not (and (row q) (row q2))` for `q < q2`. -/
def atMostOne (row : Nat → Var) : List (BoolExpr Var) :=
  (List.range n).flatMap fun q =>
    (List.range' (q + 1) (n - (q + 1))).map fun q2 =>
      mkNot (mkAnd (cell (row q)) (cell (row q2)))

/-- The transitions are a total function. -/
def dConstraints (alphabetSize : Nat) : List (BoolExpr Var) :=
  (List.range n).flatMap fun p =>
    (List.range alphabetSize).flatMap fun a =>
      atMostOne n (.d p a) ++
        [anyOf ((List.range n).map fun q => cell (.d p a q))]

/-- The empty word leads to state 0. -/
def initialConstraints : List (BoolExpr Var) :=
  [cell (.x 0 0)] ++
  (List.range' 1 (n - 1)).map fun q => mkNot (cell (.x 0 q))

/-- The children of a node. -/
def children (w : PrefixTree) (alphabetSize id : Nat) : List Nat :=
  (List.range alphabetSize).filterMap (w.child id)

/-- The transitions on letter `a` push a prefix forward to its child, if there is one. -/
def childConstraints (id a : Nat) : Option Nat → List (BoolExpr Var)
  | some next =>
      (List.range n).flatMap fun p =>
        (List.range n).map fun q =>
          mkImplies (mkAnd (cell (.x id p)) (cell (.d p a q)))
            (cell (.x next q))
  | none => []

/-- The `x` constraints of one prefix. -/
def prefixConstraints (w : PrefixTree) (alphabetSize id : Nat) :
    List (BoolExpr Var) :=
  atMostOne n (.x id) ++
  ((List.range alphabetSize).flatMap fun a =>
    childConstraints n id a (w.child id a)) ++
  if 0 < w.accept id then
    (List.range n).map fun q => mkImplies (cell (.x id q)) (cell (.f q))
  else if w.accept id < 0 then
    (List.range n).map fun q =>
      mkImplies (cell (.x id q)) (mkNot (cell (.f q)))
  else
    []

end Constraints

/-! ## The whole problem -/

/-- The prefix tree of a sample. -/
def fillTree (alphabet : List JChar) (s : Sample) : Option PrefixTree := do
  let map := charMap alphabet
  let size := alphabet.length
  let w ← (PrefixTree.init size).addWords size map s.pos 1
  let w ← w.addWords size map s.neg (-1)
  let w ← w.addWords size map (s.uni.map CounterExample.u) 0
  w.addWords size map (s.ex.map CounterExample.u) 0

/-- What a call of `constructSAT` leaves: the names of the cells, and the solver. -/
structure Encoding where
  name : Var → Z3Name
  constraints : List (BoolExpr Z3Name)

section Construct

variable (order : StateOrder) (alphabet : List JChar)

/-- The constraints of a universal counter-example. -/
def uniProblem (w : PrefixTree) (n : Nat) (cu : CounterExample × Nat) :
    Option (List (BoolExpr Var)) := do
  let cua ← numbered order (charMap alphabet) cu.1.a
  let (_, uante) ← w.getNode alphabet.length (charMap alphabet) cu.1.u
  some (uniConstraints n cu.2 cua uante)

/-- The constraints of an existential counter-example. -/
def exProblem (w : PrefixTree) (n : Nat) (ce : CounterExample × Nat) :
    Option (List (BoolExpr Var)) := do
  let cea ← numbered order (charMap alphabet) ce.1.a
  let (_, eante) ← w.getNode alphabet.length (charMap alphabet) ce.1.u
  exConstraints n ce.2 cea eante

/-- The constraints over the cells of the arrays. -/
def cellConstraints (s : Sample) (n : Nat) (w : PrefixTree) :
    Option (List (BoolExpr Var)) := do
  let uni ← s.uni.zipIdx.mapM (uniProblem order alphabet w n)
  let ex ← s.ex.zipIdx.mapM (exProblem order alphabet w n)
  let prefixes ← traverse (children w alphabet.length) w.length [0]
  some (uni.flatten ++ ex.flatten ++
    dConstraints n alphabet.length ++ initialConstraints n ++
    prefixes.flatMap (prefixConstraints n w alphabet.length))

/-- The sizes of the counter-example automata. -/
def sizes (list : List CounterExample) : List Nat :=
  list.map fun ce => ce.a.getNumberOfStates

/-- `constructSAT(context, s, n)`. -/
def constructSAT (debug : Bool) (s : Sample) (n : Nat) : Option Encoding := do
  let w ← fillTree alphabet s
  let constraints ← cellConstraints order alphabet s n w
  let name := nameOf debug alphabet w
    (declarations n alphabet.length w.length (sizes s.uni) (sizes s.ex))
  some ⟨name, constraints.map (BoolExpr.map name)⟩

end Construct

/-! ## From models to automata -/

section Translate

variable (alphabet : List JChar) (n : Nat) (name : Var → Z3Name)
  (model : Z3Name → Bool)

/-- The transitions of state `p` in a model. -/
def modelTransitions (p : Nat) : List Transition :=
  ((List.range alphabet.length).flatMap fun a =>
    (List.range n).filterMap fun q =>
      if model (name (.d p a q)) then
        some (Transition.single (alphabet[a]?.getD 0) q)
      else
        none).dedup

/-- State `i` of a model. -/
def modelState (i : Nat) : State where
  accept := model (name (.f i))
  transitions := modelTransitions alphabet n name model i

/-- The automaton of `translateModel(model)` before it is minimized. -/
def translateModel (positive : 0 < n) : Automaton where
  states := (List.range n).map (modelState alphabet n name model)
  initial := 0
  deterministic := true
  initial_lt := by simpa using positive
  closed := by
    intro state member transition inState
    rcases List.mem_map.mp member with ⟨i, _, rfl⟩
    simp only [modelState, modelTransitions, List.mem_dedup, List.mem_flatMap,
      List.mem_filterMap, List.mem_range] at inState
    rcases inState with ⟨a, _, q, inside, chosen⟩
    split_ifs at chosen
    rw [← Option.some.inj chosen]
    simpa [Transition.single] using inside

/-- Every transition of a conjecture carries one letter of the alphabet. -/
theorem singleChars_translateModel (positive : 0 < n) :
    (translateModel alphabet n name model positive).SingleChars := by
  intro state member transition inState
  rcases List.mem_map.mp member with ⟨i, _, rfl⟩
  simp only [modelState, modelTransitions, List.mem_dedup, List.mem_flatMap,
    List.mem_filterMap] at inState
  rcases inState with ⟨a, _, q, _, chosen⟩
  split_ifs at chosen
  rw [← Option.some.inj chosen]
  rfl

end Translate

end SafetyGames.Learner
