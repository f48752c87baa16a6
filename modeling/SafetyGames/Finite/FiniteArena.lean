import Mathlib.Data.Fin.Basic
import Mathlib.Data.List.FinRange
import Mathlib.Logic.Function.Iterate

/-!
# The finite arena and its attractor algorithm

This module embeds `finite_arena`.  A vertex is an index below `n`, an arena
lists the predecessors and the owner of every vertex.  The vectors
`out_degrees` and `attractor` of the source are functions on the vertices;
`attractor_new` and `to_check` are the source's lists, with their repetitions.
-/

namespace SafetyGames.Finite

/-- The fields of a `finite_arena` with `n` vertices. -/
structure FiniteArena (n : Nat) where
  preds : Fin n → List (Fin n)
  players : Fin n → Int

variable {n : Nat}

/-- `finite_arena(n)`: no edge, every vertex owned by player 0. -/
def FiniteArena.init (n : Nat) : FiniteArena n where
  preds := fun _ => []
  players := fun _ => 0

/-- `addPreds(index, pred_list)`. -/
def FiniteArena.addPreds (arena : FiniteArena n) (index : Fin n)
    (predList : List (Fin n)) : FiniteArena n :=
  { arena with
    preds := Function.update arena.preds index (arena.preds index ++ predList) }

/-- `setPlayers(players)`: a vector of another length is ignored. -/
def FiniteArena.setPlayers (arena : FiniteArena n) (players : List Int) :
    FiniteArena n :=
  if same : players.length = n then
    { arena with players := fun index => players.get (index.cast same.symm) }
  else
    arena

namespace FiniteArena

variable (arena : FiniteArena n)

/-- Pre-processing: the out-degree of every vertex, counted over the predecessor lists. -/
def outDegrees : Fin n → Int :=
  (List.finRange n).foldl
    (fun degrees node =>
      (arena.preds node).foldl
        (fun degrees pred => Function.update degrees pred (degrees pred + 1))
        degrees)
    (fun _ => 0)

/-- `for index in list: attractor[index] = 1`. -/
def mark (attractor : Fin n → Bool) (list : List (Fin n)) : Fin n → Bool :=
  list.foldl (fun attractor index => Function.update attractor index true) attractor

/-- The variables that change while the nodes to check are scanned. -/
structure Scan (n : Nat) where
  attractorNew : List (Fin n)
  outDegrees : Fin n → Int

/-- The body of the loop over the predecessors of a checked node. -/
def checkPred (player : Int) (attractor : Fin n → Bool) (scan : Scan n)
    (pred : Fin n) : Scan n :=
  if attractor pred = false then
    if arena.players pred = player then
      { scan with attractorNew := scan.attractorNew ++ [pred] }
    else
      let outDegrees :=
        Function.update scan.outDegrees pred (scan.outDegrees pred - 1)
      if outDegrees pred = 0 then
        { attractorNew := scan.attractorNew ++ [pred], outDegrees := outDegrees }
      else
        { scan with outDegrees := outDegrees }
  else
    scan

/-- `for index in to_check: for pred in preds[index]: ...`. -/
def checkNodes (player : Int) (attractor : Fin n → Bool)
    (toCheck : List (Fin n)) (outDegrees : Fin n → Int) : Scan n :=
  toCheck.foldl
    (fun scan index =>
      (arena.preds index).foldl (checkPred arena player attractor) scan)
    ⟨[], outDegrees⟩

/-- The variables of the outer loop. -/
structure Loop (n : Nat) where
  attractor : Fin n → Bool
  attractorNew : List (Fin n)
  outDegrees : Fin n → Int

/-- The body of the outer loop. -/
def round (player : Int) (loop : Loop n) : Loop n :=
  let scan :=
    checkNodes arena player loop.attractor loop.attractorNew loop.outDegrees
  { attractor := mark loop.attractor scan.attractorNew
    attractorNew := scan.attractorNew
    outDegrees := scan.outDegrees }

/-- The outer loop; it gives nothing when `fuel` is too small. -/
def attractorLoop (player : Int) : Nat → Loop n → Int → Option (Fin n → Bool)
  | 0, _, _ => none
  | fuel + 1, loop, i =>
      if 0 < loop.attractorNew.length ∧ i ≠ 0 then
        attractorLoop player fuel (round arena player loop) (i - 1)
      else
        some loop.attractor

/-- The variables before the first round. -/
def start (F : List (Fin n)) : Loop n where
  attractor := mark (fun _ => false) F
  attractorNew := F
  outDegrees := outDegrees arena

/-- `attractor(F, player, i)`, with fuel for one round more than there are vertices. -/
def attractor (F : List (Fin n)) (player : Int := 0) (i : Int := -1) :
    Option (Fin n → Bool) :=
  attractorLoop arena player (n + 2) (start arena F) i

end FiniteArena

end SafetyGames.Finite
