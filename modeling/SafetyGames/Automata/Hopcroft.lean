import SafetyGames.Lib.PartitionRefinement
import Mathlib.Data.Finset.Card
import Mathlib.Data.List.Nodup
import Mathlib.Logic.Function.Basic
import Mathlib.Tactic.Ring

/-!
# The refinement loop of Hopcroft's algorithm

The arrays of `minimizeHopcroft` and the loop that processes the pending pairs
until none is left.  The states and the letters are numbers, the arrays are
functions of their indices, and `partition.get(k)` beyond the last block gives
nothing.
-/

namespace SafetyGames.Automata

open SafetyGames.PartitionRefinement

/-! ## The arrays -/

/-- The numbered states with their steps on the letters of `sigma`. -/
structure StateTable where
  size : Nat
  letters : Nat
  delta : Nat → Nat → Nat
  accept : Nat → Bool
  delta_lt : ∀ q x, q < size → x < letters → delta q x < size

/-- The arrays and lists of `minimizeHopcroft`. -/
structure Refinement where
  partition : Nat → List Nat
  block : Nat → Nat
  active : Nat → Nat → List Nat
  active2 : Nat → Nat → Option Nat
  pending : List (Nat × Nat)
  pending2 : Nat → Nat → Bool
  k : Nat

/-- `split`, `splitblock` and `refine`. -/
structure SplitSets where
  split : List Nat
  splitblock : Nat → List Nat
  refine : List Nat

section Loop

variable (T : StateTable)

/-- `reverse.get(p).get(x)`. -/
def StateTable.reverse (p x : Nat) : List Nat :=
  (List.range T.size).filter fun q => T.delta q x = p

/-- The initial block of a state. -/
def StateTable.firstBlock (q : Nat) : Nat :=
  if T.accept q then 0 else 1

/-- The initial partition. -/
def StateTable.firstPartition (j : Nat) : List Nat :=
  (List.range T.size).filter fun q => T.firstBlock q = j

/-- The initial active sets. -/
def StateTable.firstActive (j x : Nat) : List Nat :=
  if x < T.letters then
    (T.firstPartition j).filter fun q => !(T.reverse q x).isEmpty
  else
    []

/-- The initial block that is pending for a letter. -/
def StateTable.firstPending (x : Nat) : Nat :=
  if (T.firstActive 0 x).length ≤ (T.firstActive 1 x).length then 0 else 1

/-- The arrays in front of the loop. -/
def StateTable.start : Refinement where
  partition := T.firstPartition
  block := T.firstBlock
  active := T.firstActive
  active2 := fun q x =>
    if q ∈ T.firstActive (T.firstBlock q) x then some (T.firstBlock q) else none
  pending := (List.range T.letters).map fun x => (T.firstPending x, x)
  pending2 := fun x j => decide (x < T.letters) && decide (j = T.firstPending x)
  k := 2

/-- The body of the loop that finds the states to be split off. -/
def SplitSets.add (block : Nat → Nat) (sets : SplitSets) (s : Nat) : SplitSets :=
  if s ∈ sets.split then
    sets
  else
    { split := sets.split ++ [s]
      splitblock := Function.update sets.splitblock (block s)
        (sets.splitblock (block s) ++ [s])
      refine := if block s ∈ sets.refine then sets.refine
        else sets.refine ++ [block s] }

/-- The states that need to be split off their blocks. -/
def findSplit (r : Refinement) (p x : Nat) : SplitSets :=
  ((r.active p x).flatMap fun q => T.reverse q x).foldl
    (SplitSets.add r.block) ⟨[], fun _ => [], []⟩

/-- The state `s` leaves the block `j` for the block `k`; the letters do not
interact. -/
def moveState (j : Nat) (r : Refinement) (s : Nat) : Refinement :=
  { r with
    partition := fun i =>
      if i = r.k then r.partition i ++ [s]
      else if i = j then (r.partition i).erase s
      else r.partition i
    block := Function.update r.block s r.k
    active := fun i c =>
      if r.active2 s c = some j then
        if i = r.k then r.active i c ++ [s]
        else if i = j then (r.active i c).erase s
        else r.active i c
      else
        r.active i c
    active2 := fun q c =>
      if q = s ∧ r.active2 s c = some j then some r.k else r.active2 q c }

/-- The half of a split block that becomes pending for a letter. -/
def pendingHalf (j : Nat) (r : Refinement) (c : Nat) : Nat :=
  if r.pending2 c j = false ∧ 0 < (r.active j c).length ∧
      (r.active j c).length ≤ (r.active r.k c).length then j
  else r.k

/-- The update of `pending` behind a split, and `k++`. -/
def updatePending (j : Nat) (r : Refinement) : Refinement :=
  { r with
    pending := r.pending ++
      (List.range T.letters).map fun c => (pendingHalf j r c, c)
    pending2 := fun c i =>
      (decide (c < T.letters) && decide (i = pendingHalf j r c)) ||
        r.pending2 c i
    k := r.k + 1 }

/-- The body of the loop over the blocks to be refined. -/
def refineBlock (sets : SplitSets) (r : Refinement) (j : Nat) :
    Option Refinement :=
  if (sets.splitblock j).length < (r.partition j).length then
    if r.k < T.size then
      some (updatePending T j ((sets.splitblock j).foldl (moveState j) r))
    else
      none
  else
    some r

/-- The pair is no longer pending. -/
def popPending (r : Refinement) (p x : Nat) (rest : List (Nat × Nat)) :
    Refinement :=
  { r with
    pending := rest
    pending2 := fun c i => !(decide (c = x) && decide (i = p)) && r.pending2 c i }

/-- The body of the loop over the pending pairs. -/
def processPair (r : Refinement) (p x : Nat) (rest : List (Nat × Nat)) :
    Option Refinement :=
  let sets := findSplit T r p x
  sets.refine.foldlM (refineBlock T sets) (popPending r p x rest)

/-- The loop over the pending pairs. -/
def processPending : Nat → Refinement → Option Refinement
  | 0, r => if r.pending = [] then some r else none
  | fuel + 1, r =>
      match r.pending with
      | [] => some r
      | (p, x) :: rest => (processPair T r p x rest).bind (processPending fuel)

end Loop

/-! ## Linked arrays -/

section Linked

/-- The arrays describe one partition and the states that have predecessors. -/
structure Linked (T : StateTable) (r : Refinement) : Prop where
  partition_iff : ∀ q j, q ∈ r.partition j ↔ q < T.size ∧ r.block q = j
  partition_nodup : ∀ j, (r.partition j).Nodup
  active_iff : ∀ q j x, q ∈ r.active j x ↔
    q < T.size ∧ r.block q = j ∧ x < T.letters ∧ T.reverse q x ≠ []
  active_nodup : ∀ j x, (r.active j x).Nodup
  active2_iff : ∀ q x j, r.active2 q x = some j ↔ q ∈ r.active j x

variable {T : StateTable} {r : Refinement}

theorem mem_reverse {p x q : Nat} :
    q ∈ T.reverse p x ↔ q < T.size ∧ T.delta q x = p := by
  rw [StateTable.reverse, List.mem_filter, List.mem_range, decide_eq_true_eq]

theorem mem_firstPartition {q j : Nat} :
    q ∈ T.firstPartition j ↔ q < T.size ∧ T.firstBlock q = j := by
  rw [StateTable.firstPartition, List.mem_filter, List.mem_range,
    decide_eq_true_eq]

theorem mem_firstActive {q j x : Nat} :
    q ∈ T.firstActive j x ↔ q < T.size ∧ T.firstBlock q = j ∧
      x < T.letters ∧ T.reverse q x ≠ [] := by
  rw [StateTable.firstActive]
  split_ifs with inside
  · rw [List.mem_filter, mem_firstPartition]
    simp [inside, and_assoc]
  · simp [inside]

theorem linked_start : Linked T T.start where
  partition_iff := fun _ _ => mem_firstPartition
  partition_nodup := fun _ => List.nodup_range.filter _
  active_iff := fun _ _ _ => mem_firstActive
  active_nodup := by
    intro j x
    change (T.firstActive j x).Nodup
    rw [StateTable.firstActive]
    split_ifs
    · exact (List.nodup_range.filter _).filter _
    · exact List.nodup_nil
  active2_iff := by
    intro q x j
    simp only [StateTable.start]
    split_ifs with isActive
    · rw [Option.some.injEq]
      constructor
      · rintro rfl
        exact isActive
      · exact fun member => (mem_firstActive.mp member).2.1
    · refine iff_of_false not_false fun member => ?_
      rcases mem_firstActive.mp member with ⟨_, rfl, _⟩
      exact isActive member

/-- Moving a state to a new block moves it in all arrays. -/
theorem Linked.moveState {j s : Nat} (linked : Linked T r) (inside : s < T.size)
    (inBlock : r.block s = j) (new : j ≠ r.k) :
    Linked T (Automata.moveState j r s) := by
  have isActive : ∀ c, r.active2 s c = some j ↔
      c < T.letters ∧ T.reverse s c ≠ [] := by
    intro c
    rw [linked.active2_iff, linked.active_iff]
    simp [inside, inBlock]
  constructor
  · intro q i
    simp only [Automata.moveState]
    by_cases moved : q = s
    · subst moved
      rw [Function.update_self]
      split_ifs with isNew isOld
      · exact iff_of_true
          (List.mem_append_right _ (List.mem_singleton_self q))
          ⟨inside, isNew.symm⟩
      · rw [(linked.partition_nodup i).mem_erase_iff]
        exact iff_of_false (fun old => old.1 rfl) fun old => isNew old.2.symm
      · rw [linked.partition_iff, inBlock]
        exact iff_of_false (fun old => isOld old.2.symm)
          fun old => isNew old.2.symm
    · rw [Function.update_of_ne moved]
      split_ifs with isNew isOld
      · rw [List.mem_append, linked.partition_iff, List.mem_singleton]
        simp [moved]
      · rw [(linked.partition_nodup i).mem_erase_iff, linked.partition_iff]
        simp [moved]
      · exact linked.partition_iff q i
  · intro i
    simp only [Automata.moveState]
    split_ifs with isNew isOld
    · refine List.nodup_append.mpr
        ⟨linked.partition_nodup i, List.nodup_singleton s, ?_⟩
      rintro other old _ isMoved rfl
      rw [List.mem_singleton.mp isMoved, linked.partition_iff, inBlock] at old
      exact new (old.2.trans isNew)
    · exact (linked.partition_nodup i).erase s
    · exact linked.partition_nodup i
  · intro q i c
    simp only [Automata.moveState, isActive]
    by_cases moved : q = s
    · subst moved
      rw [Function.update_self]
      split_ifs with here isNew isOld
      · exact iff_of_true
          (List.mem_append_right _ (List.mem_singleton_self q))
          ⟨inside, isNew.symm, here⟩
      · rw [(linked.active_nodup i c).mem_erase_iff]
        exact iff_of_false (fun old => old.1 rfl) fun old => isNew old.2.1.symm
      · rw [linked.active_iff, inBlock]
        exact iff_of_false (fun old => isOld old.2.1.symm)
          fun old => isNew old.2.1.symm
      · rw [linked.active_iff, inBlock]
        exact iff_of_false (fun old => here old.2.2) fun old => here old.2.2
    · rw [Function.update_of_ne moved]
      split_ifs with here isNew isOld
      · rw [List.mem_append, linked.active_iff, List.mem_singleton]
        simp [moved]
      · rw [(linked.active_nodup i c).mem_erase_iff, linked.active_iff]
        simp [moved]
      · exact linked.active_iff q i c
      · exact linked.active_iff q i c
  · intro i c
    simp only [Automata.moveState]
    split_ifs with here isNew isOld
    · refine List.nodup_append.mpr
        ⟨linked.active_nodup i c, List.nodup_singleton s, ?_⟩
      rintro other old _ isMoved rfl
      rw [List.mem_singleton.mp isMoved, linked.active_iff, inBlock] at old
      exact new (old.2.1.trans isNew)
    · exact (linked.active_nodup i c).erase s
    · exact linked.active_nodup i c
    · exact linked.active_nodup i c
  · intro q c i
    simp only [Automata.moveState]
    by_cases moved : q = s ∧ r.active2 s c = some j
    · rcases moved with ⟨rfl, here⟩
      rw [if_pos ⟨rfl, here⟩, if_pos here, Option.some.injEq]
      split_ifs with isNew isOld
      · simp [isNew]
      · rw [(linked.active_nodup i c).mem_erase_iff]
        exact iff_of_false (fun same => isNew same.symm) fun old => old.1 rfl
      · refine iff_of_false (fun same => isNew same.symm) fun old => ?_
        rw [← linked.active2_iff, here, Option.some.injEq] at old
        exact isOld old.symm
    · rw [if_neg moved, linked.active2_iff]
      split_ifs with here isNew isOld
      · rw [List.mem_append, List.mem_singleton]
        exact (or_iff_left fun same => moved ⟨same, here⟩).symm
      · rw [(linked.active_nodup i c).mem_erase_iff]
        exact (and_iff_right fun same => moved ⟨same, here⟩).symm
      · rfl
      · rfl

/-- What moving states leaves alone. -/
theorem foldl_moveState_frame (j : Nat) (list : List Nat) (r : Refinement) :
    (list.foldl (moveState j) r).k = r.k ∧
      (list.foldl (moveState j) r).pending = r.pending ∧
      (list.foldl (moveState j) r).pending2 = r.pending2 := by
  induction list generalizing r with
  | nil => exact ⟨rfl, rfl, rfl⟩
  | cons s list induction => exact induction (moveState j r s)

/-- Moving a list of states. -/
theorem Linked.foldl_moveState {j : Nat} {list : List Nat}
    (linked : Linked T r) (nodup : list.Nodup)
    (inBlock : ∀ s ∈ list, s < T.size ∧ r.block s = j) (new : j ≠ r.k) :
    Linked T (list.foldl (Automata.moveState j) r) ∧
      ∀ q, (list.foldl (Automata.moveState j) r).block q =
        if q ∈ list then r.k else r.block q := by
  induction list generalizing r with
  | nil => exact ⟨linked, fun q => (if_neg List.not_mem_nil).symm⟩
  | cons s list induction =>
      rcases List.nodup_cons.mp nodup with ⟨fresh, others⟩
      rcases List.forall_mem_cons.mp inBlock with ⟨⟨inside, here⟩, later⟩
      have stays : ∀ t ∈ list, t < T.size ∧
          (Automata.moveState j r s).block t = j := by
        intro t member
        refine ⟨(later t member).1, ?_⟩
        have different : t ≠ s := by
          rintro rfl
          exact fresh member
        exact (Function.update_of_ne different _ _).trans (later t member).2
      rcases induction (linked.moveState inside here new) others stays new with
        ⟨after, blocks⟩
      refine ⟨after, fun q => ?_⟩
      rw [List.foldl_cons, blocks]
      simp only [Automata.moveState, List.mem_cons]
      by_cases same : q = s
      · subst same
        simp [fresh]
      · simp [same]

end Linked

/-! ## The states to be split off -/

section FindSplit

/-- What the loop that finds the states to be split off keeps. -/
structure SplitSets.Sound (block : Nat → Nat) (seen : List Nat)
    (sets : SplitSets) : Prop where
  nodup : sets.split.Nodup
  mem_split : ∀ s, s ∈ sets.split ↔ s ∈ seen
  splitblock : ∀ j, sets.splitblock j =
    sets.split.filter fun s => block s = j
  refine_nodup : sets.refine.Nodup
  mem_refine : ∀ j, j ∈ sets.refine ↔ ∃ s ∈ seen, block s = j

theorem SplitSets.Sound.add {block : Nat → Nat} {seen : List Nat}
    {sets : SplitSets} (sound : sets.Sound block seen) (s : Nat) :
    (sets.add block s).Sound block (seen ++ [s]) := by
  by_cases known : s ∈ sets.split
  · have old := (sound.mem_split s).mp known
    rw [SplitSets.add, if_pos known]
    refine ⟨sound.nodup, fun t => ?_, sound.splitblock, sound.refine_nodup,
      fun j => ?_⟩
    · rw [sound.mem_split, List.mem_append, List.mem_singleton]
      exact ⟨Or.inl, fun member => member.elim id fun same => same ▸ old⟩
    · rw [sound.mem_refine]
      simp only [List.mem_append, List.mem_singleton]
      constructor
      · rintro ⟨t, member, isBlock⟩
        exact ⟨t, Or.inl member, isBlock⟩
      · rintro ⟨t, member | rfl, isBlock⟩
        · exact ⟨t, member, isBlock⟩
        · exact ⟨t, old, isBlock⟩
  · rw [SplitSets.add, if_neg known]
    constructor
    · refine List.nodup_append.mpr
        ⟨sound.nodup, List.nodup_singleton s, ?_⟩
      rintro t member _ isNew rfl
      exact known (List.mem_singleton.mp isNew ▸ member)
    · intro t
      rw [List.mem_append, List.mem_append, sound.mem_split]
    · intro j
      rw [List.filter_append, List.filter_singleton]
      dsimp only
      by_cases same : block s = j
      · subst same
        rw [Function.update_self, sound.splitblock]
        simp
      · rw [Function.update_of_ne (Ne.symm same), sound.splitblock]
        simp [same]
    · dsimp only
      split_ifs with old
      · exact sound.refine_nodup
      · refine List.nodup_append.mpr
          ⟨sound.refine_nodup, List.nodup_singleton _, ?_⟩
        rintro t member _ isNew rfl
        exact old (List.mem_singleton.mp isNew ▸ member)
    · intro j
      have grown : (∃ t ∈ seen ++ [s], block t = j) ↔
          (∃ t ∈ seen, block t = j) ∨ block s = j := by
        simp only [List.mem_append, List.mem_singleton, or_and_right,
          exists_or, exists_eq_left]
      rw [grown, ← sound.mem_refine]
      dsimp only
      split_ifs with old
      · exact ⟨Or.inl, fun member => member.elim id fun same => same ▸ old⟩
      · rw [List.mem_append, List.mem_singleton, eq_comm]

theorem SplitSets.Sound.foldl_add {block : Nat → Nat} {seen list : List Nat}
    {sets : SplitSets} (sound : sets.Sound block seen) :
    (list.foldl (SplitSets.add block) sets).Sound block (seen ++ list) := by
  induction list generalizing seen sets with
  | nil => rwa [List.append_nil]
  | cons s list induction =>
      rw [List.append_cons]
      exact induction (sound.add s)

/-- What is split off is what the letter leads into the block. -/
theorem findSplit_spec {T : StateTable} {r : Refinement}
    (linked : Linked T r) {p x : Nat} (inside : x < T.letters) :
    ∃ seen, (findSplit T r p x).Sound r.block seen ∧
      ∀ s, s ∈ seen ↔ s < T.size ∧ r.block (T.delta s x) = p := by
  have empty : SplitSets.Sound r.block [] ⟨[], fun _ => [], []⟩ :=
    ⟨List.nodup_nil, fun _ => Iff.rfl, fun _ => rfl, List.nodup_nil,
      fun j => by simp⟩
  refine ⟨_, empty.foldl_add, fun s => ?_⟩
  rw [List.nil_append]
  simp only [List.mem_flatMap, linked.active_iff, mem_reverse]
  constructor
  · rintro ⟨q, ⟨_, inBlock, _⟩, bound, rfl⟩
    exact ⟨bound, inBlock⟩
  · rintro ⟨bound, inBlock⟩
    refine ⟨_, ⟨T.delta_lt s x bound inside, inBlock, inside, ?_⟩, bound, rfl⟩
    exact List.ne_nil_of_mem (mem_reverse.mpr ⟨bound, rfl⟩)

end FindSplit

end SafetyGames.Automata
