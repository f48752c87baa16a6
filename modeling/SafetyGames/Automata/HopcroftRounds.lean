import SafetyGames.Automata.Hopcroft

/-!
# The rounds of the refinement loop

Every round splits the blocks by one pending pair, keeps equivalent states
together and never uses more blocks than there are states.  The loop therefore
ends, without an index out of bounds, with the classes of equivalent states.
-/

namespace SafetyGames.Automata

open SafetyGames.PartitionRefinement

variable (T : StateTable)

/-- Two states of the table are equivalent. -/
def StateTable.Same (p q : Nat) : Prop :=
  Equivalent {x | x < T.letters} T.delta (fun q => T.accept q = true) p q

/-- What holds between two rounds. -/
structure Consistent (r : Refinement) : Prop where
  linked : Linked T r
  block_lt : ∀ q < T.size, r.block q < r.k
  k_le : r.k ≤ T.size
  pending2_iff : ∀ x j, r.pending2 x j = true ↔ (j, x) ∈ r.pending
  pending_nodup : r.pending.Nodup
  pending_lt : ∀ pair ∈ r.pending, pair.1 < r.k ∧ pair.2 < T.letters
  balanced : Balanced {q | q < T.size} {x | x < T.letters} T.delta r.block
    fun j x => (j, x) ∈ r.pending
  coarse : Coarse {q | q < T.size} {x | x < T.letters} T.delta
    (fun q => T.accept q = true) r.block
  respects : Respects {q | q < T.size} (fun q => T.accept q = true) r.block
  nonempty : (∃ p < T.size, ∃ q < T.size, ¬ T.Same p q) →
    ∀ j < r.k, ∃ q < T.size, r.block q = j

/-- What holds within a round: the blocks done are split by the states in
`moved`, the others are as at the start of the round. -/
structure Refining (before : Refinement) (moved : Nat → Prop) (done : List Nat)
    (r : Refinement) : Prop where
  linked : Linked T r
  block_lt : ∀ q < T.size, r.block q < r.k
  k_le : r.k ≤ T.size
  pending2_iff : ∀ x j, r.pending2 x j = true ↔ (j, x) ∈ r.pending
  pending_nodup : r.pending.Nodup
  pending_lt : ∀ pair ∈ r.pending, pair.1 < r.k ∧ pair.2 < T.letters
  finer : ∀ p < T.size, ∀ q < T.size, r.block p = r.block q →
    before.block p = before.block q ∧
      (before.block p ∈ done → (moved p ↔ moved q))
  coarser : ∀ p < T.size, ∀ q < T.size, before.block p = before.block q →
    (moved p ↔ moved q) → r.block p = r.block q
  untouched : ∀ q < T.size, before.block q ∉ done → r.block q = before.block q
  kept : ∀ q < T.size, ∀ x, (before.block q, x) ∈ before.pending →
    (r.block q, x) ∈ r.pending
  halves : ∀ p < T.size, ∀ q < T.size, before.block p = before.block q →
    r.block p ≠ r.block q → ∀ x < T.letters,
      (r.block p, x) ∈ r.pending ∨ (r.block q, x) ∈ r.pending
  count : r.pending.length + T.letters * before.k =
    before.pending.length + T.letters * r.k
  nonempty : (∃ p < T.size, ∃ q < T.size, ¬ T.Same p q) →
    ∀ j < r.k, ∃ q < T.size, r.block q = j

variable {T}

/-! ## One block -/

section Block

variable {before r : Refinement} {moved : Nat → Prop} {done : List Nat}
  {j : Nat}

/-- A block that is not done is as at the start of the round. -/
theorem Refining.block_iff (refining : Refining T before moved done r)
    (fresh : j ∉ done) (occurs : ∃ s < T.size, before.block s = j)
    {q : Nat} (inside : q < T.size) :
    r.block q = j ↔ before.block q = j := by
  constructor
  · intro here
    rcases occurs with ⟨s, bound, isBlock⟩
    have same := refining.untouched s bound (isBlock ▸ fresh)
    have old := (refining.finer q inside s bound
      (here.trans (same.trans isBlock).symm)).1
    exact old.trans isBlock
  · intro old
    exact (refining.untouched q inside (old ▸ fresh)).trans old

/-- Two different states of one block leave room for another block. -/
theorem k_lt_of_two (blocks : ∀ i < r.k, ∃ q < T.size, r.block q = i)
    {s t : Nat} (inside : s < T.size) (insideT : t < T.size) (different : s ≠ t)
    (same : r.block s = r.block t) : r.k < T.size := by
  have covered : Finset.range r.k ⊆
      ((Finset.range T.size).erase t).image r.block := by
    intro i member
    rcases blocks i (Finset.mem_range.mp member) with ⟨q, bound, isBlock⟩
    by_cases isT : q = t
    · exact Finset.mem_image.mpr ⟨s, Finset.mem_erase.mpr
        ⟨different, Finset.mem_range.mpr inside⟩,
        same.trans (isT ▸ isBlock)⟩
    · exact Finset.mem_image.mpr ⟨q, Finset.mem_erase.mpr
        ⟨isT, Finset.mem_range.mpr bound⟩, isBlock⟩
  have small := (Finset.card_le_card covered).trans Finset.card_image_le
  rw [Finset.card_range, Finset.card_erase_of_mem
    (Finset.mem_range.mpr insideT), Finset.card_range] at small
  omega

/-- The half that becomes pending is one of the two, and not pending yet. -/
theorem pendingHalf_eq (c : Nat) :
    pendingHalf j r c = j ∧ r.pending2 c j = false ∨ pendingHalf j r c = r.k := by
  rw [pendingHalf]
  split_ifs with free
  · exact Or.inl ⟨rfl, free.1⟩
  · exact Or.inr rfl

theorem Linked.updatePending (linked : Linked T r) :
    Linked T (Automata.updatePending T j r) :=
  ⟨linked.partition_iff, linked.partition_nodup, linked.active_iff,
    linked.active_nodup, linked.active2_iff⟩

variable {after : Refinement} {sb : List Nat} {half : Nat → Nat}

/-- What a split does: the states of `sb` leave the block `j` for a new one, and
one of the two halves becomes pending for every letter. -/
structure Splitting (T : StateTable) (r after : Refinement) (j : Nat)
    (sb : List Nat) (half : Nat → Nat) : Prop where
  linked : Linked T after
  block_eq : ∀ q, after.block q = if q ∈ sb then r.k else r.block q
  k_eq : after.k = r.k + 1
  half_eq : ∀ c, half c = j ∧ r.pending2 c j = false ∨ half c = r.k
  pending_eq : after.pending =
    r.pending ++ (List.range T.letters).map fun c => (half c, c)
  pending2_iff : ∀ x i, after.pending2 x i = true ↔
    r.pending2 x i = true ∨ x < T.letters ∧ i = half x

theorem splitting_updatePending (linked : Linked T r) (nodup : sb.Nodup)
    (inBlock : ∀ q ∈ sb, q < T.size ∧ r.block q = j) (new : j ≠ r.k) :
    Splitting T r (updatePending T j (sb.foldl (moveState j) r)) j sb
      (pendingHalf j (sb.foldl (moveState j) r)) := by
  rcases linked.foldl_moveState nodup inBlock new with ⟨further, block_eq⟩
  rcases foldl_moveState_frame j sb r with ⟨k_eq, pending_eq, pending2_eq⟩
  refine ⟨further.updatePending, block_eq, congrArg (· + 1) k_eq, ?_, ?_, ?_⟩
  · intro c
    rw [← pending2_eq, ← k_eq]
    exact pendingHalf_eq c
  · rw [updatePending, pending_eq]
  · intro x i
    rw [updatePending, pending2_eq]
    simp only [Bool.or_eq_true, Bool.and_eq_true, decide_eq_true_eq]
    exact or_comm

namespace Splitting

variable (splitting : Splitting T r after j sb half)
include splitting

theorem mem_pending {pair : Nat × Nat} :
    pair ∈ after.pending ↔ pair ∈ r.pending ∨
      pair.2 < T.letters ∧ pair.1 = half pair.2 := by
  rw [splitting.pending_eq, List.mem_append, List.mem_map]
  refine or_congr_right ?_
  constructor
  · rintro ⟨c, member, rfl⟩
    exact ⟨List.mem_range.mp member, rfl⟩
  · rintro ⟨inside, isHalf⟩
    exact ⟨pair.2, List.mem_range.mpr inside, Prod.ext isHalf.symm rfl⟩

/-- A state that leaves the block and one that stays in it. -/
theorem halves_apart {p q x : Nat} (isMoved : p ∈ sb) (isLeft : q ∉ sb)
    (hereQ : r.block q = j) (inside : x < T.letters) :
    (after.block p, x) ∈ after.pending ∨
      (after.block q, x) ∈ after.pending := by
  rw [splitting.mem_pending, splitting.mem_pending, splitting.block_eq,
    splitting.block_eq, if_pos isMoved, if_neg isLeft, hereQ]
  rcases splitting.half_eq x with ⟨isHalf, _⟩ | isHalf
  · exact Or.inr (Or.inr ⟨inside, isHalf.symm⟩)
  · exact Or.inl (Or.inr ⟨inside, isHalf.symm⟩)

variable (refining : Refining T before moved done r)
include refining

theorem block_lt {q : Nat} (bound : q < T.size) : after.block q < after.k := by
  rw [splitting.block_eq, splitting.k_eq]
  split_ifs
  · exact Nat.lt_succ_self _
  · exact Nat.lt_succ_of_lt (refining.block_lt q bound)

theorem pending2_iff_mem (x i : Nat) :
    after.pending2 x i = true ↔ (i, x) ∈ after.pending := by
  rw [splitting.pending2_iff, splitting.mem_pending, refining.pending2_iff]

theorem pending_nodup : after.pending.Nodup := by
  rw [splitting.pending_eq]
  refine List.nodup_append.mpr ⟨refining.pending_nodup,
    List.nodup_range.map fun c d same => congrArg Prod.snd same, ?_⟩
  rintro pair old _ isNew rfl
  rcases List.mem_map.mp isNew with ⟨c, _, rfl⟩
  rcases splitting.half_eq c with ⟨isHalf, free⟩ | isHalf
  · rw [isHalf, ← refining.pending2_iff, free] at old
    exact Bool.false_ne_true old
  · have below := (refining.pending_lt _ old).1
    rw [isHalf] at below
    exact lt_irrefl _ below

theorem pending_lt (here : j < r.k) {pair : Nat × Nat}
    (member : pair ∈ after.pending) : pair.1 < after.k ∧ pair.2 < T.letters := by
  rw [splitting.k_eq]
  rcases splitting.mem_pending.mp member with old | ⟨inside, isHalf⟩
  · exact ⟨Nat.lt_succ_of_lt (refining.pending_lt pair old).1,
      (refining.pending_lt pair old).2⟩
  · refine ⟨?_, inside⟩
    rcases splitting.half_eq pair.2 with ⟨same, _⟩ | same
    · rw [isHalf, same]
      exact Nat.lt_succ_of_lt here
    · rw [isHalf, same]
      exact Nat.lt_succ_self _

theorem count : after.pending.length + T.letters * before.k =
    before.pending.length + T.letters * after.k := by
  rw [splitting.pending_eq, splitting.k_eq, List.length_append, List.length_map,
    List.length_range, Nat.mul_succ]
  have counted := refining.count
  omega

/-- A pending pair is pending for both halves. -/
theorem kept (inBlock : ∀ q ∈ sb, r.block q = j) {q x : Nat}
    (bound : q < T.size) (wasPending : (before.block q, x) ∈ before.pending) :
    (after.block q, x) ∈ after.pending := by
  have old := refining.kept q bound x wasPending
  rw [splitting.block_eq, splitting.mem_pending]
  split_ifs with isMoved
  · refine Or.inr ⟨(refining.pending_lt _ old).2, ?_⟩
    rw [inBlock q isMoved, ← refining.pending2_iff] at old
    rcases splitting.half_eq x with ⟨_, free⟩ | isHalf
    · exact absurd (free.symm.trans old) Bool.false_ne_true
    · exact isHalf.symm
  · exact Or.inl old

/-- Both halves of the block have a state. -/
theorem nonempty (inBlock : ∀ q ∈ sb, r.block q = j) {s t : Nat}
    (insideS : s < T.size) (inSplit : s ∈ sb) (insideT : t < T.size)
    (isLeft : t ∉ sb) (hereT : r.block t = j)
    (someDifferent : ∃ p < T.size, ∃ q < T.size, ¬ T.Same p q) {i : Nat}
    (bound : i < after.k) : ∃ q < T.size, after.block q = i := by
  rw [splitting.k_eq] at bound
  rcases Nat.lt_succ_iff_lt_or_eq.mp bound with older | isNew
  · rcases refining.nonempty someDifferent i older with ⟨q, inside, isBlock⟩
    by_cases isMoved : q ∈ sb
    · refine ⟨t, insideT, ?_⟩
      rw [splitting.block_eq, if_neg isLeft, hereT, ← isBlock, inBlock q isMoved]
    · exact ⟨q, inside, by rw [splitting.block_eq, if_neg isMoved, isBlock]⟩
  · exact ⟨s, insideS, by rw [splitting.block_eq, if_pos inSplit, isNew]⟩

variable (mem_sb : ∀ q, q ∈ sb ↔ q < T.size ∧ moved q ∧ before.block q = j)
include mem_sb

/-- States that stay together were together, and the split of `j` agrees. -/
theorem finer {p q : Nat} (boundP : p < T.size) (boundQ : q < T.size)
    (same : after.block p = after.block q) :
    before.block p = before.block q ∧
      (before.block p ∈ done ++ [j] → (moved p ↔ moved q)) := by
  rw [splitting.block_eq, splitting.block_eq] at same
  split_ifs at same with inP inQ inQ
  · rcases (mem_sb p).mp inP with ⟨_, movedP, blockP⟩
    rcases (mem_sb q).mp inQ with ⟨_, movedQ, blockQ⟩
    exact ⟨blockP.trans blockQ.symm, fun _ => iff_of_true movedP movedQ⟩
  · exact absurd (same ▸ refining.block_lt q boundQ) (lt_irrefl _)
  · exact absurd (same.symm ▸ refining.block_lt p boundP) (lt_irrefl _)
  · rcases refining.finer p boundP q boundQ same with ⟨old, agree⟩
    refine ⟨old, fun member => ?_⟩
    rcases List.mem_append.mp member with inDone | isJ
    · exact agree inDone
    · have blockP := List.mem_singleton.mp isJ
      exact iff_of_false
        (fun movedP => inP ((mem_sb p).mpr ⟨boundP, movedP, blockP⟩))
        (fun movedQ => inQ ((mem_sb q).mpr
          ⟨boundQ, movedQ, old.symm.trans blockP⟩))

theorem coarser {p q : Nat} (boundP : p < T.size) (boundQ : q < T.size)
    (old : before.block p = before.block q) (agree : moved p ↔ moved q) :
    after.block p = after.block q := by
  have both : p ∈ sb ↔ q ∈ sb := by
    rw [mem_sb, mem_sb, old, agree]
    simp [boundP, boundQ]
  rw [splitting.block_eq, splitting.block_eq]
  split_ifs with inP inQ inQ
  · rfl
  · exact absurd (both.mp inP) inQ
  · exact absurd (both.mpr inQ) inP
  · exact refining.coarser p boundP q boundQ old agree

theorem untouched {q : Nat} (bound : q < T.size)
    (outside : before.block q ∉ done ++ [j]) :
    after.block q = before.block q := by
  have notMoved : q ∉ sb := by
    intro member
    exact outside (List.mem_append_right _
      (List.mem_singleton.mpr ((mem_sb q).mp member).2.2))
  rw [splitting.block_eq, if_neg notMoved]
  exact refining.untouched q bound
    fun inDone => outside (List.mem_append_left _ inDone)

theorem halves (inBlock : ∀ q < T.size, before.block q = j → r.block q = j)
    {p q x : Nat} (boundP : p < T.size) (boundQ : q < T.size)
    (old : before.block p = before.block q)
    (apart : after.block p ≠ after.block q) (inside : x < T.letters) :
    (after.block p, x) ∈ after.pending ∨
      (after.block q, x) ∈ after.pending := by
  by_cases inP : p ∈ sb
  · have blockP := ((mem_sb p).mp inP).2.2
    by_cases inQ : q ∈ sb
    · rw [splitting.block_eq, splitting.block_eq, if_pos inP, if_pos inQ] at apart
      exact absurd rfl apart
    · exact splitting.halves_apart inP inQ
        (inBlock q boundQ (old.symm.trans blockP)) inside
  · by_cases inQ : q ∈ sb
    · have blockQ := ((mem_sb q).mp inQ).2.2
      exact (splitting.halves_apart inQ inP
        (inBlock p boundP (old.trans blockQ)) inside).symm
    · rw [splitting.block_eq, splitting.block_eq, if_neg inP, if_neg inQ] at apart
      rw [splitting.mem_pending, splitting.mem_pending, splitting.block_eq,
        splitting.block_eq, if_neg inP, if_neg inQ]
      exact (refining.halves p boundP q boundQ old apart x inside).imp
        Or.inl Or.inl

end Splitting

/-- A block that is really split. -/
theorem Refining.splitBlock (refining : Refining T before moved done r)
    (fresh : j ∉ done) (nodup : sb.Nodup)
    (mem_sb : ∀ q, q ∈ sb ↔ q < T.size ∧ moved q ∧ before.block q = j)
    {s t : Nat} (inSplit : s ∈ sb) (insideT : t < T.size)
    (blockT : before.block t = j) (stays : ¬ moved t)
    (different : ¬ T.Same s t) :
    r.k < T.size ∧ Refining T before moved (done ++ [j])
      (updatePending T j (sb.foldl (moveState j) r)) := by
  rcases (mem_sb s).mp inSplit with ⟨insideS, movedS, blockS⟩
  have block_iff : ∀ {q}, q < T.size → (r.block q = j ↔ before.block q = j) :=
    fun bound => refining.block_iff fresh ⟨s, insideS, blockS⟩ bound
  have hereS := (block_iff insideS).mpr blockS
  have hereT := (block_iff insideT).mpr blockT
  have isBlock : j < r.k := hereS ▸ refining.block_lt s insideS
  have blocks := refining.nonempty ⟨s, insideS, t, insideT, different⟩
  have apart : s ≠ t := by
    rintro rfl
    exact stays movedS
  have room := k_lt_of_two blocks insideS insideT apart (hereS.trans hereT.symm)
  have inBlock : ∀ q ∈ sb, q < T.size ∧ r.block q = j := by
    intro q member
    rcases (mem_sb q).mp member with ⟨bound, _, old⟩
    exact ⟨bound, (block_iff bound).mpr old⟩
  have isHere := fun q member => (inBlock q member).2
  have isLeft : t ∉ sb := fun member => stays ((mem_sb t).mp member).2.1
  have splitting :=
    splitting_updatePending refining.linked nodup inBlock isBlock.ne
  exact ⟨room, {
    linked := splitting.linked
    block_lt := fun _ => splitting.block_lt refining
    k_le := splitting.k_eq.trans_le room
    pending2_iff := splitting.pending2_iff_mem refining
    pending_nodup := splitting.pending_nodup refining
    pending_lt := fun _ => splitting.pending_lt refining isBlock
    finer := fun _ boundP _ => splitting.finer refining mem_sb boundP
    coarser := fun _ boundP _ => splitting.coarser refining mem_sb boundP
    untouched := fun _ => splitting.untouched refining mem_sb
    kept := fun _ bound _ => splitting.kept refining isHere bound
    halves := fun _ boundP _ boundQ old apart _ =>
      splitting.halves refining mem_sb (fun _ bound => (block_iff bound).mpr)
        boundP boundQ old apart
    count := splitting.count refining
    nonempty := fun someDifferent _ => splitting.nonempty refining isHere insideS
      inSplit insideT isLeft hereT someDifferent }⟩

/-- A block all of whose states are in the split stays as it is. -/
theorem Refining.keepBlock (refining : Refining T before moved done r)
    (whole : ∀ q < T.size, before.block q = j → moved q) :
    Refining T before moved (done ++ [j]) r where
  linked := refining.linked
  block_lt := refining.block_lt
  k_le := refining.k_le
  pending2_iff := refining.pending2_iff
  pending_nodup := refining.pending_nodup
  pending_lt := refining.pending_lt
  finer := by
    intro p boundP q boundQ same
    rcases refining.finer p boundP q boundQ same with ⟨old, agree⟩
    refine ⟨old, fun member => ?_⟩
    rcases List.mem_append.mp member with inDone | isJ
    · exact agree inDone
    · have blockP := List.mem_singleton.mp isJ
      exact iff_of_true (whole p boundP blockP)
        (whole q boundQ (old.symm.trans blockP))
  coarser := refining.coarser
  untouched := fun q bound outside => refining.untouched q bound
    fun inDone => outside (List.mem_append_left _ inDone)
  kept := refining.kept
  halves := refining.halves
  count := refining.count
  nonempty := refining.nonempty

/-- The body of the loop over the blocks to be refined keeps the invariant. -/
theorem Refining.refineBlock {sets : SplitSets} {seen : List Nat}
    (refining : Refining T before moved done r)
    (sound : sets.Sound before.block seen)
    (mem_seen : ∀ s, s ∈ seen ↔ s < T.size ∧ moved s)
    (separates : ∀ s < T.size, ∀ t < T.size, before.block s = before.block t →
      moved s → ¬ moved t → ¬ T.Same s t)
    (fresh : j ∉ done) (occurs : j ∈ sets.refine) :
    ∃ r', Automata.refineBlock T sets r j = some r' ∧
      Refining T before moved (done ++ [j]) r' := by
  rcases (sound.mem_refine j).mp occurs with ⟨s, inSeen, blockS⟩
  rcases (mem_seen s).mp inSeen with ⟨insideS, movedS⟩
  have nodup : (sets.splitblock j).Nodup := by
    rw [sound.splitblock]
    exact sound.nodup.filter _
  have mem_sb : ∀ q, q ∈ sets.splitblock j ↔
      q < T.size ∧ moved q ∧ before.block q = j := by
    intro q
    rw [sound.splitblock, List.mem_filter, sound.mem_split, mem_seen,
      decide_eq_true_eq, and_assoc]
  have mem_partition : ∀ q, q ∈ r.partition j ↔
      q < T.size ∧ before.block q = j := by
    intro q
    rw [refining.linked.partition_iff]
    exact and_congr_right fun bound =>
      refining.block_iff fresh ⟨s, insideS, blockS⟩ bound
  have included : sets.splitblock j ⊆ r.partition j := by
    intro q member
    rcases (mem_sb q).mp member with ⟨bound, _, isBlock⟩
    exact (mem_partition q).mpr ⟨bound, isBlock⟩
  have inSplit : s ∈ sets.splitblock j := (mem_sb s).mpr ⟨insideS, movedS, blockS⟩
  by_cases proper : (sets.splitblock j).length < (r.partition j).length
  · have someLeft : ∃ t ∈ r.partition j, t ∉ sets.splitblock j := by
      by_contra none
      have all : r.partition j ⊆ sets.splitblock j := fun t inPartition =>
        by_contra fun left => none ⟨t, inPartition, left⟩
      have bound := ((refining.linked.partition_nodup j).subperm all).length_le
      omega
    rcases someLeft with ⟨t, inPartition, left⟩
    rcases (mem_partition t).mp inPartition with ⟨insideT, blockT⟩
    have stays : ¬ moved t := fun movedT =>
      left ((mem_sb t).mpr ⟨insideT, movedT, blockT⟩)
    rcases refining.splitBlock fresh nodup mem_sb inSplit insideT blockT stays
      (separates s insideS t insideT (blockS.trans blockT.symm) movedS stays)
      with ⟨room, next⟩
    rw [Automata.refineBlock, if_pos proper, if_pos room]
    exact ⟨_, rfl, next⟩
  · rw [Automata.refineBlock, if_neg proper]
    refine ⟨r, rfl, refining.keepBlock fun q bound isBlock => ?_⟩
    have same := (nodup.subperm included).perm_of_length_le (not_lt.mp proper)
    have member := same.mem_iff.mpr ((mem_partition q).mpr ⟨bound, isBlock⟩)
    exact ((mem_sb q).mp member).2.1

/-- The loop over the blocks to be refined. -/
theorem Refining.foldlM_refineBlock {sets : SplitSets} {seen list : List Nat}
    (refining : Refining T before moved done r)
    (sound : sets.Sound before.block seen)
    (mem_seen : ∀ s, s ∈ seen ↔ s < T.size ∧ moved s)
    (separates : ∀ s < T.size, ∀ t < T.size, before.block s = before.block t →
      moved s → ¬ moved t → ¬ T.Same s t)
    (nodup : (done ++ list).Nodup) (occur : ∀ j ∈ list, j ∈ sets.refine) :
    ∃ r', list.foldlM (Automata.refineBlock T sets) r = some r' ∧
      Refining T before moved (done ++ list) r' := by
  induction list generalizing done r with
  | nil => exact ⟨r, rfl, by rwa [List.append_nil]⟩
  | cons j list induction =>
      rcases List.forall_mem_cons.mp occur with ⟨here, others⟩
      have fresh : j ∉ done := fun old =>
        (List.nodup_append.mp nodup).2.2 j old j List.mem_cons_self rfl
      rcases refining.refineBlock sound mem_seen separates fresh here with
        ⟨middle, returned, next⟩
      rw [List.append_cons] at nodup ⊢
      rcases induction next nodup others with ⟨final, returned', rest⟩
      exact ⟨final, by rw [List.foldlM_cons, returned]; exact returned', rest⟩

end Block

/-! ## Whole rounds -/

section Round

variable {r : Refinement}

/-- The word that tells two states apart after a letter, behind that letter. -/
theorem StateTable.Same.next {p q x : Nat} (same : T.Same p q)
    (inside : x < T.letters) : T.Same (T.delta p x) (T.delta q x) :=
  Equivalent.next same inside

theorem Consistent.popPending (consistent : Consistent T r) {p x : Nat}
    {rest : List (Nat × Nat)} (isPending : r.pending = (p, x) :: rest)
    (moved : Nat → Prop) :
    Refining T (Automata.popPending r p x rest) moved []
      (Automata.popPending r p x rest) where
  linked := ⟨consistent.linked.partition_iff, consistent.linked.partition_nodup,
    consistent.linked.active_iff, consistent.linked.active_nodup,
    consistent.linked.active2_iff⟩
  block_lt := consistent.block_lt
  k_le := consistent.k_le
  pending2_iff := by
    have single := (List.nodup_cons.mp (isPending ▸ consistent.pending_nodup)).1
    intro c i
    simp only [Automata.popPending, Bool.and_eq_true, Bool.not_eq_true',
      Bool.and_eq_false_iff, decide_eq_false_iff_not, consistent.pending2_iff,
      isPending, List.mem_cons, Prod.mk.injEq]
    constructor
    · rintro ⟨other, ⟨isP, isX⟩ | later⟩
      · exact absurd other (by simp [isP, isX])
      · exact later
    · intro later
      refine ⟨?_, Or.inr later⟩
      by_contra both
      rw [not_or, not_not, not_not] at both
      rw [both.1, both.2] at later
      exact single later
  pending_nodup := (List.nodup_cons.mp (isPending ▸ consistent.pending_nodup)).2
  pending_lt := fun pair member => consistent.pending_lt pair
    (isPending ▸ List.mem_cons_of_mem _ member)
  finer := fun _ _ _ _ same => ⟨same, fun none => absurd none List.not_mem_nil⟩
  coarser := fun _ _ _ _ same _ => same
  untouched := fun _ _ _ => rfl
  kept := fun _ _ _ => id
  halves := fun _ _ _ _ same different => absurd same different
  count := rfl
  nonempty := consistent.nonempty

/-- A round keeps the invariant and uses one pair up. -/
theorem Consistent.processPair (consistent : Consistent T r) {p x : Nat}
    {rest : List (Nat × Nat)} (isPending : r.pending = (p, x) :: rest) :
    ∃ r', Automata.processPair T r p x rest = some r' ∧ Consistent T r' ∧
      r'.pending.length + T.letters * r.k =
        rest.length + T.letters * r'.k := by
  have inside : x < T.letters :=
    (consistent.pending_lt (p, x) (isPending ▸ List.mem_cons_self)).2
  have closed : ∀ q ∈ {q | q < T.size}, ∀ x ∈ {x | x < T.letters},
      T.delta q x ∈ {q | q < T.size} :=
    fun q bound x inside => T.delta_lt q x bound inside
  rcases findSplit_spec consistent.linked inside with ⟨seen, sound, mem_seen⟩
  have separates : ∀ s < T.size, ∀ t < T.size, r.block s = r.block t →
      r.block (T.delta s x) = p → ¬ r.block (T.delta t x) = p →
        ¬ T.Same s t := by
    intro s boundS t boundT _ movedS stays same
    refine stays (Eq.trans ?_ movedS)
    exact (consistent.coarse _ (closed s boundS x inside) _
      (closed t boundT x inside) (same.next inside)).symm
  rcases (consistent.popPending isPending
      fun s => r.block (T.delta s x) = p).foldlM_refineBlock sound mem_seen
      separates sound.refine_nodup fun _ => id with ⟨r', returned, refined⟩
  rw [List.nil_append] at refined
  have covered : ∀ q < T.size, r.block (T.delta q x) = p →
      r.block q ∈ (findSplit T r p x).refine := fun q bound isMoved =>
    (sound.mem_refine _).mpr ⟨q, (mem_seen q).mpr ⟨bound, isMoved⟩, rfl⟩
  have split : Split {q | q < T.size} T.delta r.block r'.block p x := by
    constructor
    · intro u boundU v boundV same
      rcases refined.finer u boundU v boundV same with ⟨old, agree⟩
      refine ⟨old, ?_⟩
      by_cases member : r.block u ∈ (findSplit T r p x).refine
      · exact agree member
      · refine iff_of_false (fun isMoved => member (covered u boundU isMoved))
          fun isMoved => member ?_
        have other := covered v boundV isMoved
        exact old.symm ▸ other
    · exact fun u boundU v boundV => refined.coarser u boundU v boundV
  refine ⟨r', returned, ?_, refined.count⟩
  refine ⟨refined.linked, refined.block_lt, refined.k_le,
    refined.pending2_iff, refined.pending_nodup, refined.pending_lt, ?_,
    consistent.coarse.split closed inside split,
    consistent.respects.split split, refined.nonempty⟩
  refine consistent.balanced.split closed split ?_ refined.halves
  intro q bound y wasPending other
  refine refined.kept q bound y ?_
  rw [isPending] at wasPending
  rcases List.mem_cons.mp wasPending with isFirst | later
  · rcases Prod.mk.injEq .. ▸ isFirst with ⟨isP, isX⟩
    exact absurd isX (other isP)
  · exact later

/-- The loop ends when every pair is used, with the classes of the states. -/
theorem Consistent.processPending {fuel : Nat} (consistent : Consistent T r)
    (enough : r.pending.length + T.letters * T.size ≤
      fuel + T.letters * r.k) :
    ∃ r', Automata.processPending T fuel r = some r' ∧ Consistent T r' ∧
      r'.pending = [] := by
  induction fuel generalizing r with
  | zero =>
      have bound := Nat.mul_le_mul_left T.letters consistent.k_le
      have none : r.pending = [] := List.length_eq_zero_iff.mp (by omega)
      exact ⟨r, if_pos none, consistent, none⟩
  | succ fuel induction =>
      rw [Automata.processPending]
      cases isPending : r.pending with
      | nil => exact ⟨r, rfl, consistent, isPending⟩
      | cons pair rest =>
          rcases pair with ⟨p, x⟩
          rcases consistent.processPair isPending with
            ⟨middle, returned, next, count⟩
          rw [isPending, List.length_cons] at enough
          rcases induction next (by omega) with ⟨final, rest, done⟩
          refine ⟨final, ?_, done⟩
          dsimp only
          rw [returned]
          exact rest

end Round

/-! ## The first partition -/

section First

theorem firstBlock_lt (q : Nat) : T.firstBlock q < 2 := by
  rw [StateTable.firstBlock]
  split_ifs <;> decide

theorem firstPending_lt (x : Nat) : T.firstPending x < 2 := by
  rw [StateTable.firstPending]
  split_ifs <;> decide

theorem firstBlock_eq_iff {p q : Nat} :
    T.firstBlock p = T.firstBlock q ↔ (T.accept p = true ↔ T.accept q = true) := by
  rw [StateTable.firstBlock, StateTable.firstBlock]
  cases T.accept p <;> cases T.accept q <;> simp

/-- States that agree on acceptance everywhere are equivalent. -/
theorem same_of_uniform {uniform : Prop}
    (all : ∀ q < T.size, T.accept q = true ↔ uniform) {p q : Nat}
    (insideP : p < T.size) (insideQ : q < T.size) : T.Same p q := by
  intro word
  induction word generalizing p q with
  | nil => exact fun _ => (all p insideP).trans (all q insideQ).symm
  | cons x word induction =>
      intro inLetters
      rcases List.forall_mem_cons.mp inLetters with ⟨inside, others⟩
      exact induction (T.delta_lt p x insideP inside)
        (T.delta_lt q x insideQ inside) others

/-- The arrays in front of the loop are consistent if there are two states. -/
theorem consistent_start (two : 2 ≤ T.size) : Consistent T T.start where
  linked := linked_start
  block_lt := fun q _ => firstBlock_lt q
  k_le := two
  pending2_iff := by
    intro x j
    simp only [StateTable.start, Bool.and_eq_true, decide_eq_true_eq,
      List.mem_map, List.mem_range, Prod.mk.injEq]
    constructor
    · rintro ⟨inside, isFirst⟩
      exact ⟨x, inside, isFirst.symm, rfl⟩
    · rintro ⟨_, inside, rfl, rfl⟩
      exact ⟨inside, rfl⟩
  pending_nodup := List.nodup_range.map fun x y same => congrArg Prod.snd same
  pending_lt := by
    intro pair member
    rcases List.mem_map.mp member with ⟨x, inside, rfl⟩
    exact ⟨firstPending_lt x, List.mem_range.mp inside⟩
  balanced := by
    intro p boundP q boundQ _ x inside different
    have first := @firstBlock_lt T (T.delta p x)
    have second := @firstBlock_lt T (T.delta q x)
    have third := @firstPending_lt T x
    have known : ∀ j, j = T.firstPending x → (j, x) ∈ T.start.pending := by
      rintro j rfl
      exact List.mem_map.mpr ⟨x, List.mem_range.mpr inside, rfl⟩
    change T.firstBlock _ ≠ T.firstBlock _ at different
    by_cases isFirst : T.firstBlock (T.delta p x) = T.firstPending x
    · exact Or.inl (known _ isFirst)
    · refine Or.inr (known _ ?_)
      change T.firstBlock (T.delta q x) = T.firstPending x
      omega
  coarse := fun p _ q _ same => firstBlock_eq_iff.mpr same.accept_iff
  respects := fun p _ q _ same => firstBlock_eq_iff.mp same
  nonempty := by
    rintro ⟨p, boundP, q, boundQ, different⟩ j bound
    by_contra none
    refine different (@same_of_uniform T (j = 1) (fun s inside => ?_) p q boundP
      boundQ)
    have away : T.firstBlock s ≠ j := fun isBlock => none ⟨s, inside, isBlock⟩
    have small := @firstBlock_lt T s
    change j < 2 at bound
    rw [StateTable.firstBlock] at away
    split_ifs at away with accepts
    · exact iff_of_true accepts (by omega)
    · exact iff_of_false accepts (by omega)

/-- When nothing is pending the blocks are the classes of equivalent states. -/
theorem Consistent.block_eq_iff {r : Refinement} (consistent : Consistent T r)
    (finished : r.pending = []) {p q : Nat} (boundP : p < T.size)
    (boundQ : q < T.size) : r.block p = r.block q ↔ T.Same p q := by
  have balanced : Balanced {q | q < T.size} {x | x < T.letters} T.delta r.block
      fun _ _ => False := by
    intro p boundP q boundQ same x inside different
    have pending := consistent.balanced p boundP q boundQ same x inside different
    rw [finished] at pending
    exact pending.imp List.not_mem_nil List.not_mem_nil
  exact PartitionRefinement.block_eq_iff balanced consistent.respects
    consistent.coarse (fun q bound x inside => T.delta_lt q x bound inside)
    boundP boundQ

/-- `processPending` from the first partition ends with the classes of
equivalent states. -/
theorem processPending_start (two : 2 ≤ T.size) :
    ∃ r, processPending T (T.letters * T.size) T.start = some r ∧
      Linked T r ∧ (∀ q < T.size, r.block q < r.k) ∧ r.k ≤ T.size ∧
      ∀ p < T.size, ∀ q < T.size, r.block p = r.block q ↔ T.Same p q := by
  have enough : T.start.pending.length + T.letters * T.size ≤
      T.letters * T.size + T.letters * T.start.k := by
    have length : T.start.pending.length = T.letters := by
      simp [StateTable.start]
    have first : T.start.k = 2 := rfl
    rw [length, first]
    omega
  rcases (consistent_start two).processPending enough with
    ⟨r, returned, consistent, finished⟩
  exact ⟨r, returned, consistent.linked, consistent.block_lt, consistent.k_le,
    fun p boundP q boundQ => consistent.block_eq_iff finished boundP boundQ⟩

/--
From every state that the loop can be in it ends without an exception, and the
blocks are the classes of equivalent states.  None of them is empty as long as
some states are not equivalent; otherwise one of the first two is.
-/
theorem processPending_exact {r : Refinement} (consistent : Consistent T r)
    {fuel : Nat} (enough : r.pending.length + T.letters * T.size ≤
      fuel + T.letters * r.k) :
    ∃ last, processPending T fuel r = some last ∧ last.pending = [] ∧
      (∀ p < T.size, ∀ q < T.size, last.block p = last.block q ↔ T.Same p q) ∧
      ((∃ p < T.size, ∃ q < T.size, ¬ T.Same p q) →
        ∀ j, j < last.k ↔ ∃ q < T.size, last.block q = j) := by
  rcases consistent.processPending enough with
    ⟨last, returned, consistent, finished⟩
  refine ⟨last, returned, finished, fun p boundP q boundQ =>
    consistent.block_eq_iff finished boundP boundQ, fun several j => ?_⟩
  constructor
  · exact consistent.nonempty several j
  · rintro ⟨q, bound, rfl⟩
    exact consistent.block_lt q bound

/-- A chain of three states; only the last one, which stays, accepts. -/
def threeStates : StateTable where
  size := 3
  letters := 1
  delta := fun q _ => if q = 0 then 1 else 2
  accept := fun q => q = 2
  delta_lt := by
    intro q _ _ _
    split_ifs
    · exact Nat.one_lt_succ_succ 1
    · exact Nat.lt_succ_self 2

/--
At first the two rejecting states are in one block; the loop splits it, and in
the end there are three blocks.
-/
theorem processPending_exact_threeStates :
    threeStates.start.block 0 = threeStates.start.block 1 ∧
      ∃ last, processPending threeStates 2 threeStates.start = some last ∧
        last.pending = [] ∧ last.block 0 ≠ last.block 1 ∧
        last.block 1 ≠ last.block 2 ∧
        ∀ j, j < last.k ↔ ∃ q < 3, last.block q = j := by
  refine ⟨rfl, ?_⟩
  rcases @processPending_exact threeStates threeStates.start
    (consistent_start (by decide)) 2 (by decide) with
    ⟨last, returned, finished, classes, nonempty⟩
  have first : ¬ threeStates.Same 0 1 := by
    intro same
    have accepts := same [0] (by simp [threeStates])
    exact absurd (accepts.mpr rfl) (by decide)
  have second : ¬ threeStates.Same 1 2 := by
    intro same
    have accepts := same [] (by simp)
    exact absurd (accepts.mpr rfl) (by decide)
  refine ⟨last, returned, finished, ?_, ?_, ?_⟩
  · exact fun same => first ((classes 0 (by decide) 1 (by decide)).mp same)
  · exact fun same => second ((classes 1 (by decide) 2 (by decide)).mp same)
  · exact nonempty ⟨0, by decide, 1, by decide, first⟩

end First

end SafetyGames.Automata
