import Mathlib.Data.List.Sort
import Mathlib.Data.List.TakeWhile
import Mathlib.Tactic.Cases

/-!
# Lists of keyed intervals

Intervals of natural numbers that carry a key, and the scans of sorted lists
of them: the merging of intervals with the same key that overlap or touch, the
gaps that a list leaves, the pieces between sorted points, the pairs of
intervals from two lists that overlap, and the intervals of one list that
another one covers.
-/

namespace SafetyGames.Intervals

/-- An interval of numbers with a key; both end points are included. -/
structure Segment (κ : Type*) where
  low : Nat
  high : Nat
  key : κ

variable {κ ι : Type*}

/-- The interval contains the number. -/
def Segment.Has (interval : Segment κ) (point : Nat) : Prop :=
  interval.low ≤ point ∧ point ≤ interval.high

/-- Some interval with the key contains the number. -/
def Covers (list : List (Segment κ)) (key : κ) (point : Nat) : Prop :=
  ∃ interval ∈ list, interval.key = key ∧ interval.Has point

theorem covers_cons {first : Segment κ} {list : List (Segment κ)} {key : κ}
    {point : Nat} :
    Covers (first :: list) key point ↔
      first.key = key ∧ first.Has point ∨ Covers list key point := by
  simp [Covers]

/-! ## Merging -/

section Merging

variable [DecidableEq κ]

/-- The scan behind an interval that may still grow. -/
def mergeFrom (current : Segment κ) : List (Segment κ) → List (Segment κ)
  | [] => [current]
  | next :: rest =>
      if current.key = next.key then
        if next.low ≤ current.high + 1 then
          if current.high < next.high then
            mergeFrom { current with high := next.high } rest
          else
            mergeFrom current rest
        else
          current :: mergeFrom next rest
      else
        current :: mergeFrom next rest

/-- Overlapping and adjacent intervals with the same key become one. -/
def merge : List (Segment κ) → List (Segment κ)
  | [] => []
  | first :: rest => mergeFrom first rest

/-- The second interval has a greater key, or the same key and starts later. -/
def Before (rank : κ → Nat) (left right : Segment κ) : Prop :=
  rank left.key < rank right.key ∨
    left.key = right.key ∧ left.low ≤ right.low

/-- The intervals neither overlap nor touch if they have the same key. -/
def Apart (left right : Segment κ) : Prop :=
  left.key = right.key → left.high + 1 < right.low

variable {rank : κ → Nat}

omit [DecidableEq κ] in
theorem Before.trans {first second third : Segment κ}
    (left : Before rank first second) (right : Before rank second third) :
    Before rank first third := by
  rcases left with less | ⟨same, order⟩
  · rcases right with less' | ⟨same', _⟩
    · exact Or.inl (less.trans less')
    · exact Or.inl (same' ▸ less)
  · rcases right with less' | ⟨same', order'⟩
    · exact Or.inl (same ▸ less')
    · exact Or.inr ⟨same.trans same', order.trans order'⟩

/-- What the scan returns lies behind the interval it started with. -/
theorem before_of_mem_mergeFrom {current : Segment κ}
    {list : List (Segment κ)}
    (sorted : (current :: list).Pairwise (Before rank))
    {found : Segment κ} (member : found ∈ mergeFrom current list) :
    Before rank current found := by
  induction list generalizing current with
  | nil =>
      rw [List.mem_singleton.mp member]
      exact Or.inr ⟨rfl, le_rfl⟩
  | cons next rest induction =>
      rcases List.pairwise_cons.mp sorted with ⟨first, later⟩
      have behind : ∀ interval ∈ rest, Before rank current interval :=
        fun interval inRest => first interval (List.mem_cons_of_mem _ inRest)
      have onward : found ∈ current :: mergeFrom next rest →
          Before rank current found := by
        intro inTail
        rcases List.mem_cons.mp inTail with rfl | deeper
        · exact Or.inr ⟨rfl, le_rfl⟩
        · exact (first next List.mem_cons_self).trans (induction later deeper)
      rw [mergeFrom] at member
      split_ifs at member
      · have grown : ({ current with high := next.high } :: rest).Pairwise
            (Before rank) :=
          List.pairwise_cons.mpr
            ⟨behind, (List.pairwise_cons.mp later).2⟩
        have found := induction grown member
        exact found
      · exact induction (List.pairwise_cons.mpr
          ⟨behind, (List.pairwise_cons.mp later).2⟩) member
      · exact onward member
      · exact onward member

theorem covers_mergeFrom {current : Segment κ} {list : List (Segment κ)}
    (sorted : (current :: list).Pairwise (Before rank)) {key : κ} {point : Nat} :
    Covers (mergeFrom current list) key point ↔
      Covers (current :: list) key point := by
  induction list generalizing current with
  | nil => rfl
  | cons next rest induction =>
      rcases List.pairwise_cons.mp sorted with ⟨first, later⟩
      have behind : ∀ interval ∈ rest, Before rank current interval :=
        fun interval inRest => first interval (List.mem_cons_of_mem _ inRest)
      have onward : Covers (current :: mergeFrom next rest) key point ↔
          Covers (current :: next :: rest) key point := by
        rw [covers_cons, induction later, @covers_cons _ current]
      rw [mergeFrom]
      split_ifs with same touch grows
      · have order : current.low ≤ next.low := by
          rcases first next List.mem_cons_self with less | ⟨_, order⟩
          · exact absurd (same ▸ less) (lt_irrefl _)
          · exact order
        have grown : ({ current with high := next.high } :: rest).Pairwise
            (Before rank) :=
          List.pairwise_cons.mpr
            ⟨behind, (List.pairwise_cons.mp later).2⟩
        rw [induction grown, covers_cons, covers_cons, covers_cons,
          ← or_assoc, ← same, ← and_or_left]
        refine or_congr_left (and_congr_right fun _ => ?_)
        simp only [Segment.Has]
        omega
      · have shrunk : (current :: rest).Pairwise (Before rank) :=
          List.pairwise_cons.mpr ⟨behind, (List.pairwise_cons.mp later).2⟩
        have order : current.low ≤ next.low := by
          rcases first next List.mem_cons_self with less | ⟨_, order⟩
          · exact absurd (same ▸ less) (lt_irrefl _)
          · exact order
        rw [induction shrunk, covers_cons, covers_cons, covers_cons,
          ← or_assoc, ← same, ← and_or_left]
        refine or_congr_left (and_congr_right fun _ => ?_)
        simp only [Segment.Has]
        omega
      · exact onward
      · exact onward

theorem apart_mergeFrom {current : Segment κ} {list : List (Segment κ)}
    (sorted : (current :: list).Pairwise (Before rank))
    (distinct : ∀ left ∈ current :: list, ∀ right ∈ current :: list,
      left.key ≠ right.key → rank left.key ≠ rank right.key) :
    (mergeFrom current list).Pairwise Apart := by
  induction list generalizing current with
  | nil => exact List.pairwise_singleton _ _
  | cons next rest induction =>
      rcases List.pairwise_cons.mp sorted with ⟨first, later⟩
      have behind : ∀ interval ∈ rest, Before rank current interval :=
        fun interval inRest => first interval (List.mem_cons_of_mem _ inRest)
      have shorter : ∀ left ∈ current :: rest, ∀ right ∈ current :: rest,
          left.key ≠ right.key → rank left.key ≠ rank right.key := by
        have sub : current :: rest ⊆ current :: next :: rest :=
          List.cons_subset_cons _ (List.subset_cons_self _ _)
        exact fun left inLeft right inRight =>
          distinct left (sub inLeft) right (sub inRight)
      have onward :
          (current.key = next.key → ¬ next.low ≤ current.high + 1) →
            (current :: mergeFrom next rest).Pairwise Apart := by
        intro far
        refine List.pairwise_cons.mpr ⟨fun found inTail same => ?_,
          induction later fun left inLeft right inRight =>
            distinct left (List.mem_cons_of_mem _ inLeft)
              right (List.mem_cons_of_mem _ inRight)⟩
        rcases before_of_mem_mergeFrom later inTail with less | ⟨same', order⟩
        · rcases first next List.mem_cons_self with less' | ⟨same', _⟩
          · exact absurd (same ▸ less'.trans less) (lt_irrefl _)
          · exact absurd (same ▸ same' ▸ less) (lt_irrefl _)
        · have gap := far (same.trans same'.symm)
          omega
      rw [mergeFrom]
      split_ifs with same touch grows
      · have grown : ({ current with high := next.high } :: rest).Pairwise
            (Before rank) :=
          List.pairwise_cons.mpr
            ⟨behind, (List.pairwise_cons.mp later).2⟩
        refine induction grown ?_
        intro left inLeft right inRight
        rcases List.mem_cons.mp inLeft with rfl | oldLeft
        · rcases List.mem_cons.mp inRight with rfl | oldRight
          · exact fun different => absurd rfl different
          · exact shorter current List.mem_cons_self
              right (List.mem_cons_of_mem _ oldRight)
        · rcases List.mem_cons.mp inRight with rfl | oldRight
          · exact shorter left (List.mem_cons_of_mem _ oldLeft)
              current List.mem_cons_self
          · exact shorter left (List.mem_cons_of_mem _ oldLeft)
              right (List.mem_cons_of_mem _ oldRight)
      · exact induction (List.pairwise_cons.mpr
          ⟨behind, (List.pairwise_cons.mp later).2⟩) shorter
      · exact onward fun _ => touch
      · exact onward fun equal => absurd equal same

/-- Merging a sorted list does not change what each key covers. -/
theorem covers_merge {list : List (Segment κ)}
    (sorted : list.Pairwise (Before rank)) {key : κ} {point : Nat} :
    Covers (merge list) key point ↔ Covers list key point := by
  cases list with
  | nil => rfl
  | cons first rest => exact covers_mergeFrom sorted

/-- After merging no two intervals with the same key overlap or touch. -/
theorem apart_merge {list : List (Segment κ)}
    (sorted : list.Pairwise (Before rank))
    (distinct : ∀ left ∈ list, ∀ right ∈ list,
      left.key ≠ right.key → rank left.key ≠ rank right.key) :
    (merge list).Pairwise Apart := by
  cases list with
  | nil => exact List.Pairwise.nil
  | cons first rest => exact apart_mergeFrom sorted distinct

/-- What every interval of the list satisfies, and growing keeps, the merged
ones satisfy. -/
theorem forall_merge {list : List (Segment κ)} {P : Segment κ → Prop}
    (all : ∀ interval ∈ list, P interval)
    (grow : ∀ current next, P current → P next → current.high < next.high →
      P { current with high := next.high }) :
    ∀ interval ∈ merge list, P interval := by
  have scan : ∀ {rest : List (Segment κ)} {current : Segment κ}, P current →
      (∀ interval ∈ rest, P interval) →
        ∀ interval ∈ mergeFrom current rest, P interval := by
    intro rest
    induction rest with
    | nil =>
        intro current holds _ interval member
        exact List.mem_singleton.mp member ▸ holds
    | cons next rest induction =>
        intro current holds others
        rcases List.forall_mem_cons.mp others with ⟨holdsNext, holdsRest⟩
        rw [mergeFrom]
        split_ifs with _ _ grows
        · exact induction (grow current next holds holdsNext grows) holdsRest
        · exact induction holds holdsRest
        · exact List.forall_mem_cons.mpr
            ⟨holds, induction holdsNext holdsRest⟩
        · exact List.forall_mem_cons.mpr
            ⟨holds, induction holdsNext holdsRest⟩
  cases list with
  | nil => exact fun interval member => absurd member List.not_mem_nil
  | cons first rest =>
      rcases List.forall_mem_cons.mp all with ⟨holds, others⟩
      exact scan holds others

end Merging

/-! ## Gaps -/

/-- What sorted intervals leave of the numbers from `start` to `top`. -/
def gaps (top : Nat) : Nat → List (Segment κ) → List (Nat × Nat)
  | start, [] => if start ≤ top then [(start, top)] else []
  | start, interval :: rest =>
      (if start < interval.low then [(start, interval.low - 1)] else []) ++
        gaps top
          (if start < interval.high + 1 then interval.high + 1 else start) rest

variable {top : Nat}

theorem gaps_spec {list : List (Segment κ)} {start : Nat}
    (sorted : list.Pairwise fun left right => left.low ≤ right.low)
    (proper : ∀ interval ∈ list, interval.low ≤ interval.high)
    {point : Nat} (below : point ≤ top) :
    (∃ gap ∈ gaps top start list, gap.1 ≤ point ∧ point ≤ gap.2) ↔
      start ≤ point ∧ ∀ interval ∈ list, ¬ interval.Has point := by
  induction list generalizing start with
  | nil =>
      rw [gaps]
      split_ifs with room
      · simp [below]
      · simp only [List.not_mem_nil, false_and, exists_false, false_iff,
          not_and, IsEmpty.forall_iff, implies_true]
        omega
  | cons first rest induction =>
      rcases List.pairwise_cons.mp sorted with ⟨order, later⟩
      rcases List.forall_mem_cons.mp proper with ⟨least, others⟩
      have tail := @induction
        (if start < first.high + 1 then first.high + 1 else start) later others
      rw [gaps]
      simp only [List.mem_append, or_and_right, exists_or, tail,
        List.forall_mem_cons, Segment.Has]
      have head : (∃ gap ∈ (if start < first.low then
          [(start, first.low - 1)] else []), gap.1 ≤ point ∧ point ≤ gap.2) ↔
            start ≤ point ∧ point < first.low := by
        split_ifs with room
        · simp only [List.mem_singleton, exists_eq_left]
          omega
        · simp only [List.not_mem_nil, false_and, exists_false, false_iff]
          omega
      rw [head]
      constructor
      · rintro (⟨lower, upper⟩ | ⟨lower, free⟩)
        · refine ⟨lower, by omega, fun interval member inside => ?_⟩
          have later := order interval member
          omega
        · split_ifs at lower
          · exact ⟨by omega, by omega, free⟩
          · exact ⟨lower, by omega, free⟩
      · rintro ⟨lower, out, free⟩
        by_cases before : point < first.low
        · exact Or.inl ⟨lower, before⟩
        · refine Or.inr ⟨?_, free⟩
          split_ifs <;> omega

theorem gaps_proper {list : List (Segment κ)} {start : Nat}
    (bounded : ∀ interval ∈ list, interval.low ≤ top)
    {gap : Nat × Nat} (member : gap ∈ gaps top start list) :
    gap.1 ≤ gap.2 ∧ gap.2 ≤ top := by
  induction list generalizing start with
  | nil =>
      rw [gaps] at member
      split_ifs at member with room
      · rw [List.mem_singleton.mp member]
        exact ⟨room, le_rfl⟩
      · exact absurd member List.not_mem_nil
  | cons first rest induction =>
      rcases List.forall_mem_cons.mp bounded with ⟨least, others⟩
      rw [gaps] at member
      rcases List.mem_append.mp member with here | later
      · split_ifs at here with room
        · rw [List.mem_singleton.mp here]
          simp only
          omega
        · exact absurd here List.not_mem_nil
      · exact induction others later

/-! ## Pieces -/

/-- The pieces between sorted points, the last one up to `top`. -/
def pieces (top : Nat) : List Nat → List (Nat × Nat)
  | [] => []
  | [point] => [(point, top)]
  | point :: next :: rest => (point, next - 1) :: pieces top (next :: rest)

theorem map_fst_pieces (points : List Nat) :
    (pieces top points).map Prod.fst = points := by
  induction points with
  | nil => rfl
  | cons point rest induction =>
      cases rest with
      | nil => rfl
      | cons next rest => rw [pieces, List.map_cons, induction]

/-- Every number from the first point on is in a piece. -/
theorem exists_piece {point number : Nat} {rest : List Nat}
    (lower : point ≤ number) (upper : number ≤ top) :
    ∃ piece ∈ pieces top (point :: rest),
      piece.1 ≤ number ∧ number ≤ piece.2 := by
  induction rest generalizing point with
  | nil => exact ⟨_, List.mem_singleton_self _, lower, upper⟩
  | cons next rest induction =>
      by_cases before : number < next
      · refine ⟨_, List.mem_cons_self, lower, ?_⟩
        simp only
        omega
      · rcases induction (not_lt.mp before) with ⟨piece, member, inside⟩
        exact ⟨piece, List.mem_cons_of_mem _ member, inside⟩

/-- A piece contains no point but its first number. -/
theorem pieces_spec {points : List Nat}
    (sorted : points.Pairwise (· < ·)) (bounded : ∀ point ∈ points, point ≤ top)
    {piece : Nat × Nat} (member : piece ∈ pieces top points) :
    piece.1 ≤ piece.2 ∧ piece.2 ≤ top ∧
      ∀ point ∈ points, point ≤ piece.2 → point ≤ piece.1 := by
  induction points with
  | nil => exact absurd member List.not_mem_nil
  | cons point rest induction =>
      rcases List.pairwise_cons.mp sorted with ⟨order, later⟩
      rcases List.forall_mem_cons.mp bounded with ⟨inside, others⟩
      cases rest with
      | nil =>
          rw [List.mem_singleton.mp member]
          refine ⟨inside, le_rfl, fun other isPoint _ => ?_⟩
          rw [List.mem_singleton.mp isPoint]
      | cons next rest =>
          have less := order next List.mem_cons_self
          have bound := others next List.mem_cons_self
          rcases List.mem_cons.mp member with rfl | deeper
          · refine ⟨by simp only; omega, by simp only; omega, ?_⟩
            intro other isPoint below
            rcases List.mem_cons.mp isPoint with rfl | isNext
            · exact le_rfl
            · have above : next ≤ other := by
                rcases List.mem_cons.mp isNext with rfl | isLater
                · exact le_rfl
                · exact ((List.pairwise_cons.mp later).1 other isLater).le
              simp only at below
              omega
          · rcases induction later others deeper with ⟨proper, least, free⟩
            refine ⟨proper, least, fun other isPoint below => ?_⟩
            rcases List.mem_cons.mp isPoint with rfl | isNext
            · have start : piece.1 ∈ next :: rest := by
                rw [← @map_fst_pieces top (next :: rest)]
                exact List.mem_map_of_mem deeper
              exact (order _ start).le
            · exact free other isNext below

/-! ## Windows -/

/-- Every interval of the first sorted list with the part of the second one
that may overlap it; what lies before an interval is dropped for good. -/
def windows : List (Segment κ) → List (Segment ι) →
    List (Segment κ × List (Segment ι))
  | [], _ => []
  | left :: rest, others =>
      let ahead := others.dropWhile fun right => right.high < left.low
      (left, ahead.takeWhile fun right => right.low ≤ left.high) ::
        windows rest ahead

/-- The pairs of overlapping intervals of two sorted lists. -/
def overlaps (list : List (Segment κ)) (others : List (Segment ι)) :
    List (Segment κ × Segment ι) :=
  (windows list others).flatMap fun pair =>
    (pair.2.filter fun right => pair.1.low ≤ right.high).map
      fun right => (pair.1, right)

theorem mem_dropWhile_of_not {α : Type*} {test : α → Bool} {list : List α}
    {element : α} (member : element ∈ list) (fails : test element = false) :
    element ∈ list.dropWhile test := by
  induction list with
  | nil => exact absurd member List.not_mem_nil
  | cons first rest induction =>
      rw [List.dropWhile_cons]
      split_ifs with holds
      · rcases List.mem_cons.mp member with rfl | later
        · exact absurd (holds.symm.trans fails) Bool.noConfusion
        · exact induction later
      · exact member

theorem mem_takeWhile_of_low {list : List (Segment ι)} {bound : Nat}
    (sorted : list.Pairwise fun left right => left.low ≤ right.low)
    {right : Segment ι} :
    right ∈ list.takeWhile (fun other => other.low ≤ bound) ↔
      right ∈ list ∧ right.low ≤ bound := by
  induction list with
  | nil => simp
  | cons first rest induction =>
      rcases List.pairwise_cons.mp sorted with ⟨order, later⟩
      rw [List.takeWhile_cons]
      split_ifs with holds
      · rw [decide_eq_true_eq] at holds
        rw [List.mem_cons, List.mem_cons, induction later]
        constructor
        · rintro (rfl | ⟨member, low⟩)
          · exact ⟨Or.inl rfl, holds⟩
          · exact ⟨Or.inr member, low⟩
        · rintro ⟨rfl | member, low⟩
          · exact Or.inl rfl
          · exact Or.inr ⟨member, low⟩
      · rw [decide_eq_true_eq] at holds
        refine iff_of_false List.not_mem_nil ?_
        rintro ⟨member, low⟩
        rcases List.mem_cons.mp member with rfl | isLater
        · exact holds low
        · have above := order right isLater
          omega

/-- Every interval has a window. -/
theorem exists_window {list : List (Segment κ)} (others : List (Segment ι))
    {left : Segment κ} (member : left ∈ list) :
    ∃ window, (left, window) ∈ windows list others := by
  induction list generalizing others with
  | nil => exact absurd member List.not_mem_nil
  | cons first rest induction =>
      rcases List.mem_cons.mp member with rfl | inRest
      · exact ⟨_, List.mem_cons_self⟩
      · rcases induction _ inRest with ⟨window, found⟩
        exact ⟨window, List.mem_cons_of_mem _ found⟩

/-- A window is a part of the second list that starts early enough. -/
theorem windows_spec {list : List (Segment κ)} {others : List (Segment ι)}
    {left : Segment κ} {window : List (Segment ι)}
    (member : (left, window) ∈ windows list others) :
    left ∈ list ∧ window.Sublist others ∧
      ∀ right ∈ window, right.low ≤ left.high := by
  induction list generalizing others with
  | nil => exact absurd member List.not_mem_nil
  | cons first rest induction =>
      have sub := List.dropWhile_sublist (l := others)
        fun right => right.high < first.low
      rcases List.mem_cons.mp member with here | later
      · cases here
        refine ⟨List.mem_cons_self,
          (List.takeWhile_sublist _).trans sub, fun right inWindow => ?_⟩
        simpa using List.mem_takeWhile_imp inWindow
      · rcases induction later with ⟨inRest, part, early⟩
        exact ⟨List.mem_cons_of_mem _ inRest, part.trans sub, early⟩

/-- A window contains what overlaps its interval. -/
theorem mem_window {list : List (Segment κ)} {others : List (Segment ι)}
    (sorted : list.Pairwise fun left right => left.low ≤ right.low)
    (sortedOthers : others.Pairwise fun left right => left.low ≤ right.low)
    {left : Segment κ} {window : List (Segment ι)}
    (found : (left, window) ∈ windows list others)
    {right : Segment ι} (inOthers : right ∈ others)
    (high : left.low ≤ right.high) (low : right.low ≤ left.high) :
    right ∈ window := by
  induction list generalizing others with
  | nil => exact absurd found List.not_mem_nil
  | cons first rest induction =>
      rcases List.pairwise_cons.mp sorted with ⟨order, later⟩
      have sub := List.dropWhile_sublist (l := others)
        fun right => right.high < first.low
      have kept : first.low ≤ right.high →
          right ∈ others.dropWhile fun right => right.high < first.low :=
        fun reaches => mem_dropWhile_of_not inOthers
          (decide_eq_false (not_lt.mpr reaches))
      rcases List.mem_cons.mp found with here | inRest
      · cases here
        exact (mem_takeWhile_of_low (sortedOthers.sublist sub)).mpr
          ⟨kept high, low⟩
      · have inList := (windows_spec inRest).1
        exact induction later (sortedOthers.sublist sub) inRest
          (kept ((order left inList).trans high))

/-- Among disjoint intervals a window contains only what overlaps. -/
theorem low_le_of_mem_window {list : List (Segment κ)}
    {others : List (Segment ι)}
    (disjoint : others.Pairwise fun left right => left.high < right.low)
    (proper : ∀ right ∈ others, right.low ≤ right.high)
    {left : Segment κ} {window : List (Segment ι)}
    (member : (left, window) ∈ windows list others) :
    ∀ right ∈ window, left.low ≤ right.high := by
  induction list generalizing others with
  | nil => exact absurd member List.not_mem_nil
  | cons first rest induction =>
      have sub := List.dropWhile_sublist (l := others)
        fun right => right.high < first.low
      have disjointAhead := disjoint.sublist sub
      rcases List.mem_cons.mp member with here | later
      · cases here
        intro right inWindow
        have inAhead := (List.takeWhile_sublist _).subset inWindow
        cases ahead : others.dropWhile fun right => right.high < left.low with
        | nil => exact absurd (ahead ▸ inAhead) List.not_mem_nil
        | cons head tail =>
            have reaches : left.low ≤ head.high := by
              have fails := List.head_dropWhile_not
                (fun right : Segment ι => decide (right.high < left.low))
                (by rw [ahead]; exact List.cons_ne_nil _ _)
              simp only [ahead, List.head_cons, decide_eq_false_iff_not] at fails
              omega
            rw [ahead] at inAhead disjointAhead
            rcases List.mem_cons.mp inAhead with rfl | inTail
            · exact reaches
            · have above := (List.pairwise_cons.mp disjointAhead).1 right inTail
              have order := proper right
                ((List.takeWhile_sublist _).trans sub |>.subset inWindow)
              omega
      · exact induction disjointAhead
          (fun right inAhead => proper right (sub.subset inAhead)) later

/-- Exactly the overlapping pairs are found. -/
theorem mem_overlaps {list : List (Segment κ)} {others : List (Segment ι)}
    (sorted : list.Pairwise fun left right => left.low ≤ right.low)
    (sortedOthers : others.Pairwise fun left right => left.low ≤ right.low)
    {left : Segment κ} {right : Segment ι} :
    (left, right) ∈ overlaps list others ↔
      left ∈ list ∧ right ∈ others ∧
        left.low ≤ right.high ∧ right.low ≤ left.high := by
  simp only [overlaps, List.mem_flatMap, List.mem_map, List.mem_filter,
    decide_eq_true_eq, Prod.mk.injEq]
  constructor
  · rintro ⟨⟨_, window⟩, member, _, ⟨inWindow, high⟩, rfl, rfl⟩
    rcases windows_spec member with ⟨inList, part, early⟩
    exact ⟨inList, part.subset inWindow, high, early _ inWindow⟩
  · rintro ⟨inList, inOthers, high, low⟩
    rcases exists_window others inList with ⟨window, member⟩
    exact ⟨(left, window), member, right,
      ⟨mem_window sorted sortedOthers member inOthers high low, high⟩, rfl, rfl⟩

/-! ## Filled intervals -/

/-- Whether the window covers the numbers from `min` to `max` without a gap;
an interval that reaches `top` leaves nothing. -/
def fills (top : Nat) : Nat → Nat → List (Segment ι) → Bool
  | min, max, [] => decide (max < min)
  | min, max, right :: rest =>
      if min < right.low then
        false
      else if right.high < top then
        fills top (right.high + 1) max rest
      else
        fills top top 0 rest

theorem fills_sound {min max : Nat} {window : List (Segment ι)}
    (filled : fills top min max window = true) {point : Nat}
    (lower : min ≤ point) (upper : point ≤ max) (below : point ≤ top) :
    ∃ right ∈ window, right.Has point := by
  induction window generalizing min with
  | nil =>
      have order := of_decide_eq_true filled
      omega
  | cons right rest induction =>
      rw [fills] at filled
      split_ifs at filled with gap room
      · by_cases here : point ≤ right.high
        · exact ⟨right, List.mem_cons_self, by omega, here⟩
        · rcases induction filled (by omega) with ⟨other, member, has⟩
          exact ⟨other, List.mem_cons_of_mem _ member, has⟩
      · exact ⟨right, List.mem_cons_self, by omega, by omega⟩

theorem fills_complete (positive : 0 < top) {min max : Nat}
    {window : List (Segment ι)}
    (disjoint : window.Pairwise fun left right => left.high < right.low)
    (proper : ∀ right ∈ window, right.low ≤ right.high)
    (early : ∀ right ∈ window, right.low ≤ max)
    (reaches : ∀ right ∈ window, min ≤ right.high)
    (bounded : ∀ right ∈ window, right.low ≤ top)
    (covered : ∀ point, min ≤ point → point ≤ max →
      ∃ right ∈ window, right.Has point) :
    fills top min max window = true := by
  induction window generalizing min with
  | nil =>
      refine decide_eq_true (lt_of_not_ge fun room => ?_)
      rcases covered min le_rfl room with ⟨_, member, _⟩
      exact List.not_mem_nil member
  | cons right rest induction =>
      rcases List.pairwise_cons.mp disjoint with ⟨after, later⟩
      rcases List.forall_mem_cons.mp proper with ⟨order, properRest⟩
      rcases List.forall_mem_cons.mp early with ⟨start, earlyRest⟩
      rcases List.forall_mem_cons.mp reaches with ⟨far, _⟩
      rcases List.forall_mem_cons.mp bounded with ⟨_, boundedRest⟩
      have noGap : ¬ min < right.low := by
        intro gap
        rcases covered min le_rfl (by omega) with ⟨other, member, has⟩
        rcases List.mem_cons.mp member with rfl | inRest
        · exact absurd has.1 (by omega)
        · have above := after other inRest
          have low := has.1
          omega
      rw [fills, if_neg noGap]
      split_ifs with room
      · refine induction later properRest earlyRest ?_ boundedRest ?_
        · intro other inRest
          have above := after other inRest
          have proper := properRest other inRest
          omega
        · intro point lower upper
          rcases covered point (by omega) upper with ⟨other, member, has⟩
          rcases List.mem_cons.mp member with rfl | inRest
          · exact absurd has.2 (by omega)
          · exact ⟨other, inRest, has⟩
      · cases rest with
        | nil => exact decide_eq_true positive
        | cons other rest =>
            have above := after other List.mem_cons_self
            have below := boundedRest other List.mem_cons_self
            omega

end SafetyGames.Intervals
