import SafetyGames.Lib.Decimal
import SafetyGames.Automata.State

/-!
# Trees of decimal numbers

The private methods of `BasicAutomata` behind `makeInterval`: sub-automata of
the decimal numbers of a fixed length that are at least, at most or between
bounds.  A state is built in front of its subtrees, `offset` states behind the
beginning of the heap.
-/

namespace SafetyGames.Automata

open SafetyGames.Transducer SafetyGames.Decimal

/-! ## The sub-automata -/

/-- `anyOfRightLength(x, n)` for `x.length() - n` digits. -/
def anyOfRightLength : Nat → Nat → Heap
  | _, 0 => [⟨true, []⟩]
  | offset, count + 1 =>
      ⟨false, [newTransition 48 57 (offset + 1)]⟩ ::
        anyOfRightLength (offset + 1) count

/-- `atLeast(x, n, initials, zeros)` for `x.substring(n)`, with the states
added to `initials`. -/
def atLeast : Nat → Word → Bool → Heap × List Nat
  | _, [], _ => ([⟨true, []⟩], [])
  | offset, c :: x, zeros =>
      let same := atLeast (offset + 1) x (zeros && c == 48)
      let any := offset + 1 + same.1.length
      (⟨false, Transition.single c (offset + 1) ::
          if c < 57 then [newTransition (c + 1) 57 any] else []⟩ ::
        (same.1 ++ if c < 57 then anyOfRightLength any x.length else []),
        (if zeros then [offset] else []) ++ same.2)

/-- `atMost(x, n)` for `x.substring(n)`. -/
def atMost : Nat → Word → Heap
  | _, [] => [⟨true, []⟩]
  | offset, c :: x =>
      let same := atMost (offset + 1) x
      let any := offset + 1 + same.length
      ⟨false, Transition.single c (offset + 1) ::
          if c > 48 then [newTransition 48 (c - 1) any] else []⟩ ::
        (same ++ if c > 48 then anyOfRightLength any x.length else [])

/-- `between(x, y, n, initials, zeros)` for the substrings from `n`. -/
def between : Nat → Word → Word → Bool → Heap × List Nat
  | offset, cx :: x, cy :: y, zeros =>
      let here := if zeros then [offset] else []
      if cx = cy then
        let same := between (offset + 1) x y (zeros && cx == 48)
        (⟨false, [Transition.single cx (offset + 1)]⟩ :: same.1, here ++ same.2)
      else
        let low := atLeast (offset + 1) x (zeros && cx == 48)
        let high := atMost (offset + 1 + low.1.length) y
        let any := offset + 1 + low.1.length + high.length
        let inner := cx.toNat + 1 < cy.toNat
        (⟨false, Transition.single cx (offset + 1) ::
            Transition.single cy (offset + 1 + low.1.length) ::
              if inner then [newTransition (cx + 1) (cy - 1) any] else []⟩ ::
          (low.1 ++ (high ++
            if inner then anyOfRightLength any x.length else [])),
          here ++ low.2)
  | _, _, _, _ => ([⟨true, []⟩], [])

/-! ## Parts of a heap -/

/-- The states stand in the heap behind `offset` others. -/
def Placed (heap : Heap) (offset : Nat) (part : Heap) : Prop :=
  ∀ index state, part[index]? = some state →
    heap.state (offset + index) = state

section Placed

variable {heap part rest : Heap} {offset : Nat} {state : State}

theorem Placed.cons (placed : Placed heap offset (state :: part)) :
    heap.state offset = state ∧ Placed heap (offset + 1) part := by
  refine ⟨placed 0 state rfl, fun index other found => ?_⟩
  rw [Nat.add_assoc, Nat.add_comm 1]
  exact placed (index + 1) other found

theorem Placed.append (placed : Placed heap offset (part ++ rest)) :
    Placed heap offset part ∧ Placed heap (offset + part.length) rest := by
  constructor
  · intro index other found
    have inside := (List.getElem?_eq_some_iff.mp found).1
    refine placed index other ?_
    rwa [List.getElem?_append_left inside]
  · intro index other found
    rw [Nat.add_assoc]
    refine placed _ other ?_
    rwa [List.getElem?_append_right (Nat.le_add_right _ _),
      Nat.add_sub_cancel_left]

theorem placed_self (heap : Heap) : Placed heap 0 heap := by
  intro index state found
  rw [Nat.zero_add, Heap.state, found]
  rfl

theorem accepts_nil_of_state {accept : Bool} {transitions : List Transition}
    (here : heap.state offset = ⟨accept, transitions⟩) :
    heap.Accepts offset [] ↔ accept = true := by
  rw [Heap.accepts_nil, here]

theorem accepts_cons_of_state {accept : Bool} {transitions : List Transition}
    (here : heap.state offset = ⟨accept, transitions⟩) {c : JChar}
    {word : Word} :
    heap.Accepts offset (c :: word) ↔ ∃ t ∈ transitions,
      t.Reads c ∧ heap.Accepts t.dest word := by
  rw [Heap.accepts_cons]
  simp only [Heap.Step, here]
  constructor
  · rintro ⟨_, ⟨t, inState, reads, rfl⟩, accepts⟩
    exact ⟨t, inState, reads, accepts⟩
  · rintro ⟨t, inState, reads, accepts⟩
    exact ⟨t.dest, ⟨t, inState, reads, rfl⟩, accepts⟩

end Placed

theorem newTransition_reads {min max c : JChar} (order : min ≤ max)
    {dest : Nat} :
    (newTransition min max dest).Reads c ↔ min ≤ c ∧ c ≤ max := by
  rw [newTransition_of_le order]
  exact Iff.rfl

theorem succ_toNat_of_lt {c d : JChar} (less : c < d) :
    (c + 1).toNat = c.toNat + 1 := by
  have below := UInt16.lt_iff_toNat_lt.mp less
  have bound := d.toNat_lt
  rw [UInt16.toNat_add, UInt16.toNat_one, Nat.mod_eq_of_lt (by omega)]

theorem pred_toNat_of_lt {c d : JChar} (less : d < c) :
    (c - 1).toNat = c.toNat - 1 := by
  have below := UInt16.lt_iff_toNat_lt.mp less
  have positive : (1 : UInt16) ≤ c := by
    rw [UInt16.le_iff_toNat_le, UInt16.toNat_one]
    omega
  rw [UInt16.toNat_sub_of_le c 1 positive, UInt16.toNat_one]

/-! ## What the sub-automata accept -/

section Accepts

variable {heap : Heap}

theorem anyOfRightLength_accepts {count offset : Nat}
    (placed : Placed heap offset (anyOfRightLength offset count))
    {word : Word} :
    heap.Accepts offset word ↔ word.length = count ∧ Digits word := by
  induction count generalizing offset word with
  | zero =>
      have here := placed.cons.1
      cases word with
      | nil =>
          rw [accepts_nil_of_state here]
          exact iff_of_true rfl ⟨rfl, digits_nil⟩
      | cons c word =>
          rw [accepts_cons_of_state here]
          simp
  | succ count induction =>
      rcases placed.cons with ⟨here, rest⟩
      cases word with
      | nil =>
          rw [accepts_nil_of_state here]
          simp
      | cons c word =>
          rw [accepts_cons_of_state here, digits_cons]
          simp only [List.mem_singleton, exists_eq_left, newTransition_dest,
            newTransition_reads (show (48 : JChar) ≤ 57 by decide),
            induction rest, List.length_cons, Nat.add_right_cancel_iff,
            Digit, UInt16.le_iff_toNat_le]
          exact and_left_comm

/-- Maybe a transition on an interval. -/
theorem exists_arm {d : JChar} {more : Prop} [Decidable more]
    {low high : JChar} {any : Nat} {word : Word} :
    (∃ t ∈ (if more then [newTransition low high any] else []),
        t.Reads d ∧ heap.Accepts t.dest word) ↔
      (more ∧ (newTransition low high any).Reads d) ∧
        heap.Accepts any word := by
  by_cases is : more
  · rw [if_pos is, and_iff_right is]
    simp only [List.mem_singleton, exists_eq_left, newTransition_dest]
  · rw [if_neg is]
    exact iff_of_false (by rintro ⟨_, none, _⟩; exact List.not_mem_nil none)
      fun both => is both.1.1

/-- A transition on one character, and other ones. -/
theorem exists_single_cons {c d : JChar} {dest : Nat} {list : List Transition}
    {word : Word} :
    (∃ t ∈ Transition.single c dest :: list,
        t.Reads d ∧ heap.Accepts t.dest word) ↔
      d = c ∧ heap.Accepts dest word ∨
        ∃ t ∈ list, t.Reads d ∧ heap.Accepts t.dest word := by
  rw [List.exists_mem_cons_iff, Transition.single_reads]
  exact Iff.rfl

theorem lt_nine {c d : JChar} (less : c.toNat < d.toNat)
    (upper : d.toNat ≤ 57) : c < 57 :=
  UInt16.lt_iff_toNat_lt.mpr (less.trans_le upper)

theorem gt_zero {c d : JChar} (lower : 48 ≤ d.toNat)
    (less : d.toNat < c.toNat) : c > 48 :=
  UInt16.lt_iff_toNat_lt.mpr (lower.trans_lt less)

theorem reads_above {c d : JChar} {any : Nat} :
    (c < 57 ∧ (newTransition (c + 1) 57 any).Reads d) ↔
      c.toNat < d.toNat ∧ d.toNat ≤ 57 := by
  have arms : c < 57 → ((newTransition (c + 1) 57 any).Reads d ↔
      c.toNat < d.toNat ∧ d.toNat ≤ 57) := by
    intro less
    have next := succ_toNat_of_lt less
    have order : c + 1 ≤ 57 := by
      rw [UInt16.le_iff_toNat_le, next]
      exact UInt16.lt_iff_toNat_lt.mp less
    rw [newTransition_reads order, UInt16.le_iff_toNat_le, next,
      UInt16.le_iff_toNat_le]
    exact Iff.rfl
  constructor
  · exact fun ⟨less, reads⟩ => (arms less).mp reads
  · intro bounds
    have less := lt_nine bounds.1 bounds.2
    exact ⟨less, (arms less).mpr bounds⟩

theorem reads_inside {cx cy d : JChar} {any : Nat} :
    (cx.toNat + 1 < cy.toNat ∧ (newTransition (cx + 1) (cy - 1) any).Reads d) ↔
      cx.toNat < d.toNat ∧ d.toNat < cy.toNat := by
  have arms : cx.toNat + 1 < cy.toNat →
      ((newTransition (cx + 1) (cy - 1) any).Reads d ↔
        cx.toNat < d.toNat ∧ d.toNat < cy.toNat) := by
    intro inner
    have less : cx < cy := UInt16.lt_iff_toNat_lt.mpr (by omega)
    have next := succ_toNat_of_lt less
    have before := pred_toNat_of_lt less
    have order : cx + 1 ≤ cy - 1 := by
      rw [UInt16.le_iff_toNat_le, next, before]
      omega
    rw [newTransition_reads order, UInt16.le_iff_toNat_le,
      UInt16.le_iff_toNat_le, next, before]
    omega
  constructor
  · exact fun ⟨inner, reads⟩ => (arms inner).mp reads
  · intro bounds
    have inner : cx.toNat + 1 < cy.toNat := by omega
    exact ⟨inner, (arms inner).mpr bounds⟩

theorem reads_below {c d : JChar} {any : Nat} :
    (c > 48 ∧ (newTransition 48 (c - 1) any).Reads d) ↔
      48 ≤ d.toNat ∧ d.toNat < c.toNat := by
  have arms : c > 48 → ((newTransition 48 (c - 1) any).Reads d ↔
      48 ≤ d.toNat ∧ d.toNat < c.toNat) := by
    intro more
    have before := pred_toNat_of_lt more
    have greater : 48 < c.toNat := UInt16.lt_iff_toNat_lt.mp more
    have order : 48 ≤ c - 1 := by
      rw [UInt16.le_iff_toNat_le, before]
      exact Nat.le_sub_one_of_lt greater
    rw [newTransition_reads order, UInt16.le_iff_toNat_le,
      UInt16.le_iff_toNat_le, before, Nat.le_sub_one_iff_lt (by omega)]
    exact Iff.rfl
  constructor
  · exact fun ⟨more, reads⟩ => (arms more).mp reads
  · intro bounds
    have more := gt_zero bounds.1 bounds.2
    exact ⟨more, (arms more).mpr bounds⟩

/-- A digit that is larger makes the rest free. -/
theorem atLeast_accepts {x : Word} {zeros : Bool} {offset : Nat}
    (digits : Digits x) (placed : Placed heap offset (atLeast offset x zeros).1)
    {word : Word} :
    heap.Accepts offset word ↔
      word.length = x.length ∧ Digits word ∧ value x ≤ value word := by
  induction x generalizing offset word zeros with
  | nil =>
      have here := placed.cons.1
      cases word with
      | nil =>
          rw [accepts_nil_of_state here]
          exact iff_of_true rfl ⟨rfl, digits_nil, le_rfl⟩
      | cons c word =>
          rw [accepts_cons_of_state here]
          simp
  | cons c x induction =>
      rcases digits_cons.mp digits with ⟨digit, others⟩
      rcases placed.cons with ⟨here, parts⟩
      rcases parts.append with ⟨same, any⟩
      cases word with
      | nil =>
          rw [accepts_nil_of_state here]
          simp
      | cons d word =>
          have equal := @induction (zeros && c == 48) (offset + 1) others same word
          rw [accepts_cons_of_state here, exists_single_cons, exists_arm,
            reads_above, digits_cons, List.length_cons, List.length_cons,
            Nat.add_right_cancel_iff, equal]
          constructor
          · rintro (⟨rfl, length, rest, order⟩ | ⟨⟨less, upper⟩, accepts⟩)
            · exact ⟨length, ⟨digit, rest⟩, (value_cons_le_iff length.symm digit
                digit others rest).mpr (Or.inr ⟨rfl, order⟩)⟩
            · rw [if_pos (lt_nine less upper)] at any
              rcases (anyOfRightLength_accepts any).mp accepts with ⟨length, rest⟩
              have isDigit : Digit d := ⟨digit.1.trans less.le, upper⟩
              exact ⟨length, ⟨isDigit, rest⟩, (value_cons_le_iff length.symm digit
                isDigit others rest).mpr (Or.inl less)⟩
          · rintro ⟨length, ⟨isDigit, rest⟩, order⟩
            rcases (value_cons_le_iff length.symm digit isDigit others rest).mp
              order with less | ⟨one, further⟩
            · refine Or.inr ⟨⟨less, isDigit.2⟩, ?_⟩
              rw [if_pos (lt_nine less isDigit.2)] at any
              exact (anyOfRightLength_accepts any).mpr ⟨length, rest⟩
            · exact Or.inl ⟨(UInt16.toNat_inj.mp one).symm, length, rest, further⟩

/-- A digit that is smaller makes the rest free. -/
theorem atMost_accepts {x : Word} {offset : Nat} (digits : Digits x)
    (placed : Placed heap offset (atMost offset x)) {word : Word} :
    heap.Accepts offset word ↔
      word.length = x.length ∧ Digits word ∧ value word ≤ value x := by
  induction x generalizing offset word with
  | nil =>
      have here := placed.cons.1
      cases word with
      | nil =>
          rw [accepts_nil_of_state here]
          exact iff_of_true rfl ⟨rfl, digits_nil, le_rfl⟩
      | cons c word =>
          rw [accepts_cons_of_state here]
          simp
  | cons c x induction =>
      rcases digits_cons.mp digits with ⟨digit, others⟩
      rcases placed.cons with ⟨here, parts⟩
      rcases parts.append with ⟨same, any⟩
      cases word with
      | nil =>
          rw [accepts_nil_of_state here]
          simp
      | cons d word =>
          have equal := @induction (offset + 1) others same word
          rw [accepts_cons_of_state here, exists_single_cons, exists_arm,
            reads_below, digits_cons, List.length_cons, List.length_cons,
            Nat.add_right_cancel_iff, equal]
          constructor
          · rintro (⟨rfl, length, rest, order⟩ | ⟨⟨lower, less⟩, accepts⟩)
            · exact ⟨length, ⟨digit, rest⟩, (value_cons_le_iff length digit
                digit rest others).mpr (Or.inr ⟨rfl, order⟩)⟩
            · rw [if_pos (gt_zero lower less)] at any
              rcases (anyOfRightLength_accepts any).mp accepts with ⟨length, rest⟩
              have isDigit : Digit d := ⟨lower, less.le.trans digit.2⟩
              exact ⟨length, ⟨isDigit, rest⟩, (value_cons_le_iff length isDigit
                digit rest others).mpr (Or.inl less)⟩
          · rintro ⟨length, ⟨isDigit, rest⟩, order⟩
            rcases (value_cons_le_iff length isDigit digit rest others).mp
              order with less | ⟨one, further⟩
            · refine Or.inr ⟨⟨isDigit.1, less⟩, ?_⟩
              rw [if_pos (gt_zero isDigit.1 less)] at any
              exact (anyOfRightLength_accepts any).mpr ⟨length, rest⟩
            · exact Or.inl ⟨UInt16.toNat_inj.mp one, length, rest, further⟩

/-- The bounds share a prefix; behind it each bounds one of the ways. -/
theorem between_accepts {x y : Word} {zeros : Bool} {offset : Nat}
    (lengths : x.length = y.length) (digitsX : Digits x) (digitsY : Digits y)
    (order : value x ≤ value y)
    (placed : Placed heap offset (between offset x y zeros).1) {word : Word} :
    heap.Accepts offset word ↔ word.length = x.length ∧ Digits word ∧
      value x ≤ value word ∧ value word ≤ value y := by
  induction x generalizing y offset word zeros with
  | nil =>
      rw [between.eq_2 _ _ _ _ (by simp)] at placed
      have here := placed.cons.1
      rw [List.length_nil, eq_comm, List.length_eq_zero_iff] at lengths
      cases word with
      | nil =>
          rw [accepts_nil_of_state here, lengths]
          exact iff_of_true rfl ⟨rfl, digits_nil, le_rfl, le_rfl⟩
      | cons c word =>
          rw [accepts_cons_of_state here]
          simp
  | cons cx x induction =>
      cases y with
      | nil => exact absurd lengths (Nat.succ_ne_zero _)
      | cons cy y =>
          rcases digits_cons.mp digitsX with ⟨digitX, othersX⟩
          rcases digits_cons.mp digitsY with ⟨digitY, othersY⟩
          have further := Nat.add_right_cancel lengths
          have compared := (value_cons_le_iff further digitX digitY othersX
            othersY).mp order
          rw [between] at placed
          by_cases one : cx = cy
          · subst one
            rw [if_pos rfl] at placed
            have order' : value x ≤ value y := by omega
            rcases placed.cons with ⟨here, same⟩
            have equal := fun word => @induction y (zeros && cx == 48)
              (offset + 1) further othersX othersY order' same word
            cases word with
            | nil =>
                rw [accepts_nil_of_state here]
                simp
            | cons d word =>
                rw [accepts_cons_of_state here, exists_single_cons,
                  or_iff_left (by simp), equal, digits_cons, List.length_cons,
                  List.length_cons, Nat.add_right_cancel_iff]
                constructor
                · rintro ⟨rfl, length, rest, inside⟩
                  exact ⟨length, ⟨digitX, rest⟩, (between_of_same_digit
                    length.symm (length.trans further) digitX digitX digitX
                    othersX othersY rest rfl).mpr ⟨rfl, inside⟩⟩
                · rintro ⟨length, ⟨isDigit, rest⟩, inside⟩
                  rcases (between_of_same_digit length.symm
                    (length.trans further) digitX digitX isDigit othersX othersY
                    rest rfl).mp inside with ⟨isFirst, within⟩
                  exact ⟨isFirst, length, rest, within⟩
          · rw [if_neg one] at placed
            have less : cx.toNat < cy.toNat := by
              have different : cx.toNat ≠ cy.toNat :=
                fun same => one (UInt16.toNat_inj.mp same)
              omega
            rcases placed.cons with ⟨here, parts⟩
            rcases parts.append with ⟨low, parts⟩
            rcases parts.append with ⟨high, any⟩
            cases word with
            | nil =>
                rw [accepts_nil_of_state here]
                simp
            | cons d word =>
                have first : word.length = x.length → Digit d → Digits word → _ :=
                  fun length isDigit rest => between_of_less_digit length.symm
                    (length.trans further) digitX digitY isDigit othersX othersY
                    rest less
                rw [accepts_cons_of_state here, exists_single_cons,
                  exists_single_cons, exists_arm, reads_inside,
                  atLeast_accepts othersX low, atMost_accepts othersY high,
                  digits_cons, List.length_cons, List.length_cons,
                  Nat.add_right_cancel_iff]
                constructor
                · rintro (⟨rfl, length, rest, lower⟩ |
                    ⟨rfl, length, rest, upper⟩ | ⟨inside, accepts⟩)
                  · exact ⟨length, ⟨digitX, rest⟩,
                      (first length digitX rest).mpr (Or.inl ⟨rfl, lower⟩)⟩
                  · have length' := length.trans further.symm
                    exact ⟨length', ⟨digitY, rest⟩,
                      (first length' digitY rest).mpr
                        (Or.inr (Or.inl ⟨rfl, upper⟩))⟩
                  · rw [if_pos (by omega)] at any
                    rcases (anyOfRightLength_accepts any).mp accepts with
                      ⟨length, rest⟩
                    have isDigit : Digit d := ⟨digitX.1.trans inside.1.le,
                      inside.2.le.trans digitY.2⟩
                    exact ⟨length, ⟨isDigit, rest⟩,
                      (first length isDigit rest).mpr (Or.inr (Or.inr inside))⟩
                · rintro ⟨length, ⟨isDigit, rest⟩, within⟩
                  rcases (first length isDigit rest).mp within with
                    ⟨isLow, lower⟩ | ⟨isHigh, upper⟩ | inside
                  · exact Or.inl ⟨isLow, length, rest, lower⟩
                  · exact Or.inr (Or.inl ⟨isHigh, length.trans further, rest,
                      upper⟩)
                  · refine Or.inr (Or.inr ⟨inside, ?_⟩)
                    rw [if_pos (by omega)] at any
                    exact (anyOfRightLength_accepts any).mpr ⟨length, rest⟩

end Accepts

/-! ## The shape of the sub-automata -/

/-- The transitions neither share a destination nor a character. -/
def Apart (t u : Transition) : Prop :=
  t.dest ≠ u.dest ∧ ∀ c, t.Reads c → ¬ u.Reads c

/-- The transitions lead to states behind, none of which is dead. -/
structure Sprouts (heap : Heap) (low high : Nat) (state : State) : Prop where
  inside : ∀ t ∈ state.transitions, low < t.dest ∧ t.dest < high
  apart : state.transitions.Pairwise Apart
  alive : ∀ t ∈ state.transitions, ∃ word, heap.Accepts t.dest word

section Shape

variable {heap : Heap}

theorem Sprouts.mono {low high low' high' : Nat} {state : State}
    (sprouts : Sprouts heap low high state) (before : low' ≤ low)
    (behind : high ≤ high') : Sprouts heap low' high' state where
  inside := fun t member => ⟨before.trans_lt (sprouts.inside t member).1,
    (sprouts.inside t member).2.trans_le behind⟩
  apart := sprouts.apart
  alive := sprouts.alive

theorem sprouts_nil {low high : Nat} {accept : Bool} :
    Sprouts heap low high ⟨accept, []⟩ where
  inside := fun _ none => absurd none List.not_mem_nil
  apart := List.Pairwise.nil
  alive := fun _ none => absurd none List.not_mem_nil

/-- One more transition in front of the others. -/
theorem Sprouts.cons {low high : Nat} {accept : Bool} {t : Transition}
    {list : List Transition} (inside : low < t.dest ∧ t.dest < high)
    (alive : ∃ word, heap.Accepts t.dest word)
    (apart : ∀ u ∈ list, Apart t u)
    (sprouts : Sprouts heap low high ⟨accept, list⟩) :
    Sprouts heap low high ⟨accept, t :: list⟩ where
  inside := List.forall_mem_cons.mpr ⟨inside, sprouts.inside⟩
  apart := List.pairwise_cons.mpr ⟨apart, sprouts.apart⟩
  alive := List.forall_mem_cons.mpr ⟨alive, sprouts.alive⟩

/-- Maybe a transition on an interval. -/
theorem sprouts_arm {low high any : Nat} {accept : Bool} {more : Prop}
    [Decidable more] {min max : JChar}
    (inside : more → low < any ∧ any < high)
    (alive : more → ∃ word, heap.Accepts any word) :
    Sprouts heap low high
      ⟨accept, if more then [newTransition min max any] else []⟩ := by
  by_cases is : more
  · rw [if_pos is]
    refine Sprouts.cons ?_ ?_ (fun _ none => absurd none List.not_mem_nil)
      sprouts_nil
    · rw [newTransition_dest]
      exact inside is
    · rw [newTransition_dest]
      exact alive is
  · rw [if_neg is]
    exact sprouts_nil

theorem apart_arm {t : Transition} {any : Nat} {more : Prop} [Decidable more]
    {min max : JChar} (different : t.dest ≠ any)
    (apart : ∀ c, t.Reads c → ¬ (more ∧ (newTransition min max any).Reads c)) :
    ∀ u ∈ (if more then [newTransition min max any] else []), Apart t u := by
  intro u member
  by_cases is : more
  · rw [if_pos is, List.mem_singleton] at member
    subst member
    refine ⟨?_, fun c reads other => apart c reads ⟨is, other⟩⟩
    rwa [newTransition_dest]
  · rw [if_neg is] at member
    exact absurd member List.not_mem_nil

@[simp]
theorem length_anyOfRightLength (offset count : Nat) :
    (anyOfRightLength offset count).length = count + 1 := by
  induction count generalizing offset with
  | zero => rfl
  | succ count induction => rw [anyOfRightLength, List.length_cons, induction]

theorem length_atLeast_pos (offset : Nat) (x : Word) (zeros : Bool) :
    0 < (atLeast offset x zeros).1.length := by
  cases x with
  | nil => exact Nat.one_pos
  | cons c x => exact Nat.succ_pos _

theorem length_atMost_pos (offset : Nat) (x : Word) :
    0 < (atMost offset x).length := by
  cases x with
  | nil => exact Nat.one_pos
  | cons c x => exact Nat.succ_pos _

theorem anyOfRightLength_alive {offset count : Nat}
    (placed : Placed heap offset (anyOfRightLength offset count)) :
    ∃ word, heap.Accepts offset word := by
  refine ⟨List.replicate count 48, (anyOfRightLength_accepts placed).mpr
    ⟨List.length_replicate, fun c member => ?_⟩⟩
  rw [List.eq_of_mem_replicate member]
  exact ⟨le_rfl, by decide⟩

theorem anyOfRightLength_sprouts {offset count : Nat}
    (placed : Placed heap offset (anyOfRightLength offset count)) :
    ∀ state ∈ anyOfRightLength offset count,
      Sprouts heap offset (offset + (count + 1)) state := by
  induction count generalizing offset with
  | zero =>
      intro state member
      rw [List.mem_singleton.mp member]
      exact sprouts_nil
  | succ count induction =>
      rcases placed.cons with ⟨_, rest⟩
      intro state member
      rcases List.mem_cons.mp member with rfl | inRest
      · refine Sprouts.cons ?_ ?_ (fun _ none => absurd none List.not_mem_nil)
          sprouts_nil
        · rw [newTransition_dest]
          omega
        · rw [newTransition_dest]
          exact anyOfRightLength_alive rest
      · exact (induction rest state inRest).mono (by omega) (by omega)

/-- The states of the part for larger digits. -/
theorem maybe_sprouts {more : Prop} [Decidable more] {low high any count : Nat}
    (placed : Placed heap any (if more then anyOfRightLength any count else []))
    (before : low ≤ any) (behind : more → any + (count + 1) ≤ high) :
    ∀ state ∈ (if more then anyOfRightLength any count else []),
      Sprouts heap low high state := by
  intro state member
  by_cases is : more
  · rw [if_pos is] at placed member
    exact (anyOfRightLength_sprouts placed state member).mono before (behind is)
  · rw [if_neg is] at member
    exact absurd member List.not_mem_nil

theorem atLeast_sprouts {x : Word} {zeros : Bool} {offset : Nat}
    (digits : Digits x) (placed : Placed heap offset (atLeast offset x zeros).1) :
    ∀ state ∈ (atLeast offset x zeros).1,
      Sprouts heap offset (offset + (atLeast offset x zeros).1.length) state := by
  induction x generalizing offset zeros with
  | nil =>
      intro state member
      rw [List.mem_singleton.mp member]
      exact sprouts_nil
  | cons c x induction =>
      rcases digits_cons.mp digits with ⟨digit, others⟩
      rcases placed.cons with ⟨_, parts⟩
      rcases parts.append with ⟨same, any⟩
      have positive := length_atLeast_pos (offset + 1) x (zeros && c == 48)
      have total : (atLeast offset (c :: x) zeros).1.length =
          (atLeast (offset + 1) x (zeros && c == 48)).1.length +
            (if c < 57 then x.length + 1 else 0) + 1 := by
        rw [atLeast, List.length_cons, List.length_append]
        split_ifs <;> simp
      rw [total]
      intro state member
      rcases List.mem_cons.mp member with rfl | inParts
      · refine Sprouts.cons ?_ ?_ (apart_arm ?_ ?_) (sprouts_arm ?_ ?_)
        · simp only [Transition.single]
          omega
        · exact ⟨x, (atLeast_accepts others same).mpr ⟨rfl, others, le_rfl⟩⟩
        · simp only [Transition.single]
          omega
        · intro d reads other
          rw [Transition.single_reads] at reads
          have above := (reads_above.mp other).1
          rw [reads] at above
          exact Nat.lt_irrefl _ above
        · intro more
          rw [if_pos more]
          omega
        · intro more
          rw [if_pos more] at any
          exact anyOfRightLength_alive any
      · rcases List.mem_append.mp inParts with inSame | inAny
        · exact (induction others same state inSame).mono (by omega) (by omega)
        · refine maybe_sprouts any (by omega) (fun more => ?_) state inAny
          rw [if_pos more]
          omega

theorem atMost_sprouts {x : Word} {offset : Nat} (digits : Digits x)
    (placed : Placed heap offset (atMost offset x)) :
    ∀ state ∈ atMost offset x,
      Sprouts heap offset (offset + (atMost offset x).length) state := by
  induction x generalizing offset with
  | nil =>
      intro state member
      rw [List.mem_singleton.mp member]
      exact sprouts_nil
  | cons c x induction =>
      rcases digits_cons.mp digits with ⟨digit, others⟩
      rcases placed.cons with ⟨_, parts⟩
      rcases parts.append with ⟨same, any⟩
      have positive := length_atMost_pos (offset + 1) x
      have total : (atMost offset (c :: x)).length =
          (atMost (offset + 1) x).length +
            (if c > 48 then x.length + 1 else 0) + 1 := by
        rw [atMost, List.length_cons, List.length_append]
        split_ifs <;> simp
      rw [total]
      intro state member
      rcases List.mem_cons.mp member with rfl | inParts
      · refine Sprouts.cons ?_ ?_ (apart_arm ?_ ?_) (sprouts_arm ?_ ?_)
        · simp only [Transition.single]
          omega
        · exact ⟨x, (atMost_accepts others same).mpr ⟨rfl, others, le_rfl⟩⟩
        · simp only [Transition.single]
          omega
        · intro d reads other
          rw [Transition.single_reads] at reads
          have below := (reads_below.mp other).2
          rw [reads] at below
          exact Nat.lt_irrefl _ below
        · intro more
          rw [if_pos more]
          omega
        · intro more
          rw [if_pos more] at any
          exact anyOfRightLength_alive any
      · rcases List.mem_append.mp inParts with inSame | inAny
        · exact (induction others same state inSame).mono (by omega) (by omega)
        · refine maybe_sprouts any (by omega) (fun more => ?_) state inAny
          rw [if_pos more]
          omega

/-- Two bounds with equally many digits, in the right order. -/
structure Bounds (x y : Word) : Prop where
  lengths : x.length = y.length
  digitsX : Digits x
  digitsY : Digits y
  order : value x ≤ value y

theorem Bounds.cons {cx cy : JChar} {x y : Word}
    (bounds : Bounds (cx :: x) (cy :: y)) :
    Digits x ∧ Digits y ∧ x.length = y.length ∧
      (cx = cy ∧ Bounds x y ∨ cx ≠ cy ∧ cx.toNat < cy.toNat) := by
  rcases digits_cons.mp bounds.digitsX with ⟨digitX, othersX⟩
  rcases digits_cons.mp bounds.digitsY with ⟨digitY, othersY⟩
  have further := Nat.add_right_cancel bounds.lengths
  refine ⟨othersX, othersY, further, ?_⟩
  rcases (value_cons_le_iff further digitX digitY othersX othersY).mp
    bounds.order with less | ⟨same, order⟩
  · refine Or.inr ⟨?_, less⟩
    rintro rfl
    exact Nat.lt_irrefl _ less
  · exact Or.inl ⟨UInt16.toNat_inj.mp same, further, othersX, othersY, order⟩

theorem Bounds.alive {x y : Word} (bounds : Bounds x y) {zeros : Bool}
    {offset : Nat} (placed : Placed heap offset (between offset x y zeros).1) :
    ∃ word, heap.Accepts offset word :=
  ⟨x, (between_accepts bounds.lengths bounds.digitsX bounds.digitsY bounds.order
    placed).mpr ⟨rfl, bounds.digitsX, le_rfl, bounds.order⟩⟩

theorem length_between_pos (offset : Nat) (x y : Word) (zeros : Bool) :
    0 < (between offset x y zeros).1.length := by
  match x, y with
  | [], _ => exact Nat.one_pos
  | _ :: _, [] => exact Nat.one_pos
  | cx :: x, cy :: y =>
      rw [between]
      split_ifs <;> exact Nat.succ_pos _

theorem Bounds.between_sprouts {x y : Word} {zeros : Bool} {offset : Nat}
    (bounds : Bounds x y)
    (placed : Placed heap offset (between offset x y zeros).1) :
    ∀ state ∈ (between offset x y zeros).1,
      Sprouts heap offset (offset + (between offset x y zeros).1.length)
        state := by
  induction x generalizing y offset zeros with
  | nil =>
      intro state member
      rw [between.eq_2 _ _ _ _ (by simp)] at member
      rw [List.mem_singleton.mp member]
      exact sprouts_nil
  | cons cx x induction =>
      cases y with
      | nil => exact absurd bounds.lengths (Nat.succ_ne_zero _)
      | cons cy y =>
          rcases bounds.cons with ⟨othersX, othersY, _, ⟨rfl, rest⟩ | ⟨one, less⟩⟩
          · rw [between, if_pos rfl] at placed ⊢
            rcases placed.cons with ⟨_, same⟩
            have positive := length_between_pos (offset + 1) x y (zeros && cx == 48)
            intro state member
            rw [List.length_cons]
            rcases List.mem_cons.mp member with rfl | inRest
            · refine Sprouts.cons ?_ (rest.alive same)
                (fun _ none => absurd none List.not_mem_nil) sprouts_nil
              simp only [Transition.single]
              omega
            · exact (induction rest same state inRest).mono (by omega) (by omega)
          · rw [between, if_neg one] at placed ⊢
            rcases placed.cons with ⟨_, parts⟩
            rcases parts.append with ⟨low, parts⟩
            rcases parts.append with ⟨high, any⟩
            have positive := length_atLeast_pos (offset + 1) x (zeros && cx == 48)
            have positive' := length_atMost_pos (offset + 1 +
              (atLeast (offset + 1) x (zeros && cx == 48)).1.length) y
            intro state member
            rw [List.length_cons, List.length_append, List.length_append]
            rcases List.mem_cons.mp member with rfl | inParts
            · refine Sprouts.cons ?_ ?_ (List.forall_mem_cons.mpr
                ⟨⟨?_, ?_⟩, apart_arm ?_ ?_⟩) (Sprouts.cons ?_ ?_ (apart_arm ?_ ?_)
                  (sprouts_arm ?_ ?_))
              · simp only [Transition.single]
                omega
              · exact ⟨x, (atLeast_accepts othersX low).mpr
                  ⟨rfl, othersX, le_rfl⟩⟩
              · simp only [Transition.single]
                omega
              · intro d reads other
                rw [Transition.single_reads] at reads other
                exact one (reads.symm.trans other)
              · simp only [Transition.single]
                omega
              · intro d reads other
                rw [Transition.single_reads] at reads
                have above := (reads_inside.mp other).1
                rw [reads] at above
                exact Nat.lt_irrefl _ above
              · simp only [Transition.single]
                omega
              · exact ⟨y, (atMost_accepts othersY high).mpr
                  ⟨rfl, othersY, le_rfl⟩⟩
              · simp only [Transition.single]
                omega
              · intro d reads other
                rw [Transition.single_reads] at reads
                have below := (reads_inside.mp other).2
                rw [reads] at below
                exact Nat.lt_irrefl _ below
              · intro more
                rw [if_pos more, length_anyOfRightLength]
                omega
              · intro more
                rw [if_pos more] at any
                exact anyOfRightLength_alive any
            · rcases List.mem_append.mp inParts with inLow | inParts
              · exact (atLeast_sprouts othersX low state inLow).mono (by omega)
                  (by omega)
              · rcases List.mem_append.mp inParts with inHigh | inAny
                · exact (atMost_sprouts othersY high state inHigh).mono (by omega)
                    (by omega)
                · refine maybe_sprouts any (by omega) (fun more => ?_) state inAny
                  rw [if_pos more, length_anyOfRightLength]
                  omega

end Shape

end SafetyGames.Automata
