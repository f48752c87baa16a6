import SafetyGames.Problem.FromRegExp

/-!
# The box game

`boxGame()` writes the positions on a grid as `xa^nba^m`: whose turn it is, the
vertical and the horizontal offset.  One branch of the expression of the edges
writes no separator and leads out of the arena.
-/

namespace SafetyGames.Problem

open SafetyGames.Transducer SafetyGames.Teacher SafetyGames.Regular
open SafetyGames.Game
open Computability

/-! ## The expressions -/

/-- The pairs of the letters: `aa`, `ba`, `-a`, `ab`, `bb`, `-b`, `a-`, `b-`
and `--`. -/
def boxMap : PairMap :=
  hashMap [([97], [97, 97]), ([98], [98, 97]), ([99], [45, 97]),
    ([100], [97, 98]), ([101], [98, 98]), ([102], [45, 98]), ([103], [97, 45]),
    ([104], [98, 45]), ([105], [45, 45])]

/-- The expressions of `boxGame()`. -/
def boxExpressions : Expressions where
  -- a, b
  alphabet := [97, 98]
  -- aa*ba*
  v0 := [97, 97, 42, 98, 97, 42]
  -- ba*ba*
  v1 := [98, 97, 42, 98, 97, 42]
  -- baba*
  i := [98, 97, 98, 97, 42]
  -- (a|b)a{0,2}ba*
  f := [40, 97, 124, 98, 41, 97, 123, 48, 44, 50, 125, 98, 97, 42]
  -- (d((a*b(f|(da*c))))|(a*c(h|(ba*g))))|(ba*ea*(c|g))
  e := [40, 100, 40, 40, 97, 42, 98, 40, 102, 124, 40, 100, 97, 42, 99, 41, 41,
    41, 41, 124, 40, 97, 42, 99, 40, 104, 124, 40, 98, 97, 42, 103, 41, 41, 41,
    41, 124, 40, 98, 97, 42, 101, 97, 42, 40, 99, 124, 103, 41, 41]
  map := boxMap

/-- `SafetyProblem.boxGame()`. -/
def boxGame (ops : Operations) (correct : ops.Correct) : Option SafetyProblem :=
  gameOf ops correct boxExpressions

/-- A letter, `a*`, and what follows. -/
def behindStar (letter : JChar) (rest : RegExp) : RegExp :=
  .concatenation (.char letter) (.concatenation (.repetition (.char 97)) rest)

/-- The vertices that begin with the letter. -/
def boxVertices (letter : JChar) : RegExp :=
  behindStar letter (.concatenation (.char 98) (.repetition (.char 97)))

/-- `d((a*b(f|(da*c))))`. -/
def boxUp : RegExp :=
  behindStar 100 (.concatenation (.char 98)
    (.union (.char 102) (behindStar 100 (.char 99))))

/-- `a*c(h|(ba*g))`. -/
def boxOut : RegExp :=
  .concatenation (.repetition (.char 97)) (.concatenation (.char 99)
    (.union (.char 104) (behindStar 98 (.char 103))))

/-- `ba*ea*(c|g)`. -/
def boxSide : RegExp :=
  behindStar 98 (behindStar 101 (.union (.char 99) (.char 103)))

theorem parse_boxEdges :
    RegExp.parse boxExpressions.e =
      .ok (.union (.union boxUp boxOut) boxSide) := by
  decide +kernel

/-! ## The edges -/

/-- Where a word over the letters of the edges may stand. -/
inductive BoxState where
  | start
  | up
  | upTurn
  | upRow
  | out
  | outTurn
  | outRow
  | side
  | sideRow
  | done
deriving DecidableEq

namespace BoxState

/-- What may follow. -/
def expression : BoxState → RegExp
  | start => .union (.union boxUp boxOut) boxSide
  | up => .concatenation (.repetition (.char 97)) (.concatenation (.char 98)
      (.union (.char 102) (behindStar 100 (.char 99))))
  | upTurn => .union (.char 102) (behindStar 100 (.char 99))
  | upRow => .concatenation (.repetition (.char 97)) (.char 99)
  | out => boxOut
  | outTurn => .union (.char 104) (behindStar 98 (.char 103))
  | outRow => .concatenation (.repetition (.char 97)) (.char 103)
  | side => .concatenation (.repetition (.char 97))
      (behindStar 101 (.union (.char 99) (.char 103)))
  | sideRow => .concatenation (.repetition (.char 97))
      (.union (.char 99) (.char 103))
  | done => .string []

/-- The letters that lead on. -/
def arrows : List (Arrow BoxState JChar) :=
  [⟨start, 100, up⟩, ⟨start, 97, out⟩, ⟨start, 99, outTurn⟩, ⟨start, 98, side⟩,
    ⟨up, 97, up⟩, ⟨up, 98, upTurn⟩, ⟨upTurn, 102, done⟩, ⟨upTurn, 100, upRow⟩,
    ⟨upRow, 97, upRow⟩, ⟨upRow, 99, done⟩, ⟨out, 97, out⟩, ⟨out, 99, outTurn⟩,
    ⟨outTurn, 104, done⟩, ⟨outTurn, 98, outRow⟩, ⟨outRow, 97, outRow⟩,
    ⟨outRow, 103, done⟩, ⟨side, 97, side⟩, ⟨side, 101, sideRow⟩,
    ⟨sideRow, 97, sideRow⟩, ⟨sideRow, 99, done⟩, ⟨sideRow, 103, done⟩]

theorem residuals : Residuals arrows fun state => meaning (expression state) where
  cons source head word := by
    cases source <;>
      simp [-add_eq_sup, expression, arrows, meaning, boxUp, boxOut, boxSide,
        behindStar, Language.mem_add, cons_mem_letter_mul,
        cons_mem_letter_kstar_mul, mem_singleton, or_assoc, eq_comm]
  functional := by decide

/-- Successive letters that both may be next lead to different languages. -/
theorem separated : Separated Successive (meaning (expression start)) := by
  have pairs : ∀ left ∈ arrows, ∀ right ∈ arrows,
      left.source = right.source →
        right.letter.toNat = left.letter.toNat + 1 →
          left.target = out ∧ right.target = side ∨
          left.target = side ∧ right.target = outTurn ∨
          left.target = outTurn ∧ right.target = up ∨
          left.target = up ∧ right.target = upTurn := by
    decide
  have inside : [104] ∈ meaning (expression outTurn) ∧
      [102] ∈ meaning (expression upTurn) ∧
        [99, 104] ∈ meaning (expression out) := by
    refine ⟨Or.inl rfl, Or.inl rfl, ?_⟩
    exact mem_letter_kstar_mul.mpr
      ⟨0, _, mem_letter_mul.mpr ⟨[104], Or.inl rfl, rfl⟩, rfl⟩
  have outside : [104] ∉ meaning (expression up) ∧
      [104] ∉ meaning (expression side) ∧ [102] ∉ meaning (expression up) ∧
        [99, 104] ∉ meaning (expression side) := by
    simp [residuals.cons, arrows]
  apply residuals.separated
  intro left inLeft right inRight sameSource successive same
  rcases pairs left inLeft right inRight sameSource successive with
    ⟨isLeft, isRight⟩ | ⟨isLeft, isRight⟩ | ⟨isLeft, isRight⟩ |
      ⟨isLeft, isRight⟩ <;> rw [isLeft, isRight] at same
  · exact outside.2.2.2 (same ▸ inside.2.2)
  · exact outside.2.1 (same ▸ inside.1)
  · exact outside.1 (same ▸ inside.1)
  · exact outside.2.2.1 (same ▸ inside.2.1)

theorem keys_boxMap : Keys boxMap (meaning (expression start)) :=
  keys_of_arrows residuals (by decide) start

end BoxState

/-- `xa^nba^m`: the letter of the player and the two offsets. -/
def position (turn : JChar) (n m : Nat) : Word :=
  turn :: (List.replicate n 97 ++ 98 :: List.replicate m 97)

theorem position_succ (turn : JChar) (n m : Nat) :
    position turn n (m + 1) =
      turn :: (List.replicate n 97 ++ 98 :: (List.replicate m 97 ++ [97])) := by
  rw [position, List.replicate_succ']

theorem replicate_append_cons (n : Nat) (rest : Word) :
    List.replicate n 97 ++ 97 :: rest = List.replicate (n + 1) 97 ++ rest := by
  rw [List.replicate_succ', List.append_assoc]
  rfl

/-- The components of a word. -/
def Spells (word u v : Word) : Prop :=
  h1 boxMap word = u ∧ h2 boxMap word = v

theorem Spells.unique {word u v u' v' : Word} (spells : Spells word u v)
    (spells' : Spells word u' v') : u = u' ∧ v = v' :=
  ⟨spells.1.symm.trans spells'.1, spells.2.symm.trans spells'.2⟩

section Components

/-- The pairs of the letters in use. -/
theorem boxMap_pairs :
    pairOf boxMap 97 = ⟨97, 97⟩ ∧ pairOf boxMap 98 = ⟨98, 97⟩ ∧
      pairOf boxMap 99 = ⟨dash, 97⟩ ∧ pairOf boxMap 100 = ⟨97, 98⟩ ∧
      pairOf boxMap 101 = ⟨98, 98⟩ ∧ pairOf boxMap 102 = ⟨dash, 98⟩ ∧
      pairOf boxMap 103 = ⟨97, dash⟩ ∧ pairOf boxMap 104 = ⟨98, dash⟩ :=
  ⟨rfl, rfl, rfl, rfl, rfl, rfl, rfl, rfl⟩

variable (n m : Nat)

/-- `da^nbf`. -/
theorem spells_up : Spells (100 :: (List.replicate n 97 ++ [98, 102]))
    (position 97 n 0) (position 98 (n + 1) 0) := by
  rw [position, position, ← replicate_append_cons]
  simp [Spells, h1, h2, erase, boxMap_pairs, dash]

/-- `da^nbda^mc`. -/
theorem spells_upRow :
    Spells (100 :: (List.replicate n 97 ++
        98 :: 100 :: (List.replicate m 97 ++ [99])))
      (position 97 n (m + 1)) (position 98 (n + 1) (m + 1)) := by
  rw [position_succ 98, position, ← replicate_append_cons]
  simp [Spells, h1, h2, erase, boxMap_pairs, dash, List.replicate_succ]

/-- `a^nch`. -/
theorem spells_out : Spells (List.replicate n 97 ++ [99, 104])
    (List.replicate n 97 ++ [98]) (List.replicate (n + 1) 97) := by
  rw [List.replicate_succ']
  simp [Spells, h1, h2, erase, boxMap_pairs, dash]

/-- `a^ncba^mg`. -/
theorem spells_outRow :
    Spells (List.replicate n 97 ++ 99 :: 98 :: (List.replicate m 97 ++ [103]))
      (List.replicate n 97 ++ 98 :: List.replicate (m + 1) 97)
      (List.replicate (n + m + 2) 97) := by
  rw [show n + m + 2 = n + 1 + 1 + m by omega, List.replicate_add (n + 1 + 1),
    ← replicate_append_cons, ← replicate_append_cons, List.replicate_succ']
  simp [Spells, h1, h2, erase, boxMap_pairs, dash]

/-- `ba^nea^mc`. -/
theorem spells_right :
    Spells (98 :: (List.replicate n 97 ++ 101 :: (List.replicate m 97 ++ [99])))
      (position 98 n m) (position 97 n (m + 1)) := by
  rw [position_succ, position]
  simp [Spells, h1, h2, erase, boxMap_pairs, dash]

/-- `ba^nea^mg`. -/
theorem spells_left :
    Spells (98 :: (List.replicate n 97 ++ 101 :: (List.replicate m 97 ++ [103])))
      (position 98 n (m + 1)) (position 97 n m) := by
  rw [position_succ, position]
  simp [Spells, h1, h2, erase, boxMap_pairs, dash]

end Components

/-! ## The relation -/

theorem mem_boxUp {word : Word} :
    word ∈ meaning boxUp ↔
      ∃ n, word = 100 :: (List.replicate n 97 ++ [98, 102]) ∨
        ∃ m, word = 100 :: (List.replicate n 97 ++
          98 :: 100 :: (List.replicate m 97 ++ [99])) := by
  simp only [boxUp, behindStar, meaning, mem_letter_mul, mem_letter_kstar_mul,
    Language.mem_add, mem_singleton]
  constructor
  · rintro ⟨_, ⟨n, _, ⟨_, rfl | ⟨_, ⟨m, _, rfl, rfl⟩, rfl⟩, rfl⟩, rfl⟩, rfl⟩
    · exact ⟨n, Or.inl rfl⟩
    · exact ⟨n, Or.inr ⟨m, rfl⟩⟩
  · rintro ⟨n, rfl | ⟨m, rfl⟩⟩
    · exact ⟨_, ⟨n, _, ⟨_, Or.inl rfl, rfl⟩, rfl⟩, rfl⟩
    · exact ⟨_, ⟨n, _, ⟨_, Or.inr ⟨_, ⟨m, _, rfl, rfl⟩, rfl⟩, rfl⟩, rfl⟩, rfl⟩

theorem mem_boxOut {word : Word} :
    word ∈ meaning boxOut ↔ ∃ n, word = List.replicate n 97 ++ [99, 104] ∨
      ∃ m, word = List.replicate n 97 ++
        99 :: 98 :: (List.replicate m 97 ++ [103]) := by
  simp only [boxOut, behindStar, meaning, mem_letter_mul, mem_letter_kstar_mul,
    Language.mem_add, mem_singleton]
  constructor
  · rintro ⟨n, _, ⟨_, rfl | ⟨_, ⟨m, _, rfl, rfl⟩, rfl⟩, rfl⟩, rfl⟩
    · exact ⟨n, Or.inl rfl⟩
    · exact ⟨n, Or.inr ⟨m, rfl⟩⟩
  · rintro ⟨n, rfl | ⟨m, rfl⟩⟩
    · exact ⟨n, _, ⟨_, Or.inl rfl, rfl⟩, rfl⟩
    · exact ⟨n, _, ⟨_, Or.inr ⟨_, ⟨m, _, rfl, rfl⟩, rfl⟩, rfl⟩, rfl⟩

theorem mem_boxSide {word : Word} :
    word ∈ meaning boxSide ↔ ∃ n m,
      word = 98 :: (List.replicate n 97 ++ 101 :: (List.replicate m 97 ++ [99])) ∨
      word = 98 ::
        (List.replicate n 97 ++ 101 :: (List.replicate m 97 ++ [103])) := by
  simp only [boxSide, behindStar, meaning, mem_letter_mul, mem_letter_kstar_mul,
    Language.mem_add, mem_singleton]
  constructor
  · rintro ⟨_, ⟨n, _, ⟨_, ⟨m, _, rfl | rfl, rfl⟩, rfl⟩, rfl⟩, rfl⟩
    · exact ⟨n, m, Or.inl rfl⟩
    · exact ⟨n, m, Or.inr rfl⟩
  · rintro ⟨n, m, rfl | rfl⟩
    · exact ⟨_, ⟨n, _, ⟨_, ⟨m, _, Or.inl rfl, rfl⟩, rfl⟩, rfl⟩, rfl⟩
    · exact ⟨_, ⟨n, _, ⟨_, ⟨m, _, Or.inr rfl, rfl⟩, rfl⟩, rfl⟩, rfl⟩

/-- The pairs of the words of an expression. -/
def Relates (e : RegExp) (u v : Word) : Prop :=
  ∃ word ∈ meaning e, Spells word u v

/-- The system moves one row up. -/
theorem relates_boxUp_iff {u v : Word} :
    Relates boxUp u v ↔
      ∃ n m, u = position 97 n m ∧ v = position 98 (n + 1) m := by
  constructor
  · rintro ⟨word, member, spells⟩
    rcases mem_boxUp.mp member with ⟨n, rfl | ⟨m, rfl⟩⟩
    · exact ⟨n, 0, spells.unique (spells_up n)⟩
    · exact ⟨n, m + 1, spells.unique (spells_upRow n m)⟩
  · rintro ⟨n, m, rfl, rfl⟩
    cases m with
    | zero => exact ⟨_, mem_boxUp.mpr ⟨n, Or.inl rfl⟩, spells_up n⟩
    | succ m =>
        exact ⟨_, mem_boxUp.mpr ⟨n, Or.inr ⟨m, rfl⟩⟩, spells_upRow n m⟩

/-- The branch without a separator: no letter of a player is in front, and both
offsets run together. -/
theorem relates_boxOut_iff {u v : Word} :
    Relates boxOut u v ↔
      ∃ n m, u = List.replicate n 97 ++ 98 :: List.replicate m 97 ∧
        v = List.replicate (n + m + 1) 97 := by
  constructor
  · rintro ⟨word, member, spells⟩
    rcases mem_boxOut.mp member with ⟨n, rfl | ⟨m, rfl⟩⟩
    · exact ⟨n, 0, spells.unique (spells_out n)⟩
    · exact ⟨n, m + 1, spells.unique (spells_outRow n m)⟩
  · rintro ⟨n, m, rfl, rfl⟩
    cases m with
    | zero => exact ⟨_, mem_boxOut.mpr ⟨n, Or.inl rfl⟩, spells_out n⟩
    | succ m =>
        exact ⟨_, mem_boxOut.mpr ⟨n, Or.inr ⟨m, rfl⟩⟩, spells_outRow n m⟩

/-- The environment moves to a neighbour in the row. -/
theorem relates_boxSide_iff {u v : Word} :
    Relates boxSide u v ↔ ∃ n m,
      u = position 98 n m ∧ v = position 97 n (m + 1) ∨
      u = position 98 n (m + 1) ∧ v = position 97 n m := by
  constructor
  · rintro ⟨word, member, spells⟩
    rcases mem_boxSide.mp member with ⟨n, m, rfl | rfl⟩
    · exact ⟨n, m, Or.inl (spells.unique (spells_right n m))⟩
    · exact ⟨n, m, Or.inr (spells.unique (spells_left n m))⟩
  · rintro ⟨n, m, ⟨rfl, rfl⟩ | ⟨rfl, rfl⟩⟩
    · exact ⟨_, mem_boxSide.mpr ⟨n, m, Or.inl rfl⟩, spells_right n m⟩
    · exact ⟨_, mem_boxSide.mpr ⟨n, m, Or.inr rfl⟩, spells_left n m⟩

/-- The box game as its expressions describe it. -/
def box : SafetyGame Word where
  player0 := {u | ∃ n m, u = position 97 n m}
  player1 := {u | ∃ n m, u = position 98 n m}
  initial := {u | ∃ m, u = position 98 1 m}
  safe := {u | ∃ n m, n ≤ 2 ∧ (u = position 97 n m ∨ u = position 98 n m)}
  edge u v := Relates boxUp u v ∨ Relates boxOut u v ∨ Relates boxSide u v

theorem mem_boxVertices {turn : JChar} {word : Word} :
    word ∈ meaning (boxVertices turn) ↔ ∃ n m, word = position turn n m := by
  simp only [boxVertices, behindStar, meaning, mem_letter_mul,
    mem_letter_kstar_mul, mem_letter_kstar]
  constructor
  · rintro ⟨_, ⟨n, _, ⟨_, ⟨m, rfl⟩, rfl⟩, rfl⟩, rfl⟩
    exact ⟨n, m, rfl⟩
  · rintro ⟨n, m, rfl⟩
    exact ⟨_, ⟨n, _, ⟨_, ⟨m, rfl⟩, rfl⟩, rfl⟩, rfl⟩

/-- `(a|b)a{0,2}ba*`. -/
def boxSafe : RegExp :=
  .concatenation (.union (.char 97) (.char 98))
    (.concatenation (.repeatMinMax (.char 97) 0 2)
      (.concatenation (.char 98) (.repetition (.char 97))))

theorem mem_boxSafe {word : Word} :
    word ∈ meaning boxSafe ↔ ∃ n m, n ≤ 2 ∧
      (word = position 97 n m ∨ word = position 98 n m) := by
  constructor
  · rintro ⟨_, isTurn, _, ⟨_, ⟨n, _, upper, isPower⟩, _, row, rfl⟩, rfl⟩
    rcases mem_letter_mul.mp row with ⟨_, inStar, rfl⟩
    rcases mem_letter_kstar.mp inStar with ⟨m, rfl⟩
    rw [mem_letter_pow.mp isPower]
    refine ⟨n, m, upper, ?_⟩
    rcases isTurn with isTurn | isTurn
    · cases isTurn
      exact Or.inl rfl
    · cases isTurn
      exact Or.inr rfl
  · rintro ⟨n, m, upper, isPosition⟩
    have row : List.replicate n 97 ++ 98 :: List.replicate m 97 ∈
        meaning (.concatenation (.repeatMinMax (.char 97) 0 2)
          (.concatenation (.char 98) (.repetition (.char 97)))) :=
      ⟨_, ⟨n, Nat.zero_le n, upper, mem_letter_pow.mpr rfl⟩, _,
        mem_letter_mul.mpr ⟨_, mem_letter_kstar.mpr ⟨m, rfl⟩, rfl⟩, rfl⟩
    rcases isPosition with rfl | rfl
    · exact ⟨[97], Or.inl rfl, _, row, rfl⟩
    · exact ⟨[98], Or.inr rfl, _, row, rfl⟩

theorem mem_boxInitial {word : Word} :
    word ∈ meaning (.concatenation (.string [98, 97, 98])
      (.repetition (.char 97))) ↔ ∃ m, word = position 98 1 m := by
  constructor
  · rintro ⟨_, isString, _, inStar, rfl⟩
    rcases mem_letter_kstar.mp inStar with ⟨m, rfl⟩
    cases isString
    exact ⟨m, rfl⟩
  · rintro ⟨m, rfl⟩
    exact ⟨[98, 97, 98], rfl, _, mem_letter_kstar.mpr ⟨m, rfl⟩, rfl⟩

/-- The words of the edges, branch by branch. -/
theorem relates_union_iff {e1 e2 : RegExp} {u v : Word} :
    Relates (.union e1 e2) u v ↔ Relates e1 u v ∨ Relates e2 u v := by
  constructor
  · rintro ⟨word, first | second, spells⟩
    · exact Or.inl ⟨word, first, spells⟩
    · exact Or.inr ⟨word, second, spells⟩
  · rintro (⟨word, first, spells⟩ | ⟨word, second, spells⟩)
    · exact ⟨word, Or.inl first, spells⟩
    · exact ⟨word, Or.inr second, spells⟩

theorem boxGame_eq_box {ops : Operations} (correct : ops.Correct) :
    ∃ sp, boxGame ops correct = some sp ∧ sp.alphabet = [97, 98] ∧
      sp.game = box := by
  have described : Described boxExpressions (boxVertices 97) (boxVertices 98)
      (.concatenation (.string [98, 97, 98]) (.repetition (.char 97))) boxSafe
      (.union boxUp boxOut) boxSide :=
    { v0 := ⟨rfl, by simp [Plain, boxVertices, behindStar]⟩
      v1 := ⟨rfl, by simp [Plain, boxVertices, behindStar]⟩
      i := ⟨rfl, by simp [Plain]⟩
      f := ⟨rfl, by simp [Plain, boxSafe]⟩
      e := ⟨parse_boxEdges, by simp [Plain, boxUp, boxOut, boxSide, behindStar]⟩
      keys := BoxState.keys_boxMap
      separated := BoxState.separated }
  rcases gameOf_spec correct described with ⟨sp, builds, isAlphabet, isGame⟩
  refine ⟨sp, builds, isAlphabet, ?_⟩
  rw [isGame, box]
  congr 1
  · ext u
    exact mem_boxVertices
  · ext u
    exact mem_boxVertices
  · ext u
    exact mem_boxInitial
  · ext u
    exact mem_boxSafe
  · ext u v
    apply relates_union_iff.trans
    rw [relates_union_iff, or_assoc]

/-! ## The edges that stay in the arena -/

theorem separator_mem_position (turn : JChar) (n m : Nat) :
    98 ∈ position turn n m :=
  List.mem_cons_of_mem turn
    (List.mem_append_right (List.replicate n 97) List.mem_cons_self)

theorem separator_notMem_replicate (n : Nat) :
    (98 : JChar) ∉ List.replicate n 97 := by
  intro member
  exact absurd (List.eq_of_mem_replicate member) (by decide)

/-- The edges of the two other branches change the player. -/
theorem box_alternates {u v : Word} (edge : Relates boxUp u v ∨ Relates boxSide u v) :
    u ∈ box.player0 ∧ v ∈ box.player1 ∨ u ∈ box.player1 ∧ v ∈ box.player0 := by
  rcases edge with up | side
  · rcases relates_boxUp_iff.mp up with ⟨n, m, rfl, rfl⟩
    exact Or.inl ⟨⟨n, m, rfl⟩, n + 1, m, rfl⟩
  · rcases relates_boxSide_iff.mp side with ⟨n, m, ⟨rfl, rfl⟩ | ⟨rfl, rfl⟩⟩
    · exact Or.inr ⟨⟨n, m, rfl⟩, n, m + 1, rfl⟩
    · exact Or.inr ⟨⟨n, m + 1, rfl⟩, n, m, rfl⟩

theorem separator_mem_vertex {u : Word}
    (vertex : u ∈ box.player0 ∨ u ∈ box.player1) : 98 ∈ u := by
  rcases vertex with ⟨n, m, rfl⟩ | ⟨n, m, rfl⟩
  · exact separator_mem_position 97 n m
  · exact separator_mem_position 98 n m

/--
An edge of the box game changes the player exactly when the separator occurs in
its target, and every vertex has a successor.
-/
theorem boxGame_spec {ops : Operations} (correct : ops.Correct) :
    ∃ sp, boxGame ops correct = some sp ∧
      (∀ u v, sp.game.edge u v →
        ((u ∈ sp.game.player0 ∧ v ∈ sp.game.player1 ∨
          u ∈ sp.game.player1 ∧ v ∈ sp.game.player0) ↔ 98 ∈ v)) ∧
      ∀ u ∈ sp.game.player0 ∪ sp.game.player1, ∃ v, sp.game.edge u v := by
  rcases boxGame_eq_box correct with ⟨sp, builds, _, isBox⟩
  refine ⟨sp, builds, ?_⟩
  rw [isBox]
  constructor
  · intro u v edge
    constructor
    · rintro (⟨_, vertex⟩ | ⟨_, vertex⟩)
      · exact separator_mem_vertex (Or.inr vertex)
      · exact separator_mem_vertex (Or.inl vertex)
    · intro separator
      rcases edge with up | out | side
      · exact box_alternates (Or.inl up)
      · rcases relates_boxOut_iff.mp out with ⟨n, m, _, rfl⟩
        exact absurd separator (separator_notMem_replicate _)
      · exact box_alternates (Or.inr side)
  · rintro _ (⟨n, m, rfl⟩ | ⟨n, m, rfl⟩)
    · exact ⟨_, Or.inl (relates_boxUp_iff.mpr ⟨n, m, rfl, rfl⟩)⟩
    · exact ⟨_, Or.inr (Or.inr
        (relates_boxSide_iff.mpr ⟨n, m, Or.inl ⟨rfl, rfl⟩⟩))⟩

/--
Two edges of the box game on reference operations: the one from `ab` up to `bab`,
with a separator in its target, changes the player, and the one from `ab` out to
`aa` does not.
-/
theorem boxGame_reference :
    ∃ sp, boxGame referenceOperations referenceOperations_correct = some sp ∧
      (sp.game.edge [97, 98] [98, 97, 98] ∧
        ([97, 98] ∈ sp.game.player0 ∧ [98, 97, 98] ∈ sp.game.player1 ∨
          [97, 98] ∈ sp.game.player1 ∧ [98, 97, 98] ∈ sp.game.player0)) ∧
      (sp.game.edge [97, 98] [97, 97] ∧
        ¬ ([97, 98] ∈ sp.game.player0 ∧ [97, 97] ∈ sp.game.player1 ∨
          [97, 98] ∈ sp.game.player1 ∧ [97, 97] ∈ sp.game.player0)) ∧
      ∀ u ∈ sp.game.player0 ∪ sp.game.player1, ∃ v, sp.game.edge u v := by
  rcases boxGame_spec referenceOperations_correct with
    ⟨sp, builds, changes, moves⟩
  have isBox : sp.game = box := by
    rcases boxGame_eq_box referenceOperations_correct with
      ⟨other, found, _, isBox⟩
    cases found.symm.trans builds
    exact isBox
  have up : sp.game.edge [97, 98] [98, 97, 98] := by
    rw [isBox]
    exact Or.inl (relates_boxUp_iff.mpr ⟨0, 0, rfl, rfl⟩)
  have out : sp.game.edge [97, 98] [97, 97] := by
    rw [isBox]
    exact Or.inr (Or.inl (relates_boxOut_iff.mpr ⟨1, 0, rfl, rfl⟩))
  refine ⟨sp, builds, ⟨up, (changes _ _ up).mpr (by decide)⟩, ⟨out, ?_⟩, moves⟩
  intro alternates
  exact absurd ((changes _ _ out).mp alternates) (by decide)

/--
From the vertex `ab` of the system an edge leads to `aa`, which is no vertex.
-/
theorem boxGame_leaves_arena :
    ∃ sp, boxGame referenceOperations referenceOperations_correct = some sp ∧
      sp.game.edge [97, 98] [97, 97] ∧ [97, 98] ∈ sp.game.player0 ∧
      [97, 97] ∉ sp.game.player0 ∪ sp.game.player1 ∧
      ¬ ∀ u v, sp.game.edge u v →
        (u ∈ sp.game.player0 ∧ v ∈ sp.game.player1 ∨
          u ∈ sp.game.player1 ∧ v ∈ sp.game.player0) := by
  rcases boxGame_eq_box referenceOperations_correct with ⟨sp, builds, _, isBox⟩
  refine ⟨sp, builds, ?_⟩
  rw [isBox]
  have edge : box.edge [97, 98] [97, 97] :=
    Or.inr (Or.inl (relates_boxOut_iff.mpr ⟨1, 0, rfl, rfl⟩))
  have outside : [97, 97] ∉ box.player0 ∪ box.player1 :=
    fun vertex => absurd (separator_mem_vertex vertex) (by decide)
  refine ⟨edge, ⟨0, 0, rfl⟩, outside, ?_⟩
  intro alternates
  rcases alternates _ _ edge with ⟨_, vertex⟩ | ⟨_, vertex⟩
  · exact outside (Or.inr vertex)
  · exact outside (Or.inl vertex)

end SafetyGames.Problem
