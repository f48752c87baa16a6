import SafetyGames.Problem.FromRegExp

/-!
# The linear game

`linearGame(k)` writes its arena as regular expressions: the vertices `sl*` of
the system and `el*` of the environment, and the edges over letters that stand
for pairs.  The expressions describe a line without an end on which the system
wins from the vertices behind the `k`-th.
-/

namespace SafetyGames.Problem

open SafetyGames.Transducer SafetyGames.Teacher SafetyGames.Regular
open SafetyGames.Game RegExp
open Computability

/-! ## The expressions -/

/-- `Integer.toString(i)`. -/
def intText (i : Int32) : Word :=
  if i.toInt < 0 then
    45 :: Decimal.decimal i.toInt.natAbs
  else
    Decimal.decimal i.toInt.natAbs

/-- The pairs of the letters: `se`, `es`, `ll`, `-l` and `l-`. -/
def linearMap : PairMap :=
  hashMap [([97], [115, 101]), ([98], [101, 115]), ([99], [108, 108]),
    ([100], [45, 108]), ([101], [108, 45])]

/-- The expressions of `linearGame(k)`. -/
def linearExpressions (k : Int32) : Expressions where
  -- e, s, l
  alphabet := [101, 115, 108]
  -- sl*
  v0 := [115, 108, 42]
  -- el*
  v1 := [101, 108, 42]
  -- sl{k-1}l+
  i := [115, 108, 123] ++ intText (k - 1) ++ [125, 108, 43]
  -- (s|e)l{k-1}l+
  f := [40, 115, 124, 101, 41, 108, 123] ++ intText (k - 1) ++ [125, 108, 43]
  -- (ac*d?)|(bc*e?)
  e := [40, 97, 99, 42, 100, 63, 41, 124, 40, 98, 99, 42, 101, 63, 41]
  map := linearMap

/-- `SafetyProblem.linearGame(k)`. -/
def linearGame (ops : Operations) (correct : ops.Correct) (k : Int32) :
    Option SafetyProblem :=
  gameOf ops correct (linearExpressions k)

theorem intText_pred {k : Int32} (positive : 1 ≤ k) :
    intText (k - 1) = Decimal.decimal (k.toInt.toNat - 1) ∧
      k.toInt.toNat - 1 < 2 ^ 31 ∧ 1 ≤ k.toInt.toNat := by
  have lower := Int32.le_iff_toInt_le.mp positive
  have upper := k.toInt_lt
  have pred : (k - 1).toInt = k.toInt - 1 :=
    Int32.toInt_sub_of_le k 1 (by decide) positive
  have one : (1 : Int32).toInt = 1 := rfl
  rw [one] at lower
  rw [intText, pred, if_neg (by omega)]
  refine ⟨?_, by omega, by omega⟩
  congr 1
  omega

/-- `l{n}l+`. -/
def atLeast (n : Nat) : RegExp :=
  .concatenation (.repeatMinMax (.char 108) n n) (.repeatMin (.char 108) 1)

/-- Its text. -/
def atLeastText (n : Nat) : Word :=
  108 :: 123 :: (Decimal.decimal n ++ [125, 108, 43])

section Parsing

variable {n : Nat} (small : n < 2 ^ 31)
include small

theorem parseConcatExp_atLeast (fuel pos : Nat) :
    ∃ after, parseConcatExp (fuel + 10) ⟨pos, atLeastText n⟩ =
      .ok (atLeast n, ⟨after, []⟩) := by
  have repeated : parseRepeatExp (fuel + 9) ⟨pos, atLeastText n⟩ =
      .ok (.repeatMinMax (.char 108) n n,
        ⟨pos + 1 + 1 + (Decimal.decimal n).length + 1, [108, 43]⟩) := by
    rw [parseRepeatExp, atLeastText, parseComplExp_free (fuel + 5) (by decide)]
    change (parseBounds (.char 108) ⟨pos + 1 + 1, _⟩ >>= _) = _
    rw [parseBounds_decimal small]
    rfl
  rw [parseConcatExp, repeated]
  exact ⟨_, rfl⟩

/-- An expression in front of `l{n}l+` that the parser reads first. -/
theorem parse_atLeast {before : Word} {e : RegExp} (nonempty : before ≠ [])
    (first : ∀ fuel, parseRepeatExp (fuel + 20) ⟨0, before ++ atLeastText n⟩ =
      .ok (e, ⟨before.length, atLeastText n⟩))
    (joins : makeConcatenation e (atLeast n) = .concatenation e (atLeast n)) :
    parse (before ++ atLeastText n) = .ok (.concatenation e (atLeast n)) := by
  generalize isFuel :
    8 * before.length + 8 * (Decimal.decimal n).length + 25 = fuel
  rcases parseConcatExp_atLeast small (fuel + 10) before.length with
    ⟨after, rest⟩
  have enough : fuelFor (before ++ atLeastText n) = fuel + 21 + 2 := by
    simp only [fuelFor, atLeastText, List.length_append, List.length_cons,
      List.length_nil]
    omega
  have parsed : parseConcatExp (fuel + 21) ⟨0, before ++ atLeastText n⟩ =
      .ok (.concatenation e (atLeast n), ⟨after, []⟩) := by
    rw [parseConcatExp, first]
    change (parseConcatExp _ ⟨before.length, atLeastText n⟩ >>= _) = _
    rw [rest, ← joins]
    rfl
  exact parse_of_concatExp
    (fun isNil => nonempty (List.append_eq_nil_iff.mp isNil).1) enough parsed

end Parsing

/-! ## The edges -/

/-- `(ac*d?)|(bc*e?)` is a union of these. -/
def linearEdges (letter last : JChar) : RegExp :=
  .concatenation (.char letter)
    (.concatenation (.repetition (.char 99)) (.optional (.char last)))

/-- Where a word over the letters of the edges may stand. -/
inductive LinearState where
  | start
  | fromSystem
  | fromEnvironment
  | done
deriving DecidableEq

namespace LinearState

/-- What may follow. -/
noncomputable def residual : LinearState → Language JChar
  | start => meaning (.union (linearEdges 97 100) (linearEdges 98 101))
  | fromSystem => ({[99]} : Language JChar)∗ * ({[100]} + 1)
  | fromEnvironment => ({[99]} : Language JChar)∗ * ({[101]} + 1)
  | done => 1

/-- The letters that lead on. -/
def arrows : List (Arrow LinearState JChar) :=
  [⟨start, 97, fromSystem⟩, ⟨start, 98, fromEnvironment⟩,
    ⟨fromSystem, 99, fromSystem⟩, ⟨fromSystem, 100, done⟩,
    ⟨fromEnvironment, 99, fromEnvironment⟩, ⟨fromEnvironment, 101, done⟩]

theorem residuals : Residuals arrows residual where
  cons source head word := by
    cases source with
    | start =>
        simp [-add_eq_sup, residual, arrows, meaning, linearEdges,
          Language.mem_add, cons_mem_letter_mul, eq_comm]
    | fromSystem =>
        simp [-add_eq_sup, residual, arrows, Language.mem_add,
          cons_mem_letter_kstar_mul, mem_singleton, eq_comm]
    | fromEnvironment =>
        simp [-add_eq_sup, residual, arrows, Language.mem_add,
          cons_mem_letter_kstar_mul, mem_singleton, eq_comm]
    | done => simp [residual, arrows]
  functional := by decide

/-- Only behind a first `a` may `d` be next; there `b` and `d` succeed other
letters. -/
theorem separated : Separated Successive (residual start) := by
  have pairs : ∀ left ∈ arrows, ∀ right ∈ arrows,
      left.source = right.source →
        right.letter.toNat = left.letter.toNat + 1 →
          left.target = fromSystem ∧
            (right.target = fromEnvironment ∨ right.target = done) := by
    decide
  have inside : [100] ∈ residual fromSystem := by
    rw [residuals.cons]
    exact ⟨⟨fromSystem, 100, done⟩, by decide, rfl, rfl, rfl⟩
  have outside : [100] ∉ residual fromEnvironment ∧ [100] ∉ residual done := by
    simp [residuals.cons, arrows]
  apply residuals.separated
  intro left inLeft right inRight sameSource successive same
  rcases pairs left inLeft right inRight sameSource successive with
    ⟨isLeft, isRight | isRight⟩
  · rw [isLeft, isRight] at same
    exact outside.1 (same ▸ inside)
  · rw [isLeft, isRight] at same
    exact outside.2 (same ▸ inside)

end LinearState

theorem keys_linearMap : Keys linearMap (LinearState.residual .start) :=
  keys_of_arrows LinearState.residuals (by decide) .start

/-! ## The arena -/

/-- The vertex `sl^m`. -/
def system (m : Nat) : Word :=
  115 :: List.replicate m 108

/-- The vertex `el^m`. -/
def environment (m : Nat) : Word :=
  101 :: List.replicate m 108

/-- The line of the vertices; the safe ones begin with the `k`-th. -/
def line (k : Nat) : SafetyGame Word where
  player0 := {u | ∃ m, u = system m}
  player1 := {u | ∃ m, u = environment m}
  initial := {u | ∃ m, k ≤ m ∧ u = system m}
  safe := {u | ∃ m, k ≤ m ∧ (u = system m ∨ u = environment m)}
  edge u v := ∃ m, u = system m ∧ v = environment m ∨
    u = system m ∧ v = environment (m + 1) ∨
    u = environment m ∧ v = system m ∨
    u = environment (m + 1) ∧ v = system m

/-- The vertices from which the system wins. -/
def winningVertices (k : Nat) : Set Word :=
  {u | ∃ m, k ≤ m ∧ u = system m} ∪ {u | ∃ m, k + 1 ≤ m ∧ u = environment m}

/-- The words of the edges, by their first letter and their last. -/
theorem mem_linearEdges {letter last : JChar} {word : Word} :
    word ∈ meaning (linearEdges letter last) ↔
      ∃ m, word = letter :: (List.replicate m 99 ++ []) ∨
        word = letter :: (List.replicate m 99 ++ [last]) := by
  simp only [linearEdges, meaning, mem_letter_mul, mem_letter_kstar_mul]
  constructor
  · rintro ⟨_, ⟨m, rest, isLast | isNil, rfl⟩, rfl⟩
    · cases isLast
      exact ⟨m, Or.inr rfl⟩
    · cases isNil
      exact ⟨m, Or.inl rfl⟩
  · rintro ⟨m, rfl | rfl⟩
    · exact ⟨_, ⟨m, [], Or.inr rfl, rfl⟩, rfl⟩
    · exact ⟨_, ⟨m, [last], Or.inl rfl, rfl⟩, rfl⟩

/-- The components of a word of the edges. -/
theorem linearMap_components {letter x y : JChar}
    (isPair : pairOf linearMap letter = ⟨x, y⟩) (left : x ≠ dash)
    (right : y ≠ dash) (m : Nat) (rest : Word) :
    h1 linearMap (letter :: (List.replicate m 99 ++ rest)) =
        x :: (List.replicate m 108 ++ h1 linearMap rest) ∧
      h2 linearMap (letter :: (List.replicate m 99 ++ rest)) =
        y :: (List.replicate m 108 ++ h2 linearMap rest) := by
  have loop : pairOf linearMap 99 = ⟨108, 108⟩ := rfl
  constructor
  · rw [h1_cons_of_ne isPair left, h1_replicate_append loop (by decide)]
  · rw [h2_cons_of_ne isPair right, h2_replicate_append loop (by decide)]

theorem system_components (m : Nat) (rest : Word) :
    h1 linearMap (97 :: (List.replicate m 99 ++ rest)) =
        115 :: (List.replicate m 108 ++ h1 linearMap rest) ∧
      h2 linearMap (97 :: (List.replicate m 99 ++ rest)) =
        101 :: (List.replicate m 108 ++ h2 linearMap rest) :=
  linearMap_components rfl (by decide) (by decide) m rest

theorem environment_components (m : Nat) (rest : Word) :
    h1 linearMap (98 :: (List.replicate m 99 ++ rest)) =
        101 :: (List.replicate m 108 ++ h1 linearMap rest) ∧
      h2 linearMap (98 :: (List.replicate m 99 ++ rest)) =
        115 :: (List.replicate m 108 ++ h2 linearMap rest) :=
  linearMap_components rfl (by decide) (by decide) m rest

theorem system_eq (m : Nat) : system m = 115 :: (List.replicate m 108 ++ []) := by
  rw [List.append_nil, system]

theorem environment_eq (m : Nat) :
    environment m = 101 :: (List.replicate m 108 ++ []) := by
  rw [List.append_nil, environment]

theorem environment_succ (m : Nat) :
    environment (m + 1) = 101 :: (List.replicate m 108 ++ [108]) := by
  rw [environment, List.replicate_succ']

/-- The expression of the edges describes the edges of the line. -/
theorem line_edge_iff (k : Nat) {u v : Word} :
    (∃ word ∈ meaning (.union (linearEdges 97 100) (linearEdges 98 101)),
      h1 linearMap word = u ∧ h2 linearMap word = v) ↔ (line k).edge u v := by
  constructor
  · rintro ⟨word, member, rfl, rfl⟩
    rcases member with member | member
    · rcases mem_linearEdges.mp member with ⟨m, rfl | rfl⟩
      · refine ⟨m, Or.inl ?_⟩
        rw [system_eq, environment_eq]
        exact system_components m []
      · refine ⟨m, Or.inr (Or.inl ?_)⟩
        rw [system_eq, environment_succ]
        exact system_components m [100]
    · rcases mem_linearEdges.mp member with ⟨m, rfl | rfl⟩
      · refine ⟨m, Or.inr (Or.inr (Or.inl ?_))⟩
        rw [system_eq, environment_eq]
        exact environment_components m []
      · refine ⟨m, Or.inr (Or.inr (Or.inr ?_))⟩
        rw [system_eq, environment_succ]
        exact environment_components m [101]
  · rintro ⟨m, ⟨rfl, rfl⟩ | ⟨rfl, rfl⟩ | ⟨rfl, rfl⟩ | ⟨rfl, rfl⟩⟩
    · rw [system_eq, environment_eq]
      exact ⟨_, Or.inl (mem_linearEdges.mpr ⟨m, Or.inl rfl⟩),
        system_components m []⟩
    · rw [system_eq, environment_succ]
      exact ⟨_, Or.inl (mem_linearEdges.mpr ⟨m, Or.inr rfl⟩),
        system_components m [100]⟩
    · rw [system_eq, environment_eq]
      exact ⟨_, Or.inr (mem_linearEdges.mpr ⟨m, Or.inl rfl⟩),
        environment_components m []⟩
    · rw [system_eq, environment_succ]
      exact ⟨_, Or.inr (mem_linearEdges.mpr ⟨m, Or.inr rfl⟩),
        environment_components m [101]⟩

/-! ## The vertices -/

theorem mem_letter_star {c : JChar} {word : Word} :
    word ∈ meaning (.concatenation (.char c) (.repetition (.char 108))) ↔
      ∃ m, word = c :: List.replicate m 108 := by
  simp only [meaning, mem_letter_mul, mem_letter_kstar]
  constructor
  · rintro ⟨_, ⟨m, rfl⟩, rfl⟩
    exact ⟨m, rfl⟩
  · rintro ⟨m, rfl⟩
    exact ⟨_, ⟨m, rfl⟩, rfl⟩

theorem mem_atLeast {n : Nat} {word : Word} :
    word ∈ meaning (atLeast n) ↔
      ∃ m, n + 1 ≤ m ∧ word = List.replicate m 108 := by
  rw [atLeast, meaning, meaning, meaning, meaning, pow_one, Language.mem_mul]
  constructor
  · rintro ⟨_, ⟨i, lower, upper, isPower⟩, _, further, rfl⟩
    rcases mem_letter_mul.mp further with ⟨_, inStar, rfl⟩
    rcases mem_letter_kstar.mp inStar with ⟨j, rfl⟩
    refine ⟨n + (j + 1), by omega, ?_⟩
    rw [mem_letter_pow.mp isPower, show i = n by omega]
    exact (List.replicate_add n (j + 1) 108).symm
  · rintro ⟨m, lower, rfl⟩
    refine ⟨List.replicate n 108, ⟨n, le_rfl, le_rfl, mem_letter_pow.mpr rfl⟩,
      List.replicate (m - n) 108, ?_, ?_⟩
    · apply mem_letter_mul.mpr
      refine ⟨List.replicate (m - n - 1) 108, mem_letter_kstar.mpr ⟨_, rfl⟩, ?_⟩
      rw [← List.replicate_succ]
      congr 1
      omega
    · rw [← List.replicate_add]
      congr 1
      omega

theorem parse_initial {k : Int32} {n : Nat} (small : n < 2 ^ 31)
    (isText : intText (k - 1) = Decimal.decimal n) :
    parse (linearExpressions k).i =
      .ok (.concatenation (.char 115) (atLeast n)) := by
  rw [linearExpressions, isText]
  exact parse_atLeast small (List.cons_ne_nil 115 []) (fun _ => rfl) rfl

theorem parse_safe {k : Int32} {n : Nat} (small : n < 2 ^ 31)
    (isText : intText (k - 1) = Decimal.decimal n) :
    parse (linearExpressions k).f =
      .ok (.concatenation (.union (.char 115) (.char 101)) (atLeast n)) := by
  rw [linearExpressions, isText]
  exact parse_atLeast small (List.cons_ne_nil 40 [115, 124, 101, 41])
    (fun _ => rfl) rfl

theorem mem_linearInitial {n : Nat} {word : Word} :
    word ∈ meaning (.concatenation (.char 115) (atLeast n)) ↔
      word ∈ (line (n + 1)).initial := by
  apply mem_letter_mul.trans
  constructor
  · rintro ⟨_, member, rfl⟩
    rcases mem_atLeast.mp member with ⟨m, order, rfl⟩
    exact ⟨m, order, rfl⟩
  · rintro ⟨m, order, rfl⟩
    exact ⟨_, mem_atLeast.mpr ⟨m, order, rfl⟩, rfl⟩

theorem mem_linearSafe {n : Nat} {word : Word} :
    word ∈ meaning (.concatenation (.union (.char 115) (.char 101)) (atLeast n)) ↔
      word ∈ (line (n + 1)).safe := by
  constructor
  · rintro ⟨_, isFirst, _, member, rfl⟩
    rcases mem_atLeast.mp member with ⟨m, order, rfl⟩
    rcases isFirst with isFirst | isFirst
    · cases isFirst
      exact ⟨m, order, Or.inl rfl⟩
    · cases isFirst
      exact ⟨m, order, Or.inr rfl⟩
  · rintro ⟨m, order, rfl | rfl⟩
    · exact ⟨[115], Or.inl rfl, _, mem_atLeast.mpr ⟨m, order, rfl⟩, rfl⟩
    · exact ⟨[101], Or.inr rfl, _, mem_atLeast.mpr ⟨m, order, rfl⟩, rfl⟩

/-- The game that `linearGame(k)` builds is the line. -/
theorem linearGame_eq_line {ops : Operations} (correct : ops.Correct)
    {k : Int32} (positive : 1 ≤ k) :
    ∃ sp, linearGame ops correct k = some sp ∧
      sp.alphabet = [101, 115, 108] ∧ sp.game = line k.toInt.toNat := by
  rcases intText_pred positive with ⟨isText, small, lower⟩
  generalize isCount : k.toInt.toNat = count at isText small lower ⊢
  rcases Nat.exists_eq_succ_of_ne_zero (Nat.one_le_iff_ne_zero.mp lower) with
    ⟨n, rfl⟩
  rw [Nat.succ_sub_one] at isText small
  have described : Described (linearExpressions k)
      (.concatenation (.char 115) (.repetition (.char 108)))
      (.concatenation (.char 101) (.repetition (.char 108)))
      (.concatenation (.char 115) (atLeast n))
      (.concatenation (.union (.char 115) (.char 101)) (atLeast n))
      (linearEdges 97 100) (linearEdges 98 101) :=
    { v0 := ⟨rfl, by simp [Plain]⟩
      v1 := ⟨rfl, by simp [Plain]⟩
      i := ⟨parse_initial small isText, by simp [Plain, atLeast]⟩
      f := ⟨parse_safe small isText, by simp [Plain, atLeast]⟩
      e := ⟨rfl, by simp [Plain, linearEdges]⟩
      keys := keys_linearMap
      separated := LinearState.separated }
  rcases gameOf_spec correct described with ⟨sp, builds, isAlphabet, isGame⟩
  refine ⟨sp, builds, isAlphabet, ?_⟩
  rw [isGame, line]
  congr 1
  · ext u
    exact mem_letter_star
  · ext u
    exact mem_letter_star
  · ext u
    exact mem_linearInitial
  · ext u
    exact mem_linearSafe
  · ext u v
    exact line_edge_iff n.succ

/-! ## The winning set of the line -/

theorem system_inj {m n : Nat} (same : system m = system n) : m = n := by
  have lengths := congrArg List.length same
  simpa [system] using lengths

theorem environment_inj {m n : Nat} (same : environment m = environment n) :
    m = n := by
  have lengths := congrArg List.length same
  simpa [environment] using lengths

theorem system_ne_environment (m n : Nat) : system m ≠ environment n := by
  intro same
  exact absurd (List.cons.inj same).1 (by decide)

/-- The moves of the system. -/
theorem line_system_iff {k m : Nat} {v : Word} :
    (line k).edge (system m) v ↔ v = environment m ∨ v = environment (m + 1) := by
  constructor
  · rintro ⟨n, ⟨same, rfl⟩ | ⟨same, rfl⟩ | ⟨same, _⟩ | ⟨same, _⟩⟩
    · rw [system_inj same]
      exact Or.inl rfl
    · rw [system_inj same]
      exact Or.inr rfl
    · exact absurd same (system_ne_environment m n)
    · exact absurd same (system_ne_environment m (n + 1))
  · rintro (rfl | rfl)
    · exact ⟨m, Or.inl ⟨rfl, rfl⟩⟩
    · exact ⟨m, Or.inr (Or.inl ⟨rfl, rfl⟩)⟩

/-- The moves of the environment. -/
theorem line_environment_iff {k m : Nat} {v : Word} :
    (line k).edge (environment m) v ↔
      v = system m ∨ ∃ n, m = n + 1 ∧ v = system n := by
  constructor
  · rintro ⟨n, ⟨same, _⟩ | ⟨same, _⟩ | ⟨same, rfl⟩ | ⟨same, rfl⟩⟩
    · exact absurd same.symm (system_ne_environment n m)
    · exact absurd same.symm (system_ne_environment n m)
    · rw [environment_inj same]
      exact Or.inl rfl
    · exact Or.inr ⟨n, environment_inj same, rfl⟩
  · rintro (rfl | ⟨n, rfl, rfl⟩)
    · exact ⟨m, Or.inr (Or.inr (Or.inl ⟨rfl, rfl⟩))⟩
    · exact ⟨n, Or.inr (Or.inr (Or.inr ⟨rfl, rfl⟩))⟩

theorem winning_line (k : Nat) : Winning (line k) (winningVertices k) where
  initial := by
    rintro _ ⟨m, order, rfl⟩
    exact Or.inl ⟨m, order, rfl⟩
  safe := by
    rintro _ (⟨m, order, rfl⟩ | ⟨m, order, rfl⟩)
    · exact ⟨m, order, Or.inl rfl⟩
    · exact ⟨m, Nat.le_of_succ_le order, Or.inr rfl⟩
  existential := by
    rintro _ inside ⟨m, rfl⟩
    rcases inside with ⟨n, order, same⟩ | ⟨n, _, same⟩
    · rw [← system_inj same] at order
      exact ⟨environment (m + 1), Or.inr ⟨m + 1, Nat.succ_le_succ order, rfl⟩,
        line_system_iff.mpr (Or.inr rfl)⟩
    · exact absurd same (system_ne_environment m n)
  universal := by
    rintro _ inside ⟨m, rfl⟩ v edge
    rcases inside with ⟨n, _, same⟩ | ⟨n, order, same⟩
    · exact absurd same.symm (system_ne_environment n m)
    · rw [← environment_inj same] at order
      rcases line_environment_iff.mp edge with rfl | ⟨previous, rfl, rfl⟩
      · exact Or.inl ⟨m, Nat.le_of_succ_le order, rfl⟩
      · exact Or.inl ⟨previous, Nat.le_of_succ_le_succ order, rfl⟩

/-- In front of the `k`-th vertex of the environment lies an unsafe one. -/
theorem subset_winningVertices {k : Nat} (positive : 1 ≤ k)
    {set : Set Word} (wins : Winning (line k) set) :
    set ⊆ winningVertices k := by
  intro u member
  rcases wins.safe member with ⟨m, order, rfl | rfl⟩
  · exact Or.inl ⟨m, order, rfl⟩
  · rcases Nat.lt_or_ge k m with less | small
    · exact Or.inr ⟨m, less, rfl⟩
    · rcases Nat.exists_eq_succ_of_ne_zero (Nat.one_le_iff_ne_zero.mp
        (positive.trans order)) with ⟨previous, rfl⟩
      have further := wins.universal _ member ⟨_, rfl⟩ _
        (line_environment_iff.mpr (Or.inr ⟨previous, rfl, rfl⟩))
      rcases wins.safe further with ⟨n, inOrder, same | same⟩
      · have isPrevious := system_inj same
        omega
      · exact absurd same (system_ne_environment previous n)

/--
The game of `linearGame(k)` is the line.  The players alternate, and the system
wins exactly from the vertices behind the `k`-th.
-/
theorem linearGame_spec {ops : Operations} (correct : ops.Correct) {k : Int32}
    (positive : 1 ≤ k) :
    ∃ sp, linearGame ops correct k = some sp ∧
      (∀ u v, sp.game.edge u v ↔ ∃ m,
        u = system m ∧ v = environment m ∨
        u = system m ∧ v = environment (m + 1) ∨
        u = environment m ∧ v = system m ∨
        u = environment (m + 1) ∧ v = system m) ∧
      (∀ u ∈ sp.game.player0, (∃ v, sp.game.edge u v) ∧
        ∀ v, sp.game.edge u v → v ∈ sp.game.player1) ∧
      (∀ u ∈ sp.game.player1, (∃ v, sp.game.edge u v) ∧
        ∀ v, sp.game.edge u v → v ∈ sp.game.player0) ∧
      Winning sp.game (winningVertices k.toInt.toNat) ∧
      ∀ set, Winning sp.game set → set ⊆ winningVertices k.toInt.toNat := by
  rcases linearGame_eq_line correct positive with ⟨sp, builds, _, isLine⟩
  refine ⟨sp, builds, ?_⟩
  rw [isLine]
  refine ⟨fun _ _ => Iff.rfl, ?_, ?_, winning_line _, ?_⟩
  · rintro _ ⟨m, rfl⟩
    refine ⟨⟨_, line_system_iff.mpr (Or.inl rfl)⟩, ?_⟩
    intro v edge
    rcases line_system_iff.mp edge with rfl | rfl
    · exact ⟨m, rfl⟩
    · exact ⟨m + 1, rfl⟩
  · rintro _ ⟨m, rfl⟩
    refine ⟨⟨_, line_environment_iff.mpr (Or.inl rfl)⟩, ?_⟩
    intro v edge
    rcases line_environment_iff.mp edge with rfl | ⟨n, _, rfl⟩
    · exact ⟨m, rfl⟩
    · exact ⟨n, rfl⟩
  · intro set wins
    exact subset_winningVertices (intText_pred positive).2.2 wins

/--
The game that `Main` asks for, `linearGame(3)`: the system steps from its vertex
zero to the next one of the environment, who cannot step on two vertices at once,
and it wins exactly from the vertices behind the third.
-/
theorem linearGame_three :
    ∃ sp, linearGame referenceOperations referenceOperations_correct 3 =
        some sp ∧
      sp.game.edge (system 0) (environment 1) ∧
      ¬ sp.game.edge (environment 0) (system 2) ∧
      Winning sp.game (winningVertices 3) ∧
      ∀ set, Winning sp.game set → set ⊆ winningVertices 3 := by
  rcases linearGame_spec referenceOperations_correct
    (show (1 : Int32) ≤ 3 by decide) with
    ⟨sp, builds, edges, _, _, wins, greatest⟩
  refine ⟨sp, builds, (edges _ _).mpr ⟨0, Or.inr (Or.inl ⟨rfl, rfl⟩)⟩, ?_, wins,
    greatest⟩
  intro edge
  rcases (edges _ _).mp edge with
    ⟨m, ⟨same, _⟩ | ⟨same, _⟩ | ⟨first, second⟩ | ⟨same, _⟩⟩
  · exact system_ne_environment m 0 same.symm
  · exact system_ne_environment m 0 same.symm
  · have isZero := environment_inj first
    have isTwo := system_inj second
    omega
  · have isSucc := environment_inj same
    omega

end SafetyGames.Problem
