import SafetyGames.Teacher.RegExpMeaning

/-!
# Words that are read as themselves

Every production makes of the piece of the string that it reads either the piece
itself, if it is verbatim, or an expression that describes no single word as
long as the piece.  Only complements, intersections and bounds of repetitions
describe longer words, so a string without them is read as itself exactly if it
is verbatim.
-/

namespace SafetyGames.Teacher

open SafetyGames.Transducer SafetyGames.Transducer.RegExp SafetyGames.Regular
open Computability

/-! ## Languages of one word -/

section Singleton

variable {L M : Language JChar} {w : Word}

theorem nonempty_of_eq_singleton (single : L = {w}) : w ∈ L :=
  single ▸ Set.mem_singleton w

theorem zero_ne_singleton : (0 : Language JChar) ≠ {w} := by
  intro single
  exact Language.notMem_zero w (nonempty_of_eq_singleton single)

/-- A language with two words has not a single one. -/
theorem ne_singleton {x y : Word} (first : x ∈ L) (second : y ∈ L)
    (different : x ≠ y) : L ≠ {w} := by
  rintro rfl
  exact different (first.trans second.symm)

theorem add_eq_singleton (single : L + M = {w}) : L = {w} ∨ M = {w} := by
  have only : ∀ x, x ∈ L ∨ x ∈ M → x = w := by
    intro x member
    rw [← Language.mem_add, single] at member
    exact member
  rcases (Language.mem_add L M w).mp (nonempty_of_eq_singleton single) with
    inL | inM
  · refine Or.inl (Language.ext fun x => ⟨fun member => only x (Or.inl member), ?_⟩)
    rintro rfl
    exact inL
  · refine Or.inr (Language.ext fun x => ⟨fun member => only x (Or.inr member), ?_⟩)
    rintro rfl
    exact inM

/-- The word of a product is made of the words of the factors. -/
theorem mul_eq_singleton (single : L * M = {w}) :
    ∃ x y, L = {x} ∧ M = {y} ∧ w = x ++ y := by
  have only : ∀ x ∈ L, ∀ y ∈ M, x ++ y = w := by
    intro x inL y inM
    have member : x ++ y ∈ L * M := Language.append_mem_mul inL inM
    rw [single] at member
    exact member
  rcases Language.mem_mul.mp (nonempty_of_eq_singleton single) with
    ⟨x, inL, y, inM, isWord⟩
  refine ⟨x, y, Language.ext fun other => ?_, Language.ext fun other => ?_,
    isWord.symm⟩
  · constructor
    · intro member
      exact List.append_cancel_right
        ((only other member y inM).trans isWord.symm)
    · rintro rfl
      exact inL
  · constructor
    · intro member
      exact List.append_cancel_left
        ((only x inL other member).trans isWord.symm)
    · rintro rfl
      exact inM

theorem meaning_of_text {e : RegExp} {s : Word} (isText : e.text = some s) :
    meaning e = {s} := by
  cases e with
  | char c =>
      cases isText
      rw [meaning]
  | string s =>
      cases isText
      rw [meaning]
  | _ => cases isText

theorem singleton_mul_singleton (x y : Word) :
    ({x} : Language JChar) * {y} = {x ++ y} := by
  ext word
  rw [Language.mem_mul]
  constructor
  · rintro ⟨_, rfl, _, rfl, rfl⟩
    rfl
  · rintro rfl
    exact ⟨x, rfl, y, rfl, rfl⟩

/-- Joining adjacent strings does not change the language. -/
theorem meaning_makeConcatenation (e1 e2 : RegExp) :
    meaning (makeConcatenation e1 e2) = meaning e1 * meaning e2 := by
  rw [makeConcatenation]
  split
  · next first second =>
      rw [meaning_of_text first, meaning_of_text second, meaning,
        singleton_mul_singleton]
  · next second =>
      split
      · split
        · next first =>
            rw [meaning, meaning, meaning, meaning_of_text first,
              meaning_of_text second, mul_assoc, singleton_mul_singleton]
        · rw [meaning]
      · rw [meaning]
  · next first _ =>
      split
      · split
        · next second =>
            rw [meaning, meaning, meaning, meaning_of_text first,
              meaning_of_text second, ← mul_assoc, singleton_mul_singleton]
        · rw [meaning]
      · rw [meaning]
  · rw [meaning]

end Singleton

/-! ## What an expression is of the piece it was read from -/

section Renders

variable {e e1 e2 : RegExp} {piece piece1 piece2 w : Word}

/-- A single word that the expression describes is shorter than the piece. -/
def Shrinks (e : RegExp) (piece : Word) : Prop :=
  ∀ w, meaning e = {w} → w.length < piece.length

/-- The expression is the piece. -/
def Copies (e : RegExp) (piece : Word) : Prop :=
  Verbatim piece ∧ e.text = some piece

/-- The expression is the piece or describes no single word as long. -/
def Renders (e : RegExp) (piece : Word) : Prop :=
  Copies e piece ∨ Shrinks e piece

theorem Renders.length_le (renders : Renders e piece) (single : meaning e = {w}) :
    w.length ≤ piece.length := by
  rcases renders with ⟨_, isText⟩ | shrinks
  · rw [meaning_of_text isText] at single
    rw [Set.singleton_injective single]
  · exact (shrinks w single).le

theorem shrinks_union (first : Renders e1 piece1) (second : Renders e2 piece2) :
    Shrinks (.union e1 e2) (piece1 ++ 124 :: piece2) := by
  intro w single
  rw [meaning] at single
  rw [List.length_append, List.length_cons]
  rcases add_eq_singleton single with left | right
  · have bound := first.length_le left
    omega
  · have bound := second.length_le right
    omega

/-- Two pieces are copied together if the second does not go on where an
operator could stand. -/
theorem renders_makeConcatenation (first : Renders e1 piece1)
    (second : Renders e2 piece2) (nonempty : piece1 ≠ [])
    (goesOn : ∀ c ∈ piece2.head?, c ∈ reserved → c ∈ openers) :
    Renders (makeConcatenation e1 e2) (piece1 ++ piece2) := by
  have bounds : ∀ w, meaning (makeConcatenation e1 e2) = {w} →
      ∃ x y, meaning e1 = {x} ∧ meaning e2 = {y} ∧ w = x ++ y := by
    intro w single
    rw [meaning_makeConcatenation] at single
    exact mul_eq_singleton single
  rcases first with ⟨verbatim1, text1⟩ | shrinks1
  · rcases second with ⟨verbatim2, text2⟩ | shrinks2
    · left
      refine ⟨?_, by rw [makeConcatenation_of_text text1 text2]; rfl⟩
      rcases List.exists_cons_of_ne_nil nonempty with ⟨c, rest, rfl⟩
      refine ⟨verbatim1.1, fun d member => ?_⟩
      rcases List.mem_append.mp member with inFirst | inSecond
      · exact verbatim1.2 d inFirst
      · cases piece2 with
        | nil => exact absurd inSecond List.not_mem_nil
        | cons head tail =>
            rcases List.mem_cons.mp inSecond with rfl | inTail
            · exact fun isReserved =>
                verbatim2.1 (goesOn d rfl isReserved)
            · exact verbatim2.2 d inTail
    · right
      intro w single
      rcases bounds w single with ⟨x, y, left, right, rfl⟩
      have shorter := shrinks2 y right
      have bound := Renders.length_le (Or.inl ⟨verbatim1, text1⟩) left
      rw [List.length_append, List.length_append]
      omega
  · right
    intro w single
    rcases bounds w single with ⟨x, y, left, right, rfl⟩
    have shorter := shrinks1 x left
    have bound := second.length_le right
    rw [List.length_append, List.length_append]
    omega

theorem shrinks_optional (nonempty : piece ≠ []) : Shrinks (.optional e) piece := by
  intro w single
  rw [meaning] at single
  have empty : [] ∈ meaning e + 1 :=
    (Language.mem_add _ _ _).mpr (Or.inr Language.nil_mem_one)
  rw [single] at empty
  rw [← show [] = w from empty]
  exact List.length_pos_of_ne_nil nonempty

theorem shrinks_repetition (nonempty : piece ≠ []) :
    Shrinks (.repetition e) piece := by
  intro w single
  rw [meaning] at single
  have empty := Language.nil_mem_kstar (meaning e)
  rw [single] at empty
  rw [← show [] = w from empty]
  exact List.length_pos_of_ne_nil nonempty

theorem shrinks_repeatMin_one (renders : Renders e piece) :
    Shrinks (.repeatMin e 1) (piece ++ [43]) := by
  intro w single
  rw [meaning, pow_one] at single
  rcases mul_eq_singleton single with ⟨x, y, left, right, rfl⟩
  have empty := Language.nil_mem_kstar (meaning e)
  rw [right] at empty
  have bound := renders.length_le left
  rw [List.length_append, List.length_append, ← show [] = y from empty,
    List.length_singleton, List.length_nil]
  omega

end Renders

/-! ## Strings without the operators of longer words -/

/-- Behind the first character there is no intersection and no bound of a
repetition, and nowhere a complement. -/
structure Elementary (s : Word) : Prop where
  complement : 126 ∉ s
  intersection : 38 ∉ s.tail
  bounds : 123 ∉ s.tail ∨ ∀ c ∈ s, isDigit c = false

/-- Neither a complement nor an intersection nor bounds. -/
structure Bounded (s : Word) : Prop where
  complement : 126 ∉ s
  intersection : 38 ∉ s
  bounds : 123 ∉ s ∨ ∀ c ∈ s, isDigit c = false

section Elementary

variable {s piece rest : Word}

theorem Bounded.elementary (bounded : Bounded s) : Elementary s where
  complement := bounded.complement
  intersection member := bounded.intersection (List.mem_of_mem_tail member)
  bounds := bounded.bounds.imp_left fun outside member =>
    outside (List.mem_of_mem_tail member)

theorem Bounded.append (bounded : Bounded (piece ++ rest)) : Bounded rest where
  complement member := bounded.complement (List.mem_append_right piece member)
  intersection member := bounded.intersection (List.mem_append_right piece member)
  bounds := by
    refine bounded.bounds.imp (fun outside member => ?_) fun none c member => ?_
    · exact outside (List.mem_append_right piece member)
    · exact none c (List.mem_append_right piece member)

/-- Behind a piece that was read there is no such operator at all. -/
theorem Elementary.append (elementary : Elementary (piece ++ rest))
    (nonempty : piece ≠ []) : Bounded rest := by
  rcases List.exists_cons_of_ne_nil nonempty with ⟨c, tail, rfl⟩
  have inTail : ∀ d ∈ rest, d ∈ (c :: tail ++ rest).tail :=
    fun d member => List.mem_append_right tail member
  constructor
  · exact fun member => elementary.complement (List.mem_append_right _ member)
  · exact fun member => elementary.intersection (inTail 38 member)
  · refine elementary.bounds.imp (fun outside member => ?_) fun none d member => ?_
    · exact outside (inTail 123 member)
    · exact none d (List.mem_append_right _ member)

end Elementary

/-! ## Pieces of the string -/

/-- What is returned renders the piece that was read. -/
def Reads (sc : Scanner) (result : Parsed) : Prop :=
  ∀ e behind, result = .ok (e, behind) →
    ∃ piece, sc.rest = piece ++ behind.rest ∧ piece ≠ [] ∧ Renders e piece

theorem bind_eq_ok {α β : Type} {first : Except ParseError α}
    {next : α → Except ParseError β} {b : β} (returns : first >>= next = .ok b) :
    ∃ a, first = .ok a ∧ next a = .ok b := by
  cases first with
  | ok a => exact ⟨a, rfl, returns⟩
  | error error => cases returns

theorem matchChar_eq_none_of_notMem {sc : Scanner} {c : JChar}
    (outside : c ∉ sc.rest) : sc.matchChar c = none := by
  rw [Option.eq_none_iff_forall_ne_some]
  intro behind reads
  rw [(Scanner.matchChar_eq_some.mp reads).1] at outside
  exact outside List.mem_cons_self

theorem rest_of_matchChar {sc behind : Scanner} {c : JChar}
    (reads : sc.matchChar c = some behind) : sc.rest = c :: behind.rest :=
  (Scanner.matchChar_eq_some.mp reads).1

theorem piece_of_matchChar {sc behind : Scanner} {c : JChar}
    (reads : sc.matchChar c = some behind) : sc.rest = [c] ++ behind.rest :=
  rest_of_matchChar reads

theorem reads_of_shrinks {sc behind : Scanner} {e : RegExp} {piece : Word}
    (isPiece : sc.rest = piece ++ behind.rest) (nonempty : piece ≠ [])
    (shrinks : Shrinks e piece) : Reads sc (.ok (e, behind)) := by
  rintro _ _ ⟨rfl, rfl⟩
  exact ⟨piece, isPiece, nonempty, Or.inr shrinks⟩

theorem reads_error {sc : Scanner} {error : ParseError} :
    Reads sc (.error error) := by
  intro _ _ returns
  cases returns

/-! ## Repetitions -/

section Repeats

variable {fuel : Nat} {e : RegExp} {sc behind : Scanner} {piece : Word}

/-- The loop stops where none of its operators stands. -/
theorem parseRepeats_stops {e' : RegExp}
    (returns : parseRepeats fuel e sc = .ok (e', behind)) :
    ∀ c ∈ ([63, 42, 43, 123] : List JChar), behind.matchChar c = none := by
  induction fuel generalizing e sc with
  | zero => cases returns
  | succ fuel induction =>
      rw [parseRepeats] at returns
      split at returns
      · exact induction returns
      · exact induction returns
      · exact induction returns
      · rcases bind_eq_ok returns with ⟨⟨e', sc'⟩, _, further⟩
        exact induction further
      · next first second third fourth =>
          cases returns
          intro c member
          simp only [List.mem_cons, List.not_mem_nil, or_false] at member
          rcases member with rfl | rfl | rfl | rfl
          · exact first
          · exact second
          · exact third
          · exact fourth

/-- Bounds need a digit. -/
theorem parseBounds_of_no_digit (none : ∀ c ∈ sc.rest, isDigit c = false) :
    parseBounds e sc =
      .error ((sc.readWhile isDigit).2.expected "integer") := by
  have nothing : sc.rest.takeWhile isDigit = [] := by
    cases rest : sc.rest with
    | nil => rfl
    | cons c tail =>
        have noDigit := none c (rest ▸ List.mem_cons_self)
        exact List.takeWhile_cons_of_neg (by rw [noDigit]; exact Bool.false_ne_true)
  unfold parseBounds Scanner.readWhile
  exact if_pos nothing

theorem Bounded.matchChar {c : JChar} (bounded : Bounded sc.rest)
    (reads : sc.matchChar c = some behind) : Bounded behind.rest := by
  rw [rest_of_matchChar reads, ← List.singleton_append] at bounded
  exact bounded.append

/-- The loop has read operators behind the piece, and returns what renders both. -/
def Repeats (sc behind : Scanner) (e : RegExp) (piece : Word) : Prop :=
  ∃ operators, sc.rest = operators ++ behind.rest ∧ Renders e (piece ++ operators)

theorem Repeats.of_matchChar {next : Scanner} {c : JChar}
    (reads : sc.matchChar c = some next)
    (repeats : Repeats next behind e (piece ++ [c])) :
    Repeats sc behind e piece := by
  rcases repeats with ⟨operators, isPiece, renders⟩
  refine ⟨c :: operators, ?_, ?_⟩
  · rw [rest_of_matchChar reads, isPiece, List.cons_append]
  · rwa [List.append_assoc, List.singleton_append] at renders

/-- Each operator makes the words shorter in comparison. -/
theorem parseRepeats_renders (bounded : Bounded sc.rest)
    (renders : Renders e piece) {e' : RegExp}
    (returns : parseRepeats fuel e sc = .ok (e', behind)) :
    Repeats sc behind e' piece := by
  induction fuel generalizing e sc piece with
  | zero => cases returns
  | succ fuel induction =>
      rw [parseRepeats] at returns
      split at returns
      · next reads =>
          have shrinks : Shrinks (.optional e) (piece ++ [63]) :=
            shrinks_optional (by simp)
          exact .of_matchChar reads
            (induction (bounded.matchChar reads) (Or.inr shrinks) returns)
      · next reads =>
          have shrinks : Shrinks (.repetition e) (piece ++ [42]) :=
            shrinks_repetition (by simp)
          exact .of_matchChar reads
            (induction (bounded.matchChar reads) (Or.inr shrinks) returns)
      · next reads =>
          exact .of_matchChar reads (induction (bounded.matchChar reads)
            (Or.inr (shrinks_repeatMin_one renders)) returns)
      · next reads =>
          rcases bounded.bounds with outside | none
          · cases (matchChar_eq_none_of_notMem outside).symm.trans reads
          · rw [rest_of_matchChar reads] at none
            rw [parseBounds_of_no_digit (List.forall_mem_cons.mp none).2] at returns
            cases returns
      · cases returns
        exact ⟨[], rfl, by rwa [List.append_nil]⟩

end Repeats

/-! ## Character classes -/

section CharClasses

variable {e : RegExp} {sc behind : Scanner} {fuel : Nat}

/-- The expression describes characters. -/
def OneChar (e : RegExp) : Prop :=
  ∀ w ∈ meaning e, w.length = 1

theorem OneChar.shrinks (oneChar : OneChar e) {piece : Word}
    (long : 1 < piece.length) : Shrinks e piece := by
  intro w single
  rw [oneChar w (nonempty_of_eq_singleton single)]
  exact long

theorem oneChar_char (c : JChar) : OneChar (.char c) := by
  intro w member
  rw [meaning] at member
  rw [show w = [c] from member, List.length_singleton]

theorem oneChar_charRange (c d : JChar) : OneChar (.charRange c d) := by
  intro w member
  rw [meaning] at member
  rcases member with ⟨x, _, _, rfl⟩
  exact List.length_singleton

theorem OneChar.union {e1 e2 : RegExp} (first : OneChar e1)
    (second : OneChar e2) : OneChar (.union e1 e2) := by
  intro w member
  rw [meaning] at member
  rcases (Language.mem_add _ _ _).mp member with left | right
  · exact first w left
  · exact second w right

/-- A character is read from the front, behind a backslash if there is one. -/
theorem rest_of_parseCharExp {c : JChar}
    (returns : parseCharExp sc = .ok (c, behind)) :
    sc.rest = 92 :: c :: behind.rest ∨
      sc.matchChar 92 = none ∧ sc.rest = c :: behind.rest := by
  have front : ∀ {next : Scanner}, next.next = .ok (c, behind) →
      next.rest = c :: behind.rest := by
    intro next read
    rw [Scanner.next] at read
    split at read
    · cases read
    · next isRest =>
        cases read
        exact isRest
  rw [parseCharExp] at returns
  cases reads : sc.matchChar 92 with
  | none =>
      rw [reads] at returns
      exact Or.inr ⟨rfl, front returns⟩
  | some next =>
      rw [reads] at returns
      exact Or.inl (by rw [rest_of_matchChar reads, @front next returns])

theorem suffix_of_parseCharExp {c : JChar}
    (returns : parseCharExp sc = .ok (c, behind)) :
    behind.rest <:+ sc.rest := by
  rcases rest_of_parseCharExp returns with escaped | ⟨_, plain⟩
  · exact ⟨[92, c], escaped.symm⟩
  · exact ⟨[c], plain.symm⟩

theorem suffix_of_matchChar {c : JChar} (reads : sc.matchChar c = some behind) :
    behind.rest <:+ sc.rest :=
  ⟨[c], (rest_of_matchChar reads).symm⟩

theorem parseCharClass_oneChar
    (returns : parseCharClass sc = .ok (e, behind)) :
    OneChar e ∧ behind.rest <:+ sc.rest := by
  rw [parseCharClass] at returns
  rcases bind_eq_ok returns with ⟨⟨c, sc1⟩, read, returns⟩
  have suffix := suffix_of_parseCharExp read
  dsimp only at returns
  split at returns
  · cases returns
    exact ⟨oneChar_char c, suffix⟩
  · next sc2 dash =>
      have suffix := (suffix_of_matchChar dash).trans suffix
      split_ifs at returns
      · cases returns
        exact ⟨(oneChar_char c).union (oneChar_char 45), suffix⟩
      · rcases bind_eq_ok returns with ⟨⟨d, sc3⟩, read', returns⟩
        cases returns
        exact ⟨oneChar_charRange c d, (suffix_of_parseCharExp read').trans suffix⟩

theorem parseCharClassesFrom_oneChar (oneChar : OneChar e) {e' : RegExp}
    (returns : parseCharClassesFrom fuel e sc = .ok (e', behind)) :
    OneChar e' ∧ behind.rest <:+ sc.rest := by
  induction fuel generalizing e sc with
  | zero => cases returns
  | succ fuel induction =>
      rw [parseCharClassesFrom] at returns
      split_ifs at returns
      · rcases bind_eq_ok returns with ⟨⟨e1, sc1⟩, read, returns⟩
        rcases parseCharClass_oneChar read with ⟨oneChar1, suffix1⟩
        rcases induction (oneChar.union oneChar1) returns with ⟨oneChar', suffix⟩
        exact ⟨oneChar', suffix.trans suffix1⟩
      · cases returns
        exact ⟨oneChar, List.suffix_refl _⟩

theorem parseCharClasses_oneChar
    (returns : parseCharClasses fuel sc = .ok (e, behind)) :
    OneChar e ∧ behind.rest <:+ sc.rest := by
  rw [parseCharClasses] at returns
  rcases bind_eq_ok returns with ⟨⟨e1, sc1⟩, read, returns⟩
  rcases parseCharClass_oneChar read with ⟨oneChar1, suffix1⟩
  rcases parseCharClassesFrom_oneChar oneChar1 returns with ⟨oneChar, suffix⟩
  exact ⟨oneChar, suffix.trans suffix1⟩

/-- A negated class describes characters, too. -/
theorem OneChar.negated (negate : Bool) (oneChar : OneChar e) :
    OneChar (if negate then intersection anyChar (complement e) else e) := by
  split_ifs
  · rintro w member
    rw [meaning] at member
    rcases member with ⟨isAny, _⟩
    rw [meaning] at isAny
    rcases isAny with ⟨c, rfl⟩
    exact List.length_singleton
  · exact oneChar

end CharClasses

/-! ## Quotations and names -/

section Named

variable {sc behind : Scanner} {e : RegExp}

/-- Up to a character that ends a loop. -/
theorem rest_of_readWhile {p : JChar → Bool} {c : JChar}
    (ends : (sc.readWhile p).2.matchChar c = some behind) :
    sc.rest = (sc.readWhile p).1 ++ c :: behind.rest := by
  have isRest := rest_of_matchChar ends
  rw [Scanner.readWhile] at isRest ⊢
  rw [← show sc.rest.dropWhile p = c :: behind.rest from isRest,
    List.takeWhile_append_dropWhile]

theorem parseQuoted_reads (returns : parseQuoted sc = .ok (e, behind)) :
    ∃ s, sc.rest = s ++ 34 :: behind.rest ∧ meaning e = {s} := by
  unfold parseQuoted at returns
  dsimp only at returns
  split at returns
  · cases returns
  · next ends =>
      cases returns
      exact ⟨_, rest_of_readWhile ends, by rw [meaning]⟩

/-- An interval describes a single number only if its length is fixed. -/
theorem length_of_numbers_eq {min max digits : Nat} {w : Word}
    (single : numbers min max digits = {w}) : 0 < digits ∧ w.length = digits := by
  rcases nonempty_of_eq_singleton single with
    ⟨nonempty, areDigits, lower, upper, fixed⟩
  rcases Nat.eq_zero_or_pos digits with rfl | positive
  · -- A leading zero could be added.
    exfalso
    have padded : 48 :: w ∈ numbers min max 0 := by
      refine ⟨List.cons_ne_nil _ _, ?_, ?_, ?_, fun more => absurd more (lt_irrefl 0)⟩
      · exact List.forall_mem_cons.mpr ⟨rfl, areDigits⟩
      · rwa [Decimal.value_zero_cons]
      · rwa [Decimal.value_zero_cons]
    rw [single] at padded
    exact List.cons_ne_self 48 w padded
  · exact ⟨positive, fixed positive⟩

theorem parseInterval_digits {s : Word} {i : Nat}
    (returns : parseInterval s i = .ok e) :
    ∃ min max digits, e = .interval min max digits ∧ digits ≤ s.length := by
  rw [parseInterval] at returns
  split_ifs at returns
  rcases bind_eq_ok returns with ⟨imin, _, returns⟩
  rcases bind_eq_ok returns with ⟨imax, _, returns⟩
  cases returns
  refine ⟨_, _, _, rfl, ?_⟩
  split_ifs
  · exact List.length_take_le' i s
  · exact Nat.zero_le _

theorem parseNamed_reads (returns : parseNamed sc = .ok (e, behind)) :
    ∃ s, sc.rest = s ++ 62 :: behind.rest ∧
      ∀ w, meaning e = {w} → w.length ≤ s.length := by
  unfold parseNamed at returns
  dsimp only at returns
  split at returns
  · cases returns
  · next ends =>
      have word := @rest_of_readWhile sc
      split at returns
      · rcases Prod.mk.inj (Except.ok.inj returns) with ⟨rfl, rfl⟩
        refine ⟨_, word ends, fun w single => ?_⟩
        rw [meaning] at single
        exact absurd single zero_ne_singleton
      · split at returns
        · next parsed =>
            rcases Prod.mk.inj (Except.ok.inj returns) with ⟨rfl, rfl⟩
            rcases parseInterval_digits parsed with ⟨min, max, digits, rfl, bound⟩
            refine ⟨_, word ends, fun w single => ?_⟩
            rw [meaning] at single
            exact (length_of_numbers_eq single).2.trans_le bound
        · cases returns

end Named

/-! ## The productions -/

/-- Between two delimiters stands what describes no longer word. -/
theorem renders_between {sc sc1 behind : Scanner} {e : RegExp} {s : Word}
    {opening closing : JChar} (opens : sc.matchChar opening = some sc1)
    (inside : sc1.rest = s ++ closing :: behind.rest)
    (bound : ∀ w, meaning e = {w} → w.length ≤ s.length) :
    ∃ piece, sc.rest = piece ++ behind.rest ∧ piece ≠ [] ∧ Renders e piece := by
  refine ⟨opening :: s ++ [closing], ?_, by simp, Or.inr fun w single => ?_⟩
  · rw [rest_of_matchChar opens, inside]
    simp
  · have shorter := bound w single
    rw [List.length_append, List.length_cons]
    omega

/-- A character that opens nothing stands for itself, and behind a backslash it
is one of two. -/
theorem renders_char {sc behind : Scanner} {c : JChar}
    (closed : ∀ d ∈ openers, d ≠ 92 → sc.matchChar d = none)
    (read : parseCharExp sc = .ok (c, behind)) :
    ∃ piece, sc.rest = piece ++ behind.rest ∧ piece ≠ [] ∧
      Renders (.char c) piece := by
  rcases rest_of_parseCharExp read with escaped | ⟨noEscape, plain⟩
  · refine ⟨[92, c], escaped, List.cons_ne_nil _ _, Or.inr ?_⟩
    exact (oneChar_char c).shrinks Nat.one_lt_two
  · refine ⟨[c], plain, List.cons_ne_nil _ _, Or.inl ⟨⟨?_, by simp⟩, rfl⟩⟩
    intro opens
    have matched : sc.matchChar c = some ⟨sc.pos + 1, behind.rest⟩ :=
      Scanner.matchChar_eq_some.mpr ⟨plain, rfl⟩
    by_cases isEscape : c = 92
    · rw [isEscape, noEscape] at matched
      cases matched
    · cases (closed c opens isEscape).symm.trans matched

theorem shrinks_anyChar (piece : Word) : Shrinks .anyChar piece := by
  intro w single
  rw [meaning] at single
  have first : [0] ∈ ({word | ∃ c, word = [c]} : Language JChar) := ⟨0, rfl⟩
  have second : [1] ∈ ({word | ∃ c, word = [c]} : Language JChar) := ⟨1, rfl⟩
  exact absurd single (ne_singleton first second (by decide))

theorem shrinks_empty (piece : Word) : Shrinks .empty piece := by
  intro w single
  rw [meaning] at single
  exact absurd single zero_ne_singleton

theorem shrinks_anyString (piece : Word) : Shrinks .anyString piece := by
  intro w single
  rw [meaning] at single
  have first : [] ∈ (⊤ : Language JChar) := trivial
  have second : [0] ∈ (⊤ : Language JChar) := trivial
  exact absurd single (ne_singleton first second (by decide))

/-- What the productions return on such strings renders the piece that they
read. -/
structure ProductionsRead (fuel : Nat) : Prop where
  unionExp : ∀ sc, Elementary sc.rest → Reads sc (parseUnionExp fuel sc)
  interExp : ∀ sc, Elementary sc.rest → Reads sc (parseInterExp fuel sc)
  concatExp : ∀ sc, Elementary sc.rest → Reads sc (parseConcatExp fuel sc)
  repeatExp : ∀ sc, Elementary sc.rest → Reads sc (parseRepeatExp fuel sc)
  complExp : ∀ sc, Elementary sc.rest → Reads sc (parseComplExp fuel sc)
  charClassExp : ∀ sc, Elementary sc.rest → Reads sc (parseCharClassExp fuel sc)
  simpleExp : ∀ sc, Elementary sc.rest → sc.matchChar 91 = none →
    Reads sc (parseSimpleExp fuel sc)

/-- Where a repetition ends none of its operators stands. -/
theorem parseRepeatExp_stops {fuel : Nat} {sc behind : Scanner} {e : RegExp}
    (returns : parseRepeatExp fuel sc = .ok (e, behind)) :
    ∀ c ∈ ([63, 42, 43, 123] : List JChar), behind.matchChar c = none := by
  cases fuel with
  | zero =>
      rw [parseRepeatExp] at returns
      cases returns
  | succ fuel =>
      rw [parseRepeatExp] at returns
      rcases bind_eq_ok returns with ⟨⟨e1, sc1⟩, _, returns⟩
      exact parseRepeats_stops returns

theorem reserved_cases {c : JChar} (member : c ∈ reserved) : c ∈ openers ∨
    c ∈ ([63, 42, 43, 123] : List JChar) ∨ c ∈ ([41, 124] : List JChar) ∨
      c ∈ ([38] : List JChar) := by
  have checked : reserved.all fun c => decide (c ∈ openers ∨
      c ∈ ([63, 42, 43, 123] : List JChar) ∨ c ∈ ([41, 124] : List JChar) ∨
        c ∈ ([38] : List JChar)) := by decide
  exact of_decide_eq_true (List.all_eq_true.mp checked c member)

theorem notMem_of_not_peek {pos : Nat} {c : JChar} {rest chars : Word}
    (notPeeked : (!(Scanner.mk pos (c :: rest)).peek chars) = true) :
    c ∉ chars := by
  intro member
  have peeked : (Scanner.mk pos (c :: rest)).peek chars = true :=
    List.contains_iff_mem.mpr member
  rw [peeked] at notPeeked
  exact Bool.false_ne_true notPeeked

/-- Where a concatenation goes on no operator stands. -/
theorem opens_of_goesOn {sc : Scanner} {piece rest : Word}
    (isPiece : sc.rest = piece ++ rest)
    (stops : ∀ c ∈ ([63, 42, 43, 123] : List JChar), sc.matchChar c = none)
    (goesOn : (sc.more && !sc.peek [41, 124] && !sc.peek [38]) = true) :
    ∀ c ∈ piece.head?, c ∈ reserved → c ∈ openers := by
  intro c isHead isReserved
  cases piece with
  | nil => cases isHead
  | cons head tail =>
      cases isHead
      cases sc with
      | mk pos whole =>
          rw [show whole = c :: (tail ++ rest) from isPiece] at stops goesOn
          rw [Bool.and_eq_true, Bool.and_eq_true] at goesOn
          rcases reserved_cases isReserved with opens | operator | closes | both
          · exact opens
          · cases (stops c operator).symm.trans (Scanner.matchChar_self _ _ _)
          · exact absurd closes (notMem_of_not_peek goesOn.1.2)
          · exact absurd both (notMem_of_not_peek goesOn.2)

namespace ProductionsRead

variable {fuel : Nat} (reads : ProductionsRead fuel)
include reads

theorem unionExp_succ : ∀ sc, Elementary sc.rest →
    Reads sc (parseUnionExp (fuel + 1) sc) := by
  intro sc elementary e behind returns
  rw [parseUnionExp] at returns
  rcases bind_eq_ok returns with ⟨⟨e1, sc1⟩, first, returns⟩
  rcases reads.interExp sc elementary e1 sc1 first with
    ⟨piece1, isPiece1, nonempty, renders1⟩
  have bounded : Bounded sc1.rest := (isPiece1 ▸ elementary).append nonempty
  dsimp only at returns
  split at returns
  · cases returns
    exact ⟨piece1, isPiece1, nonempty, renders1⟩
  · next sc2 bar =>
      have isRest := rest_of_matchChar bar
      rcases bind_eq_ok returns with ⟨⟨e2, sc3⟩, second, returns⟩
      rcases Prod.mk.inj (Except.ok.inj returns) with ⟨rfl, rfl⟩
      rcases reads.unionExp sc2 (bounded.matchChar bar).elementary e2 sc3 second
        with ⟨piece2, isPiece2, _, renders2⟩
      refine ⟨piece1 ++ 124 :: piece2, ?_, by simp,
        Or.inr (shrinks_union renders1 renders2)⟩
      rw [isPiece1, isRest, isPiece2, List.append_assoc, List.cons_append]

theorem interExp_succ : ∀ sc, Elementary sc.rest →
    Reads sc (parseInterExp (fuel + 1) sc) := by
  intro sc elementary e behind returns
  rw [parseInterExp] at returns
  rcases bind_eq_ok returns with ⟨⟨e1, sc1⟩, first, returns⟩
  rcases reads.concatExp sc elementary e1 sc1 first with
    ⟨piece1, isPiece1, nonempty, renders1⟩
  have bounded : Bounded sc1.rest := (isPiece1 ▸ elementary).append nonempty
  dsimp only at returns
  rw [matchChar_eq_none_of_notMem bounded.intersection] at returns
  cases returns
  exact ⟨piece1, isPiece1, nonempty, renders1⟩

theorem concatExp_succ : ∀ sc, Elementary sc.rest →
    Reads sc (parseConcatExp (fuel + 1) sc) := by
  intro sc elementary e behind returns
  rw [parseConcatExp] at returns
  rcases bind_eq_ok returns with ⟨⟨e1, sc1⟩, first, returns⟩
  rcases reads.repeatExp sc elementary e1 sc1 first with
    ⟨piece1, isPiece1, nonempty, renders1⟩
  have bounded : Bounded sc1.rest := (isPiece1 ▸ elementary).append nonempty
  dsimp only at returns
  split_ifs at returns with goesOn
  · rcases bind_eq_ok returns with ⟨⟨e2, sc2⟩, second, returns⟩
    rcases Prod.mk.inj (Except.ok.inj returns) with ⟨rfl, rfl⟩
    rcases reads.concatExp sc1 bounded.elementary e2 sc2 second with
      ⟨piece2, isPiece2, _, renders2⟩
    have opens := opens_of_goesOn isPiece2 (parseRepeatExp_stops first) goesOn
    refine ⟨piece1 ++ piece2, ?_, by simp [nonempty],
      renders_makeConcatenation renders1 renders2 nonempty opens⟩
    rw [isPiece1, isPiece2, List.append_assoc]
  · cases returns
    exact ⟨piece1, isPiece1, nonempty, renders1⟩

theorem repeatExp_succ : ∀ sc, Elementary sc.rest →
    Reads sc (parseRepeatExp (fuel + 1) sc) := by
  intro sc elementary e behind returns
  rw [parseRepeatExp] at returns
  rcases bind_eq_ok returns with ⟨⟨e1, sc1⟩, first, returns⟩
  rcases reads.complExp sc elementary e1 sc1 first with
    ⟨piece1, isPiece1, nonempty, renders1⟩
  have bounded : Bounded sc1.rest := (isPiece1 ▸ elementary).append nonempty
  rcases parseRepeats_renders bounded renders1 returns with
    ⟨operators, isOperators, renders⟩
  refine ⟨piece1 ++ operators, ?_, by simp [nonempty], renders⟩
  rw [isPiece1, isOperators, List.append_assoc]

theorem complExp_succ : ∀ sc, Elementary sc.rest →
    Reads sc (parseComplExp (fuel + 1) sc) := by
  intro sc elementary
  rw [parseComplExp, matchChar_eq_none_of_notMem elementary.complement]
  exact reads.charClassExp sc elementary

theorem charClassExp_succ : ∀ sc, Elementary sc.rest →
    Reads sc (parseCharClassExp (fuel + 1) sc) := by
  intro sc elementary e behind returns
  rw [parseCharClassExp] at returns
  split at returns
  · next none => exact reads.simpleExp sc elementary none e behind returns
  · next sc1 opens =>
      rcases bind_eq_ok returns with ⟨⟨e1, sc2⟩, classes, returns⟩
      rcases parseCharClasses_oneChar classes with ⟨oneChar, suffix⟩
      have negation : ((sc1.matchChar 94).getD sc1).rest <:+ sc1.rest := by
        cases caret : sc1.matchChar 94 with
        | none => exact List.suffix_refl _
        | some next => exact suffix_of_matchChar caret
      dsimp only at returns
      split at returns
      · cases returns
      · next sc3 closes =>
          rcases Prod.mk.inj (Except.ok.inj returns) with ⟨rfl, rfl⟩
          rcases suffix.trans negation with ⟨inside, isInside⟩
          refine ⟨91 :: inside ++ [93], ?_, by simp, Or.inr ?_⟩
          · rw [rest_of_matchChar opens, ← isInside, rest_of_matchChar closes]
            simp
          · exact (oneChar.negated _).shrinks (by simp)

theorem simpleExp_succ : ∀ sc, Elementary sc.rest → sc.matchChar 91 = none →
    Reads sc (parseSimpleExp (fuel + 1) sc) := by
  intro sc elementary noClass
  have noComplement := matchChar_eq_none_of_notMem elementary.complement
  rw [parseSimpleExp]
  split
  · next sc1 dot =>
      exact reads_of_shrinks (piece_of_matchChar dot) (List.cons_ne_nil _ _)
        (shrinks_anyChar _)
  next noDot =>
  split
  · next sc1 hash =>
      exact reads_of_shrinks (piece_of_matchChar hash) (List.cons_ne_nil _ _)
        (shrinks_empty _)
  next noHash =>
  split
  · next sc1 at' =>
      exact reads_of_shrinks (piece_of_matchChar at') (List.cons_ne_nil _ _)
        (shrinks_anyString _)
  next noAt =>
  split
  · next sc1 quote =>
      intro e behind returns
      rcases parseQuoted_reads returns with ⟨s, isQuoted, isMeaning⟩
      apply renders_between quote isQuoted
      intro w single
      rw [isMeaning] at single
      rw [← Set.singleton_injective single]
  next noQuote =>
  split
  · next sc1 opens =>
      split
      · next sc2 closes =>
          have isRest : sc.rest = [40, 41] ++ sc2.rest := by
            rw [rest_of_matchChar opens, rest_of_matchChar closes]
            rfl
          refine reads_of_shrinks isRest (List.cons_ne_nil _ _) fun w single => ?_
          rw [meaning] at single
          rw [← Set.singleton_injective single]
          exact Nat.two_pos
      · intro e behind returns
        rcases bind_eq_ok returns with ⟨⟨e1, sc2⟩, inner, returns⟩
        have bounded : Bounded sc1.rest := by
          rw [rest_of_matchChar opens, ← List.singleton_append] at elementary
          exact elementary.append (List.cons_ne_nil _ _)
        rcases reads.unionExp sc1 bounded.elementary e1 sc2 inner with
          ⟨piece, isPiece, _, renders⟩
        dsimp only at returns
        split at returns
        · cases returns
        · next sc3 closes =>
            rcases Prod.mk.inj (Except.ok.inj returns) with ⟨rfl, rfl⟩
            have isGroup : sc1.rest = piece ++ 41 :: sc3.rest := by
              rw [isPiece, rest_of_matchChar closes]
            exact renders_between opens isGroup fun w => renders.length_le
  next noGroup =>
  split
  · next sc1 opens =>
      intro e behind returns
      rcases parseNamed_reads returns with ⟨s, isNamed, bound⟩
      exact renders_between opens isNamed bound
  · next noName =>
      intro e behind returns
      rcases bind_eq_ok returns with ⟨⟨c, sc1⟩, read, returns⟩
      rcases Prod.mk.inj (Except.ok.inj returns) with ⟨rfl, rfl⟩
      refine renders_char ?_ read
      have none : ∀ {d}, (∀ behind, sc.matchChar d = some behind → False) →
          sc.matchChar d = none := Option.eq_none_iff_forall_ne_some.mpr
      simp only [openers, List.forall_mem_cons]
      exact ⟨fun _ => noComplement, fun _ => noClass, fun _ => none noDot,
        fun _ => none noHash, fun _ => none noAt, fun _ => none noQuote,
        fun _ => none noGroup, fun _ => none noName,
        fun isEscape => absurd rfl isEscape, by simp⟩

end ProductionsRead

theorem productionsRead (fuel : Nat) : ProductionsRead fuel := by
  induction fuel with
  | zero =>
      constructor <;> intro sc _
      · rw [parseUnionExp]
        exact reads_error
      · rw [parseInterExp]
        exact reads_error
      · rw [parseConcatExp]
        exact reads_error
      · rw [parseRepeatExp]
        exact reads_error
      · rw [parseComplExp]
        exact reads_error
      · rw [parseCharClassExp]
        exact reads_error
      · intro _
        rw [parseSimpleExp]
        exact reads_error
  | succ fuel reads =>
      exact ⟨reads.unionExp_succ, reads.interExp_succ, reads.concatExp_succ,
        reads.repeatExp_succ, reads.complExp_succ, reads.charClassExp_succ,
        reads.simpleExp_succ⟩

/-- A string without the operators of longer words is rendered as a whole. -/
theorem parse_renders {s : Word} (elementary : Elementary s) (nonempty : s ≠ [])
    {e : RegExp} (parsed : parse s = .ok e) : Renders e s := by
  rw [parse, if_neg nonempty] at parsed
  rcases bind_eq_ok parsed with ⟨⟨e1, sc⟩, first, parsed⟩
  dsimp only at parsed
  split_ifs at parsed with more
  cases parsed
  rcases (productionsRead (fuelFor s)).unionExp ⟨0, s⟩ elementary e sc first with
    ⟨piece, isPiece, _, renders⟩
  have ends : sc.rest = [] := by
    cases isRest : sc.rest with
    | nil => rfl
    | cons c rest =>
        rw [Scanner.more, isRest] at more
        exact absurd rfl more
  have isWhole : s = piece := by
    rw [ends, List.append_nil] at isPiece
    exact isPiece
  rw [isWhole]
  exact renders

/-- If it is not verbatim it describes no single word as long as itself. -/
theorem meaning_ne_singleton {s : Word} (elementary : Elementary s)
    (notVerbatim : ¬ Verbatim s) {e : RegExp} (parsed : parse s = .ok e) :
    meaning e ≠ {s} := by
  have nonempty : s ≠ [] := by
    rintro rfl
    exact notVerbatim trivial
  intro single
  rcases parse_renders elementary nonempty parsed with ⟨verbatim, _⟩ | shrinks
  · exact notVerbatim verbatim
  · exact lt_irrefl _ (shrinks s single)

end SafetyGames.Teacher
