import SafetyGames.Transducer.RegExp
import Mathlib.Data.List.TakeWhile

/-!
# What the parser does

Every production reads at least one character or throws, so the fuel of the
parser is never used up.  A string whose characters behind the first are not
reserved, and whose first character opens nothing, is parsed as itself.
-/

namespace SafetyGames.Transducer

open RegExp

/-! ## Productions end -/

section Within

variable {α β : Type}

/-- The production throws an exception of the source, or less than the bound is
left behind what it read. -/
def Within (bound : Nat) : Except ParseError (α × Scanner) → Prop
  | .ok (_, sc) => sc.rest.length < bound
  | .error error => error ≠ .fuel

theorem within_ok {bound : Nat} {a : α} {sc : Scanner}
    (less : sc.rest.length < bound) : Within bound (.ok (a, sc)) :=
  less

theorem within_illegalArgument {bound : Nat} {message : String} :
    Within bound (.error (.illegalArgument message) :
      Except ParseError (α × Scanner)) := by
  intro same
  cases same

theorem Within.mono {bound other : Nat}
    {result : Except ParseError (α × Scanner)} (within : Within bound result)
    (order : bound ≤ other) : Within other result := by
  cases result with
  | ok result => exact lt_of_lt_of_le within order
  | error error => exact within

/-- What follows a production runs on the scanner behind it. -/
theorem Within.bind {bound other : Nat}
    {first : Except ParseError (α × Scanner)}
    {next : α × Scanner → Except ParseError (β × Scanner)}
    (within : Within bound first)
    (continues : ∀ a (sc : Scanner), sc.rest.length < bound →
      Within other (next (a, sc))) :
    Within other (first >>= next) := by
  cases first with
  | ok result => exact continues result.1 result.2 within
  | error error => exact within

theorem length_matchChar {sc behind : Scanner} {c : JChar}
    (reads : sc.matchChar c = some behind) :
    behind.rest.length + 1 = sc.rest.length := by
  rw [(Scanner.matchChar_eq_some.mp reads).1, List.length_cons]

theorem length_readWhile_le (sc : Scanner) (p : JChar → Bool) :
    (sc.readWhile p).2.rest.length ≤ sc.rest.length :=
  List.length_dropWhile_le p sc.rest

theorem next_within (sc : Scanner) : Within sc.rest.length sc.next := by
  cases sc with
  | mk pos rest =>
      cases rest with
      | nil => exact within_illegalArgument
      | cons c rest => exact within_ok (Nat.lt_succ_self _)

theorem parseCharExp_within (sc : Scanner) :
    Within sc.rest.length (parseCharExp sc) := by
  rw [parseCharExp]
  cases reads : sc.matchChar 92 with
  | none => exact next_within sc
  | some behind =>
      have less := length_matchChar reads
      exact (next_within behind).mono (by omega)

theorem parseCharClass_within (sc : Scanner) :
    Within sc.rest.length (parseCharClass sc) := by
  apply (parseCharExp_within sc).bind
  intro c sc' less
  dsimp only
  cases reads : sc'.matchChar 45 with
  | none => exact within_ok less
  | some behind =>
      have less' := length_matchChar reads
      dsimp only
      split
      · exact within_ok (by omega)
      · apply (parseCharExp_within behind).bind
        intro d sc'' less''
        exact within_ok (show sc''.rest.length < _ by omega)

/-- The loop over character classes ends with the string. -/
theorem parseCharClassesFrom_within {fuel : Nat} (e : RegExp) {sc : Scanner}
    (enough : sc.rest.length < fuel) :
    Within (sc.rest.length + 1) (parseCharClassesFrom fuel e sc) := by
  induction fuel generalizing e sc with
  | zero => exact absurd enough (Nat.not_lt_zero _)
  | succ fuel induction =>
      rw [parseCharClassesFrom]
      split
      · apply (parseCharClass_within sc).bind
        intro e' sc' less
        exact (induction _ (by omega)).mono (by omega)
      · exact within_ok (Nat.lt_succ_self _)

theorem parseCharClasses_within {fuel : Nat} {sc : Scanner}
    (enough : sc.rest.length ≤ fuel) :
    Within sc.rest.length (parseCharClasses fuel sc) := by
  apply (parseCharClass_within sc).bind
  intro e sc' less
  exact (parseCharClassesFrom_within e (by omega)).mono (by omega)

theorem parseInt_cases (s : Word) :
    (∃ n, parseInt s = .ok n) ∨ parseInt s = .error .numberFormat := by
  unfold parseInt
  dsimp only
  split
  · split
    · exact Or.inl ⟨_, rfl⟩
    · exact Or.inr rfl
  · exact Or.inr rfl

/-- A number is read without an effect on the scanner. -/
theorem within_parseInt {bound : Nat} (s : Word)
    {next : Nat → Except ParseError (β × Scanner)}
    (continues : ∀ n, Within bound (next n)) :
    Within bound (parseInt s >>= next) := by
  rcases parseInt_cases s with ⟨n, isNumber⟩ | throws
  · rw [isNumber]
    exact continues n
  · rw [throws]
    intro same
    cases same

theorem parseUpperBound_within (n : Nat) (sc : Scanner) :
    Within (sc.rest.length + 1) (parseUpperBound n sc) := by
  unfold parseUpperBound
  cases reads : sc.matchChar 44 with
  | none => exact within_ok (Nat.lt_succ_self _)
  | some behind =>
      have less := length_matchChar reads
      have bound := length_readWhile_le behind isDigit
      dsimp only
      split
      · exact within_ok (by omega)
      · apply within_parseInt
        intro m
        exact within_ok (by omega)

theorem parseBounds_within (e : RegExp) (sc : Scanner) :
    Within (sc.rest.length + 1) (parseBounds e sc) := by
  have bound := length_readWhile_le sc isDigit
  unfold parseBounds
  dsimp only
  split
  · exact within_illegalArgument
  · apply within_parseInt
    intro n
    apply (parseUpperBound_within n _).bind
    intro m sc' less
    dsimp only
    cases reads : sc'.matchChar 125 with
    | none => exact within_illegalArgument
    | some behind =>
        have less' := length_matchChar reads
        exact within_ok (by omega)

/-- The loop over the operators of repetition ends with the string. -/
theorem parseRepeats_within {fuel : Nat} (e : RegExp) {sc : Scanner}
    (enough : sc.rest.length < fuel) :
    Within (sc.rest.length + 1) (parseRepeats fuel e sc) := by
  induction fuel generalizing e sc with
  | zero => exact absurd enough (Nat.not_lt_zero _)
  | succ fuel induction =>
      rw [parseRepeats]
      split
      · next reads =>
          have less := length_matchChar reads
          exact (induction _ (by omega)).mono (by omega)
      · next reads =>
          have less := length_matchChar reads
          exact (induction _ (by omega)).mono (by omega)
      · next reads =>
          have less := length_matchChar reads
          exact (induction _ (by omega)).mono (by omega)
      · next reads =>
          have less := length_matchChar reads
          apply (parseBounds_within _ _).bind
          intro e' sc' less'
          exact (induction _ (by omega)).mono (by omega)
      · exact within_ok (Nat.lt_succ_self _)

theorem parseQuoted_within (sc : Scanner) :
    Within (sc.rest.length + 1) (parseQuoted sc) := by
  have bound := length_readWhile_le sc fun c => c != 34
  unfold parseQuoted
  dsimp only
  split
  · exact within_illegalArgument
  · next reads =>
      have less := length_matchChar reads
      exact within_ok (by omega)

theorem parseNamed_within (sc : Scanner) :
    Within (sc.rest.length + 1) (parseNamed sc) := by
  have bound := length_readWhile_le sc fun c => c != 62
  unfold parseNamed
  dsimp only
  split
  · exact within_illegalArgument
  · next reads =>
      have less := length_matchChar reads
      split
      · exact within_ok (by omega)
      · split
        · exact within_ok (by omega)
        · exact within_illegalArgument

/-- On fuel for what is left the production ends and reads a character; eight
units pay for each, and the cost for the productions up to the next one. -/
def EndsWithin (cost fuel : Nat) (production : Nat → Scanner → Parsed) : Prop :=
  ∀ sc : Scanner, 8 * sc.rest.length + cost ≤ fuel →
    Within sc.rest.length (production fuel sc)

/-- The productions end, each at the cost of those it calls first. -/
structure ProductionsEnd (fuel : Nat) : Prop where
  unionExp : EndsWithin 7 fuel parseUnionExp
  interExp : EndsWithin 6 fuel parseInterExp
  concatExp : EndsWithin 5 fuel parseConcatExp
  repeatExp : EndsWithin 4 fuel parseRepeatExp
  complExp : EndsWithin 3 fuel parseComplExp
  charClassExp : EndsWithin 2 fuel parseCharClassExp
  simpleExp : EndsWithin 1 fuel parseSimpleExp

namespace ProductionsEnd

variable {fuel : Nat} (ends : ProductionsEnd fuel)
include ends

theorem unionExp_succ : EndsWithin 7 (fuel + 1) parseUnionExp := by
  intro sc enough
  rw [parseUnionExp]
  apply (ends.interExp sc (by omega)).bind
  intro e sc' less
  dsimp only
  cases reads : sc'.matchChar 124 with
  | none => exact within_ok less
  | some behind =>
      have less' := length_matchChar reads
      apply (ends.unionExp behind (by omega)).bind
      intro e' sc'' less''
      exact within_ok (show sc''.rest.length < _ by omega)

theorem interExp_succ : EndsWithin 6 (fuel + 1) parseInterExp := by
  intro sc enough
  rw [parseInterExp]
  apply (ends.concatExp sc (by omega)).bind
  intro e sc' less
  dsimp only
  cases reads : sc'.matchChar 38 with
  | none => exact within_ok less
  | some behind =>
      have less' := length_matchChar reads
      apply (ends.interExp behind (by omega)).bind
      intro e' sc'' less''
      exact within_ok (show sc''.rest.length < _ by omega)

theorem concatExp_succ : EndsWithin 5 (fuel + 1) parseConcatExp := by
  intro sc enough
  rw [parseConcatExp]
  apply (ends.repeatExp sc (by omega)).bind
  intro e sc' less
  dsimp only
  split
  · apply (ends.concatExp sc' (by omega)).bind
    intro e' sc'' less'
    exact within_ok (show sc''.rest.length < _ by omega)
  · exact within_ok less

theorem repeatExp_succ : EndsWithin 4 (fuel + 1) parseRepeatExp := by
  intro sc enough
  rw [parseRepeatExp]
  apply (ends.complExp sc (by omega)).bind
  intro e sc' less
  exact (parseRepeats_within e (by omega)).mono less

theorem complExp_succ : EndsWithin 3 (fuel + 1) parseComplExp := by
  intro sc enough
  rw [parseComplExp]
  cases reads : sc.matchChar 126 with
  | none => exact ends.charClassExp sc (by omega)
  | some behind =>
      have less := length_matchChar reads
      apply (ends.complExp behind (by omega)).bind
      intro e sc' less'
      exact within_ok (show sc'.rest.length < _ by omega)

theorem charClassExp_succ : EndsWithin 2 (fuel + 1) parseCharClassExp := by
  intro sc enough
  rw [parseCharClassExp]
  cases reads : sc.matchChar 91 with
  | none => exact ends.simpleExp sc (by omega)
  | some behind =>
      have less := length_matchChar reads
      have negated : ((behind.matchChar 94).getD behind).rest.length ≤
          behind.rest.length := by
        cases reads : behind.matchChar 94 with
        | none => exact le_rfl
        | some behind' =>
            have less' := length_matchChar reads
            exact Nat.le_of_lt (show behind'.rest.length < _ by omega)
      apply (parseCharClasses_within (by omega)).bind
      intro e sc' less'
      dsimp only
      cases closes : sc'.matchChar 93 with
      | none => exact within_illegalArgument
      | some behind' =>
          have less'' := length_matchChar closes
          exact within_ok (by omega)

theorem simpleExp_succ : EndsWithin 1 (fuel + 1) parseSimpleExp := by
  have one : ∀ {sc behind : Scanner} {c : JChar} {e : RegExp},
      sc.matchChar c = some behind →
        Within sc.rest.length (.ok (e, behind) : Parsed) := by
    intro sc behind c e reads
    have less := length_matchChar reads
    exact within_ok (by omega)
  intro sc enough
  rw [parseSimpleExp]
  split
  · next reads => exact one reads
  split
  · next reads => exact one reads
  split
  · next reads => exact one reads
  split
  · next reads =>
      exact (parseQuoted_within _).mono (length_matchChar reads).le
  split
  · next reads =>
      have less := length_matchChar reads
      split
      · next reads' =>
          have less' := length_matchChar reads'
          exact within_ok (by omega)
      · apply (ends.unionExp _ (by omega)).bind
        intro e sc' less'
        dsimp only
        split
        · exact within_illegalArgument
        · next reads' =>
            have less'' := length_matchChar reads'
            exact within_ok (by omega)
  split
  · next reads =>
      exact (parseNamed_within _).mono (length_matchChar reads).le
  · apply (parseCharExp_within sc).bind
    intro c sc' less
    exact within_ok less

end ProductionsEnd

theorem productionsEnd (fuel : Nat) : ProductionsEnd fuel := by
  induction fuel with
  | zero => constructor <;> exact fun sc enough => absurd enough (by omega)
  | succ fuel ends =>
      exact ⟨ends.unionExp_succ, ends.interExp_succ, ends.concatExp_succ,
        ends.repeatExp_succ, ends.complExp_succ, ends.charClassExp_succ,
        ends.simpleExp_succ⟩

/-- The parser ends by itself: its fuel is never used up. -/
theorem parse_ne_fuel (s : Word) : parse s ≠ .error .fuel := by
  rw [parse]
  split_ifs
  · intro same
    cases same
  · have within := (productionsEnd (fuelFor s)).unionExp ⟨0, s⟩
      (Nat.le_succ (8 * s.length + 7))
    intro runsOut
    cases parsed : parseUnionExp (fuelFor s) ⟨0, s⟩ with
    | error error =>
        rw [parsed] at within runsOut
        cases runsOut
        exact within rfl
    | ok result =>
        rw [parsed] at runsOut
        change (if result.2.more = true then _ else _) = _ at runsOut
        split_ifs at runsOut
        cases runsOut

end Within

/-! ## At the end of the string -/

/-- A concatenation up to the end of the string is the whole expression. -/
theorem parse_of_concatExp {fuel after : Nat} {s : Word} {e : RegExp}
    (nonempty : s ≠ []) (enough : fuelFor s = fuel + 2)
    (parsed : parseConcatExp fuel ⟨0, s⟩ = .ok (e, ⟨after, []⟩)) :
    parse s = .ok e := by
  have inter : parseInterExp (fuel + 1) ⟨0, s⟩ = .ok (e, ⟨after, []⟩) := by
    rw [parseInterExp, parsed]
    rfl
  have union : parseUnionExp (fuel + 2) ⟨0, s⟩ = .ok (e, ⟨after, []⟩) := by
    rw [parseUnionExp, inter]
    rfl
  rw [parse, if_neg nonempty, enough, union]
  rfl

/-! ## Strings that are parsed as themselves -/

/-- The characters with a meaning of their own outside character classes:
`|`, `&`, `?`, `*`, `+`, `{`, `~`, `[`, `.`, `#`, `@`, `"`, `(`, `)`, `<` and `\`. -/
def reserved : List JChar :=
  [124, 38, 63, 42, 43, 123, 126, 91, 46, 35, 64, 34, 40, 41, 60, 92]

/-- The reserved characters that are not read as themselves at the start of an
expression: `~`, `[`, `.`, `#`, `@`, `"`, `(`, `<` and `\`. -/
def openers : List JChar :=
  [126, 91, 46, 35, 64, 34, 40, 60, 92]

/-- The first character opens nothing, and no later one is reserved. -/
def Verbatim : Word → Prop
  | [] => True
  | c :: word => c ∉ openers ∧ ∀ d ∈ word, d ∉ reserved

theorem openers_subset : openers ⊆ reserved := by
  decide

theorem verbatim_of_free {word : Word} (free : ∀ c ∈ word, c ∉ reserved) :
    Verbatim word := by
  cases word with
  | nil => trivial
  | cons c word =>
      rw [List.forall_mem_cons] at free
      exact ⟨fun opens => free.1 (openers_subset opens), free.2⟩

section Literal

variable {pos : Nat} {c : JChar} {word : Word}

/-- A character outside a list does not match one of the list. -/
theorem matchChar_free {chars : List JChar} (free : c ∉ chars) {d : JChar}
    (member : d ∈ chars) : (Scanner.mk pos (c :: word)).matchChar d = none :=
  Scanner.matchChar_other fun same => free (same ▸ member)

theorem parseComplExp_free (fuel : Nat) (free : c ∉ openers) :
    parseComplExp (fuel + 3) ⟨pos, c :: word⟩ =
      .ok (char c, ⟨pos + 1, word⟩) := by
  rw [parseComplExp, matchChar_free free (by decide)]
  dsimp only
  rw [parseCharClassExp, matchChar_free free (by decide)]
  dsimp only
  rw [parseSimpleExp, matchChar_free free (by decide),
    matchChar_free free (by decide), matchChar_free free (by decide),
    matchChar_free free (by decide), matchChar_free free (by decide),
    matchChar_free free (by decide)]
  dsimp only
  rw [parseCharExp, matchChar_free free (by decide)]
  rfl

theorem parseRepeats_free (fuel : Nat) (e : RegExp)
    (free : ∀ c ∈ word, c ∉ reserved) :
    parseRepeats (fuel + 1) e ⟨pos, word⟩ = .ok (e, ⟨pos, word⟩) := by
  cases word with
  | nil => rfl
  | cons c word =>
      have free := free c List.mem_cons_self
      rw [parseRepeats, matchChar_free free (by decide),
        matchChar_free free (by decide), matchChar_free free (by decide),
        matchChar_free free (by decide)]

theorem parseRepeatExp_free (fuel : Nat) (verbatim : Verbatim (c :: word)) :
    parseRepeatExp (fuel + 4) ⟨pos, c :: word⟩ =
      .ok (char c, ⟨pos + 1, word⟩) := by
  rw [parseRepeatExp, parseComplExp_free fuel verbatim.1]
  exact parseRepeats_free (fuel + 2) (char c) verbatim.2

/-- The characters are joined to a string from the right. -/
theorem parseConcatExp_free (fuel : Nat) (verbatim : Verbatim (c :: word)) :
    ∃ e sc, parseConcatExp (fuel + word.length + 5) ⟨pos, c :: word⟩ =
      .ok (e, sc) ∧ sc.rest = [] ∧ e.text = some (c :: word) := by
  induction word generalizing pos c with
  | nil =>
      refine ⟨char c, ⟨pos + 1, []⟩, ?_, rfl, rfl⟩
      rw [parseConcatExp, parseRepeatExp_free _ verbatim]
      rfl
  | cons d word induction =>
      have rest := verbatim_of_free verbatim.2
      rcases @induction (pos + 1) d rest with ⟨e, sc, parsed, ends, isText⟩
      refine ⟨makeConcatenation (char c) e, sc, ?_, ends, ?_⟩
      · have open' : ([41, 124] : Word).contains d = false ∧
            ([38] : Word).contains d = false := by
          have free := verbatim.2 d List.mem_cons_self
          simp only [reserved, List.mem_cons, not_or] at free
          simp [free]
        rw [parseConcatExp, parseRepeatExp_free _ verbatim]
        change (if (!([41, 124] : Word).contains d) &&
          !([38] : Word).contains d then _ else _) = _
        rw [open'.1, open'.2]
        change (parseConcatExp (fuel + word.length + 5) _ >>= _) = _
        rw [parsed]
        rfl
      · rw [makeConcatenation_of_text rfl isText]
        rfl

/-- Such a string is parsed as itself. -/
theorem parse_verbatim (verbatim : Verbatim word) :
    ∃ e, parse word = .ok e ∧ e.text = some word := by
  cases word with
  | nil => exact ⟨string [], rfl, rfl⟩
  | cons c word =>
      rcases @parseConcatExp_free 0 c word (7 * word.length + 9) verbatim with
        ⟨e, ⟨after, rest⟩, parsed, rfl, isText⟩
      have enough : fuelFor (c :: word) =
          7 * word.length + 9 + word.length + 5 + 2 := by
        rw [fuelFor, List.length_cons]
        omega
      exact ⟨e, parse_of_concatExp (List.cons_ne_nil c word) enough parsed,
        isText⟩

end Literal

/-! ## Decimal numbers -/

section Numbers

open Decimal

variable {n : Nat}

theorem isDigit_of_mem_decimal {c : JChar} (member : c ∈ decimal n) :
    isDigit c = true := by
  have bounds := toNat_of_mem_decimal member
  rw [isDigit, decide_eq_true_iff, UInt16.le_iff_toNat_le,
    UInt16.le_iff_toNat_le]
  exact ⟨bounds.1, Nat.le_of_lt_succ bounds.2⟩

theorem digitOf_of_isDigit {c : JChar} (digit : isDigit c = true) :
    digitOf c = some (c.toNat - 48) := by
  rw [isDigit, decide_eq_true_iff] at digit
  rw [digitOf, zeros, List.find?_cons_of_pos]
  · rfl
  · exact decide_eq_true digit

theorem mapM_digitOf {s : Word} (digits : ∀ c ∈ s, isDigit c = true) :
    s.mapM digitOf = some (s.map fun c => c.toNat - 48) := by
  induction s with
  | nil => rfl
  | cons c s induction =>
      rw [List.mapM_cons, digitOf_of_isDigit (digits c List.mem_cons_self),
        induction fun d member => digits d (List.mem_cons_of_mem c member)]
      rfl

/-- `parseInt` reads what `toString` writes. -/
theorem parseInt_decimal (small : n < 2 ^ 31) :
    parseInt (decimal n) = .ok n := by
  have noSign : (decimal n).head? ≠ some 43 := by
    intro sign
    have bounds := toNat_of_mem_decimal (List.mem_of_mem_head? sign)
    exact absurd bounds.1 (by decide)
  have number : Nat.ofDigits 10
      ((decimal n).map fun c => c.toNat - 48).reverse = n := by
    rw [← List.map_reverse]
    exact value_decimal n
  rw [parseInt]
  dsimp only
  rw [if_neg noSign, mapM_digitOf fun _ => isDigit_of_mem_decimal]
  cases isDecimal : decimal n with
  | nil => exact absurd isDecimal (decimal_ne_nil n)
  | cons c rest =>
      rw [isDecimal] at number
      dsimp only
      rw [number, if_pos small]

theorem readWhile_decimal (pos : Nat) {c : JChar} (other : isDigit c = false)
    (rest : Word) :
    (Scanner.mk pos (decimal n ++ c :: rest)).readWhile isDigit =
      (decimal n, ⟨pos + (decimal n).length, c :: rest⟩) := by
  have taken : (decimal n ++ c :: rest).takeWhile isDigit = decimal n := by
    rw [List.takeWhile_append_of_pos fun _ => isDigit_of_mem_decimal,
      List.takeWhile_cons_of_neg (by rw [other]; exact Bool.false_ne_true),
      List.append_nil]
  have dropped : (decimal n ++ c :: rest).dropWhile isDigit = c :: rest := by
    rw [List.dropWhile_append_of_pos fun _ => isDigit_of_mem_decimal,
      List.dropWhile_cons_of_neg (by rw [other]; exact Bool.false_ne_true)]
  rw [Scanner.readWhile]
  dsimp only
  rw [taken, dropped]

/-- A single number between braces is both bounds. -/
theorem parseBounds_decimal (small : n < 2 ^ 31) (e : RegExp) (pos : Nat)
    (rest : Word) :
    parseBounds e ⟨pos, decimal n ++ 125 :: rest⟩ =
      .ok (repeatMinMax e n n, ⟨pos + (decimal n).length + 1, rest⟩) := by
  rw [parseBounds, readWhile_decimal pos rfl rest]
  dsimp only
  rw [if_neg (decimal_ne_nil n), parseInt_decimal small]
  rfl

end Numbers

end SafetyGames.Transducer
