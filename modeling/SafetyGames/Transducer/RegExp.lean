import SafetyGames.Transducer.Automaton
import SafetyGames.Lib.Decimal

/-!
# Regular expressions and their parser

The syntax trees of `RegExp` and the recursive descent of its constructor
`RegExp(s)`, which sets every syntax flag.  A scanner is the position in the
string and what is left of the string there.  The productions call each other
with one unit of fuel less.
-/

namespace SafetyGames.Transducer

/-- A `RegExp` by its `kind`; a string of one character and the character are
different expressions. -/
inductive RegExp where
  | union (exp1 exp2 : RegExp)
  | concatenation (exp1 exp2 : RegExp)
  | intersection (exp1 exp2 : RegExp)
  | optional (exp1 : RegExp)
  | repetition (exp1 : RegExp)
  | repeatMin (exp1 : RegExp) (min : Nat)
  | repeatMinMax (exp1 : RegExp) (min max : Nat)
  | complement (exp1 : RegExp)
  | char (c : JChar)
  | charRange (low high : JChar)
  | anyChar
  | empty
  | string (s : Word)
  | anyString
  | automaton (s : Word)
  | interval (min max digits : Nat)
deriving DecidableEq

namespace RegExp

/-- The string that an expression of the kind `CHAR` or `STRING` stands for. -/
def text : RegExp → Option Word
  | char c => some [c]
  | string s => some s
  | _ => none

/-- `makeConcatenation(exp1, exp2)`: adjacent strings are joined. -/
def makeConcatenation (exp1 exp2 : RegExp) : RegExp :=
  match exp1.text, exp2.text with
  | some s1, some s2 => string (s1 ++ s2)
  | none, some s2 =>
      match exp1 with
      | concatenation left right =>
          match right.text with
          | some s1 => concatenation left (string (s1 ++ s2))
          | none => concatenation exp1 exp2
      | _ => concatenation exp1 exp2
  | some s1, none =>
      match exp2 with
      | concatenation left right =>
          match left.text with
          | some s2 => concatenation (string (s1 ++ s2)) right
          | none => concatenation exp1 exp2
      | _ => concatenation exp1 exp2
  | none, none => concatenation exp1 exp2

theorem makeConcatenation_of_text {exp1 exp2 : RegExp} {s1 s2 : Word}
    (first : exp1.text = some s1) (second : exp2.text = some s2) :
    makeConcatenation exp1 exp2 = string (s1 ++ s2) := by
  rw [makeConcatenation, first, second]

end RegExp

/-! ## The scanner -/

/-- What the parser throws; `fuel` stands for a recursion that was cut off. -/
inductive ParseError where
  | illegalArgument (message : String)
  | numberFormat
  | fuel
deriving DecidableEq

/-- The position `pos` in the string, and the string from there on. -/
structure Scanner where
  pos : Nat
  rest : Word
deriving DecidableEq

namespace Scanner

/-- `more()`. -/
def more (sc : Scanner) : Bool :=
  !sc.rest.isEmpty

/-- `peek(s)`. -/
def peek (sc : Scanner) (s : Word) : Bool :=
  match sc.rest with
  | [] => false
  | c :: _ => s.contains c

/-- `match(c)`: the scanner behind the character, if that is the next one. -/
def matchChar (sc : Scanner) (c : JChar) : Option Scanner :=
  match sc.rest with
  | [] => none
  | d :: rest => if d = c then some ⟨sc.pos + 1, rest⟩ else none

/-- `next()`. -/
def next (sc : Scanner) : Except ParseError (JChar × Scanner) :=
  match sc.rest with
  | [] => .error (.illegalArgument "unexpected end-of-string")
  | c :: rest => .ok (c, ⟨sc.pos + 1, rest⟩)

/-- A loop of `next()` over the characters with a property: what it read, and
the scanner behind it. -/
def readWhile (sc : Scanner) (p : JChar → Bool) : Word × Scanner :=
  (sc.rest.takeWhile p,
    ⟨sc.pos + (sc.rest.takeWhile p).length, sc.rest.dropWhile p⟩)

@[simp]
theorem matchChar_nil (pos : Nat) (c : JChar) :
    (Scanner.mk pos []).matchChar c = none :=
  rfl

@[simp]
theorem matchChar_self (pos : Nat) (c : JChar) (rest : Word) :
    (Scanner.mk pos (c :: rest)).matchChar c = some ⟨pos + 1, rest⟩ :=
  if_pos rfl

theorem matchChar_other {pos : Nat} {c d : JChar} {rest : Word}
    (other : d ≠ c) : (Scanner.mk pos (d :: rest)).matchChar c = none :=
  if_neg other

theorem matchChar_eq_some {sc behind : Scanner} {c : JChar} :
    sc.matchChar c = some behind ↔
      sc.rest = c :: behind.rest ∧ behind.pos = sc.pos + 1 := by
  cases sc with
  | mk pos rest =>
      cases rest with
      | nil => simp
      | cons d rest =>
          by_cases same : d = c
          · cases behind
            simp [same, eq_comm, and_comm]
          · simp [matchChar_other same, same]

/-- The exception on a missing piece of syntax. -/
def expected (sc : Scanner) (what : String) : ParseError :=
  .illegalArgument (what ++ " expected at position " ++ toString sc.pos)

/-- The exception on a missing character. -/
def expectedChar (sc : Scanner) (c : String) : ParseError :=
  .illegalArgument ("expected '" ++ c ++ "' at position " ++ toString sc.pos)

end Scanner

/-! ## Numbers -/

/-- The zeros among the characters; the other digits of a script follow. -/
def zeros : List JChar :=
  [0x30, 0x660, 0x6F0, 0x7C0, 0x966, 0x9E6, 0xA66, 0xAE6, 0xB66, 0xBE6, 0xC66,
    0xCE6, 0xD66, 0xDE6, 0xE50, 0xED0, 0xF20, 0x1040, 0x1090, 0x17E0, 0x1810,
    0x1946, 0x19D0, 0x1A80, 0x1A90, 0x1B50, 0x1BB0, 0x1C40, 0x1C50, 0xA620,
    0xA8D0, 0xA900, 0xA9D0, 0xA9F0, 0xAA50, 0xABF0, 0xFF10]

/-- `Character.digit(c, 10)`. -/
def digitOf (c : JChar) : Option Nat :=
  (zeros.find? fun zero => decide (zero ≤ c ∧ c ≤ zero + 9)).map
    fun zero => c.toNat - zero.toNat

/-- `Integer.parseInt(s)` on strings without a minus sign. -/
def parseInt (s : Word) : Except ParseError Nat :=
  let digits := if s.head? = some 43 then s.tail else s
  match digits, digits.mapM digitOf with
  | _ :: _, some values =>
      let n := Nat.ofDigits 10 values.reverse
      if n < 2 ^ 31 then .ok n else .error .numberFormat
  | _, _ => .error .numberFormat

/-- The characters `0` to `9`. -/
def isDigit (c : JChar) : Bool :=
  decide (48 ≤ c ∧ c ≤ 57)

/-! ## The parser -/

namespace RegExp

/-- The result of a production: an expression and the scanner behind it. -/
abbrev Parsed := Except ParseError (RegExp × Scanner)

/-- `parseCharExp()`: a backslash in front of a character is skipped. -/
def parseCharExp (sc : Scanner) : Except ParseError (JChar × Scanner) :=
  ((sc.matchChar 92).getD sc).next

/-- `parseCharClass()`: a character, a range `c-d`, or `c` and a final `-`. -/
def parseCharClass (sc : Scanner) : Parsed := do
  let (c, sc) ← parseCharExp sc
  match sc.matchChar 45 with
  | none => .ok (char c, sc)
  | some sc =>
      if sc.peek [93] then
        .ok (union (char c) (char 45), sc)
      else
        let (d, sc) ← parseCharExp sc
        .ok (charRange c d, sc)

/-- The loop of `parseCharClasses()`, up to `]`. -/
def parseCharClassesFrom : Nat → RegExp → Scanner → Parsed
  | 0, _, _ => .error .fuel
  | fuel + 1, e, sc =>
      if sc.more && !sc.peek [93] then do
        let (e', sc) ← parseCharClass sc
        parseCharClassesFrom fuel (union e e') sc
      else
        .ok (e, sc)

/-- `parseCharClasses()`. -/
def parseCharClasses (fuel : Nat) (sc : Scanner) : Parsed := do
  let (e, sc) ← parseCharClass sc
  parseCharClassesFrom fuel e sc

/-- `makeRepeat(e, n)`, or `makeRepeat(e, n, m)` with an upper bound. -/
def makeRepeat (e : RegExp) (n : Nat) : Option Nat → RegExp
  | none => repeatMin e n
  | some m => repeatMinMax e n m

/-- The upper bound of a repetition: `n` without a comma, none after a bare one. -/
def parseUpperBound (n : Nat) (sc : Scanner) :
    Except ParseError (Option Nat × Scanner) :=
  match sc.matchChar 44 with
  | none => .ok (some n, sc)
  | some sc =>
      let (digits, sc) := sc.readWhile isDigit
      if digits = [] then
        .ok (none, sc)
      else do
        let m ← parseInt digits
        .ok (some m, sc)

/-- The bounds of a repetition, behind `{`: `n}`, `n,}` or `n,m}`. -/
def parseBounds (e : RegExp) (sc : Scanner) : Parsed :=
  let (digits, sc) := sc.readWhile isDigit
  if digits = [] then
    .error (sc.expected "integer")
  else do
    let n ← parseInt digits
    let (m, sc) ← parseUpperBound n sc
    match sc.matchChar 125 with
    | none => .error (sc.expectedChar "\x7d")
    | some sc => .ok (makeRepeat e n m, sc)

/-- The loop of `parseRepeatExp()` over the operators `?`, `*`, `+` and `{`. -/
def parseRepeats : Nat → RegExp → Scanner → Parsed
  | 0, _, _ => .error .fuel
  | fuel + 1, e, sc =>
      match sc.matchChar 63, sc.matchChar 42, sc.matchChar 43, sc.matchChar 123 with
      | some sc, _, _, _ => parseRepeats fuel (optional e) sc
      | none, some sc, _, _ => parseRepeats fuel (repetition e) sc
      | none, none, some sc, _ => parseRepeats fuel (repeatMin e 1) sc
      | none, none, none, some sc => do
          let (e, sc) ← parseBounds e sc
          parseRepeats fuel e sc
      | none, none, none, none => .ok (e, sc)

/-- The string behind a quotation mark. -/
def parseQuoted (sc : Scanner) : Parsed :=
  let (s, sc) := sc.readWhile fun c => c != 34
  match sc.matchChar 34 with
  | none => .error (sc.expectedChar "\"")
  | some sc => .ok (string s, sc)

/-- The numbers of an interval with a dash at position `i`. -/
def parseInterval (s : Word) (i : Nat) : Except ParseError RegExp :=
  if i = 0 ∨ i = s.length - 1 ∨ 45 ∈ s.drop (i + 1) then
    .error .numberFormat
  else do
    let smin := s.take i
    let smax := s.drop (i + 1)
    let imin ← parseInt smin
    let imax ← parseInt smax
    let digits := if smin.length = smax.length then smin.length else 0
    .ok (interval (min imin imax) (max imin imax) digits)

/-- The name or the interval behind `<`. -/
def parseNamed (sc : Scanner) : Parsed :=
  let (s, sc) := sc.readWhile fun c => c != 62
  match sc.matchChar 62 with
  | none => .error (sc.expectedChar ">")
  | some sc =>
      match s.findIdx? fun c => c == 45 with
      | none => .ok (automaton s, sc)
      | some i =>
          match parseInterval s i with
          | .ok e => .ok (e, sc)
          | .error _ => .error (.illegalArgument
              ("interval syntax error at position " ++ toString (sc.pos - 1)))

mutual

/-- `parseUnionExp()`: `|` between intersections. -/
def parseUnionExp : Nat → Scanner → Parsed
  | 0, _ => .error .fuel
  | fuel + 1, sc => do
      let (e, sc) ← parseInterExp fuel sc
      match sc.matchChar 124 with
      | none => .ok (e, sc)
      | some sc =>
          let (e', sc) ← parseUnionExp fuel sc
          .ok (union e e', sc)

/-- `parseInterExp()`: `&` between concatenations. -/
def parseInterExp : Nat → Scanner → Parsed
  | 0, _ => .error .fuel
  | fuel + 1, sc => do
      let (e, sc) ← parseConcatExp fuel sc
      match sc.matchChar 38 with
      | none => .ok (e, sc)
      | some sc =>
          let (e', sc) ← parseInterExp fuel sc
          .ok (intersection e e', sc)

/-- `parseConcatExp()`: repetitions up to `)`, `|` or `&`. -/
def parseConcatExp : Nat → Scanner → Parsed
  | 0, _ => .error .fuel
  | fuel + 1, sc => do
      let (e, sc) ← parseRepeatExp fuel sc
      if sc.more && !sc.peek [41, 124] && !sc.peek [38] then
        let (e', sc) ← parseConcatExp fuel sc
        .ok (makeConcatenation e e', sc)
      else
        .ok (e, sc)

/-- `parseRepeatExp()`. -/
def parseRepeatExp : Nat → Scanner → Parsed
  | 0, _ => .error .fuel
  | fuel + 1, sc => do
      let (e, sc) ← parseComplExp fuel sc
      parseRepeats fuel e sc

/-- `parseComplExp()`: `~` in front of a character class. -/
def parseComplExp : Nat → Scanner → Parsed
  | 0, _ => .error .fuel
  | fuel + 1, sc =>
      match sc.matchChar 126 with
      | none => parseCharClassExp fuel sc
      | some sc => do
          let (e, sc) ← parseComplExp fuel sc
          .ok (complement e, sc)

/-- `parseCharClassExp()`: `[classes]`, `[^classes]`, or a simple expression. -/
def parseCharClassExp : Nat → Scanner → Parsed
  | 0, _ => .error .fuel
  | fuel + 1, sc =>
      match sc.matchChar 91 with
      | none => parseSimpleExp fuel sc
      | some sc => do
          let negate := sc.matchChar 94
          let (e, sc) ← parseCharClasses fuel (negate.getD sc)
          let e := if negate.isSome then intersection anyChar (complement e) else e
          match sc.matchChar 93 with
          | none => .error (sc.expectedChar "]")
          | some sc => .ok (e, sc)

/-- `parseSimpleExp()`: `.`, `#`, `@`, a quoted string, a group, a name in
`<>`, or a character. -/
def parseSimpleExp : Nat → Scanner → Parsed
  | 0, _ => .error .fuel
  | fuel + 1, sc =>
      if let some sc := sc.matchChar 46 then
        .ok (anyChar, sc)
      else if let some sc := sc.matchChar 35 then
        .ok (empty, sc)
      else if let some sc := sc.matchChar 64 then
        .ok (anyString, sc)
      else if let some sc := sc.matchChar 34 then
        parseQuoted sc
      else if let some sc := sc.matchChar 40 then
        match sc.matchChar 41 with
        | some sc => .ok (string [], sc)
        | none => do
            let (e, sc) ← parseUnionExp fuel sc
            match sc.matchChar 41 with
            | none => .error (sc.expectedChar ")")
            | some sc => .ok (e, sc)
      else if let some sc := sc.matchChar 60 then
        parseNamed sc
      else do
        let (c, sc) ← parseCharExp sc
        .ok (char c, sc)

end

/-- Fuel that no run of the parser on the string uses up. -/
def fuelFor (s : Word) : Nat :=
  8 * s.length + 8

/-- `new RegExp(s)`. -/
def parse (s : Word) : Except ParseError RegExp :=
  if s = [] then
    .ok (string [])
  else do
    let (e, sc) ← parseUnionExp (fuelFor s) ⟨0, s⟩
    if sc.more then
      .error (sc.expected "end-of-string")
    else
      .ok e

end RegExp

end SafetyGames.Transducer
