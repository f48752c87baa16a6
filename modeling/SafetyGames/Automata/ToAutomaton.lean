import SafetyGames.Automata.Equals
import SafetyGames.Automata.MakeInterval
import SafetyGames.Teacher.RegExpMeaning

/-!
# Compilation of regular expressions

`toAutomaton(minimize)` with the operations of the library themselves.  It
throws exactly on identifiers and on intervals that `makeInterval` refuses;
every other expression is compiled to a tidy automaton of its language,
whether the automata are minimized on the way or not.
-/

namespace SafetyGames.Automata.Representation

open SafetyGames.Transducer SafetyGames.LabelledPath SafetyGames.Teacher
open SafetyGames.Regular
open Computability

/-! ## Automata of single characters -/

/-- `BasicAutomata.makeCharRange(min, max)`. -/
def makeCharRange (min max : JChar) : Representation :=
  if min = max then .singleton [min]
  else .explicit (Teacher.makeCharRange min max)

theorem tidy_oneStep {transitions : List Transition}
    {leads : ∀ transition ∈ transitions, transition.dest = 1}
    (reduced : Reduced transitions) : Tidy (oneStep transitions leads) := by
  refine ⟨oneStep_invariants, fun _ ref _ => ?_⟩
  match ref with
  | 0 => exact reduced
  | 1 => exact List.Pairwise.nil
  | _ + 2 => exact List.Pairwise.nil

theorem tidy_makeCharRange (min max : JChar) :
    Tidy (Teacher.makeCharRange min max) := by
  rw [Teacher.makeCharRange]
  split_ifs
  · exact tidy_makeString [min]
  · exact tidy_oneStep (List.pairwise_singleton _ _)
  · exact tidy_oneStep List.Pairwise.nil

theorem denotes_makeCharRange (min max : JChar) :
    Denotes (makeCharRange min max)
      {word | ∃ c, min ≤ c ∧ c ≤ max ∧ word = [c]} := by
  have built := (builds_makeCharRange min max).2
  rw [makeCharRange]
  split_ifs with same
  · refine ⟨tidy_makeString [min], ?_⟩
    rwa [Teacher.makeCharRange, if_pos same] at built
  · exact ⟨tidy_makeCharRange min max, built⟩

theorem denotes_makeAnyChar :
    Denotes (makeCharRange 0 65535) {word | ∃ c, word = [c]} := by
  refine ⟨(denotes_makeCharRange 0 65535).tidy, ?_⟩
  rw [makeCharRange, if_neg (by decide)]
  exact builds_makeAnyChar.2

theorem denotes_makeAnyString : Denotes (.explicit makeAnyString) ⊤ := by
  refine ⟨⟨builds_makeAnyString.1, fun _ ref _ => ?_⟩, builds_makeAnyString.2⟩
  match ref with
  | 0 => exact List.pairwise_singleton _ _
  | _ + 1 => exact List.Pairwise.nil

/-! ## toAutomaton(minimize) -/

section ToAutomaton

variable (order : StateOrder)
  (identical : Representation → Representation → Bool)

/-- `if (minimize) a.minimize()`. -/
def minimizeIf (flag : Bool) (a : Representation) : Option Representation :=
  if flag then minimize order a else some a

variable (flag : Bool)

mutual

/-- `toAutomaton(minimize)`; the identifiers of automata are unknown. -/
def toAutomaton : RegExp → Option Representation
  | .union exp1 exp2 => do
      let list1 ← findLeaves .union exp1
      let list2 ← findLeaves .union exp2
      minimizeIf order flag (unionAll (list1 ++ list2))
  | .concatenation exp1 exp2 => do
      let list1 ← findLeaves .concatenation exp1
      let list2 ← findLeaves .concatenation exp2
      minimizeIf order flag (concatenateAll (list1 ++ list2))
  | .intersection exp1 exp2 => do
      let a ← toAutomaton exp1
      let b ← toAutomaton exp2
      minimizeIf order flag (intersection order identical a b)
  | .optional exp1 => do
      let a ← toAutomaton exp1
      minimizeIf order flag (optional a)
  | .repetition exp1 => do
      let a ← toAutomaton exp1
      minimizeIf order flag (repetition a)
  | .repeatMin exp1 min => do
      let a ← toAutomaton exp1
      minimizeIf order flag (repeatMin a min)
  | .repeatMinMax exp1 min max => do
      let a ← toAutomaton exp1
      minimizeIf order flag (repeatMinMax a min max)
  | .complement exp1 => do
      let a ← toAutomaton exp1
      minimizeIf order flag (complement order a)
  | .char c => some (.singleton [c])
  | .charRange low high => some (makeCharRange low high)
  | .anyChar => some (makeCharRange 0 65535)
  | .empty => some makeEmpty
  | .string s => some (.singleton s)
  | .anyString => some (.explicit makeAnyString)
  | .automaton _ => none
  | .interval min max digits =>
      (makeInterval min max digits).map .explicit
termination_by e => (sizeOf e, 0)

/-- `findLeaves(exp, kind, list)`: the automata of the operands. -/
def findLeaves : Teacher.Joined → RegExp → Option (List Representation)
  | .union, .union exp1 exp2 => do
      let list1 ← findLeaves .union exp1
      let list2 ← findLeaves .union exp2
      return list1 ++ list2
  | .concatenation, .concatenation exp1 exp2 => do
      let list1 ← findLeaves .concatenation exp1
      let list2 ← findLeaves .concatenation exp2
      return list1 ++ list2
  | _, e => do
      let a ← toAutomaton e
      return [a]
termination_by _ e => (sizeOf e, 1)

end

/-- `new RegExp(s).toAutomaton(minimize)`; the parser may throw, too. -/
def automatonOf (s : Word) : Option Representation :=
  match RegExp.parse s with
  | .ok e => toAutomaton order identical flag e
  | .error _ => none

/-- No identifier occurs, and `makeInterval` accepts the intervals. -/
def Compilable : RegExp → Prop
  | .union exp1 exp2 | .concatenation exp1 exp2 | .intersection exp1 exp2 =>
      Compilable exp1 ∧ Compilable exp2
  | .optional exp1 | .repetition exp1 | .repeatMin exp1 _
  | .repeatMinMax exp1 _ _ | .complement exp1 => Compilable exp1
  | .automaton _ => False
  | .interval min max digits => ∃ a, makeInterval min max digits = some a
  | _ => True

/-! ## What is compiled -/

variable {order identical flag}

/-- A call that returns an automaton of the language. -/
def Meets (result : Option Representation) (L : Language JChar) : Prop :=
  ∃ r, result = some r ∧ Denotes r L

/-- A call that returns the automata of operands of the language. -/
def LeavesMeet (kind : Teacher.Joined) (result : Option (List Representation))
    (L : Language JChar) : Prop :=
  ∃ list, result = some list ∧ (∀ r ∈ list, Tidy r.expand) ∧
    joined kind (list.map fun r => language r.expand) = L

theorem Denotes.minimizeIf {r : Representation} {L : Language JChar}
    (denotes : Denotes r L) : Meets (minimizeIf order flag r) L := by
  rw [Representation.minimizeIf]
  cases flag with
  | true =>
      rcases @Denotes.minimize_returns order _ _ denotes with
        ⟨m, returned, _, same⟩
      exact ⟨m, returned, same⟩
  | false => exact ⟨r, rfl, denotes⟩

/-- A leaf alone is its list. -/
theorem Meets.leaf {kind : Teacher.Joined} {result : Option Representation}
    {L : Language JChar} (meets : Meets result L) :
    LeavesMeet kind (result.bind fun a => some [a]) L := by
  rcases meets with ⟨r, returned, denotes⟩
  refine ⟨[r], by rw [returned]; rfl, ?_, ?_⟩
  · intro other member
    rw [List.mem_singleton.mp member]
    exact denotes.tidy
  · rw [List.map_singleton, joined_singleton, denotes.lang_eq]

/-- The operands of two expressions of the kind, one after the other. -/
theorem LeavesMeet.append {kind : Teacher.Joined}
    {result1 result2 : Option (List Representation)} {L1 L2 : Language JChar}
    (first : LeavesMeet kind result1 L1) (second : LeavesMeet kind result2 L2) :
    LeavesMeet kind
      (result1.bind fun list1 => result2.bind fun list2 => some (list1 ++ list2))
      (joined kind [L1, L2]) := by
  rcases first with ⟨list1, rfl, tidy1, rfl⟩
  rcases second with ⟨list2, rfl, tidy2, rfl⟩
  refine ⟨list1 ++ list2, rfl, ?_, ?_⟩
  · intro r member
    rcases List.mem_append.mp member with inFirst | inSecond
    · exact tidy1 r inFirst
    · exact tidy2 r inSecond
  · rw [List.map_append, joined_append]

/-- The operands go into one operation on lists. -/
theorem LeavesMeet.meets {kind : Teacher.Joined}
    {result1 result2 : Option (List Representation)} {L1 L2 : Language JChar}
    {operation : List Representation → Representation}
    (first : LeavesMeet kind result1 L1) (second : LeavesMeet kind result2 L2)
    (law : ∀ list : List Representation, (∀ r ∈ list, Tidy r.expand) →
      Denotes (operation list) (joined kind (list.map fun r => language r.expand))) :
    Meets (result1.bind fun list1 => result2.bind fun list2 =>
      minimizeIf order flag (operation (list1 ++ list2)))
      (joined kind [L1, L2]) := by
  rcases first.append second with ⟨list, returned, tidy, same⟩
  rcases first with ⟨list1, rfl, _⟩
  rcases second with ⟨list2, rfl, _⟩
  cases returned
  rw [← same]
  exact (law _ tidy).minimizeIf

/-- An operation on one automaton, and what it does to the language. -/
theorem Meets.unary {result : Option Representation} {L M : Language JChar}
    {operation : Representation → Representation} (meets : Meets result L)
    (law : ∀ r, Denotes r L → Denotes (operation r) M) :
    Meets (result.bind fun a => minimizeIf order flag (operation a)) M := by
  rcases meets with ⟨r, rfl, denotes⟩
  exact (law r denotes).minimizeIf

/-- The expression is compiled, as a whole and as an operand. -/
def Compiled (order : StateOrder)
    (identical : Representation → Representation → Bool) (flag : Bool)
    (e : RegExp) : Prop :=
  Meets (toAutomaton order identical flag e) (meaning e) ∧
    ∀ kind, LeavesMeet kind (findLeaves order identical flag kind e) (meaning e)

/-- An expression that is neither a union nor a concatenation is a leaf. -/
theorem findLeaves_of_alone {e : RegExp} (alone : Alone e)
    {kind : Teacher.Joined} :
    findLeaves order identical flag kind e =
      (toAutomaton order identical flag e).bind fun a => some [a] := by
  rw [findLeaves]
  · rfl
  · rintro e1 e2 _ rfl
    exact alone
  · rintro e1 e2 _ rfl
    exact alone

theorem findLeaves_union {e1 e2 : RegExp} :
    findLeaves order identical flag .concatenation (.union e1 e2) =
      (toAutomaton order identical flag (.union e1 e2)).bind
        fun a => some [a] := by
  rw [findLeaves]
  · rfl
  · intro _ _ other
    cases other
  · intro _ _ _ same
    cases same

theorem findLeaves_concatenation {e1 e2 : RegExp} :
    findLeaves order identical flag .union (.concatenation e1 e2) =
      (toAutomaton order identical flag (.concatenation e1 e2)).bind
        fun a => some [a] := by
  rw [findLeaves]
  · rfl
  · intro _ _ _ same
    cases same
  · intro _ _ other
    cases other

theorem compiled_of_alone {e : RegExp} (alone : Alone e)
    (meets : Meets (toAutomaton order identical flag e) (meaning e)) :
    Compiled order identical flag e := by
  refine ⟨meets, fun kind => ?_⟩
  rw [findLeaves_of_alone alone]
  exact meets.leaf

theorem compiled_union {e1 e2 : RegExp}
    (first : Compiled order identical flag e1)
    (second : Compiled order identical flag e2) :
    Compiled order identical flag (.union e1 e2) := by
  have whole : Meets (toAutomaton order identical flag (.union e1 e2))
      (meaning (.union e1 e2)) := by
    rw [toAutomaton, meaning, ← joined_union]
    exact (first.2 .union).meets (second.2 .union) fun _ tidy =>
      denotes_unionAll fun r member => (tidy r member).invariants
  refine ⟨whole, fun kind => ?_⟩
  cases kind with
  | union =>
      rw [findLeaves, meaning, ← joined_union]
      exact (first.2 .union).append (second.2 .union)
  | concatenation =>
      rw [findLeaves_union]
      exact whole.leaf

theorem compiled_concatenation {e1 e2 : RegExp}
    (first : Compiled order identical flag e1)
    (second : Compiled order identical flag e2) :
    Compiled order identical flag (.concatenation e1 e2) := by
  have whole : Meets (toAutomaton order identical flag (.concatenation e1 e2))
      (meaning (.concatenation e1 e2)) := by
    rw [toAutomaton, meaning, ← joined_concatenation]
    exact (first.2 .concatenation).meets (second.2 .concatenation) fun _ tidy =>
      denotes_concatenateAll tidy
  refine ⟨whole, fun kind => ?_⟩
  cases kind with
  | concatenation =>
      rw [findLeaves, meaning, ← joined_concatenation]
      exact (first.2 .concatenation).append (second.2 .concatenation)
  | union =>
      rw [findLeaves_concatenation]
      exact whole.leaf

theorem compiled_unary {e e1 : RegExp} (alone : Alone e)
    (compiled : Compiled order identical flag e1)
    {operation : Representation → Representation}
    (isUnary : toAutomaton order identical flag e =
      (toAutomaton order identical flag e1).bind fun a =>
        minimizeIf order flag (operation a))
    (law : ∀ r, Denotes r (meaning e1) → Denotes (operation r) (meaning e)) :
    Compiled order identical flag e := by
  refine compiled_of_alone alone ?_
  rw [isUnary]
  exact compiled.1.unary law

theorem compiled_intersection
    (same : ∀ a1 a2, identical a1 a2 = true → a1 = a2) {e1 e2 : RegExp}
    (first : Compiled order identical flag e1)
    (second : Compiled order identical flag e2) :
    Compiled order identical flag (.intersection e1 e2) := by
  refine compiled_of_alone trivial ?_
  rcases first.1 with ⟨a, found1, denotes1⟩
  rcases second.1 with ⟨b, found2, denotes2⟩
  rw [toAutomaton, found1, found2]
  exact (denotes1.intersection same denotes2).minimizeIf

theorem compiled_of_eq {e : RegExp} {r : Representation} (alone : Alone e)
    (returned : toAutomaton order identical flag e = some r)
    (denotes : Denotes r (meaning e)) : Compiled order identical flag e :=
  compiled_of_alone alone ⟨r, returned, denotes⟩

/-- Every compilable expression is compiled to an automaton of its language. -/
theorem compiled_of_compilable
    (same : ∀ a1 a2, identical a1 a2 = true → a1 = a2) {e : RegExp}
    (compilable : Compilable e) : Compiled order identical flag e := by
  induction e with
  | union e1 e2 first second =>
      exact compiled_union (first compilable.1) (second compilable.2)
  | concatenation e1 e2 first second =>
      exact compiled_concatenation (first compilable.1) (second compilable.2)
  | intersection e1 e2 first second =>
      exact compiled_intersection same (first compilable.1)
        (second compilable.2)
  | «optional» e1 compiled =>
      exact compiled_unary trivial (compiled compilable)
        (by rw [toAutomaton]; rfl) fun _ denotes => denotes.optional
  | repetition e1 compiled =>
      exact compiled_unary trivial (compiled compilable)
        (by rw [toAutomaton]; rfl) fun _ denotes => denotes.repetition
  | repeatMin e1 min compiled =>
      exact compiled_unary trivial (compiled compilable)
        (by rw [toAutomaton]; rfl) fun _ denotes => denotes.repeatMin min
  | repeatMinMax e1 min max compiled =>
      exact compiled_unary trivial (compiled compilable)
        (by rw [toAutomaton]; rfl) fun _ denotes => denotes.repeatMinMax min max
  | complement e1 compiled =>
      exact compiled_unary trivial (compiled compilable)
        (by rw [toAutomaton]; rfl) fun _ denotes => denotes.recognizes.complement
  | char c =>
      exact compiled_of_eq trivial (by rw [toAutomaton]) (denotes_singleton [c])
  | charRange low high =>
      exact compiled_of_eq trivial (by rw [toAutomaton])
        (denotes_makeCharRange low high)
  | anyChar =>
      exact compiled_of_eq trivial (by rw [toAutomaton]) denotes_makeAnyChar
  | empty =>
      exact compiled_of_eq trivial (by rw [toAutomaton]) denotes_makeEmpty
  | string s =>
      exact compiled_of_eq trivial (by rw [toAutomaton]) (denotes_singleton s)
  | anyString =>
      exact compiled_of_eq trivial (by rw [toAutomaton]) denotes_makeAnyString
  | automaton s => exact compilable.elim
  | interval min max digits =>
      rcases compilable with ⟨a, returned⟩
      rcases tidy_makeInterval returned with ⟨tidy, isMeaning⟩
      have denotes : Denotes (.explicit a) (numbers min max digits) :=
        ⟨tidy, isMeaning⟩
      exact compiled_of_eq trivial (by rw [toAutomaton, returned]; rfl) denotes

/-! ## What is refused -/

/-- What the expression returns, as a whole and as an operand, it returns
because it is compilable. -/
def Needs (order : StateOrder)
    (identical : Representation → Representation → Bool) (flag : Bool)
    (e : RegExp) : Prop :=
  (∀ r, toAutomaton order identical flag e = some r → Compilable e) ∧
    ∀ kind list, findLeaves order identical flag kind e = some list →
      Compilable e

theorem needs_of_alone {e : RegExp} (alone : Alone e)
    (needs : ∀ r, toAutomaton order identical flag e = some r → Compilable e) :
    Needs order identical flag e := by
  refine ⟨needs, fun kind list found => ?_⟩
  rw [findLeaves_of_alone alone] at found
  rcases Option.bind_eq_some_iff.mp found with ⟨r, returned, _⟩
  exact needs r returned

/-- Whatever two lists of operands go into, there must be both. -/
theorem compilable_of_bind {e1 e2 : RegExp} (first : Needs order identical flag e1)
    (second : Needs order identical flag e2) {α : Type}
    {kind : Teacher.Joined}
    {last : List Representation → List Representation → Option α} {result : α}
    (found : ((findLeaves order identical flag kind e1).bind fun list1 =>
      (findLeaves order identical flag kind e2).bind fun list2 =>
        last list1 list2) = some result) :
    Compilable e1 ∧ Compilable e2 := by
  rcases Option.bind_eq_some_iff.mp found with ⟨list1, found1, found⟩
  rcases Option.bind_eq_some_iff.mp found with ⟨list2, found2, _⟩
  exact ⟨first.2 kind list1 found1, second.2 kind list2 found2⟩

theorem needs_union {e1 e2 : RegExp} (first : Needs order identical flag e1)
    (second : Needs order identical flag e2) :
    Needs order identical flag (.union e1 e2) := by
  have whole : ∀ r, toAutomaton order identical flag (.union e1 e2) = some r →
      Compilable (.union e1 e2) := by
    intro r returned
    rw [toAutomaton] at returned
    exact compilable_of_bind first second returned
  refine ⟨whole, fun kind list found => ?_⟩
  cases kind with
  | union =>
      rw [findLeaves] at found
      exact compilable_of_bind first second found
  | concatenation =>
      rw [findLeaves_union] at found
      rcases Option.bind_eq_some_iff.mp found with ⟨r, returned, _⟩
      exact whole r returned

theorem needs_concatenation {e1 e2 : RegExp}
    (first : Needs order identical flag e1)
    (second : Needs order identical flag e2) :
    Needs order identical flag (.concatenation e1 e2) := by
  have whole : ∀ r,
      toAutomaton order identical flag (.concatenation e1 e2) = some r →
        Compilable (.concatenation e1 e2) := by
    intro r returned
    rw [toAutomaton] at returned
    exact compilable_of_bind first second returned
  refine ⟨whole, fun kind list found => ?_⟩
  cases kind with
  | concatenation =>
      rw [findLeaves] at found
      exact compilable_of_bind first second found
  | union =>
      rw [findLeaves_concatenation] at found
      rcases Option.bind_eq_some_iff.mp found with ⟨r, returned, _⟩
      exact whole r returned

theorem needs_unary {e e1 : RegExp} (alone : Alone e)
    {last : Representation → Option Representation}
    (isUnary : toAutomaton order identical flag e =
      (toAutomaton order identical flag e1).bind last)
    (needs : Needs order identical flag e1)
    (inner : Compilable e1 → Compilable e) : Needs order identical flag e := by
  refine needs_of_alone alone fun r returned => ?_
  rw [isUnary] at returned
  rcases Option.bind_eq_some_iff.mp returned with ⟨a, found, _⟩
  exact inner (needs.1 a found)

/-- Only compilable expressions are compiled. -/
theorem needs_compilable (e : RegExp) : Needs order identical flag e := by
  induction e with
  | union e1 e2 first second => exact needs_union first second
  | concatenation e1 e2 first second => exact needs_concatenation first second
  | intersection e1 e2 first second =>
      refine needs_of_alone trivial fun r returned => ?_
      rw [toAutomaton] at returned
      rcases Option.bind_eq_some_iff.mp returned with ⟨a, found1, returned⟩
      rcases Option.bind_eq_some_iff.mp returned with ⟨b, found2, _⟩
      exact ⟨first.1 a found1, second.1 b found2⟩
  | «optional» e1 needs =>
      exact needs_unary trivial (by rw [toAutomaton]; rfl) needs id
  | repetition e1 needs =>
      exact needs_unary trivial (by rw [toAutomaton]; rfl) needs id
  | repeatMin e1 min needs =>
      exact needs_unary trivial (by rw [toAutomaton]; rfl) needs id
  | repeatMinMax e1 min max needs =>
      exact needs_unary trivial (by rw [toAutomaton]; rfl) needs id
  | complement e1 needs =>
      exact needs_unary trivial (by rw [toAutomaton]; rfl) needs id
  | automaton s =>
      refine needs_of_alone trivial fun r returned => ?_
      rw [toAutomaton] at returned
      cases returned
  | interval min max digits =>
      refine needs_of_alone trivial fun r returned => ?_
      rw [toAutomaton] at returned
      rcases Option.map_eq_some_iff.mp returned with ⟨a, found, _⟩
      exact ⟨a, found⟩
  | _ => exact needs_of_alone trivial fun _ _ => trivial

/--
A text is compiled if and only if it parses to a compilable expression, and then
to a tidy automaton of the language of that expression.
-/
theorem automatonOf_exact
    (same : ∀ a1 a2, identical a1 a2 = true → a1 = a2) (s : Word) :
    ((∃ r, automatonOf order identical flag s = some r) ↔
        ∃ e, RegExp.parse s = .ok e ∧ Compilable e) ∧
      ∀ r, automatonOf order identical flag s = some r →
        ∃ e, RegExp.parse s = .ok e ∧ Denotes r (meaning e) := by
  rw [automatonOf]
  cases parsed : RegExp.parse s with
  | error error =>
      refine ⟨iff_of_false ?_ ?_, fun r returned => absurd returned ?_⟩
      · rintro ⟨r, returned⟩
        cases returned
      · rintro ⟨e, isExpression, _⟩
        cases isExpression
      · exact (Option.some_ne_none r).symm
  | ok e =>
      constructor
      · constructor
        · rintro ⟨r, returned⟩
          exact ⟨e, rfl, (needs_compilable e).1 r returned⟩
        · rintro ⟨e', isExpression, compilable⟩
          cases isExpression
          rcases (compiled_of_compilable same compilable).1 with
            ⟨r, returned, _⟩
          exact ⟨r, returned⟩
      · intro r returned
        rcases (compiled_of_compilable same
          ((needs_compilable e).1 r returned)).1 with ⟨r', returned', denotes⟩
        cases returned.symm.trans returned'
        exact ⟨e, rfl, denotes⟩

/--
The text `a*` is compiled to an automaton of the iterated letter, and `(a`, with
a missing parenthesis, is not compiled.
-/
theorem automatonOf_exact_star :
    (∃ r, automatonOf .found (fun _ _ => false) true [97, 42] = some r ∧
        language r.expand = ({[97]} : Language JChar)∗) ∧
      ¬ ∃ r, automatonOf .found (fun _ _ => false) true [40, 97] = some r := by
  constructor
  · rcases @automatonOf_exact .found (fun _ _ => false) true (by simp) [97, 42]
      with ⟨returns, exact⟩
    rcases returns.mpr ⟨.repetition (.char 97), rfl, trivial⟩ with ⟨r, returned⟩
    rcases exact r returned with ⟨e, parsed, denotes⟩
    cases (show Except.ok (.repetition (.char 97)) = Except.ok e from parsed)
    exact ⟨r, returned, denotes.lang_eq⟩
  · rw [(automatonOf_exact (by simp) [40, 97]).1]
    rintro ⟨e, parsed, _⟩
    have fails : ∃ error, RegExp.parse [40, 97] = .error error := ⟨_, rfl⟩
    rcases fails with ⟨error, fails⟩
    cases fails.symm.trans parsed

end ToAutomaton

end SafetyGames.Automata.Representation
