import SafetyGames.Teacher.RegExpAutomaton

/-!
# What the automata of regular expressions accept

By induction on the expression the automaton of `toAutomaton()` accepts the
language of the expression, and there is one unless an identifier or an
interval occurs.  At the end, operations that satisfy the laws.
-/

namespace SafetyGames.Teacher

open SafetyGames.Transducer SafetyGames.Regular
open Computability

section Sound

variable {ops : Operations} {good : Automaton → Prop}
  (correct : ops.CorrectOn good)

/-- The language of a list of operands. -/
def joined : Joined → List (Language JChar) → Language JChar
  | .union, languages => languages.sum
  | .concatenation, languages => languages.prod

theorem joined_union (L M : Language JChar) : joined .union [L, M] = L + M := by
  rw [joined, List.sum_cons, List.sum_cons, List.sum_nil, add_zero]

theorem joined_concatenation (L M : Language JChar) :
    joined .concatenation [L, M] = L * M := by
  rw [joined, List.prod_cons, List.prod_cons, List.prod_nil, mul_one]

theorem joined_append (kind : Joined) (left right : List (Language JChar)) :
    joined kind (left ++ right) =
      joined kind [joined kind left, joined kind right] := by
  cases kind with
  | union =>
      rw [joined_union]
      exact List.sum_append
  | concatenation =>
      rw [joined_concatenation]
      exact List.prod_append

theorem joined_singleton (kind : Joined) (L : Language JChar) :
    joined kind [L] = L := by
  cases kind with
  | union => exact add_zero L
  | concatenation => exact mul_one L

/-- The automaton of the expression, if it has one, accepts its language. -/
def Sound (ops : Operations) (good : Automaton → Prop) (e : RegExp) : Prop :=
  ∀ a, toAutomaton ops e = some a → Gives good a (meaning e)

/-- The leaves, if they have automata, together accept the language. -/
def LeavesSound (ops : Operations) (good : Automaton → Prop) (e : RegExp) :
    Prop :=
  ∀ kind list, findLeaves ops kind e = some list →
    (∀ a ∈ list, good a) ∧
      joined kind (list.map language) = meaning e

/-- For the kind the expression is a leaf. -/
def IsLeaf (ops : Operations) (kind : Joined) (e : RegExp) : Prop :=
  findLeaves ops kind e = (toAutomaton ops e).bind fun a => some [a]

/-- Neither a union nor a concatenation: a leaf of both kinds. -/
def Alone : RegExp → Prop
  | .union _ _ | .concatenation _ _ => False
  | _ => True

theorem isLeaf_of_ne {kind : Joined} {e : RegExp}
    (notUnion : ∀ e1 e2, kind = .union → e ≠ .union e1 e2)
    (notConcatenation : ∀ e1 e2,
      kind = .concatenation → e ≠ .concatenation e1 e2) : IsLeaf ops kind e := by
  rw [IsLeaf, findLeaves]
  · rfl
  · exact notUnion
  · exact notConcatenation

theorem Alone.isLeaf {e : RegExp} (alone : Alone e) (kind : Joined) :
    IsLeaf ops kind e := by
  apply isLeaf_of_ne
  · rintro e1 e2 _ rfl
    exact alone
  · rintro e1 e2 _ rfl
    exact alone

theorem isLeaf_union {e1 e2 : RegExp} :
    IsLeaf ops .concatenation (.union e1 e2) := by
  apply isLeaf_of_ne
  · intro _ _ other
    cases other
  · intro _ _ _ same
    cases same

theorem isLeaf_concatenation {e1 e2 : RegExp} :
    IsLeaf ops .union (.concatenation e1 e2) := by
  apply isLeaf_of_ne
  · intro _ _ _ same
    cases same
  · intro _ _ other
    cases other

theorem Sound.leaf {kind : Joined} {e : RegExp} (sound : Sound ops good e)
    (leaf : IsLeaf ops kind e) {list : List Automaton}
    (found : findLeaves ops kind e = some list) :
    (∀ a ∈ list, good a) ∧
      joined kind (list.map language) = meaning e := by
  rw [leaf] at found
  rcases Option.bind_eq_some_iff.mp found with ⟨a, builds, isList⟩
  cases isList
  rcases sound a builds with ⟨invariants, same⟩
  constructor
  · intro b member
    rw [List.mem_singleton.mp member]
    exact invariants
  · rw [List.map_singleton, joined_singleton, same]

/-- An expression that is neither a union nor a concatenation. -/
theorem Sound.leaves {e : RegExp} (sound : Sound ops good e)
    (alone : Alone e) : Sound ops good e ∧ LeavesSound ops good e :=
  ⟨sound, fun kind _ found => sound.leaf (alone.isLeaf kind) found⟩

/-- The operands of two expressions of the kind, one after the other. -/
theorem LeavesSound.append {e1 e2 : RegExp} (first : LeavesSound ops good e1)
    (second : LeavesSound ops good e2) {kind : Joined} {list1 list2 : List Automaton}
    (found1 : findLeaves ops kind e1 = some list1)
    (found2 : findLeaves ops kind e2 = some list2) :
    (∀ a ∈ list1 ++ list2, good a) ∧
      joined kind ((list1 ++ list2).map language) =
        joined kind [meaning e1, meaning e2] := by
  rcases first kind list1 found1 with ⟨invariants1, same1⟩
  rcases second kind list2 found2 with ⟨invariants2, same2⟩
  constructor
  · intro a member
    rcases List.mem_append.mp member with inFirst | inSecond
    · exact invariants1 a inFirst
    · exact invariants2 a inSecond
  · rw [List.map_append, joined_append, same1, same2]

/-- An expression with an automaton of its own. -/
theorem sound_basic {e : RegExp} {a : Automaton}
    (isBasic : toAutomaton ops e = some a) (gives : Gives good a (meaning e)) :
    Sound ops good e := by
  intro b found
  rw [isBasic] at found
  cases found
  exact gives

include correct

theorem sound_union {e1 e2 : RegExp} (first : LeavesSound ops good e1)
    (second : LeavesSound ops good e2) : Sound ops good (.union e1 e2) := by
  intro a builds
  rw [toAutomaton] at builds
  rcases Option.bind_eq_some_iff.mp builds with ⟨list1, found1, builds⟩
  rcases Option.bind_eq_some_iff.mp builds with ⟨list2, found2, returned⟩
  rcases first.append second found1 found2 with ⟨areGood, same⟩
  exact (correct.of_minimize (correct.union _ areGood)
    (same.trans (joined_union _ _)) returned).1

theorem sound_concatenation {e1 e2 : RegExp} (first : LeavesSound ops good e1)
    (second : LeavesSound ops good e2) : Sound ops good (.concatenation e1 e2) := by
  intro a builds
  rw [toAutomaton] at builds
  rcases Option.bind_eq_some_iff.mp builds with ⟨list1, found1, builds⟩
  rcases Option.bind_eq_some_iff.mp builds with ⟨list2, found2, returned⟩
  rcases first.append second found1 found2 with ⟨areGood, same⟩
  exact (correct.of_minimize (correct.concatenate _ areGood)
    (same.trans (joined_concatenation _ _)) returned).1

theorem sound_intersection {e1 e2 : RegExp} (first : Sound ops good e1)
    (second : Sound ops good e2) : Sound ops good (.intersection e1 e2) := by
  intro a builds
  rw [toAutomaton] at builds
  rcases Option.bind_eq_some_iff.mp builds with ⟨a1, found1, builds⟩
  rcases Option.bind_eq_some_iff.mp builds with ⟨a2, found2, returned⟩
  rcases first a1 found1 with ⟨good1, same1⟩
  rcases second a2 found2 with ⟨good2, same2⟩
  refine (correct.of_minimize (correct.intersection _ _ good1 good2) ?_
    returned).1
  rw [same1, same2]
  rfl

/-- An operation on one automaton, and what it does to the language. -/
theorem sound_unary {e e1 : RegExp} {operation : Automaton → Automaton}
    (onLanguage : Language JChar → Language JChar)
    (isUnary : toAutomaton ops e =
      (toAutomaton ops e1).bind fun a => ops.minimize (operation a))
    (isMeaning : meaning e = onLanguage (meaning e1))
    (law : ∀ a, good a → Gives good (operation a) (onLanguage (language a)))
    (sound : Sound ops good e1) : Sound ops good e := by
  intro a builds
  rw [isUnary] at builds
  rcases Option.bind_eq_some_iff.mp builds with ⟨a1, found, returned⟩
  rcases sound a1 found with ⟨isGood, same⟩
  refine (correct.of_minimize (law a1 isGood) ?_ returned).1
  rw [same, isMeaning]

/-- `toAutomaton` builds automata of the standard meaning. -/
theorem sound_leavesSound (e : RegExp) : Sound ops good e ∧ LeavesSound ops good e := by
  induction e with
  | union e1 e2 first second =>
      have sound := sound_union correct first.2 second.2
      refine ⟨sound, ?_⟩
      intro kind list found
      cases kind with
      | union =>
          rw [findLeaves] at found
          rcases Option.bind_eq_some_iff.mp found with ⟨list1, found1, found⟩
          rcases Option.bind_eq_some_iff.mp found with ⟨list2, found2, isList⟩
          cases isList
          rcases first.2.append second.2 found1 found2 with ⟨areGood, same⟩
          exact ⟨areGood, same.trans (joined_union _ _)⟩
      | concatenation =>
          exact sound.leaf isLeaf_union found
  | concatenation e1 e2 first second =>
      have sound := sound_concatenation correct first.2 second.2
      refine ⟨sound, ?_⟩
      intro kind list found
      cases kind with
      | union =>
          exact sound.leaf isLeaf_concatenation found
      | concatenation =>
          rw [findLeaves] at found
          rcases Option.bind_eq_some_iff.mp found with ⟨list1, found1, found⟩
          rcases Option.bind_eq_some_iff.mp found with ⟨list2, found2, isList⟩
          cases isList
          rcases first.2.append second.2 found1 found2 with ⟨areGood, same⟩
          exact ⟨areGood, same.trans (joined_concatenation _ _)⟩
  | intersection e1 e2 first second =>
      exact (sound_intersection correct first.1 second.1).leaves
        trivial
  | «optional» e1 sound =>
      have sound : Sound ops good (.optional e1) :=
        sound_unary correct (· + 1) (by rw [toAutomaton]; rfl)
          (by rw [meaning]) correct.optional sound.1
      exact sound.leaves trivial
  | repetition e1 sound =>
      have sound : Sound ops good (.repetition e1) :=
        sound_unary correct (·∗) (by rw [toAutomaton]; rfl)
          (by rw [meaning]) correct.repetition sound.1
      exact sound.leaves trivial
  | repeatMin e1 min sound =>
      have sound : Sound ops good (.repeatMin e1 min) :=
        sound_unary correct (fun L => L ^ min * L∗) (by rw [toAutomaton]; rfl)
          (by rw [meaning]) (correct.repeatMin · min) sound.1
      exact sound.leaves trivial
  | repeatMinMax e1 min max sound =>
      have sound : Sound ops good (.repeatMinMax e1 min max) :=
        sound_unary correct (repetitions · min max) (by rw [toAutomaton]; rfl)
          (by rw [meaning]) (correct.repeatMinMax · min max) sound.1
      exact sound.leaves trivial
  | complement e1 sound =>
      have sound : Sound ops good (.complement e1) :=
        sound_unary correct (·ᶜ) (by rw [toAutomaton]; rfl)
          (by rw [meaning]) correct.complement sound.1
      exact sound.leaves trivial
  | char c =>
      have gives : Gives good (Automaton.makeString [c]) (meaning (.char c)) :=
        ⟨correct.makeString [c], (builds_makeString [c]).2⟩
      exact (sound_basic (by rw [toAutomaton]) gives).leaves trivial
  | charRange low high =>
      have gives : Gives good (makeCharRange low high)
          (meaning (.charRange low high)) :=
        ⟨correct.makeCharRange low high, (builds_makeCharRange low high).2⟩
      exact (sound_basic (by rw [toAutomaton]) gives).leaves trivial
  | anyChar =>
      have gives : Gives good makeAnyChar (meaning .anyChar) :=
        ⟨correct.makeCharRange 0 65535, builds_makeAnyChar.2⟩
      exact (sound_basic (by rw [toAutomaton]) gives).leaves trivial
  | empty =>
      have gives : Gives good Automaton.makeEmpty (meaning .empty) :=
        ⟨correct.makeEmpty, builds_makeEmpty.2⟩
      exact (sound_basic (by rw [toAutomaton]) gives).leaves trivial
  | string s =>
      have gives : Gives good (Automaton.makeString s) (meaning (.string s)) :=
        ⟨correct.makeString s, (builds_makeString s).2⟩
      exact (sound_basic (by rw [toAutomaton]) gives).leaves trivial
  | anyString =>
      have gives : Gives good makeAnyString (meaning .anyString) :=
        ⟨correct.makeAnyString, builds_makeAnyString.2⟩
      exact (sound_basic (by rw [toAutomaton]) gives).leaves trivial
  | automaton s =>
      have sound : Sound ops good (.automaton s) := by
        intro a found
        rw [toAutomaton] at found
        cases found
      exact sound.leaves trivial
  | interval min max digits =>
      have sound : Sound ops good (.interval min max digits) := by
        intro a found
        rw [toAutomaton] at found
        exact correct.makeInterval min max digits a found
      exact sound.leaves trivial

end Sound

/-- The automaton of a regular expression accepts its language. -/
theorem toAutomaton_builds {ops : Operations} (correct : ops.Correct)
    {e : RegExp} {a : Automaton} (builds : toAutomaton ops e = some a) :
    Builds a (meaning e) := by
  rcases correct with ⟨good, correct⟩
  exact ((sound_leavesSound correct e).1 a builds).builds correct

/-! ## Expressions with an automaton -/

/-- The expression has no identifier and no interval in it. -/
def Plain : RegExp → Prop
  | .union exp1 exp2 | .concatenation exp1 exp2 | .intersection exp1 exp2 =>
      Plain exp1 ∧ Plain exp2
  | .optional exp1 | .repetition exp1 | .repeatMin exp1 _
  | .repeatMinMax exp1 _ _ | .complement exp1 => Plain exp1
  | .automaton _ | .interval _ _ _ => False
  | _ => True

/-- The expression and its leaves have automata. -/
def Total (ops : Operations) (e : RegExp) : Prop :=
  (∃ a, toAutomaton ops e = some a) ∧
    ∀ kind, ∃ list, findLeaves ops kind e = some list

section Total

variable {ops : Operations} {good : Automaton → Prop}

theorem leaves_of_leaf {kind : Joined} {e : RegExp}
    (builds : ∃ a, toAutomaton ops e = some a) (leaf : IsLeaf ops kind e) :
    ∃ list, findLeaves ops kind e = some list := by
  rcases builds with ⟨a, builds⟩
  rw [leaf, builds]
  exact ⟨[a], rfl⟩

theorem total_of_alone {e : RegExp} (builds : ∃ a, toAutomaton ops e = some a)
    (alone : Alone e) : Total ops e :=
  ⟨builds, fun kind => leaves_of_leaf builds (alone.isLeaf kind)⟩

variable (correct : ops.CorrectOn good)
include correct

/-- The operands of both expressions together are good. -/
theorem good_append {e1 e2 : RegExp} {kind : Joined}
    {list1 list2 : List Automaton}
    (found1 : findLeaves ops kind e1 = some list1)
    (found2 : findLeaves ops kind e2 = some list2) :
    ∀ a ∈ list1 ++ list2, good a :=
  ((sound_leavesSound correct e1).2.append (sound_leavesSound correct e2).2
    found1 found2).1

theorem total_union {e1 e2 : RegExp} (first : Total ops e1)
    (second : Total ops e2) : Total ops (.union e1 e2) := by
  rcases first.2 .union with ⟨list1, found1⟩
  rcases second.2 .union with ⟨list2, found2⟩
  have builds : ∃ a, toAutomaton ops (.union e1 e2) = some a := by
    rw [toAutomaton, found1, found2]
    exact correct.minimize_returns
      (correct.union _ (good_append correct found1 found2))
  refine ⟨builds, ?_⟩
  intro kind
  cases kind with
  | union =>
      rw [findLeaves, found1, found2]
      exact ⟨list1 ++ list2, rfl⟩
  | concatenation => exact leaves_of_leaf builds isLeaf_union

theorem total_concatenation {e1 e2 : RegExp} (first : Total ops e1)
    (second : Total ops e2) : Total ops (.concatenation e1 e2) := by
  rcases first.2 .concatenation with ⟨list1, found1⟩
  rcases second.2 .concatenation with ⟨list2, found2⟩
  have builds : ∃ a, toAutomaton ops (.concatenation e1 e2) = some a := by
    rw [toAutomaton, found1, found2]
    exact correct.minimize_returns
      (correct.concatenate _ (good_append correct found1 found2))
  refine ⟨builds, ?_⟩
  intro kind
  cases kind with
  | union => exact leaves_of_leaf builds isLeaf_concatenation
  | concatenation =>
      rw [findLeaves, found1, found2]
      exact ⟨list1 ++ list2, rfl⟩

theorem total_intersection {e1 e2 : RegExp} (first : Total ops e1)
    (second : Total ops e2) : Total ops (.intersection e1 e2) := by
  rcases first.1 with ⟨a, builds1⟩
  rcases second.1 with ⟨b, builds2⟩
  have common := correct.intersection a b
    ((sound_leavesSound correct e1).1 a builds1).1
    ((sound_leavesSound correct e2).1 b builds2).1
  have builds : ∃ a, toAutomaton ops (.intersection e1 e2) = some a := by
    rw [toAutomaton, builds1, builds2]
    exact correct.minimize_returns common
  exact total_of_alone builds trivial

theorem total_unary {e e1 : RegExp} {operation : Automaton → Automaton}
    (onLanguage : Language JChar → Language JChar)
    (isUnary : toAutomaton ops e =
      (toAutomaton ops e1).bind fun a => ops.minimize (operation a))
    (law : ∀ a, good a → Gives good (operation a) (onLanguage (language a)))
    (alone : Alone e) (total : Total ops e1) : Total ops e := by
  rcases total.1 with ⟨a, builds⟩
  apply total_of_alone _ alone
  rw [isUnary, builds]
  exact correct.minimize_returns
    (law a ((sound_leavesSound correct e1).1 a builds).1)

/-- `toAutomaton` throws on identifiers and intervals only. -/
theorem total_of_plain {e : RegExp} (plain : Plain e) : Total ops e := by
  induction e with
  | union e1 e2 first second =>
      exact total_union correct (first plain.1) (second plain.2)
  | concatenation e1 e2 first second =>
      exact total_concatenation correct (first plain.1) (second plain.2)
  | intersection e1 e2 first second =>
      exact total_intersection correct (first plain.1) (second plain.2)
  | «optional» e1 total =>
      exact total_unary correct (· + 1) (by rw [toAutomaton]; rfl) correct.optional
        trivial (total plain)
  | repetition e1 total =>
      exact total_unary correct (·∗) (by rw [toAutomaton]; rfl) correct.repetition
        trivial (total plain)
  | repeatMin e1 min total =>
      exact total_unary correct (fun L => L ^ min * L∗)
        (by rw [toAutomaton]; rfl) (correct.repeatMin · min) trivial (total plain)
  | repeatMinMax e1 min max total =>
      exact total_unary correct (repetitions · min max)
        (by rw [toAutomaton]; rfl) (correct.repeatMinMax · min max) trivial
        (total plain)
  | complement e1 total =>
      exact total_unary correct (·ᶜ) (by rw [toAutomaton]; rfl) correct.complement
        trivial (total plain)
  | char c =>
      exact total_of_alone ⟨_, by rw [toAutomaton]⟩ trivial
  | charRange low high =>
      exact total_of_alone ⟨_, by rw [toAutomaton]⟩ trivial
  | anyChar =>
      exact total_of_alone ⟨_, by rw [toAutomaton]⟩ trivial
  | empty =>
      exact total_of_alone ⟨_, by rw [toAutomaton]⟩ trivial
  | string s =>
      exact total_of_alone ⟨_, by rw [toAutomaton]⟩ trivial
  | anyString =>
      exact total_of_alone ⟨_, by rw [toAutomaton]⟩ trivial
  | automaton s => exact plain.elim
  | interval min max digits => exact plain.elim

end Total

/-- Every expression without identifiers and intervals has an automaton. -/
theorem exists_automaton_of_plain {ops : Operations} (correct : ops.Correct)
    {e : RegExp} (plain : Plain e) : ∃ a, toAutomaton ops e = some a := by
  rcases correct with ⟨good, correct⟩
  exact (total_of_plain correct plain).1

theorem automatonOf_eq_some {ops : Operations} {s : Word} {a : Automaton} :
    automatonOf ops s = some a ↔
      ∃ e, RegExp.parse s = .ok e ∧ toAutomaton ops e = some a := by
  rw [automatonOf]
  cases RegExp.parse s with
  | ok e => simp
  | error error => simp

/-! ## Reference operations -/

/-- The language has an automaton that satisfies the class invariants. -/
theorem pick_builds {L : Language JChar} (regular : L.IsRegular) :
    Builds (pick [] L) L :=
  pick_spec (exists_automaton regular)

/-- Operations that pick an automaton for the language they should give. -/
noncomputable def referenceOperations : Operations where
  union l := pick [] (l.map language).sum
  concatenate l := pick [] (l.map language).prod
  intersection a b := pick [] (language a ⊓ language b)
  optional a := pick [] (language a + 1)
  repetition a := pick [] ((language a)∗ : Language JChar)
  repeatMin a min := pick [] (language a ^ min * (language a)∗)
  repeatMinMax a min max := pick [] (repetitions (language a) min max)
  complement a := pick [] (language a)ᶜ
  minimize a := some (exists_deterministic (isRegular_lang a)).choose
  reduce a := a
  makeInterval _ _ _ := none

theorem isRegular_language (a : Automaton) : (language a).IsRegular :=
  isRegular_lang a

theorem isRegular_languages {l : List Automaton} {L : Language JChar}
    (member : L ∈ l.map language) : L.IsRegular := by
  rcases List.mem_map.mp member with ⟨a, _, rfl⟩
  exact isRegular_language a

theorem referenceOperations_correctOn :
    referenceOperations.CorrectOn ClassInvariants where
  invariants _ := id
  makeString word := (builds_makeString word).1
  makeCharRange min max := (builds_makeCharRange min max).1
  makeEmpty := builds_makeEmpty.1
  makeAnyString := builds_makeAnyString.1
  union l _ := pick_builds (isRegular_sum fun _ => isRegular_languages)
  concatenate l _ := pick_builds (isRegular_prod fun _ => isRegular_languages)
  intersection a b _ _ :=
    pick_builds ((isRegular_language a).inf (isRegular_language b))
  optional a _ := pick_builds ((isRegular_language a).add isRegular_one)
  repetition a _ := pick_builds (isRegular_kstar (isRegular_language a))
  repeatMin a min _ := pick_builds (isRegular_mul
    (isRegular_pow (isRegular_language a) min) (isRegular_kstar (isRegular_language a)))
  repeatMinMax a min max _ :=
    pick_builds (isRegular_repetitions (isRegular_language a) min max)
  complement a _ := pick_builds (isRegular_language a).compl
  minimize a _ := by
    rcases (exists_deterministic (isRegular_lang a)).choose_spec with
      ⟨invariants, same, deterministic⟩
    exact ⟨_, rfl, ⟨invariants, same⟩, deterministic⟩
  reduce a invariants := ⟨invariants, rfl⟩
  makeInterval _ _ _ _ found := by cases found

theorem referenceOperations_correct : referenceOperations.Correct :=
  ⟨ClassInvariants, referenceOperations_correctOn⟩

end SafetyGames.Teacher
