import SafetyGames.Teacher.CheckIfWinningSet
import SafetyGames.Teacher.LiteralWords

/-!
# Words as regular expressions

`checkIfWinningSet` asks for the successors of the word `u` that it picks with
the automaton of `new RegExp(u)`.  The parser reads `u` as itself if it is
verbatim.  Over an alphabet with a reserved letter it throws, or accepts other
words, on some vertex of some game.
-/

namespace SafetyGames.Teacher

open SafetyGames.Transducer SafetyGames.Game

/-! ## Antecedents -/

/-- The words that `checkIfWinningSet` picks as antecedents of an implication
counter-example. -/
inductive Antecedent (lib : Library)
    (image : TransducerAutomaton → Automaton → Option Automaton)
    (sp : SafetyProblem) (cdfa : Automaton) : Word → Prop where
  | existential (starts : isEmpty (a1 lib sp cdfa) = true)
      (stays : isEmpty (a2 lib sp cdfa) = true) {stuck : Automaton}
      {u : Word} (isStuck : a3c lib image sp cdfa = some stuck)
      (found : isEmpty stuck = false)
      (picked : lib.getShortestExample stuck = some u) :
      Antecedent lib image sp cdfa u
  | universal (starts : isEmpty (a1 lib sp cdfa) = true)
      (stays : isEmpty (a2 lib sp cdfa) = true) {stuck leaving : Automaton}
      {u : Word} (isStuck : a3c lib image sp cdfa = some stuck)
      (moves : isEmpty stuck = true)
      (isLeaving : a4c lib image sp cdfa = some leaving)
      (found : isEmpty leaving = false)
      (picked : lib.getShortestExample leaving = some u) :
      Antecedent lib image sp cdfa u

/-- The parser and `toAutomaton()` in the place of the library's `regExp`. -/
def Library.parsing (lib : Library) (ops : Operations) : Library :=
  { lib with regExp := automatonOf ops }

theorem Library.Correct.parsing {lib : Library} (correct : lib.Correct)
    (ops : Operations) : (lib.parsing ops).Correct where
  minus := correct.minus
  union := correct.union
  intersection := correct.intersection
  minimize := correct.minimize
  getShortestExample := correct.getShortestExample
  equals := correct.equals

/-- The expression is the word, and the consequence describes the successors
of the word and of no other. -/
def TakenLiterally (lib : Library)
    (image : TransducerAutomaton → Automaton → Option Automaton)
    (sp : SafetyProblem) (u : Word) : Prop :=
  ∃ word, lib.regExp u = some word ∧ word.lang = {u} ∧
    (ImageExact image sp.tE word → ∀ a, consequence lib image sp u = some a →
      a.lang = sp.game.successors u)

/-- Every antecedent over the alphabet is taken literally, whatever the game
and the conjecture. -/
def LiteralOver (lib : Library) (alphabet : List JChar) : Prop :=
  ∀ (sp : SafetyProblem) (cdfa : Automaton)
    (orders : TransducerAutomaton → Automaton → HashOrder) (fuel : Nat)
    (u : Word), sp.alphabet = alphabet → ClassInvariants cdfa →
      (∀ c ∈ u, c ∈ alphabet) →
        Antecedent lib (image lib orders fuel) sp cdfa u →
          TakenLiterally lib (image lib orders fuel) sp u

/-! ## Verbatim words -/

section Verbatim

variable {ops : Operations} {u : Word}

theorem toAutomaton_of_text {e : RegExp} {s : Word}
    (isText : e.text = some s) :
    toAutomaton ops e = some (Automaton.makeString s) := by
  cases e with
  | char c =>
      cases isText
      rw [toAutomaton]
  | string s =>
      cases isText
      rw [toAutomaton]
  | _ => cases isText

theorem automatonOf_verbatim (verbatim : Verbatim u) :
    automatonOf ops u = some (Automaton.makeString u) := by
  rcases parse_verbatim verbatim with ⟨e, parsed, isText⟩
  exact automatonOf_eq_some.mpr ⟨e, parsed, toAutomaton_of_text isText⟩

/-- Such a word is taken literally in every game. -/
theorem takenLiterally_verbatim (lib : Library)
    (image : TransducerAutomaton → Automaton → Option Automaton)
    (sp : SafetyProblem) (verbatim : Verbatim u) :
    TakenLiterally (lib.parsing ops) image sp u := by
  refine ⟨Automaton.makeString u, automatonOf_verbatim verbatim,
    Automaton.lang_makeString u, ?_⟩
  intro exact' a isConsequence
  rcases Option.bind_eq_some_iff.mp isConsequence with ⟨word, isWord, isImage⟩
  have same : Automaton.makeString u = word :=
    Option.some.inj ((automatonOf_verbatim verbatim).symm.trans isWord)
  rw [← same] at isImage
  rw [(exact' a isImage).2, Automaton.lang_makeString]
  ext v
  simp [TransducerAutomaton.mem_relImage, SafetyGame.successors,
    SafetyProblem.game]

end Verbatim

/-! ## Other words -/

section Misread

variable {ops : Operations} {c : JChar}

/-- The automaton of the expression, if there is one, does not accept the word
and no other. -/
def Misread (ops : Operations) (u : Word) : Prop :=
  ∀ word, automatonOf ops u = some word → word.lang ≠ {u}

theorem misread_of_error {u : Word} {error : ParseError}
    (throws : RegExp.parse u = .error error) : Misread ops u := by
  intro word isWord
  rw [automatonOf, throws] at isWord
  cases isWord

theorem misread_of_elementary (correct : ops.Correct) {u : Word}
    (elementary : Elementary u) (notVerbatim : ¬ Verbatim u) : Misread ops u := by
  intro word isWord same
  rcases automatonOf_eq_some.mp isWord with ⟨e, parsed, builds⟩
  apply meaning_ne_singleton elementary notVerbatim parsed
  exact (toAutomaton_builds correct builds).2.symm.trans same

/-- A reserved character twice is never read as itself. -/
theorem misread_reserved (correct : ops.Correct) (isReserved : c ∈ reserved) :
    Misread ops [c, c] := by
  by_cases complement : c = 126
  · rw [complement]
    exact misread_of_error rfl
  by_cases intersection : c = 38
  · rw [intersection]
    exact misread_of_error rfl
  have elementary : Elementary [c, c] := by
    constructor
    · simp [Ne.symm complement]
    · simp [Ne.symm intersection]
    · right
      have checked : reserved.all fun c => !isDigit c := by decide
      have noDigit : ∀ c ∈ reserved, isDigit c = false := fun c member =>
        Bool.not_eq_true' _ ▸ List.all_eq_true.mp checked c member
      intro d member
      rcases List.mem_pair.mp member with rfl | rfl
      · exact noDigit d isReserved
      · exact noDigit d isReserved
  exact misread_of_elementary correct elementary fun verbatim =>
    verbatim.2 c (List.mem_singleton_self c) isReserved

end Misread

/-! ## A game on one word -/

theorem closed_new : TransducerHeap.Closed [TransducerState.new] := by
  decide

/-- The empty relation. -/
def emptyRelation : TransducerAutomaton where
  states := [TransducerState.new]
  initial := 0
  initial_lt := Nat.one_pos
  closed := closed_new

/-- Its inverse, as `invert` builds it. -/
def emptyInverse : TransducerAutomaton where
  states := [TransducerState.new, TransducerState.new]
  initial := 1
  initial_lt := by decide
  closed := by decide

theorem invert_emptyRelation : emptyRelation.invert = some emptyInverse := rfl

theorem emptyInverse_no_move {a : Automaton} (move : Move) :
    ¬ IsMove a emptyInverse (a.initial, emptyInverse.initial) move := by
  rintro (⟨_, _, _, inT, _⟩ | ⟨_, inT, _⟩)
  · exact List.not_mem_nil inT
  · exact List.not_mem_nil inT

theorem emptyInverse_safe {order : HashOrder} {a : Automaton}
    (single : a.SingleChars) : ImageSafe order emptyInverse a :=
  imageSafe_of_no_move emptyInverse_no_move (by decide) single

/-- The word is the only vertex, safe, of player 0 and without a successor. -/
def stuckGame (alphabet : List JChar) (u : Word) : SafetyProblem where
  alphabet := alphabet
  aV0 := Automaton.makeString u
  aV1 := Automaton.makeEmpty
  aI := Automaton.makeEmpty
  aF := Automaton.makeString u
  tE := emptyRelation
  aV0_invariants := makeString_invariants u
  aV1_invariants := makeEmpty_invariants
  aI_invariants := makeEmpty_invariants
  aF_invariants := makeString_invariants u

theorem not_emptyRelation_rel {u v : Word} : ¬ emptyRelation.Rel u v := by
  rintro ⟨pairs, target, path, accept, _⟩
  cases path with
  | nil => exact Bool.false_ne_true accept
  | cons head _ => exact List.not_mem_nil head

/-- The word is picked when it is the conjecture. -/
theorem antecedent_stuckGame {lib : Library} (correct : lib.Correct)
    (answers : lib.Answers)
    (orders : TransducerAutomaton → Automaton → HashOrder)
    (alphabet : List JChar) (u : Word) :
    Antecedent lib (image lib orders 1) (stuckGame alphabet u)
      (Automaton.makeString u) u := by
  have invariants := makeString_invariants u
  have starts : isEmpty (a1 lib (stuckGame alphabet u)
      (Automaton.makeString u)) = true := by
    apply (a1_isEmpty_iff correct invariants).mpr
    rw [stuckGame, Automaton.lang_makeEmpty]
    exact Set.empty_subset _
  have stays : isEmpty (a2 lib (stuckGame alphabet u)
      (Automaton.makeString u)) = true :=
    (a2_isEmpty_iff correct invariants).mpr fun _ => id
  rcases image_of_no_move lib orders
    (@emptyInverse_no_move (Automaton.makeString u)) with ⟨built, none, isImage⟩
  rcases answers.minimize built none with ⟨before, isMinimal⟩
  have isStuck : a3c lib (image lib orders 1) (stuckGame alphabet u)
      (Automaton.makeString u) = some _ :=
    a3c_of_image lib invert_emptyRelation (isImage.trans isMinimal)
  have exact' : ∀ inverse, (stuckGame alphabet u).tE.invert = some inverse →
      ImageExact (image lib orders 1) inverse (Automaton.makeString u) := by
    intro inverse inverts
    cases invert_emptyRelation.symm.trans inverts
    exact imageExact_of_safe correct
      (emptyInverse_safe (Automaton.singleChars_makeString u))
  rcases a3c_spec correct invariants.honest exact' isStuck with ⟨honest, same⟩
  have only : (stuckGame alphabet u).stuck (Automaton.makeString u).lang = {u} := by
    ext v
    rw [SafetyProblem.stuck, Set.mem_ofPred_eq, stuckGame,
      Automaton.lang_makeString]
    constructor
    · exact fun member => member.1
    · intro isWord
      exact ⟨isWord, isWord, fun _ _ => not_emptyRelation_rel⟩
  rw [only] at same
  have nonempty : (lib.intersection (Automaton.makeString u)
      (lib.minus (stuckGame alphabet u).aV0 before)).lang.Nonempty :=
    ⟨u, same ▸ rfl⟩
  have found : isEmpty (lib.intersection (Automaton.makeString u)
      (lib.minus (stuckGame alphabet u).aV0 before)) = false := by
    rw [← Bool.not_eq_true]
    intro empty
    rw [lang_of_isEmpty empty] at nonempty
    exact Set.not_nonempty_empty nonempty
  rcases answers.getShortestExample _ honest nonempty with ⟨word, picked⟩
  have member := correct.getShortestExample _ word honest picked
  rw [same] at member
  cases Set.mem_singleton_iff.mp member
  exact Antecedent.existential starts stays isStuck found picked

/-! ## Exactly the verbatim words -/

/--
A word that is picked is taken literally if it is verbatim, and one without
complements, intersections and bounds only then.  Over an alphabet every picked
word is taken literally exactly when no letter is a reserved character.
-/
theorem takenLiterally_iff {lib : Library} {ops : Operations}
    (correct : lib.Correct) (correct' : ops.Correct) :
    (∀ (sp : SafetyProblem) (cdfa : Automaton)
      (orders : TransducerAutomaton → Automaton → HashOrder) (fuel : Nat)
      (u : Word), Antecedent (lib.parsing ops)
          (image (lib.parsing ops) orders fuel) sp cdfa u →
        (Verbatim u → TakenLiterally (lib.parsing ops)
          (image (lib.parsing ops) orders fuel) sp u) ∧
        (Elementary u → (TakenLiterally (lib.parsing ops)
          (image (lib.parsing ops) orders fuel) sp u ↔ Verbatim u))) ∧
      ((lib.parsing ops).Answers → ∀ alphabet : List JChar,
        LiteralOver (lib.parsing ops) alphabet ↔ ∀ c ∈ alphabet, c ∉ reserved) := by
  constructor
  · intro sp cdfa orders fuel u _
    have enough : Verbatim u → TakenLiterally (lib.parsing ops)
        (image (lib.parsing ops) orders fuel) sp u :=
      takenLiterally_verbatim lib _ sp
    refine ⟨enough, fun elementary => ⟨?_, enough⟩⟩
    rintro ⟨word, isWord, same, _⟩
    by_contra notVerbatim
    exact misread_of_elementary correct' elementary notVerbatim word isWord same
  · intro answers alphabet
    constructor
    · intro literal c member isReserved
      have letters : ∀ d ∈ [c, c], d ∈ alphabet := by
        intro d inWord
        rcases List.mem_pair.mp inWord with rfl | rfl
        · exact member
        · exact member
      rcases literal (stuckGame alphabet [c, c]) (Automaton.makeString [c, c])
        (fun _ _ => .insertion) 1 [c, c] rfl (makeString_invariants [c, c])
        letters (antecedent_stuckGame (correct.parsing ops) answers _ alphabet
          [c, c]) with ⟨word, isWord, same, _⟩
      exact misread_reserved correct' isReserved word isWord same
    · intro free sp cdfa orders fuel u _ _ letters _
      apply takenLiterally_verbatim lib
      apply verbatim_of_free
      intro c member
      exact free c (letters c member)

theorem reference_answers :
    ((reference []).parsing referenceOperations).Answers where
  getShortestExample _ _ nonempty := ⟨_, @reference_getShortestExample [] _ nonempty⟩
  minimize _ _ := ⟨_, rfl⟩

/--
Over the letters `e`, `s` and `|` the vertex `s` and even `|s` are taken
literally when they are picked, but `s|` is not.
-/
theorem takenLiterally_iff_bar :
    let lib := (reference []).parsing referenceOperations
    (∀ u : Word, u = [115] ∨ u = [124, 115] →
      Antecedent lib (image lib (fun _ _ => .insertion) 1)
          (stuckGame [101, 115, 124] u) (Automaton.makeString u) u ∧
        TakenLiterally lib (image lib (fun _ _ => .insertion) 1)
          (stuckGame [101, 115, 124] u) u) ∧
      Antecedent lib (image lib (fun _ _ => .insertion) 1)
          (stuckGame [101, 115, 124] [115, 124]) (Automaton.makeString [115, 124])
          [115, 124] ∧
        ¬ TakenLiterally lib (image lib (fun _ _ => .insertion) 1)
          (stuckGame [101, 115, 124] [115, 124]) [115, 124] := by
  intro lib
  rcases takenLiterally_iff (reference_correct []) referenceOperations_correct with
    ⟨decides, _⟩
  have picked := antecedent_stuckGame
    ((reference_correct []).parsing referenceOperations) reference_answers
    (fun _ _ => .insertion) [101, 115, 124]
  have elementary : Elementary [115, 124] :=
    ⟨by decide, by decide, Or.inl (by decide)⟩
  refine ⟨?_, picked [115, 124], fun literal => ?_⟩
  · rintro u (rfl | rfl)
    · exact ⟨picked _, (decides _ _ _ _ _ (picked _)).1 ⟨by decide, by simp⟩⟩
    · exact ⟨picked _, (decides _ _ _ _ _ (picked _)).1
        ⟨by decide, List.forall_mem_singleton.mpr (by decide)⟩⟩
  · have verbatim := ((decides _ _ _ _ _ (picked _)).2 elementary).mp literal
    exact verbatim.2 124 (List.mem_singleton_self _) (by decide)

/--
Over the letters `e`, `s` and `|` the vertex `s|` is picked, and `s|` is no
regular expression.
-/
theorem antecedent_throws :
    let lib := (reference []).parsing referenceOperations
    Antecedent lib (image lib (fun _ _ => .insertion) 1)
        (stuckGame [101, 115, 124] [115, 124]) (Automaton.makeString [115, 124])
        [115, 124] ∧
      lib.regExp [115, 124] = none ∧ ¬ LiteralOver lib [101, 115, 124] := by
  intro lib
  have antecedent := antecedent_stuckGame
    ((reference_correct []).parsing referenceOperations) reference_answers
    (fun _ _ => .insertion) [101, 115, 124] [115, 124]
  have throws : lib.regExp [115, 124] = none := rfl
  refine ⟨antecedent, throws, ?_⟩
  intro literal
  rcases literal _ _ _ _ _ rfl (makeString_invariants _) (by simp)
    antecedent with ⟨word, isWord, _⟩
  cases throws.symm.trans isWord

end SafetyGames.Teacher
