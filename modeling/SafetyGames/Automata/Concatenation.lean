import SafetyGames.Automata.Attach
import SafetyGames.Automata.Live
import SafetyGames.Teacher.RegExpAutomaton

/-!
# Concatenations

`concatenate` for two automata and for a list of them.  The accepting states
of an operand get epsilon transitions to the initial state of the next clone;
over a list the set `ac` follows the states that accept so far, for what is
behind an automaton that accepts the empty word is behind its predecessors,
too.
-/

namespace SafetyGames.Automata

open SafetyGames.Transducer SafetyGames.LabelledPath SafetyGames.Regular
open SafetyGames.Teacher
open Computability

/-! ## Attaching an automaton -/

/-- `addEpsilon(next)`, before which the state may stop accepting. -/
def attachState (keep : Bool) (next state : State) : State :=
  addEpsilon { state with accept := keep && state.accept } next

theorem attachState_takes {keep : Bool} {next state : State} {c : JChar}
    {target : Nat} :
    (∃ t ∈ (attachState keep next state).transitions,
        t.Reads c ∧ t.dest = target) ↔
      (∃ t ∈ state.transitions, t.Reads c ∧ t.dest = target) ∨
        ∃ t ∈ next.transitions, t.Reads c ∧ t.dest = target := by
  simp only [attachState, mem_addEpsilon, or_and_right, exists_or]
  exact or_comm

/-- The loop over states that get epsilon transitions to the clone of an automaton. -/
def attach (keep : Bool) (left : Heap) (refs : List Nat) (right : Automaton) :
    Heap :=
  let both := beside left right.states
  update both refs
    (attachState keep (both.state (left.length + right.initial)))

@[simp]
theorem length_attach (keep : Bool) (left : Heap) (refs : List Nat)
    (right : Automaton) :
    (attach keep left refs right).length =
      left.length + right.states.length := by
  rw [attach, length_update, length_beside]

/-- A step from the initial state of the clone. -/
def entersClone (left : Heap) (right : Automaton) (c : JChar) (target : Nat) :
    Prop :=
  ∃ next, right.states.Step right.initial c next ∧ left.length + next = target

/-- What may follow: a word of the automaton, or nothing. -/
def furtherWords (keep : Bool) (right : Automaton) : Language JChar :=
  if keep then language right + 1 else language right

theorem nil_mem_furtherWords {keep : Bool} {right : Automaton} :
    [] ∈ furtherWords keep right ↔
      (right.state right.initial).accept = true ∨ keep = true := by
  have first : [] ∈ language right ↔ _ := nil_mem_languageFrom
  cases keep with
  | false => rw [furtherWords, if_neg Bool.false_ne_true, first,
      or_iff_left Bool.false_ne_true]
  | true =>
      rw [furtherWords, if_pos rfl, Language.mem_add]
      exact iff_of_true (Or.inr Language.nil_mem_one) (Or.inr rfl)

theorem cons_mem_furtherWords {keep : Bool} {right : Automaton} {c : JChar}
    {word : Word} :
    c :: word ∈ furtherWords keep right ↔ ∃ next,
      right.states.Step right.initial c next ∧
        right.states.Accepts next word := by
  have first : c :: word ∈ language right ↔ _ :=
    mem_languageFrom.trans Heap.accepts_cons
  cases keep with
  | false => exact first
  | true =>
      rw [furtherWords, if_pos rfl, Language.mem_add, Language.mem_one]
      exact ⟨fun member => first.mp (member.resolve_right (List.cons_ne_nil _ _)),
        fun taken => Or.inl (first.mpr taken)⟩

section Attach

variable {keep : Bool} {left : Heap} {refs : List Nat} {right : Automaton}
  (bound : ∀ ref ∈ refs, ref < left.length)
include bound

theorem attach_state_of_mem {ref : Nat} (member : ref ∈ refs) :
    (attach keep left refs right).state ref =
      attachState keep
        (shiftState left.length (right.state right.initial))
        (left.state ref) := by
  have inside : ∀ ref ∈ refs, ref < (beside left right.states).length := by
    intro ref member
    rw [length_beside]
    exact Nat.lt_add_right _ (bound ref member)
  rw [attach, update_state_of_mem inside member, beside_state_right,
    beside_state_left (bound ref member)]

theorem shifted_attach :
    Shifted left.length right.states (attach keep left refs right) := by
  intro ref
  have outside : left.length + ref ∉ refs := fun member =>
    absurd (bound _ member) (by omega)
  rw [attach, update_state_of_notMem outside]
  exact beside_state_right ref

omit bound in
theorem attach_state_of_notMem {ref : Nat} (inside : ref < left.length)
    (notMember : ref ∉ refs) :
    (attach keep left refs right).state ref = left.state ref := by
  rw [attach, update_state_of_notMem notMember, beside_state_left inside]

omit bound in
theorem closed_attach (leftClosed : left.Closed) :
    (attach keep left refs right).Closed := by
  have closed := closed_beside leftClosed right.closed
  intro state member t inState
  rw [attach, length_update]
  rcases mem_update member with ⟨old, inBoth, rfl | rfl⟩
  · rcases mem_addEpsilon.mp inState with inNext | inOld
    · have inside : left.length + right.initial <
          (beside left right.states).length := by
        rw [length_beside]
        exact Nat.add_lt_add_left right.initial_lt _
      exact closed _ (Heap.state_mem inside) t inNext
    · exact closed old inBoth t inOld
  · exact closed _ inBoth t inState

/-- The states that are attached accept in front of the further words. -/
theorem attach_followed {inside : Nat → Prop}
    (inLeft : ∀ ref, inside ref → ref < left.length)
    (keeps : ∀ source, inside source → ∀ c target,
      left.Step source c target → inside target)
    (accepting : ∀ ref, inside ref →
      (ref ∈ refs ↔ (left.state ref).accept = true)) :
    Followed inside left (attach keep left refs right)
      (entersClone left right) (furtherWords keep right) where
  keeps := keeps
  steps := by
    intro source known c target
    by_cases member : source ∈ refs
    · have accepts := (accepting source known).mp member
      rw [Heap.Step, attach_state_of_mem bound member, attachState_takes]
      refine or_congr Iff.rfl ?_
      rw [and_iff_right accepts]
      constructor
      · rintro ⟨_, inClone, reads, rfl⟩
        rcases List.mem_map.mp inClone with ⟨t, inState, rfl⟩
        exact ⟨t.dest, ⟨t, inState, reads, rfl⟩, rfl⟩
      · rintro ⟨_, ⟨t, inState, reads, rfl⟩, rfl⟩
        exact ⟨_, List.mem_map_of_mem inState, reads, rfl⟩
    · have rejects := mt (accepting source known).mpr member
      rw [Heap.Step, attach_state_of_notMem (inLeft source known) member]
      simp only [rejects, false_and, or_false, Bool.false_eq_true]
      exact Iff.rfl
  accept := by
    intro source known
    rw [nil_mem_furtherWords]
    by_cases member : source ∈ refs
    · rw [attach_state_of_mem bound member, attachState, addEpsilon_accept,
        (accepting source known).mp member]
      simp [shiftState]
    · have rejects := mt (accepting source known).mpr member
      rw [attach_state_of_notMem (inLeft source known) member]
      simp [rejects]
  begins := by
    intro c word _
    rw [cons_mem_furtherWords]
    constructor
    · rintro ⟨next, taken, accepts⟩
      exact ⟨_, ⟨next, taken, rfl⟩,
        ((shifted_attach bound).accepts_iff next word).mpr accepts⟩
    · rintro ⟨_, ⟨next, taken, rfl⟩, accepts⟩
      exact ⟨next, taken,
        ((shifted_attach bound).accepts_iff next word).mp accepts⟩

end Attach

/-! ## Automata with attached clones -/

/-- The references are those of the reachable accepting states. -/
structure AcceptsAt (b : Automaton) (refs : List Nat) : Prop where
  bound : ∀ ref ∈ refs, ref < b.states.length
  accepting : ∀ ref, b.Reachable ref →
    (ref ∈ refs ↔ (b.state ref).accept = true)

theorem acceptsAt_getAcceptStates (b : Automaton) :
    AcceptsAt b b.getAcceptStates where
  bound := fun _ member => (Automaton.mem_getAcceptStates.mp member).1.lt
  accepting := fun _ reachable => Automaton.mem_getAcceptStates.trans
    (and_iff_right reachable)

/-- No transition of a reachable state leads to a dead state. -/
def Live (a : Automaton) : Prop :=
  ∀ ref, a.Reachable ref → ∀ transition ∈ (a.state ref).transitions,
    ∃ word, a.states.Accepts transition.dest word

/-- The automaton `b` whose states go on in a clone of `a`. -/
def attachTo (keep : Bool) (b : Automaton) (refs : List Nat) (a : Automaton) :
    Automaton where
  states := attach keep b.states refs a
  initial := b.initial
  deterministic := false
  initial_lt := by
    rw [length_attach]
    exact Nat.lt_add_right _ b.initial_lt
  closed := closed_attach b.closed

section AttachTo

variable {keep : Bool} {a b : Automaton} {refs : List Nat}
  (known : AcceptsAt b refs)
include known

theorem attachTo_followed :
    Followed b.Reachable b.states (attachTo keep b refs a).states
      (entersClone b.states a) (furtherWords keep a) :=
  attach_followed known.bound (fun _ reachable => reachable.lt)
    (fun _ reachable _ _ taken => reachable.step taken) known.accepting

theorem attachTo_lang :
    language (attachTo keep b refs a) = language b * furtherWords keep a := by
  ext word
  exact (attachTo_followed known).accepts_iff Automaton.Reachable.initial word

theorem attachTo_shifted :
    Shifted b.states.length a.states (attachTo keep b refs a).states :=
  shifted_attach known.bound

theorem attachTo_reachable {ref : Nat}
    (reachable : (attachTo keep b refs a).Reachable ref) :
    b.Reachable ref ∨
      ∃ next, a.Reachable next ∧ b.states.length + next = ref := by
  have stays : ∀ source c target,
      (b.Reachable source ∨
        ∃ next, a.Reachable next ∧ b.states.length + next = source) →
      (attachTo keep b refs a).states.Step source c target →
      (b.Reachable target ∨
        ∃ next, a.Reachable next ∧ b.states.length + next = target) := by
    rintro source c target (inLeft | ⟨next, inRight, rfl⟩) taken
    · rcases (attachTo_followed known).step_cases inLeft taken with
        inside | ⟨next, enters, same⟩
      · exact Or.inl inside
      · exact Or.inr ⟨next, Automaton.Reachable.initial.step enters, same⟩
    · rcases (attachTo_shifted known).step_iff.mp taken with ⟨after, step, same⟩
      exact Or.inr ⟨after, inRight.step step, same⟩
  rcases reachable with ⟨word, path⟩
  exact path.invariant stays (Or.inl Automaton.Reachable.initial)

theorem attachTo_live (leftLive : Live b) (rightLive : Live a)
    (nonempty : ∃ word, word ∈ furtherWords keep a) :
    Live (attachTo keep b refs a) := by
  have followed := @attachTo_followed keep a b _ known
  have shifted := @attachTo_shifted keep a b _ known
  have clone : ∀ source, a.Reachable source → ∀ c target,
      a.states.Step source c target → ∃ word,
        (attachTo keep b refs a).states.Accepts (b.states.length + target) word := by
    rintro source reachable c _ ⟨t, inState, _, rfl⟩
    rcases rightLive source reachable t inState with ⟨word, accepts⟩
    exact ⟨word, (shifted.accepts_iff _ word).mpr accepts⟩
  intro ref reachable transition inState
  have taken : (attachTo keep b refs a).states.Step ref transition.min
      transition.dest := ⟨transition, inState, transition.reads_min, rfl⟩
  rcases attachTo_reachable known reachable with inLeft | ⟨next, inRight, rfl⟩
  · rcases (followed.steps ref inLeft _ _).mp taken with
      ⟨t, inOld, _, same⟩ | ⟨_, next, enters, same⟩
    · rcases leftLive ref inLeft t inOld with ⟨first, accepts⟩
      rcases nonempty with ⟨further, inFurther⟩
      have inside : b.Reachable t.dest :=
        inLeft.step ⟨t, inOld, t.reads_min, rfl⟩
      refine ⟨first ++ further, ?_⟩
      rw [← same]
      exact (followed.accepts_iff inside _).mpr
        (Language.append_mem_mul accepts inFurther)
    · rw [← same]
      exact clone a.initial Automaton.Reachable.initial _ next enters
  · rcases shifted.step_iff.mp taken with ⟨after, step, same⟩
    rw [← same]
    exact clone next inRight _ after step

/-- Behind states without steps nothing is chosen. -/
theorem attachTo_deterministicFrom
    (leftDeterministic : b.states.DeterministicFrom b.initial)
    (rightDeterministic : a.states.DeterministicFrom a.initial)
    (final : ∀ ref, (b.state ref).accept = true → ∀ c target,
      ¬ b.states.Step ref c target) :
    (attachTo keep b refs a).states.DeterministicFrom b.initial := by
  intro word source path c left right first second
  have followed := @attachTo_followed keep a b _ known
  rcases attachTo_reachable known ⟨word, path⟩ with inLeft | ⟨next, inRight, rfl⟩
  · rcases (followed.steps source inLeft c left).mp first with
      inFirst | ⟨accept, next, enters, rfl⟩
    · rcases (followed.steps source inLeft c right).mp second with
        inSecond | ⟨accept, _⟩
      · rcases inLeft with ⟨before, toSource⟩
        exact leftDeterministic before source toSource c left right inFirst
          inSecond
      · exact absurd inFirst (final source accept c left)
    · rcases (followed.steps source inLeft c right).mp second with
        inSecond | ⟨_, other, enters', rfl⟩
      · exact absurd inSecond (final source accept c right)
      · rw [rightDeterministic [] a.initial (Path.nil _) c next other enters
          enters']
  · have shifted := @attachTo_shifted keep a b _ known
    rcases shifted.step_iff.mp first with ⟨left, inFirst, rfl⟩
    rcases shifted.step_iff.mp second with ⟨right, inSecond, rfl⟩
    rcases inRight with ⟨before, toSource⟩
    rw [rightDeterministic before next toSource c left right inFirst inSecond]

end AttachTo

/-! ## Two automata -/

/-- `isEmptyString(a)`: the initial state accepts and has no transitions. -/
def isEmptyString (a : Automaton) : Bool :=
  (a.state a.initial).accept && (a.state a.initial).transitions.isEmpty

theorem notMem_of_no_transitions {a : Automaton}
    (none : (a.state a.initial).transitions.isEmpty = true) (c : JChar)
    (word : Word) : c :: word ∉ language a := by
  intro member
  rcases Heap.accepts_cons.mp member with ⟨_, ⟨t, inState, _⟩, _⟩
  rw [List.isEmpty_iff.mp none] at inState
  exact List.not_mem_nil inState

theorem lang_of_isEmptyString {a : Automaton} (single : isEmptyString a = true) :
    language a = 1 := by
  rw [isEmptyString, Bool.and_eq_true] at single
  ext word
  cases word with
  | nil => exact iff_of_true (Heap.accepts_nil.mpr single.1) Language.nil_mem_one
  | cons c word =>
      exact iff_of_false (notMem_of_no_transitions single.2 c word)
        (List.cons_ne_nil c word)

theorem lang_of_isEmpty {a : Automaton} (empty : isEmpty a = true) :
    language a = 0 := by
  rw [isEmpty, Bool.and_eq_true, Bool.not_eq_true'] at empty
  ext word
  refine iff_of_false (fun member => ?_) (Language.notMem_zero word)
  cases word with
  | nil =>
      exact Bool.false_ne_true (empty.1.symm.trans (Heap.accepts_nil.mp member))
  | cons c word => exact notMem_of_no_transitions empty.2 c word member

/-- An automaton that is not empty accepts a word. -/
theorem exists_mem_of_isEmpty {a : Automaton} (invariants : ClassInvariants a)
    (nonempty : isEmpty a = false) : ∃ word, word ∈ language a := by
  refine Set.nonempty_iff_ne_empty.mpr fun empty => ?_
  rw [invariants.isEmpty_iff.mpr empty] at nonempty
  exact Bool.false_ne_true nonempty.symm

/-- `concatenate(a1, a2)` but for two singletons; the flag tells whether `a1`
is a singleton and `a2` deterministic. -/
def concatenate (deterministic : Bool) (a1 a2 : Automaton) : Automaton :=
  if isEmpty a1 || isEmpty a2 then Automaton.makeEmpty
  else
    { attachTo false a1 a1.getAcceptStates a2 with
      deterministic := deterministic }

/-- The end of a chain has no transitions. -/
theorem not_step_of_accept {word : Word} {ref : Nat}
    (accept : ((Automaton.makeString word).state ref).accept = true) (c : JChar)
    (target : Nat) : ¬ (Automaton.makeString word).states.Step ref c target := by
  intro taken
  rcases chainStates_step_iff.mp taken with ⟨letter, _⟩
  have inside := (List.getElem?_eq_some_iff.mp letter).1
  change ((chainStates word).state ref).accept = true at accept
  rw [chainStates_state_lt inside] at accept
  exact Bool.false_ne_true accept

theorem builds_concatenate {deterministic : Bool} {a1 a2 : Automaton}
    (invariants1 : ClassInvariants a1) (invariants2 : ClassInvariants a2)
    (flag : deterministic = true →
      (∃ word, a1 = Automaton.makeString word) ∧ a2.deterministic = true) :
    Builds (concatenate deterministic a1 a2) (language a1 * language a2) := by
  have known := acceptsAt_getAcceptStates a1
  rw [concatenate]
  by_cases empty : (isEmpty a1 || isEmpty a2) = true
  · rw [if_pos empty]
    refine ⟨makeEmpty_invariants, Automaton.lang_makeEmpty.trans ?_⟩
    rcases Bool.or_eq_true_iff.mp empty with first | second
    · rw [lang_of_isEmpty first, zero_mul]
      rfl
    · rw [lang_of_isEmpty second, mul_zero]
      rfl
  · rw [if_neg empty]
    rw [Bool.not_eq_true, Bool.or_eq_false_iff] at empty
    refine ⟨⟨fun isSet => ?_, ?_⟩, attachTo_lang known⟩
    · rcases flag isSet with ⟨⟨word, rfl⟩, second⟩
      exact attachTo_deterministicFrom known ((makeString_invariants word).honest rfl)
        (invariants2.honest second) fun _ => not_step_of_accept
    · exact @attachTo_live false _ _ _ known invariants1.live invariants2.live
        (exists_mem_of_isEmpty invariants2 empty.2)

/-! ## Lists of automata -/

/-- The loop body: `joined` are the automaton so far and the set `ac`. -/
def concatenateNext (joined : Automaton × List Nat) (a : Automaton) :
    Automaton × List Nat :=
  if isEmptyString a then joined
  else
    let b := attachTo false joined.1 joined.2 a
    let ns := a.getAcceptStates.map fun ref => joined.1.states.length + ref
    (b, ns ++ joined.2.filter fun ref => (b.state ref).accept)

/-- `concatenate(l)` but for a list of singletons only. -/
def concatenateAll : List Automaton → Automaton
  | [] => Automaton.makeString []
  | first :: rest =>
      if (first :: rest).any isEmpty then Automaton.makeEmpty
      else
        { (rest.foldl concatenateNext (first, first.getAcceptStates)).1 with
          deterministic := false }

/-- The automaton so far accepts the language, at the states `ac`. -/
structure Concatenated (joined : Automaton × List Nat) (L : Language JChar) :
    Prop where
  acceptsAt : AcceptsAt joined.1 joined.2
  lang_eq : language joined.1 = L
  live : Live joined.1

/-- The set `ac` is that of the accepting states again. -/
theorem acceptsAt_attachTo {a b : Automaton} {refs : List Nat}
    (known : AcceptsAt b refs) :
    AcceptsAt (attachTo false b refs a)
      ((a.getAcceptStates.map fun ref => b.states.length + ref) ++
        refs.filter fun ref => ((attachTo false b refs a).state ref).accept) where
  bound := by
    intro ref member
    change ref < (attach false b.states refs a).length
    rw [length_attach]
    rcases List.mem_append.mp member with inClone | inLeft
    · rcases List.mem_map.mp inClone with ⟨next, accepting, rfl⟩
      have inside := (Automaton.mem_getAcceptStates.mp accepting).1.lt
      exact Nat.add_lt_add_left inside _
    · exact Nat.lt_add_right _ (known.bound ref (List.mem_of_mem_filter inLeft))
  accepting := by
    intro ref reachable
    rw [List.mem_append, List.mem_map, List.mem_filter]
    rcases attachTo_reachable known reachable with inLeft | ⟨next, inRight, rfl⟩
    · have accept := (@attachTo_followed false a b _ known).accept
        ref inLeft
      constructor
      · rintro (⟨next, _, same⟩ | ⟨_, accepts⟩)
        · have inside := inLeft.lt
          omega
        · exact accepts
      · exact fun accepts => Or.inr
          ⟨(known.accepting ref inLeft).mpr (accept.mp accepts).1, accepts⟩
    · rw [Automaton.state, @attachTo_shifted false a b _ known next]
      constructor
      · rintro (⟨other, accepting, same⟩ | ⟨member, _⟩)
        · rw [Nat.add_left_cancel same] at accepting
          exact (Automaton.mem_getAcceptStates.mp accepting).2
        · exact absurd (known.bound _ member) (by omega)
      · exact fun accepts => Or.inl
          ⟨next, Automaton.mem_getAcceptStates.mpr ⟨inRight, accepts⟩, rfl⟩

theorem Concatenated.next {joined : Automaton × List Nat} {L : Language JChar}
    (concatenated : Concatenated joined L) {a : Automaton}
    (invariants : ClassInvariants a) (nonempty : isEmpty a = false) :
    Concatenated (concatenateNext joined a) (L * language a) := by
  rw [concatenateNext]
  by_cases skipped : isEmptyString a = true
  · rw [if_pos skipped, lang_of_isEmptyString skipped, mul_one]
    exact concatenated
  · rw [if_neg skipped]
    exact {
      acceptsAt := acceptsAt_attachTo concatenated.acceptsAt
      lang_eq := by
        rw [attachTo_lang concatenated.acceptsAt, concatenated.lang_eq]
        rfl
      live := @attachTo_live false _ _ _ concatenated.acceptsAt
        concatenated.live invariants.live
        (exists_mem_of_isEmpty invariants nonempty) }

theorem Concatenated.foldl {rest : List Automaton}
    (invariants : ∀ a ∈ rest, ClassInvariants a)
    (nonempty : ∀ a ∈ rest, isEmpty a = false) {joined : Automaton × List Nat}
    {L : Language JChar} (concatenated : Concatenated joined L) :
    Concatenated (rest.foldl concatenateNext joined)
      (L * (rest.map language).prod) := by
  induction rest generalizing joined L with
  | nil =>
      rw [List.map_nil, List.prod_nil, mul_one]
      exact concatenated
  | cons a rest induction =>
      rw [List.map_cons, List.prod_cons, ← mul_assoc]
      apply induction
      · exact fun other member => invariants other (List.mem_cons_of_mem a member)
      · exact fun other member => nonempty other (List.mem_cons_of_mem a member)
      · exact concatenated.next (invariants a List.mem_cons_self)
          (nonempty a List.mem_cons_self)

theorem builds_concatenateAll {l : List Automaton}
    (invariants : ∀ a ∈ l, ClassInvariants a) :
    Builds (concatenateAll l) (l.map language).prod := by
  cases l with
  | nil => exact builds_makeString []
  | cons first rest =>
      rw [concatenateAll]
      by_cases empty : (first :: rest).any isEmpty = true
      · rw [if_pos empty]
        rcases List.any_eq_true.mp empty with ⟨a, member, isEmpty⟩
        refine ⟨makeEmpty_invariants, Automaton.lang_makeEmpty.trans ?_⟩
        have zero : (0 : Language JChar) ∈ (first :: rest).map language :=
          lang_of_isEmpty isEmpty ▸ List.mem_map_of_mem member
        rw [List.prod_eq_zero zero]
        rfl
      · rw [if_neg empty]
        have nonempty : ∀ a ∈ first :: rest, isEmpty a = false := by
          simpa using empty
        have start : Concatenated (first, first.getAcceptStates) (language first) :=
          ⟨acceptsAt_getAcceptStates first, rfl,
            (invariants first List.mem_cons_self).live⟩
        have whole := start.foldl
          (fun a member => invariants a (List.mem_cons_of_mem first member))
          (fun a member => nonempty a (List.mem_cons_of_mem first member))
        exact ⟨⟨fun isSet => absurd isSet Bool.false_ne_true, whole.live⟩,
          whole.lang_eq⟩

/--
The list operation agrees with one concatenation after the other.
-/
theorem concatenateAll_agrees {l : List Automaton}
    (invariants : ∀ a ∈ l, ClassInvariants a) :
    ClassInvariants (concatenateAll l) ∧
      (concatenateAll l).lang =
        (l.foldr (concatenate false) (Automaton.makeString [])).lang := by
  have plain : ∀ l : List Automaton, (∀ a ∈ l, ClassInvariants a) →
      Builds (l.foldr (concatenate false) (Automaton.makeString []))
        (l.map language).prod := by
    intro l
    induction l with
    | nil => exact fun _ => builds_makeString []
    | cons a l induction =>
        intro all
        rcases List.forall_mem_cons.mp all with ⟨first, others⟩
        have rest := induction others
        have joined := builds_concatenate first rest.1
          fun isSet => absurd isSet Bool.false_ne_true
        rw [rest.2] at joined
        rw [List.map_cons, List.prod_cons]
        exact joined
  have built := builds_concatenateAll invariants
  exact ⟨built.1, built.2.trans (plain l invariants).2.symm⟩

/--
The list of `a` and `b`, both explicit, and the two concatenations.
-/
theorem concatenateAll_agrees_makeString :
    (concatenateAll [Automaton.makeString [97], Automaton.makeString [98]]).lang =
      (concatenate false (Automaton.makeString [97])
        (concatenate false (Automaton.makeString [98])
          (Automaton.makeString []))).lang :=
  (concatenateAll_agrees (List.forall_mem_cons.mpr ⟨makeString_invariants [97],
    List.forall_mem_singleton.mpr (makeString_invariants [98])⟩)).2

end SafetyGames.Automata
