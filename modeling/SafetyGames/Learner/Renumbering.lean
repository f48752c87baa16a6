import SafetyGames.Learner.Solutions
import SafetyGames.Transducer.Grouping

/-!
# Other numbers for the same states

`constructSAT` knows an automaton by the numbers of its states and by the
lower ends of its transitions.  Two numberings of one automaton have the same
solutions: the `y` and `z` cells of the one are those of the other under other
numbers.
-/

namespace SafetyGames.Learner

open SafetyGames.Transducer SafetyGames.LabelledPath SafetyGames.Worklist
open PrefixTree BoolExpr

/-! ## Numberings -/

/-- An automaton with numbers for its reachable states; its transitions are
read at their lower ends. -/
structure Numbering (alphabet : List JChar) (a : Automaton)
    (number : Nat → Nat) (numbers : Numbered) : Prop where
  injective : ∀ {left right}, a.Reachable left → number left = number right →
    left = right
  na : numbers.na = a.getNumberOfStates
  initial : numbers.initial = number a.initial
  states : ∀ m, m ∈ numbers.states ↔ ∃ ref, a.Reachable ref ∧ number ref = m
  edges : ∀ edge, edge ∈ numbers.edges ↔
    ∃ source target c, a.Reachable source ∧
      a.lowered.states.Step source c target ∧
        ∃ letter, charMap alphabet c = some letter ∧
          edge = ⟨number source, letter, number target⟩
  acceptStates : ∀ m, m ∈ numbers.acceptStates ↔
    ∃ ref, a.Reachable ref ∧ (a.state ref).accept = true ∧ number ref = m

section Numbering

variable {order : StateOrder} {alphabet : List JChar} {a : Automaton}
  {numbers : Numbered}

theorem IsNumbered.numbering
    (isNumbered : IsNumbered order alphabet a numbers) :
    Numbering alphabet a (order.number a) numbers where
  injective := order.number_inj
  na := isNumbered.na
  initial := isNumbered.initial
  states := isNumbered.states
  edges := by
    intro edge
    rw [isNumbered.edges]
    constructor
    · rintro ⟨ref, reachable, transition, member, letter, mapped, isEdge⟩
      exact ⟨ref, transition.dest, transition.min, reachable,
        lowered_step_iff.mpr ⟨transition, member, rfl, rfl⟩, letter, mapped,
        isEdge⟩
    · rintro ⟨source, target, c, reachable, step, letter, mapped, isEdge⟩
      rcases lowered_step_iff.mp step with ⟨transition, member, rfl, rfl⟩
      exact ⟨source, reachable, transition, member, letter, mapped, isEdge⟩
  acceptStates := isNumbered.acceptStates

/-- The numbers of the lower ends are numbers of the automaton. -/
theorem IsNumbered.numbering_lowered
    (isNumbered : IsNumbered order alphabet a.lowered numbers) :
    Numbering alphabet a (order.number a.lowered) numbers where
  injective := fun reachable same =>
    order.number_inj (reachable_lowered_iff.mpr reachable) same
  na := isNumbered.na.trans getNumberOfStates_lowered
  initial := isNumbered.initial
  states := by
    intro m
    rw [isNumbered.states]
    exact exists_congr fun ref => and_congr_left' reachable_lowered_iff
  edges := by
    intro edge
    rw [isNumbered.edges]
    constructor
    · rintro ⟨ref, reachable, transition, member, letter, mapped, isEdge⟩
      rw [reachable_lowered_iff] at reachable
      exact ⟨ref, transition.dest, transition.min, reachable,
        ⟨transition, member, transition.reads_min, rfl⟩, letter, mapped, isEdge⟩
    · rintro ⟨source, target, c, reachable, step, letter, mapped, isEdge⟩
      rcases lowered_step_iff.mp step with ⟨group, member, rfl, rfl⟩
      rw [← reachable_lowered_iff] at reachable
      exact ⟨source, reachable, group.lower,
        mem_lowered.mpr ⟨group, member, rfl⟩, letter, mapped, isEdge⟩
  acceptStates := by
    intro m
    rw [isNumbered.acceptStates]
    apply exists_congr
    intro ref
    rw [reachable_lowered_iff, lowered_accept]

/-- The automata are one automaton, up to the upper ends of its intervals. -/
def SameLower (left right : Automaton) : Prop :=
  ∃ a : Automaton, (left = a ∨ left = a.lowered) ∧
    (right = a ∨ right = a.lowered)

theorem reachable_of_sameLower {b : Automaton} (same : b = a ∨ b = a.lowered)
    {ref : Nat} (reachable : a.Reachable ref) : b.Reachable ref := by
  rcases same with rfl | rfl
  · exact reachable
  · exact reachable_lowered_iff.mpr reachable

theorem numbering_of_sameLower {b : Automaton}
    (same : b = a ∨ b = a.lowered)
    (isNumbered : IsNumbered order alphabet b numbers) :
    Numbering alphabet a (order.number b) numbers := by
  rcases same with rfl | rfl
  · exact isNumbered.numbering
  · exact isNumbered.numbering_lowered

/-- The numbered transitions carry letters of the alphabet in both automata. -/
theorem numbered_returns_of_sameLower {left right : Automaton}
    (same : SameLower left right)
    (returns : ∃ numbers,
      numbered order (charMap alphabet) left = some numbers)
    (other : StateOrder) :
    ∃ numbers, numbered other (charMap alphabet) right = some numbers := by
  rcases same with ⟨a, isLeft, isRight⟩
  have known : ∀ ref, a.Reachable ref → ∀ transition ∈ (a.state ref).transitions,
      (charMap alphabet transition.min).isSome := by
    intro ref reachable transition member
    rcases returns with ⟨numbers, returns⟩
    rw [numbered] at returns
    split_ifs at returns with all
    rcases isLeft with rfl | rfl
    · exact all ref (order.mem_states.mpr reachable) transition member
    · exact all ref (order.mem_states.mpr (reachable_lowered_iff.mpr reachable))
        transition.lower (mem_lowered.mpr ⟨transition, member, rfl⟩)
  refine ⟨_, if_pos ?_⟩
  intro ref member transition inState
  have reachable := other.mem_states.mp member
  rcases isRight with rfl | rfl
  · exact known ref reachable transition inState
  · rcases mem_lowered.mp inState with ⟨group, inGroup, rfl⟩
    exact known ref (reachable_lowered_iff.mp reachable) group inGroup

end Numbering

/-! ## Renumbered cells -/

/-- The cells under other numbers of the counter-example states. -/
def renumbered (uniNumber exNumber : Nat → Nat → Nat) (v : Var → Bool) :
    Var → Bool
  | .f q => v (.f q)
  | .d p a q => v (.d p a q)
  | .x u q => v (.x u q)
  | .y u p p2 => v (.y u p (uniNumber u p2))
  | .z e p p2 l => v (.z e p (exNumber e p2) l)

section Renumbered

variable {alphabet : List JChar} {a : Automaton} {number number' : Nat → Nat}
  {numbers numbers' : Numbered} {uniNumber exNumber : Nat → Nat → Nat}
  {v : Var → Bool} {n : Nat}

theorem UniSatisfied.renumber {u id : Nat}
    (satisfied : UniSatisfied v n u numbers id)
    (numbering : Numbering alphabet a number numbers)
    (numbering' : Numbering alphabet a number' numbers')
    (back : ∀ ref, a.Reachable ref → uniNumber u (number' ref) = number ref) :
    UniSatisfied (renumbered uniNumber exNumber v) n u numbers' id := by
  have cell : ∀ {p ref}, a.Reachable ref →
      renumbered uniNumber exNumber v (.y u p (number' ref)) =
        v (.y u p (number ref)) := by
    intro p ref reachable
    rw [renumbered, back ref reachable]
  refine ⟨?_, ?_, ?_⟩
  · rw [numbering'.initial, cell Automaton.Reachable.initial,
      ← numbering.initial]
    exact satisfied.initial
  · intro edge member p pInside q qInside before chosen
    rcases (numbering'.edges edge).mp member with
      ⟨source, target, c, reachable, step, letter, mapped, rfl⟩
    have isEdge := (numbering.edges _).mpr
      ⟨source, target, c, reachable, step, letter, mapped, rfl⟩
    rw [cell reachable] at before
    rw [cell (reachable.step (step_of_lowered step))]
    exact satisfied.forward _ isEdge p pInside q qInside before chosen
  · intro accepted q inside fa member reached
    rcases (numbering'.acceptStates fa).mp member with
      ⟨ref, reachable, accept, rfl⟩
    rw [cell reachable] at reached
    exact satisfied.implication accepted q inside (number ref)
      ((numbering.acceptStates _).mpr ⟨ref, reachable, accept, rfl⟩) reached

theorem ExSatisfied.renumber {e id : Nat}
    (satisfied : ExSatisfied v n e numbers id)
    (numbering : Numbering alphabet a number numbers)
    (numbering' : Numbering alphabet a number' numbers')
    (back : ∀ ref, a.Reachable ref → exNumber e (number' ref) = number ref) :
    ExSatisfied (renumbered uniNumber exNumber v) n e numbers' id := by
  have cell : ∀ {p ref l}, a.Reachable ref →
      renumbered uniNumber exNumber v (.z e p (number' ref) l) =
        v (.z e p (number ref) l) := by
    intro p ref l reachable
    rw [renumbered, back ref reachable]
  have state : ∀ {ref}, a.Reachable ref → number ref ∈ numbers.states :=
    fun reachable => (numbering.states _).mpr ⟨_, reachable, rfl⟩
  have sameSize : numbers'.na = numbers.na :=
    numbering'.na.trans numbering.na.symm
  exact
    { initial := by
        rw [numbering'.initial, cell Automaton.Reachable.initial,
          ← numbering.initial]
        exact satisfied.initial
      onlyInitial := by
        intro m member q inside reached
        rcases (numbering'.states m).mp member with ⟨ref, reachable, rfl⟩
        rw [cell reachable] at reached
        rcases satisfied.onlyInitial _ (state reachable) q inside reached with
          ⟨isInitial, isZero⟩
        rw [numbering.initial] at isInitial
        rw [numbering.injective reachable isInitial, numbering'.initial]
        exact ⟨rfl, isZero⟩
      forward := by
        intro m member edge inEdges isSource p pInside q qInside l bound before
          chosen
        rcases (numbering'.edges edge).mp inEdges with
          ⟨source, target, c, reachable, step, letter, mapped, rfl⟩
        rcases isSource with rfl
        rw [sameSize] at bound
        rw [cell reachable] at before
        rw [cell (reachable.step (step_of_lowered step))]
        have isEdge := (numbering.edges _).mpr
          ⟨source, target, c, reachable, step, letter, mapped, rfl⟩
        exact satisfied.forward _ (state reachable) _ isEdge rfl p pInside q
          qInside l bound before chosen
      backward := by
        intro m member q inside l bound reached
        rcases (numbering'.states m).mp member with ⟨ref, reachable, rfl⟩
        rw [sameSize] at bound
        rw [cell reachable] at reached
        rcases satisfied.backward _ (state reachable) q inside l bound reached with
          ⟨edge, inEdges, dest, p, pInside, chosen, before⟩
        rcases (numbering.edges edge).mp inEdges with
          ⟨source, target, c, sourceReachable, step, letter, mapped, rfl⟩
        have targetReachable := sourceReachable.step (step_of_lowered step)
        have isRef : target = ref := numbering.injective targetReachable dest
        refine ⟨⟨number' source, letter, number' target⟩, ?_, ?_, p, pInside,
          chosen, ?_⟩
        · exact (numbering'.edges _).mpr
            ⟨source, target, c, sourceReachable, step, letter, mapped, rfl⟩
        · rw [isRef]
        · rw [cell sourceReachable]
          exact before
      implication := by
        intro accepted
        rcases satisfied.implication accepted with
          ⟨q, inside, fa, member, l, bound, reached, accepts⟩
        rcases (numbering.acceptStates fa).mp member with
          ⟨ref, reachable, accept, rfl⟩
        refine ⟨q, inside, number' ref, ?_, l, ?_, ?_, accepts⟩
        · exact (numbering'.acceptStates _).mpr ⟨ref, reachable, accept, rfl⟩
        · rw [sameSize]
          exact bound
        · rw [cell reachable]
          exact reached }

end Renumbered

/-! ## Samples with the same lower ends -/

/-- The counter-examples have one antecedent and, up to the upper ends, one automaton. -/
def Alike (left right : CounterExample) : Prop :=
  right.u = left.u ∧ SameLower left.a right.a

/-- The number that one order gives to the state that the other order numbers `k`. -/
def translated (order other : StateOrder) (left right : Automaton) (k : Nat) :
    Nat :=
  order.number left ((other.states right)[k]?.getD 0)

/-- The numbers of the automata at one index of two lists. -/
def translatedAt (order other : StateOrder) (list list' : List CounterExample)
    (index k : Nat) : Nat :=
  match list[index]?, list'[index]? with
  | some left, some right => translated order other left.a right.a k
  | _, _ => k

/-- Some assignment with the given part satisfies the constraints over the tree. -/
def Realizes (order : StateOrder) (alphabet : List JChar) (s : Sample)
    (n : Nat) (w : PrefixTree) (part : Part n alphabet.length) : Prop :=
  ∃ v, Satisfied v (cellConstraints order alphabet s n w) ∧
    partOf n alphabet.length v = part

section Transfer

variable {order other : StateOrder} {alphabet : List JChar} {s s' : Sample}
  {w : PrefixTree} {n : Nat}

theorem mem_cellSolutions_iff {part : Part n alphabet.length} :
    part ∈ cellSolutions order alphabet s n ↔
      ∃ w, fillTree alphabet s = some w ∧ Realizes order alphabet s n w part := by
  constructor
  · rintro ⟨w, v, fills, satisfied, isPart⟩
    exact ⟨w, fills, v, satisfied, isPart⟩
  · rintro ⟨w, fills, v, satisfied, isPart⟩
    exact ⟨w, v, fills, satisfied, isPart⟩

theorem translated_number {left right : Automaton} {ref : Nat}
    (reachable : right.Reachable ref) :
    translated order other left right (other.number right ref) =
      order.number left ref := by
  have member := other.mem_states.mpr reachable
  have position : (other.states right)[other.number right ref]? = some ref :=
    List.getElem?_idxOf member
  rw [translated, position]
  rfl

/-- The numbers that the lists translate into each other. -/
theorem translatedAt_number {list list' : List CounterExample} {index : Nat}
    {left right : CounterExample} (isLeft : list[index]? = some left)
    (isRight : list'[index]? = some right) {ref : Nat}
    (reachable : right.a.Reachable ref) :
    translatedAt order other list list' index (other.number right.a ref) =
      order.number left.a ref := by
  rw [translatedAt, isLeft, isRight]
  exact translated_number reachable

theorem exists_of_forall₂ {list list' : List CounterExample}
    (alike : List.Forall₂ Alike list list') {index : Nat}
    {right : CounterExample} (isRight : list'[index]? = some right) :
    ∃ left, list[index]? = some left ∧ Alike left right := by
  rcases List.forall₂_iff_get.mp alike with ⟨sameLength, related⟩
  rcases List.getElem?_eq_some_iff.mp isRight with ⟨bound, rfl⟩
  have leftBound : index < list.length := sameLength ▸ bound
  exact ⟨list[index], List.getElem?_eq_getElem leftBound,
    related index leftBound bound⟩

/-- Samples whose counter-examples are alike have the same solutions over a tree. -/
theorem Realizes.transfer {part : Part n alphabet.length}
    (realizes : Realizes order alphabet s n w part)
    (filled : Filled alphabet s' w)
    (uni : List.Forall₂ Alike s.uni s'.uni)
    (ex : List.Forall₂ Alike s.ex s'.ex) (other : StateOrder) :
    Realizes other alphabet s' n w part := by
  rcases realizes with ⟨v, satisfied, isPart⟩
  rcases satisfied_cellConstraints.mp satisfied with
    ⟨uniHolds, exHolds, total, initial, ids, traversed, prefixes⟩
  let v' := renumbered (translatedAt order other s.uni s'.uni)
    (translatedAt order other s.ex s'.ex) v
  refine ⟨v', satisfied_cellConstraints.mpr ⟨?_, ?_, ?_, ?_, ids, traversed,
    fun id member => ?_⟩, isPart⟩
  · rintro ⟨cu', u⟩ inList
    have isRight := List.mem_zipIdx_iff_getElem?.mp inList
    rcases exists_of_forall₂ uni isRight with ⟨cu, isLeft, sameWord, same⟩
    rcases filled.leads_of_uni (List.mem_of_getElem? isRight) with
      ⟨id, leads'⟩
    have leads : Leads (charMap alphabet) w cu.u id := sameWord ▸ leads'
    rcases (satisfied_uniProblem leads).mp
      (uniHolds (cu, u) (List.mem_zipIdx_iff_getElem?.mpr isLeft)) with
      ⟨numbers, returns, holds⟩
    rcases numbered_returns_of_sameLower same ⟨numbers, returns⟩ other with
      ⟨numbers', returns'⟩
    rcases same with ⟨a, isA, isA'⟩
    have numbering := numbering_of_sameLower isA (numbered_spec returns)
    have numbering' := numbering_of_sameLower isA' (numbered_spec returns')
    refine (satisfied_uniProblem leads').mpr ⟨numbers', returns',
      holds.renumber numbering numbering' fun ref reachable => ?_⟩
    exact translatedAt_number isLeft isRight
      (reachable_of_sameLower isA' reachable)
  · rintro ⟨ce', e⟩ inList
    have isRight := List.mem_zipIdx_iff_getElem?.mp inList
    rcases exists_of_forall₂ ex isRight with ⟨ce, isLeft, sameWord, same⟩
    rcases filled.leads_of_ex (List.mem_of_getElem? isRight) with ⟨id, leads'⟩
    have leads : Leads (charMap alphabet) w ce.u id := sameWord ▸ leads'
    rcases (satisfied_exProblem leads).mp
      (exHolds (ce, e) (List.mem_zipIdx_iff_getElem?.mpr isLeft)) with
      ⟨numbers, returns, lengths, holds⟩
    rcases numbered_returns_of_sameLower same ⟨numbers, returns⟩ other with
      ⟨numbers', returns'⟩
    rcases same with ⟨a, isA, isA'⟩
    have numbering := numbering_of_sameLower isA (numbered_spec returns)
    have numbering' := numbering_of_sameLower isA' (numbered_spec returns')
    refine (satisfied_exProblem leads').mpr ⟨numbers', returns', ?_,
      holds.renumber numbering numbering' fun ref reachable => ?_⟩
    · rw [numbering'.na, ← numbering.na]
      exact lengths
    · exact translatedAt_number isLeft isRight
        (reachable_of_sameLower isA' reachable)
  · have holds := satisfies_dConstraints.mp total
    exact satisfies_dConstraints.mpr holds
  · simp only [initialConstraints, satisfies_append, satisfies_singleton,
      satisfies_map, holds_const, holds_not] at initial ⊢
    exact initial
  · have holds := prefixes id member
    exact ⟨holds.unique, holds.forward, holds.accepted, holds.rejected⟩

end Transfer

end SafetyGames.Learner
