import SafetyGames.Transducer.Automaton

/-!
# The sample of counter-examples

The four lists of a `Sample` with their add operations, and what it means for
a language to be consistent with a sample.
-/

namespace SafetyGames.Learner

open SafetyGames.Transducer

/-- An implication counter-example: an antecedent word and a consequence automaton. -/
structure CounterExample where
  u : Word
  a : Automaton

/-- `CounterExample.equals`, given `Automaton.equals`. -/
def CounterExample.equals (automataEqual : Automaton → Automaton → Bool)
    (left right : CounterExample) : Bool :=
  left.u == right.u && automataEqual left.a right.a

/-- A `Sample`. -/
structure Sample where
  pos : List Word
  neg : List Word
  ex : List CounterExample
  uni : List CounterExample
  size : Nat

namespace Sample

/-- `new Sample()`. -/
def empty : Sample where
  pos := []
  neg := []
  ex := []
  uni := []
  size := 0

section Adding

variable (automataEqual : Automaton → Automaton → Bool) (sample : Sample)

/-- `addPos(pos)`: a duplicate is reported on the console only. -/
def addPos (pos : Word) : Sample :=
  if pos ∈ sample.pos then sample
  else
    { sample with pos := sample.pos ++ [pos], size := sample.size + 1 }

/-- `addNeg(neg)`. -/
def addNeg (neg : Word) : Sample :=
  if neg ∈ sample.neg then sample
  else
    { sample with neg := sample.neg ++ [neg], size := sample.size + 1 }

/-- `addEx(u, a)`. -/
def addEx (u : Word) (a : Automaton) : Sample :=
  let cex : CounterExample := ⟨u, a⟩
  if sample.ex.any (cex.equals automataEqual) then sample
  else
    { sample with ex := sample.ex ++ [cex], size := sample.size + 1 }

/-- `addUni(u, a)`. -/
def addUni (u : Word) (a : Automaton) : Sample :=
  let cuni : CounterExample := ⟨u, a⟩
  if sample.uni.any (cuni.equals automataEqual) then sample
  else
    { sample with uni := sample.uni ++ [cuni], size := sample.size + 1 }

end Adding

/-- A call of one of the four add operations. -/
inductive Addition where
  | pos (word : Word)
  | neg (word : Word)
  | ex (u : Word) (a : Automaton)
  | uni (u : Word) (a : Automaton)

/-- The effect of a call. -/
def add (automataEqual : Automaton → Automaton → Bool) (sample : Sample) :
    Addition → Sample
  | .pos word => sample.addPos word
  | .neg word => sample.addNeg word
  | .ex u a => sample.addEx automataEqual u a
  | .uni u a => sample.addUni automataEqual u a

/-- The counter-example of a call is in the sample. -/
def Records (sample : Sample) : Addition → Prop
  | .pos word => word ∈ sample.pos
  | .neg word => word ∈ sample.neg
  | .ex u a => ⟨u, a⟩ ∈ sample.ex
  | .uni u a => ⟨u, a⟩ ∈ sample.uni

/-- A call records nothing but its own counter-example. -/
theorem records_add {automataEqual : Automaton → Automaton → Bool}
    {sample : Sample} {addition other : Addition}
    (recorded : (sample.add automataEqual addition).Records other) :
    sample.Records other ∨ other = addition := by
  cases addition with
  | pos word =>
      rw [add, addPos] at recorded
      split_ifs at recorded
      · exact Or.inl recorded
      · cases other with
        | pos other =>
            exact (List.mem_append.mp recorded).imp id fun last =>
              congrArg Addition.pos (List.mem_singleton.mp last)
        | neg | ex | uni => exact Or.inl recorded
  | neg word =>
      rw [add, addNeg] at recorded
      split_ifs at recorded
      · exact Or.inl recorded
      · cases other with
        | neg other =>
            exact (List.mem_append.mp recorded).imp id fun last =>
              congrArg Addition.neg (List.mem_singleton.mp last)
        | pos | ex | uni => exact Or.inl recorded
  | ex u a =>
      rw [add, addEx] at recorded
      split_ifs at recorded
      · exact Or.inl recorded
      · cases other with
        | ex v b =>
            refine (List.mem_append.mp recorded).imp id fun last => ?_
            rcases CounterExample.mk.inj (List.mem_singleton.mp last) with ⟨rfl, rfl⟩
            rfl
        | pos | neg | uni => exact Or.inl recorded
  | uni u a =>
      rw [add, addUni] at recorded
      split_ifs at recorded
      · exact Or.inl recorded
      · cases other with
        | uni v b =>
            refine (List.mem_append.mp recorded).imp id fun last => ?_
            rcases CounterExample.mk.inj (List.mem_singleton.mp last) with ⟨rfl, rfl⟩
            rfl
        | pos | neg | ex => exact Or.inl recorded

/-- After a call its counter-example is in the sample, unless there was one
with the same antecedent and an equal automaton. -/
theorem recorded_add (automataEqual : Automaton → Automaton → Bool)
    (sample : Sample) (addition : Addition) :
    (sample.add automataEqual addition).Records addition ∨
      (∃ u a b, addition = .ex u a ∧ ⟨u, b⟩ ∈ sample.ex ∧
        automataEqual a b = true) ∨
      ∃ u a b, addition = .uni u a ∧ ⟨u, b⟩ ∈ sample.uni ∧
        automataEqual a b = true := by
  have duplicate : ∀ {u a} {list : List CounterExample},
      list.any ((⟨u, a⟩ : CounterExample).equals automataEqual) = true →
        ∃ b, ⟨u, b⟩ ∈ list ∧ automataEqual a b = true := by
    intro u a list found
    rcases List.any_eq_true.mp found with ⟨⟨v, b⟩, member, equal⟩
    rw [CounterExample.equals, Bool.and_eq_true, beq_iff_eq] at equal
    rcases equal with ⟨rfl, equal⟩
    exact ⟨b, member, equal⟩
  cases addition with
  | pos word =>
      refine Or.inl ?_
      rw [add, addPos]
      split_ifs with old
      · exact old
      · exact List.mem_append_right _ (List.mem_singleton_self word)
  | neg word =>
      refine Or.inl ?_
      rw [add, addNeg]
      split_ifs with old
      · exact old
      · exact List.mem_append_right _ (List.mem_singleton_self word)
  | ex u a =>
      rw [add, addEx]
      split_ifs with old
      · rcases duplicate old with ⟨b, member, equal⟩
        exact Or.inr (Or.inl ⟨u, a, b, rfl, member, equal⟩)
      · exact Or.inl (List.mem_append_right _ (List.mem_singleton_self _))
  | uni u a =>
      rw [add, addUni]
      split_ifs with old
      · rcases duplicate old with ⟨b, member, equal⟩
        exact Or.inr (Or.inr ⟨u, a, b, rfl, member, equal⟩)
      · exact Or.inl (List.mem_append_right _ (List.mem_singleton_self _))

/-- A call that changes the sample records its counter-example and counts it. -/
theorem add_eq_or_recorded (automataEqual : Automaton → Automaton → Bool)
    (sample : Sample) (addition : Addition) :
    sample.add automataEqual addition = sample ∨
      (sample.add automataEqual addition).Records addition ∧
        (sample.add automataEqual addition).size = sample.size + 1 := by
  cases addition with
  | pos word =>
      rw [add, addPos]
      split_ifs
      · exact Or.inl rfl
      · exact Or.inr ⟨List.mem_append_right _ (List.mem_singleton_self _), rfl⟩
  | neg word =>
      rw [add, addNeg]
      split_ifs
      · exact Or.inl rfl
      · exact Or.inr ⟨List.mem_append_right _ (List.mem_singleton_self _), rfl⟩
  | ex u a =>
      rw [add, addEx]
      split_ifs
      · exact Or.inl rfl
      · exact Or.inr ⟨List.mem_append_right _ (List.mem_singleton_self _), rfl⟩
  | uni u a =>
      rw [add, addUni]
      split_ifs
      · exact Or.inl rfl
      · exact Or.inr ⟨List.mem_append_right _ (List.mem_singleton_self _), rfl⟩

/-! ## Consistency -/

/-- What a counter-example asks of a language. -/
def Addition.Satisfied (language : Set Word) : Addition → Prop
  | .pos word => word ∈ language
  | .neg word => word ∉ language
  | .ex u a => u ∈ language → ∃ v ∈ a.lang, v ∈ language
  | .uni u a => u ∈ language → ∀ v ∈ a.lang, v ∈ language

/-- The language satisfies every counter-example of the sample. -/
structure Consistent (sample : Sample) (language : Set Word) : Prop where
  pos : ∀ word ∈ sample.pos, word ∈ language
  neg : ∀ word ∈ sample.neg, word ∉ language
  ex : ∀ ce ∈ sample.ex, ce.u ∈ language → ∃ v ∈ ce.a.lang, v ∈ language
  uni : ∀ cu ∈ sample.uni, cu.u ∈ language → ∀ v ∈ cu.a.lang, v ∈ language

theorem consistent_iff {sample : Sample} {language : Set Word} :
    sample.Consistent language ↔
      ∀ addition, sample.Records addition → addition.Satisfied language := by
  constructor
  · intro consistent addition recorded
    cases addition with
    | pos word => exact consistent.pos word recorded
    | neg word => exact consistent.neg word recorded
    | ex u a => exact consistent.ex ⟨u, a⟩ recorded
    | uni u a => exact consistent.uni ⟨u, a⟩ recorded
  · intro satisfied
    exact
      { pos := fun word => satisfied (.pos word)
        neg := fun word => satisfied (.neg word)
        ex := fun ce => satisfied (.ex ce.u ce.a)
        uni := fun cu => satisfied (.uni cu.u cu.a) }

theorem consistent_empty (language : Set Word) : empty.Consistent language where
  pos := fun _ member => absurd member List.not_mem_nil
  neg := fun _ member => absurd member List.not_mem_nil
  ex := fun _ member => absurd member List.not_mem_nil
  uni := fun _ member => absurd member List.not_mem_nil

/-- The counter-examples of one sample are among those of the other. -/
structure Included (sample later : Sample) : Prop where
  pos : sample.pos ⊆ later.pos
  neg : sample.neg ⊆ later.neg
  ex : sample.ex ⊆ later.ex
  uni : sample.uni ⊆ later.uni

theorem Included.refl (sample : Sample) : sample.Included sample :=
  ⟨fun _ => id, fun _ => id, fun _ => id, fun _ => id⟩

theorem Included.trans {first second third : Sample}
    (left : first.Included second) (right : second.Included third) :
    first.Included third where
  pos := List.Subset.trans left.pos right.pos
  neg := List.Subset.trans left.neg right.neg
  ex := List.Subset.trans left.ex right.ex
  uni := List.Subset.trans left.uni right.uni

theorem Consistent.of_included {sample later : Sample} {language : Set Word}
    (consistent : later.Consistent language)
    (included : sample.Included later) :
    sample.Consistent language where
  pos := fun word member => consistent.pos word (included.pos member)
  neg := fun word member => consistent.neg word (included.neg member)
  ex := fun ce member => consistent.ex ce (included.ex member)
  uni := fun cu member => consistent.uni cu (included.uni member)

section Adding

variable {automataEqual : Automaton → Automaton → Bool} {sample : Sample}
  {addition : Addition}

theorem included_add :
    sample.Included (sample.add automataEqual addition) := by
  cases addition with
  | pos word =>
      rw [add, addPos]
      split_ifs
      · exact Included.refl sample
      · exact ⟨List.subset_append_left _ _, fun _ => id, fun _ => id, fun _ => id⟩
  | neg word =>
      rw [add, addNeg]
      split_ifs
      · exact Included.refl sample
      · exact ⟨fun _ => id, List.subset_append_left _ _, fun _ => id, fun _ => id⟩
  | ex u a =>
      rw [add, addEx]
      split_ifs
      · exact Included.refl sample
      · exact ⟨fun _ => id, fun _ => id, List.subset_append_left _ _, fun _ => id⟩
  | uni u a =>
      rw [add, addUni]
      split_ifs
      · exact Included.refl sample
      · exact ⟨fun _ => id, fun _ => id, fun _ => id, List.subset_append_left _ _⟩

/-- A language that satisfies the new counter-example stays consistent. -/
theorem Consistent.add {language : Set Word}
    (consistent : sample.Consistent language)
    (satisfied : addition.Satisfied language) :
    (sample.add automataEqual addition).Consistent language := by
  refine consistent_iff.mpr fun other recorded => ?_
  rcases records_add recorded with old | rfl
  · exact consistent_iff.mp consistent other old
  · exact satisfied

/-- A consistent language satisfies the new counter-example, also where an
equal one was there before. -/
theorem Consistent.satisfied {language : Set Word}
    (consistent : (sample.add automataEqual addition).Consistent language)
    (equal : ∀ u a b, addition = .ex u a ∧ ⟨u, b⟩ ∈ sample.ex ∨
      addition = .uni u a ∧ ⟨u, b⟩ ∈ sample.uni →
        automataEqual a b = true → a.lang = b.lang) :
    addition.Satisfied language := by
  have before := consistent.of_included included_add
  rcases recorded_add automataEqual sample addition with recorded |
    ⟨u, a, b, rfl, member, same⟩ | ⟨u, a, b, rfl, member, same⟩
  · exact consistent_iff.mp consistent addition recorded
  · rw [Addition.Satisfied, equal u a b (Or.inl ⟨rfl, member⟩) same]
    exact before.ex ⟨u, b⟩ member
  · rw [Addition.Satisfied, equal u a b (Or.inr ⟨rfl, member⟩) same]
    exact before.uni ⟨u, b⟩ member

end Adding

end Sample

/-! ## The words of the prefix tree -/

/-- The mark of a word in the filled tree: the first list that has it wins. -/
def markOf (s : Sample) (word : Word) : Int :=
  if word ∈ s.pos then 1 else if word ∈ s.neg then -1 else 0

/-- The words of a sample that are inserted into the prefix tree. -/
def Sample.words (s : Sample) : List Word :=
  s.pos ++ s.neg ++ s.uni.map CounterExample.u ++ s.ex.map CounterExample.u

end SafetyGames.Learner
