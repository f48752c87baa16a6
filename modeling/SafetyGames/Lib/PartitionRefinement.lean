import Mathlib.Data.List.Basic
import Mathlib.Data.Set.Basic

/-!
# Refinement of partitions

Partitions of the states of a complete deterministic machine, written as a
function to the blocks.  A refinement splits blocks by the states that a letter
leads into one block, and remembers pairs of a block and a letter that are
still to be used.  The pairs may be chosen freely as long as every pair of
states that a letter separates is remembered with one of the two blocks; a
partition with nothing left to use is the equivalence of the states.
-/

namespace SafetyGames.PartitionRefinement

variable {σ α β : Type*} (states : Set σ) (letters : Set α) (step : σ → α → σ)
  (accept : σ → Prop)

/-- The same words lead to acceptance. -/
def Equivalent (left right : σ) : Prop :=
  ∀ word : List α, (∀ letter ∈ word, letter ∈ letters) →
    (accept (word.foldl step left) ↔ accept (word.foldl step right))

/-- Equivalent states are in one block. -/
def Coarse (block : σ → β) : Prop :=
  ∀ left ∈ states, ∀ right ∈ states,
    Equivalent letters step accept left right → block left = block right

/-- The states of one block agree on acceptance. -/
def Respects (block : σ → β) : Prop :=
  ∀ left ∈ states, ∀ right ∈ states,
    block left = block right → (accept left ↔ accept right)

/-- What a letter separates is remembered with one of the two blocks. -/
def Balanced (block : σ → β) (pending : β → α → Prop) : Prop :=
  ∀ left ∈ states, ∀ right ∈ states, block left = block right →
    ∀ letter ∈ letters, block (step left letter) ≠ block (step right letter) →
      pending (block (step left letter)) letter ∨
        pending (block (step right letter)) letter

variable {states letters step accept}

namespace Equivalent

theorem accept_iff {left right : σ}
    (equivalent : Equivalent letters step accept left right) :
    accept left ↔ accept right :=
  equivalent [] fun _ none => absurd none List.not_mem_nil

theorem next {left right : σ}
    (equivalent : Equivalent letters step accept left right) {letter : α}
    (member : letter ∈ letters) :
    Equivalent letters step accept (step left letter) (step right letter) :=
  fun word inLetters => equivalent (letter :: word)
    (List.forall_mem_cons.mpr ⟨member, inLetters⟩)

end Equivalent

/-- A step that splits by one remembered pair: the states of a new block were in
one block and agree on the pair. -/
structure Split (states : Set σ) (step : σ → α → σ) (before after : σ → β)
    (splitter : β) (letter : α) : Prop where
  finer : ∀ left ∈ states, ∀ right ∈ states, after left = after right →
    before left = before right ∧
      (before (step left letter) = splitter ↔
        before (step right letter) = splitter)
  coarser : ∀ left ∈ states, ∀ right ∈ states, before left = before right →
    (before (step left letter) = splitter ↔
      before (step right letter) = splitter) → after left = after right

/-- The split keeps equivalent states together. -/
theorem Coarse.split {before after : σ → β} {splitter : β} {letter : α}
    (coarse : Coarse states letters step accept before)
    (closed : ∀ state ∈ states, ∀ letter ∈ letters, step state letter ∈ states)
    (member : letter ∈ letters)
    (split : Split states step before after splitter letter) :
    Coarse states letters step accept after := by
  intro left inLeft right inRight equivalent
  refine split.coarser left inLeft right inRight
    (coarse left inLeft right inRight equivalent) ?_
  rw [coarse _ (closed left inLeft letter member) _
    (closed right inRight letter member) (equivalent.next member)]

theorem Respects.split {before after : σ → β} {splitter : β} {letter : α}
    (respects : Respects states accept before)
    (split : Split states step before after splitter letter) :
    Respects states accept after :=
  fun left inLeft right inRight same =>
    respects left inLeft right inRight
      (split.finer left inLeft right inRight same).1

/-- The split keeps the balance if the halves of a remembered block are
remembered, and one half of every block that was split. -/
theorem Balanced.split {before after : σ → β} {splitter : β} {letter : α}
    {pending pending' : β → α → Prop}
    (balanced : Balanced states letters step before pending)
    (closed : ∀ state ∈ states, ∀ letter ∈ letters, step state letter ∈ states)
    (split : Split states step before after splitter letter)
    (kept : ∀ state ∈ states, ∀ other, pending (before state) other →
      (before state = splitter → other ≠ letter) → pending' (after state) other)
    (halves : ∀ left ∈ states, ∀ right ∈ states, before left = before right →
      after left ≠ after right → ∀ other ∈ letters,
        pending' (after left) other ∨ pending' (after right) other) :
    Balanced states letters step after pending' := by
  intro left inLeft right inRight same other member different
  rcases split.finer left inLeft right inRight same with ⟨old, agree⟩
  have goalLeft := closed left inLeft other member
  have goalRight := closed right inRight other member
  by_cases together : before (step left other) = before (step right other)
  · exact halves _ goalLeft _ goalRight together different other member
  · rcases balanced left inLeft right inRight old other member together with
      first | second
    · refine Or.inl (kept _ goalLeft other first ?_)
      rintro isSplitter rfl
      exact together (isSplitter.trans (agree.mp isSplitter).symm)
    · refine Or.inr (kept _ goalRight other second ?_)
      rintro isSplitter rfl
      exact together ((agree.mpr isSplitter).trans isSplitter.symm)

/-- With nothing left to use, the states of a block are equivalent. -/
theorem equivalent_of_balanced {block : σ → β}
    (balanced : Balanced states letters step block fun _ _ => False)
    (respects : Respects states accept block)
    (closed : ∀ state ∈ states, ∀ letter ∈ letters, step state letter ∈ states)
    {left right : σ} (inLeft : left ∈ states) (inRight : right ∈ states)
    (same : block left = block right) :
    Equivalent letters step accept left right := by
  intro word
  induction word generalizing left right with
  | nil => exact fun _ => respects left inLeft right inRight same
  | cons letter word induction =>
      intro inLetters
      rcases List.forall_mem_cons.mp inLetters with ⟨member, others⟩
      refine induction (closed left inLeft letter member)
        (closed right inRight letter member) ?_ others
      by_contra different
      rcases balanced left inLeft right inRight same letter member different with
        none | none
      · exact none
      · exact none

/-- A balanced partition with nothing left to use is the equivalence. -/
theorem block_eq_iff {block : σ → β}
    (balanced : Balanced states letters step block fun _ _ => False)
    (respects : Respects states accept block)
    (coarse : Coarse states letters step accept block)
    (closed : ∀ state ∈ states, ∀ letter ∈ letters, step state letter ∈ states)
    {left right : σ} (inLeft : left ∈ states) (inRight : right ∈ states) :
    block left = block right ↔ Equivalent letters step accept left right :=
  ⟨equivalent_of_balanced balanced respects closed inLeft inRight,
    coarse left inLeft right inRight⟩

end SafetyGames.PartitionRefinement
