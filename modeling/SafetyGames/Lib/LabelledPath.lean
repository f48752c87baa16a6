import Mathlib.Combinatorics.Pigeonhole
import Mathlib.Data.Fintype.Card
import Mathlib.Data.Set.Finite.Basic
import Mathlib.Logic.Relation
import Mathlib.Order.WellFounded

/-!
# Paths of a labelled transition relation

A labelled transition relation is any `step : σ → α → σ → Prop`.  Its paths
carry the list of labels they spell.  Besides the composition lemmas, this
module proves that inside a finite closed set of vertices a reachable vertex
is reached by a path shorter than the number of vertices.
-/

namespace SafetyGames.LabelledPath

variable {σ α : Type*} {step : σ → α → σ → Prop}

/-- `Path step source word target`: the labels of `word` lead from `source` to `target`. -/
inductive Path (step : σ → α → σ → Prop) : σ → List α → σ → Prop where
  | nil (source : σ) : Path step source [] source
  | cons {source middle target : σ} {label : α} {word : List α}
      (head : step source label middle)
      (tail : Path step middle word target) :
      Path step source (label :: word) target

namespace Path

@[simp]
theorem nil_iff {source target : σ} :
    Path step source [] target ↔ source = target := by
  constructor
  · intro path
    cases path
    rfl
  · rintro rfl
    exact Path.nil _

@[simp]
theorem cons_iff {source target : σ} {label : α} {word : List α} :
    Path step source (label :: word) target ↔
      ∃ middle, step source label middle ∧
        Path step middle word target := by
  constructor
  · intro path
    cases path with
    | cons head tail => exact ⟨_, head, tail⟩
  · rintro ⟨middle, head, tail⟩
    exact Path.cons head tail

theorem single {source target : σ} {label : α}
    (head : step source label target) :
    Path step source [label] target :=
  Path.cons head (Path.nil _)

theorem append_iff {source target : σ} {left right : List α} :
    Path step source (left ++ right) target ↔
      ∃ middle, Path step source left middle ∧
        Path step middle right target := by
  induction left generalizing source with
  | nil => simp
  | cons label left induction =>
      simp only [List.cons_append, cons_iff, induction]
      constructor
      · rintro ⟨next, head, middle, first, second⟩
        exact ⟨middle, ⟨next, head, first⟩, second⟩
      · rintro ⟨middle, ⟨next, head, first⟩, second⟩
        exact ⟨next, head, middle, first, second⟩

theorem append {source middle target : σ} {left right : List α}
    (first : Path step source left middle)
    (second : Path step middle right target) :
    Path step source (left ++ right) target :=
  append_iff.mpr ⟨middle, first, second⟩

theorem snoc {source middle target : σ} {word : List α} {label : α}
    (first : Path step source word middle)
    (last : step middle label target) :
    Path step source (word ++ [label]) target :=
  first.append (single last)

theorem snoc_iff {source target : σ} {word : List α} {label : α} :
    Path step source (word ++ [label]) target ↔
      ∃ middle, Path step source word middle ∧
        step middle label target := by
  simp [append_iff]

/-- A property kept by every step holds at the end of every path. -/
theorem invariant {property : σ → Prop}
    (keep : ∀ source label target,
      property source → step source label target → property target)
    {source target : σ} {word : List α}
    (path : Path step source word target)
    (start : property source) :
    property target := by
  induction path with
  | nil source => exact start
  | cons head tail induction =>
      exact induction (keep _ _ _ start head)

/-- A path of a relation is a path of every relation that contains it. -/
theorem mono {within : σ → α → σ → Prop}
    (keep : ∀ source label target,
      step source label target → within source label target)
    {source target : σ} {word : List α}
    (path : Path step source word target) :
    Path within source word target := by
  induction path with
  | nil source => exact Path.nil source
  | cons head tail induction => exact Path.cons (keep _ _ _ head) induction

/-- A property of the labels that leave an invariant set holds of every label of a path. -/
theorem forall_label (inside : σ → Prop) {property : α → Prop}
    (keep : ∀ source label target,
      inside source → step source label target →
        property label ∧ inside target)
    {source target : σ} {word : List α}
    (path : Path step source word target)
    (start : inside source) :
    ∀ label ∈ word, property label := by
  induction path with
  | nil source => exact fun label member => absurd member List.not_mem_nil
  | cons head tail induction =>
      rcases keep _ _ _ start head with ⟨holds, next⟩
      exact List.forall_mem_cons.mpr ⟨holds, induction next⟩

/-- In a deterministic graph a word leads to at most one vertex. -/
theorem unique
    (deterministic : ∀ source label left right,
      step source label left → step source label right → left = right)
    {source left right : σ} {word : List α}
    (first : Path step source word left)
    (second : Path step source word right) :
    left = right := by
  induction first with
  | nil source => exact nil_iff.mp second
  | cons head tail induction =>
      rcases cons_iff.mp second with ⟨middle, otherHead, otherTail⟩
      have same := deterministic _ _ _ _ head otherHead
      subst same
      exact induction otherTail

/-- A cycle can be walked any number of times. -/
theorem iterate {vertex : σ} {word : List α}
    (cycle : Path step vertex word vertex) (count : ℕ) :
    Path step vertex (List.replicate count word).flatten vertex := by
  induction count with
  | zero => exact Path.nil vertex
  | succ count induction =>
      rw [List.replicate_succ, List.flatten_cons]
      exact cycle.append induction

/-! ## Short paths -/

/-- The vertex reached after the first `length` labels of a path. -/
theorem exists_vertices {source target : σ} {word : List α}
    (path : Path step source word target) :
    ∃ vertex : Fin (word.length + 1) → σ,
      ∀ index : Fin (word.length + 1),
        Path step source (word.take index) (vertex index) ∧
          Path step (vertex index) (word.drop index) target := by
  have middle : ∀ index : Fin (word.length + 1), ∃ vertex,
      Path step source (word.take index) vertex ∧
        Path step vertex (word.drop index) target := by
    intro index
    apply append_iff.mp
    simpa using path
  choose vertex spec using middle
  exact ⟨vertex, spec⟩

/-- A path with at least as many labels as a closed set has vertices can be shortened. -/
theorem shorten {vertices : Finset σ}
    (closed : ∀ source label target,
      source ∈ vertices → step source label target → target ∈ vertices)
    {source target : σ} {word : List α}
    (start : source ∈ vertices)
    (path : Path step source word target)
    (long : vertices.card ≤ word.length) :
    ∃ shorter, shorter.length < word.length ∧
      Path step source shorter target := by
  rcases exists_vertices path with ⟨vertex, spec⟩
  have inside : ∀ index ∈ (Finset.univ : Finset (Fin (word.length + 1))),
      vertex index ∈ vertices := by
    intro index _
    exact (spec index).1.invariant closed start
  have crowded :
      vertices.card < (Finset.univ : Finset (Fin (word.length + 1))).card := by
    simpa using Nat.lt_succ_of_le long
  rcases Finset.exists_ne_map_eq_of_card_lt_of_maps_to crowded inside with
    ⟨first, _, second, _, different, same⟩
  -- The labels between two visits of one vertex are cut out.
  have cut : ∀ early late : Fin (word.length + 1),
      early < late → vertex early = vertex late →
        ∃ shorter, shorter.length < word.length ∧
          Path step source shorter target := by
    intro early late before equal
    refine ⟨word.take early ++ word.drop late, ?_, ?_⟩
    · have lateBound := late.isLt
      have order : (early : Nat) < late := before
      simp only [List.length_append, List.length_take, List.length_drop]
      omega
    · refine (spec early).1.append ?_
      rw [equal]
      exact (spec late).2
  rcases lt_or_gt_of_ne different with before | after
  · exact cut first second before same
  · exact cut second first after same.symm

/-- Inside a finite closed set a reachable vertex is reached with fewer labels than vertices. -/
theorem exists_short {vertices : Finset σ}
    (closed : ∀ source label target,
      source ∈ vertices → step source label target → target ∈ vertices)
    {source target : σ} {word : List α}
    (start : source ∈ vertices)
    (path : Path step source word target) :
    ∃ short, short.length < vertices.card ∧
      Path step source short target := by
  induction size : word.length using Nat.strong_induction_on
    generalizing word with
  | _ size induction =>
      by_cases small : word.length < vertices.card
      · exact ⟨word, small, path⟩
      · rcases shorten closed start path (Nat.le_of_not_gt small) with
          ⟨shorter, less, shorterPath⟩
        exact induction _ (size ▸ less) shorterPath rfl

end Path

/-! ## Relations that do not repeat a key -/

section Keys

variable {κ : Type*} {related : σ → σ → Prop}

/-- When a walk from the start never meets a key a second time, and there are
finitely many keys, every walk ends. -/
theorem wellFounded_of_fresh_keys {start : σ} (key : σ → κ) {keys : Set κ}
    (finite : keys.Finite)
    (inside : ∀ vertex, Relation.ReflTransGen related start vertex →
      key vertex ∈ keys)
    (fresh : ∀ vertex later, Relation.ReflTransGen related start vertex →
      Relation.TransGen related vertex later → key vertex ≠ key later) :
    WellFounded fun next vertex :
        {vertex // Relation.ReflTransGen related start vertex} =>
      related vertex next := by
  rw [wellFounded_iff_isEmpty_descending_chain]
  refine ⟨?_⟩
  rintro ⟨walk, steps⟩
  have later : ∀ first count,
      Relation.TransGen related (walk first).1 (walk (first + count + 1)).1 := by
    intro first count
    induction count with
    | zero => exact Relation.TransGen.single (steps first)
    | succ count induction =>
        exact Relation.TransGen.tail induction (steps (first + count + 1))
  rcases finite.exists_lt_map_eq_of_forall_mem
    (fun index : ℕ => inside (walk index).1 (walk index).2) with
    ⟨first, second, less, same⟩
  rcases Nat.exists_eq_add_of_lt less with ⟨count, rfl⟩
  exact fresh _ _ (walk first).2 (later first count) same

end Keys

end SafetyGames.LabelledPath
