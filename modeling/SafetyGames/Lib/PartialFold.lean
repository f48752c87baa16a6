import Mathlib.Data.List.Basic

/-!
# Folds that may fail

Rules for `List.foldlM` in `Option`: an invariant indexed by the number of
elements already folded, totality from an invariant, and monotonicity in the
step.
-/

namespace SafetyGames.PartialFold

variable {α β : Type*}

theorem foldlM_cons_eq_some {step : β → α → Option β} {value : α}
    {list : List α} {start result : β} :
    (value :: list).foldlM step start = some result ↔
      ∃ middle, step start value = some middle ∧
        list.foldlM step middle = some result := by
  rw [List.foldlM_cons]
  exact Option.bind_eq_some_iff

/-- An invariant of the number of folded elements holds at the end of a fold that returns. -/
theorem foldlM_invariant {step : β → α → Option β} (invariant : Nat → β → Prop)
    {list : List α} {start result : β}
    (keep : ∀ index value before after, list[index]? = some value →
      invariant index before → step before value = some after →
        invariant (index + 1) after)
    (initially : invariant 0 start)
    (returns : list.foldlM step start = some result) :
    invariant list.length result := by
  induction list generalizing start invariant with
  | nil =>
      have same : start = result := by simpa using returns
      exact same ▸ initially
  | cons value list induction =>
      rcases foldlM_cons_eq_some.mp returns with ⟨middle, head, tail⟩
      refine induction (fun index => invariant (index + 1)) ?_ ?_ tail
      · intro index value before after position
        exact keep (index + 1) value before after (by simpa using position)
      · exact keep 0 value start middle (by simp) initially head

/-- A fold that returns has taken every one of its steps. -/
theorem foldlM_step {step : β → α → Option β} {list : List α}
    {start result : β} (returns : list.foldlM step start = some result)
    {value : α} (member : value ∈ list) :
    ∃ before after, step before value = some after := by
  induction list generalizing start with
  | nil => exact absurd member List.not_mem_nil
  | cons first list induction =>
      rcases foldlM_cons_eq_some.mp returns with ⟨middle, head, tail⟩
      rcases List.mem_cons.mp member with rfl | later
      · exact ⟨start, middle, head⟩
      · exact induction tail later

/-- A fold whose steps return and keep an invariant returns. -/
theorem foldlM_total {step : β → α → Option β} (invariant : β → Prop)
    {list : List α} {start : β}
    (total : ∀ value ∈ list, ∀ before, invariant before →
      ∃ after, step before value = some after ∧ invariant after)
    (initially : invariant start) :
    ∃ result, list.foldlM step start = some result ∧ invariant result := by
  induction list generalizing start with
  | nil => exact ⟨start, rfl, initially⟩
  | cons value list induction =>
      rcases total value List.mem_cons_self start initially with ⟨middle, head, kept⟩
      rcases induction
        (fun other member => total other (List.mem_cons_of_mem value member)) kept with
        ⟨result, tail, final⟩
      exact ⟨result, foldlM_cons_eq_some.mpr ⟨middle, head, tail⟩, final⟩

/-- A fold returns what it returned before when each of its steps does. -/
theorem foldlM_mono {step step' : β → α → Option β} {list : List α}
    {start result : β}
    (mono : ∀ value ∈ list, ∀ before after,
      step before value = some after → step' before value = some after)
    (returns : list.foldlM step start = some result) :
    list.foldlM step' start = some result := by
  induction list generalizing start with
  | nil => simpa using returns
  | cons value list induction =>
      rcases foldlM_cons_eq_some.mp returns with ⟨middle, head, tail⟩
      refine foldlM_cons_eq_some.mpr
        ⟨middle, mono value List.mem_cons_self start middle head, ?_⟩
      exact induction
        (fun other member => mono other (List.mem_cons_of_mem value member)) tail

/-- A fold that returns has folded the elements before any of its elements,
taken the step of this element, and folded the others. -/
theorem foldlM_split {step : β → α → Option β} {list : List α}
    {start result : β} {index : ℕ} {value : α}
    (returns : list.foldlM step start = some result)
    (position : list[index]? = some value) :
    ∃ before after, (list.take index).foldlM step start = some before ∧
      step before value = some after ∧
        (list.drop (index + 1)).foldlM step after = some result := by
  rcases List.getElem?_eq_some_iff.mp position with ⟨inside, isValue⟩
  have parts : list = list.take index ++ value :: list.drop (index + 1) := by
    rw [← isValue, ← List.drop_eq_getElem_cons inside, List.take_append_drop]
  rw [parts, List.foldlM_append] at returns
  rcases Option.bind_eq_some_iff.mp returns with ⟨before, early, late⟩
  rcases foldlM_cons_eq_some.mp late with ⟨after, now, rest⟩
  exact ⟨before, after, early, now, rest⟩

/-- The step of an element goes on where the fold of the elements before ends. -/
theorem foldlM_take_succ {step : β → α → Option β} {list : List α}
    {start before : β} {index : ℕ} {value : α}
    (early : (list.take index).foldlM step start = some before)
    (position : list[index]? = some value) :
    (list.take (index + 1)).foldlM step start = step before value := by
  rw [List.take_add_one, position, List.foldlM_append, early]
  show ([value].foldlM step before) = step before value
  rw [List.foldlM_cons]
  exact bind_pure (step before value)

/-- A relation between before and after that steps keep is kept by a fold. -/
theorem foldlM_rel {step : β → α → Option β} {related : β → β → Prop}
    (refl : ∀ start, related start start)
    (trans : ∀ first second third, related first second →
      related second third → related first third)
    {list : List α} {start result : β}
    (keep : ∀ value ∈ list, ∀ before after,
      step before value = some after → related before after)
    (returns : list.foldlM step start = some result) :
    related start result := by
  induction list generalizing start with
  | nil =>
      have same : start = result := by simpa using returns
      exact same ▸ refl start
  | cons value list induction =>
      rcases foldlM_cons_eq_some.mp returns with ⟨middle, head, tail⟩
      have first := keep value List.mem_cons_self _ _ head
      have rest := induction
        (fun other member => keep other (List.mem_cons_of_mem value member)) tail
      exact trans _ _ _ first rest

/-- When each step that returns is matched by a step of another fold, the other
fold returns, too, and its result matches. -/
theorem foldlM_simulation {γ : Type*} {step : β → α → Option β}
    {step' : γ → α → Option γ} (matched : β → γ → Prop) {list : List α}
    {start result : β} {start' : γ}
    (simulates : ∀ value ∈ list, ∀ before after before', matched before before' →
      step before value = some after →
        ∃ after', step' before' value = some after' ∧ matched after after')
    (initially : matched start start')
    (returns : list.foldlM step start = some result) :
    ∃ result', list.foldlM step' start' = some result' ∧
      matched result result' := by
  induction list generalizing start start' with
  | nil =>
      have same : start = result := by simpa using returns
      exact ⟨start', rfl, same ▸ initially⟩
  | cons value list induction =>
      rcases foldlM_cons_eq_some.mp returns with ⟨middle, head, tail⟩
      rcases simulates value List.mem_cons_self _ _ _ initially head with
        ⟨middle', head', now⟩
      rcases induction
        (fun other member => simulates other (List.mem_cons_of_mem value member))
        now tail with ⟨result', tail', final⟩
      exact ⟨result', foldlM_cons_eq_some.mpr ⟨middle', head', tail'⟩, final⟩

/-! ## Maps that may fail -/

section Map

variable {γ : Type*} {f : α → Option γ} {list : List α} {results : List γ}

theorem mapM_cons_eq_some {value : α} :
    (value :: list).mapM f = some results ↔
      ∃ result rest, f value = some result ∧ list.mapM f = some rest ∧
        results = result :: rest := by
  rw [List.mapM_cons, Option.bind_eq_bind, Option.bind_eq_some_iff]
  constructor
  · rintro ⟨result, head, tail⟩
    rw [Option.bind_eq_bind, Option.bind_eq_some_iff] at tail
    rcases tail with ⟨rest, tail, equal⟩
    exact ⟨result, rest, head, tail, (Option.some.inj equal).symm⟩
  · rintro ⟨result, rest, head, tail, rfl⟩
    exact ⟨result, head, by rw [tail]; rfl⟩

/-- Every element has its result. -/
theorem exists_of_mapM (returns : list.mapM f = some results) {value : α}
    (member : value ∈ list) :
    ∃ result ∈ results, f value = some result := by
  induction list generalizing results with
  | nil => exact absurd member List.not_mem_nil
  | cons first list induction =>
      rcases mapM_cons_eq_some.mp returns with ⟨result, rest, head, tail, rfl⟩
      rcases List.mem_cons.mp member with rfl | later
      · exact ⟨result, List.mem_cons_self, head⟩
      · rcases induction tail later with ⟨other, inRest, equal⟩
        exact ⟨other, List.mem_cons_of_mem _ inRest, equal⟩

/-- Every result comes from an element. -/
theorem mem_of_mapM (returns : list.mapM f = some results) {result : γ}
    (member : result ∈ results) :
    ∃ value ∈ list, f value = some result := by
  induction list generalizing results with
  | nil =>
      obtain rfl : [] = results := by simpa using returns
      exact absurd member List.not_mem_nil
  | cons first list induction =>
      rcases mapM_cons_eq_some.mp returns with ⟨head, rest, isHead, tail, rfl⟩
      rcases List.mem_cons.mp member with rfl | later
      · exact ⟨first, List.mem_cons_self, isHead⟩
      · rcases induction tail later with ⟨value, inList, equal⟩
        exact ⟨value, List.mem_cons_of_mem _ inList, equal⟩

theorem mapM_returns (total : ∀ value ∈ list, ∃ result, f value = some result) :
    ∃ results, list.mapM f = some results := by
  induction list with
  | nil => exact ⟨[], rfl⟩
  | cons first list induction =>
      rcases total first List.mem_cons_self with ⟨result, head⟩
      rcases induction
        fun value member => total value (List.mem_cons_of_mem _ member) with
        ⟨rest, tail⟩
      exact ⟨result :: rest,
        mapM_cons_eq_some.mpr ⟨result, rest, head, tail, rfl⟩⟩

end Map

end SafetyGames.PartialFold
