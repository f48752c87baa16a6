import SafetyGames.Lib.Worklist

/-!
# Searches from several vertices

The worklist search with a list of first vertices, and the search that stops
at the first vertex that fails a test.
-/

namespace SafetyGames.Worklist

variable {σ : Type*} {successors : σ → List σ} {vertices : Finset σ}
  {property : σ → Prop}

/-- Nothing is visited twice, and what is visited is inside and has a property. -/
structure Sound (vertices : Finset σ) (property : σ → Prop)
    (search : Search σ) : Prop where
  nodup : search.visited.Nodup
  inside : ∀ vertex ∈ search.visited, vertex ∈ vertices
  included : ∀ vertex ∈ search.worklist, vertex ∈ search.visited
  holds : ∀ vertex ∈ search.visited, property vertex

namespace Sound

theorem start {sources : List σ} (nodup : sources.Nodup)
    (inside : ∀ source ∈ sources, source ∈ vertices)
    (holds : ∀ source ∈ sources, property source) :
    Sound vertices property ⟨sources, sources⟩ :=
  ⟨nodup, inside, fun _ => id, holds⟩

theorem pop {visited worklist : List σ} {vertex : σ}
    (sound : Sound vertices property ⟨visited, vertex :: worklist⟩) :
    Sound vertices property ⟨visited, worklist⟩ where
  nodup := sound.nodup
  inside := sound.inside
  included := fun other member =>
    sound.included other (List.mem_cons_of_mem _ member)
  holds := sound.holds

variable [DecidableEq σ]

theorem visit {search : Search σ} (sound : Sound vertices property search)
    {vertex : σ} (member : vertex ∈ vertices) (holds : property vertex) :
    Sound vertices property (search.visit vertex) := by
  by_cases known : vertex ∈ search.visited
  · rwa [Search.visit, if_pos known]
  · rw [Search.visit, if_neg known]
    constructor
    · refine List.nodup_append.mpr
        ⟨sound.nodup, List.nodup_singleton _, ?_⟩
      rintro old inOld new isNew rfl
      exact known (List.mem_singleton.mp isNew ▸ inOld)
    · refine List.forall_mem_append.mpr ⟨sound.inside, ?_⟩
      exact List.forall_mem_singleton.mpr member
    · intro other inside
      rcases List.mem_append.mp inside with old | new
      · exact List.mem_append_left _ (sound.included other old)
      · exact List.mem_append_right _ new
    · refine List.forall_mem_append.mpr ⟨sound.holds, ?_⟩
      exact List.forall_mem_singleton.mpr holds

theorem foldl_visit {list : List σ} {search : Search σ}
    (sound : Sound vertices property search)
    (member : ∀ vertex ∈ list, vertex ∈ vertices)
    (holds : ∀ vertex ∈ list, property vertex) :
    Sound vertices property (list.foldl Search.visit search) := by
  induction list generalizing search with
  | nil => exact sound
  | cons vertex list induction =>
      rcases List.forall_mem_cons.mp member with ⟨here, others⟩
      rcases List.forall_mem_cons.mp holds with ⟨first, later⟩
      exact induction (sound.visit here first) others later

theorem length_le {search : Search σ}
    (sound : Sound vertices property search) :
    search.visited.length ≤ vertices.card := by
  rw [← List.toFinset_card_of_nodup sound.nodup]
  exact Finset.card_le_card fun vertex member =>
    sound.inside vertex (List.mem_toFinset.mp member)

end Sound

variable [DecidableEq σ]

/-- One more expansion of a search that has room. -/
theorem room_of_step {fuel : Nat} {visited worklist : List σ} {vertex : σ}
    (enough : vertices.card + (vertex :: worklist).length ≤
      fuel + 1 + visited.length) :
    vertices.card +
        ((successors vertex).foldl Search.visit
          ⟨visited, worklist⟩).worklist.length ≤
      fuel + ((successors vertex).foldl Search.visit
          ⟨visited, worklist⟩).visited.length := by
  have lengths := length_foldl_visit (successors vertex)
    ⟨visited, worklist⟩
  simp only [List.length_cons] at enough lengths ⊢
  omega

/-- A search from several vertices returns a closed list that has them all. -/
theorem explore_returns
    (closed : ∀ vertex ∈ vertices, ∀ next ∈ successors vertex,
      next ∈ vertices)
    (keeps : ∀ vertex, property vertex → ∀ next ∈ successors vertex,
      property next)
    {fuel : Nat} {search : Search σ} (sound : Sound vertices property search)
    (expanded : Expanded successors search)
    (enough : vertices.card + search.worklist.length ≤
      fuel + search.visited.length) :
    ∃ result, explore successors fuel search = some result ∧
      Sound vertices property ⟨result, []⟩ ∧ search.visited ⊆ result ∧
        Expanded successors ⟨result, []⟩ := by
  induction fuel generalizing search with
  | zero =>
      rcases search with ⟨visited, worklist⟩
      cases worklist with
      | nil => exact ⟨visited, rfl, sound, fun _ => id, expanded⟩
      | cons vertex worklist =>
          have bound := sound.length_le
          simp only [List.length_cons] at enough bound
          omega
  | succ fuel induction =>
      rcases search with ⟨visited, worklist⟩
      cases worklist with
      | nil => exact ⟨visited, rfl, sound, fun _ => id, expanded⟩
      | cons vertex worklist =>
          have known := sound.included vertex List.mem_cons_self
          have next := sound.pop.foldl_visit
            (closed vertex (sound.inside vertex known))
            (keeps vertex (sound.holds vertex known))
          rcases induction next expanded.step (room_of_step enough) with
            ⟨result, returned, after, included, done⟩
          refine ⟨result, returned, after, fun other member => ?_, done⟩
          exact included (mem_foldl_visit.mpr (Or.inl member))

/-- The search from several vertices finds exactly what they reach. -/
theorem explore_sources {sources : List σ}
    (closed : ∀ vertex ∈ vertices, ∀ next ∈ successors vertex,
      next ∈ vertices)
    (nodup : sources.Nodup) (inside : ∀ source ∈ sources, source ∈ vertices)
    {fuel : Nat} (enough : vertices.card ≤ fuel) :
    ∃ result, explore successors fuel ⟨sources, sources⟩ = some result ∧
      result.Nodup ∧ ∀ vertex, vertex ∈ result ↔ ∃ source ∈ sources,
        Relation.ReflTransGen (Edge successors) source vertex := by
  have sound : Sound vertices
      (fun vertex => ∃ source ∈ sources,
        Relation.ReflTransGen (Edge successors) source vertex)
      ⟨sources, sources⟩ :=
    Sound.start nodup inside fun source member =>
      ⟨source, member, Relation.ReflTransGen.refl⟩
  rcases explore_returns closed
    (by
      rintro vertex ⟨source, member, reached⟩ next edge
      exact ⟨source, member, reached.tail edge⟩)
    sound (fun _ member waiting => absurd member waiting)
    (Nat.add_le_add_right enough _) with
    ⟨result, returned, after, included, expanded⟩
  refine ⟨result, returned, after.nodup, fun vertex =>
    ⟨after.holds vertex, ?_⟩⟩
  rintro ⟨source, member, reached⟩
  induction reached with
  | refl => exact included member
  | tail _ edge induction =>
      exact expanded _ induction List.not_mem_nil _ edge

/-! ## Searches that stop -/

/-- The search for a vertex that fails the test: `some true` if there is none. -/
def exploreAll (successors : σ → List σ) (test : σ → Bool) :
    Nat → Search σ → Option Bool
  | _, ⟨_, []⟩ => some true
  | 0, ⟨_, _ :: _⟩ => none
  | fuel + 1, ⟨visited, vertex :: worklist⟩ =>
      if test vertex then
        exploreAll successors test fuel
          ((successors vertex).foldl Search.visit ⟨visited, worklist⟩)
      else
        some false

/-- Visited vertices are never forgotten. -/
theorem mem_of_explore {fuel : Nat} {visited worklist result : List σ}
    (explored : explore successors fuel ⟨visited, worklist⟩ = some result)
    {vertex : σ} (member : vertex ∈ visited) : vertex ∈ result := by
  induction fuel generalizing visited worklist with
  | zero =>
      cases worklist with
      | nil => exact Option.some.inj explored ▸ member
      | cons => exact absurd explored (by simp [explore])
  | succ fuel induction =>
      cases worklist with
      | nil => exact Option.some.inj explored ▸ member
      | cons first worklist =>
          exact induction explored (mem_foldl_visit.mpr (Or.inl member))

theorem exploreAll_of_explore {test : σ → Bool} {fuel : Nat}
    {search : Search σ} {done result : List σ}
    (explored : explore successors fuel search = some result)
    (split : search.visited = done ++ search.worklist)
    (passed : ∀ vertex ∈ done, test vertex = true) :
    exploreAll successors test fuel search = some (result.all test) := by
  rcases search with ⟨visited, worklist⟩
  induction fuel generalizing visited worklist done with
  | zero =>
      cases worklist with
      | nil =>
          rcases Option.some.inj explored with rfl
          rw [List.append_nil] at split
          cases split
          rw [exploreAll, List.all_eq_true.mpr passed]
      | cons vertex worklist => exact absurd explored (by simp [explore])
  | succ fuel induction =>
      cases worklist with
      | nil =>
          rcases Option.some.inj explored with rfl
          rw [List.append_nil] at split
          cases split
          rw [exploreAll, List.all_eq_true.mpr passed]
      | cons vertex worklist =>
          rw [exploreAll]
          simp only at split
          have onward : ((successors vertex).foldl Search.visit
              ⟨visited, worklist⟩).visited = (done ++ [vertex]) ++
                ((successors vertex).foldl Search.visit
                  ⟨visited, worklist⟩).worklist :=
            visited_foldl_visit (by simpa using split)
          rw [explore] at explored
          split_ifs with holds
          · have passedNow : ∀ other ∈ done ++ [vertex], test other = true :=
              List.forall_mem_append.mpr
                ⟨passed, List.forall_mem_singleton.mpr holds⟩
            exact induction passedNow _ _ explored onward
          · have member : vertex ∈ result :=
              mem_of_explore explored (by
                rw [onward]
                simp)
            rw [eq_comm, Option.some.injEq, ← Bool.not_eq_true,
              List.all_eq_true]
            exact fun all => holds (all vertex member)

/-- The search that stops decides whether all that is reached passes the test. -/
theorem exploreAll_spec {source : σ} {test : σ → Bool}
    (closed : ∀ vertex ∈ vertices, ∀ next ∈ successors vertex,
      next ∈ vertices)
    (start : source ∈ vertices) {fuel : Nat} (enough : vertices.card ≤ fuel) :
    ∃ answer, exploreAll successors test fuel ⟨[source], [source]⟩ =
        some answer ∧
      (answer = true ↔ ∀ vertex,
        Relation.ReflTransGen (Edge successors) source vertex →
          test vertex = true) := by
  rcases exploreFrom_spec closed start enough with
    ⟨result, explored, _, reached⟩
  refine ⟨result.all test, exploreAll_of_explore explored
    (List.nil_append _).symm (fun _ member => absurd member List.not_mem_nil),
    ?_⟩
  rw [List.all_eq_true]
  exact forall_congr' fun vertex => imp_congr_left (reached vertex)

end SafetyGames.Worklist
