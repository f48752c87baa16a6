import Mathlib.Data.Finset.Card
import Mathlib.Data.List.Nodup
import Mathlib.Logic.Relation
import Mathlib.Tactic.Ring

/-!
# Worklist search

The search of a finite graph with a list of visited vertices and a worklist.
Inside a finite set of vertices it ends, visits every vertex once, and visits
exactly the vertices that the first one reaches.
-/

namespace SafetyGames.Worklist

variable {σ : Type*} [DecidableEq σ] (successors : σ → List σ)

/-- The visited vertices, and those of them that are still to be expanded. -/
structure Search (σ : Type*) where
  visited : List σ
  worklist : List σ

/-- A vertex that is not visited yet is added to both lists. -/
def Search.visit (search : Search σ) (vertex : σ) : Search σ :=
  if vertex ∈ search.visited then search
  else
    { visited := search.visited ++ [vertex]
      worklist := search.worklist ++ [vertex] }

/-- The visited vertices once the worklist is empty. -/
def explore : Nat → Search σ → Option (List σ)
  | _, ⟨visited, []⟩ => some visited
  | 0, ⟨_, _ :: _⟩ => none
  | fuel + 1, ⟨visited, vertex :: worklist⟩ =>
      explore fuel ((successors vertex).foldl Search.visit ⟨visited, worklist⟩)

/-- The search from one vertex. -/
def exploreFrom (fuel : Nat) (source : σ) : Option (List σ) :=
  explore successors fuel ⟨[source], [source]⟩

/-- One edge of the graph. -/
def Edge (source target : σ) : Prop :=
  target ∈ successors source

/-- What the search keeps: the expanded vertices have visited successors. -/
structure Valid (source : σ) (vertices : Finset σ) (search : Search σ) :
    Prop where
  nodup : search.visited.Nodup
  inside : ∀ vertex ∈ search.visited, vertex ∈ vertices
  included : ∀ vertex ∈ search.worklist, vertex ∈ search.visited
  found : source ∈ search.visited
  reached : ∀ vertex ∈ search.visited,
    Relation.ReflTransGen (Edge successors) source vertex

variable {successors} {source : σ} {vertices : Finset σ}

namespace Valid

omit [DecidableEq σ] in
theorem start (member : source ∈ vertices) :
    Valid successors source vertices ⟨[source], [source]⟩ := by
  refine ⟨List.nodup_singleton _, ?_, fun _ => id,
    List.mem_singleton_self _, ?_⟩
  · intro vertex isSource
    exact List.mem_singleton.mp isSource ▸ member
  · intro vertex isSource
    exact List.mem_singleton.mp isSource ▸ Relation.ReflTransGen.refl

omit [DecidableEq σ] in
theorem pop {visited worklist : List σ} {vertex : σ}
    (valid : Valid successors source vertices ⟨visited, vertex :: worklist⟩) :
    Valid successors source vertices ⟨visited, worklist⟩ :=
  ⟨valid.nodup, valid.inside,
    fun other member => valid.included other (List.mem_cons_of_mem _ member),
    valid.found, valid.reached⟩

/-- Visiting successors of a reached vertex. -/
theorem visit {search : Search σ} (valid : Valid successors source vertices search)
    {vertex : σ} (member : vertex ∈ vertices)
    (reached : Relation.ReflTransGen (Edge successors) source vertex) :
    Valid successors source vertices (search.visit vertex) := by
  by_cases known : vertex ∈ search.visited
  · rwa [Search.visit, if_pos known]
  · rw [Search.visit, if_neg known]
    refine ⟨?_, ?_, ?_, List.mem_append_left _ valid.found, ?_⟩
    · refine List.nodup_append.mpr
        ⟨valid.nodup, List.nodup_singleton _, ?_⟩
      rintro old inOld new isNew rfl
      exact known (List.mem_singleton.mp isNew ▸ inOld)
    · intro other inside
      rcases List.mem_append.mp inside with old | new
      · exact valid.inside other old
      · exact List.mem_singleton.mp new ▸ member
    · intro other inside
      rcases List.mem_append.mp inside with old | new
      · exact List.mem_append_left _ (valid.included other old)
      · exact List.mem_append_right _ new
    · intro other inside
      rcases List.mem_append.mp inside with old | new
      · exact valid.reached other old
      · exact List.mem_singleton.mp new ▸ reached

theorem foldl_visit {list : List σ} {search : Search σ}
    (valid : Valid successors source vertices search)
    (member : ∀ vertex ∈ list, vertex ∈ vertices)
    (reached : ∀ vertex ∈ list,
      Relation.ReflTransGen (Edge successors) source vertex) :
    Valid successors source vertices (list.foldl Search.visit search) := by
  induction list generalizing search with
  | nil => exact valid
  | cons vertex list induction =>
      exact induction
        (valid.visit (member vertex List.mem_cons_self)
          (reached vertex List.mem_cons_self))
        (fun other inside => member other (List.mem_cons_of_mem _ inside))
        (fun other inside => reached other (List.mem_cons_of_mem _ inside))

end Valid

/-- Every vertex of the list is visited afterwards, and nothing is forgotten. -/
theorem mem_foldl_visit {list : List σ} {search : Search σ} {vertex : σ} :
    vertex ∈ (list.foldl Search.visit search).visited ↔
      vertex ∈ search.visited ∨ vertex ∈ list := by
  induction list generalizing search with
  | nil => simp
  | cons first list induction =>
      rw [List.foldl_cons, induction, List.mem_cons, Search.visit]
      split_ifs with known
      · constructor
        · rintro (old | later)
          · exact Or.inl old
          · exact Or.inr (Or.inr later)
        · rintro (old | rfl | later)
          · exact Or.inl old
          · exact Or.inl known
          · exact Or.inr later
      · simp [or_assoc]

/-- What is added to the worklist is added to the visited vertices. -/
theorem length_foldl_visit (list : List σ) (search : Search σ) :
    (list.foldl Search.visit search).worklist.length + search.visited.length =
      search.worklist.length +
        (list.foldl Search.visit search).visited.length := by
  induction list generalizing search with
  | nil => rw [List.foldl_nil, Nat.add_comm]
  | cons vertex list induction =>
      rw [List.foldl_cons]
      have rest := induction (search.visit vertex)
      have here : (search.visit vertex).worklist.length +
          search.visited.length =
            search.worklist.length + (search.visit vertex).visited.length := by
        rw [Search.visit]
        split_ifs
        · rw [Nat.add_comm]
        · simp only [List.length_append, List.length_singleton]
          ring
      omega

/-- A worklist of visited vertices that is expanded keeps the visited ones. -/
theorem mem_foldl_visit_worklist {list : List σ} {search : Search σ}
    {vertex : σ} (member : vertex ∈ search.worklist) :
    vertex ∈ (list.foldl Search.visit search).worklist := by
  induction list generalizing search with
  | nil => exact member
  | cons first list induction =>
      refine induction ?_
      rw [Search.visit]
      split_ifs
      · exact member
      · exact List.mem_append_left _ member

/-- A vertex visited by the fold is in its worklist. -/
theorem worklist_of_new {list : List σ} {search : Search σ} {vertex : σ}
    (visited : vertex ∈ (list.foldl Search.visit search).visited)
    (new : vertex ∉ search.visited) :
    vertex ∈ (list.foldl Search.visit search).worklist := by
  induction list generalizing search with
  | nil => exact absurd visited new
  | cons first list induction =>
      rw [List.foldl_cons] at visited ⊢
      by_cases known : first ∈ search.visited
      · rw [Search.visit, if_pos known] at visited ⊢
        exact induction visited new
      · by_cases same : vertex = first
        · subst same
          apply mem_foldl_visit_worklist
          rw [Search.visit, if_neg known]
          exact List.mem_append_right _ (List.mem_singleton_self _)
        · refine induction visited ?_
          rw [Search.visit, if_neg known]
          intro member
          rcases List.mem_append.mp member with old | isFirst
          · exact new old
          · exact same (List.mem_singleton.mp isFirst)

/-- Every visited vertex that is not in the worklist has visited successors. -/
def Expanded (successors : σ → List σ) (search : Search σ) : Prop :=
  ∀ vertex ∈ search.visited, vertex ∉ search.worklist →
    ∀ next ∈ successors vertex, next ∈ search.visited

theorem Expanded.step {visited worklist : List σ} {vertex : σ}
    (expanded : Expanded successors ⟨visited, vertex :: worklist⟩) :
    Expanded successors
      ((successors vertex).foldl Search.visit ⟨visited, worklist⟩) := by
  intro other inside done next edge
  rw [mem_foldl_visit]
  by_cases old : other ∈ visited
  · by_cases same : other = vertex
    · exact Or.inr (same ▸ edge)
    · refine Or.inl (expanded other old ?_ next edge)
      intro waiting
      rcases List.mem_cons.mp waiting with isVertex | later
      · exact same isVertex
      · exact done (mem_foldl_visit_worklist later)
  · exact absurd (worklist_of_new inside old) done

/-- The search returns, and its result is closed under the edges. -/
theorem explore_spec
    (closed : ∀ vertex ∈ vertices, ∀ next ∈ successors vertex,
      next ∈ vertices)
    {fuel : Nat} {search : Search σ}
    (valid : Valid successors source vertices search)
    (expanded : Expanded successors search)
    (enough : vertices.card + search.worklist.length ≤
      fuel + search.visited.length) :
    ∃ result, explore successors fuel search = some result ∧
      Valid successors source vertices ⟨result, []⟩ ∧
        Expanded successors ⟨result, []⟩ := by
  induction fuel generalizing search with
  | zero =>
      rcases search with ⟨visited, worklist⟩
      cases worklist with
      | nil => exact ⟨visited, rfl, valid, expanded⟩
      | cons vertex worklist =>
          have bound : visited.length ≤ vertices.card := by
            rw [← List.toFinset_card_of_nodup valid.nodup]
            exact Finset.card_le_card fun other member =>
              valid.inside other (List.mem_toFinset.mp member)
          simp only [List.length_cons] at enough
          omega
  | succ fuel induction =>
      rcases search with ⟨visited, worklist⟩
      cases worklist with
      | nil => exact ⟨visited, rfl, valid, expanded⟩
      | cons vertex worklist =>
          have known := valid.included vertex List.mem_cons_self
          have next := valid.pop.foldl_visit
            (closed vertex (valid.inside vertex known))
            (fun other edge => (valid.reached vertex known).tail edge)
          refine induction next expanded.step ?_
          have lengths := length_foldl_visit (successors vertex)
            ⟨visited, worklist⟩
          simp only [List.length_cons] at enough lengths ⊢
          omega

/-- Inside a closed finite set the search ends with exactly the vertices reached. -/
theorem exploreFrom_spec
    (closed : ∀ vertex ∈ vertices, ∀ next ∈ successors vertex,
      next ∈ vertices)
    (start : source ∈ vertices) {fuel : Nat} (enough : vertices.card ≤ fuel) :
    ∃ result, exploreFrom successors fuel source = some result ∧
      result.Nodup ∧ ∀ vertex, vertex ∈ result ↔
        Relation.ReflTransGen (Edge successors) source vertex := by
  rcases explore_spec closed (Valid.start start)
    (fun _ member waiting => absurd member waiting)
    (by simpa using enough) with ⟨result, returned, valid, expanded⟩
  refine ⟨result, returned, valid.nodup, fun vertex =>
    ⟨valid.reached vertex, fun reached => ?_⟩⟩
  induction reached with
  | refl => exact valid.found
  | tail _ edge induction =>
      exact expanded _ induction List.not_mem_nil _ edge

/-! ## Searches that compute -/

section Accumulating

variable {β : Type*}

/-- The search with a value to which every expanded vertex contributes. -/
def exploreWith (successors : σ → List σ) (body : β → σ → β) :
    Nat → Search σ → β → Option β
  | _, ⟨_, []⟩, value => some value
  | 0, ⟨_, _ :: _⟩, _ => none
  | fuel + 1, ⟨visited, vertex :: worklist⟩, value =>
      exploreWith successors body fuel
        ((successors vertex).foldl Search.visit ⟨visited, worklist⟩)
        (body value vertex)

/-- The visited vertices are the expanded ones, then the worklist. -/
theorem visited_foldl_visit {list done : List σ} {search : Search σ}
    (split : search.visited = done ++ search.worklist) :
    (list.foldl Search.visit search).visited =
      done ++ (list.foldl Search.visit search).worklist := by
  induction list generalizing search with
  | nil => exact split
  | cons vertex list induction =>
      refine induction ?_
      rw [Search.visit]
      split_ifs
      · exact split
      · rw [split, List.append_assoc]

theorem head_foldl_visit {list : List σ} {search : Search σ}
    (head : search.visited.head? = some source) :
    (list.foldl Search.visit search).visited.head? = some source := by
  induction list generalizing search with
  | nil => exact head
  | cons vertex list induction =>
      refine induction ?_
      rw [Search.visit]
      split_ifs
      · exact head
      · simp [head]

theorem exploreWith_of_explore {body : β → σ → β} {P : List σ → β → Prop}
    (step : ∀ done vertex value, (done = [] ↔ vertex = source) →
      vertex ∉ done → Relation.ReflTransGen (Edge successors) source vertex →
        P done value → P (done ++ [vertex]) (body value vertex))
    (closed : ∀ vertex ∈ vertices, ∀ next ∈ successors vertex,
      next ∈ vertices)
    {fuel : Nat} {search : Search σ} {done result : List σ} {value : β}
    (explored : explore successors fuel search = some result)
    (split : search.visited = done ++ search.worklist)
    (head : search.visited.head? = some source)
    (valid : Valid successors source vertices search)
    (holds : P done value) :
    ∃ after, exploreWith successors body fuel search value = some after ∧
      P result after := by
  rcases search with ⟨visited, worklist⟩
  induction fuel generalizing visited worklist done value with
  | zero =>
      cases worklist with
      | nil =>
          rcases Option.some.inj explored with rfl
          obtain rfl : visited = done := by simpa using split
          exact ⟨value, rfl, holds⟩
      | cons vertex worklist => exact absurd explored (by simp [explore])
  | succ fuel induction =>
      cases worklist with
      | nil =>
          rcases Option.some.inj explored with rfl
          obtain rfl : visited = done := by simpa using split
          exact ⟨value, rfl, holds⟩
      | cons vertex worklist =>
          have known := valid.included vertex List.mem_cons_self
          simp only at split head
          have nodup := valid.nodup
          simp only [split, List.nodup_append, List.nodup_cons] at nodup
          have new : vertex ∉ done := fun member =>
            nodup.2.2 vertex member vertex List.mem_cons_self rfl
          have first : done = [] ↔ vertex = source := by
            rw [split] at head
            cases done with
            | nil => simpa using head
            | cons other done =>
                simp only [List.cons_append, List.head?_cons,
                  Option.some.injEq] at head
                refine iff_of_false (List.cons_ne_nil _ _) ?_
                rintro rfl
                exact new (head ▸ List.mem_cons_self)
          have reached := valid.reached vertex known
          exact induction (step done vertex value first new reached holds) _ _
            explored (visited_foldl_visit (by simpa using split))
            (head_foldl_visit head)
            (valid.pop.foldl_visit (closed vertex (valid.inside vertex known))
              fun other edge => reached.tail edge)

/-- What every expansion keeps holds of the value that the search from one
vertex ends with; the vertices expanded are those it reaches. -/
theorem exploreWith_spec {body : β → σ → β} {P : List σ → β → Prop}
    (step : ∀ done vertex value, (done = [] ↔ vertex = source) →
      vertex ∉ done → Relation.ReflTransGen (Edge successors) source vertex →
        P done value → P (done ++ [vertex]) (body value vertex))
    (closed : ∀ vertex ∈ vertices, ∀ next ∈ successors vertex,
      next ∈ vertices)
    (start : source ∈ vertices) {fuel : Nat} (enough : vertices.card ≤ fuel)
    {value : β} (initially : P [] value) :
    ∃ done after,
      exploreWith successors body fuel ⟨[source], [source]⟩ value =
          some after ∧
        P done after ∧ ∀ vertex, vertex ∈ done ↔
          Relation.ReflTransGen (Edge successors) source vertex := by
  rcases exploreFrom_spec closed start enough with ⟨result, explored, _, reached⟩
  rcases exploreWith_of_explore step closed
    explored (List.nil_append _).symm rfl (Valid.start start) initially with
    ⟨after, returned, holds⟩
  exact ⟨result, after, returned, holds, reached⟩

end Accumulating

/-! ## Trees -/

section Traverse

omit [DecidableEq σ]

/-- The queue of a traversal that does not look for visited vertices. -/
def traverse (successors : σ → List σ) : Nat → List σ → Option (List σ)
  | _, [] => some []
  | 0, _ :: _ => none
  | fuel + 1, vertex :: queue =>
      (traverse successors fuel (queue ++ successors vertex)).map (vertex :: ·)

theorem traverse_succ {fuel : Nat} {vertex : σ} {queue result : List σ}
    (returns : traverse successors (fuel + 1) (vertex :: queue) = some result) :
    ∃ rest, traverse successors fuel (queue ++ successors vertex) = some rest ∧
      result = vertex :: rest := by
  rw [traverse, Option.map_eq_some_iff] at returns
  rcases returns with ⟨rest, returned, rfl⟩
  exact ⟨rest, returned, rfl⟩

/-- A traversal that returns has met everything that the queue reaches. -/
theorem mem_traverse_of_reached {fuel : Nat} {queue result : List σ}
    (returns : traverse successors fuel queue = some result)
    {source target : σ} (member : source ∈ queue)
    (reached : Relation.ReflTransGen (Edge successors) source target) :
    target ∈ result := by
  induction fuel generalizing queue result source with
  | zero =>
      cases queue with
      | nil => exact absurd member List.not_mem_nil
      | cons => exact absurd returns (by simp [traverse])
  | succ fuel induction =>
      cases queue with
      | nil => exact absurd member List.not_mem_nil
      | cons vertex queue =>
          rcases traverse_succ returns with ⟨rest, returned, rfl⟩
          rcases List.mem_cons.mp member with rfl | later
          · rcases Relation.ReflTransGen.cases_head reached with
              rfl | ⟨middle, edge, tail⟩
            · exact List.mem_cons_self
            · exact List.mem_cons_of_mem _
                (induction returned (List.mem_append_right _ edge) tail)
          · exact List.mem_cons_of_mem _
              (induction returned (List.mem_append_left _ later) reached)

/-- A traversal meets nothing that the queue does not reach. -/
theorem reached_of_mem_traverse {fuel : Nat} {queue result : List σ}
    (returns : traverse successors fuel queue = some result) {target : σ}
    (member : target ∈ result) :
    ∃ source ∈ queue,
      Relation.ReflTransGen (Edge successors) source target := by
  induction fuel generalizing queue result with
  | zero =>
      cases queue with
      | nil =>
          obtain rfl : [] = result := by simpa [traverse] using returns
          exact absurd member List.not_mem_nil
      | cons => exact absurd returns (by simp [traverse])
  | succ fuel induction =>
      cases queue with
      | nil =>
          obtain rfl : [] = result := by simpa [traverse] using returns
          exact absurd member List.not_mem_nil
      | cons vertex queue =>
          rcases traverse_succ returns with ⟨rest, returned, rfl⟩
          rcases List.mem_cons.mp member with rfl | later
          · exact ⟨target, List.mem_cons_self, Relation.ReflTransGen.refl⟩
          · rcases induction returned later with ⟨source, inQueue, reached⟩
            rcases List.mem_append.mp inQueue with old | new
            · exact ⟨source, List.mem_cons_of_mem _ old, reached⟩
            · exact ⟨vertex, List.mem_cons_self, reached.head new⟩

/-- Nothing was met twice, and what was met is the root or a successor of what
is done. -/
structure Frontier (successors : σ → List σ) (vertices : Finset σ) (root : σ)
    (done queue : List σ) : Prop where
  distinct : (done ++ queue).Nodup
  known : ∀ vertex ∈ done ++ queue, vertex ∈ vertices
  reached : ∀ vertex ∈ done ++ queue, vertex = root ∨
    ∃ before ∈ done, vertex ∈ successors before

section Tree

variable {vertices : Finset σ} {root : σ}

theorem Frontier.length_le {done queue : List σ}
    (frontier : Frontier successors vertices root done queue) :
    (done ++ queue).length ≤ vertices.card := by
  classical
  rw [← List.toFinset_card_of_nodup frontier.distinct]
  exact Finset.card_le_card fun vertex member =>
    frontier.known vertex (List.mem_toFinset.mp member)

variable (inside : ∀ vertex next, next ∈ successors vertex → next ∈ vertices)
  (nodup : ∀ vertex, (successors vertex).Nodup)
  (noParent : ∀ vertex, root ∉ successors vertex)
  (parent : ∀ left right next, next ∈ successors left →
    next ∈ successors right → left = right)
include inside nodup noParent parent

/-- A successor met before would have another parent. -/
theorem Frontier.next {done queue : List σ} {vertex : σ}
    (frontier : Frontier successors vertices root done (vertex :: queue)) :
    Frontier successors vertices root (done ++ [vertex])
      (queue ++ successors vertex) := by
  rcases frontier with ⟨distinct, known, reached⟩
  have vertexNew : vertex ∉ done := by
    intro old
    exact (List.nodup_append.mp distinct).2.2 vertex old vertex
      List.mem_cons_self rfl
  rw [List.append_cons] at distinct known reached
  have fresh : ∀ next ∈ successors vertex,
      next ∉ (done ++ [vertex]) ++ queue := by
    intro next edge member
    rcases reached next member with rfl | ⟨before, old, otherEdge⟩
    · exact noParent vertex edge
    · exact vertexNew (parent _ _ _ otherEdge edge ▸ old)
  constructor <;> rw [← List.append_assoc]
  · apply List.nodup_append.mpr ⟨distinct, nodup vertex, _⟩
    rintro other old next new rfl
    exact fresh other new old
  · exact List.forall_mem_append.mpr ⟨known, inside vertex⟩
  · refine List.forall_mem_append.mpr ⟨?_, ?_⟩
    · intro other member
      rcases reached other member with isRoot | ⟨before, old, edge⟩
      · exact Or.inl isRoot
      · exact Or.inr ⟨before, List.mem_append_left _ old, edge⟩
    · intro other edge
      exact Or.inr
        ⟨vertex, List.mem_append_right _ (List.mem_singleton_self _), edge⟩

/-- In a tree nothing is met twice, so that the traversal ends. -/
theorem Frontier.traverse_returns {fuel : Nat} {done queue : List σ}
    (frontier : Frontier successors vertices root done queue)
    (enough : vertices.card ≤ fuel + done.length) :
    ∃ result, traverse successors fuel queue = some result := by
  induction fuel generalizing done queue with
  | zero =>
      have small := frontier.length_le
      cases queue with
      | nil => exact ⟨[], rfl⟩
      | cons vertex queue =>
          simp only [List.length_append, List.length_cons] at small
          omega
  | succ fuel induction =>
      cases queue with
      | nil => exact ⟨[], rfl⟩
      | cons vertex queue =>
          have more : vertices.card ≤ fuel + (done ++ [vertex]).length := by
            rw [List.length_append, List.length_singleton]
            omega
          rcases induction
              (Frontier.next inside nodup noParent parent frontier) more with
            ⟨result, returned⟩
          exact ⟨vertex :: result, by rw [traverse, returned]; rfl⟩

end Tree

end Traverse

end SafetyGames.Worklist
