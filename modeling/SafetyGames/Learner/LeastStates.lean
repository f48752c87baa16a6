import SafetyGames.Learner.Conjecture
import SafetyGames.Learner.Solutions

/-!
# Least numbers of states

The search of the learner passes no number of states that suffices for the
sample, as long as its problems decide whether one suffices: the names of the
cells are apart, and where an automaton is consistent with the sample, one with
short witnesses is.  The numbers passed for a smaller sample stay too small.
-/

namespace SafetyGames.Learner

open SafetyGames.Transducer

/-- The problem with this sample and number of states decides whether the number
suffices: no names clash, and short witnesses are enough. -/
structure Decided (alphabet : List JChar) (debug : Bool)
    (problem : Sample × Nat) : Prop where
  within : problem.1.Over alphabet
  apart : debug = true → NoClash alphabet problem.1
  short : Learnable alphabet problem.1 problem.2 →
    ShortLearnable alphabet problem.1 problem.2

section Least

variable {order : StateOrder} {alphabet : List JChar} {debug : Bool}
  {s : Sample} {n m : Nat} {tried : List Nat} {dfa : Automaton}

/-- In the normal mode, and without a clash, the satisfiable problems are those
with an automaton that has short witnesses. -/
theorem satisfiable_iff_shortLearnable (positive : 0 < n)
    (apart : debug = true → NoClash alphabet s) (within : s.Over alphabet) :
    Satisfiable order alphabet debug s n ↔ ShortLearnable alphabet s n := by
  rw [satisfiable_iff_of_noClash positive apart]
  exact satisfiable_iff positive within

theorem Learnable.of_included {later : Sample}
    (learnable : Learnable alphabet later n) (included : s.Included later) :
    Learnable alphabet s n :=
  learnable.imp fun _ consistent => consistent.of_included included

/-- A number of states that was tried in vain is too small. -/
theorem Decided.not_learnable (decided : Decided alphabet debug (s, n))
    (unsatisfiable : Unsatisfiable order alphabet debug s n) :
    ¬ Learnable alphabet s n := by
  intro learnable
  have short := decided.short learnable
  have positive : 0 < n := by
    rcases short with ⟨M, _⟩
    exact Fin.pos M.start
  have satisfiable : Satisfiable order alphabet debug s n :=
    (satisfiable_iff_shortLearnable positive decided.apart decided.within).mpr
      short
  exact satisfiable.not_unsatisfiable unsatisfiable

/-- The numbers of states that a search tries in vain are too small. -/
theorem Search.not_learnable
    (search : Search alphabet debug s n tried m dfa)
    (decided : ∀ k ∈ tried, Decided alphabet debug (s, k))
    {k : Nat} (first : n ≤ k) (last : k < m) :
    ¬ Learnable alphabet s k := by
  induction search with
  | satisfiable => exact absurd first (Nat.not_le_of_lt last)
  | @unsatisfiable n order unsatisfiable tried m dfa _ induction =>
      rcases Nat.eq_or_lt_of_le first with rfl | later
      · exact (decided n List.mem_cons_self).not_learnable unsatisfiable
      · exact induction
          (fun k member => decided k (List.mem_cons_of_mem n member)) later last

/-- Below the number of states at which a learner resumes none suffices. -/
theorem Session.not_learnable {problems : List (Sample × Nat)}
    {learner : Learner} (session : Session alphabet debug problems learner)
    (decided : ∀ problem ∈ problems, Decided alphabet debug problem)
    {k : Nat} (positive : 0 < k) (less : k < learner.n) :
    ¬ Learnable alphabet learner.s k := by
  induction session with
  | new => exact absurd positive (Nat.not_lt_of_le (Nat.le_of_lt_succ less))
  | @conjecture problems learner earlier tried m dfa search induction =>
      rcases List.forall_mem_append.mp decided with ⟨before, now⟩
      rw [List.forall_mem_map] at now
      rcases Nat.lt_or_ge k learner.n with small | large
      · exact induction before small
      · exact search.not_learnable now large less
  | add earlier automataEqual addition induction =>
      intro learnable
      exact induction decided less
        (learnable.of_included Sample.included_add)

theorem Search.mem_tried (search : Search alphabet debug s n tried m dfa) :
    n ∈ tried := by
  cases search with
  | satisfiable => exact List.mem_singleton_self n
  | unsatisfiable => exact List.mem_cons_self

/-- The result of a search in a session is the least number of states that
suffices. -/
theorem Session.isLeast {problems : List (Sample × Nat)} {learner : Learner}
    (session : Session alphabet debug problems learner)
    (search : Search alphabet debug learner.s learner.n tried m dfa)
    (decided : ∀ problem ∈ problems ++ tried.map (learner.s, ·),
      Decided alphabet debug problem) :
    IsLeast {k | 0 < k ∧ Learnable alphabet learner.s k} m := by
  have now := (List.forall_mem_append.mp decided).2
  rw [List.forall_mem_map] at now
  refine ⟨search.learnable (now _ search.mem_tried).within, ?_⟩
  rintro k ⟨positive, learnable⟩
  by_contra less
  exact (session.conjecture search).not_learnable decided positive
    (Nat.lt_of_not_le less) learnable

end Least

end SafetyGames.Learner
