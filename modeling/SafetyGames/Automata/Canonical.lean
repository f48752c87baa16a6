import SafetyGames.Automata.MinimizeSpec

/-!
# Minimal automata

No deterministic automaton of the same language has fewer states than a
minimal one, and minimal automata of one language have the same numbers of
states and of transitions.
-/

namespace SafetyGames.Automata

open SafetyGames.Transducer SafetyGames.Teacher SafetyGames.LabelledPath

/-- `getNumberOfTransitions()`. -/
def getNumberOfTransitions (a : Automaton) : Nat :=
  (a.getStates.map fun ref => (a.state ref).transitions.length).sum

/-! ## States that one word leads to -/

/-- Some word leads to both states. -/
def Joined (a b : Automaton) (p q : Nat) : Prop :=
  ∃ word, Path a.states.Step a.initial word p ∧
    Path b.states.Step b.initial word q

section Joined

variable {a b : Automaton}

theorem Joined.symm {p q : Nat} (joined : Joined a b p q) : Joined b a q p := by
  rcases joined with ⟨word, first, second⟩
  exact ⟨word, second, first⟩

theorem Joined.accepts_iff
    (deterministicA : a.states.DeterministicFrom a.initial)
    (deterministicB : b.states.DeterministicFrom b.initial)
    (same : a.lang = b.lang) {p q : Nat} (joined : Joined a b p q)
    (word : Word) :
    a.states.Accepts p word ↔ b.states.Accepts q word := by
  rcases joined with ⟨before, first, second⟩
  rw [← deterministicA.accepts_append_iff first,
    ← deterministicB.accepts_append_iff second]
  exact Set.ext_iff.mp same (before ++ word)

/-- A word that leads to a state of a live automaton leads to a state of every
automaton of the language. -/
theorem exists_joined (live : ∀ ref, a.Reachable ref →
      ∀ transition ∈ (a.state ref).transitions,
        ∃ word, a.states.Accepts transition.dest word)
    (same : a.lang = b.lang) {p : Nat} (reachable : a.Reachable p) :
    ∃ q, Joined a b p q := by
  rcases reachable with ⟨word, path⟩
  have onward : ∃ rest, word = [] ∨ a.states.Accepts p rest := by
    cases word using List.reverseRecOn with
    | nil => exact ⟨[], Or.inl rfl⟩
    | append_singleton word c =>
        rcases Path.snoc_iff.mp path with ⟨before, path', t, inState, _, rfl⟩
        rcases live before ⟨word, path'⟩ t inState with ⟨rest, accepts⟩
        exact ⟨rest, Or.inr accepts⟩
  rcases onward with ⟨rest, rfl | ⟨target, after, accept⟩⟩
  · exact ⟨b.initial, [], path, Path.nil _⟩
  · have accepted : word ++ rest ∈ b.lang :=
      same ▸ ⟨target, path.append after, accept⟩
    rcases accepted with ⟨_, whole, _⟩
    rcases Path.append_iff.mp whole with ⟨q, before, _⟩
    exact ⟨q, word, path, before⟩

end Joined

/-! ## Numbers of states -/

section States

variable {a b : Automaton}

/-- A function that picks a joined state. -/
theorem exists_matching (live : ∀ ref, a.Reachable ref →
      ∀ transition ∈ (a.state ref).transitions,
        ∃ word, a.states.Accepts transition.dest word)
    (same : a.lang = b.lang) :
    ∃ f : Nat → Nat, ∀ p, a.Reachable p → Joined a b p (f p) := by
  classical
  have chosen : ∀ p, ∃ q, a.Reachable p → Joined a b p q := by
    intro p
    by_cases reachable : a.Reachable p
    · rcases exists_joined live same reachable with ⟨q, joined⟩
      exact ⟨q, fun _ => joined⟩
    · exact ⟨0, fun known => absurd known reachable⟩
  choose f joined using chosen
  exact ⟨f, joined⟩

/-- States joined with one state are equal in a distinguished automaton. -/
theorem Joined.unique (deterministicA : a.states.DeterministicFrom a.initial)
    (deterministicB : b.states.DeterministicFrom b.initial)
    (distinguished : Distinguished a) (same : a.lang = b.lang)
    {p p' q : Nat} (joined : Joined a b p q) (joined' : Joined a b p' q) :
    p = p' := by
  rcases joined with ⟨word, first, second⟩
  rcases joined' with ⟨word', first', second'⟩
  refine distinguished p p' ⟨word, first⟩ ⟨word', first'⟩ fun rest => ?_
  have left := Joined.accepts_iff deterministicA deterministicB same
    ⟨word, first, second⟩ rest
  have right := Joined.accepts_iff deterministicA deterministicB same
    ⟨word', first', second'⟩ rest
  exact left.trans right.symm

/-- The states of a minimal automaton are joined with different states. -/
theorem Minimal.matching_nodup (minimal : Minimal a)
    (deterministic : b.states.DeterministicFrom b.initial)
    (same : a.lang = b.lang) {f : Nat → Nat}
    (joined : ∀ p, a.Reachable p → Joined a b p (f p)) :
    (a.getStates.map f).Nodup := by
  refine List.Nodup.map_on (fun p inP q inQ equal => ?_)
    Automaton.nodup_getStates
  have first := joined p (Automaton.mem_getStates.mp inP)
  have second := joined q (Automaton.mem_getStates.mp inQ)
  rw [equal] at first
  exact first.unique minimal.deterministicFrom deterministic
    minimal.distinguished same second

theorem matching_subset {f : Nat → Nat}
    (joined : ∀ p, a.Reachable p → Joined a b p (f p)) :
    a.getStates.map f ⊆ b.getStates := by
  intro q member
  rcases List.mem_map.mp member with ⟨p, inP, rfl⟩
  rcases joined p (Automaton.mem_getStates.mp inP) with ⟨word, _, path⟩
  exact Automaton.mem_getStates.mpr ⟨word, path⟩

/-- No deterministic automaton of the language has fewer states. -/
theorem Minimal.getNumberOfStates_le (minimal : Minimal a)
    (deterministic : b.states.DeterministicFrom b.initial)
    (same : a.lang = b.lang) :
    a.getNumberOfStates ≤ b.getNumberOfStates := by
  rcases exists_matching minimal.invariants.live same with ⟨f, joined⟩
  have distinct := minimal.matching_nodup deterministic same joined
  have bound := (distinct.subperm (matching_subset joined)).length_le
  rwa [List.length_map] at bound

end States

/-! ## Numbers of transitions -/

section Transitions

/-- A greatest interval of numbers with a property. -/
structure Greatest (property : Nat → Prop) (low high : Nat) : Prop where
  proper : low ≤ high
  inside : ∀ point, low ≤ point → point ≤ high → property point
  below : ∀ point, point + 1 = low → ¬ property point
  above : ¬ property (high + 1)

/-- The numbers of the characters that lead from a state to another one. -/
def Leads (a : Automaton) (source target point : Nat) : Prop :=
  point ≤ maxValue ∧ a.states.Step source (toChar point) target

variable {a b : Automaton}

theorem leads_of_reads {source : Nat} {t : Transition}
    (inState : t ∈ (a.state source).transitions) {point : Nat}
    (lower : t.min.toNat ≤ point) (upper : point ≤ t.max.toNat) :
    Leads a source t.dest point := by
  have bound := upper.trans (toNat_le_maxValue _)
  refine ⟨bound, t, inState, ?_, rfl⟩
  rw [← interval_has, toNat_toChar bound]
  exact ⟨lower, upper⟩

theorem exists_reads {source target point : Nat}
    (leads : Leads a source target point) :
    ∃ t ∈ (a.state source).transitions, t.dest = target ∧
      t.min.toNat ≤ point ∧ point ≤ t.max.toNat := by
  rcases leads with ⟨bound, t, inState, reads, dest⟩
  rw [← interval_has, toNat_toChar bound] at reads
  exact ⟨t, inState, dest, reads⟩

/-- The transitions of a reduced state are the greatest intervals. -/
theorem mem_transitions_iff {source : Nat}
    (reduced : Reduced (a.state source).transitions) (t : Transition) :
    t ∈ (a.state source).transitions ↔
      Greatest (Leads a source t.dest) t.min.toNat t.max.toNat := by
  have apart : ∀ u ∈ (a.state source).transitions,
      ∀ v ∈ (a.state source).transitions, u.dest = v.dest → u ≠ v →
        u.max.toNat + 1 < v.min.toNat ∨ v.max.toNat + 1 < u.min.toNat :=
    fun u inU v inV same different => reduced.forall inU inV different same
  constructor
  · intro inState
    refine ⟨interval_proper t, fun point => leads_of_reads inState, ?_, ?_⟩
    · intro point next leads
      rcases exists_reads leads with ⟨u, inU, same, lower, upper⟩
      have different : u ≠ t := by
        rintro rfl
        omega
      have order := interval_proper t
      simp only [interval] at order
      rcases apart u inU t inState same different with before | after <;> omega
    · intro leads
      rcases exists_reads leads with ⟨u, inU, same, lower, upper⟩
      have different : u ≠ t := by
        rintro rfl
        omega
      have order := interval_proper t
      simp only [interval] at order
      rcases apart u inU t inState same different with before | after <;> omega
  · rintro ⟨proper, inside, below, above⟩
    rcases exists_reads (inside _ le_rfl proper) with
      ⟨u, inU, same, lower, upper⟩
    have low : u.min.toNat = t.min.toNat := by
      by_contra different
      refine below (t.min.toNat - 1) (by omega) (same ▸ leads_of_reads inU ?_ ?_)
        <;> omega
    have high : u.max.toNat = t.max.toNat := by
      rcases lt_trichotomy u.max.toNat t.max.toNat with less | equal | greater
      · rcases exists_reads (inside (u.max.toNat + 1) (by omega) less) with
          ⟨v, inV, same', lower', upper'⟩
        have different : v ≠ u := by
          rintro rfl
          omega
        rcases apart v inV u inU (same'.trans same.symm) different with
          before | after <;> omega
      · exact equal
      · exact absurd (same ▸ leads_of_reads inU (by omega) greater) above
    have equal : u = t := by
      apply interval_injective
      rw [interval, interval, low, high, same]
    exact equal ▸ inU

variable (minimalA : Minimal a) (minimalB : Minimal b) (same : a.lang = b.lang)
include minimalA minimalB same

/-- Joined states take the same characters to joined states. -/
theorem Joined.leads_iff {p q d e : Nat} (joined : Joined a b p q)
    (joined' : Joined a b d e) (point : Nat) :
    Leads a p d point ↔ Leads b q e point := by
  have onward : ∀ {a b : Automaton}, Minimal a → Minimal b → a.lang = b.lang →
      ∀ {p q d e : Nat}, Joined a b p q → Joined a b d e →
        Leads a p d point → Leads b q e point := by
    intro a b minimalA minimalB same p q d e joined joined' leads
    rcases leads with ⟨bound, taken⟩
    rcases joined with ⟨word, first, second⟩
    rcases exists_joined minimalA.invariants.live same
      ⟨_, first.snoc taken⟩ with ⟨e', joinedE⟩
    rcases taken with ⟨t, inState, reads, rfl⟩
    rcases minimalA.invariants.live p ⟨word, first⟩ t inState with
      ⟨rest, accepts⟩
    have accepted := (Joined.accepts_iff minimalA.deterministicFrom
      minimalB.deterministicFrom same ⟨word, first, second⟩
        (toChar point :: rest)).mp
      (Heap.accepts_cons.mpr ⟨_, ⟨t, inState, reads, rfl⟩, accepts⟩)
    rcases Heap.accepts_cons.mp accepted with ⟨target, taken', _⟩
    have here : Joined a b t.dest target :=
      ⟨_, first.snoc ⟨t, inState, reads, rfl⟩, second.snoc taken'⟩
    have isTarget := here.symm.unique minimalB.deterministicFrom
      minimalA.deterministicFrom minimalB.distinguished same.symm joined'.symm
    exact ⟨bound, isTarget ▸ taken'⟩
  exact ⟨onward minimalA minimalB same joined joined',
    onward minimalB minimalA same.symm joined.symm joined'.symm⟩

/-- A joined state has at least as many transitions. -/
theorem length_transitions_le {f : Nat → Nat}
    (joined : ∀ p, a.Reachable p → Joined a b p (f p)) {p : Nat}
    (reachable : a.Reachable p) :
    (a.state p).transitions.length ≤ (b.state (f p)).transitions.length := by
  have reachableB : b.Reachable (f p) := by
    rcases joined p reachable with ⟨word, _, path⟩
    exact ⟨word, path⟩
  have dest : ∀ t ∈ (a.state p).transitions, a.Reachable t.dest :=
    fun t inState => reachable.step ⟨t, inState, t.reads_min, rfl⟩
  have distinct : ((a.state p).transitions.map fun t : Transition =>
      { t with dest := f t.dest }).Nodup := by
    refine List.Nodup.map_on (fun t inT u inU equal => ?_)
      (minimalA.reduced p reachable).nodup
    rcases t with ⟨min, max, d, order⟩
    rcases u with ⟨min', max', d', order'⟩
    simp only [Transition.mk.injEq] at equal
    rcases equal with ⟨rfl, rfl, dests⟩
    have first := joined d (dest _ inT)
    have second := joined d' (dest _ inU)
    rw [dests] at first
    have equal := first.unique minimalA.deterministicFrom
      minimalB.deterministicFrom minimalA.distinguished same second
    subst equal
    rfl
  have included : ((a.state p).transitions.map fun t : Transition =>
      { t with dest := f t.dest }) ⊆ (b.state (f p)).transitions := by
    intro u member
    rcases List.mem_map.mp member with ⟨t, inState, rfl⟩
    refine (mem_transitions_iff (minimalB.reduced _ reachableB) _).mpr ?_
    have leads := Joined.leads_iff minimalA minimalB same
      (joined p reachable) (joined t.dest (dest t inState))
    rcases (mem_transitions_iff (minimalA.reduced p reachable) t).mp inState with
      ⟨proper, inside, below, above⟩
    exact ⟨proper, fun point lower upper => (leads point).mp
        (inside point lower upper),
      fun point next later => below point next ((leads point).mpr later),
      fun later => above ((leads _).mpr later)⟩
  have bound := (distinct.subperm included).length_le
  rwa [List.length_map] at bound

/-- Minimal automata of one language have the same numbers of states and of
transitions. -/
theorem Minimal.counts_eq :
    a.getNumberOfStates = b.getNumberOfStates ∧
      getNumberOfTransitions a = getNumberOfTransitions b := by
  have counts : ∀ {a b : Automaton}, Minimal a → Minimal b → a.lang = b.lang →
      getNumberOfTransitions a ≤ getNumberOfTransitions b := by
    intro a b minimalA minimalB same
    rcases exists_matching minimalA.invariants.live same with ⟨f, joined⟩
    have distinct := minimalA.matching_nodup minimalB.deterministicFrom same
      joined
    have sub := distinct.subperm (matching_subset joined)
    rw [getNumberOfTransitions, getNumberOfTransitions]
    have summed : ((a.getStates.map f).map fun ref =>
        (b.state ref).transitions.length).sum ≤
          (b.getStates.map fun ref => (b.state ref).transitions.length).sum := by
      rcases sub with ⟨list, perm, sublist⟩
      rw [← (perm.map fun ref => (b.state ref).transitions.length).sum_eq]
      exact (sublist.map fun ref => (b.state ref).transitions.length).sum_le_sum
        fun _ _ => Nat.zero_le _
    refine le_trans ?_ summed
    rw [List.map_map]
    refine List.sum_le_sum fun p member => ?_
    exact length_transitions_le minimalA minimalB same joined
      (Automaton.mem_getStates.mp member)
  exact ⟨le_antisymm
      (minimalA.getNumberOfStates_le minimalB.deterministicFrom same)
      (minimalB.getNumberOfStates_le minimalA.deterministicFrom same.symm),
    le_antisymm (counts minimalA minimalB same)
      (counts minimalB minimalA same.symm)⟩

end Transitions

end SafetyGames.Automata
