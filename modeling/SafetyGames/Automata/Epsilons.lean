import Mathlib.Data.Finset.Prod
import Mathlib.Logic.Relation
import SafetyGames.Automata.Heaps

/-!
# Epsilon transitions

`addEpsilons`: the closure of a collection of pairs of states, and the
transitions that stand for it.  The loop ends with the transitive closure, and
the automaton accepts what the one with the epsilon transitions accepts.
-/

namespace SafetyGames.Automata

open SafetyGames.Transducer SafetyGames.LabelledPath

/-! ## The closure -/

/-- The variables of the loop; `forward` and `back` are indices of `pairs`. -/
structure EpsilonClosure where
  pairs : List (Nat × Nat)
  worklist : List (Nat × Nat)
  workset : List (Nat × Nat)

namespace EpsilonClosure

/-- `forward.get(s)`, the empty set for null. -/
def forward (closure : EpsilonClosure) (s : Nat) : List Nat :=
  ((closure.pairs.filter fun p => p.1 = s).map Prod.snd).dedup

/-- `back.get(s)`, the empty set for null. -/
def back (closure : EpsilonClosure) (s : Nat) : List Nat :=
  ((closure.pairs.filter fun p => p.2 = s).map Prod.fst).dedup

/-- `worklist.add(p)` and `workset.add(p)`. -/
def push (closure : EpsilonClosure) (p : Nat × Nat) : EpsilonClosure :=
  { closure with
    worklist := closure.worklist ++ [p]
    workset := closure.workset ++ [p] }

/-- The loop body over `from`. -/
def revisit (s1 : Nat) (closure : EpsilonClosure) (q : Nat) : EpsilonClosure :=
  if (q, s1) ∈ closure.workset then closure else closure.push (q, s1)

/-- A new pair `pp`. -/
def add (closure : EpsilonClosure) (pp : Nat × Nat) : EpsilonClosure :=
  { closure.push pp with pairs := closure.pairs ++ [pp] }

/-- The loop body over `to`. -/
def compose (s1 : Nat) (closure : EpsilonClosure) (s : Nat) : EpsilonClosure :=
  if (s1, s) ∈ closure.pairs then closure
  else
    let closure := closure.add (s1, s)
    (closure.back s1).foldl (revisit s1) closure

/-- The loop over the worklist. -/
def run : Nat → EpsilonClosure → Option (List (Nat × Nat))
  | _, ⟨pairs, [], _⟩ => some pairs
  | 0, ⟨_, _ :: _, _⟩ => none
  | fuel + 1, ⟨pairs, p :: worklist, workset⟩ =>
      let closure : EpsilonClosure :=
        ⟨pairs, worklist, workset.filter fun other => other ≠ p⟩
      run fuel ((closure.forward p.2).foldl (compose p.1) closure)

variable {closure : EpsilonClosure}

@[simp]
theorem mem_forward {s t : Nat} :
    t ∈ closure.forward s ↔ (s, t) ∈ closure.pairs := by
  simp [forward]

@[simp]
theorem mem_back {s t : Nat} :
    t ∈ closure.back s ↔ (t, s) ∈ closure.pairs := by
  simp [back]

/-! ### What the loop keeps -/

/-- One of the epsilon transitions that are asked for. -/
def Asked (initial : List (Nat × Nat)) (source target : Nat) : Prop :=
  (source, target) ∈ initial

/-- Every composition of pairs is known, or waits, or is being looked at. -/
structure Closing (initial : List (Nat × Nat)) (current : Nat × Nat → Prop)
    (closure : EpsilonClosure) : Prop where
  known : ∀ p ∈ closure.worklist, p ∈ closure.pairs
  waiting : ∀ p ∈ closure.workset, p ∈ closure.worklist
  started : ∀ p ∈ initial, p ∈ closure.pairs
  sound : ∀ p ∈ closure.pairs, Relation.TransGen (Asked initial) p.1 p.2
  composed : ∀ s1 s2 s, (s1, s2) ∈ closure.pairs → (s2, s) ∈ closure.pairs →
    (s1, s) ∈ closure.pairs ∨ (s1, s2) ∈ closure.worklist ∨ current (s1, s2)

variable {initial : List (Nat × Nat)} {current : Nat × Nat → Prop}

theorem revisit_pairs (s1 q : Nat) :
    (closure.revisit s1 q).pairs = closure.pairs := by
  rw [revisit]
  split_ifs <;> rfl

theorem mem_worklist_revisit {s1 q : Nat} {p : Nat × Nat} :
    p ∈ closure.worklist → p ∈ (closure.revisit s1 q).worklist := by
  intro member
  rw [revisit]
  split_ifs
  · exact member
  · exact List.mem_append_left _ member

/-- Looking again at the pairs in front keeps the pairs, and they wait. -/
theorem foldl_revisit (s1 : Nat) (list : List Nat)
    (waiting : ∀ p ∈ closure.workset, p ∈ closure.worklist) :
    (list.foldl (revisit s1) closure).pairs = closure.pairs ∧
      (∀ p ∈ (list.foldl (revisit s1) closure).workset,
        p ∈ (list.foldl (revisit s1) closure).worklist) ∧
      (∀ p ∈ closure.worklist, p ∈ (list.foldl (revisit s1) closure).worklist) ∧
      (∀ q ∈ list, (q, s1) ∈ (list.foldl (revisit s1) closure).worklist) ∧
      ∀ p ∈ (list.foldl (revisit s1) closure).worklist,
        p ∈ closure.worklist ∨ ∃ q ∈ list, p = (q, s1) := by
  induction list generalizing closure with
  | nil => exact ⟨rfl, waiting, fun _ => id, by simp, fun _ => Or.inl⟩
  | cons q list induction =>
      have next : ∀ p ∈ (closure.revisit s1 q).workset,
          p ∈ (closure.revisit s1 q).worklist := by
        rw [revisit]
        split_ifs
        · exact waiting
        · intro p member
          rcases List.mem_append.mp member with old | new
          · exact List.mem_append_left _ (waiting p old)
          · exact List.mem_append_right _ new
      have here : (q, s1) ∈ (closure.revisit s1 q).worklist := by
        rw [revisit]
        split_ifs with waits
        · exact waiting _ waits
        · exact List.mem_append_right _ (List.mem_singleton_self _)
      have origin : ∀ p ∈ (closure.revisit s1 q).worklist,
          p ∈ closure.worklist ∨ p = (q, s1) := by
        rw [revisit]
        split_ifs
        · exact fun _ => Or.inl
        · intro p member
          exact (List.mem_append.mp member).imp_right List.mem_singleton.mp
      rcases induction next with ⟨pairs, waits, keeps, adds, only⟩
      refine ⟨pairs.trans (revisit_pairs s1 q), waits,
        fun p member => keeps p (mem_worklist_revisit member), ?_, ?_⟩
      · intro other member
        rcases List.mem_cons.mp member with rfl | inRest
        · exact keeps _ here
        · exact adds other inRest
      · intro p member
        rcases only p member with old | ⟨other, inRest, same⟩
        · rcases origin p old with before | same
          · exact Or.inl before
          · exact Or.inr ⟨q, List.mem_cons_self, same⟩
        · exact Or.inr ⟨other, List.mem_cons_of_mem q inRest, same⟩

theorem waiting_add {pp : Nat × Nat}
    (waiting : ∀ p ∈ closure.workset, p ∈ closure.worklist) :
    ∀ p ∈ (closure.add pp).workset, p ∈ (closure.add pp).worklist :=
  fun p member => List.mem_append.mpr
    ((List.mem_append.mp member).imp_left (waiting p))

theorem mem_compose {s1 s : Nat}
    (waiting : ∀ p ∈ closure.workset, p ∈ closure.worklist) {p : Nat × Nat} :
    p ∈ (closure.compose s1 s).pairs ↔ p ∈ closure.pairs ∨ p = (s1, s) := by
  rw [compose]
  split_ifs with old
  · exact (or_iff_left_of_imp fun same => same ▸ old).symm
  · rw [(foldl_revisit s1 _ (waiting_add waiting)).1, add, List.mem_append,
      List.mem_singleton]

/-- The pair that is composed with the one being looked at. -/
theorem Closing.compose {s1 s2 s : Nat}
    (closing : Closing initial (fun p => p = (s1, s2)) closure)
    (first : (s1, s2) ∈ closure.pairs) (second : (s2, s) ∈ closure.pairs) :
    Closing initial (fun p => p = (s1, s2)) (closure.compose s1 s) := by
  have members := @mem_compose closure s1 s closing.waiting
  rw [EpsilonClosure.compose] at members ⊢
  split_ifs at members ⊢ with old
  · exact closing
  · rcases foldl_revisit s1 ((closure.add (s1, s)).back s1)
      (waiting_add closing.waiting) with ⟨_, waits, keeps, adds, only⟩
    have isKnown : ∀ p ∈ (closure.add (s1, s)).worklist,
        p ∈ closure.pairs ∨ p = (s1, s) := by
      intro p member
      exact (List.mem_append.mp member).imp (closing.known p)
        List.mem_singleton.mp
    exact {
      known := by
        intro p member
        refine members.mpr ?_
        rcases only p member with before | ⟨q, inBack, rfl⟩
        · exact isKnown p before
        · have inPairs : (q, s1) ∈ closure.pairs ++ [(s1, s)] :=
            mem_back.mp inBack
          exact (List.mem_append.mp inPairs).imp_right List.mem_singleton.mp
      waiting := waits
      started := fun p member => members.mpr (Or.inl (closing.started p member))
      sound := by
        intro p member
        rcases members.mp member with before | rfl
        · exact closing.sound p before
        · exact (closing.sound _ first).trans (closing.sound _ second)
      composed := by
        intro t1 t2 t inFirst inSecond
        rcases members.mp inFirst with before | isNew
        · rcases members.mp inSecond with before' | isNew'
          · rcases closing.composed t1 t2 t before before' with
              found | waits' | current
            · exact Or.inl (members.mpr (Or.inl found))
            · exact Or.inr (Or.inl (keeps _ (List.mem_append_left _ waits')))
            · exact Or.inr (Or.inr current)
          · -- a pair in front of the new one is looked at again
            rcases Prod.mk.inj isNew' with ⟨rfl, rfl⟩
            refine Or.inr (Or.inl (adds t1 (mem_back.mpr ?_)))
            exact List.mem_append_left _ before
        · rw [isNew]
          exact Or.inr (Or.inl (keeps _
            (List.mem_append_right _ (List.mem_singleton_self _)))) }

/-- All pairs behind the one being looked at are composed with it. -/
theorem Closing.foldl_compose {s1 s2 : Nat} (list : List Nat)
    (closing : Closing initial (fun p => p = (s1, s2)) closure)
    (first : (s1, s2) ∈ closure.pairs)
    (second : ∀ s ∈ list, (s2, s) ∈ closure.pairs) :
    Closing initial (fun p => p = (s1, s2))
        (list.foldl (EpsilonClosure.compose s1) closure) ∧
      ∀ p, p ∈ (list.foldl (EpsilonClosure.compose s1) closure).pairs ↔
        p ∈ closure.pairs ∨ ∃ s ∈ list, p = (s1, s) := by
  induction list generalizing closure with
  | nil => exact ⟨closing, fun p => by simp⟩
  | cons s list induction =>
      have members := @mem_compose closure s1 s closing.waiting
      rcases induction (closing.compose first (second s List.mem_cons_self))
        (members.mpr (Or.inl first))
        (fun t inRest => members.mpr
          (Or.inl (second t (List.mem_cons_of_mem s inRest)))) with
        ⟨further, whole⟩
      refine ⟨further, fun p => (whole p).trans ?_⟩
      rw [members, or_assoc]
      simp

/-- The first pair of the worklist is being looked at. -/
theorem Closing.looked {pairs worklist workset : List (Nat × Nat)} {p : Nat × Nat}
    (closing : Closing initial (fun _ => False) ⟨pairs, p :: worklist, workset⟩) :
    Closing initial (fun other => other = (p.1, p.2))
      ⟨pairs, worklist, workset.filter fun other => other ≠ p⟩ where
  known := fun other member =>
    closing.known other (List.mem_cons_of_mem p member)
  waiting := by
    intro other member
    rcases List.mem_filter.mp member with ⟨inSet, different⟩
    exact (List.mem_cons.mp (closing.waiting other inSet)).resolve_left
      (of_decide_eq_true different)
  started := closing.started
  sound := closing.sound
  composed := by
    intro s1 s2 s first second
    rcases closing.composed s1 s2 s first second with found | waits | none
    · exact Or.inl found
    · rcases List.mem_cons.mp waits with same | inRest
      · exact Or.inr (Or.inr same)
      · exact Or.inr (Or.inl inRest)
    · exact none.elim

/-- One round of the loop over the worklist. -/
theorem Closing.next {pairs worklist workset : List (Nat × Nat)} {p : Nat × Nat}
    (closing : Closing initial (fun _ => False) ⟨pairs, p :: worklist, workset⟩) :
    Closing initial (fun _ => False)
      (((⟨pairs, worklist, workset.filter fun other => other ≠ p⟩
          : EpsilonClosure).forward p.2).foldl (EpsilonClosure.compose p.1)
        ⟨pairs, worklist, workset.filter fun other => other ≠ p⟩) := by
  rcases closing.looked.foldl_compose
    ((⟨pairs, worklist, workset.filter fun other => other ≠ p⟩
      : EpsilonClosure).forward p.2)
    (closing.known p List.mem_cons_self) (fun s member => mem_forward.mp member)
    with ⟨further, members⟩
  exact {
    known := further.known
    waiting := further.waiting
    started := further.started
    sound := further.sound
    composed := by
      intro s1 s2 s inFirst inSecond
      rcases further.composed s1 s2 s inFirst inSecond with
        found | waits | current
      · exact Or.inl found
      · exact Or.inr (Or.inl waits)
      · -- the pair looked at is composed with all pairs behind it
        rcases Prod.mk.inj current with ⟨rfl, rfl⟩
        refine Or.inl ((members _).mpr (Or.inr ?_))
        rcases (members _).mp inSecond with before | ⟨t, inForward, isNew⟩
        · exact ⟨s, mem_forward.mpr before, rfl⟩
        · exact ⟨t, inForward, congrArg _ (Prod.mk.inj isNew).2⟩ }

/-! ### The loop ends -/

/-- The states of the pairs. -/
def ends (pairs : List (Nat × Nat)) : Finset Nat :=
  (pairs.map Prod.fst ++ pairs.map Prod.snd).toFinset

theorem mem_ends_of_transGen {source target : Nat}
    (asked : Relation.TransGen (Asked initial) source target) :
    source ∈ ends initial ∧ target ∈ ends initial := by
  have both : ∀ {s t : Nat}, Asked initial s t →
      s ∈ ends initial ∧ t ∈ ends initial := by
    intro s t member
    simp only [ends, List.mem_toFinset, List.mem_append, List.mem_map]
    exact ⟨Or.inl ⟨_, member, rfl⟩, Or.inr ⟨_, member, rfl⟩⟩
  induction asked with
  | single step => exact both step
  | tail _ step induction => exact ⟨induction.1, (both step).2⟩

/-- The pairs on the worklist, and those that may still be added to it. -/
def pending (bound : Nat) (closure : EpsilonClosure) : Nat :=
  closure.worklist.length +
    (bound * bound - closure.pairs.toFinset.card) * (bound + 1)

theorem length_foldl_revisit (s1 : Nat) (list : List Nat) :
    (list.foldl (revisit s1) closure).worklist.length ≤
      closure.worklist.length + list.length := by
  induction list generalizing closure with
  | nil => exact le_rfl
  | cons q list induction =>
      have one : (closure.revisit s1 q).worklist.length ≤
          closure.worklist.length + 1 := by
        rw [revisit]
        split_ifs
        · exact Nat.le_succ _
        · rw [push, List.length_append, List.length_singleton]
      have rest := @induction (closure.revisit s1 q)
      rw [List.foldl_cons, List.length_cons]
      omega

theorem pending_compose {s1 s2 s : Nat}
    (closing : Closing initial (fun p => p = (s1, s2)) closure)
    (first : (s1, s2) ∈ closure.pairs) (second : (s2, s) ∈ closure.pairs) :
    pending (ends initial).card (closure.compose s1 s) ≤
      pending (ends initial).card closure := by
  have further := closing.compose first second
  have members := @mem_compose closure s1 s closing.waiting
  have inside : ∀ p ∈ (closure.compose s1 s).pairs,
      p ∈ ends initial ×ˢ ends initial := fun p member =>
    Finset.mem_product.mpr (mem_ends_of_transGen (further.sound p member))
  have full : (closure.compose s1 s).pairs.toFinset.card ≤
      (ends initial).card * (ends initial).card := by
    rw [← Finset.card_product]
    exact Finset.card_le_card fun p member =>
      inside p (List.mem_toFinset.mp member)
  by_cases old : (s1, s) ∈ closure.pairs
  · rw [EpsilonClosure.compose, if_pos old]
  · have grown : (closure.compose s1 s).pairs.toFinset.card =
        closure.pairs.toFinset.card + 1 := by
      have inserted : (closure.compose s1 s).pairs.toFinset =
          insert (s1, s) closure.pairs.toFinset := by
        ext p
        rw [List.mem_toFinset, members, Finset.mem_insert, List.mem_toFinset,
          or_comm]
      rw [inserted, Finset.card_insert_of_notMem (mt List.mem_toFinset.mp old)]
    have few : ((closure.add (s1, s)).back s1).length ≤ (ends initial).card := by
      have nodup : ((closure.add (s1, s)).back s1).Nodup := List.nodup_dedup _
      rw [← List.toFinset_card_of_nodup nodup]
      refine Finset.card_le_card fun q member => ?_
      have inPairs := mem_back.mp (List.mem_toFinset.mp member)
      refine (Finset.mem_product.mp (inside (q, s1) (members.mpr ?_))).1
      exact (List.mem_append.mp inPairs).imp_right List.mem_singleton.mp
    have length : (closure.compose s1 s).worklist.length ≤
        closure.worklist.length + 1 + (ends initial).card := by
      rw [EpsilonClosure.compose, if_neg old]
      have bound := @length_foldl_revisit (closure.add (s1, s)) s1
        ((closure.add (s1, s)).back s1)
      have pushed : (closure.add (s1, s)).worklist.length =
          closure.worklist.length + 1 := List.length_append
      exact bound.trans (by omega)
    have split : (ends initial).card * (ends initial).card -
        closure.pairs.toFinset.card =
          (ends initial).card * (ends initial).card -
            (closure.compose s1 s).pairs.toFinset.card + 1 := by omega
    rw [pending, pending, split, Nat.add_mul]
    omega

theorem pending_foldl_compose {s1 s2 : Nat} (list : List Nat)
    (closing : Closing initial (fun p => p = (s1, s2)) closure)
    (first : (s1, s2) ∈ closure.pairs)
    (second : ∀ s ∈ list, (s2, s) ∈ closure.pairs) :
    pending (ends initial).card (list.foldl (EpsilonClosure.compose s1) closure) ≤
      pending (ends initial).card closure := by
  induction list generalizing closure with
  | nil => exact le_rfl
  | cons s list induction =>
      have here := second s List.mem_cons_self
      have members := @mem_compose closure s1 s closing.waiting
      refine (induction (closing.compose first here)
        (members.mpr (Or.inl first)) fun t inRest => members.mpr
          (Or.inl (second t (List.mem_cons_of_mem s inRest)))).trans ?_
      exact pending_compose closing first here

/-- With an empty worklist the pairs are closed under composition. -/
theorem Closing.transGen_iff
    (closing : Closing initial (fun _ => False) closure)
    (done : closure.worklist = []) (p : Nat × Nat) :
    p ∈ closure.pairs ↔ Relation.TransGen (Asked initial) p.1 p.2 := by
  refine ⟨closing.sound p, fun asked => ?_⟩
  have known : ∀ target, Relation.TransGen (Asked initial) p.1 target →
      (p.1, target) ∈ closure.pairs := by
    intro target asked
    induction asked with
    | single step => exact closing.started _ step
    | tail _ step induction =>
        rcases closing.composed _ _ _ induction (closing.started _ step) with
          found | waits | none
        · exact found
        · exact absurd (done ▸ waits) List.not_mem_nil
        · exact none.elim
  exact known p.2 asked

theorem pending_next {pairs worklist workset : List (Nat × Nat)} {p : Nat × Nat}
    (closing : Closing initial (fun _ => False) ⟨pairs, p :: worklist, workset⟩) :
    pending (ends initial).card
        (((⟨pairs, worklist, workset.filter fun other => other ≠ p⟩
            : EpsilonClosure).forward p.2).foldl (EpsilonClosure.compose p.1)
          ⟨pairs, worklist, workset.filter fun other => other ≠ p⟩) <
      pending (ends initial).card ⟨pairs, p :: worklist, workset⟩ := by
  refine (pending_foldl_compose _ closing.looked
    (closing.known p List.mem_cons_self)
    fun s member => mem_forward.mp member).trans_lt ?_
  simp only [pending, List.length_cons]
  omega

/-- The loop returns the transitive closure. -/
theorem run_spec {fuel : Nat} {closure : EpsilonClosure}
    (closing : Closing initial (fun _ => False) closure)
    (enough : pending (ends initial).card closure ≤ fuel) :
    ∃ result, run fuel closure = some result ∧
      ∀ p, p ∈ result ↔ Relation.TransGen (Asked initial) p.1 p.2 := by
  induction fuel generalizing closure with
  | zero =>
      rcases closure with ⟨pairs, worklist, workset⟩
      cases worklist with
      | nil => exact ⟨pairs, by rw [run], closing.transGen_iff rfl⟩
      | cons p worklist =>
          simp only [pending, List.length_cons] at enough
          omega
  | succ fuel induction =>
      rcases closure with ⟨pairs, worklist, workset⟩
      cases worklist with
      | nil => exact ⟨pairs, by rw [run], closing.transGen_iff rfl⟩
      | cons p worklist =>
          have less := pending_next closing
          rw [run]
          exact induction closing.next (by omega)

end EpsilonClosure

/-- The rounds that the loop of `addEpsilons` may take. -/
def closureRounds (pairs : List (Nat × Nat)) : Nat :=
  let bound := (EpsilonClosure.ends pairs).card
  pairs.length + bound * bound * (bound + 1)

/-- The pairs behind the loop of `addEpsilons`. -/
def closePairs (pairs : List (Nat × Nat)) : List (Nat × Nat) :=
  (EpsilonClosure.run (closureRounds pairs) ⟨pairs, pairs, pairs⟩).getD pairs

/-- The loop of `addEpsilons` ends with the transitive closure of the pairs. -/
theorem closePairs_spec (pairs : List (Nat × Nat)) :
    EpsilonClosure.run (closureRounds pairs) ⟨pairs, pairs, pairs⟩ =
        some (closePairs pairs) ∧
      ∀ p, p ∈ closePairs pairs ↔
        Relation.TransGen (EpsilonClosure.Asked pairs) p.1 p.2 := by
  have closing : EpsilonClosure.Closing pairs (fun _ => False)
      ⟨pairs, pairs, pairs⟩ := {
    known := fun _ => id
    waiting := fun _ => id
    started := fun _ => id
    sound := fun p member => Relation.TransGen.single member
    composed := fun _ _ _ first _ => Or.inr (Or.inl first) }
  have enough : EpsilonClosure.pending (EpsilonClosure.ends pairs).card
      ⟨pairs, pairs, pairs⟩ ≤ closureRounds pairs :=
    Nat.add_le_add_left (Nat.mul_le_mul_right _ (Nat.sub_le _ _)) _
  rcases EpsilonClosure.run_spec closing enough with ⟨result, returned, members⟩
  rw [closePairs, returned]
  exact ⟨rfl, members⟩

theorem mem_closePairs {pairs : List (Nat × Nat)} {p : Nat × Nat} :
    p ∈ closePairs pairs ↔
      Relation.TransGen (EpsilonClosure.Asked pairs) p.1 p.2 :=
  (closePairs_spec pairs).2 p

/-! ## The transitions -/

/-- A transition of a state, or its acceptance. -/
def Offers (state : State) : Option Transition → Prop
  | none => state.accept = true
  | some t => t ∈ state.transitions

theorem offers_addEpsilon {state next : State} {offer : Option Transition} :
    Offers (addEpsilon state next) offer ↔
      Offers next offer ∨ Offers state offer := by
  cases offer with
  | none => exact Bool.or_eq_true_iff
  | some t => exact mem_addEpsilon

/-- `p.s1.addEpsilon(p.s2)`. -/
def addEpsilonPair (heap : Heap) (p : Nat × Nat) : Heap :=
  update heap [p.1] fun state => addEpsilon state (heap.state p.2)

section Transitions

variable {heap : Heap} {pairs : List (Nat × Nat)}

theorem offers_addEpsilonPair {p : Nat × Nat} (inside : p.1 < heap.length)
    {s : Nat} {offer : Option Transition} :
    Offers ((addEpsilonPair heap p).state s) offer ↔
      Offers (heap.state s) offer ∨
        s = p.1 ∧ Offers (heap.state p.2) offer := by
  have bound : ∀ ref ∈ [p.1], ref < heap.length := by simpa using inside
  by_cases here : s = p.1
  · rw [here, addEpsilonPair, update_state_of_mem bound (List.mem_singleton_self _),
      offers_addEpsilon, or_comm, and_iff_right rfl]
  · rw [addEpsilonPair, update_state_of_notMem (by simpa using here)]
    simp [here]

/-- What the states offer comes from states that the pairs lead to. -/
structure Enriched (pairs : List (Nat × Nat)) (old heap : Heap) : Prop where
  length_eq : heap.length = old.length
  keeps : ∀ s offer, Offers (old.state s) offer → Offers (heap.state s) offer
  sound : ∀ s offer, Offers (heap.state s) offer → Offers (old.state s) offer ∨
    ∃ t, (s, t) ∈ pairs ∧ Offers (old.state t) offer

/-- One epsilon transition of a collection that is closed under composition. -/
theorem Enriched.next {old : Heap} (enriched : Enriched pairs old heap)
    (closed : ∀ s1 s2 s, (s1, s2) ∈ pairs → (s2, s) ∈ pairs → (s1, s) ∈ pairs)
    {p : Nat × Nat} (member : p ∈ pairs) (inside : p.1 < old.length) :
    Enriched pairs old (addEpsilonPair heap p) where
  length_eq := (length_update _ _ _).trans enriched.length_eq
  keeps := fun s offer offers =>
    (offers_addEpsilonPair (enriched.length_eq.symm ▸ inside)).mpr
      (Or.inl (enriched.keeps s offer offers))
  sound := by
    intro s offer offers
    rcases (offers_addEpsilonPair (enriched.length_eq.symm ▸ inside)).mp offers
      with before | ⟨rfl, further⟩
    · exact enriched.sound s offer before
    · rcases enriched.sound p.2 offer further with direct | ⟨t, leads, there⟩
      · exact Or.inr ⟨p.2, member, direct⟩
      · exact Or.inr ⟨t, closed p.1 p.2 t member leads, there⟩

theorem Enriched.foldl {old : Heap} (list : List (Nat × Nat))
    (enriched : Enriched pairs old heap)
    (closed : ∀ s1 s2 s, (s1, s2) ∈ pairs → (s2, s) ∈ pairs → (s1, s) ∈ pairs)
    (members : ∀ p ∈ list, p ∈ pairs) (inside : ∀ p ∈ list, p.1 < old.length) :
    Enriched pairs old (list.foldl addEpsilonPair heap) ∧
      (∀ s offer, Offers (heap.state s) offer →
        Offers ((list.foldl addEpsilonPair heap).state s) offer) ∧
      ∀ p ∈ list, ∀ offer, Offers (old.state p.2) offer →
        Offers ((list.foldl addEpsilonPair heap).state p.1) offer := by
  induction list generalizing heap with
  | nil => exact ⟨enriched, fun _ _ => id, by simp⟩
  | cons p list induction =>
      have bound : p.1 < heap.length :=
        enriched.length_eq.symm ▸ inside p List.mem_cons_self
      rcases induction
        (enriched.next closed (members p List.mem_cons_self)
          (inside p List.mem_cons_self))
        (fun q inRest => members q (List.mem_cons_of_mem p inRest))
        (fun q inRest => inside q (List.mem_cons_of_mem p inRest)) with
        ⟨further, grows, found⟩
      refine ⟨further, fun s offer offers =>
        grows s offer ((offers_addEpsilonPair bound).mpr (Or.inl offers)), ?_⟩
      intro q member offer offers
      rcases List.mem_cons.mp member with rfl | inRest
      · exact grows q.1 offer ((offers_addEpsilonPair bound).mpr
          (Or.inr ⟨rfl, enriched.keeps q.2 offer offers⟩))
      · exact found q inRest offer offers

theorem closed_addEpsilonPair (closed : heap.Closed) (p : Nat × Nat) :
    (addEpsilonPair heap p).Closed := by
  intro state member t inState
  rw [addEpsilonPair, length_update]
  rcases mem_update member with ⟨old, inHeap, rfl | rfl⟩
  · rcases mem_addEpsilon.mp inState with inNext | inOld
    · exact closed.step_lt ⟨t, inNext, t.reads_min, rfl⟩
    · exact closed old inHeap t inOld
  · exact closed _ inHeap t inState

theorem closed_foldl_addEpsilonPair (list : List (Nat × Nat))
    (closed : heap.Closed) :
    (list.foldl addEpsilonPair heap).Closed ∧
      (list.foldl addEpsilonPair heap).length = heap.length := by
  induction list generalizing heap with
  | nil => exact ⟨closed, rfl⟩
  | cons p list induction =>
      rcases induction (closed_addEpsilonPair closed p) with ⟨further, length⟩
      exact ⟨further, length.trans (length_update _ _ _)⟩

end Transitions

/-- `addEpsilons(a, pairs)`. -/
def addEpsilons (a : Automaton) (pairs : List (Nat × Nat)) : Automaton where
  states := (closePairs pairs).foldl addEpsilonPair a.states
  initial := a.initial
  deterministic := false
  initial_lt := by
    rw [(closed_foldl_addEpsilonPair _ a.closed).2]
    exact a.initial_lt
  closed := (closed_foldl_addEpsilonPair _ a.closed).1

/-- The words accepted from a state by steps and epsilon transitions. -/
inductive EpsilonAccepts (heap : Heap) (pairs : List (Nat × Nat)) :
    Nat → Word → Prop where
  | accept {s : Nat} (accepts : (heap.state s).accept = true) :
      EpsilonAccepts heap pairs s []
  | read {s t : Nat} {c : JChar} {word : Word} (step : heap.Step s c t)
      (rest : EpsilonAccepts heap pairs t word) :
      EpsilonAccepts heap pairs s (c :: word)
  | epsilon {s t : Nat} {word : Word} (member : (s, t) ∈ pairs)
      (rest : EpsilonAccepts heap pairs t word) :
      EpsilonAccepts heap pairs s word

section AddEpsilons

variable {a : Automaton} {pairs : List (Nat × Nat)}
  (inside : ∀ p ∈ pairs, p.1 < a.states.length)
include inside

/-- A state offers what the states offer that the epsilon transitions lead to. -/
theorem addEpsilons_offers {s : Nat} {offer : Option Transition} :
    Offers ((addEpsilons a pairs).state s) offer ↔
      ∃ t, Relation.ReflTransGen (EpsilonClosure.Asked pairs) s t ∧
        Offers (a.state t) offer := by
  have start : Enriched (closePairs pairs) a.states a.states :=
    ⟨rfl, fun _ _ => id, fun _ _ => Or.inl⟩
  have bound : ∀ p ∈ closePairs pairs, p.1 < a.states.length := by
    intro p member
    rcases Relation.TransGen.head'_iff.mp (mem_closePairs.mp member) with
      ⟨middle, asked, _⟩
    exact inside (p.1, middle) asked
  rcases start.foldl (closePairs pairs)
    (fun s1 s2 s first second => mem_closePairs.mpr
      ((mem_closePairs.mp first).trans (mem_closePairs.mp second)))
    (fun _ => id) bound with ⟨enriched, keeps, found⟩
  constructor
  · intro offers
    rcases enriched.sound s offer offers with here | ⟨t, member, there⟩
    · exact ⟨s, Relation.ReflTransGen.refl, here⟩
    · exact ⟨t, (mem_closePairs.mp member).to_reflTransGen, there⟩
  · rintro ⟨t, leads, offers⟩
    rcases Relation.reflTransGen_iff_eq_or_transGen.mp leads with rfl | asked
    · exact keeps _ offer offers
    · exact found (s, t) (mem_closePairs.mpr asked) offer offers

/-- From every state the automaton accepts the words that steps and epsilon
transitions accept. -/
theorem addEpsilons_accepts_iff {s : Nat} {word : Word} :
    (addEpsilons a pairs).states.Accepts s word ↔
      EpsilonAccepts a.states pairs s word := by
  constructor
  · intro accepts
    have walk : ∀ {s t : Nat} {word : Word},
        Relation.ReflTransGen (EpsilonClosure.Asked pairs) s t →
          EpsilonAccepts a.states pairs t word →
            EpsilonAccepts a.states pairs s word := by
      intro s t word leads rest
      induction leads using Relation.ReflTransGen.head_induction_on with
      | refl => exact rest
      | head asked _ induction => exact .epsilon asked induction
    induction word generalizing s with
    | nil =>
        rcases (@addEpsilons_offers _ _ inside _ none).mp
          (Heap.accepts_nil.mp accepts) with ⟨t, leads, here⟩
        exact walk leads (.accept here)
    | cons c word induction =>
        rcases Heap.accepts_cons.mp accepts with
          ⟨_, ⟨u, inState, reads, rfl⟩, rest⟩
        rcases (@addEpsilons_offers _ _ inside _ (some u)).mp inState with
          ⟨t, leads, here⟩
        exact walk leads (.read ⟨u, here, reads, rfl⟩ (induction rest))
  · intro accepts
    induction accepts with
    | accept here =>
        exact Heap.accepts_nil.mpr ((@addEpsilons_offers _ _ inside _
          none).mpr ⟨_, Relation.ReflTransGen.refl, here⟩)
    | read step _ induction =>
        rcases step with ⟨u, inState, reads, rfl⟩
        exact Heap.accepts_cons.mpr ⟨u.dest, ⟨u, (@addEpsilons_offers _ _
          inside _ (some u)).mpr ⟨_, Relation.ReflTransGen.refl, inState⟩,
          reads, rfl⟩, induction⟩
    | @epsilon s t word member rest induction =>
        have more : ∀ offer, Offers ((addEpsilons a pairs).state t) offer →
            Offers ((addEpsilons a pairs).state s) offer := by
          intro offer offers
          rcases (addEpsilons_offers inside).mp offers with ⟨u, leads, here⟩
          exact (addEpsilons_offers inside).mpr
            ⟨u, Relation.ReflTransGen.head member leads, here⟩
        cases word with
        | nil =>
            exact Heap.accepts_nil.mpr
              (more none (Heap.accepts_nil.mp induction))
        | cons c word =>
            rcases Heap.accepts_cons.mp induction with
              ⟨_, ⟨u, inState, reads, rfl⟩, rest⟩
            exact Heap.accepts_cons.mpr
              ⟨u.dest, ⟨u, more (some u) inState, reads, rfl⟩, rest⟩

/--
The worklist of `addEpsilons` runs empty, and the pairs are then closed
transitively.  From every state the automaton accepts the words that its steps
and any number of the given epsilon transitions accept.
-/
theorem addEpsilons_exact :
    EpsilonClosure.run (closureRounds pairs) ⟨pairs, pairs, pairs⟩ =
        some (closePairs pairs) ∧
      (∀ p, p ∈ closePairs pairs ↔
        Relation.TransGen (EpsilonClosure.Asked pairs) p.1 p.2) ∧
      (addEpsilons a pairs).deterministic = false ∧
      ∀ s word, (addEpsilons a pairs).states.Accepts s word ↔
        EpsilonAccepts a.states pairs s word :=
  ⟨(closePairs_spec pairs).1, (closePairs_spec pairs).2, rfl,
    fun _ _ => addEpsilons_accepts_iff inside⟩

end AddEpsilons

/--
Every letter of `ab` may be left out.  The loop adds the pair that leaves out
both, which was not asked for.
-/
theorem addEpsilons_exact_makeString :
    (0, 2) ∈ closePairs [(0, 1), (1, 2)] ∧
      (addEpsilons (Automaton.makeString [97, 98])
        [(0, 1), (1, 2)]).states.Accepts 0 [] ∧
      (addEpsilons (Automaton.makeString [97, 98])
        [(0, 1), (1, 2)]).states.Accepts 0 [97] := by
  rcases @addEpsilons_exact (Automaton.makeString [97, 98]) [(0, 1), (1, 2)]
    (by decide) with ⟨_, closed, _, accepts⟩
  have first : EpsilonClosure.Asked [(0, 1), (1, 2)] 0 1 := List.mem_cons_self
  have second : EpsilonClosure.Asked [(0, 1), (1, 2)] 1 2 :=
    List.mem_cons_of_mem _ List.mem_cons_self
  have skipped : EpsilonAccepts (Automaton.makeString [97, 98]).states
      [(0, 1), (1, 2)] 1 [] := .epsilon second (.accept rfl)
  refine ⟨(closed (0, 2)).mpr (.tail (.single first) second), ?_, ?_⟩
  · exact (accepts 0 []).mpr (.epsilon first skipped)
  · apply (accepts 0 [97]).mpr
    exact .read ⟨Transition.single 97 1, by decide, by decide, rfl⟩ skipped

end SafetyGames.Automata
