import SafetyGames.Learner.Renumbering

/-!
# The grouping of labels in counter-examples

`constructSAT` reads the lower end of a transition only, and the first mark of
a word.  Its solutions are the complete automata that are consistent with what
is left of the sample.  Grouping the labels of the counter-example automata
therefore changes the solutions exactly when a complete automaton can tell the
words that are lost.
-/

namespace SafetyGames.Learner

open SafetyGames.Transducer SafetyGames.LabelledPath SafetyGames.Worklist
open PrefixTree BoolExpr

/-! ## What the encoding sees of a sample -/

/-- The counter-example with the lower ends of its automaton. -/
def CounterExample.lowered (ce : CounterExample) : CounterExample where
  u := ce.u
  a := ce.a.lowered

/-- The first mark of every word, and the lower ends of every automaton. -/
def Sample.seen (s : Sample) : Sample where
  pos := s.pos
  neg := s.neg.filter fun word => !s.pos.contains word
  ex := s.ex.map CounterExample.lowered
  uni := s.uni.map CounterExample.lowered
  size := s.size

section Seen

variable {alphabet : List JChar} {s : Sample} {w : PrefixTree}

theorem words_seen {word : Word} (member : word ∈ s.seen.words) :
    word ∈ s.words := by
  simp only [Sample.words, Sample.seen, List.mem_append, List.map_map,
    List.mem_filter] at member ⊢
  rcases member with ((inPos | inNeg) | inUni) | inEx
  · exact Or.inl (Or.inl (Or.inl inPos))
  · exact Or.inl (Or.inl (Or.inr inNeg.1))
  · exact Or.inl (Or.inr inUni)
  · exact Or.inr inEx

theorem markOf_seen (word : Word) : markOf s.seen word = markOf s word := by
  by_cases inPos : word ∈ s.pos
  · simp [markOf, Sample.seen, inPos]
  · simp [markOf, Sample.seen, inPos]

/-- The tree of a sample is also that of what is seen of it. -/
theorem Filled.seen (filled : Filled alphabet s w) : Filled alphabet s.seen w where
  isTree := filled.isTree
  words := fun word member => filled.words word (words_seen member)
  marks := fun word id leads =>
    (filled.marks word id leads).trans (markOf_seen word).symm

theorem ReadsOver.overAlphabet_lowered {a : Automaton}
    (within : ReadsOver alphabet a) : OverAlphabet alphabet a.lowered := by
  intro ref reachable transition member
  rcases mem_lowered.mp member with ⟨group, inGroup, rfl⟩
  refine ⟨rfl, ?_⟩
  exact within ref (reachable_lowered_iff.mp reachable) group inGroup group.min
    group.reads_min

theorem disjoint_seen : ∀ word ∈ s.seen.pos, word ∉ s.seen.neg := by
  intro word inPos inNeg
  have known : s.pos.contains word = true := List.contains_iff_mem.mpr inPos
  have notPos := (List.mem_filter.mp inNeg).2
  rw [known] at notPos
  exact absurd notPos Bool.false_ne_true

theorem over_seen (letters : ∀ word ∈ s.words, ∀ c ∈ word, c ∈ alphabet)
    (within : ∀ ce ∈ s.uni ++ s.ex, ReadsOver alphabet ce.a) :
    s.seen.Over alphabet where
  letters := fun word member => letters word (words_seen member)
  ex := List.forall_mem_map.mpr fun ce member =>
    (within ce (List.mem_append_right _ member)).overAlphabet_lowered
  uni := List.forall_mem_map.mpr fun cu member =>
    (within cu (List.mem_append_left _ member)).overAlphabet_lowered
  disjoint := disjoint_seen

theorem alike_lowered (list : List CounterExample) :
    List.Forall₂ Alike list (list.map CounterExample.lowered) := by
  rw [List.forall₂_map_right_iff, List.forall₂_same]
  exact fun ce _ => ⟨rfl, ce.a, Or.inl rfl, Or.inr rfl⟩

theorem alike_of_lowered (list : List CounterExample) :
    List.Forall₂ Alike (list.map CounterExample.lowered) list := by
  rw [List.forall₂_map_left_iff, List.forall₂_same]
  exact fun ce _ => ⟨rfl, ce.a, Or.inr rfl, Or.inl rfl⟩

/-- Over the tree of a sample the solutions are those of what is seen of it. -/
theorem realizes_seen_iff {order other : StateOrder} {n : Nat}
    {part : Part n alphabet.length} (filled : Filled alphabet s w) :
    Realizes order alphabet s n w part ↔
      Realizes other alphabet s.seen n w part := by
  constructor
  · intro realizes
    exact realizes.transfer filled.seen (alike_lowered s.uni)
      (alike_lowered s.ex) other
  · intro realizes
    exact realizes.transfer filled (alike_of_lowered s.uni)
      (alike_of_lowered s.ex) order

end Seen

/-! ## Solutions are automata -/

section Automata

variable {alphabet : List JChar} {n : Nat}

open Classical in
/-- The `f` and `d` cells of a complete automaton. -/
noncomputable def partOfDfa (alphabet : List JChar) (M : DFA JChar (Fin n)) :
    Part n alphabet.length where
  f q := decide (q ∈ M.accept)
  d p a q := decide (M.step p alphabet[a] = q)

@[simp]
theorem partOfDfa_f {M : DFA JChar (Fin n)} {q : Fin n} :
    (partOfDfa alphabet M).f q = true ↔ q ∈ M.accept := by
  simp [partOfDfa]

@[simp]
theorem partOfDfa_d {M : DFA JChar (Fin n)} {p q : Fin n}
    {a : Fin alphabet.length} :
    (partOfDfa alphabet M).d p a q = true ↔ M.step p alphabet[a] = q := by
  simp [partOfDfa]

/-- The part of a satisfying assignment is that of its automaton. -/
theorem partOfDfa_dfaOf {v : Var → Bool} (nodup : alphabet.Nodup)
    {positive : 0 < n}
    (satisfied : Satisfies v (dConstraints n alphabet.length)) :
    partOfDfa alphabet (dfaOf v alphabet positive) =
      partOf n alphabet.length v := by
  have step : ∀ (p : Fin n) (a : Fin alphabet.length) (q : Fin n),
      (dfaOf v alphabet positive).step p alphabet[a] = q ↔
        v (.d p a q) = true := by
    intro p a q
    have mapped : charMap alphabet alphabet[a] = some a.val :=
      (charMap_eq_some_iff nodup).mpr (List.getElem?_eq_getElem a.isLt)
    have chosen :
        v (.d p a ((dfaOf v alphabet positive).step p alphabet[a])) = true :=
      (dfaOf_step satisfied p (List.getElem_mem a.isLt)).cell mapped
    constructor
    · rintro rfl
      exact chosen
    · intro other
      have unique := (satisfies_dConstraints.mp satisfied p p.isLt a a.isLt).1
      exact Fin.ext (unique _ (Fin.isLt _) q q.isLt chosen other)
  ext
  · rw [Bool.eq_iff_iff, partOfDfa_f]
    rfl
  · rw [Bool.eq_iff_iff, partOfDfa_d]
    exact step _ _ _

/-- The words that a complete automaton accepts, by its part. -/
theorem dfaLang_eq_of_part {M N : DFA JChar (Fin n)}
    (startM : M.start.val = 0) (startN : N.start.val = 0)
    (same : partOfDfa alphabet M = partOfDfa alphabet N) :
    dfaLang alphabet M = dfaLang alphabet N := by
  have accept : ∀ q, q ∈ M.accept ↔ q ∈ N.accept := by
    intro q
    rw [← partOfDfa_f, same, partOfDfa_f]
  have step : ∀ p, ∀ c ∈ alphabet, M.step p c = N.step p c := by
    intro p c letter
    rcases List.getElem_of_mem letter with ⟨a, bound, rfl⟩
    have cell : (partOfDfa alphabet M).d p ⟨a, bound⟩ (M.step p alphabet[a]) =
        true :=
      partOfDfa_d.mpr rfl
    rw [same, partOfDfa_d] at cell
    exact cell.symm
  have eval : ∀ word : Word, (∀ c ∈ word, c ∈ alphabet) →
      M.eval word = N.eval word := by
    intro word
    induction word using List.reverseRecOn with
    | nil => exact fun _ => Fin.ext (startM.trans startN.symm)
    | append_singleton word c induction =>
        intro letters
        rcases List.forall_mem_append.mp letters with ⟨before, last⟩
        rw [eval_snoc, eval_snoc, induction before,
          step _ c (last c (List.mem_singleton_self c))]
  ext word
  apply and_congr_right
  intro letters
  rw [DFA.mem_accepts, DFA.mem_accepts, eval word letters]
  exact accept (N.eval word)

section Sample

variable {order : StateOrder} {s : Sample} {w : PrefixTree}

open Classical in
/-- The cells that a complete automaton describes. -/
noncomputable def describedBy (order : StateOrder) (alphabet : List JChar)
    (s : Sample) (w : PrefixTree) (M : DFA JChar (Fin n)) (cell : Var) : Bool :=
  decide (Chosen order alphabet s w M cell)

theorem describedBy_iff {M : DFA JChar (Fin n)} {cell : Var} :
    describedBy order alphabet s w M cell = true ↔
      Chosen order alphabet s w M cell := by
  simp [describedBy]

/-- A complete automaton with short witnesses is a solution. -/
theorem realizes_of_shortConsistent {M : DFA JChar (Fin n)}
    (filled : Filled alphabet s w) (within : s.Over alphabet)
    (start : M.start.val = 0)
    (short : ShortConsistent s n (dfaLang alphabet M)) :
    Realizes order alphabet s n w (partOfDfa alphabet M) := by
  have describes : Describes order alphabet s w M
      (describedBy order alphabet s w M) :=
    { chosen := fun _ => describedBy_iff
      filled := filled
      within := within
      start := start }
  refine ⟨_, describes.satisfied short, ?_⟩
  ext q a r
  · rw [Bool.eq_iff_iff, partOfDfa_f]
    exact describes.accept_iff q
  · rw [Bool.eq_iff_iff, partOfDfa_d]
    exact (describes.moves_iff q (List.getElem?_eq_getElem a.isLt)).trans
      Fin.val_inj

/-- A solution is a complete automaton with short witnesses. -/
theorem Realizes.exists_dfa {part : Part n alphabet.length}
    (realizes : Realizes order alphabet s n w part) (nodup : alphabet.Nodup)
    (positive : 0 < n) (filled : Filled alphabet s w)
    (within : s.Over alphabet) :
    ∃ M : DFA JChar (Fin n), M.start.val = 0 ∧ partOfDfa alphabet M = part ∧
      ShortConsistent s n (dfaLang alphabet M) := by
  rcases realizes with ⟨v, satisfied, rfl⟩
  have solved := solved_of_satisfied positive filled satisfied
  refine ⟨dfaOf v alphabet positive, rfl, partOfDfa_dfaOf nodup solved.total, ?_⟩
  rw [dfaLang_dfaOf solved.total]
  exact solved.shortConsistent within.disjoint within.uni

end Sample

section Solutions

variable {order : StateOrder} {s : Sample} {debug : Bool}
  (nodup : alphabet.Nodup) (positive : 0 < n)
  (letters : ∀ word ∈ s.words, ∀ c ∈ word, c ∈ alphabet)
  (within : ∀ ce ∈ s.uni ++ s.ex, ReadsOver alphabet ce.a)
include nodup positive letters within

/-- Every solution is the part of a complete automaton. -/
theorem exists_dfa_of_mem_cellSolutions {part : Part n alphabet.length}
    (member : part ∈ cellSolutions order alphabet s n) :
    ∃ M : DFA JChar (Fin n), M.start.val = 0 ∧ partOfDfa alphabet M = part ∧
      ShortConsistent s.seen n (dfaLang alphabet M) := by
  rcases mem_cellSolutions_iff.mp member with ⟨w, fills, realizes⟩
  have filled := fillTree_spec fills
  exact ((realizes_seen_iff filled).mp realizes : Realizes order _ _ _ _ _)
    |>.exists_dfa nodup positive filled.seen (over_seen letters within)

/-- The part of a complete automaton is a solution exactly when the automaton
has short witnesses for what is seen of the sample. -/
theorem partOfDfa_mem_cellSolutions_iff {M : DFA JChar (Fin n)}
    (start : M.start.val = 0) :
    partOfDfa alphabet M ∈ cellSolutions order alphabet s n ↔
      ShortConsistent s.seen n (dfaLang alphabet M) := by
  constructor
  · intro member
    rcases exists_dfa_of_mem_cellSolutions nodup positive letters within member with
      ⟨N, startN, same, short⟩
    rw [dfaLang_eq_of_part startN start same] at short
    exact short
  · intro short
    rcases fillTree_returns letters with ⟨w, fills⟩
    have filled := fillTree_spec fills
    have realizes : Realizes order alphabet s.seen n w (partOfDfa alphabet M) :=
      realizes_of_shortConsistent filled.seen (over_seen letters within) start
        short
    exact mem_cellSolutions_iff.mpr
      ⟨w, fills, (realizes_seen_iff filled).mpr realizes⟩

end Solutions

end Automata

/-- Two samples have the same solutions exactly when the same complete
automata have short witnesses for what is seen of them. -/
theorem cellSolutions_eq_iff {alphabet : List JChar} {n : Nat}
    {order other : StateOrder} {s s' : Sample} (nodup : alphabet.Nodup)
    (positive : 0 < n)
    (letters : ∀ word ∈ s.words, ∀ c ∈ word, c ∈ alphabet)
    (letters' : ∀ word ∈ s'.words, ∀ c ∈ word, c ∈ alphabet)
    (within : ∀ ce ∈ s.uni ++ s.ex, ReadsOver alphabet ce.a)
    (within' : ∀ ce ∈ s'.uni ++ s'.ex, ReadsOver alphabet ce.a) :
    cellSolutions order alphabet s n = cellSolutions other alphabet s' n ↔
      ∀ M : DFA JChar (Fin n),
        ShortConsistent s.seen n (dfaLang alphabet M) ↔
          ShortConsistent s'.seen n (dfaLang alphabet M) := by
  constructor
  · intro same M
    rcases exists_dfa_start_zero alphabet M with ⟨N, start, sameLang⟩
    rw [← sameLang, ← partOfDfa_mem_cellSolutions_iff nodup positive letters
      within start, same]
    exact partOfDfa_mem_cellSolutions_iff nodup positive letters' within' start
  · intro alike
    ext part
    constructor
    · intro member
      rcases exists_dfa_of_mem_cellSolutions nodup positive letters within member with
        ⟨M, start, rfl, short⟩
      exact (partOfDfa_mem_cellSolutions_iff nodup positive letters' within'
        start).mpr ((alike M).mp short)
    · intro member
      rcases exists_dfa_of_mem_cellSolutions nodup
        positive letters' within' member with ⟨M, start, rfl, short⟩
      exact (partOfDfa_mem_cellSolutions_iff nodup positive letters within
        start).mpr ((alike M).mpr short)

/-! ## Grouping the labels -/

/-- The second counter-example differs at most in having a transition for each
character. -/
def Regroups (ce ce' : CounterExample) : Prop :=
  ce'.u = ce.u ∧ (ce'.a = ce.a ∨ Ungrouped ce.a ce'.a)

/-- The samples differ in the grouping of labels only. -/
structure Regrouped (s s' : Sample) : Prop where
  pos : s'.pos = s.pos
  neg : s'.neg = s.neg
  ex : List.Forall₂ Regroups s.ex s'.ex
  uni : List.Forall₂ Regroups s.uni s'.uni

section Regroups

variable {alphabet : List JChar} {a split : Automaton}

theorem ReadsOver.ungrouped (within : ReadsOver alphabet a)
    (ungrouped : Ungrouped a split) : ReadsOver alphabet split := by
  intro ref reachable transition member c reads
  rcases (ungrouped.transitions ref transition).mp member with
    ⟨group, inGroup, d, readsGroup, rfl⟩
  rw [(Transition.single_reads d c group.dest).mp reads]
  exact within ref (ungrouped.reachable_iff.mp reachable) group inGroup d
    readsGroup

variable {ce ce' : CounterExample}

theorem Regroups.readsOver (regroups : Regroups ce ce')
    (within : ReadsOver alphabet ce.a) : ReadsOver alphabet ce'.a := by
  rcases regroups.2 with same | ungrouped
  · rw [same]
    exact within
  · exact within.ungrouped ungrouped

/-- The lower ends of a grouped automaton spell fewer words. -/
theorem Regroups.lang_subset (regroups : Regroups ce ce') :
    ce.lowered.a.lang ⊆ ce'.lowered.a.lang := by
  rcases regroups.2 with same | ungrouped
  · rw [CounterExample.lowered, CounterExample.lowered, same]
  · show ce.a.lowered.lang ⊆ ce'.a.lowered.lang
    rw [lang_lowered_of_singleChars ungrouped.singleChars, ungrouped.lang_eq]
    exact lang_lowered_subset

theorem Regroups.getNumberOfStates_eq (regroups : Regroups ce ce') :
    ce'.lowered.a.getNumberOfStates = ce.lowered.a.getNumberOfStates := by
  show ce'.a.lowered.getNumberOfStates = ce.a.lowered.getNumberOfStates
  rw [getNumberOfStates_lowered, getNumberOfStates_lowered]
  rcases regroups.2 with same | ungrouped
  · rw [same]
  · exact ungrouped.getNumberOfStates_eq

theorem exists_related {α β : Type} {related : α → β → Prop} {list : List α}
    {list' : List β} (all : List.Forall₂ related list list') {right : β}
    (member : right ∈ list') :
    ∃ left ∈ list, related left right := by
  induction all with
  | nil => exact absurd member List.not_mem_nil
  | cons head _ induction =>
      rcases List.mem_cons.mp member with rfl | later
      · exact ⟨_, List.mem_cons_self, head⟩
      · rcases induction later with ⟨left, inList, isRelated⟩
        exact ⟨left, List.mem_cons_of_mem _ inList, isRelated⟩

theorem map_u_of_regroups {list list' : List CounterExample}
    (regroups : List.Forall₂ Regroups list list') :
    list'.map CounterExample.u = list.map CounterExample.u := by
  induction regroups with
  | nil => rfl
  | cons head _ induction =>
      rw [List.map_cons, List.map_cons, head.1, induction]

end Regroups

namespace Regrouped

variable {alphabet : List JChar} {s s' : Sample}
  (regrouped : Regrouped s s')
include regrouped

theorem words_eq : s'.words = s.words := by
  rw [Sample.words, Sample.words, regrouped.pos, regrouped.neg,
    map_u_of_regroups regrouped.uni, map_u_of_regroups regrouped.ex]

theorem readsOver (within : ∀ ce ∈ s.uni ++ s.ex, ReadsOver alphabet ce.a) :
    ∀ ce ∈ s'.uni ++ s'.ex, ReadsOver alphabet ce.a := by
  have all : List.Forall₂ Regroups (s.uni ++ s.ex) (s'.uni ++ s'.ex) :=
    List.rel_append regrouped.uni regrouped.ex
  intro ce' member
  rcases exists_related all member with ⟨ce, inList, regroups⟩
  exact regroups.readsOver (within ce inList)

theorem noClash (clash : NoClash alphabet s) : NoClash alphabet s' where
  letters := clash.letters
  uni := regrouped.uni.length_eq ▸ clash.uni
  ex := regrouped.ex.length_eq ▸ clash.ex
  dashes := by
    rw [regrouped.words_eq]
    exact clash.dashes

/-- An automaton that meets what is seen of the first sample meets the second
one if it accepts the consequences that were not seen. -/
theorem shortConsistent_right {n : Nat} {language : Set Word}
    (short : ShortConsistent s.seen n language)
    (words : ∀ cu ∈ s'.seen.uni, cu.u ∈ language → cu.a.lang ⊆ language) :
    ShortConsistent s'.seen n language := by
  have origin : ∀ ce' ∈ s'.seen.ex, ∃ ce ∈ s.seen.ex, ce'.u = ce.u ∧
      ce.a.lang ⊆ ce'.a.lang ∧
        ce'.a.getNumberOfStates = ce.a.getNumberOfStates := by
    intro ce' member
    rcases List.mem_map.mp member with ⟨right, inRight, rfl⟩
    rcases exists_related regrouped.ex inRight with ⟨left, inLeft, regroups⟩
    exact ⟨left.lowered, List.mem_map_of_mem inLeft, regroups.1,
      regroups.lang_subset, regroups.getNumberOfStates_eq⟩
  have witness : ∀ ce' ∈ s'.seen.ex, ce'.u ∈ language →
      ∃ v ∈ ce'.a.lang, v ∈ language ∧
        v.length < lMax n ce'.a.getNumberOfStates := by
    intro ce' member inLanguage
    rcases origin ce' member with ⟨ce, inList, sameWord, included, sameSize⟩
    rw [sameWord] at inLanguage
    rcases short.short ce inList inLanguage with ⟨v, inA, accepted, bound⟩
    rw [sameSize]
    exact ⟨v, included inA, accepted, bound⟩
  refine ⟨⟨?_, ?_, ?_, ?_⟩, ?_, witness⟩
  · show ∀ word ∈ s'.pos, word ∈ language
    rw [regrouped.pos]
    exact short.consistent.pos
  · show ∀ word ∈ s'.neg.filter fun word => !s'.pos.contains word, word ∉ language
    rw [regrouped.neg, regrouped.pos]
    exact short.consistent.neg
  · intro ce' member inLanguage
    rcases witness ce' member inLanguage with ⟨v, inA, accepted, _⟩
    exact ⟨v, inA, accepted⟩
  · intro cu member inLanguage word inA
    exact words cu member inLanguage inA
  · intro ce' member
    rcases origin ce' member with ⟨ce, inList, _, _, sameSize⟩
    rw [sameSize]
    exact short.positive ce inList

/-- An automaton that meets what is seen of the second sample meets the first
one if it has witnesses that are seen there. -/
theorem shortConsistent_left {n : Nat} {language : Set Word}
    (short : ShortConsistent s'.seen n language)
    (witnesses : ∀ ce ∈ s.seen.ex, ce.u ∈ language →
      ∃ v ∈ ce.a.lang, v ∈ language ∧
        v.length < lMax n ce.a.getNumberOfStates) :
    ShortConsistent s.seen n language := by
  refine ⟨⟨?_, ?_, ?_, ?_⟩, ?_, witnesses⟩
  · show ∀ word ∈ s.pos, word ∈ language
    rw [← regrouped.pos]
    exact short.consistent.pos
  · show ∀ word ∈ s.neg.filter fun word => !s.pos.contains word, word ∉ language
    rw [← regrouped.neg, ← regrouped.pos]
    exact short.consistent.neg
  · intro ce member inLanguage
    rcases witnesses ce member inLanguage with ⟨v, inA, accepted, _⟩
    exact ⟨v, inA, accepted⟩
  · intro cu member inLanguage word inA
    rcases List.mem_map.mp member with ⟨left, inLeft, rfl⟩
    rcases exists_related regrouped.uni.flip inLeft with
      ⟨right, inRight, regroups⟩
    have regroups : Regroups left right := regroups
    have isRight : right.lowered ∈ s'.seen.uni := List.mem_map_of_mem inRight
    apply short.consistent.uni right.lowered isRight _ word
      (regroups.lang_subset inA)
    show right.u ∈ language
    rw [regroups.1]
    exact inLanguage
  · intro ce member
    rcases List.mem_map.mp member with ⟨left, inLeft, rfl⟩
    rcases exists_related regrouped.ex.flip inLeft with
      ⟨right, inRight, regroups⟩
    have regroups : Regroups left right := regroups
    rw [← regroups.getNumberOfStates_eq]
    exact short.positive right.lowered (List.mem_map_of_mem inRight)

end Regrouped

/-- No complete automaton with `n` states can tell that only lower ends are seen. -/
structure NothingLost (alphabet : List JChar) (s s' : Sample) (n : Nat) :
    Prop where
  /-- What is accepted of a universal counter-example along the lower ends is
  accepted of all of its words. -/
  words : ∀ M : DFA JChar (Fin n),
    ShortConsistent s.seen n (dfaLang alphabet M) →
      ∀ cu ∈ s'.seen.uni, cu.u ∈ dfaLang alphabet M →
        cu.a.lang ⊆ dfaLang alphabet M
  /-- What has a witness for an existential counter-example has one along the
  lower ends. -/
  witnesses : ∀ M : DFA JChar (Fin n),
    ShortConsistent s'.seen n (dfaLang alphabet M) →
      ∀ ce ∈ s.seen.ex, ce.u ∈ dfaLang alphabet M →
        ∃ v ∈ ce.a.lang, v ∈ dfaLang alphabet M ∧
          v.length < lMax n ce.a.getNumberOfStates

/--
Grouping the labels keeps the solutions exactly when nothing is lost.  This
holds in the normal mode, and in the debug mode if no names clash.
-/
theorem regrouping_iff {alphabet : List JChar} (nodup : alphabet.Nodup)
    {n : Nat} (positive : 0 < n) {s s' : Sample} (regrouped : Regrouped s s')
    (letters : ∀ word ∈ s.words, ∀ c ∈ word, c ∈ alphabet)
    (within : ∀ ce ∈ s.uni ++ s.ex, ReadsOver alphabet ce.a) {debug : Bool}
    (apart : debug = true → NoClash alphabet s) (order other : StateOrder) :
    solutions order alphabet debug s n = solutions other alphabet debug s' n ↔
      NothingLost alphabet s s' n := by
  have letters' : ∀ word ∈ s'.words, ∀ c ∈ word, c ∈ alphabet := by
    rw [regrouped.words_eq]
    exact letters
  rw [solutions_of_noClash positive apart,
    solutions_of_noClash positive fun isDebug =>
      regrouped.noClash (apart isDebug),
    cellSolutions_eq_iff nodup positive letters letters' within
      (regrouped.readsOver within)]
  constructor
  · intro alike
    refine ⟨fun M short cu member inLanguage => ?_, fun M short => ?_⟩
    · exact ((alike M).mp short).consistent.uni cu member inLanguage
    · exact ((alike M).mpr short).short
  · intro nothing M
    constructor
    · intro short
      exact regrouped.shortConsistent_right short (nothing.words M short)
    · intro short
      exact regrouped.shortConsistent_left short (nothing.witnesses M short)

/-- The empty word implies the words `a` and `b`. -/
def consequenceSample (a : Automaton) : Sample where
  pos := []
  neg := []
  ex := []
  uni := [⟨[], a⟩]
  size := 1

section Consequence

theorem consequenceSample_regrouped :
    Regrouped (consequenceSample mergedAutomaton)
      (consequenceSample splitAutomaton) where
  pos := rfl
  neg := rfl
  ex := List.Forall₂.nil
  uni := List.Forall₂.cons ⟨rfl, Or.inr splitAutomaton_ungrouped⟩
    List.Forall₂.nil

theorem consequenceSample_letters (a : Automaton) :
    ∀ word ∈ (consequenceSample a).words, ∀ c ∈ word, c ∈ [97, 98] := by
  simp [consequenceSample, Sample.words]

theorem mergedAutomaton_readsOver : ReadsOver [97, 98] mergedAutomaton := by
  intro ref _ transition member c reads
  rcases mergedAutomaton_transitions.mp member with ⟨_, rfl⟩
  rw [List.mem_pair]
  exact (reads_ab rfl rfl c).mp reads

theorem consequenceSample_readsOver {a : Automaton}
    (within : ReadsOver [97, 98] a) :
    ∀ ce ∈ (consequenceSample a).uni ++ (consequenceSample a).ex,
      ReadsOver [97, 98] ce.a :=
  List.forall_mem_singleton.mpr within

theorem lang_lowered_splitAutomaton (word : Word) :
    word ∈ splitAutomaton.lowered.lang ↔ word = [97] ∨ word = [98] := by
  rw [lang_lowered_of_singleChars splitAutomaton_ungrouped.singleChars,
    splitAutomaton_ungrouped.lang_eq]
  exact mem_lang_mergedAutomaton word

/--
With a single state the letters cannot be told apart, and the grouped label
loses nothing.
-/
theorem regrouping_oneState :
    solutions StateOrder.found [97, 98] false
        (consequenceSample mergedAutomaton) 1 =
      solutions StateOrder.found [97, 98] false
        (consequenceSample splitAutomaton) 1 := by
  apply (regrouping_iff (by decide) one_pos consequenceSample_regrouped
    (consequenceSample_letters mergedAutomaton)
    (consequenceSample_readsOver mergedAutomaton_readsOver)
    (fun isDebug => absurd isDebug (by decide)) _ _).mpr
  refine ⟨fun M _ => ?_, fun _ _ _ member => absurd member List.not_mem_nil⟩
  rintro cu member ⟨_, accepted⟩ word inA
  obtain rfl : cu = ⟨[], splitAutomaton.lowered⟩ := List.mem_singleton.mp member
  have letters : ∀ c ∈ word, c ∈ [97, 98] := by
    rcases (lang_lowered_splitAutomaton word).mp inA with rfl | rfl
    · simp
    · simp
  refine ⟨letters, ?_⟩
  rw [DFA.mem_accepts] at accepted ⊢
  rw [Subsingleton.elim (M.eval word) (M.eval [])]
  exact accepted

/-- The automaton with two states that accepts the words without `b`. -/
def onlyA : DFA JChar (Fin 2) where
  step p c := if c = 97 then p else (Fin.last 1).rev
  start := Fin.last 1
  accept := {Fin.last 1}

/--
With two states the letter that the grouped label leaves out matters: the
consequence of `b` is forgotten, and more automata are solutions.
-/
theorem regrouping_not_invariant :
    Regrouped (consequenceSample mergedAutomaton)
        (consequenceSample splitAutomaton) ∧
      solutions StateOrder.found [97, 98] false
          (consequenceSample mergedAutomaton) 2 ≠
        solutions StateOrder.found [97, 98] false
          (consequenceSample splitAutomaton) 2 := by
  refine ⟨consequenceSample_regrouped, ?_⟩
  rw [solutions_number two_pos, solutions_number two_pos]
  intro same
  have alike := (cellSolutions_eq_iff (by decide) two_pos
    (consequenceSample_letters mergedAutomaton)
    (consequenceSample_letters splitAutomaton)
    (consequenceSample_readsOver mergedAutomaton_readsOver)
    (consequenceSample_readsOver
      (mergedAutomaton_readsOver.ungrouped splitAutomaton_ungrouped))).mp same
      onlyA
  have empty : [] ∈ dfaLang [97, 98] onlyA :=
    ⟨fun _ member => absurd member List.not_mem_nil, rfl⟩
  have short : ShortConsistent (consequenceSample mergedAutomaton).seen 2
      (dfaLang [97, 98] onlyA) := by
    refine ⟨⟨?_, ?_, ?_, ?_⟩, ?_, ?_⟩
    · exact fun _ member => absurd member List.not_mem_nil
    · exact fun _ member => absurd member List.not_mem_nil
    · exact fun _ member => absurd member List.not_mem_nil
    · intro cu member _ word inA
      obtain rfl : cu = ⟨[], mergedAutomaton.lowered⟩ :=
        List.mem_singleton.mp member
      rcases (mem_lang_lowered_mergedAutomaton word).mp inA with rfl
      exact ⟨by simp, rfl⟩
    · exact fun _ member => absurd member List.not_mem_nil
    · exact fun _ member => absurd member List.not_mem_nil
  have letter : [98] ∈ dfaLang [97, 98] onlyA :=
    (alike.mp short).consistent.uni _ List.mem_cons_self empty [98]
      ((lang_lowered_splitAutomaton [98]).mpr (Or.inr rfl))
  have rejected : (Fin.last 1).rev = Fin.last 1 := letter.2
  exact absurd rejected (by decide)

end Consequence

end SafetyGames.Learner
