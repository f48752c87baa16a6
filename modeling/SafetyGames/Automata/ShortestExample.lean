import SafetyGames.Automata.SubsetOf
import SafetyGames.Lib.Shortlex
import SafetyGames.Teacher.Reference
import Mathlib.Logic.Function.Basic

/-!
# Shortest examples

`getShortestExample` walks over the states in the order of their distance and
keeps one word for each of them, which later transitions from states at the
same distance may still replace.  Among the words of the states it looks for,
it returns the first one in the order by length and then by characters.
-/

namespace SafetyGames.Automata

open SafetyGames.Transducer SafetyGames.Teacher SafetyGames.Shortlex
open SafetyGames.LabelledPath

/-! ## The order of the words -/

/-- `v.compareTo(w)`. -/
def compareTo : Word → Word → Int
  | c :: v, d :: w =>
      if c = d then compareTo v w else (c.toNat : Int) - d.toNat
  | v, w => (v.length : Int) - w.length

/-- The codes of a word. -/
def codes (word : Word) : List Nat :=
  word.map UInt16.toNat

@[simp]
theorem length_codes (word : Word) : (codes word).length = word.length :=
  List.length_map _

theorem codes_append (left right : Word) :
    codes (left ++ right) = codes left ++ codes right :=
  List.map_append

theorem compareTo_neg_iff {left right : Word}
    (long : left.length = right.length) :
    compareTo left right < 0 ↔ codes left < codes right := by
  induction left generalizing right with
  | nil =>
      cases right with
      | nil => simp [compareTo, codes]
      | cons => exact absurd long (Nat.succ_ne_zero _).symm
  | cons c left induction =>
      cases right with
      | nil => exact absurd long (Nat.succ_ne_zero _)
      | cons d right =>
          have rest := induction (Nat.succ.inj long)
          rw [compareTo, codes, codes, List.map_cons, List.map_cons,
            List.cons_lt_cons_iff]
          split_ifs with same
          · subst same
            rw [rest]
            simp [codes]
          · have different : c.toNat ≠ d.toNat :=
              fun equal => same (UInt16.toNat_inj.mp equal)
            simp only [different, false_and, or_false]
            omega

/-- The test that replaces a word of a state. -/
theorem replaces_iff {left right : Word} :
    (right.length = left.length ∧ compareTo left right < 0) ↔
      right.length = left.length ∧ rank (codes left) < rank (codes right) := by
  refine and_congr_right fun long => ?_
  rw [compareTo_neg_iff long.symm, rank_lt_iff, length_codes, length_codes]
  simp [long]

/-! ## getShortestExample -/

/-- The words of the states met, the queue, and the best example so far. -/
structure ExampleSearch where
  path : Nat → Option Word
  queue : List Nat
  best : Option Word

namespace ExampleSearch

variable (search : ExampleSearch)

/-- `path.put(ref, word)`. -/
def put (ref : Nat) (word : Word) : ExampleSearch :=
  { search with path := Function.update search.path ref (some word) }

/-- `queue.addLast(ref)`. -/
def addLast (ref : Nat) : ExampleSearch :=
  { search with queue := search.queue ++ [ref] }

/-- The word of a state that was met. -/
def wordOf (ref : Nat) : Word :=
  (search.path ref).getD []

variable {search} {ref other : Nat} {word : Word}

@[simp]
theorem put_path_self : (search.put ref word).path ref = some word :=
  Function.update_self _ _ _

theorem put_path_of_ne (different : other ≠ ref) :
    (search.put ref word).path other = search.path other :=
  Function.update_of_ne different _ _

@[simp]
theorem put_wordOf_self : (search.put ref word).wordOf ref = word := by
  rw [wordOf, put_path_self, Option.getD_some]

theorem put_wordOf_of_ne (different : other ≠ ref) :
    (search.put ref word).wordOf other = search.wordOf other := by
  rw [wordOf, put_path_of_ne different, wordOf]

@[simp]
theorem put_queue : (search.put ref word).queue = search.queue := rfl

@[simp]
theorem addLast_path : (search.addLast ref).path = search.path := rfl

@[simp]
theorem addLast_queue : (search.addLast ref).queue = search.queue ++ [ref] := rfl

@[simp]
theorem addLast_wordOf : (search.addLast ref).wordOf other = search.wordOf other :=
  rfl

theorem wordOf_eq (path : search.path ref = some word) :
    search.wordOf ref = word := by
  rw [wordOf, path, Option.getD_some]

end ExampleSearch

section GetShortestExample

/-- The body of the loop over the transitions of a state with the word `p`. -/
def followTransition (p : Word) (search : ExampleSearch)
    (t : Transition) : ExampleSearch :=
  let np := p ++ [t.min]
  match search.path t.dest with
  | none => (search.put t.dest np).addLast t.dest
  | some tp =>
      if tp.length = np.length ∧ compareTo np tp < 0 then search.put t.dest np
      else search

/-- The better one of an example and the best one so far. -/
def improve (best : Option Word) (p : Word) : Option Word :=
  match best with
  | none => some p
  | some b =>
      if p.length < b.length ∨ p.length = b.length ∧ compareTo p b < 0 then
        some p
      else
        some b

variable (a : Automaton) (accepted : Bool)

/-- The body of the loop over the queue. -/
def examineState (search : ExampleSearch) (q : Nat) : ExampleSearch :=
  let p := search.wordOf q
  if (a.state q).accept = accepted then
    { search with best := improve search.best p }
  else
    (a.state q).transitions.foldl (followTransition p) search

/-- The loop over the queue. -/
def examineQueue : Nat → ExampleSearch → Option (Option Word)
  | _, ⟨_, [], best⟩ => some best
  | 0, ⟨_, _ :: _, _⟩ => none
  | fuel + 1, ⟨path, q :: queue, best⟩ =>
      examineQueue fuel (examineState a accepted ⟨path, queue, best⟩ q)

/-- The search in front of the loop. -/
def startSearch : ExampleSearch :=
  ((⟨fun _ => none, [], none⟩ : ExampleSearch).put a.initial []).addLast
    a.initial

/-- `getShortestExample(a, accepted)`, `none` for null. -/
def getShortestExample : Option Word :=
  (examineQueue a accepted a.states.length (startSearch a)).getD none

end GetShortestExample

/-! ## What the search keeps -/

section Search

variable (a : Automaton) (accepted : Bool)

/-- A step from a state that is not looked for. -/
def StepOn (source : Nat) (c : JChar) (target : Nat) : Prop :=
  a.states.Step source c target ∧ (a.state source).accept ≠ accepted

/-- A word to a state that is looked for, with no such state before. -/
def IsExample (word : Word) : Prop :=
  ∃ target, Path (StepOn a accepted) a.initial word target ∧
    (a.state target).accept = accepted

/-- The states done have words up to a length, the states of the queue have
words of that length or one more, the shorter ones first. -/
structure Levels (level : Nat) (done : List Nat) (search : ExampleSearch) :
    Prop where
  nodup : (done ++ search.queue).Nodup
  inside : ∀ ref ∈ done ++ search.queue, ref < a.states.length
  known : ∀ ref, (search.path ref).isSome = true ↔ ref ∈ done ++ search.queue
  walk : ∀ ref word, search.path ref = some word →
    Path (StepOn a accepted) a.initial word ref
  start : search.path a.initial = some []
  done_le : ∀ ref ∈ done, (search.wordOf ref).length ≤ level
  le_queue : ∀ ref ∈ search.queue, level ≤ (search.wordOf ref).length
  queue_le : ∀ ref ∈ search.queue, (search.wordOf ref).length ≤ level + 1
  sorted : search.queue.Pairwise fun left right =>
    (search.wordOf left).length ≤ (search.wordOf right).length

/-- The word of the destination is not after the word through the transition. -/
def Follows (search : ExampleSearch) (source : Nat) (t : Transition) : Prop :=
  ∃ word, search.path t.dest = some word ∧
    rank (codes word) ≤ rank (codes (search.wordOf source ++ [t.min]))

variable {a accepted} {level : Nat} {done : List Nat} {search : ExampleSearch}

theorem Levels.path_eq (levels : Levels a accepted level done search)
    {ref : Nat} (member : ref ∈ done ++ search.queue) :
    search.path ref = some (search.wordOf ref) := by
  rcases Option.isSome_iff_exists.mp ((levels.known ref).mpr member) with
    ⟨word, path⟩
  rw [ExampleSearch.wordOf, path, Option.getD_some]

theorem Levels.not_initial (levels : Levels a accepted level done search)
    {ref : Nat} (away : search.wordOf ref ≠ [] ∨ ref ∉ done ++ search.queue) :
    a.initial ≠ ref := by
  rintro rfl
  rcases away with long | new
  · exact long (ExampleSearch.wordOf_eq levels.start)
  · exact new ((levels.known _).mp (by rw [levels.start]; rfl))

/-- A new state gets a word that is one longer than the level. -/
theorem Levels.meet (levels : Levels a accepted level done search) {ref : Nat}
    {word : Word} (new : ref ∉ done ++ search.queue)
    (inside : ref < a.states.length)
    (walked : Path (StepOn a accepted) a.initial word ref)
    (long : word.length = level + 1) :
    Levels a accepted level done ((search.put ref word).addLast ref) := by
  have different : ∀ other ∈ done ++ search.queue, other ≠ ref := by
    rintro other old rfl
    exact new old
  have words : ∀ other ∈ done ++ search.queue,
      ((search.put ref word).addLast ref).wordOf other = search.wordOf other :=
    fun other old => ExampleSearch.put_wordOf_of_ne (different other old)
  have newWord : ((search.put ref word).addLast ref).wordOf ref = word :=
    ExampleSearch.put_wordOf_self
  constructor
  · rw [ExampleSearch.addLast_queue, ← List.append_assoc]
    refine List.nodup_append.mpr ⟨levels.nodup, List.nodup_singleton _, ?_⟩
    rintro other old _ isNew rfl
    exact different other old (List.mem_singleton.mp isNew)
  · rw [ExampleSearch.addLast_queue, ← List.append_assoc]
    exact List.forall_mem_append.mpr
      ⟨levels.inside, List.forall_mem_singleton.mpr inside⟩
  · intro other
    rw [ExampleSearch.addLast_path, ExampleSearch.addLast_queue,
      ExampleSearch.put_queue, ← List.append_assoc, List.mem_append,
      List.mem_singleton, ← levels.known]
    by_cases same : other = ref
    · rw [same, ExampleSearch.put_path_self]
      exact iff_of_true rfl (Or.inr rfl)
    · rw [ExampleSearch.put_path_of_ne same]
      exact (or_iff_left same).symm
  · intro other found path
    rw [ExampleSearch.addLast_path] at path
    by_cases same : other = ref
    · rw [same, ExampleSearch.put_path_self] at path
      rw [same, ← Option.some.inj path]
      exact walked
    · rw [ExampleSearch.put_path_of_ne same] at path
      exact levels.walk other found path
  · rw [ExampleSearch.addLast_path, ExampleSearch.put_path_of_ne
      (levels.not_initial (Or.inr new)), levels.start]
  · intro other inDone
    rw [words other (List.mem_append_left _ inDone)]
    exact levels.done_le other inDone
  · refine List.forall_mem_append.mpr ⟨fun other inQueue => ?_, ?_⟩
    · rw [words other (List.mem_append_right _ inQueue)]
      exact levels.le_queue other inQueue
    · rw [List.forall_mem_singleton, newWord, long]
      exact Nat.le_succ _
  · refine List.forall_mem_append.mpr ⟨fun other inQueue => ?_, ?_⟩
    · rw [words other (List.mem_append_right _ inQueue)]
      exact levels.queue_le other inQueue
    · rw [List.forall_mem_singleton, newWord, long]
  · refine List.pairwise_append.mpr
      ⟨levels.sorted.imp_of_mem ?_, List.pairwise_singleton _ _, ?_⟩
    · intro left right inLeft inRight order
      rwa [words left (List.mem_append_right _ inLeft),
        words right (List.mem_append_right _ inRight)]
    · intro left inLeft right isNew
      rw [List.mem_singleton.mp isNew, newWord, long,
        words left (List.mem_append_right _ inLeft)]
      exact levels.queue_le left inLeft

/-- A state of the queue gets another word of the same length. -/
theorem Levels.put (levels : Levels a accepted level done search) {ref : Nat}
    {word : Word} (known : ref ∈ done ++ search.queue)
    (walked : Path (StepOn a accepted) a.initial word ref)
    (nonempty : search.wordOf ref ≠ [])
    (long : word.length = (search.wordOf ref).length) :
    Levels a accepted level done (search.put ref word) := by
  have lengths : ∀ other, ((search.put ref word).wordOf other).length =
      (search.wordOf other).length := by
    intro other
    by_cases same : other = ref
    · rw [same, ExampleSearch.put_wordOf_self, long]
    · rw [ExampleSearch.put_wordOf_of_ne same]
  constructor
  · exact levels.nodup
  · exact levels.inside
  · intro other
    rw [ExampleSearch.put_queue, ← levels.known]
    by_cases same : other = ref
    · rw [same, ExampleSearch.put_path_self, levels.path_eq known]
      exact Iff.rfl
    · rw [ExampleSearch.put_path_of_ne same]
  · intro other found path
    by_cases same : other = ref
    · rw [same, ExampleSearch.put_path_self] at path
      rw [same, ← Option.some.inj path]
      exact walked
    · rw [ExampleSearch.put_path_of_ne same] at path
      exact levels.walk other found path
  · rw [ExampleSearch.put_path_of_ne (levels.not_initial (Or.inl nonempty)),
      levels.start]
  · intro other inDone
    rw [lengths]
    exact levels.done_le other inDone
  · intro other inQueue
    rw [lengths]
    exact levels.le_queue other inQueue
  · intro other inQueue
    rw [lengths]
    exact levels.queue_le other inQueue
  · refine levels.sorted.imp fun order => ?_
    rwa [lengths, lengths]

/-- A changed search: the words only get better, and those of the states done
stay. -/
structure Improved (done : List Nat) (search after : ExampleSearch) :
    Prop where
  stays : ∀ ref ∈ done, after.path ref = search.path ref
  better : ∀ ref word, search.path ref = some word →
    ∃ word', after.path ref = some word' ∧
      rank (codes word') ≤ rank (codes word)
  best : after.best = search.best

namespace Improved

theorem refl : Improved done search search where
  stays := fun _ _ => rfl
  better := fun _ word path => ⟨word, path, le_rfl⟩
  best := rfl

theorem trans {middle after : ExampleSearch}
    (first : Improved done search middle) (second : Improved done middle after) :
    Improved done search after where
  stays := fun ref member =>
    (second.stays ref member).trans (first.stays ref member)
  better := by
    intro ref word path
    rcases first.better ref word path with ⟨word', path', less⟩
    rcases second.better ref word' path' with ⟨word'', path'', less'⟩
    exact ⟨word'', path'', less'.trans less⟩
  best := second.best.trans first.best

/-- A word for a state that is not done, better than the one it has. -/
theorem put {ref : Nat} {word : Word} (notDone : ref ∉ done)
    (better : ∀ old, search.path ref = some old →
      rank (codes word) ≤ rank (codes old)) :
    Improved done search (search.put ref word) where
  stays := by
    intro other inDone
    apply ExampleSearch.put_path_of_ne
    rintro rfl
    exact notDone inDone
  better := by
    intro other old path
    by_cases same : other = ref
    · rw [same] at path ⊢
      exact ⟨word, ExampleSearch.put_path_self, better old path⟩
    · exact ⟨old, (ExampleSearch.put_path_of_ne same).trans path, le_rfl⟩
  best := rfl

theorem wordOf_eq {after : ExampleSearch}
    (improved : Improved done search after) {ref : Nat} (member : ref ∈ done) :
    after.wordOf ref = search.wordOf ref := by
  rw [ExampleSearch.wordOf, improved.stays ref member, ExampleSearch.wordOf]

theorem follows {after : ExampleSearch}
    (improved : Improved done search after) {source : Nat}
    (member : source ∈ done) {t : Transition}
    (follows : Follows search source t) : Follows after source t := by
  rcases follows with ⟨word, path, order⟩
  rcases improved.better _ word path with ⟨word', path', less⟩
  refine ⟨word', path', less.trans ?_⟩
  rwa [improved.wordOf_eq member]

end Improved

/-- One transition of the state that was just taken from the queue. -/
theorem Levels.followTransition {source : Nat} {t : Transition}
    (levels : Levels a accepted level done search) (member : source ∈ done)
    (atLevel : (search.wordOf source).length = level)
    (inState : t ∈ (a.state source).transitions)
    (onward : (a.state source).accept ≠ accepted) :
    Levels a accepted level done
        (Automata.followTransition (search.wordOf source) search t) ∧
      Improved done search
        (Automata.followTransition (search.wordOf source) search t) ∧
      Follows (Automata.followTransition (search.wordOf source) search t)
        source t := by
  have walked : Path (StepOn a accepted) a.initial
      (search.wordOf source ++ [t.min]) t.dest :=
    (levels.walk source _ (levels.path_eq (List.mem_append_left _ member))).snoc
      ⟨⟨t, inState, t.reads_min, rfl⟩, onward⟩
  have long : (search.wordOf source ++ [t.min]).length = level + 1 := by
    rw [List.length_append, atLevel, List.length_singleton]
  rw [Automata.followTransition]
  cases found : search.path t.dest with
  | none =>
      dsimp only
      have new : t.dest ∉ done ++ search.queue := by
        intro old
        rw [← levels.known, found] at old
        exact Bool.false_ne_true old
      have improved : Improved done search
          (search.put t.dest (search.wordOf source ++ [t.min])) :=
        Improved.put (fun inDone => new (List.mem_append_left _ inDone))
          fun old path => absurd (found.symm.trans path)
            (Option.some_ne_none old).symm
      refine ⟨levels.meet new (a.closed.step_lt
        ⟨t, inState, t.reads_min, rfl⟩) walked long,
        ⟨improved.stays, improved.better, rfl⟩, _,
        ExampleSearch.put_path_self, ?_⟩
      rw [ExampleSearch.addLast_wordOf, improved.wordOf_eq member]
  | some tp =>
      dsimp only
      have old : t.dest ∈ done ++ search.queue :=
        (levels.known _).mp (by rw [found]; rfl)
      have isWord := ExampleSearch.wordOf_eq found
      by_cases replaces : tp.length = (search.wordOf source ++ [t.min]).length ∧
          compareTo (search.wordOf source ++ [t.min]) tp < 0
      · rw [if_pos replaces]
        have notDone : t.dest ∉ done := by
          intro inDone
          have low := levels.done_le _ inDone
          rw [isWord, replaces.1, long] at low
          omega
        have improved : Improved done search
            (search.put t.dest (search.wordOf source ++ [t.min])) := by
          apply Improved.put notDone
          intro other path
          rw [← Option.some.inj (found.symm.trans path)]
          exact (replaces_iff.mp replaces).2.le
        refine ⟨levels.put old walked ?_ (isWord ▸ replaces.1.symm), improved,
          _, ExampleSearch.put_path_self, ?_⟩
        · rw [isWord, ← List.length_pos_iff, replaces.1, long]
          exact Nat.succ_pos _
        · rw [improved.wordOf_eq member]
      · rw [if_neg replaces]
        refine ⟨levels, Improved.refl, tp, found, ?_⟩
        have near : tp.length ≤ level + 1 := by
          rw [← isWord]
          rcases List.mem_append.mp old with inDone | inQueue
          · exact (levels.done_le _ inDone).trans (Nat.le_succ _)
          · exact levels.queue_le _ inQueue
        rw [replaces_iff, not_and, not_lt] at replaces
        rcases near.lt_or_eq with shorter | same
        · apply rank_le_of_length_lt
          rw [length_codes, length_codes, long]
          exact shorter
        · exact replaces (same.trans long.symm)

/-- All transitions of the state that was just taken from the queue. -/
theorem Levels.foldl_followTransition {source : Nat} {ts : List Transition}
    (levels : Levels a accepted level done search) (member : source ∈ done)
    (atLevel : (search.wordOf source).length = level)
    (inState : ∀ t ∈ ts, t ∈ (a.state source).transitions)
    (onward : (a.state source).accept ≠ accepted) {p : Word}
    (isWord : search.wordOf source = p) :
    Levels a accepted level done
        (ts.foldl (Automata.followTransition p) search) ∧
      Improved done search (ts.foldl (Automata.followTransition p) search) ∧
      ∀ t ∈ ts, Follows (ts.foldl (Automata.followTransition p) search)
        source t := by
  induction ts generalizing search with
  | nil =>
      exact ⟨levels, Improved.refl,
        fun t none => absurd none List.not_mem_nil⟩
  | cons t ts induction =>
      rcases List.forall_mem_cons.mp inState with ⟨here, others⟩
      rcases levels.followTransition member atLevel here onward with
        ⟨next, improved, follows⟩
      rw [isWord] at next improved follows
      have same := improved.wordOf_eq member
      rcases induction next (same ▸ atLevel) others (same.trans isWord) with
        ⟨final, improved', followsAll⟩
      exact ⟨final, improved.trans improved', List.forall_mem_cons.mpr
        ⟨improved'.follows member follows, followsAll⟩⟩

/-! ## The whole search -/

/-- The states done are followed, and the best example is the best of them. -/
structure Examined (a : Automaton) (accepted : Bool) (done : List Nat)
    (search : ExampleSearch) : Prop where
  follows : ∀ ref ∈ done, (a.state ref).accept ≠ accepted →
    ∀ t ∈ (a.state ref).transitions, Follows search ref t
  least : ∀ ref ∈ done, (a.state ref).accept = accepted →
    ∃ b, search.best = some b ∧
      rank (codes b) ≤ rank (codes (search.wordOf ref))
  found : ∀ b, search.best = some b →
    ∃ ref ∈ done, (a.state ref).accept = accepted ∧ search.path ref = some b

theorem improve_spec (best : Option Word) (p : Word) :
    ∃ b, improve best p = some b ∧ rank (codes b) ≤ rank (codes p) ∧
      (∀ old, best = some old → rank (codes b) ≤ rank (codes old)) ∧
        (b = p ∨ best = some b) := by
  cases best with
  | none =>
      exact ⟨p, rfl, le_rfl, fun old none => absurd none.symm
        (Option.some_ne_none old), Or.inl rfl⟩
  | some b =>
      have better : (p.length < b.length ∨
          p.length = b.length ∧ compareTo p b < 0) ↔
            rank (codes p) < rank (codes b) := by
        rw [rank_lt_iff, length_codes, length_codes]
        refine or_congr_right (and_congr_right fun long => ?_)
        exact compareTo_neg_iff long
      rw [improve]
      split_ifs with replaces
      · refine ⟨p, rfl, le_rfl, fun old isOld => ?_, Or.inl rfl⟩
        rw [← Option.some.inj isOld]
        exact (better.mp replaces).le
      · refine ⟨b, rfl, not_lt.mp (mt better.mpr replaces), fun old isOld => ?_,
          Or.inr rfl⟩
        rw [Option.some.inj isOld]

/-- One state of the queue. -/
theorem Levels.examineState {path : Nat → Option Word} {q : Nat}
    {queue : List Nat} {best : Option Word}
    (levels : Levels a accepted level done ⟨path, q :: queue, best⟩)
    (examined : Examined a accepted done ⟨path, q :: queue, best⟩) :
    ∃ level', Levels a accepted level' (done ++ [q])
        (Automata.examineState a accepted ⟨path, queue, best⟩ q) ∧
      Examined a accepted (done ++ [q])
        (Automata.examineState a accepted ⟨path, queue, best⟩ q) := by
  have popped : Levels a accepted
      ((⟨path, queue, best⟩ : ExampleSearch).wordOf q).length (done ++ [q])
      ⟨path, queue, best⟩ := by
    have low := levels.le_queue q List.mem_cons_self
    have same : done ++ [q] ++ queue = done ++ q :: queue :=
      (List.append_cons _ _ _).symm
    rcases List.pairwise_cons.mp levels.sorted with ⟨first, sorted⟩
    constructor
    · exact same ▸ levels.nodup
    · exact same ▸ levels.inside
    · exact same ▸ levels.known
    · exact levels.walk
    · exact levels.start
    · refine List.forall_mem_append.mpr ⟨fun ref inDone => ?_, ?_⟩
      · exact (levels.done_le ref inDone).trans low
      · exact List.forall_mem_singleton.mpr le_rfl
    · exact first
    · intro ref inQueue
      have near := levels.queue_le ref (List.mem_cons_of_mem _ inQueue)
      exact near.trans (Nat.succ_le_succ low)
    · exact sorted
  have last : q ∈ done ++ [q] :=
    List.mem_append_right _ (List.mem_singleton_self q)
  refine ⟨((⟨path, queue, best⟩ : ExampleSearch).wordOf q).length, ?_⟩
  rw [Automata.examineState]
  split_ifs with accepts
  · rcases improve_spec best ((⟨path, queue, best⟩ : ExampleSearch).wordOf q)
      with ⟨b, isBest, least, better, origin⟩
    refine ⟨⟨popped.nodup, popped.inside, popped.known, popped.walk,
      popped.start, popped.done_le, popped.le_queue, popped.queue_le,
      popped.sorted⟩, ?_, ?_, ?_⟩
    · intro ref inDone rejects
      rcases List.mem_append.mp inDone with old | isLast
      · exact examined.follows ref old rejects
      · rw [List.mem_singleton.mp isLast] at rejects
        exact absurd accepts rejects
    · intro ref inDone accept
      refine ⟨b, isBest, ?_⟩
      rcases List.mem_append.mp inDone with old | isLast
      · rcases examined.least ref old accept with ⟨old, isOld, order⟩
        exact (better old isOld).trans order
      · rw [List.mem_singleton.mp isLast]
        exact least
    · intro b' isBest'
      have same : b = b' := Option.some.inj (isBest.symm.trans isBest')
      rcases origin with isWord | isOld
      · refine ⟨q, last, accepts, ?_⟩
        rw [← same, isWord]
        exact popped.path_eq (List.mem_append_left _ last)
      · rcases examined.found b isOld with ⟨ref, inDone, accept, isPath⟩
        exact ⟨ref, List.mem_append_left _ inDone, accept, same ▸ isPath⟩
  · rcases popped.foldl_followTransition last rfl (fun _ => id) accepts rfl
      with ⟨after, improved, follows⟩
    refine ⟨after, ?_, ?_, ?_⟩
    · intro ref inDone rejects
      rcases List.mem_append.mp inDone with old | isLast
      · exact fun t inState =>
          improved.follows inDone (examined.follows ref old rejects t inState)
      · rw [List.mem_singleton.mp isLast]
        exact follows
    · intro ref inDone accept
      rcases List.mem_append.mp inDone with old | isLast
      · rw [improved.best, improved.wordOf_eq inDone]
        exact examined.least ref old accept
      · rw [List.mem_singleton.mp isLast] at accept
        exact absurd accept accepts
    · intro b isBest
      rw [improved.best] at isBest
      rcases examined.found b isBest with ⟨ref, old, accept, isPath⟩
      have inDone : ref ∈ done ++ [q] := List.mem_append_left _ old
      exact ⟨ref, inDone, accept, (improved.stays ref inDone).trans isPath⟩

/-- The loop ends with an empty queue. -/
theorem examineQueue_returns {fuel : Nat}
    (levels : Levels a accepted level done search)
    (examined : Examined a accepted done search)
    (enough : a.states.length ≤ fuel + done.length) :
    ∃ level' done' final, examineQueue a accepted fuel search =
        some final.best ∧ final.queue = [] ∧
      Levels a accepted level' done' final ∧
        Examined a accepted done' final := by
  induction fuel generalizing level done search with
  | zero =>
      rcases search with ⟨path, queue, best⟩
      cases queue with
      | nil => exact ⟨level, done, _, rfl, rfl, levels, examined⟩
      | cons q queue =>
          have bound : (done ++ q :: queue).length ≤ a.states.length := by
            rw [← List.toFinset_card_of_nodup levels.nodup,
              ← Finset.card_range a.states.length]
            exact Finset.card_le_card fun ref member =>
              Finset.mem_range.mpr
                (levels.inside ref (List.mem_toFinset.mp member))
          rw [List.length_append, List.length_cons] at bound
          omega
  | succ fuel induction =>
      rcases search with ⟨path, queue, best⟩
      cases queue with
      | nil => exact ⟨level, done, _, rfl, rfl, levels, examined⟩
      | cons q queue =>
          rcases levels.examineState examined with ⟨level', next, nextExamined⟩
          rcases induction next nextExamined (by
              rw [List.length_append, List.length_singleton]
              omega) with ⟨level'', done'', final, returned, rest⟩
          exact ⟨level'', done'', final, returned, rest⟩

/-- At the end no word to a state is before the word kept for it. -/
theorem Examined.word_le (levels : Levels a accepted level done search)
    (examined : Examined a accepted done search) (finished : search.queue = [])
    {word : Word} {target : Nat}
    (path : Path (StepOn a accepted) a.initial word target) :
    target ∈ done ∧
      rank (codes (search.wordOf target)) ≤ rank (codes word) := by
  have inDone : ∀ ref word, search.path ref = some word → ref ∈ done := by
    intro ref word isPath
    have known := (levels.known ref).mp (by rw [isPath]; rfl)
    rwa [finished, List.append_nil] at known
  induction word using List.reverseRecOn generalizing target with
  | nil =>
      cases Path.nil_iff.mp path
      rw [ExampleSearch.wordOf_eq levels.start]
      exact ⟨inDone _ _ levels.start, le_rfl⟩
  | append_singleton word c induction =>
      rcases Path.snoc_iff.mp path with
        ⟨source, before, ⟨t, inState, reads, rfl⟩, rejects⟩
      rcases induction before with ⟨known, order⟩
      rcases examined.follows source known rejects t inState with
        ⟨found, isPath, least⟩
      refine ⟨inDone _ _ isPath, ?_⟩
      rw [ExampleSearch.wordOf_eq isPath]
      refine least.trans ?_
      rw [codes_append, codes_append]
      exact rank_snoc_le order (UInt16.le_iff_toNat_le.mp reads.1)

theorem levels_start : Levels a accepted 0 [] (startSearch a) := by
  have path : (startSearch a).path a.initial = some [] :=
    ExampleSearch.put_path_self
  have away : ∀ ref, ref ≠ a.initial → (startSearch a).path ref = none :=
    fun ref different => ExampleSearch.put_path_of_ne different
  have word := ExampleSearch.wordOf_eq path
  have queue : (startSearch a).queue = [a.initial] := rfl
  constructor
  · exact List.nodup_singleton _
  · exact List.forall_mem_singleton.mpr a.initial_lt
  · intro ref
    rw [List.nil_append, queue, List.mem_singleton]
    by_cases same : ref = a.initial
    · rw [same, path]
      exact iff_of_true rfl rfl
    · rw [away ref same]
      exact iff_of_false Bool.false_ne_true same
  · intro ref found isPath
    by_cases same : ref = a.initial
    · rw [same, path] at isPath
      rw [same, ← Option.some.inj isPath]
      exact Path.nil _
    · rw [away ref same] at isPath
      exact absurd isPath.symm (Option.some_ne_none found)
  · exact path
  · exact fun ref none => absurd none List.not_mem_nil
  · exact List.forall_mem_singleton.mpr (Nat.zero_le _)
  · refine List.forall_mem_singleton.mpr ?_
    rw [word]
    exact Nat.zero_le _
  · exact List.pairwise_singleton _ _

/-- The example is the first one of all; null is returned if there is none. -/
theorem getShortestExample_spec :
    (∀ word, getShortestExample a accepted = some word →
      IsExample a accepted word ∧ ∀ other, IsExample a accepted other →
        rank (codes word) ≤ rank (codes other)) ∧
      (getShortestExample a accepted = none →
        ∀ word, ¬ IsExample a accepted word) := by
  have start : Examined a accepted [] (startSearch a) :=
    ⟨fun _ none => absurd none List.not_mem_nil,
      fun _ none => absurd none List.not_mem_nil,
      fun b none => absurd none.symm (Option.some_ne_none b)⟩
  rcases examineQueue_returns levels_start start le_rfl with
    ⟨level, done, final, returned, finished, levels, examined⟩
  have result : getShortestExample a accepted = final.best := by
    rw [getShortestExample, returned, Option.getD_some]
  have least : ∀ other, IsExample a accepted other →
      ∃ b, final.best = some b ∧ rank (codes b) ≤ rank (codes other) := by
    rintro other ⟨target, path, accept⟩
    rcases examined.word_le levels finished path with ⟨inDone, order⟩
    rcases examined.least target inDone accept with ⟨b, isBest, order'⟩
    exact ⟨b, isBest, order'.trans order⟩
  rw [result]
  constructor
  · intro word isBest
    rcases examined.found word isBest with ⟨ref, _, accept, isPath⟩
    refine ⟨⟨ref, levels.walk ref word isPath, accept⟩, fun other example' => ?_⟩
    rcases least other example' with ⟨b, isBest', order⟩
    rwa [Option.some.inj (isBest.symm.trans isBest')]
  · intro none word example'
    rcases least word example' with ⟨b, isBest, _⟩
    exact absurd (isBest.symm.trans none) (Option.some_ne_none b)

end Search

/-! ## Accepted words -/

section Accepted

variable {a : Automaton}

/-- A word to a state that is looked for begins with an example. -/
theorem exists_example {accepted : Bool} {word : Word} {source target : Nat}
    (path : Path a.states.Step source word target)
    (accept : (a.state target).accept = accepted) :
    ∃ first rest middle, word = first ++ rest ∧
      Path (StepOn a accepted) source first middle ∧
        (a.state middle).accept = accepted := by
  induction path with
  | nil source => exact ⟨[], [], source, rfl, Path.nil _, accept⟩
  | @cons source _ _ c word taken _ induction =>
      by_cases here : (a.state source).accept = accepted
      · exact ⟨[], c :: word, source, rfl, Path.nil _, here⟩
      · rcases induction accept with ⟨first, rest, middle, rfl, path, accept'⟩
        exact ⟨c :: first, rest, middle, rfl, path.cons ⟨taken, here⟩, accept'⟩

/-- Null is returned if no state that is looked for is reachable, and otherwise
the first word to such a state. -/
theorem getShortestExample_first {accepted : Bool} :
    (getShortestExample a accepted = none ↔
        ∀ ref, a.Reachable ref → (a.state ref).accept ≠ accepted) ∧
      ∀ word, getShortestExample a accepted = some word →
        (∃ target, Path a.states.Step a.initial word target ∧
          (a.state target).accept = accepted) ∧
        ∀ other target, Path a.states.Step a.initial other target →
          (a.state target).accept = accepted →
            rank (codes word) ≤ rank (codes other) := by
  rcases @getShortestExample_spec a accepted with ⟨found, none⟩
  have path_of_example : ∀ word, IsExample a accepted word →
      ∃ target, Path a.states.Step a.initial word target ∧
        (a.state target).accept = accepted := by
    rintro word ⟨target, path, accept⟩
    exact ⟨target, path.mono fun _ _ _ taken => taken.1, accept⟩
  constructor
  · constructor
    · rintro null ref ⟨word, path⟩ accept
      rcases exists_example path accept with
        ⟨first, _, middle, _, path', accept'⟩
      exact none null first ⟨middle, path', accept'⟩
    · intro never
      cases returned : getShortestExample a accepted with
      | none => rfl
      | some word =>
          rcases path_of_example word (found word returned).1 with
            ⟨target, path, accept⟩
          exact absurd accept (never target ⟨word, path⟩)
  · intro word returned
    rcases found word returned with ⟨isExample, least⟩
    refine ⟨path_of_example word isExample, fun other target path accept => ?_⟩
    rcases exists_example path accept with
      ⟨first, rest, middle, rfl, path', accept'⟩
    refine (least first ⟨middle, path', accept'⟩).trans ?_
    rw [codes_append]
    exact rank_le_append _ _

/-- `getShortestExample(a, true)` is null exactly for the empty language, and
the word it returns is accepted and the first of the accepted words. -/
theorem getShortestExample_accepted :
    (getShortestExample a true = none ↔ a.lang = ∅) ∧
      ∀ word, getShortestExample a true = some word →
        word ∈ a.lang ∧ ∀ other ∈ a.lang,
          rank (codes word) ≤ rank (codes other) := by
  rcases @getShortestExample_first a true with ⟨null, found⟩
  constructor
  · rw [null, Set.eq_empty_iff_forall_notMem]
    constructor
    · rintro never word ⟨target, path, accept⟩
      exact never target ⟨word, path⟩ accept
    · rintro empty ref ⟨word, path⟩ accept
      exact empty word ⟨ref, path, accept⟩
  · intro word returned
    rcases found word returned with ⟨member, least⟩
    refine ⟨member, ?_⟩
    rintro other ⟨target, path, accept⟩
    exact least other target path accept

/-- On a deterministic automaton `getShortestExample(a, false)` is null exactly if
every word that does not get stuck is accepted; the word it returns does not get
stuck and is the first rejected one of these. -/
theorem getShortestExample_rejected
    (deterministic : a.states.DeterministicFrom a.initial) :
    (getShortestExample a false = none ↔ ∀ word target,
        Path a.states.Step a.initial word target → word ∈ a.lang) ∧
      ∀ word, getShortestExample a false = some word →
        (∃ target, Path a.states.Step a.initial word target) ∧
          word ∉ a.lang ∧ ∀ other target,
            Path a.states.Step a.initial other target → other ∉ a.lang →
              rank (codes word) ≤ rank (codes other) := by
  have decided : ∀ word target, Path a.states.Step a.initial word target →
      (word ∉ a.lang ↔ (a.state target).accept = false) := by
    intro word target path
    have accepts : a.states.Accepts a.initial (word ++ []) ↔
        a.states.Accepts target [] := deterministic.accepts_append_iff path
    rw [List.append_nil, Heap.accepts_nil] at accepts
    rw [← Bool.not_eq_true]
    exact not_congr accepts
  rcases @getShortestExample_first a false with ⟨null, found⟩
  constructor
  · rw [null]
    constructor
    · intro never word target path
      by_contra rejected
      exact never target ⟨word, path⟩ ((decided word target path).mp rejected)
    · rintro all ref ⟨word, path⟩ rejects
      exact (decided word ref path).mpr rejects (all word ref path)
  · intro word returned
    rcases found word returned with ⟨⟨target, path, rejects⟩, least⟩
    refine ⟨⟨target, path⟩, (decided word target path).mpr rejects, ?_⟩
    intro other target' path' rejected
    exact least other target' path' ((decided other target' path').mp rejected)

end Accepted

end SafetyGames.Automata
