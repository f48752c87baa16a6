import SafetyGames.Automata.Library
import SafetyGames.Solver.Termination
import SafetyGames.Teacher.Literal

/-!
# The solver on the linear games

The winning vertices of `linearGame(k)` are a regular set over an alphabet
without consecutive and without reserved characters.  So the whole program,
with the operations of the library, ends on every one of these games.
-/

namespace SafetyGames.Solver

open SafetyGames.Transducer SafetyGames.Learner SafetyGames.Teacher
open SafetyGames.Problem SafetyGames.Automata SafetyGames.Game
open SafetyGames.Regular
open Computability

/-! ## Regular sets of vertices -/

/-- A regular set of words over the alphabet has a complete automaton with
numbered states. -/
theorem exists_dfaLang {L : Language JChar} (regular : L.IsRegular)
    {alphabet : List JChar} (letters : ∀ word ∈ L, ∀ c ∈ word, c ∈ alphabet) :
    ∃ N, ∃ M : DFA JChar (Fin N), dfaLang alphabet M = L := by
  rcases regular with ⟨σ, finite, M, accepts⟩
  refine ⟨Fintype.card σ, DFA.reindex (Fintype.equivFin σ) M, ?_⟩
  ext word
  rw [dfaLang, Set.mem_ofPred_eq, DFA.accepts_reindex, accepts]
  exact ⟨And.right, fun member => ⟨letters word member, member⟩⟩

theorem isRegular_singleton (word : Word) :
    ({word} : Language JChar).IsRegular := by
  have same : language (Automaton.makeString word) = {word} :=
    Automaton.lang_makeString word
  exact same ▸ isRegular_language (Automaton.makeString word)

/-- A letter, and at least `n` letters `l`. -/
def longer (letter : JChar) (n : Nat) : Language JChar :=
  {[letter]} * ({[108]} ^ n * {[108]}∗)

theorem isRegular_longer (letter : JChar) (n : Nat) :
    (longer letter n).IsRegular :=
  isRegular_mul (isRegular_singleton _)
    (isRegular_mul (isRegular_pow (isRegular_singleton _) n)
      (isRegular_kstar (isRegular_singleton _)))

theorem mem_longer {letter : JChar} {n : Nat} {word : Word} :
    word ∈ longer letter n ↔
      ∃ m, n ≤ m ∧ word = letter :: List.replicate m 108 := by
  rw [longer, mem_letter_mul]
  constructor
  · rintro ⟨rest, inside, rfl⟩
    rcases Language.mem_mul.mp inside with ⟨_, inPower, _, inStar, rfl⟩
    rcases mem_letter_kstar.mp inStar with ⟨m, rfl⟩
    rw [mem_letter_pow.mp inPower, ← List.replicate_add]
    exact ⟨n + m, Nat.le_add_right n m, rfl⟩
  · rintro ⟨m, order, rfl⟩
    refine ⟨_, Language.mem_mul.mpr ⟨_, mem_letter_pow.mpr rfl, _,
      mem_letter_kstar.mpr ⟨m - n, rfl⟩, rfl⟩, ?_⟩
    rw [← List.replicate_add, Nat.add_sub_cancel' order]

/-- The winning vertices of the line. -/
theorem winningVertices_eq (k : Nat) :
    winningVertices k = longer 115 k + longer 101 (k + 1) := by
  ext word
  exact or_congr mem_longer.symm mem_longer.symm

theorem letters_vertex {letter : JChar}
    (known : letter ∈ ([101, 115, 108] : List JChar)) {m : Nat} :
    ∀ c ∈ letter :: List.replicate m 108,
      c ∈ ([101, 115, 108] : List JChar) := by
  intro c member
  rcases List.mem_cons.mp member with rfl | repeated
  · exact known
  · rw [(List.mem_replicate.mp repeated).2]
    decide

theorem exists_dfaLang_winningVertices (k : Nat) :
    ∃ N, ∃ M : DFA JChar (Fin N),
      dfaLang [101, 115, 108] M = winningVertices k := by
  rw [winningVertices_eq]
  refine exists_dfaLang
    ((isRegular_longer 115 k).add (isRegular_longer 101 (k + 1))) ?_
  rintro word (system | environment)
  · rcases mem_longer.mp system with ⟨m, _, rfl⟩
    exact letters_vertex (by decide)
  · rcases mem_longer.mp environment with ⟨m, _, rfl⟩
    exact letters_vertex (by decide)

/-! ## The games -/

section Line

variable {sp : SafetyProblem} {k : Nat}
  (alphabet : sp.alphabet = [101, 115, 108]) (isLine : sp.game = line k)

include isLine in
theorem relatesVertices_line : sp.RelatesVertices := by
  have owned : sp.aV0.lang ∪ sp.aV1.lang =
      (line k).player0 ∪ (line k).player1 := by
    rw [← isLine]
    rfl
  have edges : ∀ u v, sp.tE.Rel u v → (line k).edge u v := by
    intro u v related
    rw [← isLine]
    exact related
  intro u v related
  rw [owned]
  rcases edges u v related with
    ⟨m, ⟨rfl, rfl⟩ | ⟨rfl, rfl⟩ | ⟨rfl, rfl⟩ | ⟨rfl, rfl⟩⟩
  · exact ⟨Or.inl ⟨m, rfl⟩, Or.inr ⟨m, rfl⟩⟩
  · exact ⟨Or.inl ⟨m, rfl⟩, Or.inr ⟨m + 1, rfl⟩⟩
  · exact ⟨Or.inr ⟨m, rfl⟩, Or.inl ⟨m, rfl⟩⟩
  · exact ⟨Or.inr ⟨m + 1, rfl⟩, Or.inl ⟨m, rfl⟩⟩

include alphabet isLine in
theorem overAlphabet_line : sp.OverAlphabet := by
  have owned : sp.aV0.lang ∪ sp.aV1.lang =
      (line k).player0 ∪ (line k).player1 := by
    rw [← isLine]
    rfl
  intro u member
  rw [owned] at member
  rw [alphabet]
  rcases member with ⟨m, rfl⟩ | ⟨m, rfl⟩
  · exact letters_vertex (by decide)
  · exact letters_vertex (by decide)

end Line

theorem noConsecutive_line : NoConsecutive [101, 115, 108] := by
  intro c member
  simp only [List.mem_cons, List.not_mem_nil, or_false] at member
  rcases member with rfl | rfl | rfl <;> decide

/-- Words of the letters of the linear games are regular expressions for
themselves. -/
theorem literal_line {lib : Library} {ops : Operations}
    (parses : lib.regExp = automatonOf ops) {u : Word}
    (letters : ∀ c ∈ u, c ∈ ([101, 115, 108] : List JChar)) : lib.Literal u := by
  have free : ∀ c ∈ u, c ∉ reserved := by
    intro c member
    have known := letters c member
    simp only [List.mem_cons, List.not_mem_nil, or_false] at known
    rcases known with rfl | rfl | rfl <;> decide
  intro a returned
  rw [parses, automatonOf_verbatim (verbatim_of_free free)] at returned
  cases returned
  exact builds_makeString u

/-- On a linear game whose automata were built by any operations of the laws the
loop ends, every search ends, and what is returned is won: in the normal mode on
every run, in debug mode while the names of different variables do not clash. -/
structure Solved (lib : Library) (sp : SafetyProblem) (k : Nat) : Prop where
  ends : ∀ debug learner image w, Endless lib sp debug learner image w →
    ¬ ∀ i, NamesApart sp.alphabet debug (learner i).s
  searches : ∀ (debug : Bool) (iterations : List Iteration) (learner : Learner),
    Solving lib sp debug iterations learner →
      (∀ iteration ∈ iterations, Documented debug iteration.image) →
      NamesApart sp.alphabet debug learner.s →
        ∃ m, learner.n ≤ m ∧ ∀ order,
          Satisfiable order sp.alphabet debug learner.s m
  normal : ∀ s, NamesApart sp.alphabet false s
  wins : ∀ (debug : Bool) (iterations : List Iteration) (image : ImageFunction)
    (w : Automaton), Returns lib sp debug iterations image w →
      Documented debug image →
        Winning sp.game w.lang ∧ w.lang ⊆ winningVertices k

theorem solved_of_line {lib : Library} (correct : lib.Correct)
    {ops : Operations} (parses : lib.regExp = automatonOf ops)
    {sp : SafetyProblem} (alphabet : sp.alphabet = [101, 115, 108]) {k : Nat}
    (positive : 1 ≤ k) (isLine : sp.game = line k) : Solved lib sp k := by
  have nodup : sp.alphabet.Nodup := alphabet ▸ by decide
  have spread : NoConsecutive sp.alphabet := alphabet ▸ noConsecutive_line
  have literal : ∀ u, (∀ c ∈ u, c ∈ sp.alphabet) → lib.Literal u :=
    fun u letters => literal_line parses (alphabet ▸ letters)
  have relates := relatesVertices_line isLine
  have vertices := overAlphabet_line alphabet isLine
  rcases exists_dfaLang_winningVertices k with ⟨N, M, recognised⟩
  have wins : Winning sp.game (dfaLang sp.alphabet M) := by
    rw [alphabet, recognised, isLine]
    exact winning_line k
  constructor
  · intro debug learner image w endless
    exact endless.not_solvable correct nodup spread literal relates vertices wins
  · intro debug iterations learner solving documented apart
    have exact := solving.exact correct nodup literal documented
    exact ⟨N + 1,
      solving.small correct nodup relates vertices spread wins exact apart,
      solving.satisfiable correct nodup relates vertices spread wins exact apart⟩
  · exact fun _ => Or.inl rfl
  · rintro debug iterations image w ⟨before, after, solving, round⟩ documented
    have letters := round.letters correct nodup
    have exact : RoundExact lib image sp w := documented.roundExact correct
      (fun u member => literal u (letters u member))
      (round.spec correct nodup).1
    rcases round.answer correct nodup relates exact with
      ⟨_, _, won⟩ | ⟨isFalse, _⟩
    · refine ⟨won, subset_winningVertices positive ?_⟩
      rw [← isLine]
      exact won
    · exact absurd isFalse (by decide)

/--
The whole program on the linear games, with the operations of the library.
-/
theorem linearGame_solved {view : Automaton → Representation}
    {identical : Representation → Representation → Bool} {order : StateOrder}
    (expands : ∀ a, (view a).expand = a)
    (same : ∀ r1 r2, identical r1 r2 = true → r1 = r2) {k : Int32}
    (positive : 1 ≤ k) :
    ∃ sp, linearGame (libraryOperations view identical order)
        (libraryOperations_correct expands same) k = some sp ∧
      Solved (automatonLibrary view identical order) sp k.toInt.toNat := by
  rcases linearGame_eq_line (libraryOperations_correct expands same) positive with
    ⟨sp, builds, alphabet, isLine⟩
  have lower : 1 ≤ k.toInt.toNat := (intText_pred positive).2.2
  exact ⟨sp, builds, solved_of_line (automatonLibrary_correct expands same) rfl
    alphabet lower isLine⟩

/--
The game that `Main` solves, on automata with states.
-/
theorem linearGame_solved_three :
    ∃ sp, linearGame (libraryOperations .explicit (fun _ _ => false) .found)
        (libraryOperations_correct (fun _ => rfl) (by simp)) 3 = some sp ∧
      Solved (automatonLibrary .explicit (fun _ _ => false) .found) sp 3 :=
  linearGame_solved (fun _ => rfl) (by simp) (by decide)

end SafetyGames.Solver
