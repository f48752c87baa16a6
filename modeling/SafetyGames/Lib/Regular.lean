import Mathlib.Computability.MyhillNerode
import Mathlib.Data.Finite.Prod
import Mathlib.Data.Set.Finite.Powerset

/-!
# Operations on regular languages

Products, powers and iterations of regular languages are regular: a left
quotient of the result is put together from left quotients of its factors.
Below, the words of a product with a letter or with an iterated letter.
-/

namespace SafetyGames.Regular

open Computability

variable {α : Type*} {L M : Language α}

/-! ## Closure -/

theorem isRegular_zero : (0 : Language α).IsRegular := by
  apply Language.IsRegular.of_finite_range_leftQuotient
  apply (Set.finite_singleton (0 : Language α)).subset
  rintro _ ⟨word, rfl⟩
  rfl

theorem isRegular_one : (1 : Language α).IsRegular := by
  apply Language.IsRegular.of_finite_range_leftQuotient
  apply (Set.toFinite {(1 : Language α), 0}).subset
  rintro _ ⟨word, rfl⟩
  cases word with
  | nil => exact Or.inl rfl
  | cons letter word =>
      right
      ext rest
      simp only [Language.mem_leftQuotient, Language.mem_one,
        List.cons_append, List.cons_ne_nil, Language.notMem_zero]

/-- The quotients by the suffixes of a word behind a prefix in the language. -/
def suffixQuotients (before L : Language α) (word : List α) :
    Set (Language α) :=
  {quotient | ∃ u ∈ before, ∃ v, word = u ++ v ∧ L.leftQuotient v = quotient}

theorem suffixQuotients_subset (before : Language α) (word : List α) :
    suffixQuotients before L word ∈
      {set | set ⊆ Set.range L.leftQuotient} := by
  rintro _ ⟨_, _, v, _, rfl⟩
  exact ⟨v, rfl⟩

/-- The words of the languages of a set. -/
def unionOf (languages : Set (Language α)) : Language α :=
  {word | ∃ L ∈ languages, word ∈ L}

/-- Either the word ends in the first factor, or in the second. -/
theorem leftQuotient_mul (word : List α) :
    (L * M).leftQuotient word =
      L.leftQuotient word * M + unionOf (suffixQuotients L M word) := by
  ext rest
  rw [Language.mem_leftQuotient, Language.mem_mul, Language.mem_add,
    Language.mem_mul]
  constructor
  · rintro ⟨u, inL, v, inM, same⟩
    rcases List.append_eq_append_iff.mp same with
      ⟨middle, rfl, rfl⟩ | ⟨middle, rfl, rfl⟩
    · exact Or.inr ⟨_, ⟨u, inL, middle, rfl, rfl⟩, inM⟩
    · exact Or.inl ⟨middle, inL, v, inM, rfl⟩
  · rintro (⟨u, inL, v, inM, rfl⟩ | ⟨_, ⟨u, inL, v, rfl, rfl⟩, inM⟩)
    · exact ⟨word ++ u, inL, v, inM, List.append_assoc word u v⟩
    · exact ⟨u, inL, v ++ rest, inM, (List.append_assoc u v rest).symm⟩

theorem isRegular_mul (regular : L.IsRegular) (regular' : M.IsRegular) :
    (L * M).IsRegular := by
  apply Language.IsRegular.of_finite_range_leftQuotient
  have finite := regular.finite_range_leftQuotient
  have finite' := Set.Finite.finite_subsets regular'.finite_range_leftQuotient
  apply ((finite.prod finite').image
    fun parts => parts.1 * M + unionOf parts.2).subset
  rintro _ ⟨word, rfl⟩
  exact ⟨(L.leftQuotient word, suffixQuotients L M word),
    ⟨⟨word, rfl⟩, suffixQuotients_subset L word⟩, (leftQuotient_mul word).symm⟩

theorem append_mem_kstar {u v : List α} (first : u ∈ L∗) (second : v ∈ L∗) :
    u ++ v ∈ L∗ := by
  rw [← kstar_mul_kstar L]
  exact Language.append_mem_mul first second

theorem mem_kstar_of_mem {word : List α} (member : word ∈ L) : word ∈ L∗ :=
  (le_kstar : L ≤ L∗) member

/-- A word of an iteration is cut where its nonempty prefix ends: within a
factor, between the factors `u` and the factors `last`. -/
theorem exists_cut {factors : List (List α)} {word rest : List α}
    (members : ∀ factor ∈ factors, factor ∈ L) (nonempty : word ≠ [])
    (same : factors.flatten = word ++ rest) :
    ∃ u ∈ L∗, ∃ v first, word = u ++ v ∧ v ++ first ∈ L ∧
      ∃ last ∈ L∗, rest = first ++ last := by
  induction factors generalizing word with
  | nil => exact absurd (List.append_eq_nil_iff.mp same.symm).1 nonempty
  | cons factor factors induction =>
      have member := members factor List.mem_cons_self
      have others : ∀ factor ∈ factors, factor ∈ L :=
        fun other inRest => members other (List.mem_cons_of_mem factor inRest)
      rw [List.flatten_cons] at same
      rcases List.append_eq_append_iff.mp same with
        ⟨middle, rfl, behind⟩ | ⟨middle, rfl, rfl⟩
      · cases middle with
        | nil =>
            refine ⟨[], Language.nil_mem_kstar L, factor, [], ?_, ?_,
              factors.flatten, Language.join_mem_kstar others, behind.symm⟩
            · exact List.append_nil factor
            · rw [List.append_nil]
              exact member
        | cons letter middle =>
            rcases induction others (List.cons_ne_nil _ _) behind with
              ⟨u, inStar, v, first, isMiddle, inL, last, rests, isRest⟩
            refine ⟨factor ++ u, ?_, v, first, ?_, inL, last, rests, isRest⟩
            · exact append_mem_kstar (mem_kstar_of_mem member) inStar
            · rw [isMiddle, List.append_assoc]
      · exact ⟨[], Language.nil_mem_kstar L, word, middle, rfl, member,
          factors.flatten, Language.join_mem_kstar others, rfl⟩

/-- Behind a nonempty word the factor it ends in goes on. -/
theorem leftQuotient_kstar {word : List α} (nonempty : word ≠ []) :
    L∗.leftQuotient word = unionOf (suffixQuotients L∗ L word) * L∗ := by
  ext rest
  rw [Language.mem_leftQuotient, Language.mem_mul]
  constructor
  · rintro ⟨factors, same, members⟩
    rcases exists_cut members nonempty same.symm with
      ⟨u, inStar, v, first, isWord, inL, last, rests, isRest⟩
    exact ⟨first, ⟨_, ⟨u, inStar, v, isWord, rfl⟩, inL⟩, last, rests, isRest.symm⟩
  · rintro ⟨first, ⟨_, ⟨u, inStar, v, rfl, rfl⟩, inL⟩, last, rests, rfl⟩
    show u ++ v ++ (first ++ last) ∈ L∗
    rw [List.append_assoc, ← List.append_assoc v]
    exact append_mem_kstar inStar
      (append_mem_kstar (mem_kstar_of_mem inL) rests)

theorem isRegular_kstar (regular : L.IsRegular) : L∗.IsRegular := by
  apply Language.IsRegular.of_finite_range_leftQuotient
  have finite := Set.Finite.finite_subsets regular.finite_range_leftQuotient
  apply ((finite.image fun quotients => unionOf quotients * L∗).insert L∗).subset
  rintro _ ⟨word, rfl⟩
  by_cases isNil : word = []
  · left
    rw [isNil, Language.leftQuotient_nil]
  · right
    exact ⟨suffixQuotients L∗ L word, suffixQuotients_subset L∗ word,
      (leftQuotient_kstar isNil).symm⟩

theorem isRegular_pow (regular : L.IsRegular) (n : Nat) : (L ^ n).IsRegular := by
  induction n with
  | zero =>
      rw [pow_zero]
      exact isRegular_one
  | succ n induction =>
      rw [pow_succ]
      exact isRegular_mul induction regular

theorem isRegular_sum {languages : List (Language α)}
    (regular : ∀ L ∈ languages, L.IsRegular) : languages.sum.IsRegular := by
  induction languages with
  | nil => exact isRegular_zero
  | cons L languages induction =>
      rw [List.sum_cons]
      exact (regular L List.mem_cons_self).add (induction fun M member =>
        regular M (List.mem_cons_of_mem L member))

theorem isRegular_prod {languages : List (Language α)}
    (regular : ∀ L ∈ languages, L.IsRegular) : languages.prod.IsRegular := by
  induction languages with
  | nil => exact isRegular_one
  | cons L languages induction =>
      rw [List.prod_cons]
      exact isRegular_mul (regular L List.mem_cons_self)
        (induction fun M member =>
          regular M (List.mem_cons_of_mem L member))

/-! ## Words by their first letters -/

theorem nil_mem_mul : ([] : List α) ∈ L * M ↔ [] ∈ L ∧ [] ∈ M := by
  rw [Language.mem_mul]
  constructor
  · rintro ⟨u, inL, v, inM, empty⟩
    rcases List.append_eq_nil_iff.mp empty with ⟨rfl, rfl⟩
    exact ⟨inL, inM⟩
  · rintro ⟨inL, inM⟩
    exact ⟨[], inL, [], inM, rfl⟩

/-- Either the first factor reads the letter, or it is empty. -/
theorem cons_mem_mul {letter : α} {word : List α} :
    letter :: word ∈ L * M ↔
      word ∈ L.leftQuotient [letter] * M ∨ [] ∈ L ∧ letter :: word ∈ M := by
  rw [Language.mem_mul, Language.mem_mul]
  constructor
  · rintro ⟨u, inL, v, inM, same⟩
    cases u with
    | nil =>
        rw [List.nil_append] at same
        exact Or.inr ⟨inL, same ▸ inM⟩
    | cons head u =>
        rcases List.cons.inj same with ⟨rfl, rfl⟩
        exact Or.inl ⟨u, inL, v, inM, rfl⟩
  · rintro (⟨u, inL, v, inM, rfl⟩ | ⟨empty, inM⟩)
    · exact ⟨letter :: u, inL, v, inM, rfl⟩
    · exact ⟨[], empty, letter :: word, inM, rfl⟩

/-- The first factor that is not empty reads the letter. -/
theorem cons_mem_kstar {letter : α} {word : List α} :
    letter :: word ∈ L∗ ↔ word ∈ L.leftQuotient [letter] * L∗ := by
  rw [Language.mem_mul]
  constructor
  · intro member
    rw [Language.kstar_def_nonempty] at member
    rcases member with ⟨factors, same, members⟩
    cases factors with
    | nil => exact absurd same (List.cons_ne_nil _ _)
    | cons factor factors =>
        rcases members factor List.mem_cons_self with ⟨inL, nonempty⟩
        cases factor with
        | nil => exact absurd rfl nonempty
        | cons head factor =>
            rcases List.cons.inj same with ⟨rfl, rfl⟩
            refine ⟨factor, inL, factors.flatten, ?_, rfl⟩
            exact Language.join_mem_kstar fun other inRest =>
              (members other (List.mem_cons_of_mem _ inRest)).1
  · rintro ⟨u, inL, v, inStar, rfl⟩
    exact append_mem_kstar (mem_kstar_of_mem (show letter :: u ∈ L from inL))
      inStar

/-! ## Repetitions -/

/-- Between `min` and `max` repetitions; none if the bounds are the wrong way round. -/
def repetitions (L : Language α) (min max : Nat) : Language α :=
  {word | ∃ i, min ≤ i ∧ i ≤ max ∧ word ∈ L ^ i}

theorem mem_repetitions {min max : Nat} {word : List α} :
    word ∈ repetitions L min max ↔ ∃ i, min ≤ i ∧ i ≤ max ∧ word ∈ L ^ i :=
  Iff.rfl

theorem mem_sum_pow {powers : List Nat} {word : List α} :
    word ∈ (powers.map fun i => L ^ i).sum ↔ ∃ i ∈ powers, word ∈ L ^ i := by
  induction powers with
  | nil => simp [Language.notMem_zero]
  | cons i powers induction =>
      rw [List.map_cons, List.sum_cons, Language.mem_add, induction]
      simp

theorem repetitions_eq_sum (min max : Nat) :
    repetitions L min max =
      ((List.range' min (max + 1 - min)).map fun i => L ^ i).sum := by
  ext word
  rw [mem_sum_pow, mem_repetitions]
  constructor
  · rintro ⟨i, lower, upper, member⟩
    exact ⟨i, List.mem_range'_1.mpr (by omega), member⟩
  · rintro ⟨i, inRange, member⟩
    have bounds := List.mem_range'_1.mp inRange
    exact ⟨i, by omega, by omega, member⟩

/-- Repetitions in front of repetitions. -/
theorem pow_mul_repetitions (n min max : Nat) :
    L ^ n * repetitions L min max = repetitions L (n + min) (n + max) := by
  ext word
  rw [Language.mem_mul, mem_repetitions]
  constructor
  · rintro ⟨u, inPower, v, ⟨i, lower, upper, inFurther⟩, rfl⟩
    refine ⟨n + i, by omega, by omega, ?_⟩
    rw [pow_add]
    exact Language.append_mem_mul inPower inFurther
  · rintro ⟨i, lower, upper, member⟩
    have split : i = n + (i - n) := by omega
    rw [split, pow_add, Language.mem_mul] at member
    rcases member with ⟨u, inPower, v, inFurther, rfl⟩
    exact ⟨u, inPower, v, ⟨i - n, by omega, by omega, inFurther⟩, rfl⟩

theorem repetitions_one_one : repetitions L 1 1 = L := by
  ext word
  rw [mem_repetitions]
  constructor
  · rintro ⟨i, lower, upper, member⟩
    have one : i = 1 := by omega
    rwa [one, pow_one] at member
  · exact fun member => ⟨1, le_rfl, le_rfl, (pow_one L).symm ▸ member⟩

theorem repetitions_one_add_one (max : Nat) :
    repetitions L 1 max + 1 = repetitions L 0 max := by
  ext word
  rw [Language.mem_add, mem_repetitions, mem_repetitions]
  constructor
  · rintro (⟨i, _, upper, member⟩ | isNil)
    · exact ⟨i, Nat.zero_le i, upper, member⟩
    · exact ⟨0, le_rfl, Nat.zero_le max, (pow_zero L).symm ▸ isNil⟩
  · rintro ⟨i, _, upper, member⟩
    rcases Nat.eq_zero_or_pos i with rfl | positive
    · exact Or.inr (pow_zero L ▸ member)
    · exact Or.inl ⟨i, positive, upper, member⟩

theorem repetitions_zero_zero : repetitions L 0 0 = 1 := by
  ext word
  rw [mem_repetitions]
  constructor
  · rintro ⟨i, _, upper, member⟩
    rw [Nat.le_zero.mp upper, pow_zero] at member
    exact member
  · exact fun isNil => ⟨0, le_rfl, le_rfl, (pow_zero L).symm ▸ isNil⟩

theorem repetitions_of_lt {min max : Nat} (order : max < min) :
    repetitions L min max = 0 := by
  ext word
  refine iff_of_false ?_ (Language.notMem_zero word)
  rintro ⟨i, lower, upper, _⟩
  omega

theorem isRegular_repetitions (regular : L.IsRegular) (min max : Nat) :
    (repetitions L min max).IsRegular := by
  rw [repetitions_eq_sum]
  apply isRegular_sum
  intro M member
  rcases List.mem_map.mp member with ⟨i, _, rfl⟩
  exact isRegular_pow regular i

/-! ## Words behind letters -/

theorem mem_singleton {word other : List α} :
    other ∈ ({word} : Language α) ↔ other = word :=
  Iff.rfl

theorem mem_letter_mul {letter : α} {word : List α} :
    word ∈ ({[letter]} : Language α) * L ↔ ∃ rest ∈ L, word = letter :: rest := by
  rw [Language.mem_mul]
  constructor
  · rintro ⟨_, rfl, rest, member, rfl⟩
    exact ⟨rest, member, rfl⟩
  · rintro ⟨rest, member, rfl⟩
    exact ⟨[letter], rfl, rest, member, rfl⟩

theorem mem_letter_pow {letter : α} {n : Nat} {word : List α} :
    word ∈ ({[letter]} : Language α) ^ n ↔ word = List.replicate n letter := by
  induction n generalizing word with
  | zero => exact Language.mem_one word
  | succ n induction =>
      rw [pow_succ', mem_letter_mul]
      constructor
      · rintro ⟨rest, member, rfl⟩
        rw [induction.mp member]
        rfl
      · rintro rfl
        exact ⟨List.replicate n letter, induction.mpr rfl, rfl⟩

theorem mem_letter_kstar {letter : α} {word : List α} :
    word ∈ ({[letter]} : Language α)∗ ↔ ∃ n, word = List.replicate n letter := by
  rw [Language.kstar_eq_iSup_pow, Language.mem_iSup]
  exact exists_congr fun n => mem_letter_pow

theorem mem_letter_kstar_mul {letter : α} {word : List α} :
    word ∈ ({[letter]} : Language α)∗ * L ↔
      ∃ n, ∃ rest ∈ L, word = List.replicate n letter ++ rest := by
  rw [Language.mem_mul]
  constructor
  · rintro ⟨_, inStar, rest, member, rfl⟩
    rcases mem_letter_kstar.mp inStar with ⟨n, rfl⟩
    exact ⟨n, rest, member, rfl⟩
  · rintro ⟨n, rest, member, rfl⟩
    exact ⟨_, mem_letter_kstar.mpr ⟨n, rfl⟩, rest, member, rfl⟩

theorem cons_mem_letter_mul {letter head : α} {word : List α} :
    head :: word ∈ ({[letter]} : Language α) * L ↔
      head = letter ∧ word ∈ L := by
  rw [mem_letter_mul]
  constructor
  · rintro ⟨rest, member, same⟩
    rcases List.cons.inj same with ⟨rfl, rfl⟩
    exact ⟨rfl, member⟩
  · rintro ⟨rfl, member⟩
    exact ⟨word, member, rfl⟩

/-- Either the iterated letter goes on, or what follows it begins. -/
theorem cons_mem_letter_kstar_mul {letter head : α} {word : List α} :
    head :: word ∈ ({[letter]} : Language α)∗ * L ↔
      head = letter ∧ word ∈ ({[letter]} : Language α)∗ * L ∨
        head :: word ∈ L := by
  have unfold : ({[letter]} : Language α)∗ * L =
      {[letter]} * (({[letter]} : Language α)∗ * L) + L := by
    rw [← mul_assoc, ← Language.mul_self_kstar_comm, ← add_one_mul,
      add_comm, Language.one_add_kstar_mul_self_eq_kstar]
  rw [unfold, Language.mem_add, cons_mem_letter_mul, ← unfold]

/-! ## Residuals -/

/-- A state, a letter and the state that the letter leads to. -/
structure Arrow (σ α : Type*) where
  source : σ
  letter : α
  target : σ
deriving DecidableEq

/-- The languages of the states agree with the arrows. -/
structure Residuals {σ : Type*} (arrows : List (Arrow σ α))
    (language : σ → Language α) : Prop where
  cons : ∀ source head word, head :: word ∈ language source ↔
    ∃ arrow ∈ arrows, arrow.source = source ∧ arrow.letter = head ∧
      word ∈ language arrow.target
  functional : ∀ left ∈ arrows, ∀ right ∈ arrows,
    left.source = right.source → left.letter = right.letter → left = right

/-- Related letters behind a word are told apart by what may follow them. -/
def Separated (related : α → α → Prop) (L : Language α) : Prop :=
  ∀ word x y, related x y →
    L.leftQuotient (word ++ [x]) = L.leftQuotient (word ++ [y]) →
      L.leftQuotient (word ++ [x]) = 0

section Residuals

variable {σ : Type*} {arrows : List (Arrow σ α)} {language : σ → Language α}
  (residuals : Residuals arrows language)
include residuals

theorem Residuals.leftQuotient_of_mem {arrow : Arrow σ α}
    (member : arrow ∈ arrows) :
    (language arrow.source).leftQuotient [arrow.letter] =
      language arrow.target := by
  ext word
  rw [Language.mem_leftQuotient, List.singleton_append, residuals.cons]
  constructor
  · rintro ⟨other, inList, sameSource, sameLetter, inOther⟩
    rw [residuals.functional arrow member other inList sameSource.symm
      sameLetter.symm]
    exact inOther
  · intro inTarget
    exact ⟨arrow, member, rfl, rfl, inTarget⟩

/-- A letter leads along an arrow, or nothing may follow it. -/
theorem Residuals.leftQuotient_letter (source : σ) (letter : α) :
    (∃ arrow ∈ arrows, arrow.source = source ∧ arrow.letter = letter ∧
      (language source).leftQuotient [letter] = language arrow.target) ∨
      (language source).leftQuotient [letter] = 0 := by
  by_cases step : ∃ arrow ∈ arrows, arrow.source = source ∧
      arrow.letter = letter
  · rcases step with ⟨arrow, member, rfl, rfl⟩
    exact Or.inl ⟨arrow, member, rfl, rfl, residuals.leftQuotient_of_mem member⟩
  · right
    ext word
    rw [Language.mem_leftQuotient, List.singleton_append, residuals.cons]
    constructor
    · rintro ⟨arrow, member, isSource, isLetter, _⟩
      exact absurd ⟨arrow, member, isSource, isLetter⟩ step
    · exact fun member => absurd member (Language.notMem_zero word)

/-- What may follow a word is the language of a state, or empty. -/
theorem Residuals.leftQuotient_cases (source : σ) (word : List α) :
    (∃ target, (language source).leftQuotient word = language target) ∨
      (language source).leftQuotient word = 0 := by
  induction word using List.reverseRecOn with
  | nil => exact Or.inl ⟨source, rfl⟩
  | append_singleton word letter induction =>
      rw [Language.leftQuotient_append]
      rcases induction with ⟨middle, same⟩ | empty
      · rw [same]
        rcases residuals.leftQuotient_letter middle letter with
          ⟨arrow, _, _, _, leads⟩ | none
        · exact Or.inl ⟨arrow.target, leads⟩
        · exact Or.inr none
      · rw [empty]
        exact Or.inr rfl

/-- It is enough to compare the targets of arrows on related letters. -/
theorem Residuals.separated {related : α → α → Prop}
    (distinct : ∀ left ∈ arrows, ∀ right ∈ arrows,
      left.source = right.source → related left.letter right.letter →
        language left.target ≠ language right.target) (source : σ) :
    Separated related (language source) := by
  intro word x y isRelated same
  rw [Language.leftQuotient_append, Language.leftQuotient_append] at same
  rw [Language.leftQuotient_append]
  rcases residuals.leftQuotient_cases source word with ⟨middle, isMiddle⟩ | empty
  · rw [isMiddle] at same ⊢
    rcases residuals.leftQuotient_letter middle x with
      ⟨left, inLeft, leftSource, rfl, toLeft⟩ | none
    · rcases residuals.leftQuotient_letter middle y with
        ⟨right, inRight, rightSource, rfl, toRight⟩ | none
      · rw [toLeft, toRight] at same
        exact absurd same (distinct left inLeft right inRight
          (leftSource.trans rightSource.symm) isRelated)
      · exact same.trans none
    · exact none
  · rw [empty]
    rfl

/-- Every letter of a word is the letter of an arrow. -/
theorem Residuals.exists_arrow {source : σ} {word : List α}
    (member : word ∈ language source) :
    ∀ letter ∈ word, ∃ arrow ∈ arrows, arrow.letter = letter := by
  induction word generalizing source with
  | nil => exact fun letter inWord => absurd inWord List.not_mem_nil
  | cons head word induction =>
      rcases (residuals.cons source head word).mp member with
        ⟨arrow, inArrows, _, isHead, further⟩
      intro letter inWord
      rcases List.mem_cons.mp inWord with rfl | inRest
      · exact ⟨arrow, inArrows, isHead⟩
      · exact induction further letter inRest

end Residuals

end SafetyGames.Regular
