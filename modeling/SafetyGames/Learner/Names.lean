import SafetyGames.Lib.Decimal
import SafetyGames.Learner.ConstructBounds

/-!
# The names of the variables

The solver identifies a constant by the text it is created with.  The texts of
the names are told apart by their structure; the names of the debug mode
leave out the index of the counter-example, and the root of the prefix tree
stores the same text as the word `-`.
-/

namespace SafetyGames.Learner

open SafetyGames.Transducer SafetyGames.LabelledPath SafetyGames.Worklist
open PrefixTree BoolExpr Decimal

/-! ## Texts -/

/-- The character `' '`. -/
def space : JChar := 32

/-- What `mkBoolConst` is called with. -/
def Z3Name.text : Z3Name → Word
  | .number k => decimal k
  | .f q => 102 :: decimal q
  | .d p c q => 100 :: space :: (decimal p ++ space :: c :: space :: decimal q)
  | .x word q => 120 :: space :: (word ++ space :: decimal q)
  | .y p p2 => 121 :: space :: (decimal p ++ space :: decimal p2)
  | .z p p2 l =>
      122 :: space :: (decimal p ++ space :: (decimal p2 ++ space :: decimal l))

theorem space_notMem_decimal (k : Nat) : space ∉ decimal k := by
  intro member
  have bounds := (toNat_of_mem_decimal member).1
  exact absurd bounds (by decide)

/-- A decimal text does not begin with a letter. -/
theorem decimal_ne_cons {k : Nat} {c : JChar} {rest : Word}
    (letter : 58 ≤ c.toNat) : decimal k ≠ c :: rest := by
  intro same
  have member : c ∈ decimal k := by
    rw [same]
    exact List.mem_cons_self
  have bounds := (toNat_of_mem_decimal member).2
  omega

/-- Texts without a separator are told apart in front of one. -/
theorem separated_inj {separator : JChar} {left right before after : Word}
    (leftFree : separator ∉ left) (rightFree : separator ∉ right)
    (same : left ++ separator :: before = right ++ separator :: after) :
    left = right ∧ before = after := by
  induction left generalizing right with
  | nil =>
      cases right with
      | nil => exact ⟨rfl, (List.cons.inj same).2⟩
      | cons c rest =>
          exact absurd ((List.cons.inj same).1 ▸ List.mem_cons_self) rightFree
  | cons c left induction =>
      cases right with
      | nil =>
          exact absurd ((List.cons.inj same).1 ▸ List.mem_cons_self) leftFree
      | cons d right =>
          rcases List.cons.inj same with ⟨rfl, tails⟩
          rcases induction
            (fun member => leftFree (List.mem_cons_of_mem c member))
            (fun member => rightFree (List.mem_cons_of_mem c member)) tails with
            ⟨rfl, rest⟩
          exact ⟨rfl, rest⟩

theorem decimal_append_inj {p q : Nat} {left right : Word}
    (same : decimal p ++ space :: left = decimal q ++ space :: right) :
    p = q ∧ left = right := by
  rcases separated_inj (space_notMem_decimal p) (space_notMem_decimal q) same with
    ⟨digits, rest⟩
  exact ⟨decimal_injective digits, rest⟩

theorem append_decimal_inj {left right : Word} {p q : Nat}
    (same : left ++ space :: decimal p = right ++ space :: decimal q) :
    left = right ∧ p = q := by
  have reversed : (decimal p).reverse ++ space :: left.reverse =
      (decimal q).reverse ++ space :: right.reverse := by
    simpa using congrArg List.reverse same
  rcases separated_inj
    (List.mem_reverse.not.mpr (space_notMem_decimal p))
    (List.mem_reverse.not.mpr (space_notMem_decimal q)) reversed with ⟨digits, words⟩
  exact ⟨List.reverse_injective words,
    decimal_injective (List.reverse_injective digits)⟩

/-- Different names have different texts. -/
theorem Z3Name.text_injective : Function.Injective Z3Name.text := by
  have tails : ∀ {c : JChar} {left right : Word},
      c :: space :: left = c :: space :: right → left = right := by
    intro c left right same
    exact (List.cons.inj (List.cons.inj same).2).2
  intro left right same
  cases left with
  | number k =>
      cases right with
      | number j => exact congrArg _ (decimal_injective same)
      | f | d | x | y | z => exact absurd same (decimal_ne_cons (by decide))
  | f q =>
      cases right with
      | number => exact absurd same.symm (decimal_ne_cons (by decide))
      | f r => exact congrArg _ (decimal_injective (List.cons.inj same).2)
      | d | x | y | z => exact absurd (List.cons.inj same).1 (by decide)
  | d p c q =>
      cases right with
      | number => exact absurd same.symm (decimal_ne_cons (by decide))
      | d p' c' q' =>
          rcases decimal_append_inj (tails same) with ⟨rfl, rest⟩
          rcases List.cons.inj rest with ⟨rfl, _⟩
          rw [decimal_injective (tails rest)]
      | f | x | y | z => exact absurd (List.cons.inj same).1 (by decide)
  | x word q =>
      cases right with
      | number => exact absurd same.symm (decimal_ne_cons (by decide))
      | x word' q' =>
          rcases append_decimal_inj (tails same) with ⟨rfl, rfl⟩
          rfl
      | f | d | y | z => exact absurd (List.cons.inj same).1 (by decide)
  | y p p2 =>
      cases right with
      | number => exact absurd same.symm (decimal_ne_cons (by decide))
      | y p' p2' =>
          rcases decimal_append_inj (tails same) with ⟨rfl, digits⟩
          rw [decimal_injective digits]
      | f | d | x | z => exact absurd (List.cons.inj same).1 (by decide)
  | z p p2 l =>
      cases right with
      | number => exact absurd same.symm (decimal_ne_cons (by decide))
      | z p' p2' l' =>
          rcases decimal_append_inj (tails same) with ⟨rfl, rest⟩
          rcases decimal_append_inj rest with ⟨rfl, digits⟩
          rw [decimal_injective digits]
      | f | d | x | y => exact absurd (List.cons.inj same).1 (by decide)

/-! ## Distinct names -/

section Distinct

/-- The cells that a call of `constructSAT` allocates. -/
abbrev allocated (alphabet : List JChar) (s : Sample) (n : Nat)
    (w : PrefixTree) : List Var :=
  declarations n alphabet.length w.length (sizes s.uni) (sizes s.ex)

/-- Different cells are created with different texts. -/
def Distinct (debug : Bool) (alphabet : List JChar) (s : Sample) (n : Nat)
    (w : PrefixTree) : Prop :=
  ∀ left ∈ allocated alphabet s n w, ∀ right ∈ allocated alphabet s n w,
    (nameOf debug alphabet w (allocated alphabet s n w) left).text =
      (nameOf debug alphabet w (allocated alphabet s n w) right).text →
        left = right

/-- The indices that the texts of the debug mode leave out have one value only. -/
structure NoClash (alphabet : List JChar) (s : Sample) : Prop where
  letters : alphabet.Nodup
  uni : s.uni.length ≤ 1
  ex : s.ex.length ≤ 1
  /-- No word begins with the text of the root. -/
  dashes : ∀ word ∈ s.words, word.head? ≠ some dash

variable {alphabet : List JChar} {s : Sample} {w : PrefixTree} {n : Nat}

/-- Running numbers tell all cells apart. -/
theorem distinct_number : Distinct false alphabet s n w := by
  intro left inLeft right _ same
  have numbers := Z3Name.number.inj (Z3Name.text_injective same)
  exact (List.idxOf_inj inLeft).mp numbers

theorem index_lt_of_sizes {list : List CounterExample} {index na : Nat}
    (position : (sizes list)[index]? = some na) : index < list.length := by
  rcases List.getElem?_eq_some_iff.mp position with ⟨bound, _⟩
  rwa [sizes, List.length_map] at bound

/-- Nodes that store the same word are the same unless one of them is the
node of the word `-`. -/
theorem eq_of_getWord_eq (stores : Stores alphabet w)
    (noDash : ∀ id, ¬ Leads (charMap alphabet) w [dash] id) {left right : Nat}
    (inLeft : left < w.length) (inRight : right < w.length)
    (same : w.getWord left = w.getWord right) : left = right := by
  rcases stores left inLeft with ⟨word, leads, stored⟩
  rcases stores right inRight with ⟨other, otherLeads, otherStored⟩
  have shownSame : shown word = shown other := by
    rw [← stored, ← otherStored, same]
  have wordSame : word = other := by
    cases word with
    | nil =>
        cases other with
        | nil => rfl
        | cons c rest =>
            have isDash : c :: rest = [dash] := shownSame.symm
            exact absurd (isDash ▸ otherLeads) (noDash right)
    | cons c rest =>
        cases other with
        | nil =>
            have isDash : c :: rest = [dash] := shownSame
            exact absurd (isDash ▸ leads) (noDash left)
        | cons d others => exact shownSame
  exact leads.unique (wordSame ▸ otherLeads)

/-- Without a clash the texts of the debug mode tell all cells apart. -/
theorem NoClash.distinct (clash : NoClash alphabet s)
    (fills : fillTree alphabet s = some w) : Distinct true alphabet s n w := by
  have noDash : ∀ id, ¬ Leads (charMap alphabet) w [dash] id := by
    intro id leads
    rcases prefix_of_leads fills leads with empty | ⟨word, member, isPrefix⟩
    · exact absurd empty (List.cons_ne_nil dash [])
    · rcases isPrefix with ⟨rest, rfl⟩
      exact clash.dashes _ member rfl
  intro left inLeft right inRight sameText
  rw [mem_declarations] at inLeft inRight
  have same := Z3Name.text_injective sameText
  cases left with
  | f q =>
      cases right with
      | f r => exact congrArg Var.f (Z3Name.f.inj same)
      | d | x | y | z => exact Z3Name.noConfusion same
  | d p a q =>
      cases right with
      | d p' a' q' =>
          rcases Z3Name.d.inj same with ⟨rfl, letter, rfl⟩
          have bound := inLeft.2.1
          have bound' := inRight.2.1
          rw [List.getElem?_eq_getElem bound, List.getElem?_eq_getElem bound',
            Option.getD_some, Option.getD_some, clash.letters.getElem_inj_iff]
            at letter
          rw [letter]
      | f | x | y | z => exact Z3Name.noConfusion same
  | x u q =>
      cases right with
      | x u' q' =>
          rcases Z3Name.x.inj same with ⟨words, rfl⟩
          rw [eq_of_getWord_eq (fillTree_stores fills) noDash inLeft.1
            inRight.1 words]
      | f | d | y | z => exact Z3Name.noConfusion same
  | y u p p2 =>
      cases right with
      | y u' p' p2' =>
          rcases Z3Name.y.inj same with ⟨rfl, rfl⟩
          rcases inLeft with ⟨_, _, position, _⟩
          rcases inRight with ⟨_, _, position', _⟩
          have bound := index_lt_of_sizes position
          have bound' := index_lt_of_sizes position'
          have single := clash.uni
          obtain rfl : u = u' := by omega
          rfl
      | f | d | x | z => exact Z3Name.noConfusion same
  | z e p p2 l =>
      cases right with
      | z e' p' p2' l' =>
          rcases Z3Name.z.inj same with ⟨rfl, rfl, rfl⟩
          rcases inLeft with ⟨_, _, position, _⟩
          rcases inRight with ⟨_, _, position', _⟩
          have bound := index_lt_of_sizes position
          have bound' := index_lt_of_sizes position'
          have single := clash.ex
          obtain rfl : e = e' := by omega
          rfl
      | f | d | x | y => exact Z3Name.noConfusion same

/-- The first pair of a counter-example has a cell. -/
theorem declared_y_zero (positive : 0 < n) {u : Nat}
    (inside : u < s.uni.length) : .y u 0 0 ∈ allocated alphabet s n w := by
  rw [mem_declarations]
  exact ⟨positive, _, position_sizes (List.getElem?_eq_getElem inside),
    Automaton.getNumberOfStates_pos⟩

theorem declared_z_zero (positive : 0 < n)
    (lengths : ∀ ce ∈ s.ex, 0 < lMax n ce.a.getNumberOfStates) {e : Nat}
    (inside : e < s.ex.length) : .z e 0 0 0 ∈ allocated alphabet s n w := by
  rw [mem_declarations]
  exact ⟨positive, _, position_sizes (List.getElem?_eq_getElem inside),
    Automaton.getNumberOfStates_pos,
    lengths _ (List.getElem_mem inside)⟩

/-- When the texts of the debug mode tell all cells apart, nothing clashes. -/
theorem Distinct.noClash (distinct : Distinct true alphabet s n w)
    (positive : 0 < n) (fills : fillTree alphabet s = some w)
    (lengths : ∀ ce ∈ s.ex, 0 < lMax n ce.a.getNumberOfStates) :
    NoClash alphabet s := by
  have filled := fillTree_spec fills
  refine ⟨?_, ?_, ?_, ?_⟩
  · rw [List.nodup_iff_injective_getElem]
    intro i j same
    have inside : ∀ k : Fin alphabet.length,
        Var.d 0 k 0 ∈ allocated alphabet s n w := by
      intro k
      rw [mem_declarations]
      exact ⟨positive, k.isLt, positive⟩
    have cells := distinct _ (inside i) _ (inside j) (by
      simp only [nameOf, if_true, List.getElem?_eq_getElem i.isLt,
        List.getElem?_eq_getElem j.isLt, same])
    exact Fin.ext (Var.d.inj cells).2.1
  · by_contra many
    have first : .y 0 0 0 ∈ allocated alphabet s n w :=
      declared_y_zero positive (by omega)
    have second : .y 1 0 0 ∈ allocated alphabet s n w :=
      declared_y_zero positive (by omega)
    have cells := distinct _ first _ second rfl
    exact absurd (Var.y.inj cells).1 Nat.zero_ne_one
  · by_contra many
    have first : .z 0 0 0 0 ∈ allocated alphabet s n w :=
      declared_z_zero positive lengths (by omega)
    have second : .z 1 0 0 0 ∈ allocated alphabet s n w :=
      declared_z_zero positive lengths (by omega)
    have cells := distinct _ first _ second rfl
    exact absurd (Var.z.inj cells).1 Nat.zero_ne_one
  · intro word member first
    obtain ⟨rest, rfl⟩ : ∃ rest, word = dash :: rest := by
      cases word with
      | nil => exact absurd first (Option.some_ne_none dash).symm
      | cons c rest =>
          rcases Option.some.inj first with rfl
          exact ⟨rest, rfl⟩
    rcases filled.words _ member with ⟨_, leads⟩
    rcases Path.cons_iff.mp leads with ⟨next, step, _⟩
    have stores := fillTree_stores fills
    have root : w.getWord 0 = [dash] :=
      stores.getWord_of_leads filled.isTree (Path.nil 0)
    have child : w.getWord next = [dash] :=
      stores.getWord_of_leads filled.isTree (Path.single step)
    rcases step with ⟨index, _, isChild⟩
    have bounds := filled.isTree.child_gt isChild
    have inside : ∀ id < w.length, Var.x id 0 ∈ allocated alphabet s n w := by
      intro id bound
      rw [mem_declarations]
      exact ⟨bound, positive⟩
    have cells := distinct _ (inside 0 filled.isTree.root) _
      (inside next bounds.2) (by simp only [nameOf, if_true, root, child])
    exact absurd (Var.x.inj cells).1 (Nat.ne_of_lt bounds.1)

end Distinct

end SafetyGames.Learner
