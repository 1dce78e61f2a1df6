/-
Sums as they are written: numbers with pluses between them and blanks around these, negated by the letters `neg` before
the first one. A number goes on for as long as there are digits and blanks for as long as there are blanks, so a sum can
be read from left to right: what comes next is a number that is added, or else there is nothing more.
-/
import Mathlib.Data.List.TakeDrop
import Mathlib.Data.List.TakeWhile
import PegCompiler.Text.Decimal

namespace PegCompiler.Sums

/-! ## Written sums -/

/-- Digits, of which there is at least one. -/
structure IsNumber (ds : List Char) : Prop where
  nonempty : ds ≠ []
  digits : ∀ d ∈ ds, d.isDigit = true

/-- What is added to the first number: other numbers, each after a plus that may have blanks on both sides. -/
inductive Adds : List Char → List (List Char) → Prop
  | nothing : Adds [] []
  | number (hb : ∀ c ∈ b, c = ' ') (hb' : ∀ c ∈ b', c = ' ') (hds : IsNumber ds) (h : Adds rest numbers) :
      Adds (b ++ '+' :: (b' ++ (ds ++ rest))) (ds :: numbers)

/-- A number and what is added to it. -/
inductive IsSum : List Char → List (List Char) → Prop
  | of (hds : IsNumber ds) (h : Adds rest numbers) : IsSum (ds ++ rest) (ds :: numbers)

/-- A sum, or one that is negated, with the letters `neg` in any case before it, and blanks after these. -/
inductive IsSigned : List Char → (negated : Bool) → List (List Char) → Prop
  | plain (h : IsSum cs numbers) : IsSigned cs false numbers
  | negated (hneg : neg.map Char.toLower = ['n', 'e', 'g']) (hb : ∀ c ∈ b, c = ' ') (h : IsSum cs numbers) :
      IsSigned (neg ++ (b ++ cs)) true numbers

/-- The value of a number, which counts as zero if it does not fit into 64 bits. -/
def value (ds : List Char) : Nat :=
  if Nat.ofDigitChars 10 ds 0 ≤ 9223372036854775807 then Nat.ofDigitChars 10 ds 0 else 0

def total : List (List Char) → Nat
  | [] => 0
  | ds :: numbers => value ds + total numbers

/-- The value of a sum, which may be negated. -/
def signedTotal (negated : Bool) (numbers : List (List Char)) : Int :=
  if negated then -total numbers else total numbers

variable {b cs rest ds neg : List Char} {numbers : List (List Char)}

/-! ## Runs -/

/-- What is left after blanks. -/
def skip (cs : List Char) : List Char := cs.dropWhile (· == ' ')

/-- The number at the beginning, with all digits there are, and what is left after it. -/
def number? (cs : List Char) : Option (List Char × List Char) :=
  if cs.takeWhile Char.isDigit = [] then none else some (cs.takeWhile Char.isDigit, cs.dropWhile Char.isDigit)

/-- The number after a plus, and what is left after it. -/
def addend? (cs : List Char) : Option (List Char × List Char) :=
  match skip cs with
  | [] => none
  | c :: cs => if c = '+' then number? (skip cs) else none

section Span

variable {p : Char → Bool} {run : List Char} (inside : ∀ c ∈ run, p c = true)
  (next : ∀ c, rest.head? = some c → p c = false)

include inside next

theorem takeWhile_run : (run ++ rest).takeWhile p = run := by
  rw [List.takeWhile_append_of_pos inside]
  cases rest with
  | nil => exact List.append_nil run
  | cons c rest => rw [List.takeWhile_cons_of_neg (by simp [next c rfl]), List.append_nil]

theorem dropWhile_run : (run ++ rest).dropWhile p = rest := by
  rw [List.dropWhile_append_of_pos inside]
  cases rest with
  | nil => rfl
  | cons c rest => exact List.dropWhile_cons_of_neg (by simp [next c rfl])

end Span

theorem head?_dropWhile {p : Char → Bool} {c : Char} (h : (cs.dropWhile p).head? = some c) : p c = false := by
  have stops := List.head?_dropWhile_not p cs
  rw [h] at stops
  exact stops

theorem skip_append (hb : ∀ c ∈ b, c = ' ') (hrest : ∀ c, rest.head? = some c → c ≠ ' ') : skip (b ++ rest) = rest :=
  dropWhile_run (fun c hc => beq_iff_eq.2 (hb c hc)) fun c hc => beq_false_of_ne (hrest c hc)

theorem exists_blanks (cs : List Char) : ∃ b, (∀ c ∈ b, c = ' ') ∧ cs = b ++ skip cs :=
  ⟨cs.takeWhile (· == ' '), fun _ hc => beq_iff_eq.1 (List.mem_takeWhile_imp (p := (· == ' ')) hc),
    List.takeWhile_append_dropWhile.symm⟩

theorem number?_eq_some_iff : number? cs = some (ds, rest) ↔
    cs = ds ++ rest ∧ IsNumber ds ∧ ∀ c, rest.head? = some c → c.isDigit = false := by
  unfold number?
  constructor
  · intro h
    split at h
    · cases h
    · rename_i nonempty
      cases h
      exact ⟨List.takeWhile_append_dropWhile.symm, ⟨nonempty, fun _ hd => List.mem_takeWhile_imp hd⟩,
        fun _ hc => head?_dropWhile hc⟩
  · rintro ⟨rfl, ⟨nonempty, digits⟩, next⟩
    rw [takeWhile_run digits next, dropWhile_run digits next, if_neg nonempty]

/-- A number begins with a digit. -/
theorem IsNumber.head (hds : IsNumber ds) (rest : List Char) : ∃ d, (ds ++ rest).head? = some d ∧ d.isDigit = true := by
  obtain ⟨d, ds', rfl⟩ := List.exists_cons_of_ne_nil hds.nonempty
  exact ⟨d, rfl, hds.digits d List.mem_cons_self⟩

/-- Digits are no blanks, so there are none left before a number. -/
theorem IsNumber.skip_append (hds : IsNumber ds) (hb : ∀ c ∈ b, c = ' ') : skip (b ++ (ds ++ rest)) = ds ++ rest := by
  obtain ⟨d, head, digit⟩ := hds.head rest
  refine Sums.skip_append hb fun c hc => ?_
  cases head.symm.trans hc
  rintro rfl
  cases digit

theorem addend?_of_plus (h : skip cs = '+' :: rest) : addend? cs = number? (skip rest) := by
  unfold addend?
  rw [h]
  exact if_pos rfl

theorem addend?_of_no_plus (h : (skip cs).head? ≠ some '+') : addend? cs = none := by
  unfold addend?
  split
  · rfl
  · rename_i c rest hskip
    rw [hskip] at h
    exact if_neg fun plus => h (congrArg some plus)

theorem addend?_eq_some_iff : addend? cs = some (ds, rest) ↔ ∃ b b', (∀ c ∈ b, c = ' ') ∧ (∀ c ∈ b', c = ' ') ∧
    cs = b ++ '+' :: (b' ++ (ds ++ rest)) ∧ IsNumber ds ∧ ∀ c, rest.head? = some c → c.isDigit = false := by
  constructor
  · intro h
    obtain ⟨b, hb, hcs⟩ := exists_blanks cs
    by_cases hplus : (skip cs).head? = some '+'
    · obtain ⟨rest', hskip⟩ := List.head?_eq_some_iff.1 hplus
      rw [addend?_of_plus hskip] at h
      obtain ⟨b', hb', hrest'⟩ := exists_blanks rest'
      obtain ⟨hnumber, hds, next⟩ := number?_eq_some_iff.1 h
      exact ⟨b, b', hb, hb', by rw [← hnumber, ← hrest', ← hskip, ← hcs], hds, next⟩
    · cases (addend?_of_no_plus hplus).symm.trans h
  · rintro ⟨b, b', hb, hb', rfl, hds, next⟩
    have plus : skip (b ++ '+' :: (b' ++ (ds ++ rest))) = '+' :: (b' ++ (ds ++ rest)) :=
      skip_append hb (by rintro c ⟨⟩; decide)
    rw [addend?_of_plus plus, hds.skip_append hb', number?_eq_some_iff]
    exact ⟨rfl, hds, next⟩

/-- What is left after a number that is added is shorter. -/
theorem length_of_addend? (h : addend? cs = some (ds, rest)) : rest.length < cs.length := by
  obtain ⟨b, b', -, -, rfl, -⟩ := addend?_eq_some_iff.1 h
  simp only [List.length_append, List.length_cons]
  omega

/-! ## Reading sums -/

/-- Whatever is added does not begin with a digit. -/
theorem Adds.next (h : Adds cs numbers) (c : Char) (hc : cs.head? = some c) : c.isDigit = false := by
  cases h with
  | nothing => cases hc
  | @number b _ _ _ _ hb =>
    cases b with
    | nil => cases hc; rfl
    | cons c' b =>
      cases hc
      rw [hb c List.mem_cons_self]
      rfl

theorem adds_iff_of_some (h : addend? cs = some (ds, rest)) :
    Adds cs numbers ↔ ∃ numbers', numbers = ds :: numbers' ∧ Adds rest numbers' := by
  constructor
  · intro hadds
    cases hadds with
    | nothing => cases h
    | number hb hb' hds hrest =>
      cases (addend?_eq_some_iff.2 ⟨_, _, hb, hb', rfl, hds, hrest.next⟩).symm.trans h
      exact ⟨_, rfl, hrest⟩
  · rintro ⟨numbers', rfl, hrest⟩
    obtain ⟨b, b', hb, hb', rfl, hds, -⟩ := addend?_eq_some_iff.1 h
    exact .number hb hb' hds hrest

theorem adds_iff_of_none (h : addend? cs = none) : Adds cs numbers ↔ cs = [] ∧ numbers = [] := by
  constructor
  · intro hadds
    cases hadds with
    | nothing => exact ⟨rfl, rfl⟩
    | number hb hb' hds hrest =>
      cases (addend?_eq_some_iff.2 ⟨_, _, hb, hb', rfl, hds, hrest.next⟩).symm.trans h
  · rintro ⟨rfl, rfl⟩
    exact .nothing

theorem isSum_iff_of_some (h : number? cs = some (ds, rest)) :
    IsSum cs numbers ↔ ∃ numbers', numbers = ds :: numbers' ∧ Adds rest numbers' := by
  constructor
  · rintro ⟨hds, hrest⟩
    cases (number?_eq_some_iff.2 ⟨rfl, hds, hrest.next⟩).symm.trans h
    exact ⟨_, rfl, hrest⟩
  · rintro ⟨numbers', rfl, hrest⟩
    obtain ⟨rfl, hds, -⟩ := number?_eq_some_iff.1 h
    exact .of hds hrest

theorem not_isSum_of_none (h : number? cs = none) : ¬ IsSum cs numbers := by
  rintro ⟨hds, hrest⟩
  cases (number?_eq_some_iff.2 ⟨rfl, hds, hrest.next⟩).symm.trans h

theorem isSigned_false_iff : IsSigned cs false numbers ↔ IsSum cs numbers :=
  ⟨fun | .plain h => h, .plain⟩

theorem isSigned_true_iff : IsSigned cs true numbers ↔
    ∃ neg rest, cs = neg ++ rest ∧ neg.map Char.toLower = ['n', 'e', 'g'] ∧ IsSum (skip rest) numbers := by
  constructor
  · intro h
    cases h with
    | negated hneg hb hsum =>
      obtain ⟨hds, hrest⟩ := hsum
      exact ⟨_, _, rfl, hneg, by rw [hds.skip_append hb]; exact .of hds hrest⟩
  · rintro ⟨neg, rest, rfl, hneg, hsum⟩
    obtain ⟨b, hb, hrest⟩ := exists_blanks rest
    rw [hrest]
    exact .negated hneg hb hsum

/-- There are no two ways to begin with `neg`. -/
theorem isSigned_append_iff (hneg : neg.map Char.toLower = ['n', 'e', 'g']) :
    IsSigned (neg ++ rest) true numbers ↔ IsSum (skip rest) numbers := by
  rw [isSigned_true_iff]
  constructor
  · rintro ⟨neg', rest', happend, hneg', hsum⟩
    have length := congrArg List.length (hneg.trans hneg'.symm)
    rw [List.length_map, List.length_map] at length
    obtain ⟨-, rfl⟩ := List.append_inj happend length
    exact hsum
  · exact fun hsum => ⟨neg, rest, rfl, hneg, hsum⟩

theorem toLower_digit {d : Char} (h : d.isDigit = true) : d.toLower ≠ 'n' := by
  unfold Char.isDigit at h
  simp only [Bool.and_eq_true, decide_eq_true_eq] at h
  unfold Char.toLower
  rw [dif_neg]
  · rintro rfl
    exact absurd h.2 (by decide)
  · rintro ⟨hA, -⟩
    exact absurd (UInt32.le_trans hA h.2) (by decide)

/-- No sum begins with `neg`. -/
theorem not_isSum_of_neg (hneg : neg.map Char.toLower = ['n', 'e', 'g']) : ¬ IsSum (neg ++ rest) numbers := by
  intro h
  generalize hcs : neg ++ rest = cs at h
  obtain ⟨hds, hrest⟩ := h
  obtain ⟨d, head, digit⟩ := hds.head _
  cases neg with
  | nil => cases hneg
  | cons c neg =>
    have same : c = d := Option.some.inj ((congrArg List.head? hcs).trans head)
    exact toLower_digit digit (same ▸ (List.cons.inj hneg).1)

/-! ## Values -/

/-- The digits of a number are read as its value. -/
theorem IsNumber.int?_eq (hds : IsNumber ds) : (Decimal.int? (String.ofList ds)).getD 0 = value ds := by
  have natural : Decimal.natural? ds = some (Nat.ofDigitChars 10 ds 0) := by
    unfold Decimal.natural?
    rw [if_neg (by simpa [hds.nonempty] using hds.digits), Nat.ofDigitChars_eq_foldl]
    simp only [Nat.mul_comm]
  -- the first character is a digit and no sign
  have signed : Decimal.signed? ds = some (Nat.ofDigitChars 10 ds 0 : Int) := by
    unfold Decimal.signed?
    split
    · exact nomatch hds.digits '-' List.mem_cons_self
    · exact nomatch hds.digits '+' List.mem_cons_self
    · rw [natural]
      rfl
  have fits (n : Nat) : Decimal.fits n = decide (n ≤ 9223372036854775807) := by
    unfold Decimal.fits
    rw [← Bool.decide_and]
    exact decide_eq_decide.2 (by omega)
  unfold Decimal.int? value
  rw [String.toList_ofList, signed, Option.filter_some, fits]
  by_cases h : Nat.ofDigitChars 10 ds 0 ≤ 9223372036854775807
  · rw [if_pos h, if_pos (decide_eq_true h)]
    rfl
  · rw [if_neg h, if_neg (by simp [h])]
    rfl

end PegCompiler.Sums
