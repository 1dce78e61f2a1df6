/-
Lowercase and uppercase forms together. What the tables do is asked of whole stretches of characters: if the first run
that may map some of a stretch maps all of it, it moves the stretch by one number (`shift?`), and closed checks over the
runs say where it leads. So an uppercase form is in upper case itself, and every character that turns up in the uppercase
form of another one is in lower case or the uppercase form of its own lowercase form; those that are neither are strays.
Few words of ASCII are the form of anything outside of ASCII, for just two of its characters are: `i` and `k`.
-/
import Mathlib.Data.List.Chain
import PegCompiler.Proofs.Text.Lowercase

namespace PegCompiler

namespace Unicode

/-! ## Stretches -/

/-- The characters between two, all of them or every second one. -/
structure Stretch where
  first : Nat
  last : Nat
  step : Nat

namespace Stretch

def has (a : Stretch) (c : Char) : Bool := a.first ≤ c.toNat && c.toNat ≤ a.last && (c.toNat - a.first) % a.step == 0

/-- The stretch with every number moved. -/
def moved (a : Stretch) (δ : Int) : Stretch := ⟨(a.first + δ).toNat, (a.last + δ).toNat, a.step⟩

/-- All of its numbers are those of characters. -/
def isProper (a : Stretch) : Bool := Nat.blt a.last 0xD800 || Nat.blt 0xDFFF a.first && Nat.blt a.last 0x110000

/-- Two stretches lie side by side, each with every second number. -/
def beside (a b : Stretch) : Bool :=
  (a.step == 2 || a.first == a.last) && b.step == 2 && (a.first + b.first) % 2 == 1

/-- One stretch lies in another. -/
def within (a b : Stretch) : Bool :=
  Nat.ble b.first a.first && Nat.ble a.last b.last &&
    (b.step == 1 || (a.step == 2 || a.first == a.last) && b.step == 2 && (a.first - b.first) % 2 == 0)

/-- Of items in the order of their stretches the first one that may have some of a stretch. -/
def first? {α : Type} (domain : α → Stretch) (a : Stretch) (l : List α) : Option α :=
  (l.find? fun x => Nat.ble a.first (domain x).last && !a.beside (domain x)).filter fun x =>
    Nat.ble (domain x).first a.last

variable {a b : Stretch} {c : Char} {δ : Int}

theorem has_iff : a.has c = true ↔ (a.first ≤ c.toNat ∧ c.toNat ≤ a.last) ∧ (c.toNat - a.first) % a.step = 0 := by
  simp [has]

theorem not_has_of_beside (h : a.beside b = true) (hc : a.has c = true) : b.has c = false := by
  unfold beside at h
  simp only [Bool.and_eq_true, Bool.or_eq_true, beq_iff_eq] at h
  obtain ⟨⟨hstep, hstep'⟩, parity⟩ := h
  obtain ⟨⟨first, last⟩, every⟩ := has_iff.1 hc
  rw [Bool.eq_false_iff, Ne, has_iff, hstep']
  rintro ⟨⟨first', last'⟩, every'⟩
  rcases hstep with hstep | hsingle
  · rw [hstep] at every
    omega
  · omega

theorem has_of_within (h : a.within b = true) (hc : a.has c = true) : b.has c = true := by
  unfold within at h
  simp only [Bool.and_eq_true, Bool.or_eq_true, beq_iff_eq, Nat.ble_eq] at h
  obtain ⟨⟨first, last⟩, every⟩ := h
  obtain ⟨⟨first', last'⟩, every'⟩ := has_iff.1 hc
  refine has_iff.2 ⟨⟨by omega, by omega⟩, ?_⟩
  rcases every with hstep | ⟨⟨htwo | hsingle, hstep⟩, parity⟩
  · rw [hstep]
    exact Nat.mod_one _
  · rw [htwo] at every'
    rw [hstep]
    omega
  · rw [hstep]
    omega

/-- Every number of a stretch is that of a character that it has. -/
theorem has_ofNat {n : Nat} (hproper : a.isProper = true) (first : a.first ≤ n) (last : n ≤ a.last)
    (every : (n - a.first) % a.step = 0) : (Char.ofNat n).toNat = n ∧ a.has (Char.ofNat n) = true := by
  have valid : n.isValidChar := by
    unfold isProper at hproper
    simp only [Bool.and_eq_true, Bool.or_eq_true, Nat.blt_eq] at hproper
    unfold Nat.isValidChar
    omega
  have number : (Char.ofNat n).toNat = n := congrArg Char.toNat (dif_pos valid)
  exact ⟨number, has_iff.2 (number.symm ▸ ⟨⟨first, last⟩, every⟩)⟩

theorem has_moved (hnonneg : 0 ≤ a.first + δ) (hproper : (a.moved δ).isProper = true) (hc : a.has c = true) :
    ((Char.ofNat (c.toNat + δ).toNat).toNat : Int) = c.toNat + δ ∧
      (a.moved δ).has (Char.ofNat (c.toNat + δ).toNat) = true := by
  obtain ⟨⟨first, last⟩, every⟩ := has_iff.1 hc
  have distance : (c.toNat + δ).toNat - (a.first + δ).toNat = c.toNat - a.first := by omega
  obtain ⟨number, hmoved⟩ := has_ofNat (n := (c.toNat + δ).toNat) hproper (by simp only [moved]; omega)
    (by simp only [moved]; omega) (by simpa only [moved, distance] using every)
  exact ⟨by omega, hmoved⟩

section Search

variable {α : Type} {domain : α → Stretch} {l : List α}

/-- What is gone over in the search of a stretch has none of it. -/
theorem not_has_of_passed {x : α} (h : (Nat.ble a.first (domain x).last && !a.beside (domain x)) = false)
    (hc : a.has c = true) : (domain x).has c = false := by
  rcases Bool.and_eq_false_iff.1 h with h | h
  · rw [Bool.eq_false_iff, Ne, Nat.ble_eq] at h
    obtain ⟨⟨first, -⟩, -⟩ := has_iff.1 hc
    rw [Bool.eq_false_iff, Ne, has_iff]
    rintro ⟨⟨-, last⟩, -⟩
    omega
  · exact not_has_of_beside (by simpa using h) hc

theorem not_has_of_first?_eq_none (hordered : l.Pairwise fun x y => (domain x).first < (domain y).first)
    (h : a.first? domain l = none) (hc : a.has c = true) : ∀ x ∈ l, (domain x).has c = false := by
  unfold first? at h
  cases hfind : l.find? fun x => Nat.ble a.first (domain x).last && !a.beside (domain x) with
  | none => exact fun x hx => not_has_of_passed (Bool.eq_false_iff.2 (List.find?_eq_none.1 hfind x hx)) hc
  | some x =>
    rw [hfind, Option.filter_some] at h
    split at h
    · cases h
    · rename_i hafter
      rw [Nat.ble_eq] at hafter
      obtain ⟨-, before, after, rfl, hbefore⟩ := List.find?_eq_some_iff_append.1 hfind
      -- the rest of the list is after the stretch
      have later {y : α} (hy : (domain x).first ≤ (domain y).first) : (domain y).has c = false := by
        obtain ⟨⟨-, last⟩, -⟩ := has_iff.1 hc
        rw [Bool.eq_false_iff, Ne, has_iff]
        rintro ⟨⟨first, -⟩, -⟩
        omega
      intro y hy
      rcases List.mem_append.1 hy with hy | hy
      · exact not_has_of_passed (Bool.not_eq_true' _ ▸ hbefore y hy) hc
      · rcases List.mem_cons.1 hy with rfl | hy
        · exact later (Nat.le_refl _)
        · have ordered := (List.pairwise_cons.1 (List.pairwise_append.1 hordered).2.1).1 y hy
          exact later (Nat.le_of_lt ordered)

theorem find?_of_first? {x : α} (h : a.first? domain l = some x) (hwithin : a.within (domain x) = true)
    (hc : a.has c = true) : l.find? (fun x => (domain x).has c) = some x := by
  unfold first? at h
  obtain ⟨hfind, -⟩ := Option.filter_eq_some_iff.1 h
  obtain ⟨-, before, after, hl, hbefore⟩ := List.find?_eq_some_iff_append.1 hfind
  refine List.find?_eq_some_iff_append.2 ⟨has_of_within hwithin hc, before, after, hl, fun y hy => ?_⟩
  rw [not_has_of_passed (Bool.not_eq_true' _ ▸ hbefore y hy) hc]
  rfl

end Search

end Stretch

/-! ## Tables -/

/-- The characters that a run maps. -/
def CaseRun.domain (r : CaseRun) : Stretch := ⟨r.first, r.last, r.step⟩

/-- The characters that it maps them to. -/
def CaseRun.image (r : CaseRun) : Stretch := r.domain.moved r.delta

/-- A character by itself. -/
def Stretch.single (p : Nat × List Nat) : Stretch := ⟨p.1, p.1, 2⟩

theorem Stretch.has_single {p : Nat × List Nat} {c : Char} : (single p).has c = true ↔ c.toNat = p.1 := by
  rw [has_iff]
  simp only [single]
  omega

/-- The number that a stretch is moved by: none of it has several characters for its form, and the first run that may map
some of it maps it all. -/
def shift? (several : List (Nat × List Nat)) (runs : List CaseRun) (a : Stretch) : Option Int :=
  match a.first? .single several, a.first? CaseRun.domain runs with
  | some _, _ => none
  | none, none => some 0
  | none, some r => if a.within r.domain then some r.delta else none

/-- The stretch is in lower case, or it consists of the uppercase forms of its lowercase forms. -/
def Stretch.isSettled (a : Stretch) : Bool :=
  match shift? lowerSeveral lowerRuns a with
  | some δ =>
    δ == 0 || decide ((0 : Int) ≤ a.first + δ) && (a.moved δ).isProper &&
      shift? upperSeveral upperRuns (a.moved δ) == some (-δ)
  | none => false

/-- The tables of mappings to several characters and of runs are in order. -/
structure Ordered (several : List (Nat × List Nat)) (runs : List CaseRun) : Prop where
  several : several.Pairwise fun p p' => p.1 < p'.1
  runs : runs.Pairwise fun r r' => r.first < r'.first

theorem Ordered.of_isChain {several : List (Nat × List Nat)} {runs : List CaseRun}
    (hseveral : (several.map (·.1)).IsChain (· < ·)) (hruns : (runs.map CaseRun.first).IsChain (· < ·)) :
    Ordered several runs :=
  ⟨List.pairwise_map.1 hseveral.pairwise, List.pairwise_map.1 hruns.pairwise⟩

theorem tables_ordered : Ordered lowerSeveral lowerRuns ∧ Ordered upperSeveral upperRuns :=
  ⟨.of_isChain (by decide +kernel) (by decide +kernel), .of_isChain (by decide +kernel) (by decide +kernel)⟩

/-- What uppercase runs map to is mapped no further. -/
theorem upper_images : ∀ r ∈ upperRuns, 0 ≤ r.domain.first + r.delta ∧ r.image.isProper = true ∧
    shift? upperSeveral upperRuns r.image = some 0 := by
  decide +kernel

theorem upper_images_settled : ∀ r ∈ upperRuns, r.image.isSettled = true := by
  decide +kernel

/-- The characters of which several are the uppercase form of one are settled. -/
theorem upper_several_settled : ∀ p ∈ upperSeveral, p.2.length ≠ 1 ∧
    ∀ u ∈ p.2, Stretch.isProper ⟨u, u, 1⟩ = true ∧ Stretch.isSettled ⟨u, u, 1⟩ = true := by
  decide +kernel

end Unicode

/-! ## Forms -/

namespace Case

open Unicode

/-- The characters of a stretch are moved by the number that it is moved by. -/
theorem mapChar_of_shift? {several : List (Nat × List Nat)} {runs : List CaseRun} (hordered : Ordered several runs)
    {a : Stretch} {δ : Int} (h : shift? several runs a = some δ) {c : Char} (hc : a.has c = true) :
    mapChar several runs c = [Char.ofNat (c.toNat + δ).toNat] := by
  have alone (hnone : a.first? .single several = none) : several.lookup c.toNat = none :=
    List.lookup_eq_none_iff.2 fun p hp => by
      have apart := Stretch.not_has_of_first?_eq_none hordered.several hnone hc p hp
      rw [Bool.eq_false_iff, Ne, Stretch.has_single] at apart
      exact bne_iff_ne.2 apart
  unfold shift? at h
  unfold mapChar
  split at h
  · cases h
  · rename_i hseveral hrun
    have uncovered : runs.find? (·.covers c) = none := List.find?_eq_none.2 fun r hr => by
      exact Bool.eq_false_iff.1 (Stretch.not_has_of_first?_eq_none hordered.runs hrun hc r hr)
    rw [alone hseveral, uncovered, ← Option.some.inj h, Int.add_zero, Int.toNat_natCast, Char.ofNat_toNat]
  · rename_i r hseveral hrun
    split at h
    · rename_i hwithin
      have covered : runs.find? (·.covers c) = some r := Stretch.find?_of_first? hrun hwithin hc
      cases h
      rw [alone hseveral, covered]
    · cases h

/-- What a table says of ASCII characters, from what it says of a few stretches of them. -/
theorem mapChar_of_ascii {several : List (Nat × List Nat)} {runs : List CaseRun} (hordered : Ordered several runs)
    {form : Char → Char} (stretches : List (Stretch × Int)) (hshift : ∀ p ∈ stretches, shift? several runs p.1 = some p.2)
    (hform : ∀ n < 0x80, ∃ p ∈ stretches, p.1.has (Char.ofNat n) = true ∧
      form (Char.ofNat n) = Char.ofNat ((Char.ofNat n).toNat + p.2).toNat)
    {c : Char} (hc : c.toNat < 0x80) : mapChar several runs c = [form c] := by
  obtain ⟨p, hp, hhas, heq⟩ := forall_ascii
    (P := fun c => ∃ p ∈ stretches, p.1.has c = true ∧ form c = Char.ofNat (c.toNat + p.2).toNat) hform hc
  rw [mapChar_of_shift? hordered (hshift p hp) hhas, heq]

/-- The forms of ASCII characters, which are made without the tables, are those of the tables. -/
theorem ascii_forms {c : Char} (hc : c.toNat < 0x80) :
    mapChar lowerSeveral lowerRuns c = [c.toLower] ∧ mapChar upperSeveral upperRuns c = [c.toUpper] := by
  constructor
  · exact mapChar_of_ascii tables_ordered.1 [(⟨0, 0x40, 1⟩, 0), (⟨0x41, 0x5A, 1⟩, 32), (⟨0x5B, 0x7F, 1⟩, 0)]
      (by decide +kernel) (by decide +kernel) hc
  · exact mapChar_of_ascii tables_ordered.2 [(⟨0, 0x60, 1⟩, 0), (⟨0x61, 0x7A, 1⟩, -32), (⟨0x7B, 0x7F, 1⟩, 0)]
      (by decide +kernel) (by decide +kernel) hc

theorem lowerChar_eq_mapChar (c : Char) : lowerChar c = mapChar lowerSeveral lowerRuns c := by
  unfold lowerChar
  split
  · rename_i hascii
    exact (ascii_forms hascii).1.symm
  · rfl

theorem upperChar_eq_mapChar (c : Char) : upperChar c = mapChar upperSeveral upperRuns c := by
  unfold upperChar
  split
  · rename_i hascii
    exact (ascii_forms hascii).2.symm
  · rfl

/-- A character keeps its form, or a run moves it, or its form has several characters. -/
theorem mapChar_cases (several : List (Nat × List Nat)) (runs : List CaseRun) (c : Char) :
    mapChar several runs c = [c] ∨
      (∃ r ∈ runs, r.covers c = true ∧ mapChar several runs c = [Char.ofNat (c.toNat + r.delta).toNat]) ∨
      ∃ p ∈ several, p.1 = c.toNat ∧ mapChar several runs c = p.2.map Char.ofNat := by
  unfold mapChar
  split
  · rename_i cs hseveral
    obtain ⟨before, after, hsplit, -⟩ := List.lookup_eq_some_iff.1 hseveral
    exact .inr (.inr ⟨(c.toNat, cs), by simp [hsplit], rfl, rfl⟩)
  · split
    · rename_i r hrun
      exact .inr (.inl ⟨r, List.mem_of_find?_eq_some hrun, (List.find?_eq_some_iff_append.1 hrun).1, rfl⟩)
    · exact .inl rfl

/-! ## Strays -/

/-- A character that is neither in lower case nor the uppercase form of its lowercase form, such as the sign for kelvin
or a letter in title case. -/
def Stray (c : Char) : Prop := lowerChar c ≠ [c] ∧ (lowerChar c).flatMap upperChar ≠ [c]

instance : DecidablePred Stray := fun _ => inferInstanceAs (Decidable (_ ∧ _))

theorem not_stray_of_isSettled {a : Stretch} (h : a.isSettled = true) {c : Char} (hc : a.has c = true) : ¬ Stray c := by
  rintro ⟨hlower, hupper⟩
  unfold Stretch.isSettled at h
  split at h
  · rename_i δ hshift
    have form := mapChar_of_shift? tables_ordered.1 hshift hc
    rw [← lowerChar_eq_mapChar] at form
    rcases Bool.or_eq_true_iff.1 h with hzero | h
    · rw [form, eq_of_beq hzero, Int.add_zero, Int.toNat_natCast, Char.ofNat_toNat] at hlower
      exact hlower rfl
    · simp only [Bool.and_eq_true, decide_eq_true_eq, beq_iff_eq] at h
      obtain ⟨⟨hnonneg, hproper⟩, hback⟩ := h
      obtain ⟨number, hmoved⟩ := Stretch.has_moved hnonneg hproper hc
      have back := mapChar_of_shift? tables_ordered.2 hback hmoved
      rw [← upperChar_eq_mapChar, number, Int.add_neg_cancel_right, Int.toNat_natCast, Char.ofNat_toNat] at back
      rw [form, List.flatMap_singleton, back] at hupper
      exact hupper rfl
  · cases h

/-- What the uppercase form of another character has in it is no stray. -/
theorem not_stray_of_mem_upperChar {c u : Char} (h : u ∈ upperChar c) (hne : u ≠ c) : ¬ Stray u := by
  rw [upperChar_eq_mapChar] at h
  rcases mapChar_cases upperSeveral upperRuns c with hform | ⟨r, hr, hc, hform⟩ | ⟨p, hp, hnumber, hform⟩
  · rw [hform] at h
    exact absurd (List.mem_singleton.1 h) hne
  · obtain ⟨hnonneg, hproper, -⟩ := upper_images r hr
    rw [hform] at h
    rw [List.mem_singleton.1 h]
    exact not_stray_of_isSettled (upper_images_settled r hr) (Stretch.has_moved hnonneg hproper hc).2
  · rw [hform] at h
    obtain ⟨n, hn, rfl⟩ := List.mem_map.1 h
    obtain ⟨hproper, hsettled⟩ := (upper_several_settled p hp).2 n hn
    exact not_stray_of_isSettled hsettled
      (Stretch.has_ofNat hproper (Nat.le_refl n) (Nat.le_refl n) (Nat.mod_one _)).2

/-- An uppercase form of one character is in upper case. -/
theorem upperChar_of_upperChar {c u : Char} (h : upperChar c = [u]) : upperChar u = [u] := by
  rw [upperChar_eq_mapChar] at h
  rcases mapChar_cases upperSeveral upperRuns c with hform | ⟨r, hr, hc, hform⟩ | ⟨p, hp, hnumber, hform⟩
  · rw [hform] at h
    cases h
    rw [upperChar_eq_mapChar, hform]
  · obtain ⟨hnonneg, hproper, hstays⟩ := upper_images r hr
    rw [hform] at h
    have still := mapChar_of_shift? tables_ordered.2 hstays (Stretch.has_moved hnonneg hproper hc).2
    rw [Int.add_zero, Int.toNat_natCast, Char.ofNat_toNat, ← upperChar_eq_mapChar] at still
    cases h
    exact still
  · have single := congrArg List.length (hform.symm.trans h)
    rw [List.length_map] at single
    exact absurd single (upper_several_settled p hp).1

/-- A character that is in its lowercase form is all of it. -/
theorem lowerChar_of_mem {c : Char} (h : c ∈ lowerChar c) : lowerChar c = [c] := by
  rw [lowerChar_eq_mapChar] at h ⊢
  rcases mapChar_cases lowerSeveral lowerRuns c with hform | ⟨r, hr, hc, hform⟩ | ⟨p, hp, hnumber, hform⟩
  · exact hform
  · rw [hform] at h ⊢
    rw [← List.mem_singleton.1 h]
  · rw [hform] at h ⊢
    have apart : ∀ p ∈ lowerSeveral, p.1 ∉ (p.2.map Char.ofNat).map Char.toNat := by decide
    exact absurd (hnumber ▸ List.mem_map_of_mem h) (apart p hp)

/-! ## Words of ASCII -/

/-- What lowercase runs map from outside of ASCII stays there, but for the sign for kelvin. -/
theorem lower_images : ∀ r ∈ lowerRuns, r.domain.last < 0x80 ∨ 0 ≤ r.domain.first + r.delta ∧ r.image.isProper = true ∧
    (0x80 ≤ r.image.first ∨ r.image.first = 'k'.toNat ∧ r.image.last = 'k'.toNat) := by decide +kernel

theorem toLower_of_not_ascii {c : Char} (h : ¬ c.toNat < 0x80) : c.toLower = c := by
  unfold Char.toLower
  refine dif_neg fun hc => h ?_
  exact Nat.lt_of_le_of_lt (UInt32.le_iff_toNat_le.1 hc.2) (by decide)

/-- An ASCII character begins the lowercase forms of those that it is the form of in ASCII, but for `i` and `k`, which begin
others as well. -/
theorem lowerChar_eq_cons_iff {c d : Char} {more : List Char} (hd : d.toNat < 0x80) (hi : d ≠ 'i') (hk : d ≠ 'k') :
    lowerChar c = d :: more ↔ c.toLower = d ∧ more = [] := by
  by_cases hascii : c.toNat < 0x80
  · unfold lowerChar
    rw [if_pos hascii, List.cons_eq_cons, eq_comm (a := ([] : List Char))]
  · have apart : c ≠ d := by
      rintro rfl
      exact hascii hd
    rw [toLower_of_not_ascii hascii, lowerChar_eq_mapChar]
    refine ⟨fun h => ?_, fun h => absurd h.1 apart⟩
    rcases mapChar_cases lowerSeveral lowerRuns c with same | ⟨r, hr, hcovers, form⟩ | ⟨p, hp, -, form⟩
    · rw [same] at h
      exact absurd (List.cons.inj h).1 apart
    · rw [form] at h
      obtain ⟨rfl, -⟩ := List.cons.inj h
      have hdomain : r.domain.has c = true := hcovers
      rcases lower_images r hr with hsmall | ⟨hnonneg, hproper, himage⟩
      · exact absurd (Nat.lt_of_le_of_lt (Stretch.has_iff.1 hdomain).1.2 hsmall) hascii
      · have has : r.image.has _ = true := (Stretch.has_moved hnonneg hproper hdomain).2
        obtain ⟨⟨first, last⟩, -⟩ := Stretch.has_iff.1 has
        rcases himage with himage | ⟨hfirst, hlast⟩
        · exact absurd (himage.trans first) (Nat.not_le_of_lt hd)
        · exact absurd (Char.toNat_inj.1 (Nat.le_antisymm (last.trans hlast.le) (hfirst.ge.trans first))) hk
    · rw [form, List.mem_singleton.1 hp] at h
      exact absurd (List.cons.inj h).1.symm hi

/-- A word of such characters is the form of just those words that it is the form of in ASCII. -/
theorem lowerEach_eq_iff {w t : List Char} (ht : ∀ d ∈ t, d.toNat < 0x80 ∧ d ≠ 'i' ∧ d ≠ 'k') :
    lowerEach w = t ↔ w.map Char.toLower = t := by
  induction t generalizing w with
  | nil => rw [lowerEach_eq_nil, List.map_eq_nil_iff]
  | cons d t ih =>
    obtain ⟨hd, hi, hk⟩ := ht d List.mem_cons_self
    cases w with
    | nil => exact Iff.of_eq (by simp [lowerEach])
    | cons c w =>
      rw [lowerEach_cons, List.map_cons, List.cons_eq_cons, ← ih fun d h => ht d (List.mem_cons_of_mem _ h)]
      constructor
      · intro h
        obtain ⟨d', more, hc⟩ := List.exists_cons_of_ne_nil (lowerChar_ne_nil c)
        rw [hc, List.cons_append] at h
        obtain ⟨rfl, hrest⟩ := List.cons.inj h
        obtain ⟨form, rfl⟩ := (lowerChar_eq_cons_iff hd hi hk).1 hc
        exact ⟨form, hrest⟩
      · rintro ⟨form, h⟩
        rw [(lowerChar_eq_cons_iff hd hi hk).2 ⟨form, rfl⟩, h]
        rfl

end Case

end PegCompiler
