/-
Lowercase forms, character by character and of whole texts. The form of a character is in lower case itself: the
images of a run and the characters that another run maps lie in different ranges, or they are every second one of
ranges that overlap, side by side. The form of a text is put together from those of its characters, but for a capital
sigma at the end of a word. What a text in any case takes is what has its form, character by character.
-/
import PegCompiler.Proofs.Text.Input

namespace PegCompiler

/-! ## Runs -/

namespace Unicode

/-- No character is mapped of those between two, either all of them or every second one. -/
def CaseRun.avoids (first last step : Nat) (r : CaseRun) : Bool :=
  Nat.blt last r.first || Nat.blt r.last first ||
    (r.step == 2 && (step == 2 || first == last) && (first + r.first) % 2 == 1)

theorem lowerRuns_avoid : ∀ r ∈ lowerRuns, 0 ≤ r.first + r.delta ∧
    lowerRuns.all (CaseRun.avoids (r.first + r.delta).toNat (r.last + r.delta).toNat r.step) := by
  decide +kernel

/-- Nor is the one character mapped that has several for its form. -/
theorem lowerRuns_avoid_several : ∀ r ∈ lowerRuns,
    CaseRun.avoids (r.first + r.delta).toNat (r.last + r.delta).toNat r.step ⟨0x130, 0x130, 1, 0⟩ = true := by
  decide +kernel

/-- The image of a character under its run is not mapped by a run that avoids the images. -/
theorem CaseRun.covers_of_avoids {r r' : CaseRun} {c c' : Char} (h0 : 0 ≤ r.first + r.delta)
    (h : r'.avoids (r.first + r.delta).toNat (r.last + r.delta).toNat r.step = true)
    (hc : r.covers c = true) (hc' : (c'.toNat : Int) = c.toNat + r.delta) : r'.covers c' = false := by
  unfold avoids at h
  unfold covers at hc ⊢
  simp only [Bool.or_eq_true, Bool.and_eq_true, beq_iff_eq, decide_eq_true_eq, Nat.blt_eq] at h hc
  obtain ⟨⟨first, last⟩, every⟩ := hc
  by_contra hcovers
  rw [Bool.not_eq_false] at hcovers
  simp only [Bool.and_eq_true, beq_iff_eq, decide_eq_true_eq] at hcovers
  obtain ⟨⟨first', last'⟩, every'⟩ := hcovers
  rcases h with (h | h) | ⟨⟨h, h'⟩, parity⟩
  · omega
  · omega
  · rw [h] at every'
    rcases h' with h' | h'
    · rw [h'] at every
      omega
    · omega

end Unicode

/-! ## Characters -/

namespace Case

open Unicode

theorem lowerEach_singleton (c : Char) : lowerEach [c] = lowerChar c := by
  unfold lowerEach
  rw [List.flatMap_singleton]

theorem lowerEach_cons (c : Char) (cs : List Char) : lowerEach (c :: cs) = lowerChar c ++ lowerEach cs := rfl

theorem lowerEach_append (cs cs' : List Char) : lowerEach (cs ++ cs') = lowerEach cs ++ lowerEach cs' :=
  List.flatMap_append

theorem lowerEach_eq_nil {cs : List Char} : lowerEach cs = [] ↔ cs = [] := by
  constructor
  · intro h
    cases cs with
    | nil => rfl
    | cons c cs => exact absurd (List.flatMap_eq_nil_iff.1 h c List.mem_cons_self) (lowerChar_ne_nil c)
  · rintro rfl
    rfl

section LowerChar

variable {c : Char} (hascii : ¬ c.toNat < 0x80) (hseveral : c.toNat ≠ 0x130)

include hseveral

theorem lowerSeveral_lookup : lowerSeveral.lookup c.toNat = none := by
  rw [List.lookup_eq_none_iff]
  intro p hp
  rw [List.mem_singleton.1 hp]
  exact bne_iff_ne.2 hseveral

include hascii

theorem lowerChar_of_run {r : CaseRun} (h : lowerRuns.find? (·.covers c) = some r) :
    lowerChar c = [Char.ofNat (c.toNat + r.delta).toNat] := by
  unfold lowerChar mapChar
  rw [if_neg hascii, lowerSeveral_lookup hseveral, h]

theorem lowerChar_of_no_run (h : lowerRuns.find? (·.covers c) = none) : lowerChar c = [c] := by
  unfold lowerChar mapChar
  rw [if_neg hascii, lowerSeveral_lookup hseveral, h]

end LowerChar

/-- What holds of the first 128 numbers holds of the ASCII characters. -/
theorem forall_ascii {P : Char → Prop} (h : ∀ n < 0x80, P (Char.ofNat n)) {c : Char} (hc : c.toNat < 0x80) : P c := by
  have hn := h c.toNat hc
  rwa [Char.ofNat_toNat] at hn

/-- A character that no mapping is for is its own form. -/
theorem lowerChar_of_not_mapped {c : Char} (hseveral : c.toNat ≠ 0x130) (hruns : ∀ r ∈ lowerRuns, r.covers c = false) :
    lowerChar c = [c] := by
  by_cases hascii : c.toNat < 0x80
  · -- the first run is the one of the capital letters of ASCII
    have hfirst := hruns ⟨0x41, 0x5A, 1, 32⟩ List.mem_cons_self
    have hlower : CaseRun.covers ⟨0x41, 0x5A, 1, 32⟩ c = false → c.toLower = c :=
      forall_ascii (P := fun c => CaseRun.covers ⟨0x41, 0x5A, 1, 32⟩ c = false → c.toLower = c) (by decide +kernel) hascii
    unfold lowerChar
    rw [if_pos hascii, hlower hfirst]
  · refine lowerChar_of_no_run hascii hseveral (List.find?_eq_none.2 fun r hr => ?_)
    rw [hruns r hr]
    exact Bool.false_ne_true

/-- The image of a character under its run is its own form. -/
theorem lowerChar_image {c : Char} {r : CaseRun} (hr : r ∈ lowerRuns) (hc : r.covers c = true) :
    lowerChar (Char.ofNat (c.toNat + r.delta).toNat) = [Char.ofNat (c.toNat + r.delta).toNat] := by
  obtain ⟨nonneg, avoid⟩ := lowerRuns_avoid r hr
  have others := List.all_eq_true.1 avoid
  by_cases valid : (c.toNat + r.delta).toNat.isValidChar
  · have image : ((Char.ofNat (c.toNat + r.delta).toNat).toNat : Int) = c.toNat + r.delta := by
      have first : r.first ≤ c.toNat := by
        unfold CaseRun.covers at hc
        simp only [Bool.and_eq_true, decide_eq_true_eq] at hc
        exact hc.1.1
      have number : (Char.ofNat (c.toNat + r.delta).toNat).toNat = (c.toNat + r.delta).toNat :=
        congrArg Char.toNat (dif_pos valid)
      rw [number]
      omega
    refine lowerChar_of_not_mapped ?_ fun r' hr' => CaseRun.covers_of_avoids nonneg (others r' hr') hc image
    intro hseveral
    have single := CaseRun.covers_of_avoids nonneg (lowerRuns_avoid_several r hr) hc image
    unfold CaseRun.covers at single
    rw [hseveral] at single
    cases single
  · -- no character has the number, so this is the one with number zero
    have zero : Char.ofNat (c.toNat + r.delta).toNat = Char.ofNat 0 := dif_neg valid
    rw [zero]
    decide +kernel

/-- The form of a character is in lower case. -/
theorem lowerEach_lowerChar (c : Char) : lowerEach (lowerChar c) = lowerChar c := by
  by_cases hascii : c.toNat < 0x80
  · obtain ⟨hascii', again⟩ : c.toLower.toNat < 0x80 ∧ c.toLower.toLower = c.toLower :=
      forall_ascii (P := fun c => c.toLower.toNat < 0x80 ∧ c.toLower.toLower = c.toLower) (by decide +kernel) hascii
    have form : lowerChar c = [c.toLower] := if_pos hascii
    rw [form, lowerEach_singleton, lowerChar, if_pos hascii', again]
  · by_cases hseveral : c.toNat = 0x130
    · have dotted : c = Char.ofNat 0x130 := by rw [← hseveral, Char.ofNat_toNat]
      rw [dotted]
      decide +kernel
    · cases hrun : lowerRuns.find? (·.covers c) with
      | none =>
        have form := lowerChar_of_no_run hascii hseveral hrun
        rw [form, lowerEach_singleton, form]
      | some r =>
        rw [lowerChar_of_run hascii hseveral hrun, lowerEach_singleton]
        have covers := List.find?_some (p := fun r : CaseRun => r.covers c) hrun
        exact lowerChar_image (List.mem_of_find?_eq_some hrun) covers

/-! ## Texts -/

/-- The second text is the first one with some of its characters in lower case. -/
inductive LowersSome : List Char → List Char → Prop
  | nil : LowersSome [] []
  | keep {cs cs' : List Char} (c : Char) (h : LowersSome cs cs') : LowersSome (c :: cs) (c :: cs')
  | lower {cs cs' : List Char} (c : Char) (h : LowersSome cs cs') : LowersSome (c :: cs) (lowerChar c ++ cs')

theorem LowersSome.lowerEach_eq {cs cs' : List Char} (h : LowersSome cs cs') : lowerEach cs' = lowerEach cs := by
  induction h with
  | nil => rfl
  | keep c _ ih => rw [lowerEach_cons, lowerEach_cons, ih]
  | lower c _ ih => rw [lowerEach_append, lowerEach_lowerChar, ih, lowerEach_cons]

/-- No capital sigma ends a word: where a letter comes before one, another one comes after it. -/
def NoFinalSigma (cs : List Char) : Prop :=
  ∀ before after, cs = before ++ 'Σ' :: after → meetsCased before.reverse = true → meetsCased after = true

/-- The same of the rest of a text, with what is before it in reverse. -/
def NoFinalSigmaAfter (before cs : List Char) : Prop :=
  ∀ mid after, cs = mid ++ 'Σ' :: after → meetsCased (mid.reverse ++ before) = true → meetsCased after = true

/-- A sigma to look at is the first character or one after it. -/
theorem noFinalSigmaAfter_cons {before cs : List Char} {c : Char} : NoFinalSigmaAfter before (c :: cs) ↔
    (c = 'Σ' → meetsCased before = true → meetsCased cs = true) ∧ NoFinalSigmaAfter (c :: before) cs := by
  constructor
  · intro h
    refine ⟨fun hc hbefore => h [] cs (by rw [hc]; rfl) hbefore, fun mid after hcs hmid => ?_⟩
    refine h (c :: mid) after (by rw [hcs]; rfl) ?_
    rw [List.reverse_cons, List.append_assoc]
    exact hmid
  · rintro ⟨hhere, hthere⟩ mid after hcs hmid
    cases mid with
    | nil =>
      obtain ⟨hc, rfl⟩ := List.cons.inj hcs
      exact hhere hc hmid
    | cons c' mid =>
      obtain ⟨rfl, htail⟩ := List.cons.inj hcs
      refine hthere mid after htail ?_
      rw [List.reverse_cons, List.append_assoc] at hmid
      exact hmid

/-- The first character has its own form, unless it is a sigma that ends a word. -/
theorem lowerFrom_cons_eq_iff {before cs : List Char} {c : Char} : lowerFrom before (c :: cs) = lowerEach (c :: cs) ↔
    (c = 'Σ' → meetsCased before = true → meetsCased cs = true) ∧ lowerFrom (c :: before) cs = lowerEach cs := by
  have sigma : lowerChar 'Σ' = ['σ'] := by decide +kernel
  rw [lowerFrom, lowerEach_cons]
  by_cases hc : c = 'Σ'
  · subst hc
    by_cases hend : (meetsCased before && !meetsCased cs) = true
    · rw [if_pos rfl, if_pos hend, sigma]
      simp only [Bool.and_eq_true, Bool.not_eq_true'] at hend
      constructor
      · intro h
        cases (List.cons.inj h).1
      · rintro ⟨h, -⟩
        rw [h rfl hend.1] at hend
        cases hend.2
    · rw [if_pos rfl, if_neg hend, sigma, List.append_cancel_left_eq]
      have here : meetsCased before = true → meetsCased cs = true := by
        intro hbefore
        rw [hbefore, Bool.true_and, Bool.not_eq_true', Bool.not_eq_false] at hend
        exact hend
      exact ⟨fun h => ⟨fun _ => here, h⟩, fun h => h.2⟩
  · rw [if_neg hc, List.append_cancel_left_eq]
    exact ⟨fun h => ⟨fun hc' => absurd hc' hc, h⟩, fun h => h.2⟩

/-- The form of the rest of a text is that of its characters just where no capital sigma of it ends a word. -/
theorem lowerFrom_eq_iff (before cs : List Char) : lowerFrom before cs = lowerEach cs ↔ NoFinalSigmaAfter before cs := by
  induction cs generalizing before with
  | nil =>
    refine ⟨fun _ mid after h => ?_, fun _ => rfl⟩
    exact absurd h.symm (List.append_ne_nil_of_right_ne_nil _ (List.cons_ne_nil _ _))
  | cons c cs ih => rw [lowerFrom_cons_eq_iff, noFinalSigmaAfter_cons, ih]

theorem lower_eq_iff (s : String) : (lower s).toList = lowerEach s.toList ↔ NoFinalSigma s.toList := by
  unfold lower NoFinalSigma
  rw [String.toList_ofList, lowerFrom_eq_iff]
  unfold NoFinalSigmaAfter
  simp only [List.append_nil]

end Case

/-! ## What is taken in any case -/

namespace ParseState

theorem dropStart?_eq_some_iff {start text rest : List Char} : dropStart? start text = some rest ↔ text = start ++ rest := by
  induction start generalizing text with
  | nil =>
    unfold dropStart?
    rw [Option.some.injEq, List.nil_append]
  | cons c start ih =>
    cases text with
    | nil => simp [dropStart?]
    | cons d text =>
      unfold dropStart?
      split
      · rename_i h
        rw [ih, h, List.cons_append, List.cons.injEq]
        simp
      · rename_i h
        refine ⟨nofun, fun he => ?_⟩
        exact absurd (List.cons.inj he).1.symm h

/-- What is taken for a text in lower case is the beginning whose characters have it for their form. -/
theorem icStart?_eq_some_iff {want cs w : List Char} :
    icStart? want cs = some w ↔ w <+: cs ∧ Case.lowerEach w = want := by
  induction cs generalizing want w with
  | nil =>
    unfold icStart?
    rw [List.prefix_nil]
    constructor
    · intro h
      split at h
      · cases h
        exact ⟨rfl, (List.isEmpty_iff.1 ‹_›).symm⟩
      · cases h
    · rintro ⟨rfl, rfl⟩
      rfl
  | cons c cs ih =>
    unfold icStart?
    by_cases hwant : want = []
    · subst hwant
      rw [if_pos List.isEmpty_nil, Case.lowerEach_eq_nil]
      constructor
      · intro h
        cases h
        exact And.intro List.nil_prefix rfl
      · rintro ⟨-, rfl⟩
        rfl
    · rw [if_neg (mt List.isEmpty_iff.1 hwant), Option.bind_eq_some_iff]
      constructor
      · rintro ⟨left, hleft, hmap⟩
        obtain ⟨w', hw', rfl⟩ := Option.map_eq_some_iff.1 hmap
        obtain ⟨hbegins, rfl⟩ := ih.1 hw'
        exact ⟨(List.prefix_cons_inj c).2 hbegins, (dropStart?_eq_some_iff.1 hleft).symm⟩
      · rintro ⟨hbegins, rfl⟩
        cases w with
        | nil => exact absurd rfl hwant
        | cons c' w =>
          obtain ⟨rfl, hrest⟩ := List.cons_prefix_cons.1 hbegins
          refine ⟨Case.lowerEach w, dropStart?_eq_some_iff.2 rfl, ?_⟩
          rw [ih.2 ⟨hrest, rfl⟩, Option.map_some]

end ParseState

end PegCompiler
