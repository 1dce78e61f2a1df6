/-
Match results tell the truth about meanings: where every expression has the result that its parts give
it, and what rules do agrees with the results assumed of them, what an expression does agrees with its
own result. The induction is on the expression; results of rules come in by the nesting of rules, and a
remembered result is one that some run gave. Host code must not give failures, for these count as
matches to the search.
-/
import PegCompiler.Proofs.Analysis.Matching
import PegCompiler.Proofs.Meaning.Ends

namespace PegCompiler

/-- A value is one that a result allows: no failure where the expression always matches, a failure where it never
does. -/
def MatchResult.Tells (m : MatchResult) (v : Value) : Prop := m.holds (!v.isFailed) = !v.isFailed

namespace MatchResult.Tells

variable {m m' : MatchResult} {v : Value}

theorem always_iff : always.Tells v ↔ v.isFailed = false := by
  cases h : v.isFailed <;> simp [Tells, holds, h]

theorem never_iff : never.Tells v ↔ v.isFailed = true := by
  cases h : v.isFailed <;> simp [Tells, holds, h]

theorem sometimes (v : Value) : MatchResult.sometimes.Tells v := rfl

theorem of_vaguer (h : m.Tells v) (hm : Vaguer m' m) : m'.Tells v := by
  rcases hm with rfl | rfl
  · exact .sometimes v
  · exact h

/-- A match is allowed by all results but one. -/
theorem of_match (hv : v.isFailed = false) (hm : m ≠ never) : m.Tells v := by
  cases m <;> simp_all [Tells, holds]

/-- A failure is allowed by all results but one. -/
theorem of_failure (hv : v.isFailed = true) (hm : m ≠ always) : m.Tells v := by
  cases m <;> simp_all [Tells, holds]

theorem ne_never (h : m.Tells v) (hv : v.isFailed = false) : m ≠ never := by
  rintro rfl; rw [never_iff, hv] at h; cases h

theorem ne_always (h : m.Tells v) (hv : v.isFailed = true) : m ≠ always := by
  rintro rfl; rw [always_iff, hv] at h; cases h

/-- What a condition that was left out decides is what it would have found. -/
theorem holds_eq (h : m.Tells v) : m.holds (!v.isFailed) = !v.isFailed := h

theorem cases (h : m.Tells v) :
    (m.holds (!v.isFailed) = true ∧ v.isFailed = false ∧ m ≠ never) ∨
      (m.holds (!v.isFailed) = false ∧ v.isFailed = true ∧ m ≠ always) := by
  rw [h.holds_eq]
  cases hv : v.isFailed
  · exact .inl ⟨rfl, rfl, h.ne_never hv⟩
  · exact .inr ⟨rfl, rfl, h.ne_always hv⟩

end MatchResult.Tells

namespace MatchResult

theorem or_ne_never_left {a b : MatchResult} (h : a ≠ never) : a.or b ≠ never := by
  cases a <;> cases b <;> simp_all [MatchResult.or]

theorem and_ne_never {a b : MatchResult} (ha : a ≠ never) (hb : b ≠ never) : a.and b ≠ never := by
  cases a <;> cases b <;> simp_all [MatchResult.and]

theorem and_ne_always_left {a b : MatchResult} (ha : a ≠ always) : a.and b ≠ always := by
  cases a <;> cases b <;> simp_all [MatchResult.and]

theorem and_ne_always_right {a b : MatchResult} (hb : b ≠ always) : a.and b ≠ always := by
  cases a <;> cases b <;> simp_all [MatchResult.and]

/-- An alternative that need not match says no more than what comes after it. -/
theorem or_vaguer_right {a b : MatchResult} (h : a ≠ always) : Vaguer (a.or b) b := by
  cases a <;> cases b <;> simp_all [MatchResult.or, Vaguer]

end MatchResult

namespace Analysis.Matching

variable {ρ : RuleId → MatchResult}

theorem judgeAny_ne_never {x : MatchResult} (hx : x ≠ .never) (es : List Expr) : judgeAny ρ x es ≠ .never := by
  induction es generalizing x with
  | nil => exact hx
  | cons e es ih => exact ih (MatchResult.or_ne_never_left hx)

theorem judgeAll_ne_always {x : MatchResult} (hx : x ≠ .always) (es : List Expr) : judgeAll ρ x es ≠ .always := by
  induction es generalizing x with
  | nil => exact hx
  | cons e es ih => exact ih (MatchResult.and_ne_always_left hx)

end Analysis.Matching

namespace Machine

open MatchResult Analysis.Matching

/-- Host code gives no failures. -/
def Setting.NeverFails (c : Setting) : Prop :=
  ∀ f kind host, c.function f = .ok (kind, host) → ∀ view args, (host view args).isFailed = false

theorem hostResult_isFailed {kind : FunctionKind} {v : Value} (h : v.isFailed = false) :
    (hostResult kind v).isFailed = false := by
  cases kind
  · exact h
  · rfl
  · exact h

/-- `I` is about what is remembered only. -/
def OfCache (I : ParseState → Prop) : Prop := ∀ st st', st'.cache = st.cache → I st → I st'

theorem fail_cache (st : ParseState) (e : Expectation) : (st.fail e).cache = st.cache := by
  unfold ParseState.fail ParseState.recordFailure
  split
  · split
    · rfl
    · split <;> rfl
  · rfl

section Tells

variable {c : Setting} {R : RuleId → Act HostFunction} {I : ParseState → Prop} {ρ : RuleId → MatchResult}

/-- An act keeps `I` and gives values that a result allows. -/
def Agrees {φ : Type} (I : ParseState → Prop) (m : MatchResult) (A : Act φ) : Prop :=
  ∀ st, I st → Ends A st fun v st' => m.Tells v ∧ I st'

namespace Agrees

variable {φ : Type} {A B : Act φ} {m m' : MatchResult}

theorem weaken (h : Agrees I m A) (hm : Vaguer m' m) : Agrees I m' A :=
  fun st hst => (h st hst).mono fun _ _ ⟨hv, hi⟩ => ⟨hv.of_vaguer hm, hi⟩

theorem text (h : Agrees I m A) : Agrees I m (.text m A) := by
  intro st hst
  unfold Act.text
  rw [ends_read, ends_bind]
  refine (h st hst).mono fun v st' ⟨hv, hi⟩ => ?_
  rcases hv.cases with ⟨hh, -, hm⟩ | ⟨hh, hf, hm⟩ <;> rw [hh]
  · exact ends_pure.2 ⟨.of_match rfl hm, hi⟩
  · exact ends_pure.2 ⟨hv, hi⟩

theorem silently (hI : OfCache I) (h : Agrees I m A) {D : Value → Act φ}
    (hD : ∀ v, m.Tells v → Agrees I m' (D v)) : Agrees I m' (.silently A D) := by
  intro st hst
  rw [ends_silently]
  refine (h _ ?_).mono fun v st' ⟨hv, hi⟩ => hD v hv _ ?_
  · exact hI st _ rfl hst
  · exact hI st' _ rfl hi

theorem pure {v : Value} (hv : m.Tells v) : Agrees I m (.pure v : Act φ) := fun _ hst => ends_pure.2 ⟨hv, hst⟩

theorem backTo (hI : OfCache I) (pos : Nat) {v : Value} (hv : m.Tells v) : Agrees I m (.backTo pos v : Act φ) :=
  fun st hst => ends_backTo.2 ⟨hv, hI st _ rfl hst⟩

theorem failing (hI : OfCache I) (e : Expectation) (hm : m ≠ always) : Agrees I m (.failing e : Act φ) :=
  fun st hst => ends_failing.2 ⟨.of_failure rfl hm, hI st _ (fail_cache st e) hst⟩

theorem lookahead (hI : OfCache I) (h : Agrees I m A) : Agrees I m (.lookahead m false A) := by
  intro st hst
  refine Agrees.silently hI h (fun v hv => ?_) st hst
  rcases hv.cases with ⟨hh, -, hm⟩ | ⟨hh, -, hm⟩ <;> rw [hh]
  · exact .backTo hI _ (.of_match rfl hm)
  · exact .pure (.of_failure rfl hm)

theorem lookaheadNot (hI : OfCache I) (h : Agrees I m A) : Agrees I m.negate (.lookahead m true A) := by
  intro st hst
  refine Agrees.silently hI h (fun v hv => ?_) st hst
  rcases hv.cases with ⟨hh, -, hm⟩ | ⟨hh, -, hm⟩ <;> rw [hh]
  · exact .backTo hI _ (.of_failure rfl (by cases m <;> simp_all [MatchResult.negate]))
  · exact .pure (.of_match rfl (by cases m <;> simp_all [MatchResult.negate]))

theorem named (hI : OfCache I) (h : Agrees I m A) (name : String) : Agrees I m (.named m name A) := by
  refine Agrees.silently hI h fun v hv => ?_
  rcases hv.cases with ⟨hh, -, hm⟩ | ⟨hh, -, hm⟩ <;> rw [hh]
  · exact .pure hv
  · exact .failing hI _ hm

theorem optional (h : Agrees I m A) : Agrees I .always (.optional m A) := by
  intro st hst
  unfold Act.optional
  rw [ends_bind]
  refine (h st hst).mono fun v st' ⟨hv, hi⟩ => ?_
  rcases hv.cases with ⟨hh, hf, -⟩ | ⟨hh, -, -⟩ <;> rw [hh]
  · exact ends_pure.2 ⟨Tells.always_iff.2 hf, hi⟩
  · exact ends_pure.2 ⟨Tells.always_iff.2 rfl, hi⟩

/-- Collecting ends with an array. -/
theorem collects (h : Agrees I m A) (hm' : m' ≠ never) (vs : List Value) (v : Value) :
    Agrees I m' (.Collects (fun _ => A) vs v) := by
  intro st hst
  refine (ends_collects (J := fun _ _ st => I st) (fun _ _ st hi _ => ?_) hst).mono fun w st' ⟨ws, u, hw, _, hi⟩ => ?_
  · exact (h st hi).mono fun _ _ hv => hv.2
  · exact ⟨hw ▸ .of_match rfl hm', hi⟩

theorem zeroOrMore (h : Agrees I m A) : Agrees I .always (.zeroOrMore A) := by
  intro st hst
  unfold Act.zeroOrMore
  rw [ends_bind]
  exact (h st hst).mono fun v st' ⟨_, hi⟩ => collects h (by decide) [] v st' hi

theorem oneOrMore (h : Agrees I m A) : Agrees I m (.oneOrMore m A) := by
  intro st hst
  unfold Act.oneOrMore
  rw [ends_bind]
  refine (h st hst).mono fun v st' ⟨hv, hi⟩ => ?_
  rcases hv.cases with ⟨hh, -, hm⟩ | ⟨hh, -, hm⟩ <;> rw [hh]
  · exact collects h hm [] v st' hi
  · exact ends_pure.2 ⟨.of_failure rfl hm, hi⟩

theorem delimited (hI : OfCache I) (hA : Agrees I m A) (hB : Agrees I m' B) :
    Agrees I (m.and m') (.delimited m m' A B) := by
  intro st hst
  unfold Act.delimited
  rw [ends_read, ends_bind]
  refine (hA st hst).mono fun v st₁ ⟨hv, hi⟩ => ?_
  rcases hv.cases with ⟨hh, -, hm⟩ | ⟨hh, hf, hm⟩ <;> rw [hh]
  · refine ends_bind.2 ((hB st₁ hi).mono fun w st₂ ⟨hw, hi₂⟩ => ?_)
    rcases hw.cases with ⟨hh', hf', hm'⟩ | ⟨hh', -, hm'⟩ <;> rw [hh']
    · exact ends_pure.2 ⟨.of_match hf' (and_ne_never hm hm'), hi₂⟩
    · exact ends_backTo.2 ⟨.of_failure rfl (and_ne_always_right hm'), hI st₂ _ rfl hi₂⟩
  · exact ends_pure.2 ⟨.of_failure hf (and_ne_always_left hm), hi⟩

end Agrees

/-! ## Repetitions -/

/-- What the rounds of a repetition keep, where the first item is one of `a` and all others of `b`: there are never
more items than there may be, and the next item is one that its result allows, unless the array is full. -/
structure Filling (I : ParseState → Prop) (a b : MatchResult) (most : Option Nat) (n : Nat) (v : Value)
    (st : ParseState) : Prop where
  state : I st
  bound : ∀ k ∈ most, n ≤ k
  full : ∀ k ∈ most, n = k → v.isFailed = true
  first : n = 0 → (∀ k ∈ most, 0 < k) → a.Tells v
  further : 0 < n → (∀ k ∈ most, n < k) → b.Tells v
  noFirst : a = .never → n = 0
  noFurther : b = .never → n ≤ 1

section Counted

variable {φ : Type} {A B : Act φ} {a b : MatchResult} {most : Option Nat}

theorem ends_unlessFull {n : Nat} {st : ParseState} {Q : Value → ParseState → Prop}
    (hfull : ∀ k ∈ most, k ≤ n → Q .failed st) (h : (∀ k ∈ most, n < k) → Ends A st Q) :
    Ends (.unlessFull most n A) st Q := by
  unfold Act.unlessFull
  cases most with
  | none => exact h fun k hk => by cases hk
  | some k =>
    by_cases hk : k ≤ n
    · rw [if_pos (by simpa using hk)]
      exact ends_pure.2 (hfull k rfl hk)
    · rw [if_neg (by simpa using hk)]
      exact h fun k' hk' => by cases hk'; omega

namespace Filling

variable {n : Nat} {v : Value} {st : ParseState}

theorem start (hst : I st) (hv : (∀ k ∈ most, 0 < k) → a.Tells v) (hfull : ∀ k ∈ most, k = 0 → v.isFailed = true) :
    Filling I a b most 0 v st :=
  ⟨hst, fun _ _ => Nat.zero_le _, fun k hk h => hfull k hk h.symm, fun _ => hv, fun h => absurd h (by omega),
    fun _ => rfl, fun _ => Nat.zero_le _⟩

/-- Where an item was added there was place for it. -/
theorem open_of_ok (h : Filling I a b most n v st) (hv : v.isFailed = false) : ∀ k ∈ most, n < k := fun k hk => by
  rcases Nat.lt_or_eq_of_le (h.bound k hk) with hlt | heq
  · exact hlt
  · rw [h.full k hk heq] at hv; cases hv

theorem next {w : Value} {st' : ParseState} (h : Filling I a b most n v st) (hv : v.isFailed = false) (hst : I st')
    (hw : (∀ k ∈ most, n + 1 < k) → b.Tells w) (hfull : ∀ k ∈ most, k = n + 1 → w.isFailed = true) :
    Filling I a b most (n + 1) w st' := by
  have hopen := h.open_of_ok hv
  refine ⟨hst, hopen, fun k hk h => hfull k hk h.symm, fun h => by omega, fun _ => hw, fun ha => ?_, fun hb => ?_⟩
  · have hn := h.noFirst ha
    subst hn
    exact absurd ha ((h.first rfl hopen).ne_never hv)
  · rcases Nat.eq_zero_or_pos n with rfl | hpos
    · exact Nat.le_refl 1
    · exact absurd hb ((h.further hpos hopen).ne_never hv)

/-- A failure that ended a repetition of enough items, or of too few. -/
theorem enough (h : Filling I a b most n v st) (hv : v.isFailed = true) {least : Nat} (hleast : 0 < least)
    (hmost : ∀ k ∈ most, least ≤ k) (ha : a = .always) (hb : b = .always ∨ least = 1) : least ≤ n := by
  by_contra hlt
  have hopen : ∀ k ∈ most, n < k := fun k hk => by have := hmost k hk; omega
  rcases Nat.eq_zero_or_pos n with rfl | hpos
  · exact (h.first rfl hopen).ne_always hv ha
  · rcases hb with hb | rfl
    · exact (h.further hpos hopen).ne_always hv hb
    · omega

end Filling

/-- How a repetition ends: too few items are a failure where that is checked, and otherwise there is an array of
items and a failure that ended it. -/
theorem ends_counted (hI : OfCache I) (hA : Agrees I a A) (hB : Agrees I b B) (checked : Bool) {least : Nat}
    {st : ParseState} (hst : I st) :
    Ends (.counted checked least most A B) st fun w st' => I st' ∧
      ∃ n u st₁, Filling I a b most n u st₁ ∧ u.isFailed = true ∧
        w.isFailed = (checked && decide (n < least)) := by
  unfold Act.counted
  rw [ends_read, ends_bind]
  have start : Ends (.unlessFull most 0 A) st (Filling I a b most 0) := by
    refine ends_unlessFull (fun k hk hle => ?_) fun hopen => ?_
    · exact .start hst (fun hopen => absurd (hopen k hk) (by omega)) fun _ _ _ => rfl
    · refine (hA st hst).mono fun v st' ⟨hv, hi⟩ => .start hi (fun _ => hv) fun k hk h0 => ?_
      exact absurd (hopen k hk) (by omega)
  refine start.mono fun v st₁ hv => ?_
  have hv : Filling I a b most ([] : List Value).length v st₁ := hv
  rw [ends_bind]
  refine (ends_collects (fun n u st₂ hu hok => ?_) hv).mono fun w st₃ ⟨ws, u, hw, huf, hu⟩ => ?_
  · refine ends_unlessFull (fun k hk hle => ?_) fun hopen => ?_
    · exact hu.next hok hu.state (fun hopen => absurd (hopen k hk) (by omega)) fun _ _ _ => rfl
    · refine (hB st₂ hu.state).mono fun x st' ⟨hx, hi⟩ => hu.next hok hi (fun _ => hx) fun k hk h => ?_
      exact absurd (hopen k hk) (by omega)
  · subst hw
    show Ends (if (checked && decide (ws.length < least)) = true then _ else _) _ _
    refine ends_ite (fun h => ?_) fun h => ?_
    · exact ends_backTo.2 ⟨hI st₃ _ rfl hu.state, ws.length, u, st₃, hu, huf, h.symm⟩
    · exact ends_pure.2 ⟨hu.state, ws.length, u, st₃, hu, huf, h.symm⟩

/-- The result of an item after the first one. -/
def itemResult (body : MatchResult) (delimiter : Option MatchResult) : MatchResult :=
  delimiter.elim body (·.and body)

theorem agrees_counted (hI : OfCache I) {body : MatchResult} {delimiter : Option MatchResult} (hA : Agrees I body A)
    (hB : Agrees I (itemResult body delimiter) B) {least : Nat} :
    Agrees I (.repeatedBetween least most body delimiter) (.counted (decide (0 < least)) least most A B) := by
  intro st hst
  refine (ends_counted hI hA hB (decide (0 < least)) hst).mono fun w st' ⟨hi, n, u, st₁, hu, huf, hw⟩ => ⟨?_, hi⟩
  have short (h : n < least) (m : MatchResult) (hm : m ≠ .always) : m.Tells w := by
    refine .of_failure ?_ hm
    rw [hw, decide_eq_true h, decide_eq_true (by omega : 0 < least)]; rfl
  have long (h : least ≤ n) (m : MatchResult) (hm : m ≠ .never) : m.Tells w := by
    refine .of_match ?_ hm
    rw [hw, decide_eq_false (by omega : ¬ n < least), Bool.and_false]
  unfold MatchResult.repeatedBetween
  by_cases hmost : ∃ k ∈ most, k < least
  · obtain ⟨k, hk, hlt⟩ := hmost
    cases hk
    rw [if_pos (by simpa using hlt)]
    exact short (Nat.lt_of_le_of_lt (hu.bound k rfl) hlt) _ (by decide)
  · have hmost' : ∀ k ∈ most, least ≤ k := fun k hk => Nat.le_of_not_lt fun h => hmost ⟨k, hk, h⟩
    rw [if_neg (by cases most <;> simp_all)]
    by_cases hzero : least = 0
    · subst hzero
      rw [if_pos (by simp)]
      exact long (Nat.zero_le n) _ (by decide)
    · rw [if_neg (by
        cases most with
        | none => simpa using hzero
        | some k => have := hmost' k rfl; simp; omega)]
      have hpos : 0 < least := by omega
      -- from here on the first item decides, and the delimiter too where two items are needed
      cases body with
      | never =>
        have := hu.noFirst rfl
        exact short (by omega) .never (by decide)
      | always =>
        by_cases htwo : 2 ≤ least
        · rw [if_pos htwo]
          cases delimiter with
          | none => exact long (hu.enough huf hpos hmost' rfl (.inl rfl)) _ (by decide)
          | some d =>
            cases d with
            | always => exact long (hu.enough huf hpos hmost' rfl (.inl rfl)) _ (by decide)
            | sometimes => exact .sometimes w
            | never =>
              have := hu.noFurther rfl
              exact short (by omega) _ (by decide)
        · rw [if_neg htwo]
          exact long (hu.enough huf hpos hmost' rfl (.inr (by omega))) _ (by decide)
      | sometimes =>
        by_cases htwo : 2 ≤ least
        · rw [if_pos htwo]
          cases delimiter with
          | none => exact .sometimes w
          | some d =>
            cases d with
            | always | sometimes => exact .sometimes w
            | never =>
              have := hu.noFurther rfl
              exact short (by omega) _ (by decide)
        · rw [if_neg htwo]
          exact .sometimes w

end Counted

/-! ## Host code and bounds -/

theorem ends_call_ok (hc : c.NeverFails) {kind : FunctionKind} {code : HostCode} {ls : Labels} {st : ParseState} :
    Ends (c.call kind code ls) st fun v st' => v.isFailed = false ∧ st' = st := by
  unfold Setting.call
  rw [ends_call]
  exact fun kind host hf => ⟨hostResult_isFailed (hc _ kind host hf _ _), rfl⟩

theorem ends_action_ok (hI : OfCache I) (hc : c.NeverFails) {start : Nat} {code : HostCode} {ls : Labels}
    {st : ParseState} (hst : I st) :
    Ends (c.action start code ls) st fun v st' => v.isFailed = false ∧ I st' := by
  unfold Setting.action
  rw [ends_after]
  exact (ends_call_ok hc).mono fun v st' ⟨hv, he⟩ => ⟨hv, he ▸ hI st _ rfl hst⟩

/-- What a repetition does with its bounds, it does with some bounds. -/
theorem ends_withBounds {ls : Labels} {min : Option Boundary} {max : Boundary} {st : ParseState}
    {D : Nat → Option Nat → Act HostFunction} {Q : Value → ParseState → Prop}
    (h : ∀ least most, (∀ n, min.getD max = .constant n → least = n.getD 0) → (∀ m, max = .constant m → most = m) →
      Ends (D least most) st Q) :
    Ends (c.withBounds ls min max D) st Q := by
  have bound (b : Boundary) (F : Count → Act HostFunction)
      (hF : ∀ n, (∀ k, b = .constant k → n = .fixed k) → Ends (F n) st Q) : Ends (c.withBound ls b F) st Q := by
    cases b with
    | constant k => exact hF _ fun k' hk => by cases hk; rfl
    | label name =>
      unfold Setting.withBound
      cases hl : ls.lookup name.val with
      | none => simp only [hl]; exact ends_stuck.2 trivial
      | some v => simp only [hl]; exact hF _ fun k hk => by cases hk
    | computed code =>
      unfold Setting.withBound Setting.call
      rw [ends_bind, ends_call]
      exact fun _ _ _ => hF _ fun k hk => by cases hk
  cases min with
  | none =>
    refine bound max _ fun n hn => h _ _ (fun k hk => ?_) fun m hm => ?_
    · obtain rfl := hn k hk; rfl
    · obtain rfl := hn m hm; rfl
  | some min =>
    unfold Setting.withBounds
    refine bound min _ fun n hn => bound max (fun n' => D n.least n'.most) fun n' hn' => h _ _ (fun k hk => ?_)
      fun m hm => ?_
    · obtain rfl := hn k hk; rfl
    · obtain rfl := hn' m hm; rfl

/-- Where the least bound is known, too few items can be a failure if it is not zero. -/
theorem needsLeast_constant {min : Option Boundary} {max : Boundary} {n : Option Nat} (h : min.getD max = .constant n) :
    Code.needsLeast min max = decide (0 < n.getD 0) := by
  unfold Code.needsLeast
  rw [h]
  rcases n with _ | _ | n
  · rfl
  · rfl
  · simp

theorem agrees_repeated (hI : OfCache I) {body : MatchResult} (delimiter : Option MatchResult) {A B : Act HostFunction}
    (hA : Agrees I body A) (hB : Agrees I (itemResult body delimiter) B) {ls : Labels} {min : Option Boundary}
    {max : Boundary} :
    Agrees I (.repeated min max body delimiter)
      (c.withBounds ls min max fun least most => .counted (Code.needsLeast min max) least most A B) := by
  intro st hst
  refine ends_withBounds fun least most hleast hmost => ?_
  have open' : Ends (.counted (Code.needsLeast min max) least most A B) st fun v st' =>
      MatchResult.sometimes.Tells v ∧ I st' :=
    (ends_counted hI hA hB _ hst).mono fun v st' h => ⟨.sometimes v, h.1⟩
  unfold MatchResult.repeated
  split
  · rename_i n m hmin
    obtain rfl := hleast n hmin
    obtain rfl := hmost m rfl
    rw [needsLeast_constant hmin]
    exact agrees_counted hI hA hB st hst
  · exact open'

/-! ## Expressions -/

/-- The results of an expression and of all it contains are those judged from results of rules. -/
def Follows (c : Setting) (ρ : RuleId → MatchResult) (e : Expr) : Prop :=
  ∀ e' ∈ e.preorder, c.matched e' = judge ρ e'

theorem Follows.self {e : Expr} (h : Follows c ρ e) : c.matched e = judge ρ e := h e (Expr.mem_preorder_self e)

theorem Follows.child {e e' : Expr} (h : Follows c ρ e) (he : e' ∈ e.children) : Follows c ρ e' :=
  fun _ h' => h _ (Expr.mem_preorder_of_child he h')

/-- Alternatives agree with their results together with what comes before them. -/
theorem agrees_others {others : List Expr} {ls : Labels}
    (hmatched : ∀ e ∈ others, Follows c ρ e)
    (ih : ∀ e ∈ others, Agrees I (judge ρ e) (c.meaning R e ls)) {before : MatchResult} {v : Value}
    (hv : before.Tells v) : Agrees I (judgeAny ρ before others) (c.meaningOthers R others ls before v) := by
  induction others generalizing before v with
  | nil => exact .pure hv
  | cons e es ihs =>
    intro st hst
    unfold Setting.meaningOthers
    rcases hv.cases with ⟨hh, hok, hm⟩ | ⟨hh, -, hm⟩ <;> rw [hh]
    · exact ends_pure.2 ⟨.of_match hok (judgeAny_ne_never hm _), hst⟩
    · refine ends_bind.2 ((ih e List.mem_cons_self st hst).mono fun w st' ⟨hw, hi⟩ => ?_)
      rw [(hmatched e List.mem_cons_self).self]
      refine Agrees.weaken (ihs (fun e' he => hmatched e' (List.mem_cons_of_mem _ he))
        (fun e' he => ih e' (List.mem_cons_of_mem _ he)) hw) ?_ st' hi
      exact judgeAny_mono (or_vaguer_right hm) fun _ _ => .refl _

/-- The elements of a sequence agree with their results together with what comes before them. -/
theorem agrees_elements (hI : OfCache I) (hc : c.NeverFails) {action : Option HostCode} {start : Nat}
    {elements : List Expr} (hmatched : ∀ e ∈ elements, Follows c ρ e)
    (ih : ∀ e ∈ elements, ∀ ls, Agrees I (judge ρ e) (c.meaning R e ls)) {sofar : MatchResult} (hs : sofar ≠ .never)
    {ls : Labels} {values picked : List Value} (hp : ∀ v ∈ picked, v.isFailed = false) :
    Agrees I (judgeAll ρ sofar elements) (c.meaningElements R action start elements ls values picked) := by
  induction elements generalizing sofar ls values picked with
  | nil =>
    intro st hst
    unfold Setting.meaningElements Setting.finish
    split
    · cases action with
      | none => exact ends_pure.2 ⟨.of_match rfl hs, hst⟩
      | some code => exact (ends_action_ok hI hc hst).mono fun v st' ⟨hv, hi⟩ => ⟨.of_match hv hs, hi⟩
    · refine ends_pure.2 ⟨.of_match ?_ hs, hst⟩
      unfold Stack.pickedValue
      split
      · exact hp _ List.mem_cons_self
      · rfl
  | cons e es ihs =>
    intro st hst
    unfold Setting.meaningElements
    refine ends_bind.2 ((ih e List.mem_cons_self ls st hst).mono fun v st' ⟨hv, hi⟩ => ?_)
    rw [(hmatched e List.mem_cons_self).self]
    -- after an element that matches come the others; one that fails goes back to the start
    rcases hv.cases with ⟨hh, hok, hm⟩ | ⟨hh, -, hm⟩ <;> rw [hh]
    · refine ihs (fun e' he => hmatched e' (List.mem_cons_of_mem _ he)) (fun e' he => ih e' (List.mem_cons_of_mem _ he))
        (and_ne_never hs hm) ?_ st' hi
      unfold pickedAfter
      split
      · intro w hw
        rcases List.mem_append.1 hw with hw | hw
        · exact hp w hw
        · rw [List.mem_singleton.1 hw]; exact hok
      · exact hp
    · exact ends_backTo.2 ⟨.of_failure rfl (judgeAll_ne_always (and_ne_always_right hm) _), hI st' _ rfl hi⟩

theorem agrees_predicate (hI : OfCache I) {code : HostCode} {negative : Bool} {ls : Labels} :
    Agrees I .sometimes (c.predicate code negative ls) := by
  intro st hst
  unfold Setting.predicate Setting.call
  rw [ends_after, ends_bind, ends_call]
  exact fun _ _ _ => ends_pure.2 ⟨.sometimes _, hI st _ rfl hst⟩

/-- A terminal that may match or not. -/
theorem agrees_terminal (hI : OfCache I) {m : MatchResult} {b : ParseState → Bool}
    {f : ParseState → Value × ParseState} {e : Expectation} (hm : m ≠ .always)
    (hok : ∀ st, (f st).1.isFailed = false ∧ (f st).2.cache = st.cache) :
    Agrees I m (.read fun st => if m.holds (b st) then .change f else .failing e : Act HostFunction) := by
  intro st hst
  rw [ends_read]
  refine ends_ite (fun h => ?_) fun _ => Agrees.failing hI e hm st hst
  refine ends_change.2 ⟨.of_match (hok st).1 ?_, hI st _ (hok st).2 hst⟩
  rintro rfl
  cases h

/-- What an expression does agrees with its result, if this is so for rules. -/
theorem agrees_expr (hI : OfCache I) (hc : c.NeverFails) (hR : ∀ r, Agrees I (ρ r) (R r)) (e : Expr)
    (he : Follows c ρ e) (ls : Labels) :
    Agrees I (judge ρ e) (c.meaning R e ls) := by
  -- each operator keeps to the result that the judgement of its operands gives it
  induction e using Expr.induction generalizing ls with
  | choice i first others ihFirst ihOthers =>
    have inFirst : Follows c ρ first := he.child List.mem_cons_self
    have inOthers : ∀ e ∈ others, Follows c ρ e := fun e h => he.child (List.mem_cons_of_mem _ h)
    intro st hst
    unfold Setting.meaning
    refine ends_bind.2 ((ihFirst inFirst ls st hst).mono fun v st' ⟨hv, hi⟩ => ?_)
    rw [inFirst.self]
    exact agrees_others inOthers (fun e h => ihOthers e h (inOthers e h) ls) hv st' hi
  | sequence i elements ih =>
    intro st hst
    unfold Setting.meaning
    exact agrees_elements hI hc (fun e h => he.child h) (fun e h => ih e h (he.child h)) (by decide)
      (fun v hv => by cases hv) st hst
  | labeled i label pick body ih | group i body ih =>
    unfold Setting.meaning
    exact ih (he.child List.mem_cons_self) ls
  | action i body code ih ihElements =>
    have inBody : Follows c ρ body := he.child List.mem_cons_self
    refine Expr.action_cases body (fun j elements hb => ?_) fun hb => ?_
    · subst hb
      intro st hst
      unfold Setting.meaning
      exact agrees_elements hI hc (fun e h => inBody.child h) (fun e h => ihElements e h (inBody.child h)) (by decide)
        (fun v hv => by cases hv) st hst
    · intro st hst
      rw [Setting.meaning]
      · rw [ends_read, ends_bind, inBody.self]
        refine (ih inBody ls st hst).mono fun v st' ⟨hv, hi⟩ => ?_
        rcases hv.cases with ⟨hh, -, hm⟩ | ⟨hh, hf, hm⟩ <;> rw [hh]
        · exact (ends_action_ok hI hc hi).mono fun w st'' ⟨hw, hi'⟩ => ⟨.of_match hw hm, hi'⟩
        · exact ends_pure.2 ⟨.of_failure hf hm, hi⟩
      · exact hb
  | text i body ih =>
    unfold Setting.meaning
    have inBody : Follows c ρ body := he.child List.mem_cons_self
    rw [inBody.self]
    exact (ih inBody ls).text
  | simpleAnd i body ih =>
    unfold Setting.meaning
    have inBody : Follows c ρ body := he.child List.mem_cons_self
    rw [inBody.self]
    exact (ih inBody ls).lookahead hI
  | simpleNot i body ih =>
    unfold Setting.meaning
    have inBody : Follows c ρ body := he.child List.mem_cons_self
    rw [inBody.self]
    exact (ih inBody ls).lookaheadNot hI
  | semanticAnd i code | semanticNot i code =>
    unfold Setting.meaning
    exact agrees_predicate hI
  | optional i body ih =>
    unfold Setting.meaning
    have inBody : Follows c ρ body := he.child List.mem_cons_self
    rw [inBody.self]
    exact (ih inBody ls).optional
  | zeroOrMore i body ih =>
    unfold Setting.meaning
    exact (ih (he.child List.mem_cons_self) ls).zeroOrMore
  | oneOrMore i body ih =>
    unfold Setting.meaning
    have inBody : Follows c ρ body := he.child List.mem_cons_self
    rw [inBody.self]
    exact (ih inBody ls).oneOrMore
  | repeated i body min max delimiter ih ihDelimiter =>
    have inBody : Follows c ρ body := he.child List.mem_cons_self
    cases delimiter with
    | none =>
      unfold Setting.meaning
      exact agrees_repeated hI none (ih inBody ls) (ih inBody ls)
    | some d =>
      have inDelimiter : Follows c ρ d := he.child (List.mem_cons_of_mem _ List.mem_cons_self)
      unfold Setting.meaning
      rw [inBody.self, inDelimiter.self]
      exact agrees_repeated hI (some (judge ρ d)) (ih inBody ls)
        ((ihDelimiter d rfl inDelimiter ls).delimited hI (ih inBody ls))
  | ruleRef i name target =>
    cases target with
    | none => unfold Setting.meaning; exact fun st _ => ends_stuck.2 trivial
    | some t => unfold Setting.meaning; exact hR t
  | literal i value ignoreCase =>
    unfold Setting.meaning
    rw [he.self]
    unfold judge
    -- the empty literal always matches, and any other one sometimes
    by_cases hv : value = ""
    · rw [if_pos hv, if_pos hv]
      exact .pure (Tells.always_iff.2 rfl)
    · rw [if_neg hv, if_neg hv]
      cases ignoreCase
      · exact agrees_terminal hI (by decide) fun _ => ⟨rfl, rfl⟩
      · exact agrees_terminal hI (by decide) fun _ => ⟨rfl, rfl⟩
  | charClass i k =>
    unfold Setting.meaning
    rw [he.self]
    refine agrees_terminal hI ?_ fun _ => ⟨rfl, rfl⟩
    unfold judge
    split <;> decide
  | any i =>
    unfold Setting.meaning
    rw [he.self]
    exact agrees_terminal hI (by unfold judge; decide) fun _ => ⟨rfl, rfl⟩
  | named i name body ih =>
    unfold Setting.meaning
    have inBody : Follows c ρ body := he.child List.mem_cons_self
    rw [inBody.self]
    exact (ih inBody ls).named hI name

end Tells

end Machine

end PegCompiler
