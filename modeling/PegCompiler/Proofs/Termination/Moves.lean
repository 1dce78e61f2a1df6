/-
Whatever host code answers, an act never moves back, and it has moved past something if it matches and what it does
is sure to consume. That needs one thing of the match results: what never matches fails, and what is sure to consume
does not always match, so that after such an expression the code goes on only if it did match.
-/
import PegCompiler.Proofs.Analysis.Consumption
import PegCompiler.Proofs.Analysis.Search
import PegCompiler.Proofs.Meaning.Matching

namespace PegCompiler

open MatchResult

/-! ## Match results of what consumes -/

namespace Analysis.Matching

variable {ρ : RuleId → MatchResult}

theorem or_eq_never_iff {a b : MatchResult} : a.or b = .never ↔ a = .never ∧ b = .never := by
  cases a <;> cases b <;> simp [MatchResult.or]

theorem judgeAny_eq_never_iff {x : MatchResult} {es : List Expr} :
    judgeAny ρ x es = .never ↔ x = .never ∧ ∀ e ∈ es, judge ρ e = .never := by
  induction es generalizing x with
  | nil => exact ⟨fun h => ⟨h, nofun⟩, And.left⟩
  | cons e es ih =>
    unfold judgeAny
    rw [ih, or_eq_never_iff, and_assoc, List.forall_mem_cons]

theorem judgeAny_ne_always {x : MatchResult} (hx : x ≠ .always) {es : List Expr}
    (h : ∀ e ∈ es, judge ρ e ≠ .always) : judgeAny ρ x es ≠ .always := by
  induction es generalizing x with
  | nil => exact hx
  | cons e es ih =>
    refine ih ?_ fun e' he' => h e' (List.mem_cons_of_mem _ he')
    have he := h e List.mem_cons_self
    revert hx he
    cases x <;> cases judge ρ e <;> simp [MatchResult.or]

theorem judgeAll_eq_never {x : MatchResult} {es : List Expr} (h : judgeAll ρ x es = .never) :
    x = .never ∨ ∃ e ∈ es, judge ρ e = .never := by
  induction es generalizing x with
  | nil => exact .inl h
  | cons e es ih =>
    rcases ih h with hx | ⟨e', he', hn⟩
    · have one : x = .never ∨ judge ρ e = .never := by
        revert hx
        cases x <;> cases judge ρ e <;> simp [MatchResult.and]
      rcases one with hx | he
      · exact .inl hx
      · exact .inr ⟨e, List.mem_cons_self, he⟩
    · exact .inr ⟨e', List.mem_cons_of_mem _ he', hn⟩

theorem judgeAll_ne_always_of_mem {x : MatchResult} {e : Expr} {es : List Expr} (he : e ∈ es)
    (h : judge ρ e ≠ .always) : judgeAll ρ x es ≠ .always := by
  induction es generalizing x with
  | nil => cases he
  | cons e' es ih =>
    rcases List.mem_cons.1 he with rfl | he
    · exact judgeAll_ne_always (and_ne_always_right h) es
    · exact ih he

/-- A repetition never matches if it cannot have enough items. -/
theorem repeatedBetween_eq_never {least : Nat} {most : Option Nat} {body : MatchResult} {d : Option MatchResult}
    (h : repeatedBetween least most body d = .never) :
    0 < least ∧ ((∃ k ∈ most, k < least) ∨ body = .never ∨ (2 ≤ least ∧ d = some .never)) := by
  unfold repeatedBetween at h
  split at h
  · -- more items are asked for than are allowed
    rename_i hmost
    cases most with
    | none => cases hmost
    | some k =>
      have hk : k < least := by simpa using hmost
      exact ⟨by omega, .inl ⟨k, rfl, hk⟩⟩
  · split at h
    · cases h
    · rename_i hzero
      have hpos : 0 < least := by
        rw [Bool.or_eq_true, not_or] at hzero
        have := hzero.2
        simp only [decide_eq_true_eq] at this
        omega
      refine ⟨hpos, .inr ?_⟩
      -- a delimiter is asked for only where two items are
      by_cases htwo : 2 ≤ least
      · rw [if_pos htwo] at h
        cases body with
        | never => exact .inl rfl
        | always =>
          cases d with
          | none => cases h
          | some d => exact .inr ⟨htwo, congrArg some h⟩
        | sometimes =>
          rcases d with _ | _ | _ | _
          · cases h
          · cases h
          · cases h
          · exact .inr ⟨htwo, rfl⟩
      · rw [if_neg htwo] at h
        cases body with
        | never => exact .inl rfl
        | always | sometimes => cases h

/-- A repetition that needs an item, or two with a delimiter, need not match if that need not. -/
theorem repeatedBetween_ne_always {least : Nat} {most : Option Nat} {body : MatchResult} {d : Option MatchResult}
    (h : 0 < least ∧ body ≠ .always ∨ 1 < least ∧ ∃ m, d = some m ∧ m ≠ .always) :
    repeatedBetween least most body d ≠ .always := by
  unfold repeatedBetween
  split
  · decide
  · rename_i hmost
    rw [if_neg (by
      cases most with
      | none => simp; omega
      | some k =>
        have : ¬ k < least := by simpa using hmost
        simp
        omega)]
    rcases h with ⟨-, hbody⟩ | ⟨htwo, m, rfl, hm⟩
    · cases body with
      | always => exact absurd rfl hbody
      | never => simp
      | sometimes =>
        rcases (if 2 ≤ least then d else none) with _ | _ | _ | _ <;> simp
    · rw [if_pos (by omega : 2 ≤ least)]
      cases body <;> cases m <;> simp_all

theorem of_sureCount_pos {min : Option Boundary} {max : Boundary} (h : 0 < Consumption.sureCount min max) :
    min.getD max = .constant (some (Consumption.sureCount min max)) := by
  unfold Consumption.sureCount at h ⊢
  split at h
  · rename_i heq
    rw [heq]
  · omega

/-- A repetition that is sure to consume need not match. -/
theorem repeated_ne_always {min : Option Boundary} {max : Boundary} {body : MatchResult} {d : Option MatchResult}
    (h : 0 < Consumption.sureCount min max ∧ body ≠ .always ∨
      1 < Consumption.sureCount min max ∧ ∃ m, d = some m ∧ m ≠ .always) :
    repeated min max body d ≠ .always := by
  unfold repeated
  rw [of_sureCount_pos (by omega)]
  split
  · rename_i heq
    cases heq
    exact repeatedBetween_ne_always h
  · decide

/-- What is sure to consume does not always match. -/
theorem consumes_ne_always {g : Grammar} {found : Matches} (hc : Complete g found) {e : Expr} (he : Consumes g e)
    (hρ : ∀ t, Vaguer (ρ t) (found.guess t)) : judge ρ e ≠ .always := by
  induction he generalizing ρ with
  | literal hv => unfold judge; rw [if_neg hv]; decide
  | charClass => unfold judge; split <;> decide
  | any => unfold judge; decide
  | sequence hm _ ih => exact judgeAll_ne_always_of_mem hm (ih hρ)
  | choice _ _ ih ihs => exact judgeAny_ne_always (ih hρ) fun e he => ihs e he hρ
  | @repeated i body min max d hn _ ih => cases d <;> exact repeated_ne_always (.inl ⟨hn, ih hρ⟩)
  | delimited hn _ ih => exact repeated_ne_always (.inr ⟨hn, _, rfl, ih hρ⟩)
  | @ruleRef i name t rule hr _ ih =>
    intro ht
    have ht : ρ t = .always := ht
    have guessed : found.guess t = .always := ((hρ t).eq_of_definite (by rw [ht]; decide)).symm.trans ht
    have reached : (found.ofRule? t).isSome := by
      unfold Matches.guess at guessed
      cases hf : found.ofRule? t with
      | none => rw [hf] at guessed; cases guessed
      | some m => rfl
    obtain ⟨ρ', hρ', -, hbody⟩ := hc.settled t rule hr reached
    exact ih hρ' (hbody.symm.trans guessed)
  | labeled _ ih | action _ ih | named _ ih | text _ ih | oneOrMore _ ih | group _ ih => exact ih hρ

end Analysis.Matching

namespace Machine

open Analysis Analysis.Matching

/-! ## Moving on -/

/-- `I` is about the text and about what is remembered only. -/
structure Steady (s : String) (I : ParseState → Prop) : Prop where
  input : ∀ st, I st → st.input = .ofString s
  keeps : ∀ st st', st'.input = st.input → st'.cache = st.cache → I st → I st'

namespace Steady

variable {s : String} {I : ParseState → Prop} {st : ParseState}

theorem silence (h : Steady s I) (hst : I st) (n : Nat) : I { st with silent := n } := h.keeps st _ rfl rfl hst

theorem move (h : Steady s I) (hst : I st) (pos : Nat) : I { st with pos } := h.keeps st _ rfl rfl hst

theorem save (h : Steady s I) (hst : I st) (saved : Nat) : I { st with saved } := h.keeps st _ rfl rfl hst

theorem fail (h : Steady s I) (hst : I st) (e : Expectation) : I (st.fail e) ∧ (st.fail e).pos = st.pos := by
  unfold ParseState.fail ParseState.recordFailure
  split
  · split
    · exact ⟨hst, rfl⟩
    · split
      · exact ⟨h.keeps st _ rfl rfl hst, rfl⟩
      · exact ⟨h.keeps st _ rfl rfl hst, rfl⟩
  · exact ⟨hst, rfl⟩

end Steady

/-- From here to there in a text of this size: never back, and past something only where there is something. -/
structure Onward (size start stop : Nat) : Prop where
  le : start ≤ stop
  inside : start < stop → start < size

namespace Onward

variable {size start mid stop : Nat}

theorem refl (size start : Nat) : Onward size start start := ⟨Nat.le_refl _, fun h => absurd h (Nat.lt_irrefl _)⟩

theorem trans (h : Onward size start mid) (h' : Onward size mid stop) : Onward size start stop := by
  obtain ⟨hle, hin⟩ := h
  obtain ⟨hle', hin'⟩ := h'
  exact ⟨by omega, fun hlt => by omega⟩

theorem of_eq (h : stop = start) : Onward size start stop := by
  rw [h]
  exact .refl size start

end Onward

/-- How an act with this result moves on in a text of this size: never back and, where `P` tells that it consumes and
it matches, past something. -/
structure Moves (size : Nat) (m : MatchResult) (P : Prop) (start : Nat) (v : Value) (stop : Nat) : Prop where
  forward : Onward size start stop
  never : m = .never → v.isFailed = true
  consumes : P → v.isFailed = false → start < size ∧ start < stop

namespace Moves

variable {size start mid stop : Nat} {m m' : MatchResult} {P P' : Prop} {v : Value}

theorem weaken (h : Moves size m P start v stop) (hm : m' = .never → m = .never) (hP : P' → P) :
    Moves size m' P' start v stop :=
  ⟨h.forward, fun e => h.never (hm e), fun p => h.consumes (hP p)⟩

theorem failed (h : Onward size start stop) (hv : v.isFailed = true) : Moves size m P start v stop :=
  ⟨h, fun _ => hv, fun _ hok => by rw [hv] at hok; cases hok⟩

theorem idle (h : Onward size start stop) (hm : m ≠ .never) : Moves size m False start v stop :=
  ⟨h, fun e => absurd e hm, False.elim⟩

/-- What began earlier moved at least as far. -/
theorem earlier (h : Moves size m P mid v stop) (hle : Onward size start mid) : Moves size m P start v stop := by
  have before := hle.le
  exact ⟨hle.trans h.forward, h.never, fun p hok => by have := h.consumes p hok; omega⟩

/-- The code after an act that is sure to consume, if there is one for a match, is reached only past something; the
other code is reached only by a failure. -/
theorem cases (h : Moves size m P start v stop) (hP : P → m ≠ .always) :
    (m.holds (!v.isFailed) = true ∧ m ≠ .never ∧ (P → start < size ∧ start < stop)) ∨
      (m.holds (!v.isFailed) = false ∧ v.isFailed = true) := by
  cases m with
  | always => exact .inl ⟨rfl, by decide, fun p => absurd rfl (hP p)⟩
  | never => exact .inr ⟨rfl, h.never rfl⟩
  | sometimes =>
    cases hv : v.isFailed with
    | false => exact .inl ⟨rfl, by decide, fun p => h.consumes p hv⟩
    | true => exact .inr ⟨rfl, rfl⟩

end Moves

section Advances

variable {s : String} {I : ParseState → Prop} {size : Nat}

/-- An act keeps `I` and moves on. -/
def Advances {φ : Type} (I : ParseState → Prop) (size : Nat) (m : MatchResult) (P : Prop) (A : Act φ) : Prop :=
  ∀ st, I st → Ends A st fun v st' => I st' ∧ Moves size m P st.pos v st'.pos

namespace Advances

variable {φ : Type} {A B : Act φ} {m m' : MatchResult} {P P' : Prop}

theorem weaken (h : Advances I size m P A) (hm : m' = .never → m = .never) (hP : P' → P) : Advances I size m' P' A :=
  fun st hst => (h st hst).mono fun _ _ ⟨hi, hv⟩ => ⟨hi, hv.weaken hm hP⟩

theorem text (h : Advances I size m P A) (hP : P → m ≠ .always) : Advances I size m P (.text m A) := by
  intro st hst
  unfold Act.text
  rw [ends_read, ends_bind]
  refine (h st hst).mono fun v st' ⟨hi, hv⟩ => ?_
  rcases hv.cases hP with ⟨hh, hm, hc⟩ | ⟨hh, hf⟩ <;> rw [hh]
  · exact ends_pure.2 ⟨hi, hv.forward, fun e => absurd e hm, fun p _ => hc p⟩
  · exact ends_pure.2 ⟨hi, hv⟩

theorem lookahead (hI : Steady s I) (h : Advances I size m P A) (hP : P → m ≠ .always) :
    Advances I size m False (.lookahead m false A) := by
  intro st hst
  unfold Act.lookahead
  rw [ends_read, ends_silently]
  refine (h _ (hI.silence hst _)).mono fun v st' ⟨hi, hv⟩ => ?_
  rcases hv.cases hP with ⟨hh, hm, -⟩ | ⟨hh, -⟩ <;> rw [hh]
  · exact ends_backTo.2 ⟨hI.move (hI.silence hi _) _, .idle (.refl _ _) hm⟩
  · exact ends_pure.2 ⟨hI.silence hi _, .failed hv.forward rfl⟩

theorem lookaheadNot (hI : Steady s I) (h : Advances I size m P A) (hP : P → m ≠ .always) :
    Advances I size m.negate False (.lookahead m true A) := by
  intro st hst
  unfold Act.lookahead
  rw [ends_read, ends_silently]
  refine (h _ (hI.silence hst _)).mono fun v st' ⟨hi, hv⟩ => ?_
  rcases hv.cases hP with ⟨hh, -, -⟩ | ⟨hh, -⟩ <;> rw [hh]
  · exact ends_backTo.2 ⟨hI.move (hI.silence hi _) _, .failed (.refl _ _) rfl⟩
  · refine ends_pure.2 ⟨hI.silence hi _, hv.forward, fun e => ?_, False.elim⟩
    cases m <;> cases e
    cases hh

theorem named (hI : Steady s I) (h : Advances I size m P A) (hP : P → m ≠ .always) (name : String) :
    Advances I size m P (.named m name A) := by
  intro st hst
  unfold Act.named
  rw [ends_silently]
  refine (h _ (hI.silence hst _)).mono fun v st' ⟨hi, hv⟩ => ?_
  have hi' := hI.silence hi (st'.silent - 1)
  rcases hv.cases hP with ⟨hh, -, -⟩ | ⟨hh, -⟩ <;> rw [hh]
  · exact ends_pure.2 ⟨hi', hv⟩
  · obtain ⟨kept, hpos⟩ := hI.fail hi' (.named name)
    exact ends_failing.2 ⟨kept, .failed (by rw [hpos]; exact hv.forward) rfl⟩

theorem optional (h : Advances I size m P A) : Advances I size .always False (.optional m A) := by
  intro st hst
  unfold Act.optional
  rw [ends_bind]
  refine (h st hst).mono fun v st' ⟨hi, hv⟩ => ends_ite (fun _ => ?_) fun _ => ?_
  · exact ends_pure.2 ⟨hi, .idle hv.forward (by decide)⟩
  · exact ends_pure.2 ⟨hi, .idle hv.forward (by decide)⟩

theorem collects (h : Advances I size m P A) (vs : List Value) (v : Value) {st : ParseState} (hst : I st) :
    Ends (.Collects (fun _ => A) vs v) st fun w st' => I st' ∧ Onward size st.pos st'.pos ∧ w.isFailed = false := by
  refine (ends_collects (J := fun _ _ st' => I st' ∧ Onward size st.pos st'.pos) (fun _ _ st₁ hj _ => ?_)
    ⟨hst, .refl _ _⟩).mono fun w st' ⟨ws, u, hw, _, hi, hle⟩ => ⟨hi, hle, by rw [hw]; rfl⟩
  exact (h st₁ hj.1).mono fun _ _ ⟨hi, hv⟩ => ⟨hi, hj.2.trans hv.forward⟩

theorem zeroOrMore (h : Advances I size m P A) : Advances I size .always False (.zeroOrMore A) := by
  intro st hst
  unfold Act.zeroOrMore
  rw [ends_bind]
  refine (h st hst).mono fun v st₁ ⟨hi, hv⟩ => ?_
  exact (h.collects [] v hi).mono fun w st' ⟨hi', hle, _⟩ => ⟨hi', .idle (hv.forward.trans hle) (by decide)⟩

theorem oneOrMore (h : Advances I size m P A) (hP : P → m ≠ .always) : Advances I size m P (.oneOrMore m A) := by
  intro st hst
  unfold Act.oneOrMore
  rw [ends_bind]
  refine (h st hst).mono fun v st₁ ⟨hi, hv⟩ => ?_
  rcases hv.cases hP with ⟨hh, hm, hc⟩ | ⟨hh, hf⟩ <;> rw [hh]
  · refine (h.collects [] v hi).mono fun w st' ⟨hi', hle, _⟩ => ⟨hi', hv.forward.trans hle, fun e => absurd e hm, ?_⟩
    intro p _
    have := hc p
    have := hle.le
    omega
  · exact ends_pure.2 ⟨hi, .failed hv.forward rfl⟩

theorem delimited (hI : Steady s I) (hA : Advances I size m P A) (hB : Advances I size m' P' B)
    (hP : P → m ≠ .always) (hP' : P' → m' ≠ .always) :
    Advances I size (m.and m') (P ∨ P') (.delimited m m' A B) := by
  intro st hst
  unfold Act.delimited
  rw [ends_read, ends_bind]
  refine (hA st hst).mono fun v st₁ ⟨hi, hv⟩ => ?_
  rcases hv.cases hP with ⟨hh, hm, hc⟩ | ⟨hh, hf⟩ <;> rw [hh]
  · refine ends_bind.2 ((hB st₁ hi).mono fun w st₂ ⟨hi₂, hw⟩ => ?_)
    have onward := hw.forward
    rcases hw.cases hP' with ⟨hh', hm', hc'⟩ | ⟨hh', hf'⟩ <;> rw [hh']
    · refine ends_pure.2 ⟨hi₂, hv.forward.trans onward, fun e => absurd e (and_ne_never hm hm'), fun p _ => ?_⟩
      have := hv.forward.le
      have := onward.le
      rcases p with p | p
      · have := hc p; omega
      · have := hc' p; omega
    · exact ends_backTo.2 ⟨hI.move hi₂ _, .failed (.refl _ _) rfl⟩
  · exact ends_pure.2 ⟨hi, .failed hv.forward hf⟩

end Advances

end Advances

end Machine

end PegCompiler
