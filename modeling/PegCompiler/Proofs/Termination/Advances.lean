/-
Expressions and rules move on. The induction is on the expression; rules come in by their nesting, and what is
remembered of them is something that they once did.
-/
import PegCompiler.Proofs.MatchResults
import PegCompiler.Proofs.Semantics.Acts
import PegCompiler.Proofs.Termination.Moves

namespace PegCompiler

namespace Machine

open MatchResult Analysis Analysis.Matching

variable {s : String} {I : ParseState → Prop} {size : Nat}

/-! ## Repetitions -/

/-- What the rounds of a repetition keep, with `n` items so far and a value for the next one: where the repetition is
now, and that enough items are a way past something. The first item is one of an act with the result `a`, all others
are of one with `b`. -/
structure Rounds (size : Nat) (a b : MatchResult) (P P' : Prop) (most : Option Nat) (start n : Nat) (v : Value)
    (pos : Nat) : Prop where
  forward : Onward size start pos
  bound : ∀ k ∈ most, n ≤ k
  full : ∀ k ∈ most, n = k → v.isFailed = true
  noFirst : a = .never → n = 0 ∧ v.isFailed = true
  noFurther : b = .never → n = 0 ∨ n = 1 ∧ v.isFailed = true
  first : P → 0 < n ∨ v.isFailed = false → start < size ∧ start < pos
  further : P' → 1 < n ∨ 0 < n ∧ v.isFailed = false → start < size ∧ start < pos

namespace Rounds

variable {a b : MatchResult} {P P' : Prop} {most : Option Nat} {start n pos stop : Nat} {v w : Value}

theorem begin (h : Moves size a P start v pos) (hmost : ∀ k ∈ most, 0 < k) : Rounds size a b P P' most start 0 v pos :=
  ⟨h.forward, fun _ _ => Nat.zero_le _, fun k hk e => absurd (hmost k hk) (by omega), fun e => ⟨rfl, h.never e⟩,
    fun _ => .inl rfl, fun p hn => h.consumes p (by simpa using hn), fun _ hn => by simp at hn⟩

/-- There is no place for an item. -/
theorem none (most : Option Nat) (start : Nat) : Rounds size a b P P' most start 0 .failed start :=
  ⟨.refl _ _, fun _ _ => Nat.zero_le _, fun _ _ _ => rfl, fun _ => ⟨rfl, rfl⟩, fun _ => .inl rfl,
    fun _ hn => absurd hn (by decide), fun _ hn => absurd hn (by decide)⟩

/-- Where an item was added there was place for it. -/
theorem lt (h : Rounds size a b P P' most start n v pos) (hv : v.isFailed = false) : ∀ k ∈ most, n < k := fun k hk => by
  rcases Nat.lt_or_eq_of_le (h.bound k hk) with hlt | heq
  · exact hlt
  · have := h.full k hk heq
    rw [hv] at this
    cases this

/-- After an item, another one is tried; or there is no place for it. -/
theorem next (h : Rounds size a b P P' most start n v pos) (hv : v.isFailed = false)
    (hw : Moves size b P' pos w stop) (hfull : ∀ k ∈ most, n + 1 = k → w.isFailed = true) :
    Rounds size a b P P' most start (n + 1) w stop := by
  have passed : P → start < size ∧ start < pos := fun p => h.first p (.inr hv)
  have onward := hw.forward.le
  refine ⟨h.forward.trans hw.forward, h.lt hv, hfull, fun e => ?_, fun e => ?_, fun p _ => ?_, fun p hn => ?_⟩
  · have := (h.noFirst e).2
    rw [hv] at this
    cases this
  · rcases h.noFurther e with rfl | ⟨-, hf⟩
    · exact .inr ⟨rfl, hw.never e⟩
    · rw [hv] at hf
      cases hf
  · have := passed p
    omega
  · have before := h.forward.le
    by_cases hn' : 0 < n
    · have := h.further p (.inr ⟨hn', hv⟩)
      omega
    · have := hw.consumes p (by
        rcases hn with hn | hn
        · omega
        · exact hn.2)
      omega

end Rounds

section Counted

variable {φ : Type} {A B : Act φ} {a b : MatchResult} {P P' : Prop} {most : Option Nat}

/-- How a repetition ends: back at its start if it lacks items, and else where its rounds ended. -/
theorem advances_rounds (hI : Steady s I) (hA : Advances I size a P A) (hB : Advances I size b P' B) (checked : Bool)
    (least : Nat) {st : ParseState} (hst : I st) :
    Ends (.counted checked least most A B) st fun w st' => I st' ∧ ∃ n u pos,
      Rounds size a b P P' most st.pos n u pos ∧ u.isFailed = true ∧
        if checked && decide (n < least) then w.isFailed = true ∧ st'.pos = st.pos
        else w.isFailed = false ∧ st'.pos = pos := by
  unfold Act.counted
  rw [ends_read, ends_bind]
  have start : Ends (.unlessFull most 0 A) st fun v st₁ => I st₁ ∧ Rounds size a b P P' most st.pos 0 v st₁.pos := by
    refine ends_unlessFull (fun _ _ _ => ⟨hst, .none most _⟩) fun hopen => ?_
    exact (hA st hst).mono fun v st₁ ⟨hi, hv⟩ => ⟨hi, .begin hv hopen⟩
  refine start.mono fun v st₁ hv => ends_bind.2 ?_
  have rounds : Ends (.Collects (fun n => Act.unlessFull most n B) [] v) st₁ fun w st₂ => ∃ ws u, w = .array ws ∧
      u.isFailed = true ∧ I st₂ ∧ Rounds size a b P P' most st.pos ws.length u st₂.pos := by
    refine ends_collects (J := fun n v st₁ => I st₁ ∧ Rounds size a b P P' most st.pos n v st₁.pos)
      (fun n v st₂ ⟨hi, hr⟩ hok => ?_) hv
    refine ends_unlessFull (fun k hk hle => ⟨hi, ?_⟩) fun hopen => ?_
    · exact hr.next hok (.failed (.refl _ _) rfl) fun _ _ _ => rfl
    · refine (hB st₂ hi).mono fun w st₃ ⟨hi₃, hw⟩ => ⟨hi₃, hr.next hok hw fun k hk e => ?_⟩
      exact absurd (hopen k hk) (by omega)
  refine rounds.mono fun w st₂ ⟨ws, u, hw, hu, hi, hr⟩ => ?_
  subst hw
  show Ends (if (checked && decide (ws.length < least)) = true then _ else _) _ _
  refine ends_ite (fun h => ?_) fun h => ?_
  · exact ends_backTo.2 ⟨hI.move hi _, ws.length, u, st₂.pos, hr, hu, by rw [h]; exact ⟨rfl, rfl⟩⟩
  · exact ends_pure.2 ⟨hi, ws.length, u, st₂.pos, hr, hu, by rw [h]; exact ⟨rfl, rfl⟩⟩

end Counted

variable {c : Setting} {R : RuleId → Act HostFunction}

theorem advances_repeated (hI : Steady s I) {body : MatchResult} (delimiter : Option MatchResult)
    {A B : Act HostFunction} {P P' : Prop} (hA : Advances I size body P A)
    (hB : Advances I size (itemResult body delimiter) P' B) {ls : Labels} {min : Option Boundary} {max : Boundary} :
    Advances I size (.repeated min max body delimiter)
      (0 < Consumption.sureCount min max ∧ P ∨ 1 < Consumption.sureCount min max ∧ P')
      (c.withBounds ls min max fun least most => .counted (Code.needsLeast min max) least most A B) := by
  intro st hst
  refine ends_withBounds fun least most hleast hmost => ?_
  refine (advances_rounds hI hA hB (Code.needsLeast min max) least hst).mono fun w st' ⟨hi, n, u, pos, hr, hu, hw⟩ => ?_
  have forward : Onward size st.pos st'.pos := by
    split at hw
    · exact .of_eq hw.2
    · rw [hw.2]; exact hr.forward
  refine ⟨hi, forward, fun e => ?_, fun p hok => ?_⟩
  · -- it never matches: fewer items do than the constant bounds ask for
    unfold MatchResult.repeated at e
    split at e
    · rename_i count m _ hmin
      obtain rfl := hleast count hmin
      obtain rfl := hmost m rfl
      obtain ⟨hpos, hfew⟩ := repeatedBetween_eq_never e
      have few : n < count.getD 0 := by
        rcases hfew with ⟨k, hk, hlt⟩ | hnever | ⟨htwo, hnever⟩
        · exact Nat.lt_of_le_of_lt (hr.bound k hk) hlt
        · rw [(hr.noFirst hnever).1]; exact hpos
        · have : itemResult body delimiter = .never := by
            rw [hnever]
            cases body <;> rfl
          have := hr.noFurther this
          omega
      rw [needsLeast_constant hmin, decide_eq_true hpos, decide_eq_true few] at hw
      exact hw.1
    · cases e
  · -- it is sure to move on: a match has as many items as are sure, and one of them moves on
    have hsure : 0 < Consumption.sureCount min max := by omega
    have hmin := of_sureCount_pos hsure
    have least_eq := hleast _ hmin
    rw [Option.getD_some] at least_eq
    rw [needsLeast_constant hmin, Option.getD_some, decide_eq_true hsure, Bool.true_and] at hw
    split at hw
    · rw [hw.1] at hok
      cases hok
    · rename_i hmany
      have many : least ≤ n := by
        rw [decide_eq_true_eq] at hmany
        omega
      rw [hw.2]
      rcases p with ⟨-, p⟩ | ⟨htwo, p⟩
      · exact hr.first p (.inl (by omega))
      · exact hr.further p (.inl (by omega))

/-! ## Expressions -/

variable {ρ : RuleId → MatchResult} {g : Grammar}

/-- Alternatives move on together with the one before them, which gave a value. -/
theorem advances_others {others : List Expr} {ls : Labels} (hmatched : ∀ e ∈ others, Follows c ρ e)
    (ih : ∀ e ∈ others, Advances I size (judge ρ e) (Consumes g e) (c.meaning R e ls))
    (hne : ∀ e ∈ others, Consumes g e → judge ρ e ≠ .always) {before : MatchResult} {P : Prop} {start : Nat} {v : Value}
    {st : ParseState} (hst : I st) (hv : Moves size before P start v st.pos) (hP : P → before ≠ .always) :
    Ends (c.meaningOthers R others ls before v) st fun w st' => I st' ∧
      Moves size (judgeAny ρ before others) (P ∧ ∀ e ∈ others, Consumes g e) start w st'.pos := by
  induction others generalizing before P v st with
  | nil => exact ends_pure.2 ⟨hst, hv.weaken id And.left⟩
  | cons e es ihs =>
    unfold Setting.meaningOthers
    rcases hv.cases hP with ⟨hh, hm, hc⟩ | ⟨hh, -⟩ <;> rw [hh]
    · refine ends_pure.2 ⟨hst, hv.forward, fun h => absurd (judgeAny_eq_never_iff.1 h).1 hm, fun p _ => hc p.1⟩
    · refine ends_bind.2 ((ih e List.mem_cons_self st hst).mono fun w st₁ ⟨hi, hw⟩ => ?_)
      rw [(hmatched e List.mem_cons_self).self]
      have rest := ihs (fun e' he => hmatched e' (List.mem_cons_of_mem _ he))
        (fun e' he => ih e' (List.mem_cons_of_mem _ he)) (fun e' he => hne e' (List.mem_cons_of_mem _ he)) hi
        (hw.earlier hv.forward) (hne e List.mem_cons_self)
      refine rest.mono fun x st' ⟨hi', hx⟩ => ⟨hi', hx.weaken (fun h => ?_) fun p => ?_⟩
      · exact judgeAny_eq_never_iff.2 (List.forall_mem_cons.1 (judgeAny_eq_never_iff.1 h).2)
      · exact List.forall_mem_cons.1 p.2

/-- A call of host code moves nothing. -/
theorem ends_call_steady {kind : FunctionKind} {code : HostCode} {ls : Labels} {st : ParseState} :
    Ends (c.call kind code ls) st fun _ st' => st' = st := by
  unfold Setting.call
  rw [ends_call]
  exact fun _ _ _ => rfl

theorem ends_action_steady (hI : Steady s I) {start : Nat} {code : HostCode} {ls : Labels} {st : ParseState}
    (hst : I st) : Ends (c.action start code ls) st fun _ st' => I st' ∧ st'.pos = st.pos := by
  unfold Setting.action
  rw [ends_after]
  refine ends_call_steady.mono fun v st' e => ?_
  rw [e]
  exact ⟨hI.save hst _, rfl⟩

theorem advances_predicate (hI : Steady s I) {code : HostCode} {negative : Bool} {ls : Labels} :
    Advances I size .sometimes False (c.predicate code negative ls) := by
  intro st hst
  unfold Setting.predicate
  rw [ends_after, ends_bind]
  refine ends_call_steady.mono fun v st' e => ends_pure.2 ?_
  rw [e]
  exact ⟨hI.save hst _, .idle (.refl _ _) (by decide)⟩

/-- Elements move on: back to where their sequence began, if one of them fails. -/
theorem advances_elements (hI : Steady s I) {action : Option HostCode} {start : Nat} {elements : List Expr}
    (hmatched : ∀ e ∈ elements, Follows c ρ e)
    (ih : ∀ e ∈ elements, ∀ ls, Advances I size (judge ρ e) (Consumes g e) (c.meaning R e ls))
    (hne : ∀ e ∈ elements, Consumes g e → judge ρ e ≠ .always) {ls : Labels} {values picked : List Value}
    {st : ParseState} (hst : I st) (hle : Onward size start st.pos) :
    Ends (c.meaningElements R action start elements ls values picked) st fun v st' => I st' ∧
      Onward size start st'.pos ∧ ((∃ e ∈ elements, judge ρ e = .never) → v.isFailed = true) ∧
      (v.isFailed = false → st.pos ≤ st'.pos ∧
        ((∃ e ∈ elements, Consumes g e) → st.pos < size ∧ st.pos < st'.pos)) := by
  induction elements generalizing ls values picked st with
  | nil =>
    have still (v : Value) {st' : ParseState} (hi : I st') (hpos : st'.pos = st.pos) : I st' ∧
        Onward size start st'.pos ∧ ((∃ e ∈ [], judge ρ e = .never) → v.isFailed = true) ∧ (v.isFailed = false → st.pos ≤ st'.pos ∧
          ((∃ e ∈ [], Consumes g e) → st.pos < size ∧ st.pos < st'.pos)) :=
      ⟨hi, hpos ▸ hle, by simp, fun _ => ⟨by omega, by simp⟩⟩
    unfold Setting.meaningElements Setting.finish
    split
    · cases action with
      | none => exact ends_pure.2 (still _ hst rfl)
      | some code => exact (ends_action_steady hI hst).mono fun v st' ⟨hi, hpos⟩ => still v hi hpos
    · exact ends_pure.2 (still _ hst rfl)
  | cons e es ihs =>
    unfold Setting.meaningElements
    refine ends_bind.2 ((ih e List.mem_cons_self ls st hst).mono fun v st₁ ⟨hi, hv⟩ => ?_)
    rw [(hmatched e List.mem_cons_self).self]
    have forward := hv.forward
    -- after an element that is sure to fail nothing is reached
    rcases hv.cases (hne e List.mem_cons_self) with ⟨hh, hm, hc⟩ | ⟨hh, -⟩ <;> rw [hh]
    · have rest : Ends (c.meaningElements R action start es (ls.after e v) (values ++ [v]) (pickedAfter picked e v))
          st₁ _ := ihs (fun e' he => hmatched e' (List.mem_cons_of_mem _ he))
        (fun e' he => ih e' (List.mem_cons_of_mem _ he)) (fun e' he => hne e' (List.mem_cons_of_mem _ he))
        hi (hle.trans forward)
      refine rest.mono fun w st' ⟨hi', hle', hnever, hok⟩ => ⟨hi', hle', ?_, fun hw => ⟨?_, ?_⟩⟩
      · rintro ⟨e', he', h⟩
        rcases List.mem_cons.1 he' with rfl | he'
        · exact absurd h hm
        · exact hnever ⟨e', he', h⟩
      · exact forward.le.trans (hok hw).1
      · obtain ⟨onward, passed⟩ := hok hw
        have before := forward.le
        rintro ⟨e', he', h⟩
        rcases List.mem_cons.1 he' with rfl | he'
        · have := hc h; omega
        · have := passed ⟨e', he', h⟩; omega
    · exact ends_backTo.2 ⟨hI.move hi _, .refl _ _, fun _ => rfl, nofun⟩

theorem advances_sequence (hI : Steady s I) {action : Option HostCode} {elements : List Expr}
    (hmatched : ∀ e ∈ elements, Follows c ρ e)
    (ih : ∀ e ∈ elements, ∀ ls, Advances I size (judge ρ e) (Consumes g e) (c.meaning R e ls))
    (hne : ∀ e ∈ elements, Consumes g e → judge ρ e ≠ .always) {ls : Labels} :
    Advances I size (judgeAll ρ .always elements) (∃ e ∈ elements, Consumes g e)
      (.read fun st => c.meaningElements R action st.pos elements ls [] []) := by
  intro st hst
  rw [ends_read]
  refine (advances_elements hI hmatched ih hne hst (.refl _ _)).mono fun v st' ⟨hi, hle, hnever, hok⟩ => ?_
  refine ⟨hi, hle, fun h => hnever ?_, fun p hv => (hok hv).2 p⟩
  exact (judgeAll_eq_never h).resolve_left (by decide)

/-! ## Terminals -/

open Semantics in
theorem terminal_none {e : Expr} {t : List Char → Option (List Char)} (ht : terminal? e = some t)
    (h : judge ρ e = .never) (rest : List Char) : t rest = none := by
  cases e with
  | literal i value ignoreCase => unfold judge at h; split at h <;> cases h
  | charClass i k =>
    unfold judge at h
    split at h
    · rename_i hk
      cases ht
      cases rest with
      | nil => rfl
      | cons ch rest => simp [k.has_empty hk ch]
    · cases h
  | any i => cases h
  | _ => cases ht

open Semantics in
theorem terminal_some {e : Expr} {t : List Char → Option (List Char)} (ht : terminal? e = some t) (he : Consumes g e)
    {rest text : List Char} (h : t rest = some text) : text ≠ [] ∧ rest ≠ [] := by
  cases he with
  | @literal i value ignoreCase hv =>
    cases ignoreCase <;> cases ht
    · have hlist : value.toList ≠ [] := fun e => hv (String.toList_eq_nil_iff.1 e)
      dsimp only at h
      split at h
      · rename_i hprefix
        cases h
        refine ⟨hlist, fun e => ?_⟩
        rw [e] at hprefix
        exact hlist (List.prefix_nil.1 (List.isPrefixOf_iff_prefix.1 hprefix))
      · cases h
    · exact ParseState.icStart?_ne_nil (Case.lower_toList_ne_nil hv) h
  | charClass =>
    cases ht
    cases rest with
    | nil => cases h
    | cons ch rest =>
      dsimp only at h
      obtain ⟨_, -, rfl⟩ := Option.map_eq_some_iff.1 h
      exact ⟨by simp, by simp⟩
  | any =>
    cases ht
    cases rest with
    | nil => cases h
    | cons ch rest => cases h; exact ⟨by simp, by simp⟩
  | _ => cases ht

open Semantics in
/-- A terminal moves past what it takes. -/
theorem advances_terminal (hI : Steady s I) {e : Expr} {t : List Char → Option (List Char)} (ht : terminal? e = some t)
    (he : Follows c ρ e) (ls : Labels) :
    Advances I (Input.ofString s).size (judge ρ e) (Consumes g e) (c.meaning R e ls) := by
  intro st hst cs v st' hx
  have same : c.meaning R e ls = c.unpruned.meaning R e ls := by
    cases e with
    | literal => exact literal_unpruned he
    | charClass => exact charClass_unpruned he
    | any => exact any_unpruned he
    | _ => cases ht
  rw [same] at hx
  have input := hI.input st hst
  have takes : Takes t (Semantics.expectation? e) (c.unpruned.meaning R e ls) st := takes_terminal input ht
  unfold Takes at takes
  split at takes
  · rename_i text htext
    obtain ⟨-, rfl, rfl⟩ := (takes _ _ _).1 hx
    have inside (h : st.rest ≠ []) : st.pos < (Input.ofString s).size := by
      unfold ParseState.rest at h
      rw [input] at h
      exact (Input.rest_ne_nil_iff s st.pos).1 h
    refine ⟨hI.move hst _, ⟨Nat.le_add_right .., fun hlt => inside fun hnil => ?_⟩, fun h => ?_, fun p _ => ?_⟩
    · have taken := terminal_prefix ht htext
      rw [hnil, List.prefix_nil] at taken
      rw [taken] at hlt
      exact absurd hlt (Nat.lt_irrefl _)
    · rw [terminal_none ht h] at htext
      cases htext
    · obtain ⟨hne, hrest⟩ := terminal_some ht p htext
      have := inside hrest
      have := Input.byteLength_pos hne
      dsimp only
      omega
  · obtain ⟨x, -, takes⟩ := takes
    obtain ⟨-, rfl, rfl⟩ := (takes _ _ _).1 hx
    obtain ⟨hi, hpos⟩ := hI.fail hst x
    exact ⟨hi, .failed (.of_eq hpos) rfl⟩

/-! ## Expressions and rules -/

/-- An expression moves on, if rules do. -/
theorem advances_expr (hI : Steady s I)
    (hR : ∀ t, Advances I (Input.ofString s).size (ρ t) (ConsumesRule g t) (R t))
    (hne : ∀ e, Consumes g e → judge ρ e ≠ .always) (e : Expr) (he : Follows c ρ e) (ls : Labels) :
    Advances I (Input.ofString s).size (judge ρ e) (Consumes g e) (c.meaning R e ls) := by
  -- what an expression is sure to consume is sure by a derivation for the expression, which ends in that for a part
  induction e using Expr.induction generalizing ls with
  | choice i first others ihFirst ihOthers =>
    have inFirst : Follows c ρ first := he.child List.mem_cons_self
    have inOthers : ∀ e ∈ others, Follows c ρ e := fun e h => he.child (List.mem_cons_of_mem _ h)
    intro st hst
    unfold Setting.meaning
    refine ends_bind.2 ((ihFirst inFirst ls st hst).mono fun v st₁ ⟨hi, hv⟩ => ?_)
    rw [inFirst.self]
    refine (advances_others inOthers (fun e h => ihOthers e h (inOthers e h) ls) (fun e _ => hne e) hi hv
      (hne first)).mono fun w st' ⟨hi', hw⟩ => ⟨hi', hw.weaken id fun p => ?_⟩
    cases p with
    | choice h hs => exact ⟨h, hs⟩
  | sequence i elements ih =>
    unfold Setting.meaning
    refine (advances_sequence hI (fun e h => he.child h) (fun e h => ih e h (he.child h)) fun e _ => hne e).weaken id
      fun p => ?_
    cases p with
    | sequence hm h => exact ⟨_, hm, h⟩
  | labeled i label pick body ih =>
    unfold Setting.meaning
    exact (ih (he.child List.mem_cons_self) ls).weaken id fun (.labeled h) => h
  | group i body ih =>
    unfold Setting.meaning
    exact (ih (he.child List.mem_cons_self) ls).weaken id fun (.group h) => h
  | action i body code ih ihElements =>
    have inBody : Follows c ρ body := he.child List.mem_cons_self
    refine Expr.action_cases body (fun j elements hb => ?_) fun hb => ?_
    · subst hb
      unfold Setting.meaning
      exact (advances_sequence hI (fun e h => inBody.child h) (fun e h => ihElements e h (inBody.child h))
        fun e _ => hne e).weaken id fun (.action (.sequence hm h)) => ⟨_, hm, h⟩
    · intro st hst
      rw [Setting.meaning]
      · rw [ends_read, ends_bind, inBody.self]
        refine (ih inBody ls st hst).mono fun v st₁ ⟨hi, hv⟩ => ?_
        rcases hv.cases (hne body) with ⟨hh, hm, hc⟩ | ⟨hh, hf⟩ <;> rw [hh]
        · refine (ends_action_steady hI hi).mono fun w st' ⟨hi', hpos⟩ => ⟨hi', ?_⟩
          refine ⟨hpos ▸ hv.forward, fun e => absurd e hm, fun (.action p) _ => ?_⟩
          have := hc p
          omega
        · exact ends_pure.2 ⟨hi, .failed hv.forward hf⟩
      · exact hb
  | text i body ih =>
    unfold Setting.meaning
    have inBody : Follows c ρ body := he.child List.mem_cons_self
    rw [inBody.self]
    exact ((ih inBody ls).text (hne body)).weaken id fun (.text h) => h
  | simpleAnd i body ih =>
    unfold Setting.meaning
    have inBody : Follows c ρ body := he.child List.mem_cons_self
    rw [inBody.self]
    exact ((ih inBody ls).lookahead hI (hne body)).weaken id nofun
  | simpleNot i body ih =>
    unfold Setting.meaning
    have inBody : Follows c ρ body := he.child List.mem_cons_self
    rw [inBody.self]
    exact ((ih inBody ls).lookaheadNot hI (hne body)).weaken id nofun
  | semanticAnd i code | semanticNot i code =>
    unfold Setting.meaning
    exact (advances_predicate hI).weaken id nofun
  | optional i body ih =>
    unfold Setting.meaning
    have inBody : Follows c ρ body := he.child List.mem_cons_self
    rw [inBody.self]
    exact (ih inBody ls).optional.weaken id nofun
  | zeroOrMore i body ih =>
    unfold Setting.meaning
    exact (ih (he.child List.mem_cons_self) ls).zeroOrMore.weaken id nofun
  | oneOrMore i body ih =>
    unfold Setting.meaning
    have inBody : Follows c ρ body := he.child List.mem_cons_self
    rw [inBody.self]
    exact ((ih inBody ls).oneOrMore (hne body)).weaken id fun (.oneOrMore h) => h
  | repeated i body min max delimiter ih ihDelimiter =>
    have inBody : Follows c ρ body := he.child List.mem_cons_self
    cases delimiter with
    | none =>
      unfold Setting.meaning
      exact (advances_repeated hI none (ih inBody ls) (ih inBody ls)).weaken id fun (.repeated hn h) => .inl ⟨hn, h⟩
    | some d =>
      have inDelimiter : Follows c ρ d := he.child (List.mem_cons_of_mem _ List.mem_cons_self)
      unfold Setting.meaning
      rw [inBody.self, inDelimiter.self]
      have further := (ihDelimiter d rfl inDelimiter ls).delimited hI (ih inBody ls) (hne d) (hne body)
      refine (advances_repeated hI (some (judge ρ d)) (ih inBody ls) further).weaken id fun p => ?_
      cases p with
      | repeated hn h => exact .inl ⟨hn, h⟩
      | delimited hn h => exact .inr ⟨hn, .inl h⟩
  | ruleRef i name target =>
    cases target with
    | none => unfold Setting.meaning; exact fun st _ => ends_stuck.2 trivial
    | some t => unfold Setting.meaning; exact (hR t).weaken id fun (.ruleRef hr h) => ⟨_, hr, h⟩
  | literal i value ignoreCase => cases ignoreCase <;> exact advances_terminal hI rfl he ls
  | charClass i k => exact advances_terminal hI rfl he ls
  | any i => exact advances_terminal hI rfl he ls
  | named i name body ih =>
    unfold Setting.meaning
    have inBody : Follows c ρ body := he.child List.mem_cons_self
    rw [inBody.self]
    exact ((ih inBody ls).named hI (hne body) name).weaken id fun (.named h) => h

end Machine

namespace Compilation

open Machine Analysis

variable {c : Compilation} {bs : Bindings} {s : String} {st st' : ParseState}

/-- A state of a parse of a text where whatever is remembered of a rule is something that the rule can do. -/
structure Sane (c : Compilation) (s : String) (st : ParseState) : Prop where
  input : st.input = .ofString s
  cache : c.options.cache = true → ∀ (key : CacheKey) (entry : CacheEntry), st.cache[key]? = some entry →
    Moves (Input.ofString s).size (c.found.guess key.rule) (ConsumesRule c.grammar key.rule) key.pos entry.result
      entry.next

theorem steady_sane (c : Compilation) (s : String) : Steady s (c.Sane s) where
  input := fun _ h => h.input
  keeps := fun _ _ hi hc h => ⟨hi.trans h.input, fun hcache key entry he => h.cache hcache key entry (hc ▸ he)⟩

theorem sane_of_empty (hi : st.input = .ofString s) (hc : st.cache = {}) : c.Sane s st := by
  refine ⟨hi, fun _ key entry he => ?_⟩
  rw [hc, Std.HashMap.getElem?_empty] at he
  cases he

theorem reported_sane {p : Program Inline} {f : ParseState → ParseState} (hf : Reports f) (h : c.Sane s st) :
    c.Sane s (reported p f st) ∧ (reported p f st).pos = st.pos := by
  obtain ⟨trace, htrace⟩ := hf.reported p st
  rw [htrace]
  exact ⟨(steady_sane c s).keeps st _ rfl rfl h, rfl⟩

theorem sane_remember (h : c.Sane s st) {r start : Nat} {v : Value}
    (hv : Moves (Input.ofString s).size (c.found.guess r) (ConsumesRule c.grammar r) start v st.pos) :
    c.Sane s (st.remember r start v) := by
  refine ⟨h.input, fun hcache key entry he => ?_⟩
  unfold ParseState.remember at he
  simp only [Std.HashMap.getElem?_insert] at he
  split at he
  · rename_i hkey
    cases he
    rw [← beq_iff_eq.1 hkey]
    exact hv
  · exact h.cache hcache key entry he

end Compilation

end PegCompiler
