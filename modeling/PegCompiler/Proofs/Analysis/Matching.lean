/-
What judging an expression adds to the table of match results. In this table every expression of a rule that
was reached has the result that its parts give it (`judge`), except that a reference may have the vaguer
estimate that its rule had when it was looked at. Only a rule that leads to the one that refers to it can be an
estimate then: rules are reached from within those that are still being judged.
-/
import Mathlib.Data.Finset.Card
import PegCompiler.Analysis.Matching
import PegCompiler.Proofs.Grammar.Numbering
import PegCompiler.Proofs.Stateful

namespace PegCompiler

namespace MatchResult

/-- A result that says the same or leaves open what the other one says. -/
def Vaguer (a b : MatchResult) : Prop := a = sometimes ∨ a = b

namespace Vaguer

variable {a b c d : MatchResult}

theorem refl (a : MatchResult) : Vaguer a a := .inr rfl

theorem trans (h : Vaguer a b) (h' : Vaguer b c) : Vaguer a c := by
  rcases h with rfl | rfl
  · exact .inl rfl
  · exact h'

theorem eq_of_definite (h : Vaguer a b) (ha : a ≠ sometimes) : a = b := h.resolve_left ha

theorem negate (h : Vaguer a b) : Vaguer a.negate b.negate := by
  rcases h with rfl | rfl
  · exact .inl rfl
  · exact .inr rfl

theorem or (h : Vaguer a c) (h' : Vaguer b d) : Vaguer (a.or b) (c.or d) := by
  rcases h with rfl | rfl <;> rcases h' with rfl | rfl
  · exact .inl rfl
  · cases b <;> cases c <;> simp [Vaguer, MatchResult.or]
  · cases a <;> cases d <;> simp [Vaguer, MatchResult.or]
  · exact .refl _

theorem and (h : Vaguer a c) (h' : Vaguer b d) : Vaguer (a.and b) (c.and d) := by
  rcases h with rfl | rfl <;> rcases h' with rfl | rfl
  · exact .inl rfl
  · cases b <;> cases c <;> simp [Vaguer, MatchResult.and]
  · cases a <;> cases d <;> simp [Vaguer, MatchResult.and]
  · exact .refl _

/-- Both delimiters are missing, or the second one is known at least as well. -/
def Parts : Option MatchResult → Option MatchResult → Prop
  | none, none => True
  | some c, some d => Vaguer c d
  | _, _ => False

theorem repeatedBetween (least : Nat) (most : Option Nat) (h : Vaguer a b) {x y : Option MatchResult}
    (hd : Parts x y) : Vaguer (.repeatedBetween least most a x) (.repeatedBetween least most b y) := by
  unfold MatchResult.repeatedBetween
  split
  · exact .refl _
  · split
    · exact .refl _
    · cases x with
      | none =>
        cases y with
        | some d => exact hd.elim
        | none =>
          rcases h with rfl | rfl
          · simp [Vaguer]
          · exact .refl _
      | some c =>
        cases y with
        | none => exact hd.elim
        | some d =>
          have hd : Vaguer c d := hd
          by_cases hl : 2 ≤ least
          · simp only [hl, if_true]
            rcases h with rfl | rfl <;> rcases hd with rfl | rfl
            · exact .inl rfl
            · cases b <;> cases c <;> simp [Vaguer]
            · cases a <;> cases d <;> simp [Vaguer]
            · exact .refl _
          · simp only [hl, if_false]
            rcases h with rfl | rfl
            · exact .inl rfl
            · exact .refl _

theorem repeated (min : Option Boundary) (max : Boundary) (h : Vaguer a b) {x y : Option MatchResult}
    (hd : Parts x y) : Vaguer (.repeated min max a x) (.repeated min max b y) := by
  unfold MatchResult.repeated
  split
  · exact repeatedBetween _ _ h hd
  · exact .refl _

end Vaguer

end MatchResult

/-- What is assumed of a rule: its result or the estimate of it, and nothing definite before it is reached. -/
def Matches.guess (m : Matches) (r : RuleId) : MatchResult := (m.ofRule? r).getD .sometimes

namespace Analysis.Matching

open MatchResult

/-! ## Results from the results of rules -/

mutual

/-- The result of an expression, from the results of rules. -/
def judge (ρ : RuleId → MatchResult) : Expr → MatchResult
  | .choice _ first others => judgeAny ρ (judge ρ first) others
  | .sequence _ elements => judgeAll ρ .always elements
  | .labeled _ _ _ body | .action _ body _ | .named _ _ body | .text _ body | .oneOrMore _ body | .group _ body
  | .simpleAnd _ body => judge ρ body
  | .simpleNot _ body => (judge ρ body).negate
  | .optional .. | .zeroOrMore .. => .always
  | .repeated _ body min max none => .repeated min max (judge ρ body) none
  | .repeated _ body min max (some delimiter) => .repeated min max (judge ρ body) (some (judge ρ delimiter))
  | .ruleRef _ _ (some target) => ρ target
  | .ruleRef _ _ none | .any .. | .semanticAnd .. | .semanticNot .. => .sometimes
  | .literal _ value _ => if value = "" then .always else .sometimes
  | .charClass _ k => if k.parts.isEmpty && !k.inverted then .never else .sometimes

/-- The result of `sofar` or one of the alternatives. -/
def judgeAny (ρ : RuleId → MatchResult) (sofar : MatchResult) : List Expr → MatchResult
  | [] => sofar
  | e :: es => judgeAny ρ (sofar.or (judge ρ e)) es

/-- The result of `sofar` and all of the elements. -/
def judgeAll (ρ : RuleId → MatchResult) (sofar : MatchResult) : List Expr → MatchResult
  | [] => sofar
  | e :: es => judgeAll ρ (sofar.and (judge ρ e)) es

end

section Judge

variable {ρ ρ' : RuleId → MatchResult}

theorem judgeAny_mono {x y : MatchResult} (hxy : Vaguer x y) {es : List Expr}
    (h : ∀ e ∈ es, Vaguer (judge ρ e) (judge ρ' e)) : Vaguer (judgeAny ρ x es) (judgeAny ρ' y es) := by
  induction es generalizing x y with
  | nil => exact hxy
  | cons e es ih =>
    exact ih (hxy.or (h e List.mem_cons_self)) fun e' he => h e' (List.mem_cons_of_mem _ he)

theorem judgeAll_mono {x y : MatchResult} (hxy : Vaguer x y) {es : List Expr}
    (h : ∀ e ∈ es, Vaguer (judge ρ e) (judge ρ' e)) : Vaguer (judgeAll ρ x es) (judgeAll ρ' y es) := by
  induction es generalizing x y with
  | nil => exact hxy
  | cons e es ih =>
    exact ih (hxy.and (h e List.mem_cons_self)) fun e' he => h e' (List.mem_cons_of_mem _ he)

/-- What is known better of the rules an expression refers to gives a result that is known better. -/
theorem judge_mono (e : Expr)
    (h : ∀ e' ∈ e.preorder, ∀ t, e'.target? = some t → Vaguer (ρ t) (ρ' t)) : Vaguer (judge ρ e) (judge ρ' e) := by
  induction e using Expr.induction_children with
  | h e ih =>
    have of (c : Expr) (hc : c ∈ e.children) : Vaguer (judge ρ c) (judge ρ' c) :=
      ih c hc fun e' he => h e' (Expr.mem_preorder_of_child hc he)
    cases e with
    | choice i first others =>
      exact judgeAny_mono (of first List.mem_cons_self) fun e he => of e (List.mem_cons_of_mem _ he)
    | sequence i elements => exact judgeAll_mono (.refl _) of
    | labeled _ _ _ body | action _ body _ | named _ _ body | text _ body | oneOrMore _ body | group _ body
    | simpleAnd _ body => exact of body List.mem_cons_self
    | simpleNot _ body => exact (of body List.mem_cons_self).negate
    | repeated i body min max delimiter =>
      cases delimiter with
      | none => exact .repeated min max (of body List.mem_cons_self) trivial
      | some d =>
        exact .repeated min max (of body List.mem_cons_self) (of d (List.mem_cons_of_mem _ List.mem_cons_self))
    | ruleRef i name target =>
      cases target with
      | none => exact .refl _
      | some t => exact h _ (Expr.mem_preorder_self _) t rfl
    | optional | zeroOrMore | semanticAnd | semanticNot | literal | charClass | any => exact .refl _

theorem vaguer_antisymm {a b : MatchResult} (h : Vaguer a b) (h' : Vaguer b a) : a = b := by
  rcases h with rfl | rfl
  · rcases h' with rfl | rfl <;> rfl
  · rfl

/-- The result of an expression depends on the rules it refers to only. -/
theorem judge_congr (e : Expr) (h : ∀ e' ∈ e.preorder, ∀ t, e'.target? = some t → ρ t = ρ' t) :
    judge ρ e = judge ρ' e :=
  vaguer_antisymm (judge_mono e fun e' he t ht => .inr (h e' he t ht))
    (judge_mono e fun e' he t ht => .inr (h e' he t ht).symm)

/-- A reference has the result of the rule that it stands for. -/
theorem judge_of_target {e : Expr} {t : RuleId} (h : e.target? = some t) : judge ρ e = ρ t := by
  cases e with
  | ruleRef i name target => cases h; rfl
  | _ => cases h

end Judge

/-! ## States of the search -/

/-- The table has the result that `judge` gives for the expression and all it contains, and the rules it refers to
were reached. -/
def Judged (m : Matches) (e : Expr) : Prop :=
  (∀ e' ∈ e.preorder, m.ofExpr e' = judge m.guess e') ∧
    ∀ e' ∈ e.preorder, ∀ t, e'.target? = some t → (m.ofRule? t).isSome

/-- The table has results for a rule, judged from results of rules that were as vague as those of now or vaguer. -/
def Settled (m : Matches) (r : RuleId) (body : Expr) : Prop :=
  ∃ ρ, (∀ t, Vaguer (ρ t) (m.guess t)) ∧ (∀ e ∈ body.preorder, m.ofExpr e = judge ρ e) ∧ m.guess r = judge ρ body

/-- References of a rule have the results of the rules that they stand for, except where such a rule leads back to
this one and was an estimate when it was looked at. -/
def Current (g : Grammar) (m : Matches) (r : RuleId) (body : Expr) : Prop :=
  ∀ e ∈ body.preorder, ∀ t, e.target? = some t →
    (m.ofRule? t).isSome ∧ (m.ofExpr e = m.guess t ∨ t ≠ r ∧ g.LeadsTo t r)

/-- The rule has been judged. -/
structure Done (g : Grammar) (m : Matches) (r : RuleId) (body : Expr) : Prop where
  settled : Settled m r body
  current : Current g m r body

/-- All rules that were reached in between are led to from one. -/
def ReachedFrom (g : Grammar) (a : RuleId) (m m' : Matches) : Prop :=
  ∀ r, m.ofRule? r = none → (m'.ofRule? r).isSome → g.LeadsTo a r

/-- What the search adds to a table while it judges expressions: it may judge rules that were not reached before,
and leaves results of other rules and expressions as they were. -/
structure Grows (g : Grammar) (es : List Expr) (m m' : Matches) : Prop where
  exprs : m'.exprs.size = m.exprs.size
  rules : m'.rules.size = m.rules.size
  kept : ∀ r v, m.ofRule? r = some v → m'.ofRule? r = some v
  frame : ∀ i, i ∉ Expr.ids es → (∀ r e, m.ofRule? r = none → g.Inside r e → e.id ≠ i) →
    m'.exprs.getD i .sometimes = m.exprs.getD i .sometimes
  done : ∀ r rule, g.rule? r = some rule → m.ofRule? r = none → (m'.ofRule? r).isSome → Done g m' r rule.body

section Search

variable {g : Grammar} {size : Nat} {a : RuleId} {es es' : List Expr} {m m' m₁ m₂ : Matches}

namespace ReachedFrom

theorem of_eq (h : m'.rules = m.rules) : ReachedFrom g a m m' := fun r hn hs => by
  unfold Matches.ofRule? at hn hs
  rw [h, hn] at hs
  cases hs

theorem trans (h₁ : ReachedFrom g a m m₁) (h₂ : ReachedFrom g a m₁ m₂) : ReachedFrom g a m m₂ := fun r hn hs => by
  cases hm : m₁.ofRule? r with
  | none => exact h₂ r hm hs
  | some v => exact h₁ r hn (by rw [hm]; rfl)

/-- What a rule leads to is led to from where it is referred to. -/
theorem head {t : RuleId} (h : ReachedFrom g t m m') (ht : g.Refers a t) : ReachedFrom g a m m' := fun r hn hs =>
  .head ht (h r hn hs)

end ReachedFrom

namespace Grows

theorem refl (g : Grammar) (es : List Expr) (m : Matches) : Grows g es m m :=
  ⟨rfl, rfl, fun _ _ h => h, fun _ _ _ => rfl, fun r _ _ hn hs => by rw [hn] at hs; cases hs⟩

theorem reached (h : Grows g es m m') {r : RuleId} (hr : (m.ofRule? r).isSome) : (m'.ofRule? r).isSome := by
  obtain ⟨v, hv⟩ := Option.isSome_iff_exists.1 hr
  rw [h.kept r v hv]; rfl

theorem guess_eq (h : Grows g es m m') {r : RuleId} (hr : (m.ofRule? r).isSome) : m'.guess r = m.guess r := by
  obtain ⟨v, hv⟩ := Option.isSome_iff_exists.1 hr
  unfold Matches.guess
  rw [h.kept r v hv, hv]

theorem vaguer (h : Grows g es m m') (r : RuleId) : Vaguer (m.guess r) (m'.guess r) := by
  cases hr : m.ofRule? r with
  | none => left; unfold Matches.guess; rw [hr]; rfl
  | some v => right; exact (h.guess_eq (by rw [hr]; rfl)).symm

/-- Expressions of a rule that was reached keep their results, if they are not judged again. -/
theorem ofExpr_eq (h : Grows g es m m') (hg : g.Numbered size) {r : RuleId} {e : Expr} (he : g.Inside r e)
    (hr : (m.ofRule? r).isSome) (hes : e.id ∉ Expr.ids es) : m'.ofExpr e = m.ofExpr e := by
  refine h.frame _ hes fun r' e' hr' he' => hg.ne he' he ?_
  rintro rfl
  rw [hr'] at hr; cases hr

end Grows

/-- Results that were judged stay right while other expressions are judged. -/
theorem Judged.later {e : Expr} (hj : Judged m e) (h : Grows g es m m') (hg : g.Numbered size) (he : g.Inside a e)
    (ha : (m.ofRule? a).isSome) (hes : ∀ e' ∈ e.preorder, e'.id ∉ Expr.ids es) : Judged m' e := by
  refine ⟨fun e' he' => ?_, fun e' he' t ht => h.reached (hj.2 e' he' t ht)⟩
  rw [h.ofExpr_eq hg (he.trans he') ha (hes e' he'), hj.1 e' he']
  refine judge_congr e' fun e'' he'' t ht => (h.guess_eq ?_).symm
  exact hj.2 e'' (Expr.mem_preorder_trans he' he'') t ht

/-- A rule stays judged while other expressions are judged. -/
theorem Done.later {r : RuleId} {rule : Rule} (hd : Done g m r rule.body) (hr : g.rule? r = some rule)
    (hreached : (m.ofRule? r).isSome) (h : Grows g es m m') (hg : g.Numbered size)
    (hes : ∀ e ∈ rule.body.preorder, e.id ∉ Expr.ids es) : Done g m' r rule.body := by
  have same : ∀ e ∈ rule.body.preorder, m'.ofExpr e = m.ofExpr e := fun e he =>
    h.ofExpr_eq hg ⟨rule, hr, he⟩ hreached (hes e he)
  obtain ⟨ρ, hρ, hjudged, hrule⟩ := hd.settled
  refine ⟨⟨ρ, fun t => (hρ t).trans (h.vaguer t), fun e he => ?_, ?_⟩, fun e he t ht => ?_⟩
  · rw [same e he, hjudged e he]
  · rw [h.guess_eq hreached, hrule]
  · obtain ⟨reached, current⟩ := hd.current e he t ht
    rw [same e he, h.guess_eq reached]
    exact ⟨h.reached reached, current⟩

theorem Grows.trans (h₁ : Grows g es m m₁) (h₂ : Grows g es' m₁ m₂) (hg : g.Numbered size)
    (hes' : ∀ e ∈ es', ∃ a, g.Inside a e ∧ (m.ofRule? a).isSome) : Grows g (es ++ es') m m₂ where
  exprs := h₂.exprs.trans h₁.exprs
  rules := h₂.rules.trans h₁.rules
  kept r v hr := h₂.kept r v (h₁.kept r v hr)
  frame i hi hun := by
    rw [Expr.ids_append, List.mem_append, not_or] at hi
    rw [h₂.frame i hi.2 fun r e hr => hun r e ?_, h₁.frame i hi.1 hun]
    cases hm : m.ofRule? r with
    | none => rfl
    | some v => rw [h₁.kept r v hm] at hr; cases hr
  done r rule hrule hn hs := by
    cases hm : m₁.ofRule? r with
    | none => exact h₂.done r rule hrule hm hs
    | some v =>
      have hreached : (m₁.ofRule? r).isSome := by rw [hm]; rfl
      refine (h₁.done r rule hrule hn hreached).later hrule hreached h₂ hg fun e he hi => ?_
      obtain ⟨e₀, he₀, e', he', hid⟩ := Expr.mem_ids.1 hi
      obtain ⟨a, hin, ha⟩ := hes' e₀ he₀
      refine hg.ne (hin.trans he') ⟨rule, hrule, he⟩ ?_ hid
      rintro rfl
      rw [hn] at ha; cases ha

theorem Grows.weaken (h : Grows g es m m') (hsub : ∀ i ∈ Expr.ids es, i ∈ Expr.ids es') : Grows g es' m m' :=
  ⟨h.exprs, h.rules, h.kept, fun i hi => h.frame i fun hi' => hi (hsub i hi'), h.done⟩

/-! ## Judging expressions -/

/-- The rules that have no estimate yet. -/
def unreached (g : Grammar) (m : Matches) : Finset RuleId :=
  (Finset.range g.rules.length).filter fun r => m.ofRule? r = none

/-- The table has a place for every expression and every rule, and there is fuel for the rules without estimate. -/
structure Ready (g : Grammar) (size fuel : Nat) (m : Matches) : Prop where
  exprs : m.exprs.size = size
  rules : m.rules.size = g.rules.length
  fuel : (unreached g m).card < fuel

theorem Ready.later {fuel : Nat} (h : Ready g size fuel m) (hm : Grows g es m m') : Ready g size fuel m' := by
  refine ⟨hm.exprs.trans h.exprs, hm.rules.trans h.rules, Nat.lt_of_le_of_lt (Finset.card_le_card ?_) h.fuel⟩
  intro r hr
  unfold unreached at hr ⊢
  rw [Finset.mem_filter] at hr ⊢
  refine ⟨hr.1, ?_⟩
  cases ho : m.ofRule? r with
  | none => rfl
  | some v => rw [hm.kept r v ho] at hr; cases hr.2

/-- A part of the search inside a rule that was reached: it succeeds, has judged some expressions after it, reaches
rules by references only, and its result depends on the results of the rules they refer to only. -/
structure Finds {α : Type} (g : Grammar) (size fuel : Nat) (a : RuleId) (es : List Expr) (x : Finding α)
    (f : (RuleId → MatchResult) → α) : Prop where
  congr : ∀ ρ ρ', (∀ e ∈ es, ∀ e' ∈ e.preorder, ∀ t, e'.target? = some t → ρ t = ρ' t) → f ρ = f ρ'
  run : ∀ m, Ready g size fuel m → (m.ofRule? a).isSome →
    ∃ m', x m = .ok (f m'.guess) m' ∧ Grows g es m m' ∧ ReachedFrom g a m m' ∧ ∀ e ∈ es, Judged m' e

namespace Finds

variable {fuel : Nat} {α β : Type}

theorem pure (v : α) : Finds g size fuel a [] (Pure.pure v) fun _ => v :=
  ⟨fun _ _ _ => rfl, fun m _ _ => ⟨m, rfl, .refl _ _ _, .of_eq rfl, fun _ he => by cases he⟩⟩

theorem bind {x : Finding α} {f : (RuleId → MatchResult) → α} {k : α → Finding β}
    {h : α → (RuleId → MatchResult) → β} (hg : g.Numbered size) (hin : ∀ e ∈ es ++ es', g.Inside a e)
    (hd : (Expr.ids (es ++ es')).Nodup) (hx : Finds g size fuel a es x f)
    (hk : ∀ v, Finds g size fuel a es' (k v) (h v)) :
    Finds g size fuel a (es ++ es') (x >>= k) fun ρ => h (f ρ) ρ := by
  refine ⟨fun ρ ρ' hρ => ?_, fun m hm ha => ?_⟩
  · rw [hx.congr ρ ρ' fun e he => hρ e (List.mem_append_left _ he)]
    exact (hk _).congr ρ ρ' fun e he => hρ e (List.mem_append_right _ he)
  · obtain ⟨m₁, h₁, g₁, l₁, j₁⟩ := hx.run m hm ha
    obtain ⟨m₂, h₂, g₂, l₂, j₂⟩ := (hk (f m₁.guess)).run m₁ (hm.later g₁) (g₁.reached ha)
    have same : f m₁.guess = f m₂.guess :=
      hx.congr _ _ fun e he e' he' t ht => (g₂.guess_eq ((j₁ e he).2 e' he' t ht)).symm
    refine ⟨m₂, ?_, g₁.trans g₂ hg fun e he => ⟨a, hin e (List.mem_append_right _ he), ha⟩, l₁.trans l₂,
      fun e he => ?_⟩
    · rw [bind_ok h₁, h₂, same]
    · rcases List.mem_append.1 he with hl | hr
      · refine (j₁ e hl).later g₂ hg (hin e he) (g₁.reached ha) fun e' he' hi => ?_
        rw [Expr.ids_append] at hd
        exact List.disjoint_of_nodup_append hd (Expr.mem_ids.2 ⟨e, hl, e', he', rfl⟩) hi
      · exact j₂ e hr

theorem map {x : Finding α} {f : (RuleId → MatchResult) → α} (hx : Finds g size fuel a es x f) (F : α → β) :
    Finds g size fuel a es (x >>= fun v => Pure.pure (F v)) fun ρ => F (f ρ) := by
  refine ⟨fun ρ ρ' hρ => congrArg F (hx.congr ρ ρ' hρ), fun m hm ha => ?_⟩
  obtain ⟨m', h, rest⟩ := hx.run m hm ha
  exact ⟨m', by rw [bind_ok h]; rfl, rest⟩

/-- A result is noted for an expression whose parts were judged. -/
theorem note {x : Finding α} {f : (RuleId → MatchResult) → α} {e : Expr} (hg : g.Numbered size)
    (hin : g.Inside a e) (F : α → MatchResult) (hj : ∀ ρ, judge ρ e = F (f ρ))
    (hx : ∀ m, Ready g size fuel m → (m.ofRule? a).isSome → ∃ m', x m = .ok (f m'.guess) m' ∧
      Grows g e.children m m' ∧ ReachedFrom g a m m' ∧ (∀ c ∈ e.children, Judged m' c) ∧
        ∀ t, e.target? = some t → (m'.ofRule? t).isSome) :
    Finds g size fuel a [e] (x >>= fun v => Matching.note e (F v)) fun ρ => judge ρ e := by
  refine ⟨fun ρ ρ' hρ => judge_congr e (hρ e (List.mem_singleton_self e)), fun m hm ha => ?_⟩
  obtain ⟨m₁, h₁, g₁, l₁, j₁, ht⟩ := hx m hm ha
  have hlt : e.id < m₁.exprs.size := by rw [(hm.later g₁).exprs]; exact hg.lt hin
  have hnodup := hg.nodup hin
  rw [Expr.ids_singleton, List.nodup_cons] at hnodup
  -- nothing changes but the entry of the expression
  have noted : Grows g [e] m₁ { m₁ with exprs := m₁.exprs.setIfInBounds e.id (F (f m₁.guess)) } := by
    refine ⟨Array.size_setIfInBounds, rfl, fun _ _ h => h, fun i hi _ => ?_, fun r _ _ hn hs => ?_⟩
    · rw [Expr.ids_singleton, List.mem_cons, not_or] at hi
      simp only [Array.getD_eq_getD_getElem?, Array.getElem?_setIfInBounds_ne (Ne.symm hi.1)]
    · change (m₁.ofRule? r).isSome at hs
      rw [hn] at hs; cases hs
  refine ⟨_, (bind_ok h₁).trans (congrArg (EStateM.Result.ok · _) (hj m₁.guess).symm), ?_,
    l₁.trans (.of_eq rfl), fun e' he' => ?_⟩
  · refine (g₁.trans noted hg fun e' he' => ⟨a, List.mem_singleton.1 he' ▸ hin, ha⟩).weaken fun i hi => ?_
    rw [Expr.ids_append, List.mem_append] at hi
    rw [Expr.ids_singleton] at hi ⊢
    rcases hi with hi | hi
    · exact List.mem_cons_of_mem _ hi
    · exact hi
  · rw [List.mem_singleton.1 he']
    constructor
    · -- the entry is what was judged, and those of the parts are as before
      intro e'' he''
      rw [Expr.preorder_eq] at he''
      rcases List.mem_cons.1 he'' with rfl | he''
      · show (m₁.exprs.setIfInBounds e''.id _).getD e''.id _ = _
        rw [Array.getD_eq_getD_getElem?, Array.getElem?_setIfInBounds_self_of_lt hlt]
        exact (hj m₁.guess).symm
      · obtain ⟨c, hc, he''⟩ := List.mem_flatMap.1 he''
        have hne : e.id ≠ e''.id := fun heq => hnodup.1 (heq ▸ Expr.mem_ids.2 ⟨c, hc, e'', he'', rfl⟩)
        show (m₁.exprs.setIfInBounds e.id _).getD e''.id _ = _
        rw [Array.getD_eq_getD_getElem?, Array.getElem?_setIfInBounds_ne hne, ← Array.getD_eq_getD_getElem?]
        exact (j₁ c hc).1 e'' he''
    · intro e'' he'' t htarget
      rw [Expr.preorder_eq] at he''
      rcases List.mem_cons.1 he'' with rfl | he''
      · exact ht t htarget
      · obtain ⟨c, hc, he''⟩ := List.mem_flatMap.1 he''
        exact (j₁ c hc).2 e'' he'' t htarget

theorem noteParts {x : Finding α} {f : (RuleId → MatchResult) → α} {e : Expr} (hx : Finds g size fuel a e.children x f)
    (hg : g.Numbered size) (hin : g.Inside a e) (ht : e.target? = none) (F : α → MatchResult)
    (hj : ∀ ρ, judge ρ e = F (f ρ)) :
    Finds g size fuel a [e] (x >>= fun v => Matching.note e (F v)) fun ρ => judge ρ e :=
  note hg hin F hj fun m hm ha => by
    obtain ⟨m', h, hgrows, hled, hj⟩ := hx.run m hm ha
    exact ⟨m', h, hgrows, hled, hj, fun t htarget => by rw [ht] at htarget; cases htarget⟩

end Finds

/-- What is asked of the search for the result of a rule. -/
def FindsRules (g : Grammar) (size fuel : Nat) (rule : RuleId → Finding MatchResult) : Prop :=
  ∀ t < g.rules.length, ∀ m, Ready g size fuel m →
    ∃ m', rule t m = .ok (m'.guess t) m' ∧ Grows g [] m m' ∧ ReachedFrom g t m m' ∧ (m'.ofRule? t).isSome

section Expressions

variable {fuel : Nat} {rule : RuleId → Finding MatchResult}

theorem finds_any (hg : g.Numbered size) (hin : ∀ e ∈ es, g.Inside a e) (hd : (Expr.ids es).Nodup)
    (h : ∀ e ∈ es, Finds g size fuel a [e] (findExpr rule e) fun ρ => judge ρ e) (sofar : MatchResult) :
    Finds g size fuel a es (findAny rule sofar es) fun ρ => judgeAny ρ sofar es := by
  induction es generalizing sofar with
  | nil => exact .pure sofar
  | cons e es ih =>
    have hd' := hd
    rw [← List.singleton_append, Expr.ids_append] at hd'
    exact Finds.bind hg hin hd (h e List.mem_cons_self) fun v =>
      ih (fun e' he => hin e' (List.mem_cons_of_mem _ he)) (List.Nodup.of_append_right hd')
        (fun e' he => h e' (List.mem_cons_of_mem _ he)) (sofar.or v)

theorem finds_all (hg : g.Numbered size) (hin : ∀ e ∈ es, g.Inside a e) (hd : (Expr.ids es).Nodup)
    (h : ∀ e ∈ es, Finds g size fuel a [e] (findExpr rule e) fun ρ => judge ρ e) (sofar : MatchResult) :
    Finds g size fuel a es (findAll rule sofar es) fun ρ => judgeAll ρ sofar es := by
  induction es generalizing sofar with
  | nil => exact .pure sofar
  | cons e es ih =>
    have hd' := hd
    rw [← List.singleton_append, Expr.ids_append] at hd'
    exact Finds.bind hg hin hd (h e List.mem_cons_self) fun v =>
      ih (fun e' he => hin e' (List.mem_cons_of_mem _ he)) (List.Nodup.of_append_right hd')
        (fun e' he => h e' (List.mem_cons_of_mem _ he)) (sofar.and v)

/-- The result of an expression inside a rule that was reached is found. -/
theorem finds_expr (hg : g.Numbered size) (hrule : FindsRules g size fuel rule)
    (hres : ∀ e, g.Inside a e → Expr.Resolves g.rules.length e) (e : Expr) (hin : g.Inside a e) :
    Finds g size fuel a [e] (findExpr rule e) fun ρ => judge ρ e := by
  induction e using Expr.induction_children with
  | h e ih =>
    have of (c : Expr) (hc : c ∈ e.children) : Finds g size fuel a [c] (findExpr rule c) fun ρ => judge ρ c :=
      ih c hc (hin.child hc)
    have hnodup := hg.nodup hin
    rw [Expr.ids_singleton, List.nodup_cons] at hnodup
    cases e with
    | choice i first others =>
      have hd : (Expr.ids ([first] ++ others)).Nodup := hnodup.2
      have hd' := hd
      rw [Expr.ids_append] at hd'
      have parts := Finds.bind hg (fun e he => hin.child he) hd (of first List.mem_cons_self) fun v =>
        finds_any hg (fun e he => hin.child (List.mem_cons_of_mem _ he)) (List.Nodup.of_append_right hd')
          (fun e he => of e (List.mem_cons_of_mem _ he)) v
      have noted := parts.noteParts hg hin rfl id fun ρ => rfl
      rw [bind_assoc] at noted
      exact noted
    | sequence i elements =>
      exact (finds_all hg (fun e he => hin.child he) hnodup.2 of .always).noteParts hg hin rfl id fun ρ => rfl
    | labeled _ _ _ body | action _ body _ | named _ _ body | text _ body | oneOrMore _ body | group _ body
    | simpleAnd _ body => exact (of body List.mem_cons_self).noteParts hg hin rfl id fun ρ => rfl
    | simpleNot _ body => exact (of body List.mem_cons_self).noteParts hg hin rfl negate fun ρ => rfl
    | optional _ body | zeroOrMore _ body =>
      exact (of body List.mem_cons_self).noteParts hg hin rfl (fun _ => .always) fun ρ => rfl
    | repeated i body min max delimiter =>
      cases delimiter with
      | none => exact (of body List.mem_cons_self).noteParts hg hin rfl (.repeated min max · none) fun ρ => rfl
      | some d =>
        have parts := Finds.bind hg (fun e he => hin.child he) hnodup.2 (of body List.mem_cons_self) fun v =>
          (of d (List.mem_cons_of_mem _ List.mem_cons_self)).map (Prod.mk v)
        have noted := parts.noteParts hg hin rfl (fun p => .repeated min max p.1 (some p.2)) fun ρ => rfl
        simp only [bind_assoc, pure_bind] at noted
        exact noted
    | ruleRef i name target =>
      obtain ⟨t, rfl, ht⟩ := hres _ hin
      refine Finds.note hg hin id (fun ρ => rfl) fun m hm ha => ?_
      obtain ⟨m', h, hgrows, hled, hs⟩ := hrule t ht m hm
      exact ⟨m', h, hgrows, hled.head ⟨_, hin, rfl⟩, fun c hc => (by cases hc), fun t' ht' => by cases ht'; exact hs⟩
    | literal i value ignoreCase =>
      exact (Finds.pure ()).noteParts hg hin rfl (fun _ => if value = "" then .always else .sometimes) fun ρ => rfl
    | charClass i k =>
      exact (Finds.pure ()).noteParts hg hin rfl
        (fun _ => if k.parts.isEmpty && !k.inverted then .never else .sometimes) fun ρ => rfl
    | semanticAnd | semanticNot | any =>
      exact (Finds.pure ()).noteParts hg hin rfl (fun _ => .sometimes) fun ρ => rfl

end Expressions

end Search

end Analysis.Matching

end PegCompiler
