/-
Cycles of calls that come before anything is consumed. `LeftCalls` tells which rules a rule can call so, `LeftCycle`
which rules call each other so in turn, each of them once, and `Reports` what an error says that names such a cycle. A
way along references (`Way`) that comes back to its first rule is a cycle and can be reported as one.
-/
import Mathlib.Data.List.Rotate
import Mathlib.Logic.Relation
import PegCompiler.Analysis.LeftRecursion
import PegCompiler.Proofs.Analysis.Consumption

namespace PegCompiler.Analysis

/-! ## Calls before anything is consumed -/

mutual

/-- An expression can call a rule before it has consumed anything. -/
def Leads (g : Grammar) (t : RuleId) : Expr → Prop
  | .sequence _ elements => LeadsInOrder g t elements
  | .choice _ first others => Leads g t first ∨ LeadsAny g t others
  | .repeated _ body _ _ none => Leads g t body
  | .repeated _ body _ _ (some delimiter) => Leads g t body ∨ (¬ Consumes g body ∧ Leads g t delimiter)
  | .ruleRef _ _ (some target) => target = t
  | .labeled _ _ _ body | .action _ body _ | .named _ _ body | .text _ body | .oneOrMore _ body | .group _ body
  | .simpleAnd _ body | .simpleNot _ body | .optional _ body | .zeroOrMore _ body => Leads g t body
  | .ruleRef _ _ none | .semanticAnd .. | .semanticNot .. | .literal .. | .charClass .. | .any .. => False

/-- So do expressions one after the other, where those before the call need not consume. -/
def LeadsInOrder (g : Grammar) (t : RuleId) : List Expr → Prop
  | [] => False
  | e :: es => Leads g t e ∨ (¬ Consumes g e ∧ LeadsInOrder g t es)

/-- So does one of several expressions. -/
def LeadsAny (g : Grammar) (t : RuleId) : List Expr → Prop
  | [] => False
  | e :: es => Leads g t e ∨ LeadsAny g t es

end

/-- A rule can be called by another one before that has consumed anything. -/
def LeftCalls (g : Grammar) (t r : RuleId) : Prop := ∃ rule, g.rule? r = some rule ∧ Leads g t rule.body

/-- A rule refers to another one at a place. -/
def RefersAt (g : Grammar) (r t : RuleId) (span : Span) : Prop :=
  ∃ i name, g.Inside r (.ruleRef i name (some t)) ∧ i.span = span

/-! ## Cycles -/

/-- The steps once round: from every rule to the next one, and from the last one to the first. -/
def roundTrip (rules : List RuleId) : List (RuleId × RuleId) := rules.zip (rules.rotate 1)

/-- Each rule can call the next one before anything is consumed, and the last one the first; none of them is twice
among them. -/
structure LeftCycle (g : Grammar) (rules : List RuleId) : Prop where
  nonempty : rules ≠ []
  nodup : rules.Nodup
  calls : ∀ step ∈ roundTrip rules, LeftCalls g step.2 step.1

/-- An error that names a cycle: its rules from the first one back to it, and for every step the place of a reference
from the one rule to the other. -/
structure Reports (g : Grammar) (rules : List RuleId) (d : Diagnostic) : Prop where
  severity : d.severity = .error
  message : d.message = "Possible infinite loop when parsing (left recursion: " ++
    " -> ".intercalate ((rules ++ rules.take 1).map g.ruleName) ++ ")"
  span : ∃ r rule, rules.head? = some r ∧ g.rule? r = some rule ∧ d.span = rule.nameSpan
  related : List.Forall₂ (fun step related => RefersAt g step.1 step.2 related.span) (roundTrip rules) d.related

theorem roundTrip_cons (r : RuleId) (rs : List RuleId) : roundTrip (r :: rs) = (r :: rs).zip (rs ++ [r]) := by
  simp [roundTrip]

theorem length_roundTrip (rules : List RuleId) : (roundTrip rules).length = rules.length := by
  simp [roundTrip]

theorem fst_mem_of_roundTrip {rules : List RuleId} {step : RuleId × RuleId} (h : step ∈ roundTrip rules) :
    step.1 ∈ rules := (List.of_mem_zip h).1

theorem snd_mem_of_roundTrip {rules : List RuleId} {step : RuleId × RuleId} (h : step ∈ roundTrip rules) :
    step.2 ∈ rules := List.mem_rotate.1 (List.of_mem_zip h).2

/-- From every rule there is a step. -/
theorem exists_step {rules : List RuleId} {r : RuleId} (h : r ∈ rules) : ∃ t, (r, t) ∈ roundTrip rules := by
  obtain ⟨i, hi, rfl⟩ := List.mem_iff_getElem.1 h
  have long : i < (roundTrip rules).length := by rwa [length_roundTrip]
  have step : (rules[i], (roundTrip rules)[i].2) = (roundTrip rules)[i] := Prod.ext (by simp [roundTrip]) rfl
  exact ⟨(roundTrip rules)[i].2, step ▸ List.getElem_mem long⟩

/-- A rule that is called by itself in a cycle is all of it. -/
theorem eq_singleton_of_step {rules : List RuleId} {r : RuleId} (nodup : rules.Nodup) (h : (r, r) ∈ roundTrip rules) :
    rules = [r] := by
  obtain ⟨i, hi, hstep⟩ := List.mem_iff_getElem.1 h
  rw [length_roundTrip] at hi
  simp only [roundTrip, List.getElem_zip, List.getElem_rotate, Prod.mk.injEq] at hstep
  have same := (nodup.getElem_inj_iff).1 (hstep.1.trans hstep.2.symm)
  have one : rules.length = 1 := by
    by_contra many
    rcases Nat.lt_or_ge (i + 1) rules.length with h | h
    · rw [Nat.mod_eq_of_lt h] at same
      omega
    · rw [show i + 1 = rules.length by omega, Nat.mod_self] at same
      omega
  obtain ⟨r', rfl⟩ := List.length_eq_one_iff.1 one
  simp [roundTrip] at h
  simp [h]

theorem transGen_of_zip {R : RuleId → RuleId → Prop} {r t : RuleId} {rs : List RuleId}
    (h : ∀ step ∈ (r :: rs).zip (rs ++ [t]), R step.1 step.2) : Relation.TransGen R r t := by
  induction rs generalizing r with
  | nil => exact .single (h (r, t) (by simp))
  | cons r' rs ih =>
    have first : R r r' := h (r, r') (by simp)
    exact .head first (ih fun step hstep => h step (by rw [List.cons_append, List.zip_cons_cons]; exact .tail _ hstep))

/-- Steps once round lead from the first rule back to it. -/
theorem exists_transGen {R : RuleId → RuleId → Prop} {rules : List RuleId} (nonempty : rules ≠ [])
    (h : ∀ step ∈ roundTrip rules, R step.1 step.2) : ∃ r, Relation.TransGen R r r := by
  obtain ⟨r, rs, rfl⟩ := List.exists_cons_of_ne_nil nonempty
  rw [roundTrip_cons] at h
  exact ⟨r, transGen_of_zip h⟩

/-! ## Ways -/

/-- References that lead from the first of some rules to the next one and so on, from the last one to `target`, each
of them before anything is consumed. -/
def Way (g : Grammar) (target : RuleId) : List RuleId → List Span → Prop
  | [], [] => True
  | r :: rs, span :: spans =>
    (LeftCalls g (rs.headD target) r ∧ RefersAt g r (rs.headD target) span) ∧ Way g target rs spans
  | _, _ => False

section Way

variable {g : Grammar} {target : RuleId} {rules : List RuleId} {spans : List Span}

theorem Way.concat {t : RuleId} {span : Span} (h : Way g target rules spans) (calls : LeftCalls g t target)
    (refers : RefersAt g target t span) : Way g t (rules ++ [target]) (spans ++ [span]) := by
  induction rules generalizing spans with
  | nil =>
    cases spans with
    | nil => exact ⟨⟨calls, refers⟩, trivial⟩
    | cons => exact h.elim
  | cons r rs ih =>
    cases spans with
    | nil => exact h.elim
    | cons s spans =>
      obtain ⟨first, rest⟩ := h
      refine ⟨?_, ih rest⟩
      cases rs <;> exact first

theorem Way.drop (h : Way g target rules spans) (n : Nat) : Way g target (rules.drop n) (spans.drop n) := by
  induction n generalizing rules spans with
  | zero => exact h
  | succ n ih =>
    match rules, spans, h with
    | [], [], _ => exact trivial
    | _ :: _, _ :: _, h => exact ih h.2

/-- The steps of a way, each with its reference. -/
theorem Way.steps (h : Way g target rules spans) :
    List.Forall₂ (fun step span => LeftCalls g step.2 step.1 ∧ RefersAt g step.1 step.2 span)
      (rules.zip (rules.tail ++ [target])) spans := by
  induction rules generalizing spans with
  | nil =>
    cases spans with
    | nil => exact .nil
    | cons => exact h.elim
  | cons r rs ih =>
    cases spans with
    | nil => exact h.elim
    | cons s spans =>
      have rest := ih h.2
      cases rs with
      | nil => exact .cons h.1 rest
      | cons r' rs => exact .cons h.1 rest

/-- A way back to its first rule takes the steps once round. -/
theorem Way.round (h : Way g target rules spans) (back : rules.head? = some target) :
    List.Forall₂ (fun step span => LeftCalls g step.2 step.1 ∧ RefersAt g step.1 step.2 span) (roundTrip rules) spans := by
  cases rules with
  | nil => cases back
  | cons r rs =>
    cases back
    rw [roundTrip_cons]
    exact h.steps

end Way

end PegCompiler.Analysis
