/-
Answers about consumption. `Consumes` tells it without a search, as the least solution of one equation for every
kind of expression. A search assumes of the rules it is still asking that they do not consume. So an answer yes is
right; an answer no says that there is no proof that stays clear of those rules, and nothing is lost by that: a proof
about a rule that goes through the rule itself can be cut short (`consumesWithout_self`). What rested on no assumption
is right as it stands, and only that is remembered.
-/
import Mathlib.Data.Finset.Card
import Mathlib.Order.FixedPoints
import PegCompiler.Analysis.EmptyRepetition
import PegCompiler.Proofs.Grammar.Proxy
import PegCompiler.Proofs.Stateful

namespace PegCompiler.Analysis

/-! ## Expressions that consume -/

/-- An expression is sure to consume input whenever it succeeds. -/
inductive Consumes (g : Grammar) : Expr → Prop
  | literal {i : Expr.Info} {value : String} {ignoreCase : Bool} (h : value ≠ "") :
      Consumes g (.literal i value ignoreCase)
  | charClass {i : Expr.Info} {k : CharClass} : Consumes g (.charClass i k)
  | any {i : Expr.Info} : Consumes g (.any i)
  | sequence {i : Expr.Info} {elements : List Expr} {e : Expr} (he : e ∈ elements) (h : Consumes g e) :
      Consumes g (.sequence i elements)
  | choice {i : Expr.Info} {first : Expr} {others : List Expr} (h : Consumes g first)
      (hs : ∀ e ∈ others, Consumes g e) : Consumes g (.choice i first others)
  | repeated {i : Expr.Info} {body : Expr} {min : Option Boundary} {max : Boundary} {delimiter : Option Expr}
      (hn : 0 < Consumption.sureCount min max) (h : Consumes g body) : Consumes g (.repeated i body min max delimiter)
  /-- Where there are two items there is a delimiter. -/
  | delimited {i : Expr.Info} {body d : Expr} {min : Option Boundary} {max : Boundary}
      (hn : 1 < Consumption.sureCount min max) (h : Consumes g d) : Consumes g (.repeated i body min max (some d))
  | ruleRef {i : Expr.Info} {name : String} {t : RuleId} {rule : Rule} (hr : g.rule? t = some rule)
      (h : Consumes g rule.body) : Consumes g (.ruleRef i name (some t))
  | labeled {i : Expr.Info} {label : Option (Located String)} {pick : Bool} {body : Expr} (h : Consumes g body) :
      Consumes g (.labeled i label pick body)
  | action {i : Expr.Info} {body : Expr} {code : HostCode} (h : Consumes g body) : Consumes g (.action i body code)
  | named {i : Expr.Info} {name : String} {body : Expr} (h : Consumes g body) : Consumes g (.named i name body)
  | text {i : Expr.Info} {body : Expr} (h : Consumes g body) : Consumes g (.text i body)
  | oneOrMore {i : Expr.Info} {body : Expr} (h : Consumes g body) : Consumes g (.oneOrMore i body)
  | group {i : Expr.Info} {body : Expr} (h : Consumes g body) : Consumes g (.group i body)

/-- A rule whose body consumes. -/
def ConsumesRule (g : Grammar) (r : RuleId) : Prop := ∃ rule, g.rule? r = some rule ∧ Consumes g rule.body

/-! ## The equations -/

/-- The equation of an expression: when it consumes, given which expressions do. -/
def Equation (g : Grammar) (X : Expr → Prop) : Expr → Prop
  | .literal _ value _ => value ≠ ""
  | .charClass .. | .any .. => True
  | .sequence _ elements => ∃ e ∈ elements, X e
  | .choice _ first others => X first ∧ ∀ e ∈ others, X e
  | .repeated _ body min max delimiter =>
    (1 ≤ Consumption.sureCount min max ∧ X body) ∨ (2 ≤ Consumption.sureCount min max ∧ ∃ d ∈ delimiter, X d)
  | .ruleRef _ _ target => ∃ t ∈ target, ∃ rule, g.rule? t = some rule ∧ X rule.body
  | .labeled _ _ _ body | .action _ body _ | .named _ _ body | .text _ body | .oneOrMore _ body | .group _ body =>
    X body
  | .simpleAnd .. | .simpleNot .. | .semanticAnd .. | .semanticNot .. | .optional .. | .zeroOrMore .. => False

theorem Equation.mono {g : Grammar} {X Y : Expr → Prop} (h : ∀ e, X e → Y e) {e : Expr} (he : Equation g X e) :
    Equation g Y e := by
  cases e with
  | literal | charClass | any | simpleAnd | simpleNot | semanticAnd | semanticNot | optional | zeroOrMore => exact he
  | sequence i elements =>
    obtain ⟨e, hm, he⟩ := he
    exact ⟨e, hm, h e he⟩
  | choice i first others => exact ⟨h first he.1, fun e hm => h e (he.2 e hm)⟩
  | repeated i body min max delimiter =>
    rcases he with ⟨hn, he⟩ | ⟨hn, d, hd, he⟩
    · exact .inl ⟨hn, h body he⟩
    · exact .inr ⟨hn, d, hd, h d he⟩
  | ruleRef i name target =>
    obtain ⟨t, ht, rule, hr, he⟩ := he
    exact ⟨t, ht, rule, hr, h _ he⟩
  | labeled | action | named | text | oneOrMore | group => exact h _ he

theorem consumes_of_equation {g : Grammar} {e : Expr} (h : Equation g (Consumes g) e) : Consumes g e := by
  cases e with
  | literal => exact .literal h
  | charClass => exact .charClass
  | any => exact .any
  | sequence i elements =>
    obtain ⟨e, hm, he⟩ := h
    exact .sequence hm he
  | choice i first others => exact .choice h.1 h.2
  | repeated i body min max delimiter =>
    rcases h with ⟨hn, h⟩ | ⟨hn, d, rfl, h⟩
    · exact .repeated hn h
    · exact .delimited hn h
  | ruleRef i name target =>
    obtain ⟨t, rfl, rule, hr, h⟩ := h
    exact .ruleRef hr h
  | labeled => exact .labeled h
  | action => exact .action h
  | named => exact .named h
  | text => exact .text h
  | oneOrMore => exact .oneOrMore h
  | group => exact .group h
  | simpleAnd | simpleNot | semanticAnd | semanticNot | optional | zeroOrMore => exact h.elim

/-- Whatever solves the equations has all expressions that consume. -/
theorem Consumes.least {g : Grammar} {X : Expr → Prop} (h : ∀ e, Equation g X e → X e) {e : Expr}
    (he : Consumes g e) : X e := by
  induction he with
  | literal hv => exact h _ hv
  | charClass | any => exact h _ trivial
  | sequence hm _ ih => exact h _ ⟨_, hm, ih⟩
  | choice _ _ ih ihs => exact h _ ⟨ih, ihs⟩
  | repeated hn _ ih => exact h _ (.inl ⟨hn, ih⟩)
  | delimited hn _ ih => exact h _ (.inr ⟨hn, _, rfl, ih⟩)
  | ruleRef hr _ ih => exact h _ ⟨_, rfl, _, hr, ih⟩
  | labeled _ ih | action _ ih | named _ ih | text _ ih | oneOrMore _ ih | group _ ih => exact h _ ih

theorem consumes_iff {g : Grammar} {e : Expr} : Consumes g e ↔ Equation g (Consumes g) e := by
  refine ⟨fun h => ?_, consumes_of_equation⟩
  exact h.least fun e he => he.mono fun _ => consumes_of_equation

theorem isLeast_consumes (g : Grammar) : IsLeast {X : Expr → Prop | ∀ e, X e ↔ Equation g X e} (Consumes g) :=
  ⟨fun _ => consumes_iff, fun _ hX _ he => he.least fun e => (hX e).2⟩

/-! ## Consuming without some rules -/

/-- The equations of a grammar where references to some of its rules are not followed. -/
def equationsWithout (g : Grammar) (avoided : List RuleId) : (Expr → Prop) →o (Expr → Prop) where
  toFun X e := (∀ t ∈ avoided, e.target? ≠ some t) ∧ Equation g X e
  monotone' := fun _ _ h _ ⟨clear, he⟩ => ⟨clear, he.mono h⟩

/-- An expression is sure to consume, and there is a proof of it that stays clear of some rules. -/
def ConsumesWithout (g : Grammar) (avoided : List RuleId) : Expr → Prop := OrderHom.lfp (equationsWithout g avoided)

section Without

variable {g : Grammar} {avoided : List RuleId} {e : Expr}

theorem consumesWithout_iff :
    ConsumesWithout g avoided e ↔
      (∀ t ∈ avoided, e.target? ≠ some t) ∧ Equation g (ConsumesWithout g avoided) e :=
  iff_of_eq (congrFun (OrderHom.map_lfp (equationsWithout g avoided)).symm e)

theorem consumesWithout_iff_of_target (h : e.target? = none) :
    ConsumesWithout g avoided e ↔ Equation g (ConsumesWithout g avoided) e := by
  rw [consumesWithout_iff, h]
  simp

theorem ConsumesWithout.consumes (h : ConsumesWithout g avoided e) : Consumes g e :=
  OrderHom.lfp_le (equationsWithout g avoided) (fun _ he => consumes_of_equation he.2) e h

theorem Consumes.without (h : Consumes g e) : ConsumesWithout g [] e :=
  h.least fun e he => consumesWithout_iff.2 ⟨by simp, he⟩

theorem consumesWithout_nil : ConsumesWithout g [] e ↔ Consumes g e := ⟨fun h => h.consumes, fun h => h.without⟩

/-- A proof about a rule need not go through the rule itself. -/
theorem consumesWithout_self {r : RuleId} {rule : Rule} (hr : g.rule? r = some rule)
    (h : ConsumesWithout g avoided rule.body) : ConsumesWithout g (r :: avoided) rule.body := by
  by_contra none
  -- if there is no such proof about the rule, what is proved with it is proved without it
  have weaker : ConsumesWithout g avoided ≤ ConsumesWithout g (r :: avoided) := by
    refine OrderHom.lfp_le _ fun e ⟨clear, he⟩ => consumesWithout_iff.2 ⟨fun t ht htarget => ?_, he⟩
    rcases List.mem_cons.1 ht with rfl | ht
    · cases e with
      | ruleRef i name target =>
        obtain ⟨t, rfl, rule', hr', he⟩ := he
        cases htarget
        rw [hr] at hr'
        cases hr'
        exact none he
      | _ => cases htarget
    · exact clear t ht htarget
  exact none (weaker _ h)

end Without

namespace Consumption

variable {g : Grammar}

/-! ## Questions -/

/-- A rule consumes, and there is a proof of it that stays clear of some rules. -/
def RuleWithout (g : Grammar) (r : RuleId) (avoided : List RuleId) : Prop :=
  r ∉ avoided ∧ ∃ rule, g.rule? r = some rule ∧ ConsumesWithout g avoided rule.body

theorem ruleWithout_nil {r : RuleId} : RuleWithout g r [] ↔ ConsumesRule g r := by
  unfold RuleWithout ConsumesRule
  simp only [List.not_mem_nil, not_false_eq_true, true_and, consumesWithout_nil]

theorem RuleWithout.consumes {r : RuleId} {avoided : List RuleId} (h : RuleWithout g r avoided) : RuleWithout g r [] := by
  obtain ⟨-, rule, hr, h⟩ := h
  exact ⟨by simp, rule, hr, h.consumes.without⟩

/-- All that is remembered is right. -/
def Right (g : Grammar) (s : Consumption) : Prop :=
  ∀ r answer, s.known.lookup r = some answer → (answer = true ↔ ConsumesRule g r)

/-- The rules of which something may have been assumed. -/
def assumed (active : List RuleId) (provisional : Bool) : List RuleId := if provisional then active else []

/-- What a question that is asked while rules are active leaves behind. Yes is right; no means that there is no proof
that stays clear of the rules of which something may have been assumed. -/
structure Answered (g : Grammar) (active : List RuleId) (P : List RuleId → Prop) (s : Consumption) (answer : Bool)
    (s' : Consumption) : Prop where
  right : Right g s'
  restored : s'.active = active
  provisional : s.provisional = true → s'.provisional = true
  yes : answer = true → P []
  no : answer = false → ¬ P (assumed active s'.provisional)

/-- Two ways to ask, which do the same, answer whether `P`, told of proofs that stay clear of rules. -/
def Decides (g : Grammar) (active : List RuleId) (P : List RuleId → Prop) (x y : Asking Bool) : Prop :=
  ∀ s, Right g s → s.active = active → x s = y s ∧ After x s (Answered g active P s)

section Decides

variable {active : List RuleId} {P P₁ P₂ : List RuleId → Prop} {x x' y y' : Asking Bool}

theorem Decides.congr (h : Decides g active P₁ x x') (hP : ∀ avoided, P₁ avoided ↔ P avoided) :
    Decides g active P x x' := by
  obtain rfl : P₁ = P := funext fun avoided => propext (hP avoided)
  exact h

theorem decides_yes (h : ∀ avoided, P avoided) : Decides g active P (pure true) (pure true) :=
  fun _ hs hactive => ⟨rfl, hs, hactive, id, fun _ => h [], nofun⟩

theorem decides_no (h : ∀ avoided, ¬ P avoided) : Decides g active P (pure false) (pure false) :=
  fun _ hs hactive => ⟨rfl, hs, hactive, id, nofun, fun _ => h _⟩

/-- What is asked next may depend on the answer. -/
theorem Decides.bind {f f' : Bool → Asking Bool} (hx : Decides g active P₁ x x')
    (h : ∀ s answer s₁, Answered g active P₁ s answer s₁ →
      f answer s₁ = f' answer s₁ ∧ After (f answer) s₁ (Answered g active P s)) :
    Decides g active P (x >>= f) (x' >>= f') := by
  intro s hs hactive
  obtain ⟨same, after⟩ := hx s hs hactive
  refine ⟨?_, after_bind.2 (h s _ _ after).2⟩
  rw [bind_apply, bind_apply, ← same]
  exact (h s _ _ after).1

/-- With more assumptions there are fewer proofs. -/
theorem not_assumed {provisional provisional' : Bool} (hP : ∀ avoided, P avoided → P [])
    (h : ¬ P (assumed active provisional)) (hp : provisional = true → provisional' = true) :
    ¬ P (assumed active provisional') := by
  cases provisional with
  | true => rw [hp rfl]; exact h
  | false => exact fun h' => h (hP _ h')

/-- The second question is asked only if the answer to the first one is no. -/
theorem Decides.or (hx : Decides g active P₁ x x') (hy : Decides g active P₂ y y')
    (hP : ∀ avoided, P₁ avoided → P₁ []) :
    Decides g active (fun avoided => P₁ avoided ∨ P₂ avoided) (do if ← x then return true else y)
      (do if ← x' then return true else y') := by
  refine hx.bind fun s answer s₁ first => ?_
  cases answer with
  | true => exact ⟨rfl, first.right, first.restored, first.provisional, fun _ => .inl (first.yes rfl), nofun⟩
  | false =>
    obtain ⟨same, second⟩ := hy s₁ first.right first.restored
    refine ⟨same, second.right, second.restored, fun h => second.provisional (first.provisional h),
      fun h => .inr (second.yes h), fun h => ?_⟩
    rintro (h' | h')
    · exact not_assumed hP (first.no rfl) second.provisional h'
    · exact second.no h h'

/-- The second question is asked only if the answer to the first one is yes. -/
theorem Decides.and (hx : Decides g active P₁ x x') (hy : Decides g active P₂ y y') :
    Decides g active (fun avoided => P₁ avoided ∧ P₂ avoided) (do if ← x then y else return false)
      (do if ← x' then y' else return false) := by
  refine hx.bind fun s answer s₁ first => ?_
  cases answer with
  | true =>
    obtain ⟨same, second⟩ := hy s₁ first.right first.restored
    exact ⟨same, second.right, second.restored, fun h => second.provisional (first.provisional h),
      fun h => ⟨first.yes rfl, second.yes h⟩, fun h both => second.no h both.2⟩
  | false =>
    exact ⟨rfl, first.right, first.restored, first.provisional, nofun, fun _ both => first.no rfl both.1⟩

end Decides

/-! ## Questions about expressions -/

section Exprs

variable {active : List RuleId} {rule rule' : RuleId → Asking Bool}

theorem decides_someOf {es : List Expr}
    (h : ∀ e ∈ es, Decides g active (fun avoided => ConsumesWithout g avoided e) (ofExpr rule e) (ofExpr rule' e)) :
    Decides g active (fun avoided => ∃ e ∈ es, ConsumesWithout g avoided e) (someOf rule es) (someOf rule' es) := by
  induction es with
  | nil => exact decides_no fun _ => by simp
  | cons e es ih =>
    unfold someOf
    refine ((h e List.mem_cons_self).or (ih fun e' he => h e' (List.mem_cons_of_mem _ he)) ?_).congr ?_
    · exact fun _ h => h.consumes.without
    · simp

theorem decides_everyOf {es : List Expr}
    (h : ∀ e ∈ es, Decides g active (fun avoided => ConsumesWithout g avoided e) (ofExpr rule e) (ofExpr rule' e)) :
    Decides g active (fun avoided => ∀ e ∈ es, ConsumesWithout g avoided e) (everyOf rule es) (everyOf rule' es) := by
  induction es with
  | nil => exact decides_yes fun _ => by simp
  | cons e es ih =>
    unfold everyOf
    refine ((h e List.mem_cons_self).and (ih fun e' he => h e' (List.mem_cons_of_mem _ he))).congr ?_
    simp

/-- Where no rule is referred to, it is enough to decide the equation. -/
theorem decides_of_equation {e : Expr} {x y : Asking Bool} (he : e.target? = none)
    (h : Decides g active (fun avoided => Equation g (ConsumesWithout g avoided) e) x y) :
    Decides g active (fun avoided => ConsumesWithout g avoided e) x y :=
  h.congr fun _ => (consumesWithout_iff_of_target he).symm

/-- Questions about expressions are decided if those about rules are. -/
theorem decides_ofExpr (hrule : ∀ t, Decides g active (RuleWithout g t) (rule t) (rule' t)) (e : Expr) :
    Decides g active (fun avoided => ConsumesWithout g avoided e) (ofExpr rule e) (ofExpr rule' e) := by
  induction e using Expr.induction with
  | ruleRef i name target =>
    unfold ofExpr
    cases target with
    | none => exact decides_of_equation rfl (decides_no fun _ => by simp [Equation])
    | some t =>
      -- a reference consumes if its rule does, and the rule is none of those to avoid
      refine (hrule t).congr fun avoided => ?_
      rw [consumesWithout_iff]
      simp only [RuleWithout, Expr.target?, Equation]
      constructor
      · rintro ⟨clear, rule, hr, h⟩
        exact ⟨fun t' ht' e => clear (by cases e; exact ht'), t, rfl, rule, hr, h⟩
      · rintro ⟨clear, _, ⟨⟩, rule, hr, h⟩
        exact ⟨fun ht => clear t ht rfl, rule, hr, h⟩
  | sequence i elements ih => unfold ofExpr; exact decides_of_equation rfl (decides_someOf ih)
  | choice i first others ih ihs => unfold ofExpr; exact decides_of_equation rfl (ih.and (decides_everyOf ihs))
  | repeated i body min max delimiter ih ihDelimiter =>
    refine decides_of_equation rfl ?_
    cases delimiter with
    | none =>
      unfold ofExpr
      split
      · exact decides_no fun _ => by simp [Equation, *]
      · exact ih.congr fun _ => by simp [Equation, show 1 ≤ sureCount min max by omega]
    | some d =>
      unfold ofExpr
      split
      · exact decides_no fun _ => by simp [Equation, *]
      · -- the delimiter counts where two items are sure to match
        by_cases twice : 1 < sureCount min max
        · simp only [twice, if_true]
          refine (ih.or (ihDelimiter d rfl) fun _ h => h.consumes.without).congr fun _ => ?_
          simp [Equation, show 1 ≤ sureCount min max by omega, show 2 ≤ sureCount min max by omega]
        · simp only [twice, if_false]
          refine (ih.or (decides_no fun _ => id) fun _ h => h.consumes.without).congr fun _ => ?_
          simp [Equation, show 1 ≤ sureCount min max by omega, show ¬ 2 ≤ sureCount min max by omega]
  | literal i value ignoreCase =>
    refine decides_of_equation rfl ?_
    unfold ofExpr
    by_cases hv : value = ""
    · subst hv
      exact decides_no fun _ => by simp [Equation]
    · rw [show (value != "") = true by simpa using hv]
      exact decides_yes fun _ => hv
  | charClass | any => unfold ofExpr; exact decides_of_equation rfl (decides_yes fun _ => trivial)
  | labeled _ _ _ _ ih | action _ _ _ ih _ | named _ _ _ ih | text _ _ ih | oneOrMore _ _ ih | group _ _ ih =>
    unfold ofExpr
    exact decides_of_equation rfl ih
  | simpleAnd | simpleNot | semanticAnd | semanticNot | optional | zeroOrMore =>
    unfold ofExpr
    exact decides_of_equation rfl (decides_no fun _ => id)

end Exprs

/-! ## Questions about rules -/

/-- There is fuel for all rules that are not active yet. -/
def Room (g : Grammar) (fuel : Nat) (active : List RuleId) : Prop :=
  (Finset.range g.rules.length \ active.toFinset).card < fuel

theorem Room.start (g : Grammar) : Room g (g.rules.length + 1) [] := by simp [Room]

theorem Room.next {fuel : Nat} {active : List RuleId} {r : RuleId} (h : Room g (fuel + 1) active)
    (hr : r < g.rules.length) (new : r ∉ active) : Room g fuel (r :: active) := by
  have smaller : Finset.range g.rules.length \ (r :: active).toFinset ⊂
      Finset.range g.rules.length \ active.toFinset := by
    refine Finset.ssubset_iff_of_subset (fun t ht => ?_) |>.2 ⟨r, ?_, ?_⟩
    · simp at ht ⊢
      tauto
    · simp [hr, new]
    · simp
  have := Finset.card_lt_card smaller
  unfold Room at h ⊢
  omega

/-- A new answer is remembered if it is right as it stands. -/
theorem Right.remember {s : Consumption} (h : Right g s) {r : RuleId} {answer : Bool}
    (ha : s.provisional = false → (answer = true ↔ ConsumesRule g r)) (active : List RuleId) (provisional : Bool) :
    Right g ⟨if s.provisional then s.known else (r, answer) :: s.known, active, provisional⟩ := by
  intro r' answer' h'
  dsimp only at h'
  split at h'
  · exact h r' answer' h'
  · rename_i settled
    rw [List.lookup_cons] at h'
    split at h'
    · rename_i same
      cases h'
      rw [beq_iff_eq.1 same]
      exact ha (by simpa using settled)
    · exact h r' answer' h'

variable {active : List RuleId} {onward onward' : RuleId → Asking Bool} {r : RuleId}

theorem decides_ofBody (h : r < g.rules.length → ∀ t, Decides g active (RuleWithout g t) (onward t) (onward' t)) :
    Decides g active (fun avoided => ∃ rule, g.rule? r = some rule ∧ ConsumesWithout g avoided rule.body)
      (ofBody g onward r) (ofBody g onward' r) := by
  unfold ofBody
  cases hr : g.rule? r with
  | none => exact decides_no fun _ => by simp
  | some rule =>
    have inside := (List.getElem?_eq_some_iff.1 hr).1
    exact (decides_ofExpr (h inside) rule.body).congr fun _ => by simp

theorem ofRuleVia_of_known {s : Consumption} {answer : Bool} (known : s.known.lookup r = some answer) :
    ofRuleVia g onward r s = (answer, s) := by
  unfold ofRuleVia
  rw [get_bind_apply, known]
  rfl

theorem ofRuleVia_of_active {s : Consumption} (unknown : s.known.lookup r = none) (hr : r ∈ s.active) :
    ofRuleVia g onward r s = (false, { s with provisional := true }) := by
  unfold ofRuleVia
  rw [get_bind_apply, unknown]
  simp only [List.contains_iff_mem.2 hr, if_true]
  rfl

theorem ofRuleVia_of_new {s : Consumption} (unknown : s.known.lookup r = none) (new : r ∉ s.active) :
    ofRuleVia g onward r s =
      let (answer, t) := ofBody g onward r { s with active := r :: s.active, provisional := false }
      (answer, ⟨if t.provisional then t.known else (r, answer) :: t.known, t.active.erase r,
        t.provisional || s.provisional⟩) := by
  unfold ofRuleVia
  rw [get_bind_apply, unknown]
  simp only [List.contains_eq_mem, new, decide_false, Bool.false_eq_true, if_false]
  rfl

/-- A question about a rule is decided if those about the rules that it refers to are. -/
theorem decides_ofRuleVia
    (h : r ∉ active → r < g.rules.length → ∀ t, Decides g (r :: active) (RuleWithout g t) (onward t) (onward' t)) :
    Decides g active (RuleWithout g r) (ofRuleVia g onward r) (ofRuleVia g onward' r) := by
  intro s hs hactive
  subst hactive
  unfold After
  cases hknown : s.known.lookup r with
  | some answer =>
    rw [ofRuleVia_of_known hknown, ofRuleVia_of_known hknown]
    have right := hs r answer hknown
    refine ⟨rfl, hs, rfl, id, fun yes => ruleWithout_nil.2 (right.1 yes), fun no h => ?_⟩
    have yes := right.2 (ruleWithout_nil.1 h.consumes)
    exact Bool.false_ne_true (no.symm.trans yes)
  | none =>
    by_cases hr : r ∈ s.active
    · rw [ofRuleVia_of_active hknown hr, ofRuleVia_of_active hknown hr]
      exact ⟨rfl, hs, rfl, fun _ => rfl, nofun, fun _ h => h.1 hr⟩
    · obtain ⟨same, body⟩ := decides_ofBody (h hr) { s with active := r :: s.active, provisional := false } hs rfl
      rw [ofRuleVia_of_new hknown hr, ofRuleVia_of_new hknown hr, ← same]
      unfold After at body
      clear same
      generalize ofBody g onward r { s with active := r :: s.active, provisional := false } = asked at body ⊢
      obtain ⟨answer, t⟩ := asked
      dsimp only at body ⊢
      -- what is refuted without going through the rule itself is refuted
      have no : answer = false → ¬ RuleWithout g r (assumed s.active t.provisional) := by
        rintro no ⟨-, rule, hrule, h⟩
        refine body.no no ⟨rule, hrule, ?_⟩
        unfold assumed at h ⊢
        split
        · rw [if_pos ‹_›] at h
          exact consumesWithout_self hrule h
        · rwa [if_neg ‹_›] at h
      have yes : answer = true → ConsumesRule g r := fun yes => by
        obtain ⟨rule, hrule, h⟩ := body.yes yes
        exact ⟨rule, hrule, h.consumes⟩
      refine ⟨rfl, body.right.remember (fun settled => ⟨yes, fun h => ?_⟩) _ _, ?_, ?_, ?_, fun h => ?_⟩
      · by_contra hno
        have := no (by simpa using hno)
        rw [settled] at this
        exact this (ruleWithout_nil.2 h)
      · rw [body.restored]
        simp
      · intro h
        simp [h]
      · exact fun h => ruleWithout_nil.2 (yes h)
      · exact not_assumed (fun _ h => h.consumes) (no h) (by simp +contextual)

/-- Questions about rules are decided however deep they go: nothing is ever asked beyond the fuel. -/
theorem decides_iterate (beyond : RuleId → Asking Bool) {fuel : Nat} {active : List RuleId} (room : Room g fuel active)
    (r : RuleId) : Decides g active (RuleWithout g r) ((ofRuleVia g)^[fuel] beyond r) (ofRuleWithin g fuel r) := by
  induction fuel generalizing active r with
  | zero => exact absurd room (Nat.not_lt_zero _)
  | succ fuel ih =>
    rw [Function.iterate_succ_apply']
    exact decides_ofRuleVia fun new inside t => ih (room.next inside new) t

/-! ## Question after question -/

/-- Something to ask while no rule is active. -/
inductive Question
  | rule (r : RuleId)
  | expr (e : Expr)

namespace Question

/-- Asks it, where `rule` tells it of rules. -/
def ask (rule : RuleId → Asking Bool) : Question → Asking Bool
  | .rule r => rule r
  | .expr e => ofExpr rule e

/-- The answer that is right. -/
def Holds (g : Grammar) : Question → Prop
  | .rule r => ConsumesRule g r
  | .expr e => Consumes g e

end Question

/-- What is known after questions that were asked one after the other. -/
def after (g : Grammar) (asked : List Question) : Consumption :=
  asked.foldl (fun s q => (q.ask (ofRule g) s).2) .empty

/-- What is so between questions. -/
structure Settled (g : Grammar) (s : Consumption) : Prop where
  right : Right g s
  idle : s.active = []

theorem settled_empty : Settled g .empty := ⟨nofun, rfl⟩

/-- Between questions, a question ends within the fuel, its answer is right and all is settled again. -/
theorem settled_ask (beyond : RuleId → Asking Bool) (q : Question) {s : Consumption} (hs : Settled g s) :
    q.ask ((ofRuleVia g)^[g.rules.length + 1] beyond) s = q.ask (ofRule g) s ∧
      After (q.ask (ofRule g)) s fun answer s' => Settled g s' ∧ (answer = true ↔ q.Holds g) := by
  have rules := decides_iterate beyond (Room.start g)
  have right {P : List RuleId → Prop} {x : Asking Bool} (h : Decides g [] P x (q.ask (ofRule g)))
      (hP : P [] ↔ q.Holds g) : x s = q.ask (ofRule g) s ∧
        After (q.ask (ofRule g)) s fun answer s' => Settled g s' ∧ (answer = true ↔ q.Holds g) := by
    obtain ⟨same, answered⟩ := h s hs.right hs.idle
    unfold After at answered ⊢
    rw [same] at answered
    refine ⟨same, ⟨answered.right, answered.restored⟩, fun yes => hP.1 (answered.yes yes), fun holds => ?_⟩
    by_contra no
    refine answered.no (by simpa using no) ?_
    unfold assumed
    rw [ite_self]
    exact hP.2 holds
  cases q with
  | rule r => exact right (rules r) ruleWithout_nil
  | expr e => exact right (decides_ofExpr rules e) consumesWithout_nil

theorem settled_after (asked : List Question) : Settled g (after g asked) := by
  unfold after
  induction asked using List.reverseRecOn with
  | nil => exact settled_empty
  | append_singleton asked q ih =>
    rw [List.foldl_append]
    exact (settled_ask (fun _ => pure false) q ih).2.1

theorem settled_ofExprIn {s : Consumption} (hs : Settled g s) (e : Expr) :
    After (ofExprIn g e) s fun answer s' => Settled g s' ∧ (answer = true ↔ Consumes g e) :=
  (settled_ask (fun _ => pure false) (.expr e) hs).2

end Consumption

/-- Whatever was asked before, the next question ends, with the answer of the least solution of the equations, which
is the one it has when it is asked first. That it ends is told by `beyond`: whatever were done at the end of the fuel,
nothing would change, so rules are never asked within each other so deep. -/
theorem consumption_is_least_solution (g : Grammar) (asked : List Consumption.Question) (q : Consumption.Question) :
    IsLeast {X : Expr → Prop | ∀ e, X e ↔ Equation g X e} (Consumes g) ∧
    (∀ beyond, q.ask ((Consumption.ofRuleVia g)^[g.rules.length + 1] beyond) (Consumption.after g asked) =
      q.ask (Consumption.ofRule g) (Consumption.after g asked)) ∧
    ((q.ask (Consumption.ofRule g) (Consumption.after g asked)).1 = true ↔ q.Holds g) ∧
    (q.ask (Consumption.ofRule g) (Consumption.after g asked)).1 = (q.ask (Consumption.ofRule g) .empty).1 := by
  have settled : Consumption.Settled g (Consumption.after g asked) := Consumption.settled_after asked
  have later := (Consumption.settled_ask (fun _ => pure false) q settled).2.2
  have first := (Consumption.settled_ask (fun _ => pure false) q (Consumption.settled_empty (g := g))).2.2
  refine ⟨isLeast_consumes g, fun beyond => (Consumption.settled_ask beyond q settled).1, later, ?_⟩
  rw [Bool.eq_iff_iff]
  exact later.trans first.symm

/-! ## Repetitions -/

/-- Nothing repeats without an end: what is repeated consumes, or there is a bound. -/
def Bounded (consumes : Expr → Prop) : Expr → Prop
  | .zeroOrMore _ body | .oneOrMore _ body => consumes body
  | .repeated _ body _ max delimiter => consumes body ∨ (∃ d ∈ delimiter, consumes d) ∨ max ≠ .constant none
  | _ => True

theorem emptyRepetition?_bounded {g : Grammar} (e : Expr) {s : Consumption} (hs : Consumption.Settled g s) :
    After (emptyRepetition? g e) s fun d s' => Consumption.Settled g s' ∧
      ((∀ d' ∈ d, d'.severity ≠ .error) → Bounded (Consumes g) e) := by
  cases e with
  | zeroOrMore i body | oneOrMore i body =>
    unfold emptyRepetition?
    refine after_bind.2 ((Consumption.settled_ofExprIn hs body).mono fun answer s' ⟨hs', ha⟩ => ?_)
    cases answer
    · exact ⟨hs', fun h => absurd rfl (h _ rfl)⟩
    · exact ⟨hs', fun _ => ha.1 rfl⟩
  | repeated i body min max delimiter =>
    unfold emptyRepetition?
    refine after_bind.2 ((Consumption.settled_ofExprIn hs body).mono fun answer s₁ ⟨hs₁, ha⟩ => ?_)
    cases answer with
    | true => exact ⟨hs₁, fun _ => .inl (ha.1 rfl)⟩
    | false =>
      have asksDelimiter : After (delimiter.elim (return false) (Consumption.ofExprIn g)) s₁ fun answer s' =>
          Consumption.Settled g s' ∧ (answer = true → ∃ d ∈ delimiter, Consumes g d) := by
        cases delimiter with
        | none => exact ⟨hs₁, nofun⟩
        | some d => exact (Consumption.settled_ofExprIn hs₁ d).mono fun _ _ ⟨hs', ha⟩ => ⟨hs', fun h => ⟨d, rfl, ha.1 h⟩⟩
      refine after_bind.2 (asksDelimiter.mono fun answer s₂ ⟨hs₂, ha₂⟩ => ?_)
      cases answer with
      | true => exact ⟨hs₂, fun _ => .inr (.inl (ha₂ rfl))⟩
      | false =>
        refine ⟨hs₂, fun h => .inr (.inr fun hmax => h _ rfl ?_)⟩
        rw [hmax]
        rfl
  | _ => exact ⟨hs, fun _ => trivial⟩

/-- Where no repetition is an error, every one has an end. -/
theorem bounded_of_emptyRepetitions {g : Grammar} (h : ∀ d ∈ emptyRepetitions g, d.severity ≠ .error) {e : Expr}
    (he : e ∈ g.liveExprs) : Bounded (Consumes g) e := by
  have all := after_mapM (f := emptyRepetition? g) (l := g.liveExprs)
    (P := fun e d => (∀ d' ∈ d, d'.severity ≠ .error) → Bounded (Consumes g) e)
    (fun e _ s hs => emptyRepetition?_bounded e hs) (Consumption.settled_empty (g := g))
  obtain ⟨d, hd, hbounded⟩ := all.2 e he
  refine hbounded fun d' hd' => h d' ?_
  rw [Option.mem_def] at hd'
  exact List.mem_filterMap.2 ⟨d, hd, hd'⟩

end PegCompiler.Analysis
