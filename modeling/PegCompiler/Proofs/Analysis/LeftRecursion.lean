/-
What the walk for left recursion reports. Its invariant (`Sound`) says of every report that it names a cycle, and of
every rule that was left that each rule it can call before anything is consumed was left before it, or that the call
closes a cycle whose rules are reported. So every cycle has a step that closes a reported one: the first of its rules to
be left still calls the next. Without reports, calls before anything is consumed end.
-/
import Mathlib.Data.List.Perm.Subperm
import PegCompiler.Proofs.Analysis.Cycles

namespace PegCompiler.Analysis

namespace CycleWalk

variable {g : Grammar} {G : RuleId → Prop}

/-! ## Invariants -/

/-- A call that closes a cycle whose rules are reported. -/
def Closes (g : Grammar) (reported : List (List RuleId)) (r t : RuleId) : Prop :=
  ∃ rules, LeftCycle g rules ∧ (r, t) ∈ roundTrip rules ∧ ∃ members ∈ reported, members.Perm rules

/-- Rules, the last one first: each calls only rules before it, or the call closes a reported cycle. -/
def Ordered (g : Grammar) (reported : List (List RuleId)) : List RuleId → Prop
  | [] => True
  | r :: rs => (∀ t, LeftCalls g t r → t ∈ rs ∨ Closes g reported r t) ∧ Ordered g reported rs

/-- An error names a cycle of rules with `G`. -/
structure Names (g : Grammar) (G : RuleId → Prop) (rules : List RuleId) (d : Diagnostic) : Prop where
  cycle : LeftCycle g rules
  inside : ∀ r ∈ rules, G r
  reports : Reports g rules d

/-- What is so at every point of a walk over rules with `G`. -/
structure Sound (g : Grammar) (G : RuleId → Prop) (w : CycleWalk) : Prop where
  consumption : Consumption.Settled g w.consumption
  named : ∀ d ∈ w.reports, ∃ rules, Names g G rules d
  reported : ∀ members ∈ w.reported, ∃ d ∈ w.reports, ∃ rules, members.Perm rules ∧ Names g G rules d
  ordered : Ordered g w.reported w.walked

theorem Sound.start : Sound g G default := ⟨Consumption.settled_empty, nofun, nofun, trivial⟩

/-- Nothing is forgotten. -/
structure Grows (w w' : CycleWalk) : Prop where
  walked : w.walked ⊆ w'.walked
  reported : w.reported ⊆ w'.reported

theorem Grows.refl (w : CycleWalk) : Grows w w := ⟨fun _ => id, fun _ => id⟩

theorem Grows.trans {w w₁ w' : CycleWalk} (h₁ : Grows w w₁) (h₂ : Grows w₁ w') : Grows w w' :=
  ⟨fun _ h => h₂.walked (h₁.walked h), fun _ h => h₂.reported (h₁.reported h)⟩

section Mono

variable {reported reported' : List (List RuleId)} (more : reported ⊆ reported')

include more

theorem Closes.mono {r t : RuleId} (h : Closes g reported r t) : Closes g reported' r t := by
  obtain ⟨rules, cycle, step, members, hm, hperm⟩ := h
  exact ⟨rules, cycle, step, members, more hm, hperm⟩

theorem Ordered.mono {rs : List RuleId} (h : Ordered g reported rs) : Ordered g reported' rs := by
  induction rs with
  | nil => trivial
  | cons r rs ih => exact ⟨fun t ht => (h.1 t ht).imp_right fun closes => closes.mono more, ih h.2⟩

end Mono

/-- Two ways to walk, which do the same, keep the walk sound and lead to everything with `Q`, as `M` tells. -/
def Walks {α : Type} (g : Grammar) (G : RuleId → Prop) (M : CycleWalk → RuleId → Prop) (Q : RuleId → Prop)
    (x y : Walking α) : Prop :=
  ∀ w, Sound g G w → x w = y w ∧ After x w fun _ w' => Sound g G w' ∧ Grows w w' ∧ ∀ t, Q t → M w' t

/-- A rule was left. -/
def Left (w : CycleWalk) (t : RuleId) : Prop := t ∈ w.walked

/-- A rule was left, or a call by `r` closes a reported cycle. -/
def Met (g : Grammar) (r : RuleId) (w : CycleWalk) (t : RuleId) : Prop := t ∈ w.walked ∨ Closes g w.reported r t

/-- What is so of a rule stays so. -/
def Lasting (M : CycleWalk → RuleId → Prop) : Prop := ∀ w w' t, Grows w w' → M w t → M w' t

theorem lasting_left : Lasting Left := fun _ _ _ grows h => grows.walked h

theorem lasting_met (r : RuleId) : Lasting (Met g r) := fun _ _ _ grows h =>
  h.imp (fun h => grows.walked h) fun h => h.mono grows.reported

/-! ## Parts of a walk -/

section Walks

variable {M : CycleWalk → RuleId → Prop} {Q Q₁ Q₂ : RuleId → Prop}

theorem Walks.weaken {α : Type} {x y : Walking α} (h : Walks g G M Q₁ x y) (hQ : ∀ t, Q t → Q₁ t) :
    Walks g G M Q x y := fun w hw =>
  ⟨(h w hw).1, (h w hw).2.mono fun _ _ ⟨hw', grows, all⟩ => ⟨hw', grows, fun t ht => all t (hQ t ht)⟩⟩

theorem Walks.met {α : Type} {x y : Walking α} (h : Walks g G Left Q x y) (r : RuleId) :
    Walks g G (Met g r) Q x y := fun w hw =>
  ⟨(h w hw).1, (h w hw).2.mono fun _ _ ⟨hw', grows, all⟩ => ⟨hw', grows, fun t ht => .inl (all t ht)⟩⟩

theorem walks_nothing {α : Type} {a : α} (h : ∀ t, ¬ Q t) : Walks g G M Q (pure a) (pure a) :=
  fun w hw => ⟨rfl, hw, .refl w, fun t ht => absurd ht (h t)⟩

theorem Walks.andThen {α β : Type} {x x' : Walking α} {f f' : α → Walking β} (h₁ : Walks g G M Q₁ x x')
    (h₂ : ∀ a, Walks g G M Q₂ (f a) (f' a)) (lasting : Lasting M) (hQ : ∀ t, Q t → Q₁ t ∨ Q₂ t) :
    Walks g G M Q (x >>= f) (x' >>= f') := by
  intro w hw
  obtain ⟨same₁, hw₁, grows₁, all₁⟩ := h₁ w hw
  obtain ⟨same₂, hw₂, grows₂, all₂⟩ := h₂ (x w).1 (x w).2 hw₁
  refine ⟨?_, hw₂, grows₁.trans grows₂, fun t ht => ?_⟩
  · show f (x w).1 (x w).2 = f' (x' w).1 (x' w).2
    rw [← same₁, same₂]
  · rcases hQ t ht with ht | ht
    · exact lasting _ _ t grows₂ (all₁ t ht)
    · exact all₂ t ht

theorem walks_forM {α : Type} {f f' : α → Walking Unit} {P : α → RuleId → Prop} (lasting : Lasting M) (as : List α)
    (h : ∀ a ∈ as, Walks g G M (P a) (f a) (f' a)) :
    Walks g G M (fun t => ∃ a ∈ as, P a t) (as.forM f) (as.forM f') := by
  induction as with
  | nil => exact walks_nothing fun t ⟨a, ha, _⟩ => by cases ha
  | cons a as ih =>
    refine (h a List.mem_cons_self).andThen (fun _ => ih fun a' ha => h a' (List.mem_cons_of_mem _ ha)) lasting ?_
    rintro t ⟨a', ha', ht⟩
    rcases List.mem_cons.1 ha' with rfl | ha'
    · exact .inl ht
    · exact .inr ⟨a', ha', ht⟩

/-! ## Reports -/

@[simp]
theorem span_step (rules : List RuleId) (length : Nat) (place : Span × Nat) :
    (step g rules length place).span = place.1 := by
  obtain ⟨span, i⟩ := place
  unfold step
  dsimp only
  split <;> rfl

/-- The last step of a cycle goes back to its first rule. -/
theorem last_step {rules : List RuleId} {r t : RuleId} (first : rules.head? = some t)
    (last : rules.getLast? = some r) : (r, t) ∈ roundTrip rules := by
  obtain ⟨before, hbefore⟩ := List.getLast?_eq_some_iff.1 last
  cases rules with
  | nil => cases first
  | cons t' after =>
    cases first
    have long : before.length = after.length := by simpa using (congrArg List.length hbefore).symm
    rw [roundTrip_cons, hbefore, List.zip_append long]
    simp

theorem reports_cycleError {rules : List RuleId} {references : List Span} {t : RuleId} {rule : Rule}
    (hrule : g.rule? t = some rule) (first : rules.head? = some t)
    (refers : List.Forall₂ (fun step span => RefersAt g step.1 step.2 span) (roundTrip rules) references) :
    Reports g rules (cycleError g rules references t) where
  severity := rfl
  message := by
    rw [List.take_one, first]
    simp [cycleError, toString]
  span := ⟨t, rule, first, hrule, by unfold cycleError; rw [hrule]; rfl⟩
  related := by
    unfold cycleError
    rw [List.forall₂_map_right_iff]
    simp only [span_step]
    rwa [← List.forall₂_map_right_iff (f := Prod.fst), List.zipIdx_map_fst]

/-- A way along a path back to one of its rules is reported, unless its rules were reported before. -/
theorem walks_report {rules : List RuleId} {references : List Span} {r t : RuleId} (nodup : rules.Nodup)
    (inside : ∀ r ∈ rules, G r) (exists_rule : ∃ rule, g.rule? t = some rule) (way : Way g t rules references)
    (first : rules.head? = some t) (last : rules.getLast? = some r) :
    Walks g G (Met g r) (· = t) (report g rules references t) (report g rules references t) := by
  intro w hw
  refine ⟨rfl, ?_⟩
  obtain ⟨rule, hrule⟩ := exists_rule
  obtain ⟨calls, refers⟩ := (List.forall₂_and_left _ _).1 (way.round first)
  have nonempty : rules ≠ [] := by
    rintro rfl
    cases first
  have cycle : LeftCycle g rules := ⟨nonempty, nodup, calls⟩
  have closes (reported : List (List RuleId)) (hm : rules.mergeSort (fun a b => a ≤ b) ∈ reported) :
      Closes g reported r t := ⟨rules, cycle, last_step first last, _, hm, List.mergeSort_perm _ _⟩
  unfold After report
  dsimp only
  split
  · rename_i before
    exact ⟨hw, .refl w, fun t' ht => ht ▸ .inr (closes _ (List.contains_iff_mem.1 before))⟩
  · have grows : w.reported ⊆ rules.mergeSort (fun a b => a ≤ b) :: w.reported := List.subset_cons_self _ _
    have names : Names g G rules (cycleError g rules references t) :=
      ⟨cycle, inside, reports_cycleError hrule first refers⟩
    refine ⟨⟨hw.consumption, ?_, ?_, hw.ordered.mono grows⟩, ⟨fun _ => id, grows⟩, fun t' ht => ?_⟩
    · exact List.forall_mem_cons.2 ⟨⟨rules, names⟩, hw.named⟩
    · refine List.forall_mem_cons.2 ⟨⟨_, List.mem_cons_self, rules, List.mergeSort_perm _ _, names⟩, fun members hm => ?_⟩
      obtain ⟨d, hd, named⟩ := hw.reported members hm
      exact ⟨d, List.mem_cons_of_mem _ hd, named⟩
    · subst ht
      exact .inr (closes _ List.mem_cons_self)

/-! ## Walks through expressions -/

/-- The references of an expression to rules with `Q` can be entered. -/
def Entered (g : Grammar) (G : RuleId → Prop) (M : CycleWalk → RuleId → Prop) (enter enter' : Span → RuleId → Walking Unit)
    (Q : RuleId → Prop) (e : Expr) : Prop :=
  ∀ i name t, Q t → .ruleRef i name (some t) ∈ e.preorder → Walks g G M (· = t) (enter i.span t) (enter' i.span t)

theorem Entered.part {enter enter' : Span → RuleId → Walking Unit} {e c : Expr} (h : Entered g G M enter enter' Q e)
    (hc : c ∈ e.children) (hQ : ∀ t, Q₁ t → Q t) : Entered g G M enter enter' Q₁ c := fun i name t ht hm =>
  h i name t (hQ t ht) (Expr.mem_preorder_of_child hc hm)

section Exprs

variable {consumes : Expr → Consumption.Asking Bool} {enter enter' : Span → RuleId → Walking Unit}
  (answers : ∀ e s, Consumption.Settled g s → consumes e s = Consumption.ofExprIn g e s)

include answers

/-- A part of a walk that is left out just where something is sure to be consumed. -/
theorem Walks.unless {e : Expr} {x y : Walking Unit} (h : ¬ Consumes g e → Walks g G M Q x y) :
    Walks g G M (fun t => ¬ Consumes g e ∧ Q t) (do if ← ask (consumes e) then return ⟨⟩ else x)
      (do if ← ask (Consumption.ofExprIn g e) then return ⟨⟩ else y) := by
  intro w hw
  have same : ask (consumes e) w = ask (Consumption.ofExprIn g e) w := by
    unfold ask
    rw [answers e _ hw.consumption]
  obtain ⟨settled, right⟩ := Consumption.settled_ofExprIn hw.consumption e
  have asked : Sound g G (ask (Consumption.ofExprIn g e) w).2 := ⟨settled, hw.named, hw.reported, hw.ordered⟩
  unfold After
  rw [bind_apply, bind_apply, same]
  cases hanswer : (ask (Consumption.ofExprIn g e) w).1 with
  | true => exact ⟨rfl, asked, ⟨fun _ => id, fun _ => id⟩, fun _ ht => absurd (right.1 hanswer) ht.1⟩
  | false =>
    have not : ¬ Consumes g e := fun h => Bool.false_ne_true (hanswer.symm.trans (right.2 h))
    obtain ⟨same, hw', grows, all⟩ := h not _ asked
    exact ⟨same, hw', ⟨grows.walked, grows.reported⟩, fun t ht => all t ht.2⟩

/-- A walk through elements enters whatever they lead to in their order. -/
theorem walks_inOrder (lasting : Lasting M) (es : List Expr)
    (each : ∀ e ∈ es, Entered g G M enter enter' (fun t => Leads g t e) e →
      Walks g G M (fun t => Leads g t e) (walkExpr consumes enter e) (walkExpr (Consumption.ofExprIn g) enter' e))
    (entered : ∀ e ∈ es, Entered g G M enter enter' (fun t => LeadsInOrder g t es) e) :
    Walks g G M (fun t => LeadsInOrder g t es) (walkInOrder consumes enter es)
      (walkInOrder (Consumption.ofExprIn g) enter' es) := by
  induction es with
  | nil => unfold walkInOrder LeadsInOrder; exact walks_nothing fun _ => id
  | cons e es ih =>
    have inFirst := each e List.mem_cons_self fun i name t ht => entered e List.mem_cons_self i name t (.inl ht)
    have inRest (may : ¬ Consumes g e) := ih (fun e' he => each e' (List.mem_cons_of_mem _ he)) fun e' he i name t ht =>
      entered e' (List.mem_cons_of_mem _ he) i name t (.inr ⟨may, ht⟩)
    unfold walkInOrder LeadsInOrder
    exact inFirst.andThen (fun _ => Walks.unless answers inRest) lasting fun _ => id

omit answers in
/-- A walk through alternatives enters whatever one of them leads to. -/
theorem walks_each (lasting : Lasting M) (es : List Expr)
    (each : ∀ e ∈ es, Entered g G M enter enter' (fun t => Leads g t e) e →
      Walks g G M (fun t => Leads g t e) (walkExpr consumes enter e) (walkExpr (Consumption.ofExprIn g) enter' e))
    (entered : ∀ e ∈ es, Entered g G M enter enter' (fun t => LeadsAny g t es) e) :
    Walks g G M (fun t => LeadsAny g t es) (walkEach consumes enter es)
      (walkEach (Consumption.ofExprIn g) enter' es) := by
  induction es with
  | nil => unfold walkEach LeadsAny; exact walks_nothing fun _ => id
  | cons e es ih =>
    have inFirst := each e List.mem_cons_self fun i name t ht => entered e List.mem_cons_self i name t (.inl ht)
    have inRest := ih (fun e' he => each e' (List.mem_cons_of_mem _ he)) fun e' he i name t ht =>
      entered e' (List.mem_cons_of_mem _ he) i name t (.inr ht)
    unfold walkEach LeadsAny
    exact inFirst.andThen (fun _ => inRest) lasting fun _ => id

/-- A walk through an expression enters whatever the expression leads to. -/
theorem walks_expr (lasting : Lasting M) (e : Expr) (entered : Entered g G M enter enter' (fun t => Leads g t e) e) :
    Walks g G M (fun t => Leads g t e) (walkExpr consumes enter e) (walkExpr (Consumption.ofExprIn g) enter' e) := by
  induction e using Expr.induction with
  | sequence i elements ih =>
    unfold walkExpr Leads
    exact walks_inOrder answers lasting elements ih fun e he => entered.part he fun _ => id
  | choice i first others ih ihs =>
    have inFirst := ih (entered.part List.mem_cons_self fun _ => .inl)
    have inOthers := walks_each lasting others ihs fun e he =>
      entered.part (List.mem_cons_of_mem _ he) fun _ => .inr
    unfold walkExpr Leads
    exact inFirst.andThen (fun _ => inOthers) lasting fun _ => id
  | repeated i body min max delimiter ih ihDelimiter =>
    cases delimiter with
    | none =>
      unfold walkExpr Leads
      exact ih (entered.part List.mem_cons_self fun _ => id)
    | some d =>
      have inBody := ih (entered.part List.mem_cons_self fun _ => .inl)
      have inDelimiter (may : ¬ Consumes g body) := ihDelimiter d rfl
        (entered.part (List.mem_cons_of_mem _ List.mem_cons_self) fun _ ht => .inr ⟨may, ht⟩)
      unfold walkExpr Leads
      exact inBody.andThen (fun _ => Walks.unless answers inDelimiter) lasting fun _ => id
  | ruleRef i name target =>
    cases target with
    | none => unfold walkExpr Leads; exact walks_nothing fun _ => id
    | some t =>
      unfold walkExpr Leads
      exact (entered i name t rfl (Expr.mem_preorder_self _)).weaken fun _ => Eq.symm
  | labeled i label pick body ih | action i body code ih _ | named i name body ih | text i body ih
  | oneOrMore i body ih | group i body ih | simpleAnd i body ih | simpleNot i body ih | optional i body ih
  | zeroOrMore i body ih =>
    unfold walkExpr Leads
    exact ih (entered.part List.mem_cons_self fun _ => id)
  | semanticAnd | semanticNot | literal | charClass | any =>
    unfold walkExpr Leads
    exact walks_nothing fun _ => id

end Exprs

/-! ## Walks through rules -/

/-- A path to a rule, on which no rule is twice, with fuel for all rules that are not on it. -/
structure Path.To (g : Grammar) (G : RuleId → Prop) (fuel : Nat) (path : Path) (r : RuleId) : Prop where
  nodup : (path.rules ++ [r]).Nodup
  inside : ∀ r' ∈ path.rules ++ [r], G r'
  way : Way g r path.rules path.references
  fuel : path.rules.length + fuel = g.rules.length + 1

theorem Path.To.start {r : RuleId} (hr : G r) : Path.To g G (g.rules.length + 1) ⟨[], []⟩ r where
  nodup := List.nodup_singleton r
  inside := by simpa using hr
  way := trivial
  fuel := Nat.zero_add _

theorem Path.To.onward {fuel : Nat} {path : Path} {r t : RuleId} {span : Span} (h : path.To g G (fuel + 1) r)
    (calls : LeftCalls g t r) (refers : RefersAt g r t span) (ht : G t) (fresh : t ∉ path.rules ++ [r]) :
    Path.To g G fuel ⟨path.rules ++ [r], path.references ++ [span]⟩ t where
  nodup := List.nodup_append.2 ⟨h.nodup, List.nodup_singleton t, fun a ha b hb e =>
    fresh (List.mem_singleton.1 hb ▸ e ▸ ha)⟩
  inside r' hr' := by
    rcases List.mem_append.1 hr' with hr' | hr'
    · exact h.inside r' hr'
    · rwa [List.mem_singleton.1 hr']
  way := h.way.concat calls refers
  fuel := by
    have := h.fuel
    rw [List.length_append, List.length_singleton]
    omega

section Rules

variable (hG : ∀ r, G r → r < g.rules.length)

include hG

/-- There are no more rules than those on the path. -/
theorem Path.To.fuel_pos {fuel : Nat} {path : Path} {r : RuleId} (h : path.To g G fuel r) : 0 < fuel := by
  have sub : path.rules ++ [r] ⊆ List.range g.rules.length := fun r hr => List.mem_range.2 (hG r (h.inside r hr))
  have hle := (List.subperm_of_subset h.nodup sub).length_le
  rw [List.length_range, List.length_append, List.length_singleton] at hle
  have := h.fuel
  omega

variable {consumes : Expr → Consumption.Asking Bool} (beyond : Path → RuleId → Walking Unit)
  (answers : ∀ e s, Consumption.Settled g s → consumes e s = Consumption.ofExprIn g e s)
  (hrefs : ∀ r, G r → ∀ e, g.Inside r e → ∀ t, e.target? = some t → G t)

include answers hrefs

/-- Whatever stands where the fuel ends, a rule at the end of a path is left, and the walk is the same. -/
theorem walks_rule (fuel : Nat) {path : Path} {r : RuleId} (h : path.To g G fuel r) :
    Walks g G Left (· = r) ((walkRuleVia g consumes)^[fuel] beyond path r) (walkRule g fuel path r) := by
  induction fuel generalizing path r with
  | zero => exact absurd (h.fuel_pos hG) (Nat.lt_irrefl 0)
  | succ fuel ih =>
    have hr : G r := h.inside r (by simp)
    obtain ⟨rule, hrule⟩ : ∃ rule, g.rule? r = some rule := ⟨_, List.getElem?_eq_getElem (hG r hr)⟩
    rw [Function.iterate_succ_apply']
    have body : Walks g G (Met g r) (fun t => Leads g t rule.body)
        (walkBody g consumes (path.rules ++ [r]) path.references ((walkRuleVia g consumes)^[fuel] beyond) r)
        (walkBody g (Consumption.ofExprIn g) (path.rules ++ [r]) path.references (walkRule g fuel) r) := by
      unfold walkBody
      rw [hrule]
      refine walks_expr answers (lasting_met r) rule.body fun i name t leads hm => ?_
      have calls : LeftCalls g t r := ⟨rule, hrule, leads⟩
      have refers : RefersAt g r t i.span := ⟨i, name, ⟨rule, hrule, hm⟩, rfl⟩
      have ht : G t := hrefs r hr _ ⟨rule, hrule, hm⟩ t rfl
      split
      · -- A reference back into the path closes the cycle of the path's rules from there on.
        rename_i start hstart
        obtain ⟨hlt, hget, -⟩ := List.idxOf?_eq_some_iff.1 hstart
        refine walks_report (h.nodup.sublist (List.drop_sublist _ _)) (fun r' hr' => h.inside r' (List.mem_of_mem_drop hr'))
          ⟨_, List.getElem?_eq_getElem (hG t ht)⟩ ((h.way.concat calls refers).drop start) ?_ ?_
        · rw [List.head?_drop, List.getElem?_eq_getElem hlt, hget]
        · rw [List.getLast?_drop, if_neg (Nat.not_le.2 hlt), List.getLast?_concat]
      · -- Any other rule is left before this one is.
        rename_i hidx
        exact (ih (h.onward calls refers ht (List.idxOf?_eq_none_iff.1 hidx))).met r
    intro w hw
    unfold walkRule walkRuleVia After
    rw [get_bind_apply, get_bind_apply]
    split
    · rename_i before
      exact ⟨rfl, hw, .refl w, fun t ht => ht ▸ List.contains_iff_mem.1 before⟩
    · obtain ⟨same, hw₁, grows, all⟩ := body w hw
      rw [bind_apply, bind_apply, ← same]
      refine ⟨rfl, ⟨hw₁.consumption, hw₁.named, hw₁.reported, ?_, hw₁.ordered⟩, ⟨?_, grows.reported⟩, ?_⟩
      · rintro t ⟨rule', hrule', leads⟩
        rw [hrule] at hrule'
        cases hrule'
        exact all t leads
      · exact fun r' hr' => List.mem_cons_of_mem _ (grows.walked hr')
      · exact fun t ht => ht ▸ List.mem_cons_self

/-- Rules each of which is walked from its start are left, whatever stands where the fuel ends. -/
theorem walks_rules {rs : List RuleId} (hrs : ∀ r ∈ rs, G r) :
    Walks g G Left (· ∈ rs) (rs.forM ((walkRuleVia g consumes)^[g.rules.length + 1] beyond ⟨[], []⟩))
      (rs.forM (walkRule g (g.rules.length + 1) ⟨[], []⟩)) :=
  (walks_forM (P := fun r t => t = r) lasting_left rs fun r hr =>
    walks_rule hG beyond answers hrefs _ (.start (hrs r hr))).weaken fun t ht => ⟨t, ht, rfl⟩

end Rules

end Walks

/-! ## Rules in the order in which they were left -/

/-- Calls on and on among rules that were left: one of them closes a reported cycle. -/
theorem Ordered.closes {reported : List (List RuleId)} {rs : List RuleId} {step : RuleId → RuleId → Prop}
    (h : Ordered g reported rs) (onward : ∀ r t, step r t → LeftCalls g t r ∧ ∃ t', step t t') {r t : RuleId}
    (hr : r ∈ rs) (hstep : step r t) : ∃ r t, step r t ∧ Closes g reported r t := by
  -- The rule that was left first calls none that was left before it.
  induction rs generalizing r t with
  | nil => cases hr
  | cons r' rs ih =>
    rcases List.mem_cons.1 hr with rfl | hr
    · obtain ⟨calls, t', hstep'⟩ := onward r t hstep
      rcases h.1 t calls with ht | closes
      · exact ih h.2 ht hstep'
      · exact ⟨r, t, hstep, closes⟩
    · exact ih h.2 hr hstep

theorem Ordered.acc {rs : List RuleId} (h : Ordered g [] rs) : ∀ r ∈ rs, Acc (LeftCalls g) r := by
  induction rs with
  | nil => intro r hr; cases hr
  | cons r rs ih =>
    obtain ⟨calls, earlier⟩ := h
    intro r' hr'
    rcases List.mem_cons.1 hr' with rfl | hr'
    · refine .intro _ fun t ht => ?_
      rcases calls t ht with ht | ⟨_, _, _, _, hm, _⟩
      · exact ih earlier t ht
      · cases hm
    · exact ih earlier r' hr'

end CycleWalk

/-! ## The whole search -/

section Search

variable {g : Grammar} {G : RuleId → Prop} (hG : ∀ r, G r → r < g.rules.length) (live : ∀ r ∈ g.liveIds, G r)
  (hrefs : ∀ r, G r → ∀ e, g.Inside r e → ∀ t, e.target? = some t → G t)

include hG live hrefs

/-- The search ends: whatever stands where its fuel and that of the questions about consumption end, it is the same. -/
theorem leftRecursion_beyond (beyondRule : RuleId → Consumption.Asking Bool)
    (beyond : CycleWalk.Path → RuleId → CycleWalk.Walking Unit) :
    (((g.liveIds.forM ((CycleWalk.walkRuleVia g (Consumption.ofExpr
      ((Consumption.ofRuleVia g)^[g.rules.length + 1] beyondRule)))^[g.rules.length + 1] beyond ⟨[], []⟩)).run
        default).2.reports).reverse = leftRecursion g := by
  have answers : ∀ e s, Consumption.Settled g s →
      Consumption.ofExpr ((Consumption.ofRuleVia g)^[g.rules.length + 1] beyondRule) e s = Consumption.ofExprIn g e s :=
    fun e s hs => (Consumption.settled_ask beyondRule (.expr e) hs).1
  have same := (CycleWalk.walks_rules hG beyond answers hrefs live default .start).1
  exact congrArg (fun after => after.2.reports.reverse) same

/-- What is left and reported at the end of the search. -/
theorem exists_search : ∃ w, leftRecursion g = w.reports.reverse ∧ CycleWalk.Sound g G w ∧
    ∀ r ∈ g.liveIds, r ∈ w.walked := by
  have walks := CycleWalk.walks_rules hG (CycleWalk.walkRule g 0) (fun _ _ _ => rfl) hrefs live
  obtain ⟨same, sound, -, left⟩ := walks default .start
  refine ⟨_, ?_, sound, left⟩
  exact congrArg (fun after => after.2.reports.reverse) same.symm

end Search

/-- Where no left recursion is reported, calls before anything is consumed end. -/
theorem acc_of_leftRecursion {g : Grammar} (h : ∀ d ∈ leftRecursion g, d.severity ≠ .error)
    (hrefs : ∀ r e, g.Inside r e → ∀ t, e.target? = some t → t < g.rules.length) :
    ∀ r ∈ g.liveIds, Acc (LeftCalls g) r := by
  obtain ⟨w, found, sound, left⟩ := exists_search (G := (· < g.rules.length)) (fun _ => id)
    (fun r hr => Grammar.lt_of_mem_liveIds hr) fun r _ => hrefs r
  have silent : w.reported = [] := by
    refine List.eq_nil_iff_forall_not_mem.2 fun members hm => ?_
    obtain ⟨d, hd, _, _, named⟩ := sound.reported members hm
    exact h d (by rwa [found, List.mem_reverse]) named.reports.severity
  have ordered := sound.ordered
  rw [silent] at ordered
  exact fun r hr => ordered.acc r (left r hr)

end PegCompiler.Analysis
