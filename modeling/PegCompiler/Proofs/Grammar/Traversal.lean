/-
Going over a rule by a stack is going over the tree of its body. A stack holds the numbers of expressions whose turn is
still to come, in reverse; the step takes the last of them and puts its direct subexpressions in its place. So the
expressions inside the last one are gone over before anything below it on the stack, by induction over that expression.
In a grammar that was built numbers lead to their expressions, and no two expressions have one number.
-/
import PegCompiler.Grammar.Traversal
import PegCompiler.Proofs.Building

namespace PegCompiler

open Relation (ReflTransGen)

theorem reverseFrom_append {α : Type} (l l' : List α) : reverseFrom l.length (l ++ l') = l ++ l'.reverse := by
  unfold reverseFrom
  rw [List.take_left, List.drop_left]

namespace Expr

/-- The stack on which an expression is followed by what comes after it. -/
def pending (es : List Expr) : List ExprId := (es.map Expr.id).reverse

theorem pending_cons (e : Expr) (es : List Expr) : pending (e :: es) = pending es ++ [e.id] := by
  unfold pending
  rw [List.map_cons, List.reverse_cons]

theorem pending_append (es es' : List Expr) : pending (es ++ es') = pending es' ++ (es.map Expr.id).reverse := by
  unfold pending
  rw [List.map_append, List.reverse_append]

/-- Expressions keep their order in what they contain. -/
theorem sublist_flatMap_preorder (es : List Expr) : es.Sublist (es.flatMap preorder) := by
  induction es with
  | nil => exact .refl _
  | cons e es ih =>
    rw [List.flatMap_cons, preorder_eq e, List.cons_append]
    exact (ih.trans (List.sublist_append_right ..)).cons_cons e

/-- An expression and its direct subexpressions stand one after the other in the list of all it contains. -/
theorem cons_children_sublist_preorder (e : Expr) : (e :: e.children).Sublist e.preorder := by
  rw [preorder_eq]
  exact (sublist_flatMap_preorder e.children).cons_cons e

end Expr

namespace Grammar

variable {g : Grammar} {e : Expr}

/-- The number of an expression leads to that of a direct subexpression. -/
def Child (g : Grammar) (parent child : ExprId) : Prop :=
  ∃ e, g.arena[parent]? = some e ∧ child ∈ e.children.map Expr.id

/-! ## The walk -/

theorem visit_nil (out : List ExprId) : g.visit out (Expr.pending []) = some out := by
  rw [visit]
  rfl

/-- A step takes the expression whose turn it is, and its direct subexpressions are next. -/
theorem visit_cons (h : g.arena[e.id]? = some e) (out : List ExprId) (es : List Expr) :
    g.visit out (Expr.pending (e :: es)) = g.visit (out ++ [e.id]) (Expr.pending (e.children ++ es)) := by
  rw [visit, Expr.pending_cons, List.getLast?_concat, List.dropLast_concat]
  show (g.arena[e.id]?.bind fun e' => g.visit _ (reverseFrom _ (_ ++ e'.children.map Expr.id))) = _
  rw [h, Option.bind_some, reverseFrom_append, Expr.pending_append]

/-- All that an expression contains is gone over before what is below it on the stack. -/
theorem visit_subtree (h : Arranged g.arena) (he : e ∈ g.arena) (out : List ExprId) (es : List Expr) :
    g.visit out (Expr.pending (e :: es)) = g.visit (out ++ e.preorder.map Expr.id) (Expr.pending es) := by
  induction e using Expr.induction_children generalizing out es with
  | h e ih =>
    -- one subexpression after the other, from the left
    have children : ∀ cs : List Expr, (∀ c ∈ cs, c ∈ e.children) → ∀ out : List ExprId,
        g.visit out (Expr.pending (cs ++ es)) =
          g.visit (out ++ (cs.flatMap Expr.preorder).map Expr.id) (Expr.pending es) := by
      intro cs hcs
      induction cs with
      | nil =>
        intro out
        rw [List.flatMap_nil, List.map_nil, List.append_nil, List.nil_append]
      | cons c cs ihs =>
        intro out
        have hc := hcs c List.mem_cons_self
        rw [List.cons_append, ih c hc (h.mem_of_child he hc), ihs fun d hd => hcs d (List.mem_cons_of_mem c hd),
          List.flatMap_cons, List.map_append, List.append_assoc]
    rw [visit_cons (h.found e he), children e.children (fun _ hc => hc), Expr.preorder_eq e, List.map_cons,
      List.append_assoc, List.singleton_append]

/-! ## What is reached -/

section Arranged

variable (h : Arranged g.arena)
include h

theorem Arranged.mem_of_mem_preorder (he : e ∈ g.arena) {e' : Expr} (he' : e' ∈ e.preorder) : e' ∈ g.arena :=
  (h.closed e he).mem ((Expr.postorder_perm_preorder e).mem_iff.2 he')

theorem Arranged.child_iff (he : e ∈ g.arena) {handle : ExprId} :
    g.Child e.id handle ↔ ∃ c ∈ e.children, c.id = handle := by
  unfold Child
  rw [h.found e he]
  constructor
  · rintro ⟨e', heq, hchild⟩
    cases heq
    exact List.mem_map.1 hchild
  · intro hchild
    exact ⟨e, rfl, List.mem_map.2 hchild⟩

/-- The numbers of what an expression contains are those that direct subexpressions lead to. -/
theorem Arranged.reaches_iff (he : e ∈ g.arena) {handle : ExprId} :
    ReflTransGen g.Child e.id handle ↔ handle ∈ e.preorder.map Expr.id := by
  constructor
  · intro reached
    induction reached with
    | refl => exact List.mem_map_of_mem e.mem_preorder_self
    | tail _ hchild ih =>
      obtain ⟨e', he', rfl⟩ := List.mem_map.1 ih
      obtain ⟨c, hc, rfl⟩ := (h.child_iff (h.mem_of_mem_preorder he he')).1 hchild
      exact List.mem_map_of_mem (Expr.mem_preorder_trans he' (Expr.mem_preorder_of_child hc c.mem_preorder_self))
  · intro hin
    obtain ⟨e', he', rfl⟩ := List.mem_map.1 hin
    clear hin
    induction e using Expr.induction_children with
    | h e ih =>
      rw [Expr.preorder_eq] at he'
      rcases List.mem_cons.1 he' with rfl | he'
      · exact .refl
      · obtain ⟨c, hc, he'⟩ := List.mem_flatMap.1 he'
        exact .head ((h.child_iff he).2 ⟨c, hc, rfl⟩) (ih c hc (h.mem_of_child he hc) he')

end Arranged

/-! ## Rules -/

/-- How a list of numbers goes over the body of a rule. -/
structure Traverses (g : Grammar) (rule : Rule) (handles : List ExprId) : Prop where
  /-- It is the body, then what its direct subexpressions contain, one after the other from the left, and so on. -/
  preorder : handles = rule.body.preorder.map Expr.id
  /-- The numbers lead to these expressions. -/
  found : handles.map (g.arena[·]?) = rule.body.preorder.map some
  /-- They are the ones that direct subexpressions lead to, which those of a reference never do. -/
  reached : ∀ handle, handle ∈ handles ↔ ReflTransGen g.Child rule.body.id handle
  once : handles.Nodup
  /-- A parent comes before its direct subexpressions, and these come in their order, a delimiter after the body. -/
  ordered : ∀ e ∈ rule.body.preorder, (e.id :: e.children.map Expr.id).Sublist handles

theorem Built.ruleExprs_eq (h : g.Built) {r : RuleId} {rule : Rule} (hr : g.rule? r = some rule) :
    g.ruleExprs r = some (rule.body.preorder.map Expr.id) := by
  have body : rule.body ∈ g.arena := List.mem_flatMap.2 ⟨rule, List.mem_of_getElem? hr, rule.body.mem_postorder_self⟩
  unfold ruleExprs
  rw [hr]
  exact (visit_subtree h.arranged body [] []).trans (visit_nil _)

theorem Built.traverses (h : g.Built) {r : RuleId} {rule : Rule} (hr : g.rule? r = some rule) :
    g.Traverses rule (rule.body.preorder.map Expr.id) := by
  have body : rule.body ∈ g.arena := List.mem_flatMap.2 ⟨rule, List.mem_of_getElem? hr, rule.body.mem_postorder_self⟩
  refine ⟨rfl, ?_, fun handle => (h.arranged.reaches_iff body).symm, ?_, fun e he => ?_⟩
  · rw [List.map_map]
    exact List.map_congr_left fun e he => h.arranged.found e (h.arranged.mem_of_mem_preorder body he)
  · have distinct := h.numbered.nodup ⟨rule, hr, rule.body.mem_preorder_self⟩
    unfold Expr.ids at distinct
    rwa [List.flatMap_singleton] at distinct
  · exact (e.cons_children_sublist_preorder.trans (Expr.preorder_sublist he)).map Expr.id

/-- In a grammar that was built from a draft, going over a rule comes to an end, with the expressions of its body in the
order of the tree, each of them once; and no expression belongs to two rules. -/
theorem rules_are_traversed {d : Draft} (hd : d.build? = .ok g) :
    (∀ r rule, g.rule? r = some rule → ∃ handles, g.ruleExprs r = some handles ∧ g.Traverses rule handles) ∧
      ∀ r r' handles handles', r ≠ r' → g.ruleExprs r = some handles → g.ruleExprs r' = some handles' →
        handles.Disjoint handles' := by
  have built := Draft.built hd
  refine ⟨fun r rule hr => ⟨_, built.ruleExprs_eq hr, built.traverses hr⟩, fun r r' handles handles' hne hh hh' => ?_⟩
  have some_rule : ∀ r handles, g.ruleExprs r = some handles →
      ∃ rule, g.rule? r = some rule ∧ handles = rule.body.preorder.map Expr.id := by
    intro r handles hh
    obtain ⟨rule, hr, -⟩ := Option.bind_eq_some_iff.1 hh
    rw [built.ruleExprs_eq hr] at hh
    exact ⟨rule, hr, (Option.some.inj hh).symm⟩
  obtain ⟨rule, hr, rfl⟩ := some_rule r handles hh
  obtain ⟨rule', hr', rfl⟩ := some_rule r' handles' hh'
  intro handle hin hin'
  obtain ⟨e, he, rfl⟩ := List.mem_map.1 hin
  obtain ⟨e', he', heq⟩ := List.mem_map.1 hin'
  exact built.numbered.ne ⟨rule, hr, he⟩ ⟨rule', hr', he'⟩ hne heq.symm

open Draft.Expr in
/-- `Start = "a"|2, B|` and `B = "b" "c"`. -/
def delimited : Draft :=
  ⟨none, none,
    [.of "Start" (.repeated .empty (exactly "a") none (.constant (some 2)) (some (.ruleRef .empty "B"))) none,
      .of "B" (.sequence .empty [exactly "b", exactly "c"]) none]⟩

/-- The handles of the repetition, its body and its delimiter, which is a reference; and those of the other rule. -/
theorem rules_are_traversed_delimited : ∃ g, delimited.build? = .ok g ∧ g.ruleExprs 0 = some [2, 0, 1] ∧
    g.ruleExprs 1 = some [5, 3, 4] ∧ List.Disjoint [2, 0, 1] [5, 3, 4] := by
  obtain ⟨g, hg, rules⟩ : ∃ g, delimited.build? = .ok g ∧ ∃ start other, g.rule? 0 = some start ∧
      g.rule? 1 = some other ∧ start.body.preorder.map Expr.id = [2, 0, 1] ∧
      other.body.preorder.map Expr.id = [5, 3, 4] := ⟨_, rfl, _, _, rfl, rfl, rfl, rfl⟩
  obtain ⟨start, other, hstart, hother, first, second⟩ := rules
  obtain ⟨traversed, apart⟩ := rules_are_traversed hg
  obtain ⟨handles, run, h⟩ := traversed 0 start hstart
  obtain ⟨handles', run', h'⟩ := traversed 1 other hother
  rw [h.preorder, first] at run
  rw [h'.preorder, second] at run'
  exact ⟨g, hg, run, run', apart 0 1 _ _ (by decide) run run'⟩

end Grammar

end PegCompiler
