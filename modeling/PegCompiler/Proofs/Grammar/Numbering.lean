/-
The numbers of expressions, and the rules that references stand for. In a grammar that was built no two
expressions have one number, so a table by number can be changed for one expression without a change for
any other.
-/
import Mathlib.Data.List.Nodup
import Mathlib.Logic.Relation
import PegCompiler.Proofs.Grammar.Basic

namespace PegCompiler

/-- The numbers of expressions and of all they contain. -/
def Expr.ids (es : List Expr) : List ExprId := (es.flatMap Expr.preorder).map Expr.id

namespace Expr

theorem mem_ids {es : List Expr} {i : ExprId} : i ∈ ids es ↔ ∃ e ∈ es, ∃ e' ∈ e.preorder, e'.id = i := by
  unfold ids
  rw [List.mem_map]
  constructor
  · rintro ⟨e', he', rfl⟩
    obtain ⟨e, he, he'⟩ := List.mem_flatMap.1 he'
    exact ⟨e, he, e', he', rfl⟩
  · rintro ⟨e, he, e', he', rfl⟩
    exact ⟨e', List.mem_flatMap.2 ⟨e, he, he'⟩, rfl⟩

theorem ids_append (es es' : List Expr) : ids (es ++ es') = ids es ++ ids es' := by
  unfold ids; rw [List.flatMap_append, List.map_append]

theorem ids_singleton (e : Expr) : ids [e] = e.id :: ids e.children := by
  unfold ids
  rw [List.flatMap_singleton, preorder_eq, List.map_cons]

theorem preorder_sublist {e e' : Expr} (h : e' ∈ e.preorder) : e'.preorder.Sublist e.preorder := by
  induction e using induction_children with
  | h e ih =>
    rw [preorder_eq e] at h
    rcases List.mem_cons.1 h with rfl | h
    · exact .refl _
    · obtain ⟨c, hc, h⟩ := List.mem_flatMap.1 h
      rw [preorder_eq e]
      refine .cons _ ((ih c hc h).trans ?_)
      rw [List.flatMap_def]
      exact List.sublist_flatten_of_mem (List.mem_map.2 ⟨c, hc, rfl⟩)

end Expr

/-- A reference stands for one of so many rules. -/
def Expr.Resolves (rules : Nat) : Expr → Prop
  | .ruleRef _ _ target => ∃ t, target = some t ∧ t < rules
  | _ => True

namespace Grammar

/-- The expression is a rule's body or inside it. -/
def Inside (g : Grammar) (r : RuleId) (e : Expr) : Prop := ∃ rule, g.rule? r = some rule ∧ e ∈ rule.body.preorder

/-- References stand for rules there are. -/
def Resolved (g : Grammar) : Prop := ∀ r e, g.Inside r e → e.Resolves g.rules.length

/-- A reference inside the rule stands for the other one. -/
def Refers (g : Grammar) (r t : RuleId) : Prop := ∃ e, g.Inside r e ∧ e.target? = some t

/-- References lead from the rule to the other one, or they are the same. -/
def LeadsTo (g : Grammar) : RuleId → RuleId → Prop := Relation.ReflTransGen g.Refers

/-- No two expressions have one number, and numbers are less than a size. -/
structure Numbered (g : Grammar) (size : Nat) : Prop where
  distinct : (Expr.ids (g.rules.map (·.body))).Nodup
  bounded : ∀ i ∈ Expr.ids (g.rules.map (·.body)), i < size

variable {g : Grammar} {size : Nat} {r r' : RuleId} {e e' : Expr}

theorem Inside.mem (h : g.Inside r e) : ∃ body ∈ g.rules.map (·.body), e ∈ body.preorder := by
  obtain ⟨rule, hr, he⟩ := h
  exact ⟨rule.body, List.mem_map.2 ⟨rule, List.mem_of_getElem? hr, rfl⟩, he⟩

theorem Inside.trans (h : g.Inside r e) (he : e' ∈ e.preorder) : g.Inside r e' := by
  obtain ⟨rule, hr, h⟩ := h
  exact ⟨rule, hr, Expr.mem_preorder_trans h he⟩

theorem Inside.child (h : g.Inside r e) (hc : e' ∈ e.children) : g.Inside r e' :=
  h.trans (Expr.mem_preorder_of_child hc (Expr.mem_preorder_self e'))

/-- In rules whose references stand for rules, no reference stands for nothing. -/
theorem Resolved.known (h : g.Resolved) {rule : Rule} (hr : g.live? r = some rule) (he : e ∈ rule.body.preorder)
    (i : Expr.Info) (name : String) : .ruleRef i name none ∉ e.preorder := by
  intro hi
  obtain ⟨t, ht, -⟩ := h r _ ⟨rule, rule?_of_live? hr, Expr.mem_preorder_trans he hi⟩
  cases ht

namespace Numbered

theorem lt (hg : g.Numbered size) (h : g.Inside r e) : e.id < size := by
  obtain ⟨body, hb, he⟩ := h.mem
  exact hg.bounded _ (Expr.mem_ids.2 ⟨body, hb, e, he, rfl⟩)

theorem nodup (hg : g.Numbered size) (h : g.Inside r e) : (Expr.ids [e]).Nodup := by
  obtain ⟨body, hb, he⟩ := h.mem
  have whole := hg.distinct
  unfold Expr.ids at whole ⊢
  rw [List.flatMap_singleton]
  refine List.Nodup.sublist (List.Sublist.map _ ((Expr.preorder_sublist he).trans ?_)) whole
  rw [List.flatMap_def]
  exact List.sublist_flatten_of_mem (List.mem_map.2 ⟨body, hb, rfl⟩)

/-- Expressions of different rules have different numbers. -/
theorem ne (hg : g.Numbered size) (h : g.Inside r e) (h' : g.Inside r' e') (hr : r ≠ r') : e.id ≠ e'.id := by
  obtain ⟨rule, hrule, he⟩ := h
  obtain ⟨rule', hrule', he'⟩ := h'
  have whole := hg.distinct
  unfold Expr.ids at whole
  rw [List.map_flatMap, List.flatMap_map, List.nodup_flatMap] at whole
  obtain ⟨hlt, rfl⟩ := List.getElem?_eq_some_iff.1 hrule
  obtain ⟨hlt', rfl⟩ := List.getElem?_eq_some_iff.1 hrule'
  have apart := List.pairwise_iff_getElem.1 whole.2
  have hm := List.mem_map_of_mem (f := Expr.id) he
  have hm' := List.mem_map_of_mem (f := Expr.id) he'
  intro heq
  rcases Nat.lt_or_gt_of_ne hr with hl | hl
  · exact apart r r' hlt hlt' hl hm (heq ▸ hm')
  · exact apart r' r hlt' hlt hl hm' (heq ▸ hm)

end Numbered

end Grammar

end PegCompiler
