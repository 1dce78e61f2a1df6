/-
Expressions as trees: the host code they call, induction over them, and what an expression contains, by its direct
subexpressions.
-/
import Mathlib.Data.List.Perm.Basic
import PegCompiler.Grammar.Basic

namespace PegCompiler

/-! ## Host code -/

/-- The host code of a bound. -/
def Boundary.codes : Boundary → List HostCode
  | .computed code => [code]
  | .constant _ | .label _ => []

namespace Expr

/-- The host code that bounds an expression, if it is a repetition. -/
def bounds : Expr → List HostCode
  | repeated _ _ min max _ => min.elim [] Boundary.codes ++ max.codes
  | _ => []

/-- The host code that an expression calls itself. -/
def codes : Expr → List HostCode
  | action _ _ code | semanticAnd _ code | semanticNot _ code => [code]
  | e => e.bounds

/-! ## Induction over expressions -/

/-- The elements of a sequence. -/
def elements : Expr → List Expr
  | sequence _ elements => elements
  | _ => []

/-- Induction over expressions: of a list of expressions each one is known, and so are the elements of a sequence
under an action, which has no code of its own there. -/
@[elab_as_elim]
theorem induction {motive : Expr → Prop}
    (choice : ∀ i first others, motive first → (∀ e ∈ others, motive e) → motive (.choice i first others))
    (sequence : ∀ i elements, (∀ e ∈ elements, motive e) → motive (.sequence i elements))
    (labeled : ∀ i label pick body, motive body → motive (.labeled i label pick body))
    (action : ∀ i body code, motive body → (∀ e ∈ body.elements, motive e) → motive (.action i body code))
    (text : ∀ i body, motive body → motive (.text i body))
    (simpleAnd : ∀ i body, motive body → motive (.simpleAnd i body))
    (simpleNot : ∀ i body, motive body → motive (.simpleNot i body))
    (semanticAnd : ∀ i code, motive (.semanticAnd i code))
    (semanticNot : ∀ i code, motive (.semanticNot i code))
    (optional : ∀ i body, motive body → motive (.optional i body))
    (zeroOrMore : ∀ i body, motive body → motive (.zeroOrMore i body))
    (oneOrMore : ∀ i body, motive body → motive (.oneOrMore i body))
    (repeated : ∀ i body min max delimiter, motive body → (∀ d ∈ delimiter, motive d) →
      motive (.repeated i body min max delimiter))
    (group : ∀ i body, motive body → motive (.group i body))
    (ruleRef : ∀ i name target, motive (.ruleRef i name target))
    (literal : ∀ i value ignoreCase, motive (.literal i value ignoreCase))
    (charClass : ∀ i k, motive (.charClass i k))
    (any : ∀ i, motive (.any i))
    (named : ∀ i name body, motive body → motive (.named i name body)) (e : Expr) : motive e := by
  have none : ∀ e : Expr, ∀ e' ∈ ([] : List Expr), motive e' := fun _ e' he => by cases he
  refine And.left (b := ∀ e' ∈ e.elements, motive e') ?_
  exact @Expr.rec (fun e => motive e ∧ ∀ e' ∈ e.elements, motive e') (fun es => ∀ e ∈ es, motive e)
    (fun d => ∀ e ∈ d, motive e)
    (fun i first others h hs => ⟨choice i first others h.1 hs, none first⟩)
    (fun i elements hs => ⟨sequence i elements hs, hs⟩)
    (fun i label pick body h => ⟨labeled i label pick body h.1, none body⟩)
    (fun i body code h => ⟨action i body code h.1 h.2, none body⟩)
    (fun i body h => ⟨text i body h.1, none body⟩)
    (fun i body h => ⟨simpleAnd i body h.1, none body⟩)
    (fun i body h => ⟨simpleNot i body h.1, none body⟩)
    (fun i code => ⟨semanticAnd i code, none e⟩)
    (fun i code => ⟨semanticNot i code, none e⟩)
    (fun i body h => ⟨optional i body h.1, none body⟩)
    (fun i body h => ⟨zeroOrMore i body h.1, none body⟩)
    (fun i body h => ⟨oneOrMore i body h.1, none body⟩)
    (fun i body min max d h hd => ⟨repeated i body min max d h.1 hd, none body⟩)
    (fun i body h => ⟨group i body h.1, none body⟩)
    (fun i name target => ⟨ruleRef i name target, none e⟩)
    (fun i value ignoreCase => ⟨literal i value ignoreCase, none e⟩)
    (fun i k => ⟨charClass i k, none e⟩)
    (fun i => ⟨any i, none e⟩)
    (fun i name body h => ⟨named i name body h.1, none body⟩)
    (fun e' he => by cases he)
    (fun e es h hs e' he => by
      rcases List.mem_cons.1 he with rfl | he
      · exact h.1
      · exact hs e' he)
    (fun e' he => by cases he)
    (fun e h e' he => by cases he; exact h.1) e

/-- An action is on a sequence or on something else. -/
theorem action_cases {motive : Prop} (body : Expr) (sequence : ∀ i elements, body = .sequence i elements → motive)
    (other : (∀ i elements, body = .sequence i elements → False) → motive) : motive := by
  by_cases h : ∃ i elements, body = .sequence i elements
  · obtain ⟨i, elements, rfl⟩ := h
    exact sequence i elements rfl
  · exact other fun i elements e => h ⟨i, elements, e⟩

/-! ## What an expression contains -/

theorem preorderAll_eq (es : List Expr) : preorderAll es = es.flatMap preorder := by
  induction es with
  | nil => rfl
  | cons e es ih => rw [preorderAll, ih, List.flatMap_cons]

theorem postorderAll_eq (es : List Expr) : postorderAll es = es.flatMap postorder := by
  induction es with
  | nil => rfl
  | cons e es ih => rw [postorderAll, ih, List.flatMap_cons]

/-- An expression comes before what its direct subexpressions contain. -/
theorem preorder_eq (e : Expr) : e.preorder = e :: e.children.flatMap preorder := by
  cases e with
  | choice i first others => simp [preorder, children, preorderAll_eq]
  | sequence i elements => simp [preorder, children, preorderAll_eq]
  | repeated i body min max delimiter => cases delimiter <;> simp [preorder, children]
  | _ => simp [preorder, children]

/-- An expression comes after what its direct subexpressions contain. -/
theorem postorder_eq (e : Expr) : e.postorder = e.children.flatMap postorder ++ [e] := by
  cases e with
  | choice i first others => simp [postorder, children, postorderAll_eq]
  | sequence i elements => simp [postorder, children, postorderAll_eq]
  | repeated i body min max delimiter => cases delimiter <;> simp [postorder, children]
  | _ => simp [postorder, children]

/-- Induction over expressions by their direct subexpressions. -/
theorem induction_children {motive : Expr → Prop} (h : ∀ e, (∀ c ∈ e.children, motive c) → motive e) (e : Expr) :
    motive e := by
  induction e using induction with
  | choice i first others hf hs =>
    exact h _ fun c hc => (List.mem_cons.1 hc).elim (fun e => e ▸ hf) (hs c)
  | sequence i elements hs => exact h _ hs
  | labeled _ _ _ body hb | text _ body hb | simpleAnd _ body hb | simpleNot _ body hb | optional _ body hb
  | zeroOrMore _ body hb | oneOrMore _ body hb | group _ body hb | named _ _ body hb | action _ body _ hb _ =>
    exact h _ fun c hc => List.mem_singleton.1 hc ▸ hb
  | repeated i body min max delimiter hb hd =>
    exact h _ fun c hc => (List.mem_cons.1 hc).elim (fun e => e ▸ hb) fun hc => hd c (Option.mem_toList.1 hc)
  | semanticAnd | semanticNot | ruleRef | literal | charClass | any => exact h _ fun c hc => by cases hc

theorem mem_preorder_self (e : Expr) : e ∈ e.preorder := by
  rw [preorder_eq]; exact List.mem_cons_self

theorem mem_preorder_of_child {e c e' : Expr} (hc : c ∈ e.children) (h : e' ∈ c.preorder) : e' ∈ e.preorder := by
  rw [preorder_eq]
  exact List.mem_cons_of_mem _ (List.mem_flatMap.2 ⟨c, hc, h⟩)

theorem mem_preorder_trans {e e' e'' : Expr} (h : e' ∈ e.preorder) (h' : e'' ∈ e'.preorder) : e'' ∈ e.preorder := by
  induction e using induction_children with
  | h e ih =>
    rw [preorder_eq] at h
    rcases List.mem_cons.1 h with rfl | h
    · exact h'
    · obtain ⟨c, hc, h⟩ := List.mem_flatMap.1 h
      exact mem_preorder_of_child hc (ih c hc h)

/-- Both orders list the same expressions. -/
theorem postorder_perm_preorder (e : Expr) : e.postorder.Perm e.preorder := by
  induction e using induction_children with
  | h e ih =>
    rw [preorder_eq, postorder_eq]
    refine List.perm_append_singleton e _ |>.trans (.cons e ?_)
    exact List.Perm.flatMap_left _ ih

end Expr

/-! ## Rules -/

namespace Grammar

/-- The rule with a number, unless it was removed. -/
def live? (g : Grammar) (r : RuleId) : Option Rule := if g.removed.contains r then none else g.rule? r

theorem mem_numbered {g : Grammar} {r : RuleId} {rule : Rule} : (r, rule) ∈ g.numbered ↔ g.rule? r = some rule := by
  unfold numbered rule?
  rw [List.mem_map]
  constructor
  · rintro ⟨⟨rule', r'⟩, h, he⟩
    cases he
    exact (List.mem_zipIdx_iff_getElem?).1 h
  · intro h; exact ⟨(rule, r), List.mem_zipIdx_iff_getElem?.2 h, rfl⟩

theorem mem_live {g : Grammar} {r : RuleId} {rule : Rule} : (r, rule) ∈ g.live ↔ g.live? r = some rule := by
  unfold live live?
  rw [List.mem_filter, mem_numbered]
  by_cases h : r ∈ g.removed <;> simp [h]

theorem mem_liveIds {g : Grammar} {r : RuleId} : r ∈ g.liveIds ↔ ∃ rule, g.live? r = some rule := by
  unfold liveIds
  rw [List.mem_map]
  constructor
  · rintro ⟨⟨r', rule⟩, h, rfl⟩; exact ⟨rule, mem_live.1 h⟩
  · rintro ⟨rule, h⟩; exact ⟨(r, rule), mem_live.2 h, rfl⟩

theorem rule?_of_live? {g : Grammar} {r : RuleId} {rule : Rule} (h : g.live? r = some rule) :
    g.rule? r = some rule := by
  unfold live? at h
  split at h
  · cases h
  · exact h

theorem lt_of_mem_liveIds {g : Grammar} {r : RuleId} (h : r ∈ g.liveIds) : r < g.rules.length := by
  obtain ⟨rule, hr⟩ := mem_liveIds.1 h
  exact (List.getElem?_eq_some_iff.1 (rule?_of_live? hr)).1

end Grammar

end PegCompiler
