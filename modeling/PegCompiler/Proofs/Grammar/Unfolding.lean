/-
Expressions of a grammar against the expressions of a draft. `definition` forgets the numbers of an expression and the
rules that its references stand for; what it gives is also found by following numbers through a list of expressions
(`unfold`), as long as every number leads to its expression and those inside an expression are smaller.
-/
import PegCompiler.Proofs.Grammar.Numbering

namespace PegCompiler

namespace Draft.Expr

/-- The direct subexpressions, left to right; a repetition's body comes before its delimiter. -/
def children : Draft.Expr → List Draft.Expr
  | choice _ alternatives => alternatives
  | sequence _ elements => elements
  | labeled _ _ _ _ body | action _ body _ | text _ body | simpleAnd _ body | simpleNot _ body | optional _ body
  | zeroOrMore _ body | oneOrMore _ body | group _ body | named _ _ body => [body]
  | repeated _ body _ _ delimiter => body :: delimiter.toList
  | semanticAnd .. | semanticNot .. | ruleRef .. | literal .. | charClass .. | any .. => []

mutual

/-- The expression and all it contains, left to right and children before parents. -/
def postorder : Draft.Expr → List Draft.Expr
  | choice span alternatives => postorderAll alternatives ++ [choice span alternatives]
  | sequence span elements => postorderAll elements ++ [sequence span elements]
  | labeled span label labelSpan pick body => body.postorder ++ [labeled span label labelSpan pick body]
  | action span body code => body.postorder ++ [action span body code]
  | text span body => body.postorder ++ [text span body]
  | simpleAnd span body => body.postorder ++ [simpleAnd span body]
  | simpleNot span body => body.postorder ++ [simpleNot span body]
  | optional span body => body.postorder ++ [optional span body]
  | zeroOrMore span body => body.postorder ++ [zeroOrMore span body]
  | oneOrMore span body => body.postorder ++ [oneOrMore span body]
  | repeated span body min max none => body.postorder ++ [repeated span body min max none]
  | repeated span body min max (some delimiter) =>
    body.postorder ++ delimiter.postorder ++ [repeated span body min max (some delimiter)]
  | group span body => body.postorder ++ [group span body]
  | named span name body => body.postorder ++ [named span name body]
  | e@(semanticAnd ..) | e@(semanticNot ..) | e@(ruleRef ..) | e@(literal ..) | e@(charClass ..) | e@(any ..) => [e]

def postorderAll : List Draft.Expr → List Draft.Expr
  | [] => []
  | e :: es => e.postorder ++ postorderAll es

end

mutual

/-- The expression without the places of labels that there are not. -/
def tidied : Draft.Expr → Draft.Expr
  | choice span alternatives => choice span (tidiedAll alternatives)
  | sequence span elements => sequence span (tidiedAll elements)
  | labeled span none _ pick body => labeled span none .empty pick body.tidied
  | labeled span (some label) labelSpan pick body => labeled span (some label) labelSpan pick body.tidied
  | action span body code => action span body.tidied code
  | text span body => text span body.tidied
  | simpleAnd span body => simpleAnd span body.tidied
  | simpleNot span body => simpleNot span body.tidied
  | optional span body => optional span body.tidied
  | zeroOrMore span body => zeroOrMore span body.tidied
  | oneOrMore span body => oneOrMore span body.tidied
  | repeated span body min max none => repeated span body.tidied min max none
  | repeated span body min max (some delimiter) => repeated span body.tidied min max (some delimiter.tidied)
  | group span body => group span body.tidied
  | named span name body => named span name body.tidied
  | e@(semanticAnd ..) | e@(semanticNot ..) | e@(ruleRef ..) | e@(literal ..) | e@(charClass ..) | e@(any ..) => e

def tidiedAll : List Draft.Expr → List Draft.Expr
  | [] => []
  | e :: es => e.tidied :: tidiedAll es

end

theorem postorderAll_eq (es : List Draft.Expr) : postorderAll es = es.flatMap postorder := by
  induction es with
  | nil => rfl
  | cons e es ih => rw [postorderAll, ih, List.flatMap_cons]

theorem tidiedAll_eq (es : List Draft.Expr) : tidiedAll es = es.map tidied := by
  induction es with
  | nil => rfl
  | cons e es ih => rw [tidiedAll, ih, List.map_cons]

/-- An expression comes after what its direct subexpressions contain. -/
theorem postorder_eq (d : Draft.Expr) : d.postorder = d.children.flatMap postorder ++ [d] := by
  cases d with
  | choice span alternatives => simp [postorder, children, postorderAll_eq]
  | sequence span elements => simp [postorder, children, postorderAll_eq]
  | repeated span body min max delimiter => cases delimiter <;> simp [postorder, children]
  | _ => simp [postorder, children]

theorem children_tidied (d : Draft.Expr) : d.tidied.children = d.children.map tidied := by
  cases d with
  | choice span alternatives => simp [tidied, children, tidiedAll_eq]
  | sequence span elements => simp [tidied, children, tidiedAll_eq]
  | labeled span label labelSpan pick body => cases label <;> simp [tidied, children]
  | repeated span body min max delimiter => cases delimiter <;> simp [tidied, children]
  | _ => simp [tidied, children]

theorem sizeOf_lt_of_child {c d : Draft.Expr} (h : c ∈ d.children) : sizeOf c < sizeOf d := by
  cases d with
  | choice span alternatives =>
    have : sizeOf c < sizeOf alternatives := List.sizeOf_lt_of_mem h
    simp only [choice.sizeOf_spec]; omega
  | sequence span elements =>
    have : sizeOf c < sizeOf elements := List.sizeOf_lt_of_mem h
    simp only [sequence.sizeOf_spec]; omega
  | repeated span body min max delimiter =>
    rcases List.mem_cons.1 h with rfl | h
    · simp only [repeated.sizeOf_spec]; omega
    · cases Option.mem_toList.1 h
      simp only [repeated.sizeOf_spec, Option.some.sizeOf_spec]; omega
  | labeled span label labelSpan pick body | action span body code | text span body | simpleAnd span body
  | simpleNot span body | optional span body | zeroOrMore span body | oneOrMore span body | group span body
  | named span name body =>
    rw [List.mem_singleton.1 h]
    simp only [labeled.sizeOf_spec, action.sizeOf_spec, text.sizeOf_spec, simpleAnd.sizeOf_spec, simpleNot.sizeOf_spec,
      optional.sizeOf_spec, zeroOrMore.sizeOf_spec, oneOrMore.sizeOf_spec, group.sizeOf_spec, named.sizeOf_spec]
    omega
  | semanticAnd | semanticNot | ruleRef | literal | charClass | any => cases h

/-- The expressions inside a tidied one are those inside it, tidied. -/
theorem postorder_tidied (d : Draft.Expr) : d.tidied.postorder = d.postorder.map tidied := by
  have inside : d.children.map (postorder ∘ tidied) = d.children.map fun c => c.postorder.map tidied :=
    List.map_congr_left fun c hc => postorder_tidied c
  rw [postorder_eq, postorder_eq d, children_tidied, List.map_append, List.map_singleton, List.flatMap_map,
    List.map_flatMap, List.flatMap_def, List.flatMap_def]
  exact congrArg (·.flatten ++ [d.tidied]) inside
termination_by d
decreasing_by exact sizeOf_lt_of_child hc

end Draft.Expr

namespace Expr

mutual

/-- What an expression is built from: without numbers, and with names for references. -/
def definition : Expr → Draft.Expr
  | choice i first others => .choice i.span (first.definition :: definitions others)
  | sequence i elements => .sequence i.span (definitions elements)
  | labeled i label pick body =>
    .labeled i.span (label.map (·.val)) ((label.map (·.span)).getD .empty) pick body.definition
  | action i body code => .action i.span body.definition code
  | text i body => .text i.span body.definition
  | simpleAnd i body => .simpleAnd i.span body.definition
  | simpleNot i body => .simpleNot i.span body.definition
  | semanticAnd i code => .semanticAnd i.span code
  | semanticNot i code => .semanticNot i.span code
  | optional i body => .optional i.span body.definition
  | zeroOrMore i body => .zeroOrMore i.span body.definition
  | oneOrMore i body => .oneOrMore i.span body.definition
  | repeated i body min max none => .repeated i.span body.definition min max none
  | repeated i body min max (some delimiter) =>
    .repeated i.span body.definition min max (some delimiter.definition)
  | group i body => .group i.span body.definition
  | ruleRef i name _ => .ruleRef i.span name
  | literal i value ignoreCase => .literal i.span value ignoreCase
  | charClass i k => .charClass i.span k
  | any i => .any i.span
  | named i name body => .named i.span name body.definition

def definitions : List Expr → List Draft.Expr
  | [] => []
  | e :: es => e.definition :: definitions es

end

/-- What an expression is built from, by its own fields and what its direct subexpressions are built from. -/
def assembled : Expr → List Draft.Expr → Option Draft.Expr
  | choice i _ _, alternatives => some (.choice i.span alternatives)
  | sequence i _, elements => some (.sequence i.span elements)
  | labeled i label pick _, [body] =>
    some (.labeled i.span (label.map (·.val)) ((label.map (·.span)).getD .empty) pick body)
  | action i _ code, [body] => some (.action i.span body code)
  | text i _, [body] => some (.text i.span body)
  | simpleAnd i _, [body] => some (.simpleAnd i.span body)
  | simpleNot i _, [body] => some (.simpleNot i.span body)
  | semanticAnd i code, [] => some (.semanticAnd i.span code)
  | semanticNot i code, [] => some (.semanticNot i.span code)
  | optional i _, [body] => some (.optional i.span body)
  | zeroOrMore i _, [body] => some (.zeroOrMore i.span body)
  | oneOrMore i _, [body] => some (.oneOrMore i.span body)
  | repeated i _ min max none, [body] => some (.repeated i.span body min max none)
  | repeated i _ min max (some _), [body, delimiter] => some (.repeated i.span body min max (some delimiter))
  | group i _, [body] => some (.group i.span body)
  | ruleRef i name _, [] => some (.ruleRef i.span name)
  | literal i value ignoreCase, [] => some (.literal i.span value ignoreCase)
  | charClass i k, [] => some (.charClass i.span k)
  | any i, [] => some (.any i.span)
  | named i name _, [body] => some (.named i.span name body)
  | _, _ => none

/-- What the expression with a number is built from, by following the numbers of direct subexpressions so deep. -/
def unfold (arena : List Expr) : Nat → ExprId → Option Draft.Expr
  | 0, _ => none
  | depth + 1, handle => do
    let e ← arena[handle]?
    e.assembled (← e.children.mapM fun c => unfold arena depth c.id)

theorem definitions_eq (es : List Expr) : definitions es = es.map definition := by
  induction es with
  | nil => rfl
  | cons e es ih => rw [definitions, ih, List.map_cons]

theorem mapM_eq_some {α β : Type} {f : α → Option β} {g : α → β} : ∀ {l : List α}, (∀ a ∈ l, f a = some (g a)) →
    l.mapM f = some (l.map g)
  | [], _ => rfl
  | a :: l, h => by
    rw [List.mapM_cons, h a List.mem_cons_self, mapM_eq_some fun b hb => h b (List.mem_cons_of_mem a hb)]
    rfl

theorem children_definition (e : Expr) : e.definition.children = e.children.map definition := by
  cases e with
  | choice i first others => simp [definition, children, Draft.Expr.children, definitions_eq]
  | sequence i elements => simp [definition, children, Draft.Expr.children, definitions_eq]
  | repeated i body min max delimiter => cases delimiter <;> simp [definition, children, Draft.Expr.children]
  | _ => simp [definition, children, Draft.Expr.children]

theorem assembled_children (e : Expr) : e.assembled (e.children.map definition) = some e.definition := by
  cases e with
  | choice i first others => simp [assembled, definition, children, definitions_eq]
  | sequence i elements => simp [assembled, definition, children, definitions_eq]
  | repeated i body min max delimiter => cases delimiter <;> simp [assembled, definition, children]
  | _ => simp [assembled, definition, children]

/-- The expressions inside one are built from what is inside its definition. -/
theorem map_definition_postorder (e : Expr) : e.postorder.map definition = e.definition.postorder := by
  induction e using induction_children with
  | h e ih =>
    rw [postorder_eq, Draft.Expr.postorder_eq, children_definition, List.map_append, List.map_flatMap,
      List.flatMap_map, List.map_singleton]
    congr 1
    rw [List.flatMap_def, List.flatMap_def, List.map_congr_left ih]

/-! ## Numbers in order -/

theorem children_sublist_flatMap_postorder (es : List Expr) : es.Sublist (es.flatMap postorder) := by
  induction es with
  | nil => exact .refl _
  | cons e es ih =>
    rw [List.flatMap_cons, postorder_eq, List.append_assoc]
    exact (ih.cons_cons e).trans (List.sublist_append_right ..)

theorem mem_postorder_self (e : Expr) : e ∈ e.postorder := by
  rw [postorder_eq]
  exact List.mem_append_right _ (List.mem_singleton_self e)

theorem postorder_sublist {e e' : Expr} (h : e' ∈ e.postorder) : e'.postorder.Sublist e.postorder := by
  induction e using induction_children with
  | h e ih =>
    rw [postorder_eq e] at h ⊢
    rcases List.mem_append.1 h with h | h
    · obtain ⟨c, hc, h⟩ := List.mem_flatMap.1 h
      refine ((ih c hc h).trans ?_).trans (List.sublist_append_left ..)
      rw [List.flatMap_def]
      exact List.sublist_flatten_of_mem (List.mem_map.2 ⟨c, hc, rfl⟩)
    · rw [List.mem_singleton.1 h, postorder_eq e]

end Expr

namespace Grammar

/-- Every number leads to its expression, and numbers grow through the list. -/
structure Arranged (arena : List Expr) : Prop where
  found : ∀ e ∈ arena, arena[e.id]? = some e
  grows : (arena.map Expr.id).Pairwise (· < ·)
  closed : ∀ e ∈ arena, e.postorder.Sublist arena

namespace Arranged

variable {arena : List Expr} {e c : Expr}

theorem mem_of_child (h : Arranged arena) (he : e ∈ arena) (hc : c ∈ e.children) : c ∈ arena := by
  refine (h.closed e he).mem ?_
  rw [Expr.postorder_eq]
  exact List.mem_append_left _ (List.mem_flatMap.2 ⟨c, hc, c.mem_postorder_self⟩)

/-- An expression has a greater number than its direct subexpressions. -/
theorem lt_of_child (h : Arranged arena) (he : e ∈ arena) (hc : c ∈ e.children) : c.id < e.id := by
  have sorted := h.grows.sublist ((h.closed e he).map Expr.id)
  rw [Expr.postorder_eq, List.map_append, List.pairwise_append] at sorted
  refine sorted.2.2 c.id ?_ e.id (List.mem_map_of_mem (List.mem_singleton_self e))
  exact List.mem_map_of_mem (List.mem_flatMap.2 ⟨c, hc, c.mem_postorder_self⟩)

/-- The numbers of direct subexpressions grow from left to right. -/
theorem pairwise_children (h : Arranged arena) (he : e ∈ arena) : (e.children.map Expr.id).Pairwise (· < ·) := by
  refine h.grows.sublist (List.Sublist.map _ (.trans ?_ (h.closed e he)))
  rw [Expr.postorder_eq]
  exact (Expr.children_sublist_flatMap_postorder e.children).trans (List.sublist_append_left ..)

/-- Following numbers far enough tells what an expression is built from. -/
theorem unfold_eq (h : Arranged arena) : ∀ (depth : Nat) (e : Expr), e ∈ arena → e.id < depth →
    Expr.unfold arena depth e.id = some e.definition
  | 0, _, _, hd => absurd hd (Nat.not_lt_zero _)
  | depth + 1, e, he, hd => by
    have parts : e.children.mapM (fun c : Expr => Expr.unfold arena depth c.id) =
        some (e.children.map Expr.definition) := by
      refine Expr.mapM_eq_some fun c hc => h.unfold_eq depth c (h.mem_of_child he hc) ?_
      exact Nat.lt_of_lt_of_le (h.lt_of_child he hc) (Nat.le_of_lt_succ hd)
    rw [Expr.unfold, h.found e he]
    exact (congrArg (·.bind e.assembled) parts).trans e.assembled_children

end Arranged

end Grammar

end PegCompiler
