/-
The labels that the check of labels sees at a place inside an expression (`Scope.follow?`). What it says about
an expression is what it says at the places in it, each with the labels that are seen there (`mem_labelsIn_iff`); one
step from an expression to its direct subexpressions is `mem_labelsIn`.
-/
import PegCompiler.Analysis.Labels
import PegCompiler.Proofs.Code.OfExpr
import PegCompiler.Proofs.Grammar.Proxy

namespace PegCompiler

namespace Analysis

variable {reserved : List String} {scope scope' : Scope} {e e' c : Expr} {es : List Expr} {child : Nat} {path : List Nat}

namespace Scope

/-- The labels that are visible. -/
def names (scope : Scope) : List String := scope.map (·.1)

/-- The scope after expressions in a row. -/
def through (scope : Scope) (es : List Expr) : Scope := es.foldl after scope

/-- The scope in a direct subexpression: in a sequence it has the labels of the elements before. -/
def inside (scope : Scope) : Expr → (child : Nat) → Scope
  | .sequence _ elements, child => scope.through (elements.take child)
  | _, _ => scope

/-- The expression that a path leads to by direct subexpressions, and the scope there. -/
def follow? (scope : Scope) (e : Expr) : (path : List Nat) → Option (Expr × Scope)
  | [] => some (e, scope)
  | child :: path => do follow? (scope.inside e child) (← e.children[child]?) path

/-- The scope in which an expression is done: an action sees the labels of the sequence or of the labeled expression
that it is on. -/
def closing (scope : Scope) : Expr → Scope
  | .action _ body _ => (scope.through body.elements).after body
  | _ => scope

theorem follow?_cons : scope.follow? e (child :: path) = some (e', scope') ↔
    ∃ c, e.children[child]? = some c ∧ (scope.inside e child).follow? c path = some (e', scope') :=
  Option.bind_eq_some_iff

end Scope

/-! ## What is said at places -/

/-- What the check says about an expression itself. -/
def labelsAt (reserved : List String) (scope : Scope) : Expr → List Diagnostic
  | .labeled _ label _ _ => label.elim [] (labelProblems reserved scope)
  | .repeated _ _ min max _ => min.elim [] (boundProblems scope) ++ boundProblems scope max
  | _ => []

theorem labelsInOrder_append (as bs : List Expr) : labelsInOrder reserved scope (as ++ bs) =
    labelsInOrder reserved scope as ++ labelsInOrder reserved (scope.through as) bs := by
  induction as generalizing scope with
  | nil => rfl
  | cons e as ih => rw [List.cons_append, labelsInOrder, ih, labelsInOrder, List.append_assoc]; rfl

theorem mem_labelsInEach {d : Diagnostic} :
    d ∈ labelsInEach reserved scope es ↔ ∃ (child : Nat) (c : Expr), es[child]? = some c ∧ d ∈ labelsIn reserved scope c := by
  induction es with
  | nil => simp [labelsInEach]
  | cons e es ih =>
    rw [labelsInEach, List.mem_append, ih]
    constructor
    · rintro (hd | ⟨child, c, hc, hd⟩)
      · exact ⟨0, e, rfl, hd⟩
      · exact ⟨child + 1, c, hc, hd⟩
    · rintro ⟨_ | child, c, hc, hd⟩
      · cases hc
        exact .inl hd
      · exact .inr ⟨child, c, hc, hd⟩

theorem mem_labelsInOrder {d : Diagnostic} : d ∈ labelsInOrder reserved scope es ↔
    ∃ (child : Nat) (c : Expr), es[child]? = some c ∧ d ∈ labelsIn reserved (scope.through (es.take child)) c := by
  induction es generalizing scope with
  | nil => simp [labelsInOrder]
  | cons e es ih =>
    rw [labelsInOrder, List.mem_append, ih]
    constructor
    · rintro (hd | ⟨child, c, hc, hd⟩)
      · exact ⟨0, e, rfl, hd⟩
      · exact ⟨child + 1, c, hc, hd⟩
    · rintro ⟨_ | child, c, hc, hd⟩
      · cases hc
        exact .inl hd
      · exact .inr ⟨child, c, hc, hd⟩

/-- The check speaks about an expression itself, and about the direct subexpressions with the scopes there. -/
theorem mem_labelsIn {d : Diagnostic} : d ∈ labelsIn reserved scope e ↔ d ∈ labelsAt reserved scope e ∨
    ∃ (child : Nat) (c : Expr), e.children[child]? = some c ∧ d ∈ labelsIn reserved (scope.inside e child) c := by
  have single (body : Expr) : d ∈ labelsIn reserved scope body ↔
      ∃ (child : Nat) (c : Expr), [body][child]? = some c ∧ d ∈ labelsIn reserved scope c := by
    rw [← mem_labelsInEach, labelsInEach, labelsInEach, List.append_nil]
  cases e with
  | choice i first others =>
    show d ∈ labelsInEach reserved scope (first :: others) ↔ _
    rw [mem_labelsInEach]
    exact ⟨.inr, fun h => h.resolve_left List.not_mem_nil⟩
  | sequence i elements =>
    rw [labelsIn, mem_labelsInOrder]
    exact ⟨.inr, fun h => h.resolve_left List.not_mem_nil⟩
  | labeled i label pick body =>
    rw [labelsIn, List.mem_append, or_comm, single]
    rfl
  | repeated i body min max delimiter =>
    cases delimiter with
    | none =>
      rw [labelsIn, List.mem_append, single]
      rfl
    | some delimiter =>
      -- the delimiter is checked before the body that it stands after
      have both : d ∈ labelsIn reserved scope delimiter ∨ d ∈ labelsIn reserved scope body ↔
          ∃ (child : Nat) (c : Expr), [body, delimiter][child]? = some c ∧ d ∈ labelsIn reserved scope c := by
        rw [← mem_labelsInEach, labelsInEach, labelsInEach, labelsInEach, List.append_nil, List.mem_append, or_comm]
      rw [labelsIn, List.mem_append, List.mem_append, or_assoc, both]
      rfl
  | action i body code | text i body | simpleAnd i body | simpleNot i body | optional i body | zeroOrMore i body
  | oneOrMore i body | group i body | named i name body =>
    rw [labelsIn, single]
    exact ⟨.inr, fun h => h.resolve_left List.not_mem_nil⟩
  | semanticAnd | semanticNot | ruleRef | literal | charClass | any =>
    constructor
    · intro hd
      rw [labelsIn] at hd
      cases hd
    · rintro (hd | ⟨child, c, hc, -⟩)
      · cases hd
      · cases hc

/-- What the check says about an expression is what it says at all the places in it. -/
theorem mem_labelsIn_iff {d : Diagnostic} : d ∈ labelsIn reserved scope e ↔
    ∃ path e' scope', scope.follow? e path = some (e', scope') ∧ d ∈ labelsAt reserved scope' e' := by
  constructor
  · intro hd
    induction e using Expr.induction_children generalizing scope with
    | h e ih =>
      rcases mem_labelsIn.1 hd with hd | ⟨child, c, hc, hd⟩
      · exact ⟨[], e, scope, rfl, hd⟩
      · obtain ⟨path, e', scope', hfollow, hd⟩ := ih c (List.mem_of_getElem? hc) hd
        exact ⟨child :: path, e', scope', Scope.follow?_cons.2 ⟨c, hc, hfollow⟩, hd⟩
  · rintro ⟨path, e', scope', hfollow, hd⟩
    induction path generalizing scope e with
    | nil =>
      cases hfollow
      exact mem_labelsIn.2 (.inl hd)
    | cons child path ih =>
      obtain ⟨c, hc, hfollow⟩ := Scope.follow?_cons.1 hfollow
      exact mem_labelsIn.2 (.inr ⟨child, c, hc, ih hfollow⟩)

theorem boundProblems_error {b : Boundary} {d : Diagnostic} (hd : d ∈ boundProblems scope b) :
    d.severity = .error := by
  unfold boundProblems at hd
  split at hd
  · split at hd
    · cases hd
    · rw [List.mem_singleton.1 hd]; rfl
  · cases hd

theorem labelProblems_error {label : Located String} {d : Diagnostic} (hd : d ∈ labelProblems reserved scope label) :
    d.severity = .error := by
  unfold labelProblems at hd
  rcases List.mem_append.1 hd with hd | hd
  · split at hd
    · rw [List.mem_singleton.1 hd]; rfl
    · cases hd
  · split at hd
    · rw [List.mem_singleton.1 hd]
    · cases hd

/-- Whatever is wrong with labels is an error. -/
theorem labelsIn_error {d : Diagnostic} (hd : d ∈ labelsIn reserved scope e) : d.severity = .error := by
  obtain ⟨-, e', scope', -, hd⟩ := mem_labelsIn_iff.1 hd
  unfold labelsAt at hd
  split at hd
  · rename_i label pick body
    cases label with
    | none => cases hd
    | some label => exact labelProblems_error hd
  · rename_i min max delimiter
    rcases List.mem_append.1 hd with hd | hd
    · cases min with
      | none => cases hd
      | some min => exact boundProblems_error hd
    · exact boundProblems_error hd
  · cases hd

/-! ## Redirected references -/

section Redirected

variable (f : Expr.Reference → Expr.Reference)

theorem Scope.through_mapRefs (scope : Scope) (es : List Expr) :
    scope.through (es.map (Expr.mapRefs f)) = scope.through es := by
  unfold through
  rw [List.foldl_map]
  congr 1
  funext scope e
  exact scope.after_mapRefs f e

theorem Scope.inside_mapRefs (scope : Scope) (e : Expr) (child : Nat) :
    scope.inside (e.mapRefs f) child = scope.inside e child := by
  cases e with
  | sequence i elements =>
    rw [Expr.mapRefs, inside, inside, Expr.mapRefsAll_eq, ← List.map_take, through_mapRefs]
  | repeated i body min max delimiter => cases delimiter <;> rfl
  | _ => rfl

theorem Scope.closing_mapRefs (scope : Scope) (e : Expr) : scope.closing (e.mapRefs f) = scope.closing e := by
  have elements (e : Expr) : (e.mapRefs f).elements = e.elements.map (Expr.mapRefs f) := by
    cases e with
    | sequence i elements => exact Expr.mapRefsAll_eq f elements
    | repeated i body min max delimiter => cases delimiter <;> rfl
    | _ => rfl
  cases e with
  | action i body code => rw [Expr.mapRefs, closing, closing, after_mapRefs, elements, through_mapRefs]
  | repeated i body min max delimiter => cases delimiter <;> rfl
  | _ => rfl

/-- A path leads to the same place, and to the same labels. -/
theorem Scope.follow?_mapRefs (h : scope.follow? (e.mapRefs f) path = some (e', scope')) :
    ∃ e₀, scope.follow? e path = some (e₀, scope') ∧ e' = e₀.mapRefs f := by
  induction path generalizing scope e with
  | nil => cases h; exact ⟨e, rfl, rfl⟩
  | cons child path ih =>
    obtain ⟨c, hc, h⟩ := follow?_cons.1 h
    rw [Expr.children_mapRefs, List.getElem?_map] at hc
    obtain ⟨c₀, hc₀, rfl⟩ := Option.map_eq_some_iff.1 hc
    rw [inside_mapRefs] at h
    obtain ⟨e₀, he₀, rfl⟩ := ih h
    exact ⟨e₀, follow?_cons.2 ⟨c₀, hc₀, he₀⟩, rfl⟩

end Redirected

end Analysis

end PegCompiler
