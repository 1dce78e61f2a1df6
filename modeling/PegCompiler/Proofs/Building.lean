/-
Building a draft is faithful: it refuses the first expression that nothing can be made of, and otherwise gives a grammar
from which the draft can be read back, by numbers alone. What placing comes to is stated for every expression by its
faults in order (`Ends`); in a grammar numbers lead to their expressions (`Arranged`), so following them from the body
of a rule tells the expression that the rule was drafted with. Only the place of a label that is missing is lost.
-/
import PegCompiler.Proofs.Grammar.Links
import PegCompiler.Proofs.Grammar.Unfolding

namespace PegCompiler

/-- What a rule is built from. -/
def Rule.definition (rule : Rule) : Draft.Rule :=
  ⟨rule.name, rule.nameSpan, rule.displayName, rule.body.definition, rule.span⟩

namespace Draft

/-! ## Faults -/

/-- What is wrong with a part of a class. -/
def partFault? (span : Span) : ClassPart → Option DraftError
  | .range first last => if last < first then some ⟨.reversedRange first last, span⟩ else none
  | .char _ => none

/-- What is wrong with an expression by itself: it is a choice of nothing, or a class in which a range is the wrong way
round, of which the first is told. -/
def Expr.fault? : Draft.Expr → Option DraftError
  | .choice span [] => some ⟨.emptyChoice, span⟩
  | .charClass span k => k.parts.findSome? (partFault? span)
  | _ => none

/-- The rule without the places of labels that there are not. -/
def Rule.tidied (rule : Draft.Rule) : Draft.Rule := { rule with body := rule.body.tidied }

/-- The expressions of a draft, rule by rule and left to right. -/
def nodes (d : Draft) : List Draft.Expr := d.rules.flatMap (·.body.postorder)

/-- A numbering ends with a fault, if there is one, and with a result that something holds of otherwise. -/
structure Ends {α : Type} (x : Numbering α) (fault : Option DraftError) (Q : α → Prop) : Prop where
  refused : ∀ e, fault = some e → ∀ n, x n = .error e
  placed : fault = none → ∀ n, ∃ a n', x n = .ok (a, n') ∧ Q a

namespace Ends

variable {α β : Type} {x : Numbering α} {f : α → Numbering β} {a b : Option DraftError} {P : α → Prop} {Q : β → Prop}

theorem pure {v : β} (h : Q v) : Ends (Pure.pure v) none Q :=
  ⟨nofun, fun _ n => ⟨v, n, rfl, h⟩⟩

/-- Of two numberings in a row the first one's fault comes first. -/
theorem bind (hx : Ends x a P) (hf : ∀ v, P v → Ends (f v) b Q) : Ends (x >>= f) (a.or b) Q := by
  cases a with
  | some e =>
    refine ⟨fun e' he n => ?_, nofun⟩
    cases he
    exact congrArg (·.bind fun p => f p.1 p.2) (hx.refused e rfl n)
  | none =>
    refine ⟨fun e he n => ?_, fun he n => ?_⟩
    · obtain ⟨v, n₁, hv, hP⟩ := hx.placed rfl n
      exact (congrArg (·.bind fun p => f p.1 p.2) hv).trans ((hf v hP).refused e he n₁)
    · obtain ⟨v, n₁, hv, hP⟩ := hx.placed rfl n
      obtain ⟨w, n₂, hw, hQ⟩ := (hf v hP).placed he n₁
      exact ⟨w, n₂, (congrArg (·.bind fun p => f p.1 p.2) hv).trans hw, hQ⟩

/-- Taking a number is no fault, and the number comes with the span. -/
theorem number {span : Span} {g : PegCompiler.Expr.Info → β} (h : ∀ i, i.span = span → Q (g i)) :
    Ends (do return g (← Draft.number span)) none Q :=
  ⟨nofun, fun _ n => ⟨g ⟨n, span⟩, n + 1, rfl, h ⟨n, span⟩ rfl⟩⟩

end Ends

/-- Checking the parts of a class tells the first that is wrong. -/
theorem checkParts_ends (span : Span) (parts : List ClassPart) :
    Ends (checkParts span parts) (parts.findSome? (partFault? span)) fun _ => True := by
  unfold checkParts
  induction parts with
  | nil => exact .pure trivial
  | cons part parts ih =>
    rw [List.find?_cons, List.findSome?_cons]
    rcases part with c | ⟨first, last⟩
    · exact ih
    · by_cases h : last < first
      · have wrong : partFault? span (.range first last) = some ⟨.reversedRange first last, span⟩ := if_pos h
        rw [wrong]
        simp only [decide_eq_true h]
        exact ⟨fun e he n => (by cases he; rfl), nofun⟩
      · have right : partFault? span (.range first last) = none := if_neg h
        rw [right]
        simp only [decide_eq_false h]
        exact ih

/-! ## Placing -/

section Place

variable {names : List String}

mutual

/-- Placing an expression ends with its first fault, or keeps all that it says. -/
theorem place_ends : ∀ d : Draft.Expr, Ends (d.place names) (d.postorder.findSome? Expr.fault?) fun e =>
    e.definition = d.tidied
  | .choice span [] => ⟨fun e he n => (by cases he; rfl), nofun⟩
  | .choice span (first :: others) => by
    rw [Draft.Expr.place, Draft.Expr.postorder, Draft.Expr.postorderAll, List.findSome?_append, List.findSome?_append,
      Option.or_assoc]
    refine (place_ends first).bind fun f hf => (placeAll_ends others).bind fun os hos => .number fun i hi => ?_
    rw [PegCompiler.Expr.definition, hi, hf, hos, Draft.Expr.tidied, Draft.Expr.tidiedAll]
  | .sequence span elements => by
    rw [Draft.Expr.place, Draft.Expr.postorder, List.findSome?_append]
    refine (placeAll_ends elements).bind fun es he => .number fun i hi => ?_
    show Draft.Expr.sequence i.span (PegCompiler.Expr.definitions es) = _
    rw [hi, he, Draft.Expr.tidied]
  | .labeled span none labelSpan pick body => by
    rw [Draft.Expr.place, Draft.Expr.postorder, List.findSome?_append]
    refine (place_ends body).bind fun b hb => .number fun i hi => ?_
    show Draft.Expr.labeled i.span none .empty pick b.definition = _
    rw [hi, hb, Draft.Expr.tidied]
  | .labeled span (some label) labelSpan pick body => by
    rw [Draft.Expr.place, Draft.Expr.postorder, List.findSome?_append]
    refine (place_ends body).bind fun b hb => .number fun i hi => ?_
    show Draft.Expr.labeled i.span (some label) labelSpan pick b.definition = _
    rw [hi, hb, Draft.Expr.tidied]
  | .action span body code | .text span body | .simpleAnd span body | .simpleNot span body | .optional span body
  | .zeroOrMore span body | .oneOrMore span body | .group span body | .named span name body
  | .repeated span body min max none => by
    rw [Draft.Expr.place, Draft.Expr.postorder, List.findSome?_append]
    refine (place_ends body).bind fun b hb => .number fun i hi => ?_
    rw [PegCompiler.Expr.definition, hi, hb, Draft.Expr.tidied]
  | .repeated span body min max (some delimiter) => by
    rw [Draft.Expr.place, Draft.Expr.postorder, List.findSome?_append, List.findSome?_append, Option.or_assoc]
    refine (place_ends body).bind fun b hb => (place_ends delimiter).bind fun c hc => .number fun i hi => ?_
    rw [PegCompiler.Expr.definition, hi, hb, hc, Draft.Expr.tidied]
  | .charClass span k => by
    have fault : (Draft.Expr.charClass span k).postorder.findSome? Expr.fault? =
        (k.parts.findSome? (partFault? span)).or none := by
      rw [Draft.Expr.postorder, List.findSome?_singleton, Option.or_none]
      rfl
    rw [Draft.Expr.place, fault]
    refine (checkParts_ends span k.parts).bind fun _ _ => .number fun i hi => ?_
    rw [PegCompiler.Expr.definition, hi, Draft.Expr.tidied]
  | .ruleRef span name | .semanticAnd span code | .semanticNot span code | .literal span value ignoreCase | .any span => by
    rw [Draft.Expr.place]
    refine .number fun i hi => ?_
    rw [PegCompiler.Expr.definition, hi, Draft.Expr.tidied]

theorem placeAll_ends : ∀ ds : List Draft.Expr, Ends (Draft.Expr.placeAll names ds)
    ((Draft.Expr.postorderAll ds).findSome? Expr.fault?) fun es =>
      PegCompiler.Expr.definitions es = Draft.Expr.tidiedAll ds
  | [] => .pure rfl
  | d :: ds => by
    have fault : (Draft.Expr.postorderAll (d :: ds)).findSome? Expr.fault? =
        (d.postorder.findSome? Expr.fault?).or (((Draft.Expr.postorderAll ds).findSome? Expr.fault?).or none) := by
      rw [Draft.Expr.postorderAll, List.findSome?_append, Option.or_none]
    rw [Draft.Expr.placeAll, fault]
    refine (place_ends d).bind fun e he => (placeAll_ends ds).bind fun es hes => .pure ?_
    rw [PegCompiler.Expr.definitions, he, hes, Draft.Expr.tidiedAll]

end

/-- Placing rules ends with the first fault of all, or keeps all that they say. -/
theorem rules_end : ∀ ds : List Draft.Rule, Ends (ds.mapM (Rule.place names))
    ((ds.flatMap (·.body.postorder)).findSome? Expr.fault?) fun rules => rules.map (·.definition) = ds.map (·.tidied)
  | [] => .pure rfl
  | d :: ds => by
    have fault : ((d :: ds).flatMap (·.body.postorder)).findSome? Expr.fault? =
        ((d.body.postorder.findSome? Expr.fault?).or none).or
          (((ds.flatMap (·.body.postorder)).findSome? Expr.fault?).or none) := by
      rw [List.flatMap_cons, List.findSome?_append, Option.or_none, Option.or_none]
    have first : Ends (Rule.place names d) ((d.body.postorder.findSome? Expr.fault?).or none)
        fun rule => rule.definition = d.tidied := by
      refine (place_ends d.body).bind fun body hbody => .pure ?_
      show Draft.Rule.mk d.name d.nameSpan d.displayName body.definition d.span = _
      rw [hbody]
      rfl
    rw [List.mapM_cons, fault]
    refine first.bind fun rule hrule => (rules_end ds).bind fun rules hrules => .pure ?_
    rw [List.map_cons, List.map_cons, hrule, hrules]

end Place

end Draft

/-! ## The grammar of a draft -/

namespace Grammar

/-- What the expression with a number was drafted as, told by following numbers. -/
def definition? (g : Grammar) (handle : ExprId) : Option Draft.Expr := Expr.unfold g.arena g.arena.length handle

/-- A grammar says what a draft says. -/
structure Describes (g : Grammar) (d : Draft) : Prop where
  /-- Every expression of the draft has one number, in the order of the draft. -/
  nodes : (List.range g.arena.length).map g.definition? = d.nodes.map fun node => some node.tidied
  numbers : g.arena.map Expr.id = List.range g.arena.length
  /-- Rules are in their order, with all that was said of them. -/
  rules : g.rules.map (fun rule => (rule.name, rule.nameSpan, rule.displayName, g.definition? rule.body.id, rule.span)) =
    d.rules.map fun rule => (rule.name, rule.nameSpan, rule.displayName, some rule.body.tidied, rule.span)
  children : ∀ e ∈ g.arena, ∀ c ∈ e.children, c.id < e.id ∧ g.arena[c.id]? = some c
  siblings : ∀ e ∈ g.arena, (e.children.map Expr.id).Pairwise (· < ·)
  delimiters : ∀ i body min max delimiter, .repeated i body min max (some delimiter) ∈ g.arena → body.id < delimiter.id
  /-- A reference stands for the first rule that was declared with its name, if there is one. -/
  references : ∀ i name target, .ruleRef i name target ∈ g.arena → target = d.rules.findIdx? fun rule => rule.name = name
  initializers : g.topLevelInitializer = d.topLevelInitializer ∧ g.initializer = d.initializer
  removed : g.removed = []

theorem Built.arranged {g : Grammar} (h : g.Built) : Arranged g.arena where
  found e he := by
    obtain ⟨i, hi, rfl⟩ := List.getElem_of_mem he
    have number : (g.arena.map Expr.id)[i]? = some i := by
      rw [h.numbers, List.getElem?_range hi]
    rw [List.getElem?_map, List.getElem?_eq_getElem hi] at number
    rw [Option.some.inj number, List.getElem?_eq_getElem hi]
  grows := by
    rw [h.numbers]
    exact List.pairwise_lt_range
  closed e he := by
    obtain ⟨rule, hrule, he⟩ := List.mem_flatMap.1 he
    refine (Expr.postorder_sublist he).trans ?_
    show rule.body.postorder.Sublist (g.rules.flatMap fun rule => rule.body.postorder)
    rw [List.flatMap_def]
    exact List.sublist_flatten_of_mem (List.mem_map.2 ⟨rule, hrule, rfl⟩)

/-- Following numbers tells what an expression was drafted as. -/
theorem Built.definition?_eq {g : Grammar} (h : g.Built) {e : Expr} (he : e ∈ g.arena) :
    g.definition? e.id = some e.definition := by
  refine h.arranged.unfold_eq _ e he ?_
  exact (List.getElem?_eq_some_iff.1 (h.arranged.found e he)).1

end Grammar

namespace Draft

/-- Looking a name up in a list of names finds the first rule that has it. -/
theorem idxOf?_names (ds : List Draft.Rule) (name : String) :
    (ds.map (·.name)).idxOf? name = ds.findIdx? fun rule => rule.name = name := by
  rw [List.idxOf?, List.findIdx?_map]
  rfl

theorem describes {d : Draft} {g : Grammar} (h : d.build? = .ok g)
    (hrules : g.rules.map (·.definition) = d.rules.map (·.tidied)) : g.Describes d := by
  have built := built h
  have arranged := built.arranged
  refine ⟨?_, built.numbers, ?_, fun e he c hc => ?_, fun e he => arranged.pairwise_children he,
    fun i body min max delimiter he => ?_, fun i name target he => ?_, ?_, built.removed⟩
  · -- in the order of their numbers, expressions are the nodes of the draft
    calc (List.range g.arena.length).map g.definition?
      _ = g.arena.map fun e => g.definition? e.id := by rw [← built.numbers, List.map_map]; rfl
      _ = g.arena.map fun e => some e.definition := List.map_congr_left fun e he => built.definition?_eq he
      _ = (g.rules.map (·.definition)).flatMap fun rule => rule.body.postorder.map some := by
        unfold Grammar.arena
        rw [List.map_flatMap, List.flatMap_map]
        congr 1
        funext rule
        show _ = rule.body.definition.postorder.map some
        rw [← PegCompiler.Expr.map_definition_postorder, List.map_map]
        rfl
      _ = d.nodes.map fun node => some node.tidied := by
        unfold nodes
        rw [hrules, List.flatMap_map, List.map_flatMap]
        congr 1
        funext rule
        show rule.body.tidied.postorder.map some = _
        rw [Expr.postorder_tidied, List.map_map]
        rfl
  · -- the number of a body gives the expression that its rule was drafted with
    have told : ∀ rule ∈ g.rules, g.definition? rule.body.id = some rule.body.definition := fun rule hrule =>
      built.definition?_eq (List.mem_flatMap.2 ⟨rule, hrule, rule.body.mem_postorder_self⟩)
    have said := congrArg (List.map fun rule : Draft.Rule =>
      (rule.name, rule.nameSpan, rule.displayName, some rule.body, rule.span)) hrules
    rw [List.map_map, List.map_map] at said
    refine (List.map_congr_left fun rule hrule => ?_).trans said
    rw [told rule hrule]
    rfl
  · exact ⟨arranged.lt_of_child he hc, arranged.found c (arranged.mem_of_child he hc)⟩
  · have siblings : [body.id, delimiter.id].Pairwise (· < ·) := arranged.pairwise_children he
    exact List.rel_of_pairwise_cons siblings (List.mem_singleton_self delimiter.id)
  · obtain ⟨rules, n, hr, rfl⟩ := build_ok h
    obtain ⟨rule, hrule, he⟩ := List.mem_flatMap.1 he
    rw [← idxOf?_names]
    exact rules_lookUp d.rules hr rule hrule i name target ((PegCompiler.Expr.postorder_perm_preorder _).mem_iff.1 he)
  · obtain ⟨rules, n, -, rfl⟩ := build_ok h
    exact ⟨rfl, rfl⟩

/-- Building a draft fails exactly if a choice has no alternatives or a range of a class is the wrong way round, and
tells the first such expression. Otherwise the grammar says what the draft says: every expression has its one number,
direct subexpressions have smaller ones and growing ones, following the numbers from the body of a rule gives back the
expression that the rule was drafted with, and references stand for the first rule of their name. -/
theorem building_is_faithful (d : Draft) :
    (∃ e, d.build? = .error e ∧ d.nodes.findSome? Expr.fault? = some e) ∨
      ∃ g, d.build? = .ok g ∧ d.nodes.findSome? Expr.fault? = none ∧ g.Describes d := by
  have ends : Ends (d.rules.mapM (Rule.place (d.rules.map (·.name)))) (d.nodes.findSome? Expr.fault?) _ :=
    rules_end d.rules
  cases hfault : d.nodes.findSome? Expr.fault? with
  | some e =>
    have refused : (d.rules.mapM (Rule.place (d.rules.map (·.name)))).run 0 = .error e := ends.refused e hfault 0
    refine .inl ⟨e, ?_, rfl⟩
    unfold build?
    rw [refused]
    rfl
  | none =>
    obtain ⟨rules, n, hplaced, hrules⟩ := ends.placed hfault 0
    have placed : (d.rules.mapM (Rule.place (d.rules.map (·.name)))).run 0 = .ok (rules, n) := hplaced
    have hbuild : d.build? = .ok ⟨d.topLevelInitializer, d.initializer, rules, []⟩ := by
      unfold build?
      rw [placed]
      rfl
    exact .inr ⟨_, hbuild, rfl, describes hbuild hrules⟩

/-- A draft of a sequence's result without a name, and a place for the name. -/
def misplaced (labelSpan : Span) : Draft :=
  ⟨none, none, [.of "Start" (.labeled .empty none labelSpan true (.exactly "a")) none]⟩

/-- The place of a label that is missing is not kept: drafts that differ there become one grammar. -/
theorem place_of_missing_label_is_lost : ∃ g, (misplaced ⟨3, 5⟩).build? = .ok g ∧ (misplaced .empty).build? = .ok g ∧
    g.rules.map (fun rule => g.definition? rule.body.id) ≠ (misplaced ⟨3, 5⟩).rules.map fun rule => some rule.body := by
  refine ⟨_, rfl, rfl, fun h => ?_⟩
  cases h

end Draft

end PegCompiler
