/-
References that lead to a rule that is left, by its name. Those of a grammar that was built from a draft do if no
name in it is undefined: placing an expression looks every name up in the list of all names of rules, and the place
of a name in that list is the number of the rule.
-/
import PegCompiler.Analysis.References
import PegCompiler.Proofs.Grammar.Build

namespace PegCompiler

/-! ## Expressions of the rules that are left -/

namespace Grammar

theorem mem_liveExprs {g : Grammar} {e : Expr} :
    e ∈ g.liveExprs ↔ ∃ r rule, g.live? r = some rule ∧ e ∈ rule.body.preorder := by
  unfold liveExprs
  rw [List.mem_flatMap]
  constructor
  · rintro ⟨⟨r, rule⟩, hr, he⟩
    exact ⟨r, rule, mem_live.1 hr, he⟩
  · rintro ⟨r, rule, hr, he⟩
    exact ⟨(r, rule), mem_live.2 hr, he⟩

/-- Every reference that is left leads to a rule that is left, and has its name. -/
def Linked (g : Grammar) : Prop :=
  ∀ i name target, .ruleRef i name target ∈ g.liveExprs →
    ∃ t rule, target = some t ∧ g.live? t = some rule ∧ rule.name = name

end Grammar

/-! ## Names that were looked up -/

namespace Expr

/-- Every reference leads to the first of the names that is its own, if one is. -/
def LooksUp (names : List String) (e : Expr) : Prop :=
  ∀ i name target, .ruleRef i name target ∈ e.preorder → target = names.idxOf? name

variable {names : List String} {e : Expr}

/-- An expression that is no reference looks up what its parts do. -/
theorem LooksUp.node (hchildren : ∀ c ∈ e.children, c.LooksUp names) (hself : ∀ i name target, e ≠ .ruleRef i name target) :
    e.LooksUp names := by
  intro i name target hmem
  rw [preorder_eq] at hmem
  rcases List.mem_cons.1 hmem with h | h
  · exact absurd h.symm (hself i name target)
  · obtain ⟨c, hc, h⟩ := List.mem_flatMap.1 h
    exact hchildren c hc i name target h

theorem looksUp_ruleRef (i : Info) (name : String) : (ruleRef i name (names.idxOf? name)).LooksUp names := by
  intro j name' target hmem
  rw [preorder, List.mem_singleton] at hmem
  cases hmem
  rfl

end Expr

namespace Draft

variable {names : List String}

mutual

/-- Placing an expression looks its references up. -/
theorem place_looksUp : ∀ (d : Draft.Expr) {n n' : Nat} {e : PegCompiler.Expr}, d.place names n = .ok (e, n') →
    e.LooksUp names
  | .choice span [], n, n', e, h => by cases h
  | .choice span (first :: others), n, n', e, h => by
    rw [Draft.Expr.place] at h
    obtain ⟨first', n₁, hf, h⟩ := numbering_bind_ok h
    obtain ⟨others', n₂, ho, h⟩ := numbering_bind_ok h
    obtain ⟨i, -, rfl⟩ := number_pure_ok h
    refine .node (fun c hc => ?_) nofun
    rcases List.mem_cons.1 hc with rfl | hc
    · exact place_looksUp first hf
    · exact placeAll_looksUp others ho c hc
  | .sequence span elements, n, n', e, h => by
    rw [Draft.Expr.place] at h
    obtain ⟨elements', n₁, he, h⟩ := numbering_bind_ok h
    obtain ⟨i, -, rfl⟩ := number_pure_ok h
    exact .node (placeAll_looksUp elements he) nofun
  | .labeled _ _ _ _ body, n, n', e, h | .action _ body _, n, n', e, h | .text _ body, n, n', e, h
  | .simpleAnd _ body, n, n', e, h | .simpleNot _ body, n, n', e, h | .optional _ body, n, n', e, h
  | .zeroOrMore _ body, n, n', e, h | .oneOrMore _ body, n, n', e, h | .group _ body, n, n', e, h
  | .named _ _ body, n, n', e, h | .repeated _ body _ _ none, n, n', e, h => by
    rw [Draft.Expr.place] at h
    obtain ⟨body', n₁, hb, h⟩ := numbering_bind_ok h
    obtain ⟨i, -, rfl⟩ := number_pure_ok h
    exact .node (List.forall_mem_singleton.2 (place_looksUp body hb)) nofun
  | .repeated span body min max (some delimiter), n, n', e, h => by
    rw [Draft.Expr.place] at h
    obtain ⟨body', n₁, hb, h⟩ := numbering_bind_ok h
    obtain ⟨delimiter', n₂, hd, h⟩ := numbering_bind_ok h
    obtain ⟨i, -, rfl⟩ := number_pure_ok h
    refine .node (fun c hc => ?_) nofun
    rcases List.mem_cons.1 hc with rfl | hc
    · exact place_looksUp body hb
    · rw [List.mem_singleton.1 hc]
      exact place_looksUp delimiter hd
  | .charClass span k, n, n', e, h => by
    rw [Draft.Expr.place] at h
    obtain ⟨u, n₁, -, h⟩ := numbering_bind_ok h
    obtain ⟨i, -, rfl⟩ := number_pure_ok h
    exact .node nofun nofun
  | .ruleRef span name, n, n', e, h => by
    rw [Draft.Expr.place] at h
    obtain ⟨i, -, rfl⟩ := number_pure_ok h
    exact Expr.looksUp_ruleRef i name
  | .semanticAnd _ _, n, n', e, h | .semanticNot _ _, n, n', e, h | .literal _ _ _, n, n', e, h | .any _, n, n', e, h => by
    rw [Draft.Expr.place] at h
    obtain ⟨i, -, rfl⟩ := number_pure_ok h
    exact .node nofun nofun

theorem placeAll_looksUp : ∀ (ds : List Draft.Expr) {n n' : Nat} {es : List PegCompiler.Expr},
    Draft.Expr.placeAll names ds n = .ok (es, n') → ∀ e ∈ es, e.LooksUp names
  | [], n, n', es, h => by
    cases h
    exact fun e he => nomatch he
  | d :: ds, n, n', es, h => by
    rw [Draft.Expr.placeAll] at h
    obtain ⟨e, n₁, he, h⟩ := numbering_bind_ok h
    obtain ⟨es', n₂, hes, h⟩ := numbering_bind_ok h
    cases h
    exact List.forall_mem_cons.2 ⟨place_looksUp d he, placeAll_looksUp ds hes⟩

end

theorem rules_lookUp : ∀ (ds : List Draft.Rule) {n n' : Nat} {rules : List PegCompiler.Rule},
    (ds.mapM (Rule.place names)) n = .ok (rules, n') → ∀ rule ∈ rules, rule.body.LooksUp names
  | [], n, n', rules, h => by
    rw [List.mapM_nil] at h
    cases h
    exact fun rule hrule => nomatch hrule
  | d :: ds, n, n', rules, h => by
    rw [List.mapM_cons] at h
    obtain ⟨rule, n₁, hr, h⟩ := numbering_bind_ok h
    obtain ⟨rules', n₂, hrs, h⟩ := numbering_bind_ok h
    cases h
    unfold Rule.place at hr
    obtain ⟨body, n₃, hb, hr⟩ := numbering_bind_ok hr
    cases hr
    exact List.forall_mem_cons.2 ⟨place_looksUp d.body hb, rules_lookUp ds hrs⟩

/-- The references of a grammar that was built are linked if no name is undefined. -/
theorem linked {d : Draft} {g : Grammar} (h : d.build? = .ok g) (hrefs : Analysis.undefinedRules g = []) : g.Linked := by
  obtain ⟨rules, n, hr, rfl⟩ := build_ok h
  intro i name target hmem
  obtain ⟨-, hnames⟩ := placed_rules d.rules hr
  obtain ⟨r, rule, hrule, he⟩ := Grammar.mem_liveExprs.1 hmem
  have looked := rules_lookUp d.rules hr rule (List.mem_of_getElem? (Grammar.rule?_of_live? hrule)) i name target he
  cases target with
  | none => cases List.filterMap_eq_nil_iff.1 hrefs _ hmem
  | some t =>
    -- the name at the place that was found is the one that was looked for
    rw [← hnames] at looked
    obtain ⟨hlt, found, -⟩ := List.idxOf?_eq_some_iff.1 looked.symm
    rw [List.getElem_map] at found
    have hlt : t < rules.length := by rwa [List.length_map] at hlt
    exact ⟨t, rules[t], rfl, List.getElem?_eq_getElem hlt, found⟩

end Draft

end PegCompiler
