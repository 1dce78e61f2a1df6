/-
What holds of every grammar that was built from a draft: its expressions are numbered from zero in
postorder, references that stand for a rule stand for one that there is, and no rule was removed. The
numbers are followed through `place`, which takes the next free number for every expression after
those inside it.
-/
import PegCompiler.Grammar.Build
import PegCompiler.Proofs.Grammar.Numbering

namespace PegCompiler

namespace Expr

/-- References that stand for a rule stand for one of so many. -/
def RefersWithin (rules : Nat) (e : Expr) : Prop := ∀ e' ∈ e.preorder, ∀ t, e'.target? = some t → t < rules

end Expr

namespace Draft

/-! ## Numbering -/

theorem numbering_bind_ok {α β : Type} {x : Numbering α} {f : α → Numbering β} {n n' : Nat} {b : β}
    (h : (x >>= f) n = .ok (b, n')) : ∃ a m, x n = .ok (a, m) ∧ f a m = .ok (b, n') := by
  change (do let p ← x n; f p.1 p.2) = _ at h
  cases hx : x n with
  | error e => rw [hx] at h; cases h
  | ok p => rw [hx] at h; exact ⟨p.1, p.2, rfl, h⟩

/-- Expressions were numbered one after the other from a number on, and refer to rules there are. -/
structure Placed (rules : Nat) (es : List PegCompiler.Expr) (n n' : Nat) : Prop where
  numbers : (es.flatMap (·.postorder)).map PegCompiler.Expr.id = List.range' n (n' - n)
  grows : n ≤ n'
  refers : ∀ e ∈ es, e.RefersWithin rules

namespace Placed

variable {rules n n₁ n' : Nat} {es es' : List PegCompiler.Expr}

theorem nil (rules n : Nat) : Placed rules [] n n := ⟨by simp, Nat.le_refl n, fun e he => by cases he⟩

theorem append (h : Placed rules es n n₁) (h' : Placed rules es' n₁ n') : Placed rules (es ++ es') n n' := by
  refine ⟨?_, Nat.le_trans h.grows h'.grows, fun e he => ?_⟩
  · rw [List.flatMap_append, List.map_append, h.numbers, h'.numbers]
    have hsplit : n' - n = (n₁ - n) + (n' - n₁) := by
      have := h.grows; have := h'.grows; omega
    rw [hsplit, ← List.range'_append_1, Nat.add_sub_cancel' h.grows]
  · rcases List.mem_append.1 he with he | he
    · exact h.refers e he
    · exact h'.refers e he

/-- An expression takes the number after those of its parts. -/
theorem node {e : PegCompiler.Expr} {span : Span} {i : PegCompiler.Expr.Info} (h : Placed rules e.children n n₁)
    (hi : number span n₁ = .ok (i, n')) (he : e.info = i) (ht : ∀ t, e.target? = some t → t < rules) :
    Placed rules [e] n n' := by
  cases hi
  refine ⟨?_, Nat.le_succ_of_le h.grows, fun e' he' => ?_⟩
  · have hid : e.id = n₁ := by show e.info.id = n₁; rw [he]
    rw [List.flatMap_singleton, PegCompiler.Expr.postorder_eq, List.map_append, h.numbers, List.map_singleton, hid,
      Nat.succ_sub h.grows, List.range'_concat, Nat.one_mul, Nat.add_sub_cancel' h.grows]
  · rw [List.mem_singleton.1 he']
    intro e'' he'' t htarget
    rw [PegCompiler.Expr.preorder_eq] at he''
    rcases List.mem_cons.1 he'' with rfl | he''
    · exact ht t htarget
    · obtain ⟨c, hc, he''⟩ := List.mem_flatMap.1 he''
      exact h.refers c hc e'' he'' t htarget

end Placed

/-! ## Placing -/

section Place

variable {names : List String}

theorem number_pure_ok {α : Type} {span : Span} {n n' : Nat} {f : PegCompiler.Expr.Info → α} {a : α}
    (h : (do return f (← number span) : Numbering α) n = .ok (a, n')) :
    ∃ i, number span n = .ok (i, n') ∧ a = f i := by
  cases h; exact ⟨_, rfl, rfl⟩

theorem checkParts_ok {span : Span} {parts : List ClassPart} {n n' : Nat} {u : Unit}
    (h : checkParts span parts n = .ok (u, n')) : n' = n := by
  unfold checkParts at h
  generalize List.find? _ parts = found at h
  rcases found with _ | (c | ⟨first, last⟩) <;> cases h
  · rfl
  · rfl

mutual

/-- Placing an expression numbers it. -/
theorem placed_expr : ∀ (d : Draft.Expr) {n n' : Nat} {e : PegCompiler.Expr}, d.place names n = .ok (e, n') →
    Placed names.length [e] n n'
  | .choice span [], n, n', e, h => by cases h
  | .choice span (first :: others), n, n', e, h => by
    rw [Draft.Expr.place] at h
    obtain ⟨first', n₁, hf, h⟩ := numbering_bind_ok h
    obtain ⟨others', n₂, ho, h⟩ := numbering_bind_ok h
    obtain ⟨i, hi, rfl⟩ := number_pure_ok h
    exact ((placed_expr first hf).append (placed_all others ho)).node hi rfl (fun t ht => by cases ht)
  | .sequence span elements, n, n', e, h => by
    rw [Draft.Expr.place] at h
    obtain ⟨elements', n₁, he, h⟩ := numbering_bind_ok h
    obtain ⟨i, hi, rfl⟩ := number_pure_ok h
    exact (placed_all elements he).node hi rfl (fun t ht => by cases ht)
  | .labeled _ _ _ _ body, n, n', e, h | .action _ body _, n, n', e, h | .text _ body, n, n', e, h
  | .simpleAnd _ body, n, n', e, h | .simpleNot _ body, n, n', e, h | .optional _ body, n, n', e, h
  | .zeroOrMore _ body, n, n', e, h | .oneOrMore _ body, n, n', e, h | .group _ body, n, n', e, h
  | .named _ _ body, n, n', e, h | .repeated _ body _ _ none, n, n', e, h => by
    rw [Draft.Expr.place] at h
    obtain ⟨body', n₁, hb, h⟩ := numbering_bind_ok h
    obtain ⟨i, hi, rfl⟩ := number_pure_ok h
    exact (placed_expr body hb).node hi rfl (fun t ht => by cases ht)
  | .repeated span body min max (some delimiter), n, n', e, h => by
    rw [Draft.Expr.place] at h
    obtain ⟨body', n₁, hb, h⟩ := numbering_bind_ok h
    obtain ⟨delimiter', n₂, hd, h⟩ := numbering_bind_ok h
    obtain ⟨i, hi, rfl⟩ := number_pure_ok h
    exact ((placed_expr body hb).append (placed_expr delimiter hd)).node hi rfl (fun t ht => by cases ht)
  | .charClass span k, n, n', e, h => by
    rw [Draft.Expr.place] at h
    obtain ⟨u, n₁, hk, hrest⟩ := numbering_bind_ok h
    obtain rfl := checkParts_ok hk
    obtain ⟨i, hi, rfl⟩ := number_pure_ok hrest
    exact (Placed.nil _ _).node hi rfl (fun t ht => by cases ht)
  | .ruleRef span name, n, n', e, h => by
    rw [Draft.Expr.place] at h
    obtain ⟨i, hi, rfl⟩ := number_pure_ok h
    exact (Placed.nil _ _).node hi rfl fun t ht => List.idxOf?_eq_some_iff.1 ht |>.1
  | .semanticAnd _ _, n, n', e, h | .semanticNot _ _, n, n', e, h | .literal _ _ _, n, n', e, h | .any _, n, n', e, h => by
    rw [Draft.Expr.place] at h
    obtain ⟨i, hi, rfl⟩ := number_pure_ok h
    exact (Placed.nil _ _).node hi rfl (fun t ht => by cases ht)

theorem placed_all : ∀ (ds : List Draft.Expr) {n n' : Nat} {es : List PegCompiler.Expr},
    Draft.Expr.placeAll names ds n = .ok (es, n') → Placed names.length es n n'
  | [], n, n', es, h => by cases h; exact .nil _ _
  | d :: ds, n, n', es, h => by
    rw [Draft.Expr.placeAll] at h
    obtain ⟨e, n₁, he, h⟩ := numbering_bind_ok h
    obtain ⟨es', n₂, hes, h⟩ := numbering_bind_ok h
    cases h
    exact (placed_expr d he).append (placed_all ds hes)

end

end Place

/-! ## Whole grammars -/

theorem placed_rules {names : List String} : ∀ (ds : List Draft.Rule) {n n' : Nat} {rules : List PegCompiler.Rule},
    (ds.mapM (Rule.place names)) n = .ok (rules, n') →
      Placed names.length (rules.map (·.body)) n n' ∧ rules.map (·.name) = ds.map (·.name)
  | [], n, n', rules, h => by
    rw [List.mapM_nil] at h
    cases h; exact ⟨.nil _ _, rfl⟩
  | d :: ds, n, n', rules, h => by
    rw [List.mapM_cons] at h
    obtain ⟨rule, n₁, hr, h⟩ := numbering_bind_ok h
    obtain ⟨rules', n₂, hrs, h⟩ := numbering_bind_ok h
    cases h
    unfold Rule.place at hr
    obtain ⟨body, n₃, hb, hr⟩ := numbering_bind_ok hr
    cases hr
    obtain ⟨hplaced, hnames⟩ := placed_rules ds hrs
    exact ⟨(placed_expr d.body hb).append hplaced, congrArg (d.name :: ·) hnames⟩

end Draft

/-- What building a draft makes sure of. -/
structure Grammar.Built (g : Grammar) : Prop where
  numbers : g.arena.map Expr.id = List.range g.arena.length
  refers : ∀ r e, g.Inside r e → ∀ t, e.target? = some t → t < g.rules.length
  removed : g.removed = []

theorem Draft.build_ok {d : Draft} {g : Grammar} (h : d.build? = .ok g) : ∃ rules n,
    (d.rules.mapM (Rule.place (d.rules.map (·.name)))) 0 = .ok (rules, n) ∧
      g = ⟨d.topLevelInitializer, d.initializer, rules, []⟩ := by
  unfold Draft.build? at h
  cases hr : (d.rules.mapM (Rule.place (d.rules.map (·.name)))).run 0 with
  | error e => rw [hr] at h; cases h
  | ok p => rw [hr] at h; cases h; exact ⟨p.1, p.2, hr, rfl⟩

theorem Draft.built {d : Draft} {g : Grammar} (h : d.build? = .ok g) : g.Built := by
  obtain ⟨rules, n, hr, rfl⟩ := Draft.build_ok h
  obtain ⟨hplaced, hnames⟩ := placed_rules d.rules hr
  have hlen : rules.length = d.rules.length := by
    have := congrArg List.length hnames
    rwa [List.length_map, List.length_map] at this
  refine ⟨?_, fun r e he t ht => ?_, rfl⟩
  · have hnumbers := hplaced.numbers
    rw [List.flatMap_map] at hnumbers
    have hcount := congrArg List.length hnumbers
    rw [List.length_map, List.length_range'] at hcount
    show (rules.flatMap fun rule => rule.body.postorder).map Expr.id = List.range _
    rw [hnumbers, List.range_eq_range', ← hcount]
    rfl
  · obtain ⟨body, hb, he⟩ := he.mem
    have := hplaced.refers body hb e he t ht
    rw [List.length_map] at this
    show t < rules.length
    rw [hlen]; exact this

namespace Grammar.Built

variable {g : Grammar}

theorem numbered (h : g.Built) : g.Numbered g.arena.length := by
  have perm : (Expr.ids (g.rules.map (·.body))).Perm (List.range g.arena.length) := by
    rw [← h.numbers]
    unfold Expr.ids Grammar.arena
    rw [List.flatMap_map]
    exact (List.Perm.flatMap_left _ fun rule _ => (Expr.postorder_perm_preorder rule.body).symm).map _
  exact ⟨perm.nodup_iff.2 List.nodup_range, fun i hi => List.mem_range.1 (perm.mem_iff.1 hi)⟩

end Grammar.Built

end PegCompiler
