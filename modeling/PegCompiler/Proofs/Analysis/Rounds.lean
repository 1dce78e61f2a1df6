/-
The limits of the search for match results: how often a rule is judged before it counts as divergent, and how
many rules are judged within each other. What a search finds is found with higher limits too (`Agrees`), and it
is found with two rounds, so it is the same for all limits from there on.
-/
import PegCompiler.Proofs.Analysis.Search

namespace PegCompiler

namespace Analysis.Matching

/-- Where the first search succeeds, so does the second one, with the same result and the same table. -/
def Agrees {α : Type} (x y : Finding α) : Prop := ∀ m v m', x m = .ok v m' → y m = .ok v m'

namespace Agrees

variable {α β : Type} {x y : Finding α}

theorem refl (x : Finding α) : Agrees x x := fun _ _ _ h => h

/-- With a search that fails all agree. -/
theorem of_throw (e : MatchingError) (y : Finding α) : Agrees (throw e) y := fun _ _ _ h => by cases h

theorem bind {f k : α → Finding β} (h : Agrees x y) (hf : ∀ v, Agrees (f v) (k v)) : Agrees (x >>= f) (y >>= k) := by
  intro m v m' hx
  obtain ⟨u, m₁, h₁, h₂⟩ := bind_ok_iff.1 hx
  exact bind_ok_iff.2 ⟨u, m₁, h m u m₁ h₁, hf u m₁ v m' h₂⟩

theorem bind_left (h : Agrees x y) (f : α → Finding β) : Agrees (x >>= f) (y >>= f) := h.bind fun v => .refl (f v)

end Agrees

section Limits

variable {rule rule' : RuleId → Finding MatchResult}

theorem agrees_any {es : List Expr} (h : ∀ e ∈ es, Agrees (findExpr rule e) (findExpr rule' e)) (sofar : MatchResult) :
    Agrees (findAny rule sofar es) (findAny rule' sofar es) := by
  induction es generalizing sofar with
  | nil => exact .refl _
  | cons e es ih =>
    exact (h e List.mem_cons_self).bind fun v => ih (fun e' he => h e' (List.mem_cons_of_mem _ he)) (sofar.or v)

theorem agrees_all {es : List Expr} (h : ∀ e ∈ es, Agrees (findExpr rule e) (findExpr rule' e)) (sofar : MatchResult) :
    Agrees (findAll rule sofar es) (findAll rule' sofar es) := by
  induction es generalizing sofar with
  | nil => exact .refl _
  | cons e es ih =>
    exact (h e List.mem_cons_self).bind fun v => ih (fun e' he => h e' (List.mem_cons_of_mem _ he)) (sofar.and v)

theorem agrees_expr (h : ∀ t, Agrees (rule t) (rule' t)) (e : Expr) : Agrees (findExpr rule e) (findExpr rule' e) := by
  induction e using Expr.induction_children with
  | h e of =>
    cases e with
    | choice i first others =>
      refine (of first List.mem_cons_self).bind fun v => ?_
      exact (agrees_any (fun e he => of e (List.mem_cons_of_mem _ he)) v).bind_left _
    | sequence i elements => exact (agrees_all of _).bind_left _
    | labeled _ _ _ body | action _ body _ | named _ _ body | text _ body | oneOrMore _ body | group _ body
    | simpleAnd _ body | simpleNot _ body | optional _ body | zeroOrMore _ body =>
      exact (of body List.mem_cons_self).bind_left _
    | repeated i body min max delimiter =>
      cases delimiter with
      | none => exact (of body List.mem_cons_self).bind_left _
      | some d =>
        refine (of body List.mem_cons_self).bind fun v => ?_
        exact (of d (List.mem_cons_of_mem _ List.mem_cons_self)).bind_left _
    | ruleRef i name target =>
      cases target with
      | none => exact .refl _
      | some t => exact (h t).bind_left _
    | literal | charClass | any | semanticAnd | semanticNot => exact .refl _

theorem agrees_settle {x y : Finding MatchResult} (h : Agrees x y) (r : RuleId) (name : String) {n k : Nat}
    (hn : n ≤ k) (estimated : MatchResult) : Agrees (settle r name x n estimated) (settle r name y k estimated) := by
  induction n generalizing k estimated with
  | zero => exact .of_throw _ _
  | succ n ih =>
    obtain ⟨k, rfl⟩ := Nat.exists_eq_add_of_le' (Nat.lt_of_lt_of_le n.succ_pos hn)
    refine h.bind fun next => (Agrees.refl _).bind fun _ => ?_
    split
    · exact .refl _
    · exact ih (Nat.le_of_succ_le_succ hn) next

/-- A higher limit on the rounds changes nothing where the search succeeds. -/
theorem agrees_via (g : Grammar) {n k : Nat} (hn : n ≤ k) (h : ∀ t, Agrees (rule t) (rule' t)) (r : RuleId) :
    Agrees (findRuleVia g n rule r) (findRuleVia g k rule' r) := by
  intro m v m' hfound
  cases ho : m.ofRule? r with
  | some w =>
    rw [findRuleVia_reached ho] at hfound ⊢
    exact hfound
  | none =>
    cases hr : g.rule? r with
    | some found =>
      rw [findRuleVia_unreached ho hr] at hfound ⊢
      exact agrees_settle (agrees_expr h found.body) r found.name hn .sometimes _ v m' hfound
    | none =>
      rw [findRuleVia_absent ho hr] at hfound ⊢
      exact hfound

theorem agrees_iterate (g : Grammar) {n k : Nat} (hn : n ≤ k) (h : ∀ t, Agrees (rule t) (rule' t)) (fuel : Nat)
    (r : RuleId) : Agrees ((findRuleVia g n)^[fuel] rule r) ((findRuleVia g k)^[fuel] rule' r) := by
  induction fuel generalizing r with
  | zero => exact h r
  | succ fuel ih =>
    rw [Function.iterate_succ_apply', Function.iterate_succ_apply']
    exact agrees_via g hn ih r

theorem agrees_each (g : Grammar) (h : ∀ t, Agrees (rule t) (rule' t)) : Agrees (findEach g rule) (findEach g rule') := by
  unfold findEach
  induction g.liveIds with
  | nil => exact .refl _
  | cons r rs ih => exact ((h r).bind_left _).bind fun _ => ih

end Limits

/-! ## Limits that are never reached -/

/-- From one table the search finds the other, and no rule is judged more than twice: so it does with every limit on
the rounds from two on, and whatever it would do for a rule within as many rules as there are. -/
def Settles (g : Grammar) (m found : Matches) : Prop :=
  ∀ (rounds : Nat) (beyond : RuleId → Finding MatchResult),
    findEach g ((findRuleVia g (rounds + 2))^[g.rules.length + 1] beyond) m = .ok ⟨⟩ found

/-- The search succeeds where references stand for rules, and its results are judged from each other. -/
theorem findLive_settles {g : Grammar} {size : Nat} (hg : g.Numbered size) (hres : g.Resolved) :
    ∃ found, findLive g (.unknown size g.rules.length) = .ok ⟨⟩ found ∧ Final g found ∧
      Settles g (.unknown size g.rules.length) found := by
  have fails (t : RuleId) (rule : Finding MatchResult) := Agrees.of_throw (.divergent "") rule
  obtain ⟨found, hfound, final⟩ := findEach_final hg hres 0 fun _ => throw (.divergent "")
  have settles : Settles g (.unknown size g.rules.length) found := fun rounds beyond =>
    agrees_each g (agrees_iterate g (Nat.le_add_left 2 rounds) (fun t => fails t (beyond t)) _) _ _ _ hfound
  exact ⟨found, by rw [findLive_eq]; exact settles 4 _, final, settles⟩

/-! ## Better estimates -/

section Estimates

variable {ρ : RuleId → MatchResult}

theorem findAny_of_estimates {es : List Expr}
    (h : ∀ e ∈ es, ∀ m, ∃ m', findExpr (fun t => return ρ t) e m = .ok (judge ρ e) m') (sofar : MatchResult)
    (m : Matches) : ∃ m', findAny (fun t => return ρ t) sofar es m = .ok (judgeAny ρ sofar es) m' := by
  induction es generalizing sofar m with
  | nil => exact ⟨m, rfl⟩
  | cons e es ih =>
    obtain ⟨m₁, h₁⟩ := h e List.mem_cons_self m
    obtain ⟨m₂, h₂⟩ := ih (fun e' he => h e' (List.mem_cons_of_mem _ he)) (sofar.or (judge ρ e)) m₁
    exact ⟨m₂, (bind_ok h₁).trans h₂⟩

theorem findAll_of_estimates {es : List Expr}
    (h : ∀ e ∈ es, ∀ m, ∃ m', findExpr (fun t => return ρ t) e m = .ok (judge ρ e) m') (sofar : MatchResult)
    (m : Matches) : ∃ m', findAll (fun t => return ρ t) sofar es m = .ok (judgeAll ρ sofar es) m' := by
  induction es generalizing sofar m with
  | nil => exact ⟨m, rfl⟩
  | cons e es ih =>
    obtain ⟨m₁, h₁⟩ := h e List.mem_cons_self m
    obtain ⟨m₂, h₂⟩ := ih (fun e' he => h e' (List.mem_cons_of_mem _ he)) (sofar.and (judge ρ e)) m₁
    exact ⟨m₂, (bind_ok h₁).trans h₂⟩

/-- From estimates of rules an expression is judged by them alone. -/
theorem findExpr_of_estimates {n : Nat} (e : Expr) (hres : ∀ e' ∈ e.preorder, e'.Resolves n) (m : Matches) :
    ∃ m', findExpr (fun t => return ρ t) e m = .ok (judge ρ e) m' := by
  induction e using Expr.induction_children generalizing m with
  | h e ih =>
    have of (c : Expr) (hc : c ∈ e.children) (m : Matches) := ih c hc
      (fun e' he => hres e' (Expr.mem_preorder_of_child hc he)) m
    cases e with
    | choice i first others =>
      obtain ⟨m₁, h₁⟩ := of first List.mem_cons_self m
      obtain ⟨m₂, h₂⟩ := findAny_of_estimates (fun e he => of e (List.mem_cons_of_mem _ he)) (judge ρ first) m₁
      exact ⟨_, (bind_ok h₁).trans (bind_ok h₂)⟩
    | sequence i elements =>
      obtain ⟨m₁, h₁⟩ := findAll_of_estimates of .always m
      exact ⟨_, bind_ok h₁⟩
    | labeled _ _ _ body | action _ body _ | named _ _ body | text _ body | oneOrMore _ body | group _ body
    | simpleAnd _ body | simpleNot _ body | optional _ body | zeroOrMore _ body =>
      obtain ⟨m₁, h₁⟩ := of body List.mem_cons_self m
      exact ⟨_, bind_ok h₁⟩
    | repeated i body min max delimiter =>
      obtain ⟨m₁, h₁⟩ := of body List.mem_cons_self m
      cases delimiter with
      | none => exact ⟨_, bind_ok h₁⟩
      | some d =>
        obtain ⟨m₂, h₂⟩ := of d (List.mem_cons_of_mem _ List.mem_cons_self) m₁
        exact ⟨_, (bind_ok h₁).trans (bind_ok h₂)⟩
    | ruleRef i name target =>
      obtain ⟨t, rfl, -⟩ := hres _ (Expr.mem_preorder_self _)
      exact ⟨_, rfl⟩
    | literal | charClass | any | semanticAnd | semanticNot => exact ⟨_, rfl⟩

end Estimates

end Analysis.Matching

end PegCompiler
