/-
The search for match results succeeds where references stand for rules. A rule that is not reached yet is
judged once or twice, whatever the limit on the rounds is from two on: what its body gives in the first round
is `sometimes`, which is the estimate, or definite, and then the better estimate gives it again
(`judge_mono`). The rules that its body refers to were all reached in the first round.
-/
import Mathlib.Logic.Function.Iterate
import PegCompiler.Proofs.Analysis.Matching

namespace PegCompiler

namespace Analysis.Matching

open MatchResult

section Search

variable {g : Grammar} {size : Nat} {a : RuleId} {es es' : List Expr} {m m' m₁ m₂ : Matches}

/-! ## Judging rules -/

/-- The table with another estimate of a rule. -/
def withRule (m : Matches) (r : RuleId) (result : MatchResult) : Matches :=
  { m with rules := m.rules.setIfInBounds r (some result) }

theorem ofRule?_withRule_self {r : RuleId} (hr : r < m.rules.size) (x : MatchResult) :
    (withRule m r x).ofRule? r = some x := by
  show (m.rules.setIfInBounds r _).getD r none = _
  rw [Array.getD_eq_getD_getElem?, Array.getElem?_setIfInBounds_self_of_lt hr]; rfl

theorem ofRule?_withRule_ne {r s : RuleId} (hs : s ≠ r) (x : MatchResult) :
    (withRule m r x).ofRule? s = m.ofRule? s := by
  show (m.rules.setIfInBounds r _).getD s none = m.rules.getD s none
  rw [Array.getD_eq_getD_getElem?, Array.getElem?_setIfInBounds_ne hs.symm, ← Array.getD_eq_getD_getElem?]

theorem guess_withRule_ne {r s : RuleId} (hs : s ≠ r) (x : MatchResult) : (withRule m r x).guess s = m.guess s := by
  unfold Matches.guess
  rw [ofRule?_withRule_ne hs]

theorem guess_withRule_self {r : RuleId} (hr : r < m.rules.size) (x : MatchResult) :
    (withRule m r x).guess r = x := by
  unfold Matches.guess
  rw [ofRule?_withRule_self hr]; rfl

theorem guess_withRule_vaguer {r : RuleId} (hr : r < m.rules.size) {x : MatchResult} (hx : Vaguer (m.guess r) x)
    (s : RuleId) : Vaguer (m.guess s) ((withRule m r x).guess s) := by
  by_cases hs : s = r
  · subst hs
    rw [guess_withRule_self hr]; exact hx
  · exact .inr (guess_withRule_ne hs x).symm

/-- A table on the way from `m` while a rule is judged: all but this rule is as after the search, and what was
reached is led to from it. -/
structure Settling (g : Grammar) (r : RuleId) (m m' : Matches) : Prop where
  exprs : m'.exprs.size = m.exprs.size
  rules : m'.rules.size = m.rules.size
  kept : ∀ s v, m.ofRule? s = some v → m'.ofRule? s = some v
  frame : ∀ i, (∀ s e, m.ofRule? s = none → g.Inside s e → e.id ≠ i) →
    m'.exprs.getD i .sometimes = m.exprs.getD i .sometimes
  done : ∀ s rule, s ≠ r → g.rule? s = some rule → m.ofRule? s = none → (m'.ofRule? s).isSome →
    Done g m' s rule.body
  led : ReachedFrom g r m m'
  reached : (m'.ofRule? r).isSome

namespace Settling

variable {r : RuleId} {rule : Rule}

theorem start (hn : m.ofRule? r = none) (hr : r < m.rules.size) (x : MatchResult) :
    Settling g r m (withRule m r x) := by
  refine ⟨rfl, Array.size_setIfInBounds, fun s v hs => ?_, fun i _ => rfl, fun s _ hsr _ hs hs' => ?_,
    fun s hs hs' => ?_, ?_⟩
  · rw [ofRule?_withRule_ne (by rintro rfl; rw [hn] at hs; cases hs), hs]
  · rw [ofRule?_withRule_ne hsr, hs] at hs'; cases hs'
  · by_cases hsr : s = r
    · exact hsr ▸ .refl
    · rw [ofRule?_withRule_ne hsr, hs] at hs'; cases hs'
  · rw [ofRule?_withRule_self hr]; rfl

theorem round (h : Settling g r m m₁) (hn : m.ofRule? r = none) (hrule : g.rule? r = some rule)
    (hg : g.Numbered size) (h' : Grows g [rule.body] m₁ m₂) (hled : ReachedFrom g r m₁ m₂) : Settling g r m m₂ := by
  refine ⟨h'.exprs.trans h.exprs, h'.rules.trans h.rules, fun s v hs => h'.kept s v (h.kept s v hs),
    fun i hi => ?_, fun s rule' hsr hrule' hs hs' => ?_, h.led.trans hled, h'.reached h.reached⟩
  · rw [h'.frame i ?_ ?_, h.frame i hi]
    · intro hmem
      obtain ⟨e, he, e', he', hid⟩ := Expr.mem_ids.1 hmem
      rw [List.mem_singleton.1 he] at he'
      exact hi r e' hn ⟨rule, hrule, he'⟩ hid
    · intro s e hs he
      refine hi s e ?_ he
      cases hm : m.ofRule? s with
      | none => rfl
      | some v => rw [h.kept s v hm] at hs; cases hs
  · cases hm : m₁.ofRule? s with
    | none => exact h'.done s rule' hrule' hm hs'
    | some v =>
      have hreached : (m₁.ofRule? s).isSome := by rw [hm]; rfl
      refine (h.done s rule' hsr hrule' hs hreached).later hrule' hreached h' hg fun e he hi => ?_
      obtain ⟨e₀, he₀, e', he', hid⟩ := Expr.mem_ids.1 hi
      rw [List.mem_singleton.1 he₀] at he'
      exact hg.ne ⟨rule, hrule, he'⟩ ⟨rule', hrule', he⟩ (Ne.symm hsr) hid

/-- Another estimate of the rule leaves those right that were judged with an older one: the rule leads to them. -/
theorem estimate (h : Settling g r m m₁) (hn : m.ofRule? r = none) (hr : r < m.rules.size) {x : MatchResult}
    (hx : Vaguer (m₁.guess r) x) : Settling g r m (withRule m₁ r x) := by
  have hr₁ : r < m₁.rules.size := by rw [h.rules]; exact hr
  refine ⟨h.exprs, Array.size_setIfInBounds.trans h.rules, fun s v hs => ?_, h.frame,
    fun s rule' hsr hrule' hs hs' => ?_, fun s hs hs' => ?_, ?_⟩
  · rw [ofRule?_withRule_ne (by rintro rfl; rw [hn] at hs; cases hs), h.kept s v hs]
  · rw [ofRule?_withRule_ne hsr] at hs'
    have hd := h.done s rule' hsr hrule' hs hs'
    obtain ⟨ρ, hρ, he, hs''⟩ := hd.settled
    refine ⟨⟨ρ, fun t => (hρ t).trans (guess_withRule_vaguer hr₁ hx t), he, ?_⟩, fun e he t ht => ?_⟩
    · rw [guess_withRule_ne hsr, hs'']
    · by_cases htr : t = r
      · subst htr
        rw [ofRule?_withRule_self hr₁]
        exact ⟨rfl, .inr ⟨Ne.symm hsr, h.led s hs hs'⟩⟩
      · rw [ofRule?_withRule_ne htr, guess_withRule_ne htr]
        exact hd.current e he t ht
  · by_cases hsr : s = r
    · exact hsr ▸ .refl
    · exact h.led s hs (by rwa [ofRule?_withRule_ne hsr] at hs')
  · rw [ofRule?_withRule_self hr₁]; rfl

theorem finish (h : Settling g r m m₁) (hrule : g.rule? r = some rule) (hd : Done g m₁ r rule.body) :
    Grows g [] m m₁ :=
  ⟨h.exprs, h.rules, h.kept, fun i _ => h.frame i, fun s rule' hrule' hn hs' => by
    by_cases hsr : s = r
    · subst hsr
      rw [hrule] at hrule'
      cases hrule'
      exact hd
    · exact h.done s rule' hsr hrule' hn hs'⟩

theorem ready (h : Settling g r m m₁) (hn : m.ofRule? r = none) (hr : r < g.rules.length) {fuel : Nat}
    (hm : Ready g size (fuel + 1) m) : Ready g size fuel m₁ := by
  refine ⟨h.exprs.trans hm.exprs, h.rules.trans hm.rules, Nat.lt_of_lt_of_le (Finset.card_lt_card ?_)
    (Nat.le_of_lt_succ hm.fuel)⟩
  unfold unreached
  refine Finset.ssubset_iff_of_subset (fun s hs => ?_) |>.2 ⟨r, ?_, ?_⟩
  · rw [Finset.mem_filter] at hs ⊢
    refine ⟨hs.1, ?_⟩
    cases ho : m.ofRule? s with
    | none => rfl
    | some v => rw [h.kept s v ho] at hs; cases hs.2
  · exact Finset.mem_filter.2 ⟨Finset.mem_range.2 hr, hn⟩
  · intro hmem
    have := h.reached
    rw [(Finset.mem_filter.1 hmem).2] at this
    cases this

/-- The rule is done where its estimate is the result of its body. -/
theorem done_of_judged (h : Settling g r m m₁) (hr : r < m.rules.size) {body : Expr} (hj : Judged m₁ body)
    (hbody : m₁.guess r = judge m₁.guess body) : Done g (withRule m₁ r (judge m₁.guess body)) r body := by
  have hr₁ : r < m₁.rules.size := by rw [h.rules]; exact hr
  have same : ∀ t, (withRule m₁ r (judge m₁.guess body)).guess t = m₁.guess t := fun t => by
    by_cases ht : t = r
    · rw [ht, guess_withRule_self hr₁, hbody]
    · exact guess_withRule_ne ht _
  refine ⟨⟨m₁.guess, fun t => .inr (same t).symm, hj.1, by rw [same, hbody]⟩, fun e he t ht => ⟨?_, .inl ?_⟩⟩
  · by_cases htr : t = r
    · rw [htr, ofRule?_withRule_self hr₁]; rfl
    · rw [ofRule?_withRule_ne htr]; exact hj.2 e he t ht
  · rw [same]
    exact (hj.1 e he).trans (judge_of_target ht)

end Settling

theorem settle_succ {r : RuleId} {name : String} {judging : Finding MatchResult} {rounds : Nat}
    {estimated next : MatchResult} (h : judging m = .ok next m₁) :
    settle r name judging (rounds + 1) estimated m =
      if next = estimated then .ok estimated (withRule m₁ r next)
      else settle r name judging rounds next (withRule m₁ r next) := by
  rw [settle, bind_ok h, bind_ok (show estimate r next m₁ = .ok ⟨⟩ (withRule m₁ r next) from rfl)]
  split <;> rfl

/-- The result of a rule that is judged at most `rounds` times, where `rule` tells that of others. -/
def findRuleVia (g : Grammar) (rounds : Nat) (rule : RuleId → Finding MatchResult) (r : RuleId) :
    Finding MatchResult := do
  let m ← get
  (m.ofRule? r).elim ((g.rule? r).elim (return .sometimes) fun found => do
    estimate r .sometimes
    settle r found.name (findExpr rule found.body) rounds .sometimes) pure

section Via

variable {rounds : Nat} {next : RuleId → Finding MatchResult}

theorem findRuleVia_reached {r : RuleId} {v : MatchResult} (h : m.ofRule? r = some v) :
    findRuleVia g rounds next r m = .ok v m := by
  rw [findRuleVia, bind_ok (show (get : Finding Matches) m = .ok m m from rfl), h]; rfl

theorem findRuleVia_unreached {r : RuleId} {rule : Rule} (h : m.ofRule? r = none) (hr : g.rule? r = some rule) :
    findRuleVia g rounds next r m =
      settle r rule.name (findExpr next rule.body) rounds .sometimes (withRule m r .sometimes) := by
  rw [findRuleVia, bind_ok (show (get : Finding Matches) m = .ok m m from rfl), h, hr]; rfl

theorem findRuleVia_absent {r : RuleId} (h : m.ofRule? r = none) (hr : g.rule? r = none) :
    findRuleVia g rounds next r m = .ok .sometimes m := by
  rw [findRuleVia, bind_ok (show (get : Finding Matches) m = .ok m m from rfl), h, hr]; rfl

end Via

/-- The search for the result of a rule nests `fuel` rules and stops at `maxRounds`. -/
theorem findRuleWithin_eq (g : Grammar) (fuel : Nat) :
    findRuleWithin g fuel = (findRuleVia g maxRounds)^[fuel] fun _ => return .sometimes := by
  induction fuel with
  | zero => rfl
  | succ fuel ih =>
    rw [Function.iterate_succ_apply', ← ih]
    funext r m
    rw [findRuleWithin, bind_ok (show (get : Finding Matches) m = .ok m m from rfl)]
    cases h : m.ofRule? r with
    | some v => rw [findRuleVia_reached h]; rfl
    | none =>
      cases hr : g.rule? r with
      | some rule => rw [findRuleVia_unreached h hr]; rfl
      | none => rw [findRuleVia_absent h hr]; rfl

/-- A rule that is not reached yet is judged twice at most, where judging its body succeeds. -/
theorem settles_rule {fuel rounds : Nat} {r : RuleId} {rule : Rule} {judging : Finding MatchResult} (name : String)
    (hg : g.Numbered size) (hr : r < g.rules.length) (hrule : g.rule? r = some rule)
    (body : Finds g size fuel r [rule.body] judging fun ρ => judge ρ rule.body) (hm : Ready g size (fuel + 1) m)
    (hn : m.ofRule? r = none) :
    ∃ m', settle r name judging (rounds + 2) .sometimes (withRule m r .sometimes) = .ok (m'.guess r) m' ∧
      Grows g [] m m' ∧ ReachedFrom g r m m' ∧ (m'.ofRule? r).isSome := by
  have hr' : r < m.rules.size := by rw [hm.rules]; exact hr
  have s₀ : Settling g r m (withRule m r .sometimes) := .start hn hr' _
  obtain ⟨m₁, h₁, g₁, l₁, j₁⟩ := body.run _ (s₀.ready hn hr hm) s₀.reached
  have j₁ := j₁ rule.body (List.mem_singleton_self _)
  have s₁ := s₀.round hn hrule hg g₁ l₁
  have hr₁ : r < m₁.rules.size := by rw [s₁.rules]; exact hr'
  have guess₁ : m₁.guess r = .sometimes := by rw [g₁.guess_eq s₀.reached, guess_withRule_self hr']
  have v₁ : Vaguer (m₁.guess r) (judge m₁.guess rule.body) := .inl guess₁
  have s₁' := s₁.estimate hn hr' v₁
  rw [settle_succ h₁]
  by_cases hsame : judge m₁.guess rule.body = .sometimes
  · rw [if_pos hsame]
    have done := s₁.done_of_judged hr' j₁ (guess₁.trans hsame.symm)
    refine ⟨_, ?_, s₁'.finish hrule done, s₁'.led, s₁'.reached⟩
    rw [guess_withRule_self hr₁, hsame]
  · -- the estimate was wrong: the second round, which starts from the result, finds it again
    rw [if_neg hsame]
    obtain ⟨m₂, h₂, g₂, l₂, j₂⟩ := body.run _ (s₁'.ready hn hr hm) s₁'.reached
    have j₂ := j₂ rule.body (List.mem_singleton_self _)
    have s₂ := s₁'.round hn hrule hg g₂ l₂
    have same : judge m₁.guess rule.body = judge m₂.guess rule.body := by
      refine (judge_mono _ fun _ _ t _ => ?_).eq_of_definite hsame
      exact (guess_withRule_vaguer hr₁ v₁ t).trans (g₂.vaguer t)
    have guess₂ : m₂.guess r = judge m₂.guess rule.body := by
      rw [g₂.guess_eq s₁'.reached, guess_withRule_self hr₁, same]
    have s₂' := s₂.estimate hn hr' (.inr guess₂)
    rw [settle_succ h₂, if_pos same.symm]
    refine ⟨_, ?_, s₂'.finish hrule (s₂.done_of_judged hr' j₂ guess₂), s₂'.led, s₂'.reached⟩
    rw [guess_withRule_self (by rw [s₂.rules]; exact hr'), same]

/-- The result of every rule is found with two rounds, however deep rules are nested. -/
theorem finds_rules (hg : g.Numbered size) (hres : g.Resolved) (rounds : Nat) (beyond : RuleId → Finding MatchResult)
    (fuel : Nat) : FindsRules g size fuel ((findRuleVia g (rounds + 2))^[fuel] beyond) := by
  induction fuel with
  | zero => exact fun t _ m hm => absurd hm.fuel (Nat.not_lt_zero _)
  | succ fuel ih =>
    intro r hr m hm
    rw [Function.iterate_succ_apply']
    obtain ⟨rule, hrule⟩ : ∃ rule, g.rule? r = some rule := ⟨_, List.getElem?_eq_getElem hr⟩
    cases hn : m.ofRule? r with
    | some v =>
      refine ⟨m, ?_, .refl _ _ _, .of_eq rfl, by rw [hn]; rfl⟩
      rw [findRuleVia_reached hn]
      unfold Matches.guess
      rw [hn]; rfl
    | none =>
      rw [findRuleVia_unreached hn hrule]
      have body := finds_expr hg ih (hres r) rule.body ⟨rule, hrule, Expr.mem_preorder_self _⟩
      exact settles_rule rule.name hg hr hrule body hm hn

/-! ## The whole search -/

/-- Finds the results of the remaining rules, where `rule` tells that of one. -/
def findEach (g : Grammar) (rule : RuleId → Finding MatchResult) : Finding Unit :=
  g.liveIds.forM fun r => do let _ ← rule r

/-- The results that the search ends with. -/
structure Complete (g : Grammar) (found : Matches) : Prop where
  reached : ∀ r ∈ g.liveIds, (found.ofRule? r).isSome
  settled : ∀ r rule, g.rule? r = some rule → (found.ofRule? r).isSome → Settled found r rule.body

/-- The results that the search ends with, and what references have. -/
structure Final (g : Grammar) (found : Matches) : Prop extends Complete g found where
  current : ∀ r rule, g.rule? r = some rule → (found.ofRule? r).isSome → Current g found r rule.body

theorem finds_each (hg : g.Numbered size) {fuel : Nat} {rule : RuleId → Finding MatchResult}
    (hrule : FindsRules g size fuel rule) (rs : List RuleId) (hrs : ∀ r ∈ rs, r < g.rules.length)
    (hm : Ready g size fuel m) :
    ∃ m', (rs.forM fun r => do let _ ← rule r) m = .ok ⟨⟩ m' ∧ Grows g [] m m' ∧ ∀ r ∈ rs, (m'.ofRule? r).isSome := by
  induction rs generalizing m with
  | nil => exact ⟨m, rfl, .refl _ _ _, fun r hr => by cases hr⟩
  | cons r rs ih =>
    obtain ⟨m₁, h₁, g₁, -, s₁⟩ := hrule r (hrs r List.mem_cons_self) m hm
    obtain ⟨m₂, h₂, g₂, s₂⟩ := ih (fun r' hr' => hrs r' (List.mem_cons_of_mem _ hr')) (hm.later g₁)
    refine ⟨m₂, ?_, g₁.trans g₂ hg (fun e he => by cases he), fun r' hr' => ?_⟩
    · have first : (do let _ ← rule r) m = .ok ⟨⟩ m₁ := bind_ok h₁
      exact (bind_ok first).trans h₂
    · rcases List.mem_cons.1 hr' with rfl | hr'
      · exact g₂.reached s₁
      · exact s₂ r' hr'

theorem unknown_ofRule? (exprs rules : Nat) (r : RuleId) : (Matches.unknown exprs rules).ofRule? r = none := by
  show (Array.replicate rules none).getD r none = none
  rw [Array.getD_eq_getD_getElem?, Array.getElem?_replicate]
  split <;> rfl

/-- The search succeeds where references stand for rules, whatever it would do beyond so many rules within each
other and with any limit on the rounds from two on. -/
theorem findEach_final (hg : g.Numbered size) (hres : g.Resolved) (rounds : Nat)
    (beyond : RuleId → Finding MatchResult) :
    ∃ found, findEach g ((findRuleVia g (rounds + 2))^[g.rules.length + 1] beyond) (.unknown size g.rules.length) =
      .ok ⟨⟩ found ∧ Final g found := by
  have hm : Ready g size (g.rules.length + 1) (.unknown size g.rules.length) := by
    refine ⟨Array.size_replicate, Array.size_replicate, Nat.lt_succ_of_le ?_⟩
    refine (Finset.card_le_card (Finset.filter_subset _ _)).trans ?_
    rw [Finset.card_range]
  obtain ⟨found, h, hgrows, hreached⟩ :=
    finds_each hg (finds_rules hg hres rounds beyond _) g.liveIds (fun r hr => g.lt_of_mem_liveIds hr) hm
  have done r rule (hrule : g.rule? r = some rule) := hgrows.done r rule hrule (unknown_ofRule? _ _ r)
  exact ⟨found, h, ⟨hreached, fun r rule hrule hs => (done r rule hrule hs).settled⟩,
    fun r rule hrule hs => (done r rule hrule hs).current⟩

theorem findLive_eq (g : Grammar) :
    findLive g = findEach g ((findRuleVia g maxRounds)^[g.rules.length + 1] fun _ => return .sometimes) := by
  rw [← findRuleWithin_eq]; rfl

end Search

end Analysis.Matching

end PegCompiler
