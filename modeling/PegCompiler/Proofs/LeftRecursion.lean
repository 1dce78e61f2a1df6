/-
What is reported about left recursion. An error is reported just if a remaining rule can come back to itself before
anything is consumed, and it names a cycle of calls with a reference for each of them. Not every cycle is named: the
walk does not enter a rule again that it has left, so of the cycles through that rule it may miss those that another way
leads into.
-/
import PegCompiler.Grammar.Build
import PegCompiler.Proofs.Analysis.LeftRecursion

namespace PegCompiler

/-- References in remaining rules stand for remaining rules. -/
def Grammar.RefersToLive (g : Grammar) : Prop := ∀ e ∈ g.liveExprs, ∀ t ∈ e.target?, t ∈ g.liveIds

instance (g : Grammar) : Decidable g.RefersToLive :=
  inferInstanceAs (Decidable (∀ e ∈ g.liveExprs, ∀ t ∈ e.target?, t ∈ g.liveIds))

theorem Grammar.RefersToLive.inside {g : Grammar} (h : g.RefersToLive) {r : RuleId} (hr : r ∈ g.liveIds) {e : Expr}
    (he : g.Inside r e) {t : RuleId} (ht : e.target? = some t) : t ∈ g.liveIds := by
  obtain ⟨rule, hrule⟩ := Grammar.mem_liveIds.1 hr
  obtain ⟨rule', hrule', he⟩ := he
  cases (Grammar.rule?_of_live? hrule).symm.trans hrule'
  exact h e (List.mem_flatMap.2 ⟨(r, rule), Grammar.mem_live.2 hrule, he⟩) t ht

namespace Analysis

variable {g : Grammar}

/-- A rule can call another one before it has consumed anything, and none of them was removed. -/
def LiveCalls (g : Grammar) (r t : RuleId) : Prop := r ∈ g.liveIds ∧ t ∈ g.liveIds ∧ LeftCalls g t r

/-- An error names a cycle of just these rules. -/
def Reported (g : Grammar) (rules : List RuleId) : Prop :=
  ∃ d ∈ leftRecursion g, ∃ told, told.Perm rules ∧ LeftCycle g told ∧ Reports g told d

section Closed

variable (closed : g.RefersToLive)

include closed

/-- Every error names a cycle of remaining rules. -/
theorem exists_cycle {d : Diagnostic} (hd : d ∈ leftRecursion g) :
    ∃ rules, LeftCycle g rules ∧ (∀ r ∈ rules, r ∈ g.liveIds) ∧ Reports g rules d := by
  obtain ⟨w, found, sound, -⟩ := exists_search (G := (· ∈ g.liveIds)) (fun r => Grammar.lt_of_mem_liveIds)
    (fun _ => id) fun r hr e he t => closed.inside hr he
  rw [found, List.mem_reverse] at hd
  obtain ⟨rules, names⟩ := sound.named d hd
  exact ⟨rules, names.cycle, names.inside, names.reports⟩

/-- Of steps that go on and on, one closes a cycle that is reported. -/
theorem exists_closing {step : RuleId → RuleId → Prop}
    (onward : ∀ r t, step r t → LiveCalls g r t ∧ ∃ t', step t t') {r t : RuleId} (hstep : step r t) :
    ∃ r t, step r t ∧ ∃ rules, LeftCycle g rules ∧ (r, t) ∈ roundTrip rules ∧ Reported g rules := by
  obtain ⟨w, found, sound, left⟩ := exists_search (G := (· ∈ g.liveIds)) (fun r => Grammar.lt_of_mem_liveIds)
    (fun _ => id) fun r hr e he t => closed.inside hr he
  have calls (r t : RuleId) (h : step r t) : LeftCalls g t r ∧ ∃ t', step t t' := ⟨(onward r t h).1.2.2, (onward r t h).2⟩
  obtain ⟨r, t, hstep, rules, cycle, closing, members, hm, same⟩ :=
    sound.ordered.closes calls (left r (onward r t hstep).1.1) hstep
  obtain ⟨d, hd, told, same', names⟩ := sound.reported members hm
  refine ⟨r, t, hstep, rules, cycle, closing, d, ?_, told, same'.symm.trans same, names.cycle, names.reports⟩
  rwa [found, List.mem_reverse]

end Closed

/-- `A = B / C`, `B = A` and `C = B`. -/
def twoWays : Grammar where
  topLevelInitializer := none
  initializer := none
  rules := [
    ⟨"A", .empty, none, .choice ⟨2, .empty⟩ (.ruleRef ⟨0, .empty⟩ "B" (some 1)) [.ruleRef ⟨1, .empty⟩ "C" (some 2)], .empty⟩,
    ⟨"B", .empty, none, .ruleRef ⟨3, .empty⟩ "A" (some 0), .empty⟩,
    ⟨"C", .empty, none, .ruleRef ⟨4, .empty⟩ "B" (some 1), .empty⟩]
  removed := []

theorem leftCycle_twoWays : LeftCycle twoWays [0, 2, 1] where
  nonempty := List.cons_ne_nil _ _
  nodup := by decide
  calls := by
    have calls : LeftCalls twoWays 2 0 ∧ LeftCalls twoWays 1 2 ∧ LeftCalls twoWays 0 1 :=
      ⟨⟨_, rfl, .inr (.inl rfl)⟩, ⟨_, rfl, rfl⟩, ⟨_, rfl, rfl⟩⟩
    simpa [roundTrip] using calls

/-! ## What is reported -/

/-- The search ends, whatever were done where its fuel and that of its questions about consumption end. It reports an
error just if calls before anything is consumed lead a remaining rule back to itself, and every error names a cycle of
such calls, with the place of a reference for each. -/
theorem left_recursion_is_exact (closed : g.RefersToLive) :
    (∀ beyondRule beyond, (((g.liveIds.forM ((CycleWalk.walkRuleVia g
      (Consumption.ofExpr ((Consumption.ofRuleVia g)^[g.rules.length + 1] beyondRule)))^[g.rules.length + 1] beyond
        ⟨[], []⟩)).run default).2.reports).reverse = leftRecursion g) ∧
    ((∃ d ∈ leftRecursion g, d.severity = .error) ↔ ∃ r, Relation.TransGen (LiveCalls g) r r) ∧
    ∀ d ∈ leftRecursion g, ∃ rules, LeftCycle g rules ∧ (∀ r ∈ rules, r ∈ g.liveIds) ∧ Reports g rules d := by
  refine ⟨?_, ⟨?_, ?_⟩, fun d hd => exists_cycle closed hd⟩
  · exact leftRecursion_beyond (G := (· ∈ g.liveIds)) (fun r => Grammar.lt_of_mem_liveIds) (fun _ => id)
      fun r hr e he t => closed.inside hr he
  · rintro ⟨d, hd, -⟩
    obtain ⟨rules, cycle, live, -⟩ := exists_cycle closed hd
    exact exists_transGen cycle.nonempty fun step hstep =>
      ⟨live _ (fst_mem_of_roundTrip hstep), live _ (snd_mem_of_roundTrip hstep), cycle.calls step hstep⟩
  · rintro ⟨r, round⟩
    -- The steps on ways back to the rule go on and on.
    have onward : ∀ a b, LiveCalls g a b ∧ Relation.ReflTransGen (LiveCalls g) b r →
        LiveCalls g a b ∧ ∃ c, LiveCalls g b c ∧ Relation.ReflTransGen (LiveCalls g) c r := by
      rintro a b ⟨step, back⟩
      refine ⟨step, ?_⟩
      rcases back.cases_head with rfl | next
      · exact Relation.TransGen.head'_iff.1 round
      · exact next
    obtain ⟨t, step, back⟩ := Relation.TransGen.head'_iff.1 round
    obtain ⟨_, _, _, _, _, _, d, hd, _, _, _, reports⟩ := exists_closing closed onward ⟨step, back⟩
    exact ⟨d, hd, reports.severity⟩

theorem left_recursion_is_exact_twoWays : twoWays.RefersToLive ∧ ∃ r, Relation.TransGen (LiveCalls twoWays) r r :=
  have closed : twoWays.RefersToLive := by decide
  ⟨closed, (left_recursion_is_exact closed).2.1.1 (by decide +kernel)⟩

/-! ## What is missed -/

/-- Every cycle has a step that closes a cycle that is reported. So a cycle is reported if all cycles with one of its
steps are of the same rules, and so is that of a rule that calls itself. -/
theorem cycles_share_steps_with_reported (closed : g.RefersToLive) {rules : List RuleId} (cycle : LeftCycle g rules)
    (live : ∀ r ∈ rules, r ∈ g.liveIds) :
    (∃ step ∈ roundTrip rules, ∃ found, LeftCycle g found ∧ step ∈ roundTrip found ∧ Reported g found) ∧
    ((∀ other, LeftCycle g other → (∃ step ∈ roundTrip rules, step ∈ roundTrip other) → other.Perm rules) →
      Reported g rules) ∧
    ∀ r, (r, r) ∈ roundTrip rules → Reported g rules := by
  have onward : ∀ r t, (r, t) ∈ roundTrip rules → LiveCalls g r t ∧ ∃ t', (t, t') ∈ roundTrip rules := fun r t h =>
    ⟨⟨live r (fst_mem_of_roundTrip h), live t (snd_mem_of_roundTrip h), cycle.calls (r, t) h⟩,
      exists_step (snd_mem_of_roundTrip h)⟩
  obtain ⟨r, hr⟩ := List.exists_mem_of_ne_nil _ cycle.nonempty
  obtain ⟨t, first⟩ := exists_step hr
  obtain ⟨r, t, step, found, hfound, closing, d, hd, told, same, names⟩ := exists_closing closed onward first
  have reported (h : found.Perm rules) : Reported g rules := ⟨d, hd, told, same.trans h, names⟩
  refine ⟨⟨(r, t), step, found, hfound, closing, d, hd, told, same, names⟩,
    fun alone => reported (alone found hfound ⟨(r, t), step, closing⟩), fun s hs => ?_⟩
  obtain rfl := eq_singleton_of_step cycle.nodup hs
  have own : r = s ∧ t = s := by simpa [roundTrip] using step
  obtain ⟨rfl, rfl⟩ := own
  exact reported (by rw [eq_singleton_of_step hfound.nodup closing])

theorem cycles_share_steps_with_reported_twoWays : LeftCycle twoWays [0, 2, 1] ∧ ∃ step ∈ roundTrip [0, 2, 1],
    ∃ found, LeftCycle twoWays found ∧ step ∈ roundTrip found ∧ Reported twoWays found :=
  ⟨leftCycle_twoWays, (cycles_share_steps_with_reported (by decide) leftCycle_twoWays (by decide)).1⟩

/-- From `A` on, `B` leads back to it and is left; then the way through `C` to `B` ends there, and that `A`, `C` and `B`
call each other is not reported. -/
theorem twoWays_cycle_missed : (∃ d : Draft, d.build? = .ok twoWays) ∧ twoWays.RefersToLive ∧
    LeftCycle twoWays [0, 2, 1] ∧ (∀ r ∈ [0, 2, 1], r ∈ twoWays.liveIds) ∧ ¬ Reported twoWays [0, 2, 1] ∧
    (leftRecursion twoWays).map (·.message) = ["Possible infinite loop when parsing (left recursion: A -> B -> A)"] := by
  have built : (Draft.mk none none [.of "A" (.firstOf [.ref "B", .ref "C"]) none, .of "B" (.ref "A") none,
      .of "C" (.ref "B") none]).build? = .ok twoWays := rfl
  have two : ∀ d ∈ leftRecursion twoWays, d.related.length = 2 := by decide +kernel
  refine ⟨⟨_, built⟩, by decide, leftCycle_twoWays, by decide, ?_, by decide +kernel⟩
  rintro ⟨d, hd, told, same, -, reports⟩
  have long := reports.related.length_eq
  rw [two d hd, length_roundTrip, same.length_eq] at long
  cases long

end Analysis

end PegCompiler
