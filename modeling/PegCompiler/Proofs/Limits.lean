/-
What repetitions of nothing are limited by. A repetition of what may not consume is accepted only with a maximum, and
compares its array with it before every item, in every run; but the maximum may be a value that is no count, and then it
is the greatest count there is. So the checks, which go by the form of a bound, do not know that there is a limit.
-/
import PegCompiler.Proofs.Consuming
import PegCompiler.Proofs.Meaning.Limits

namespace PegCompiler

open Machine Analysis

/-! ## What the check tells not to consume -/

namespace Analysis.Consumption

/-- The check answers that an expression may not consume, after any questions. -/
def Denies (g : Grammar) (e : Expr) : Prop := ∃ asked, (ofExprIn g e (after g asked)).1 = false

theorem denies_iff {g : Grammar} {e : Expr} : Denies g e ↔ ¬ Consumes g e := by
  rw [← says_iff]
  constructor
  · rintro ⟨asked, h⟩ hsays
    have right := (settled_ofExprIn (settled_after (g := g) asked) e).2
    rw [right.2 (says_iff.1 hsays)] at h
    cases h
  · intro h
    refine ⟨[], ?_⟩
    rw [← Bool.not_eq_true]
    exact fun answer => h ⟨[], answer⟩

end Analysis.Consumption

namespace Grammar

variable {g g' : Grammar} {r : RuleId} {e : Expr}

/-- The check tells that an expression may not consume, asked of the grammar that it is compiled from or of the one
that was there before. -/
def Doubts (g g' : Grammar) (e : Expr) : Prop :=
  Consumption.Denies g' e ∨ ∃ r e₀, g.Inside r e₀ ∧ e₀.id = e.id ∧ Consumption.Denies g e₀

/-- Then it did not consume before. -/
theorem Bypasses.not_consumes_of_doubts (h : g.Bypasses g') {size : Nat} (hg : g.Numbered size) (he : g.Inside r e)
    {f : Expr.Reference → Expr.Reference} (hf : g.Redirects f) (hdoubts : g.Doubts g' (e.mapRefs f)) : ¬ Consumes g e := by
  intro consumes
  rcases hdoubts with denies | ⟨r₀, e₀, he₀, hid, denies⟩
  · exact Consumption.denies_iff.1 denies (h.consumes_mapRefs consumes hf)
  · rw [Expr.id_mapRefs] at hid
    obtain rfl := hg.eq_of_id he₀ he hid
    exact Consumption.denies_iff.1 denies consumes

end Grammar

/-! ## Maxima -/

/-- What a bound is where the labels in scope have values and host code is called in a state. -/
inductive Boundary.Counts (bs : Bindings) (ls : Labels) (st : ParseState) : Boundary → Count → Prop
  | constant {n : Option Nat} : Counts bs ls st (.constant n) (.fixed n)
  | label {name : Located String} {v : Value} (h : ls.lookup name.val = some v) : Counts bs ls st (.label name) (.given v)
  | computed {code : HostCode} {f : HostFn} (h : bs.find? code.val = some f) :
      Counts bs ls st (.computed code) (.given (f (.of st) ls.values))

/-- A bound that is there is a maximum. -/
theorem Boundary.Counts.most {bs : Bindings} {ls : Labels} {st : ParseState} {max : Boundary} {n : Count}
    (h : max.Counts bs ls st n) (hmax : max ≠ .constant none) : ∃ most, n.most = some most := by
  cases h with
  | @constant n =>
    cases n with
    | none => exact absurd rfl hmax
    | some k => exact ⟨k, rfl⟩
  | label => exact ⟨_, rfl⟩
  | computed => exact ⟨_, rfl⟩

namespace Compilation

/-- How far repetitions go in runs of the code that is compiled from a grammar. -/
structure StopsAtMaximum (g : Grammar) (c : Compilation) (bs : Bindings) : Prop where
  /-- What may not consume is repeated with a maximum only. -/
  bounded : ∀ r rule i body min max delimiter, c.grammar.live? r = some rule →
    .repeated i body min max delimiter ∈ rule.body.preorder → g.Doubts c.grammar body →
    (∀ d ∈ delimiter, g.Doubts c.grammar d) → max ≠ .constant none
  /-- Wherever a maximum is tested it is that of a repetition in the rule, which has no more items than that. -/
  tested : ∀ r st x test yes no rest, Visits (c.parserWith bs).program r st x → x.code = .cond test yes no :: rest →
    ∃ rule, c.grammar.live? x.rule = some rule ∧ Limited rule.body test x.stack
  /-- Nor has the array that a repetition gives more items than its maximum, the number or what the value counts as. -/
  given : ∀ r rule i body min max delimiter, c.grammar.live? r = some rule →
    .repeated i body min max delimiter ∈ rule.body.preorder → max ≠ .constant none →
    ∀ env ls stack code k, c.exprCode (.repeated i body min max delimiter) env stack.length = .ok (code, k) →
      env.Holds ls stack → ∀ st v st', Finishes (c.programWith bs k) code stack st v st' →
        ∃ n most, max.Counts bs ls st n ∧ n.most = some most ∧ v.size ≤ most

variable {c : Compilation} {bs : Bindings} {ls : Labels} {st : ParseState} {Q : Value → ParseState → Prop}

/-! ## What repetitions give -/

/-- What comes of a bound, if there is anything to find it by. -/
theorem ends_withBound {b : Boundary} {A : Count → Act HostFunction} (h : ∀ n, b.Counts bs ls st n → Ends (A n) st Q) :
    Ends ((c.setting bs).withBound ls b A) st Q := by
  cases b with
  | constant k => exact h _ .constant
  | label name =>
    unfold Setting.withBound
    dsimp only
    split
    · rename_i v hv
      exact h _ (.label hv)
    · exact ends_stuck.2 trivial
  | computed code =>
    unfold Setting.withBound
    rw [ends_bind]
    unfold Setting.call
    rw [ends_call]
    intro kind host hf
    have hf : bs.function ⟨.boundary, ls.names, code.val, code.span⟩ = .ok (kind, host) := hf
    unfold Bindings.function at hf
    cases hfind : bs.find? code.val with
    | none =>
      rw [hfind] at hf
      cases hf
    | some f =>
      rw [hfind] at hf
      cases hf
      exact h _ (.computed hfind)

theorem ends_withBounds {min : Option Boundary} {max : Boundary} {A : Nat → Option Nat → Act HostFunction}
    (h : ∀ least n, max.Counts bs ls st n → Ends (A least n.most) st Q) :
    Ends ((c.setting bs).withBounds ls min max A) st Q := by
  cases min with
  | none => exact ends_withBound fun n hn => h n.least n hn
  | some min => exact ends_withBound (c := c) fun m _ => ends_withBound fun n hn => h m.least n hn

/-- A repetition gives no more items than its maximum. -/
theorem ends_repeated {R : RuleId → Act HostFunction} {i : Expr.Info} {body : Expr} {min : Option Boundary}
    {max : Boundary} {delimiter : Option Expr} (hmax : max ≠ .constant none) :
    Ends ((c.setting bs).meaning R (.repeated i body min max delimiter) ls) st fun v _ =>
      ∃ n most, max.Counts bs ls st n ∧ n.most = some most ∧ v.size ≤ most := by
  have counted {least : Nat} {n : Count} {checked : Bool} {first item : Act HostFunction} (hn : max.Counts bs ls st n) :
      Ends (.counted checked least n.most first item) st fun v _ =>
        ∃ n most, max.Counts bs ls st n ∧ n.most = some most ∧ v.size ≤ most := by
    obtain ⟨most, hmost⟩ := hn.most hmax
    exact ends_counted_size.mono fun v _ within => ⟨n, most, hn, hmost, within most hmost⟩
  cases delimiter with
  | none => exact ends_withBounds fun least n hn => counted hn
  | some d => exact ends_withBounds fun least n hn => counted hn

/-! ## What rules test -/

/-- Conditions that were linked compare with the same counts. -/
theorem limited_link {k : Constants} {e : Expr} {test : Test Inline} {s : Stack} (h : Limited e test s) :
    Limited e (test.link k).raw s := by
  intro hgreatest
  cases test with
  | atLeast n =>
    obtain ⟨i, body, min, max, delimiter, n, items, he, kind, compares, array, within⟩ := h rfl
    cases compares
    exact ⟨i, body, min, max, delimiter, _, items, he, kind, .fixed, array, within⟩
  | atLeastThan d =>
    obtain ⟨i, body, min, max, delimiter, n, items, he, kind, compares, array, within⟩ := h rfl
    cases compares with
    | given hv => exact ⟨i, body, min, max, delimiter, _, items, he, kind, .given hv, array, within⟩
  | _ => cases hgreatest

/-- A parse tests maxima only where they limit repetitions. -/
theorem Coded.limited (h : c.Coded) {r : Nat} {x : Point Raw} {test : Test Raw} {yes no rest : Code Raw}
    (hx : Visits (c.parserWith bs).program r st x) (hcode : x.code = .cond test yes no :: rest) :
    ∃ rule, c.grammar.live? x.rule = some rule ∧ Limited rule.body test x.stack := by
  have links : Links c.constants (c.parserWith bs).program (c.inlineProgram bs) := h.links (.refl _)
  have met : Meets (c.parserWith bs).program (RuleRuns (c.parserWith bs).program) x.code x.stack x.state test x.stack := by
    rw [hcode]
    exact .here
  refine hx.heeds (Q := fun r test s => ∃ rule, c.grammar.live? r = some rule ∧ Limited rule.body test s) ?_ met
  intro r code hr st linked s hm
  rw [links.rules, show (c.inlineProgram bs).rules.getD r none = _ from getD_inlineRules c r] at hr
  obtain ⟨code', hcode', rfl⟩ := Option.map_eq_some_iff.1 hr
  obtain ⟨rule, hrule, rfl⟩ := Option.map_eq_some_iff.1 hcode'
  obtain ⟨test, rfl, inline⟩ := hm.unlink links (ruleRuns_link_iff links) (h.known r rule hrule)
  exact ⟨rule, hrule, limited_link (keeps_ofRule (c := c.setting bs) rule st test s inline)⟩

/-! ## Accepted grammars -/

/-- A repetition with other references was one with the same bounds. -/
theorem of_mapRefs_eq_repeated {f : Expr.Reference → Expr.Reference} {e : Expr} {i : Expr.Info} {body : Expr}
    {min : Option Boundary} {max : Boundary} {delimiter : Option Expr}
    (h : e.mapRefs f = .repeated i body min max delimiter) : ∃ body₀ delimiter₀,
      e = .repeated i body₀ min max delimiter₀ ∧ body₀.mapRefs f = body ∧ delimiter₀.map (·.mapRefs f) = delimiter := by
  cases e with
  | repeated i₀ body₀ min₀ max₀ delimiter₀ =>
    cases delimiter₀ with
    | none => cases h; exact ⟨body₀, none, rfl, rfl, rfl⟩
    | some d₀ => cases h; exact ⟨body₀, some d₀, rfl, rfl, rfl⟩
  | _ => cases h

/-- The checks accept repetitions of what may not consume only with a maximum. -/
theorem max_of_accepted {g g' : Grammar} {o : CompileOptions} (h : Session.Accepted g o) (hg : g.Built)
    (bypasses : g.Bypasses g') {r : RuleId} {i : Expr.Info} {body : Expr} {min : Option Boundary} {max : Boundary}
    {delimiter : Option Expr} (he : g'.Inside r (.repeated i body min max delimiter)) (hbody : g.Doubts g' body)
    (hdelimiter : ∀ d ∈ delimiter, g.Doubts g' d) : max ≠ .constant none := by
  obtain ⟨e, f, inside, hf, same⟩ := bypasses.inside he
  obtain ⟨rule, hrule, mem⟩ := inside
  have live : (r, rule) ∈ g.live := by
    rw [Grammar.mem_live]
    unfold Grammar.live?
    rw [hg.removed]
    exact hrule
  -- the check went over the expression of before, which has the same bounds
  have bounded : Bounded (Consumes g) e :=
    bounded_of_emptyRepetitions h.excludes.repetitions (List.mem_flatMap.2 ⟨_, live, mem⟩)
  have part {e' : Expr} (hc : e' ∈ e.children) : g.Inside r e' :=
    ⟨rule, hrule, Expr.mem_preorder_trans mem (Expr.mem_preorder_of_child hc (Expr.mem_preorder_self e'))⟩
  obtain ⟨body₀, delimiter₀, rfl, rfl, rfl⟩ := of_mapRefs_eq_repeated same.symm
  rcases bounded with consumes | ⟨d, hd, consumes⟩ | hmax
  · have inBody : g.Inside r body₀ := part List.mem_cons_self
    exact absurd consumes (bypasses.not_consumes_of_doubts hg.numbered inBody hf hbody)
  · have inDelimiter : g.Inside r d := part (by rw [hd]; exact List.mem_cons_of_mem _ List.mem_cons_self)
    have doubts := hdelimiter _ (Option.mem_map_of_mem _ hd)
    exact absurd consumes (bypasses.not_consumes_of_doubts hg.numbered inDelimiter hf doubts)
  · exact hmax

theorem Ready.stopsAtMaximum {g : Grammar} {o : CompileOptions} (h : c.Ready g o) (haccepts : Session.Accepted g o)
    (hg : g.Built) (bs : Bindings) : c.StopsAtMaximum g bs where
  bounded := fun _ rule _ _ _ _ _ hr he hbody hdelimiter =>
    max_of_accepted haccepts hg h.bypasses ⟨rule, Grammar.rule?_of_live? hr, he⟩ hbody hdelimiter
  tested := fun _ _ _ _ _ _ _ hx hcode => h.coded.limited hx hcode
  given := by
    intro r rule i body min max delimiter _ _ hmax env ls stack code k hcode henv st v st' hfinishes
    obtain ⟨cs, hx⟩ := (h.coded.finishes_iff hcode henv).1 hfinishes
    exact ends_repeated hmax cs v st' hx

end Compilation

/-- In the parser of an accepted grammar, whatever functions stand for host code, repetitions stop at their maximum, and
those of what may not consume have one. It is the number that is given, or the value if that is a count, and otherwise
the greatest count there is. -/
theorem repetitions_stop_at_maximum {d : Draft} {g : Grammar} (hd : d.build? = .ok g) {o : CompileOptions}
    {s₀ : Session} (hchecks : Session.advance ⟨.start g o, []⟩ .check = .ok s₀)
    (haccepts : Diagnostics.check s₀.diagnostics = .ok ⟨⟩) :
    ∃ c : Compilation, Parser.compiled Stage.transform.passes g o = .ok (c.parserWith []) ∧
      c.grammar = (g.removeProxies (startRules g o.allowedStartRules).1).1 ∧
      ∀ bs : Bindings, c.StopsAtMaximum g bs := by
  obtain ⟨rfl, accepted, built, resolved⟩ := Session.accepted_of_checks hd hchecks haccepts
  obtain ⟨c, hc, ready, hgrammar⟩ := accepted.compiled_bypassed built resolved
  exact ⟨c, hc, hgrammar, fun bs => ready.stopsAtMaximum accepted built bs⟩

open Draft.Expr in
/-- `Start = n:"x" ("a" / &"b")|..n|`, which is accepted with a warning: the label is a bound, but its value never is a
count. -/
def limitless : Draft := ⟨none, none, [
  .of "Start" (seq [(exactly "x").called "n",
    .repeated .empty (firstOf [exactly "a", .simpleAnd .empty (exactly "b")]) (some (.constant (some 0)))
      (.label ⟨"n", .empty⟩) none]) none]⟩

/-- The repetition in it is one of what may not consume. -/
theorem limitless_repeats {g : Grammar} (hg : limitless.build? = .ok g) {c : Compilation}
    (hgrammar : c.grammar = (g.removeProxies (startRules g CompileOptions.default.allowedStartRules).1).1) :
    ∃ rule i body, c.grammar.live? 0 = some rule ∧ g.Doubts c.grammar body ∧
      .repeated i body (some (.constant (some 0))) (.label ⟨"n", .empty⟩) none ∈ rule.body.preorder := by
  rw [hgrammar]
  cases hg
  let body : Expr := .choice ⟨5, .empty⟩ (.literal ⟨2, .empty⟩ "a" false)
    [.simpleAnd ⟨4, .empty⟩ (.literal ⟨3, .empty⟩ "b" false)]
  exact ⟨_, ⟨6, .empty⟩, body, rfl, .inl ⟨[], rfl⟩, .tail _ (.tail _ (.tail _ (.head _)))⟩

theorem repetitions_stop_at_maximum_limitless : ∃ (g : Grammar) (s₀ : Session) (c : Compilation) (rule : Rule)
    (i : Expr.Info) (body : Expr), limitless.build? = .ok g ∧
    Session.advance ⟨.start g .default, []⟩ .check = .ok s₀ ∧ Diagnostics.check s₀.diagnostics = .ok ⟨⟩ ∧
    Parser.compiled Stage.transform.passes g .default = .ok (c.parserWith []) ∧ c.grammar.live? 0 = some rule ∧
    g.Doubts c.grammar body ∧
    .repeated i body (some (.constant (some 0))) (.label ⟨"n", .empty⟩) none ∈ rule.body.preorder ∧
    ∀ bs : Bindings, c.StopsAtMaximum g bs := by
  obtain ⟨g, hg⟩ : ∃ g, limitless.build? = .ok g := ⟨_, rfl⟩
  have accepts : Diagnostics.check (Session.checked g .default).diagnostics = .ok ⟨⟩ := by cases hg; rfl
  obtain ⟨c, hc, hgrammar, stops⟩ := repetitions_stop_at_maximum hg (Session.advance_check g _) accepts
  obtain ⟨rule, i, body, hr, hdoubts, he⟩ := limitless_repeats hg hgrammar
  exact ⟨g, _, c, rule, i, body, hg, Session.advance_check g _, accepts, hc, hr, hdoubts, he, stops⟩

/-- The sizes that the condition ahead compares, if it is one of a maximum on the stack: that of the array, and the count
that the maximum is. -/
def Machine.Point.compared? (x : Point Raw) : Option (Nat × Option Nat) :=
  match x.code with
  | .cond (.atLeastThan d) _ _ :: _ =>
    match x.stack.value 0, x.stack.value d with
    | .ok (.array items), .ok v => some (items.length, v.count?)
    | _, _ => none
  | _ => none

theorem Machine.Point.compared?_eq_some {x : Point Raw} {size : Nat} {count : Option Nat}
    (h : x.compared? = some (size, count)) : ∃ d yes no rest items v, x.code = .cond (.atLeastThan d) yes no :: rest ∧
      x.stack.value 0 = .ok (.array items) ∧ x.stack.value d = .ok v ∧ items.length = size ∧ v.count? = count := by
  unfold compared? at h
  split at h
  · rename_i d yes no rest hcode
    split at h
    · rename_i items v harray hv
      cases h
      exact ⟨d, yes, no, rest, items, v, hcode, harray, hv, rfl, rfl⟩
    · cases h
  · cases h

/-- On the text `xaaa` its array gets a third item, and still the maximum that it is compared with is no count. -/
theorem no_count_is_no_limit : ∃ (g : Grammar) (s₀ : Session) (c : Compilation) (rule : Rule) (i : Expr.Info) (body : Expr)
    (x : Point Raw) (test : Test Raw) (yes no rest : Code Raw) (items : List Value) (v : Value),
    limitless.build? = .ok g ∧ Session.advance ⟨.start g .default, []⟩ .check = .ok s₀ ∧
    Diagnostics.check s₀.diagnostics = .ok ⟨⟩ ∧
    Parser.compiled Stage.transform.passes g .default = .ok (c.parserWith []) ∧ c.grammar.live? 0 = some rule ∧
    g.Doubts c.grammar body ∧
    .repeated i body (some (.constant (some 0))) (.label ⟨"n", .empty⟩) none ∈ rule.body.preorder ∧
    Visits (c.parserWith []).program 0 (.start "xaaa" none false) x ∧ x.code = .cond test yes no :: rest ∧
    Measures (.label ⟨"n", .empty⟩) test x.stack (.given v) items ∧ items.length = 3 ∧ v.count? = none := by
  obtain ⟨g, hg⟩ : ∃ g, limitless.build? = .ok g := ⟨_, rfl⟩
  have accepts : Diagnostics.check (Session.checked g .default).diagnostics = .ok ⟨⟩ := by cases hg; rfl
  have accepted : Session.Accepted g .default := accepts
  have built := Draft.built hg
  obtain ⟨c, hc, ready, hgrammar⟩ := accepted.compiled_bypassed built (built.resolved accepted.excludes.references)
  obtain ⟨rule, i, body, hr, hdoubts, he⟩ := limitless_repeats hg hgrammar
  have known : (Parser.compiled Stage.transform.passes g .default).map (fun p =>
      ((Point.start? p.program 0 (.start "xaaa" none false)).bind (·.later? p.program 23)).bind Point.compared?) =
      .ok (some (3, none)) := by
    cases hg
    decide +kernel
  rw [hc] at known
  obtain ⟨x, hx, compared⟩ := Option.bind_eq_some_iff.1 (Except.ok.inj known)
  obtain ⟨start, hstart, hlater⟩ := Option.bind_eq_some_iff.1 hx
  obtain ⟨d, yes, no, rest, items, v, hcode, harray, hv, hitems, hcount⟩ := Point.compared?_eq_some compared
  have visits : Visits (c.parserWith []).program 0 (.start "xaaa" none false) x :=
    ⟨start, enters_of_start? hstart, comes_of_later? hlater⟩
  have within : items.length ≤ v.count?.getD Value.maxCount := by
    rw [hitems, hcount]
    decide
  exact ⟨g, _, c, rule, i, body, x, _, yes, no, rest, items, v, hg, Session.advance_check g _, accepts, hc, hr, hdoubts, he,
    visits, hcode, ⟨trivial, .given hv, harray, _, rfl, within⟩, hitems, hcount⟩

end PegCompiler
