/-
The check of consumption is right about the parser. It looks at a grammar before proxies are bypassed, and the code
is compiled from what is left; an expression has its number in both, and what consumed still does. From there on it is
`advances_expr` that tells of runs. A result that is recalled counts as one of these, since nothing is ever remembered
but what a rule did; this is so at every point of a parse, whatever host code answers there.
-/
import PegCompiler.Proofs.CompiledCode
import PegCompiler.Proofs.Failures
import PegCompiler.Proofs.Machine.Visits
import PegCompiler.Proofs.Terminating

namespace PegCompiler

open Machine Analysis

/-! ## What the check tells -/

namespace Analysis.Consumption

variable {g : Grammar} {e : Expr}

/-- The check answers that an expression consumes, after any questions. -/
def Says (g : Grammar) (e : Expr) : Prop := ∃ asked, (ofExprIn g e (after g asked)).1 = true

theorem says_iff : Says g e ↔ Consumes g e := by
  have right (asked : List Question) : (ofExprIn g e (after g asked)).1 = true ↔ Consumes g e :=
    (settled_ofExprIn (settled_after asked) e).2
  constructor
  · rintro ⟨asked, h⟩
    exact (right asked).1 h
  · intro h
    exact ⟨[], (right []).2 h⟩

end Analysis.Consumption

namespace Grammar

variable {g g' : Grammar} {r r' : RuleId} {e e' : Expr}

/-- An expression of a grammar is known by its number. -/
theorem Numbered.eq_of_id {size : Nat} (hg : g.Numbered size) (h : g.Inside r e) (h' : g.Inside r' e') (hid : e.id = e'.id) :
    e = e' := by
  obtain ⟨body, hb, he⟩ := h.mem
  obtain ⟨body', hb', he'⟩ := h'.mem
  exact List.inj_on_of_nodup_map hg.distinct (List.mem_flatMap.2 ⟨body, hb, he⟩) (List.mem_flatMap.2 ⟨body', hb', he'⟩) hid

/-- The check tells that an expression consumes, asked of the grammar that it is compiled from or of the one that was
there before: there it is the expression with its number. -/
def Tells (g g' : Grammar) (e : Expr) : Prop :=
  Consumption.Says g' e ∨ ∃ r e₀, g.Inside r e₀ ∧ e₀.id = e.id ∧ Consumption.Says g e₀

theorem Bypasses.consumes_of_tells (h : g.Bypasses g') {size : Nat} (hg : g.Numbered size) (he : g'.Inside r e)
    (htells : g.Tells g' e) : Consumes g' e := by
  rcases htells with hsays | ⟨r₀, e₀, he₀, hid, hsays⟩
  · exact Consumption.says_iff.1 hsays
  · -- what was asked about then is what this expression was made of
    obtain ⟨e₁, f, he₁, hf, rfl⟩ := h.inside he
    rw [Expr.id_mapRefs] at hid
    obtain rfl := hg.eq_of_id he₀ he₁ hid
    exact h.consumes_mapRefs (Consumption.says_iff.1 hsays) hf

end Grammar

/-! ## At every point of a parse -/

namespace Machine

variable {ν : Naming} {p : Program ν} {s : String} {I : ParseState → Prop} {st st' : ParseState}

/-- Instructions without blocks leave the text alone. -/
theorem step_input {i : Instr ν} {stack stack' : Stack} (h : step p i stack st = .ok stack' st') :
    st'.input = st.input := by
  cases i with
  | fail e =>
    simp only [step, bind_ok_iff, lift_ok_iff, modify_ok_iff, pure_ok_iff] at h
    obtain ⟨e', st₁, ⟨-, rfl⟩, -, st₂, rfl, -, rfl⟩ := h
    exact ParseState.fail_input _ _
  | defect why => cases h
  | _ =>
    simp only [step, bind_ok_iff, lift_ok_iff, modify_ok_iff, pure_ok_iff, get_ok_iff, change_ok_iff] at h
    grind [ParseState.acceptN, ParseState.accept, ParseState.acceptString, ParseState.acceptStringIc]

theorem Steady.reported (h : Steady s I) {f : ParseState → ParseState} (hf : Reports f) (hst : I st) :
    I (Machine.reported p f st) := by
  obtain ⟨trace, htrace⟩ := hf.reported p st
  rw [htrace]
  exact h.keeps st _ rfl rfl hst

/-- What is so of the text and of what is remembered, and is kept by rules that end, is so at every point. -/
theorem Visits.steady (h : Steady s I) (hrule : ∀ fuel r st v st', I st → rule p fuel r st = .ok v st' → I st')
    {r : Nat} {y : Point ν} (hst : I st) (hy : Visits p r st y) : I y.state := by
  have enters {r : Nat} {st : ParseState} {x : Point ν} (hst : I st) (hx : Enters p r st x) : I x.state := by
    obtain ⟨code, -, -, rfl⟩ := hx
    exact h.reported reports_enter hst
  obtain ⟨x, hx, hcomes⟩ := hy
  -- the induction is on the steps from the start of the rule
  induction hcomes with
  | refl => exact enters hst hx
  | tail _ hnext ih =>
    cases hnext with
    | plain hi hstep => exact h.keeps _ _ (step_input hstep) (step_cache hstep) ih
    | cond | done | again => exact ih
    | enter hx => exact enters ih hx
    | leave hrun => exact hrule _ _ _ _ _ ih hrun

end Machine

/-! ## Compiled grammars -/

namespace Compilation

/-- Runs of the compiled code move on as the check of consumption told of the grammar. -/
structure MovesOn (g : Grammar) (c : Compilation) (bs : Bindings) : Prop where
  /-- A parse starts like this, with nothing remembered. -/
  start : ∀ text (st : ParseState), st.input = .ofString text → st.cache = {} → c.Sane text st
  /-- It stays like this wherever it comes to. -/
  visits : ∀ text st r y, c.Sane text st → Visits (c.parserWith bs).program r st y → c.Sane text y.state
  /-- The code of an expression, run to its end on a stack that holds the labels in scope. -/
  exprs : ∀ text st, c.Sane text st → ∀ r rule e, c.grammar.live? r = some rule → e ∈ rule.body.preorder →
    ∀ env ls stack code k, c.exprCode e env stack.length = .ok (code, k) → env.Holds ls stack →
    ∀ fuel stack' st', block (c.programWith bs k) fuel code stack st = .ok stack' st' →
      ∃ v, stack' = .value v :: stack ∧ c.Sane text st' ∧ st.pos ≤ st'.pos ∧
        (g.Tells c.grammar e → v.isFailed = false → st.pos < st'.pos)
  /-- A rule, run to its end. -/
  rules : ∀ text st, c.Sane text st → ∀ r rule, c.grammar.live? r = some rule →
    ∀ fuel v st', Machine.rule (c.parserWith bs).program fuel r st = .ok v st' →
      c.Sane text st' ∧ st.pos ≤ st'.pos ∧ (g.Tells c.grammar rule.body → v.isFailed = false → st.pos < st'.pos)

variable {c : Compilation} {bs : Bindings} {text : String} {st st' : ParseState}

/-- Rules of the parser move on. -/
theorem Coded.moves_of_rule (h : c.Coded) (hc : Matching.Complete c.grammar c.found) (hst : c.Sane text st)
    {fuel r : Nat} {v : Value} (hrun : Machine.rule (c.parserWith bs).program fuel r st = .ok v st') :
    c.Sane text st' ∧ Moves (Input.ofString text).size (c.found.guess r) (ConsumesRule c.grammar r) st.pos v st'.pos := by
  obtain ⟨cs, hx⟩ := rule_ok_iff.1 ⟨fuel, hrun⟩
  obtain ⟨cs', -, hx⟩ := (h.ruleRuns ..).1 hx
  exact advances_rules hc r st hst cs' v st' hx

/-- So do expressions. -/
theorem moves_of_meaning (hc : Matching.Complete c.grammar c.found) (hst : c.Sane text st) {r : RuleId} {rule : Rule}
    (hr : c.grammar.live? r = some rule) {e : Expr} (he : e ∈ rule.body.preorder) {ls : Labels}
    {cs : List (HostCall HostFunction)} {v : Value}
    (hx : (c.setting bs).meaning (RuleRuns (c.inlineProgram bs)) e ls st cs v st') :
    ∃ m, c.Sane text st' ∧ Moves (Input.ofString text).size m (Consumes c.grammar e) st.pos v st'.pos := by
  obtain ⟨ρ, moving, follows, -⟩ := moving hc bs (advances_rules hc) hr
  have inside : Follows (c.setting bs) ρ e := fun e' he' => follows e' (Expr.mem_preorder_trans he he')
  exact ⟨_, moving.advances inside ls st hst cs v st' hx⟩

theorem MadeOf.movesOn {g : Grammar} (h : c.MadeOf g) {size : Nat} (hg : g.Numbered size) (bs : Bindings) :
    c.MovesOn g bs where
  start := fun _ _ => sane_of_empty
  visits := fun text st r y hst hy =>
    hy.steady (steady_sane c text) (fun _ _ _ _ _ hst hrun => (h.coded.moves_of_rule h.complete hst hrun).1) hst
  exprs := by
    intro text st hst r rule e hr he env ls stack code k hcode henv fuel stack' st' hrun
    obtain ⟨v, rfl, hfinishes⟩ := h.coded.finishes_of_ok hcode henv hrun
    obtain ⟨cs, hx⟩ := (h.coded.finishes_iff hcode henv).1 hfinishes
    obtain ⟨m, hst', moves⟩ := moves_of_meaning h.complete hst hr he hx
    refine ⟨v, rfl, hst', moves.forward.le, fun htells hv => ?_⟩
    have consumes := h.bypasses.consumes_of_tells hg ⟨rule, Grammar.rule?_of_live? hr, he⟩ htells
    exact (moves.consumes consumes hv).2
  rules := by
    intro text st hst r rule hr fuel v st' hrun
    obtain ⟨hst', moves⟩ := h.coded.moves_of_rule h.complete hst hrun
    refine ⟨hst', moves.forward.le, fun htells hv => ?_⟩
    have body : c.grammar.Inside r rule.body := ⟨rule, Grammar.rule?_of_live? hr, Expr.mem_preorder_self _⟩
    exact (moves.consumes ⟨rule, Grammar.rule?_of_live? hr, h.bypasses.consumes_of_tells hg body htells⟩ hv).2

end Compilation

/-- In every run of the compiled code of a grammar whose references stand for rules, whatever functions stand for host
code: no expression ends before its start, and one ends past it if it matches and the check tells that it consumes. -/
theorem guaranteed_consumption_is_real {d : Draft} {g : Grammar} (hd : d.build? = .ok g)
    (hrefs : Analysis.undefinedRules g = []) (o : CompileOptions) (before : List Pass)
    (hbefore : ∀ p ∈ before, p ≠ .matching ∧ p ≠ .bytecode ∧ p ≠ .source) :
    ∃ s, (before ++ [Pass.matching]).forM Pass.run ⟨.start g o, []⟩ = .ok ⟨⟩ s ∧
      ∀ s', Pass.bytecode.run s = .ok ⟨⟩ s' → ∀ bs : Bindings, s'.compilation.MovesOn g bs := by
  have built := Draft.built hd
  obtain ⟨s, hs, made⟩ := built.compiled_after_matching hrefs o before hbefore
  exact ⟨s, hs, fun s' hs' bs => (made s' hs').movesOn built.numbered bs⟩

open Draft.Expr in
/-- `Start = (&"a" Word)|2.., ","| { f }` and `Word = "a" / [b-z]i`. -/
def words : Draft := ⟨none, none, [
  .of "Start" ((Draft.Expr.repeated .empty (seq [.simpleAnd .empty (exactly "a"), ref "Word"]) (some (.constant (some 2)))
    (.constant none) (some (exactly ","))).thenDo "f") none,
  .of "Word" (firstOf [exactly "a", oneOf [('b', 'z')] false true]) none]⟩

/-- The host code of the start rule answers with a failure after all, and yet the rule is known to consume. -/
theorem guaranteed_consumption_is_real_words : ∃ g s s' rule, words.build? = .ok g ∧
    ([Pass.startRules, .proxies] ++ [Pass.matching]).forM Pass.run ⟨.start g { CompileOptions.default with cache := true }, []⟩ =
      .ok ⟨⟩ s ∧
    Pass.bytecode.run s = .ok ⟨⟩ s' ∧ s'.compilation.grammar.live? 0 = some rule ∧
    g.Tells s'.compilation.grammar rule.body ∧ s'.compilation.MovesOn g [("f", fun _ _ => .failed)] := by
  obtain ⟨g, hg⟩ : ∃ g, words.build? = .ok g := ⟨_, rfl⟩
  have hrefs : Analysis.undefinedRules g = [] := by cases hg; rfl
  obtain ⟨s, hs, moves⟩ := guaranteed_consumption_is_real hg hrefs { CompileOptions.default with cache := true }
    [.startRules, .proxies] (by decide)
  have consumes : EStateM.run' (([Pass.startRules, .proxies] ++ [Pass.matching]).forM Pass.run >>= fun _ =>
      Pass.bytecode.run >>= fun _ => Working.current >>= fun c =>
        pure ((c.grammar.live? 0).any fun rule => (Consumption.ofExprIn c.grammar rule.body .empty).1))
      ⟨.start g { CompileOptions.default with cache := true }, []⟩ = some true := by
    cases hg
    decide +kernel
  obtain ⟨_, hrun⟩ := run'_eq_some_iff.1 consumes
  obtain ⟨⟨⟩, s₁, hs₁, hrun⟩ := bind_ok_iff.1 hrun
  cases hs₁.symm.trans hs
  obtain ⟨⟨⟩, s', hs', hrun⟩ := bind_ok_iff.1 hrun
  obtain ⟨c, _, hc, hrun⟩ := bind_ok_iff.1 hrun
  cases hc
  obtain ⟨rule, hr, hsays⟩ := (Option.any_eq_true ..).1 (pure_ok_iff.1 hrun).1
  exact ⟨g, s, s', rule, hg, hs, hs', hr, .inl ⟨[], hsays⟩, moves s' hs' _⟩

end PegCompiler
