/-
Rules conduct themselves as their expressions do. The induction is on the nesting of rules; what is remembered of a
rule is how it once ended, so it ends in the same way wherever it is recalled.
-/
import PegCompiler.Proofs.Faithful
import PegCompiler.Proofs.Meaning.Conduct

namespace PegCompiler

open Machine

namespace Compilation

/-- A remembered result is the one of a rule that did not move back. -/
structure Recallable (s : String) (P : Value → Prop) (key : CacheKey) (entry : CacheEntry) : Prop where
  next : Input.Boundary s entry.next
  forward : key.pos ≤ entry.next
  value : P entry.result ∨ entry.result = .failed ∧ entry.next = key.pos

/-- A state in which a text is parsed. -/
structure Orderly (c : Compilation) (s : String) (P : Value → Prop) (st : ParseState) : Prop where
  input : st.input = .ofString s
  trusts : c.Trusts st
  remembers : ∀ key entry, st.cache[key]? = some entry → Recallable s P key entry

/-- The code of an expression, where it runs to its end with these calls and a last one, is an action for what began
where the run did. -/
def Performs (c : Compilation) (bs : Bindings) (e : Expr) (cs : List (HostCall HostFunction))
    (call : HostCall HostFunction) : Prop :=
  ∃ i body code env ls s st v st', e = .action i body code ∧ Acts code st.pos call ∧ Env.Holds env ls s ∧
    Exec (c.inlineProgram bs) (RuleRuns (c.inlineProgram bs)) (Code.ofExpr c.plan e env s.length) s st (cs ++ [call])
      (.value v :: s) st'

variable {c : Compilation} {bs : Bindings} {s : String} {P : Value → Prop} {Q : List (HostCall HostFunction) → Prop}
  {st st' : ParseState}

theorem steady_orderly (c : Compilation) (s : String) (P : Value → Prop) : Steady s (c.Orderly s P) where
  input := fun _ h => h.input
  keeps := fun _ _ hi hc h =>
    ⟨hi.trans h.input, ofCache_trusts c _ _ hc h.trusts, fun key entry he => h.remembers key entry (hc ▸ he)⟩

theorem orderly_of_empty (hi : st.input = .ofString s) (hc : st.cache = {}) : c.Orderly s P st := by
  refine ⟨hi, trusts_of_empty hc, fun key entry he => ?_⟩
  rw [hc, Std.HashMap.getElem?_empty] at he
  cases he

/-- Parses start in order. -/
theorem placed_start (c : Compilation) (s : String) (P : Value → Prop) (source : Option String) (tracing : Bool) :
    Placed s (c.Orderly s P) (.start s source tracing) :=
  ⟨orderly_of_empty rfl rfl, Input.boundary_zero s, Input.boundary_zero s⟩

theorem orderly_remember (h : c.Orderly s P st) {r start : Nat} {v : Value} (htells : (c.found.guess r).Tells v)
    (hnext : Input.Boundary s st.pos) (hle : start ≤ st.pos) (hv : P v ∨ v = .failed ∧ st.pos = start) :
    c.Orderly s P (st.remember r start v) := by
  refine ⟨h.input, trusts_remember h.trusts htells, fun key entry he => ?_⟩
  unfold ParseState.remember at he
  simp only [Std.HashMap.getElem?_insert] at he
  split at he
  · rename_i hkey
    cases he
    rw [← beq_iff_eq.1 hkey]
    exact ⟨hnext, hle, hv⟩
  · exact h.remembers key entry he

/-- A rule conducts itself as its body does, also if it is remembered. -/
theorem proper_around (hQ : Q []) {r : Nat} {name : String} {A : Act HostFunction}
    (hA : Proper s P (c.Orderly s P) Q A) (htells : Agrees c.Trusts (c.found.guess r) A) :
    Proper s P (c.Orderly s P) Q (Around (c.inlineProgram bs) r name A) := by
  intro st hst cs v st' hx
  have steady := steady_orderly c s P
  have trace {st : ParseState} (h : c.Orderly s P st) (trace : Option (Array TraceEvent)) :
      c.Orderly s P { st with trace } := steady.keeps st _ rfl rfl h
  rcases around_cases hx with ⟨entry, tr, rfl, -, hentry, rfl, rfl⟩ | ⟨-, tr, st₁, tr', hbody, rfl⟩
  · obtain ⟨next, forward, value⟩ := hst.kept.remembers _ _ hentry
    exact ⟨hQ, ⟨steady.keeps st _ rfl rfl hst.kept, next, hst.saved⟩, rfl, forward, value⟩
  · obtain ⟨calls, placed, silent, forward, value⟩ := hA _ ⟨trace hst.kept tr, hst.pos, hst.saved⟩ _ _ _ hbody
    refine ⟨calls, ⟨trace ?_ tr', ?_, ?_⟩, ?_, ?_, ?_⟩
    · split
      · exact orderly_remember placed.kept (htells _ (trace hst.kept tr).trusts _ _ _ hbody).1 placed.pos forward value
      · exact placed.kept
    all_goals split
    · exact placed.pos
    · exact placed.pos
    · exact placed.saved
    · exact placed.saved
    · exact silent
    · exact silent
    · exact forward
    · exact forward
    · exact value
    · exact value

/-- With rules nested to a depth, an expression with an action does what its code does with all rules. -/
theorem performs_of_attached {R : RuleId → Act HostFunction}
    (hR : ∀ t st cs v st', R t st cs v st' → RuleRuns (c.inlineProgram bs) t st cs v st') {e : Expr}
    {cs : List (HostCall HostFunction)} {call : HostCall HostFunction} (h : (c.setting bs).Attached R e cs call) :
    c.Performs bs e cs call := by
  obtain ⟨i, body, code, ls, st, v, st', rfl, acts, hx⟩ := h
  obtain ⟨env, s, henv⟩ := Env.exists_holds ls
  exact ⟨i, body, code, env, ls, s, st, v, st', rfl, acts, henv, ((exec_ofExpr_iff henv).2 hx).mono hR⟩

section Rules

variable (hc : Analysis.Matching.Complete c.grammar c.found) (hbs : bs.NeverFail)
  (hG : Grounds s P (c.Orderly s P) Q) (hkeeps : (c.setting bs).Keeps P)
  (hcalls : ∀ {call}, Ranged s P call → call.function.kind ≠ .action → Q [call])
  (hacts : ∀ {r rule e cs call}, c.grammar.live? r = some rule → e ∈ rule.body.preorder → Q cs → Ranged s P call →
    c.Performs bs e cs call → Q (cs ++ [call]))

include hc hbs hG hkeeps hcalls hacts

/-- What the expressions of a rule take for granted, if the rules that it calls conduct themselves properly. -/
theorem conditions {R : RuleId → Act HostFunction}
    (hR : ∀ t st cs v st', R t st cs v st' → RuleRuns (c.inlineProgram bs) t st cs v st')
    (hagrees : ∀ t, Agrees c.Trusts (c.found.guess t) (R t)) (hproper : ∀ t, Proper s P (c.Orderly s P) Q (R t))
    {r : RuleId} {rule : Rule} (hr : c.grammar.live? r = some rule) :
    Conditions s P (c.Orderly s P) Q (· ∈ rule.body.preorder) (c.setting bs) fun t => .within c.Trusts (R t) where
  toGrounds := hG
  host := hkeeps
  rules := fun t st hst cs v st' hx => hproper t st hst cs v st' hx.2
  calls := hcalls
  acts := fun {e cs call} he hcs hranged hattached => by
    have runs (t : RuleId) (st : ParseState) (cs : List (HostCall HostFunction)) (v : Value) (st' : ParseState)
        (h : Act.within c.Trusts (R t) st cs v st') : RuleRuns (c.inlineProgram bs) t st cs v st' := hR t st cs v st' h.2
    refine hacts hr he hcs hranged (performs_of_attached runs ?_)
    obtain ⟨i, body, code, ls, st, v, st', rfl, acts, hx⟩ := hattached
    rw [← setting_unpruned hc hbs (gives_within hagrees) hr he ls] at hx
    exact ⟨i, body, code, ls, st, v, st', rfl, acts, hx⟩

/-- Rules conduct themselves properly, however deep they are nested. -/
theorem proper_ruleExec (n r : Nat) : Proper s P (c.Orderly s P) Q (RuleExec (c.inlineProgram bs) n r) := by
  induction n generalizing r with
  | zero => exact fun st _ cs v st' h => h.elim
  | succ n ih =>
    intro st hst cs v st' hx
    obtain ⟨rule, hr, hx⟩ := ruleExec_succ_iff.1 hx
    have agrees := agrees_ruleExec hc hbs n
    have body : Proper s P (c.Orderly s P) Q ((c.setting bs).ofRule (RuleExec (c.inlineProgram bs) n) rule) := by
      intro st hst cs v st' hx
      -- the body as it is with what is known about matching not made use of
      refine proper_ofRule (conditions hc hbs hG hkeeps hcalls hacts (fun t st cs v st' h => ⟨n, h⟩) agrees ih hr) rule
        (fun e he => he) st hst cs v st' ?_
      exact (ofRule_trusting hc hbs agrees hr hst.kept.trusts).1 hx
    exact proper_around hG.nil body (agrees_ofRule hc hbs agrees hr) st hst cs v st' hx

theorem proper_ruleRuns (r : Nat) : Proper s P (c.Orderly s P) Q (RuleRuns (c.inlineProgram bs) r) := by
  rintro st hst cs v st' ⟨n, hx⟩
  exact proper_ruleExec hc hbs hG hkeeps hcalls hacts n r st hst cs v st' hx

/-- So do the expressions of rules. -/
theorem proper_meaning {r : RuleId} {rule : Rule} (hr : c.grammar.live? r = some rule) {e : Expr}
    (he : e ∈ rule.body.preorder) {ls : Labels} (hls : ∀ v ∈ ls.values, P v) :
    Proper s P (c.Orderly s P) Q ((c.setting bs).meaning (RuleRuns (c.inlineProgram bs)) e ls) := by
  intro st hst cs v st' hx
  have agrees := agrees_ruleRuns hc hbs
  have ready := conditions hc hbs hG hkeeps hcalls hacts (fun t st cs v st' h => h) agrees
    (proper_ruleRuns hc hbs hG hkeeps hcalls hacts) hr
  refine proper_expr ready e (fun e' he' => Expr.mem_preorder_trans he he') ls hls st hst cs v st' ?_
  rw [← setting_unpruned hc hbs (gives_within agrees) hr he ls]
  exact (meaning_within (ofCache_trusts c) (fun t st cs v st' hst hx => (agrees t st hst cs v st' hx).2) hst.kept.trusts).1 hx

end Rules

end Compilation

end PegCompiler
