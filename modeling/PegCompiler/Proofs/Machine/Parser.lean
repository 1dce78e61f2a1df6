/-
Parsers run what expressions mean. The parser of a compilation whose rules have their code is linked to
a program that holds its constants, and the code of that does what expressions mean. So the runs of a
rule, and of the code of an expression wherever it may stand, are told by meanings.
-/
import PegCompiler.Machine.Parser
import PegCompiler.Proofs.Compilation
import PegCompiler.Proofs.Machine.Linking
import PegCompiler.Proofs.Meaning.OfCode

namespace PegCompiler

open Machine

/-- What code that is called stands for. -/
def Bindings.function (bs : Bindings) (f : HostFunction) : Except Fault (FunctionKind × HostFn) :=
  match bs.find? f.code with
  | some host => .ok (f.kind, host)
  | none => .error (.unbound (Bindings.key f.code))

namespace Grammar

/-- Rules in an array, those left out that were removed. -/
theorem getD_numbered {α : Type} (g : Grammar) (f : RuleId → Rule → α) (r : RuleId) :
    (g.numbered.map fun (r, rule) => if g.removed.contains r then none else some (f r rule)).toArray.getD r none =
      (g.live? r).map (f r) := by
  unfold numbered live? rule?
  rw [Array.getD_eq_getD_getElem?, List.getElem?_toArray, List.getElem?_map, List.getElem?_map, List.getElem?_zipIdx]
  cases g.rules[r]? with
  | none => simp
  | some rule => by_cases h : r ∈ g.removed <;> simp [h]

end Grammar

namespace Compilation

/-- The parser of a compilation, with functions for host code. -/
def parserWith (c : Compilation) (bs : Bindings) : Parser where
  rules := Parser.rulesOf c
  startRules := c.startRules
  constants := c.constants
  cache := c.options.cache
  trace := c.options.trace
  bindings := bs

theorem ofCompilation_ok {c : Compilation} (h : c.startRules ≠ []) : Parser.ofCompilation c = .ok (c.parserWith []) := by
  unfold Parser.ofCompilation
  rw [if_neg fun hempty => h (List.isEmpty_iff.1 hempty)]
  rfl

/-- What the meanings of a compilation's expressions depend on. -/
def setting (c : Compilation) (bs : Bindings) : Setting := { c.plan with function := bs.function }

/-- The rules with code that holds its constants. -/
def inlineRules (c : Compilation) : Array (Option (RuleCode Inline)) :=
  (c.grammar.numbered.map fun (r, rule) =>
    if c.grammar.removed.contains r then none else some ⟨rule.name, Code.ofRule c.plan rule⟩).toArray

/-- The program that runs them. -/
def inlineProgram (c : Compilation) (bs : Bindings) : Program Inline :=
  (c.setting bs).program c.inlineRules c.options.cache c.options.trace

theorem getD_rulesOf (c : Compilation) (r : RuleId) : (Parser.rulesOf c).getD r none =
    (c.grammar.live? r).map fun rule => ⟨rule.name, Code.decode (c.codeOf r).words⟩ :=
  c.grammar.getD_numbered (fun r rule => (⟨rule.name, Code.decode (c.codeOf r).words⟩ : RuleCode Raw)) r

/-- A rule's name is the one that it has in the grammar. -/
theorem ruleName?_parserWith (c : Compilation) (bs : Bindings) (r : RuleId) :
    (c.parserWith bs).ruleName? r = (c.grammar.live? r).map (·.name) := by
  unfold Parser.ruleName?
  rw [show (c.parserWith bs).rules = Parser.rulesOf c from rfl, getD_rulesOf, Option.map_map]
  rfl

theorem getD_inlineRules (c : Compilation) (r : RuleId) : c.inlineRules.getD r none =
    (c.grammar.live? r).map fun rule => ⟨rule.name, Code.ofRule c.plan rule⟩ :=
  c.grammar.getD_numbered (fun _ rule => (⟨rule.name, Code.ofRule c.plan rule⟩ : RuleCode Inline)) r

variable {c : Compilation} {bs : Bindings} {k : Constants}

theorem constant_indexOf {α : Type} [DecidableEq α] {p : Pool α} {a : α} (ha : a ∈ p.toList) (fault : Nat → Fault) :
    Parser.constant p fault (p.indexOf a) = .ok a := by
  unfold Parser.constant
  rw [Pool.get?_indexOf ha]

/-- The parser is linked to that program, also if its pools go on to grow. -/
theorem Coded.links (h : c.Coded) (hk : c.constants.Grows k) :
    Links k (Parser.program { c.parserWith bs with constants := k }) (c.inlineProgram bs) where
  literal := fun _ hs => constant_indexOf hs _
  charClass := fun _ hs => constant_indexOf hs _
  expectation := fun _ hs => constant_indexOf hs _
  function := fun f hf => by
    show (do let f ← Parser.constant k.functions .unknownFunction (k.functions.indexOf f)
             match bs.find? f.code with
             | some host => return (f.kind, host)
             | none => throw (Fault.unbound (Bindings.key f.code))) = bs.function f
    rw [constant_indexOf hf]
    unfold Bindings.function
    show (match bs.find? f.code with
      | some host => return (f.kind, host)
      | none => throw (Fault.unbound (Bindings.key f.code))) = _
    split <;> rfl
  cache := rfl
  trace := rfl
  rules := fun r => by
    show (Parser.rulesOf c).getD r none = (c.inlineRules.getD r none).map _
    rw [getD_rulesOf, getD_inlineRules, Option.map_map]
    cases hr : c.grammar.live? r with
    | none => rfl
    | some rule =>
      rw [Option.map_some, Option.map_some, h.code r rule hr, Code.decode_encode]
      show _ = some (⟨rule.name, Code.raw (Code.link k (Code.ofRule c.plan rule))⟩ : RuleCode Raw)
      rw [Code.link_eq_of_grows hk (h.known r rule hr)]
  known := fun r code hr => by
    have hr : c.inlineRules.getD r none = some code := hr
    rw [getD_inlineRules] at hr
    obtain ⟨rule, hrule, rfl⟩ := Option.map_eq_some_iff.1 hr
    exact (h.known r rule hrule).mono hk

theorem exec_ofRule_iff {R : RuleId → Act HostFunction} {rule : Rule} {st st' : ParseState}
    {cs : List (HostCall HostFunction)} {v : Value} :
    Exec (c.inlineProgram bs) R (Code.ofRule c.plan rule) [] st cs [.value v] st' ↔
      (c.setting bs).ofRule R rule st cs v st' := by
  refine (yields_ofRule (c := c.setting bs) rule st cs _ st').trans ?_
  constructor
  · rintro ⟨w, e, hw⟩
    cases e; exact hw
  · intro hv; exact ⟨v, rfl, hv⟩

theorem exec_ofExpr_iff {R : RuleId → Act HostFunction} {e : Expr} {env : Env} {ls : Labels} {s : Stack}
    (henv : env.Holds ls s) {st st' : ParseState} {cs : List (HostCall HostFunction)} {v : Value} :
    Exec (c.inlineProgram bs) R (Code.ofExpr c.plan e env s.length) s st cs (.value v :: s) st' ↔
      (c.setting bs).meaning R e ls st cs v st' := by
  refine (yields_ofExpr (c := c.setting bs) e env ls s henv st cs _ st').trans ?_
  constructor
  · rintro ⟨w, same, hw⟩
    cases same
    exact hw
  · intro hv
    exact ⟨v, rfl, hv⟩

theorem around_code_iff {R : RuleId → Act HostFunction} {r : Nat} {st st' : ParseState}
    {cs : List (HostCall HostFunction)} {v : Value} :
    (∃ code, (c.inlineProgram bs).rules.getD r none = some code ∧
      Around (c.inlineProgram bs) r code.name
        (fun st cs v st' => Exec (c.inlineProgram bs) R code.code [] st cs [.value v] st') st cs v st') ↔
    ∃ rule, c.grammar.live? r = some rule ∧
      Around (c.inlineProgram bs) r rule.name ((c.setting bs).ofRule R rule) st cs v st' := by
  rw [show (c.inlineProgram bs).rules.getD r none = _ from getD_inlineRules c r]
  constructor
  · rintro ⟨code, hcode, hx⟩
    obtain ⟨rule, hrule, rfl⟩ := Option.map_eq_some_iff.1 hcode
    exact ⟨rule, hrule, hx.mono fun _ _ _ _ h => exec_ofRule_iff.1 h⟩
  · rintro ⟨rule, hrule, hx⟩
    refine ⟨⟨rule.name, Code.ofRule c.plan rule⟩, ?_, hx.mono fun _ _ _ _ h => exec_ofRule_iff.2 h⟩
    rw [hrule, Option.map_some]

/-- What a rule does with at most `n + 1` rules inside each other: what it means, with something around it. -/
theorem ruleExec_succ_iff {n r : Nat} {st st' : ParseState} {cs : List (HostCall HostFunction)} {v : Value} :
    RuleExec (c.inlineProgram bs) (n + 1) r st cs v st' ↔ ∃ rule, c.grammar.live? r = some rule ∧
      Around (c.inlineProgram bs) r rule.name ((c.setting bs).ofRule (RuleExec (c.inlineProgram bs) n) rule)
        st cs v st' :=
  around_code_iff

/-- What a rule does, however many rules are inside it. -/
theorem ruleRuns_iff_meaning {r : Nat} {st st' : ParseState} {cs : List (HostCall HostFunction)} {v : Value} :
    RuleRuns (c.inlineProgram bs) r st cs v st' ↔ ∃ rule, c.grammar.live? r = some rule ∧
      Around (c.inlineProgram bs) r rule.name ((c.setting bs).ofRule (RuleRuns (c.inlineProgram bs)) rule)
        st cs v st' :=
  ruleRuns_iff.trans around_code_iff

/-- Where nothing is remembered, there are only reports around the body of a rule. -/
theorem around_iff (hcache : c.options.cache = false) {r : Nat} {name : String} {A : Act HostFunction}
    {st st' : ParseState} {cs : List (HostCall HostFunction)} {v : Value} :
    Around (c.inlineProgram bs) r name A st cs v st' ↔ ∃ st₁,
      A (reported (c.inlineProgram bs) (·.reportEnter name st.pos) st) cs v st₁ ∧
      st' = reported (c.inlineProgram bs) (·.reportExit name st.pos v false) st₁ := by
  unfold Around
  rw [show (c.inlineProgram bs).cache = false from hcache]
  exact Iff.rfl

/-- The code of an expression for stacks of a size where these labels are in scope, with the pools it needs. -/
def exprCode (c : Compilation) (e : Expr) (env : Env) (size : Nat) : Except CodeError (Code Raw × Constants) :=
  match (Code.ofExpr c.plan e env size).assemble c.constants with
  | .ok code k => .ok (Code.decode code.encode, k)
  | .error why _ => .error why

theorem exprCode_ok {e : Expr} {env : Env} {size : Nat} {code : Code Raw} (h : c.exprCode e env size = .ok (code, k)) :
    c.constants.Grows k ∧ Code.Known k (Code.ofExpr c.plan e env size) ∧
      code = Code.raw (Code.link k (Code.ofExpr c.plan e env size)) := by
  unfold exprCode at h
  cases hcode : (Code.ofExpr c.plan e env size).assemble c.constants with
  | error why k' => rw [hcode] at h; cases h
  | ok pooled k' =>
    rw [hcode] at h
    cases h
    obtain ⟨hgrows, hknown, rfl⟩ := (Code.bracketed_ofExpr c.plan e env size).assemble_ok hcode
    exact ⟨hgrows, hknown, Code.decode_encode _⟩

/-- The code of an expression does what the expression means, and makes the calls that it makes. -/
theorem Coded.exec_exprCode (h : c.Coded) {e : Expr} {env : Env} {ls : Labels} {s s' : Stack} {code : Code Raw}
    (hcode : c.exprCode e env s.length = .ok (code, k)) (henv : env.Holds ls s) {st st' : ParseState}
    {cs : List (HostCall Nat)} :
    Exec (Parser.program { c.parserWith bs with constants := k })
        (RuleRuns (Parser.program { c.parserWith bs with constants := k })) code s st cs s' st' ↔
      ∃ cs' v, cs = cs'.map (HostCall.link k) ∧ s' = .value v :: s ∧
        (c.setting bs).meaning (RuleRuns (c.inlineProgram bs)) e ls st cs' v st' := by
  obtain ⟨hgrows, hknown, rfl⟩ := exprCode_ok hcode
  have links : Links k (Parser.program { c.parserWith bs with constants := k }) (c.inlineProgram bs) := h.links hgrows
  rw [exec_link_iff links (ruleRuns_link_iff links) hknown]
  constructor
  · rintro ⟨cs', hcs, hx⟩
    obtain ⟨v, hs, hv⟩ := (yields_ofExpr (c := c.setting bs) e env ls s henv st cs' s' st').1 hx
    exact ⟨cs', v, hcs, hs, hv⟩
  · rintro ⟨cs', v, hcs, hs, hv⟩
    exact ⟨cs', hcs, (yields_ofExpr (c := c.setting bs) e env ls s henv st cs' s' st').2 ⟨v, hs, hv⟩⟩

/-- A rule of the parser does what the rule does in the program that holds its constants. -/
theorem Coded.ruleRuns (h : c.Coded) : RulesLink c.constants (RuleRuns (c.parserWith bs).program)
    (RuleRuns (c.inlineProgram bs)) :=
  ruleRuns_link_iff (h.links (.refl _))

end Compilation

end PegCompiler
