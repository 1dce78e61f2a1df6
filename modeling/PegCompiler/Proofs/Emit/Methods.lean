/-
Parsers as their source text has them: a method for every rule, and a function that parses. A method is its variables
and statements between what the text says about remembered results and reports; it is called by its name. Functions
of the grammar's host code are methods too, which return what the type in their heads says.
-/
import PegCompiler.Proofs.Emit.Simulation
import PegCompiler.Proofs.Emit.Verified

namespace PegCompiler

open Machine

/-! ## Host code -/

/-- What a function of a kind returns in a generated parser (`Source.resultType`). -/
abbrev FunctionKind.Result : FunctionKind → Type
  | .action => Value
  | .predicate => Bool
  | .boundary => Nat

/-- A count as a value: a whole number of 64 bits, the greatest of them if the count is greater. -/
def Value.ofCount (n : Nat) : Value := .int (min n 9223372036854775807)

/-- What is returned as a value (`resultText`). -/
def FunctionKind.value : (kind : FunctionKind) → kind.Result → Value
  | .action, v => v
  | .predicate, b => .bool b
  | .boundary, n => .ofCount n

/-- What is returned is what a bound function gives: the same value for an action, whether the value counts as true for a
predicate, and the count whose value it is for a boundary. -/
def FunctionKind.Agrees : (kind : FunctionKind) → kind.Result → Value → Prop
  | .action, w, v => w = v
  | .predicate, b, v => b = v.truthy
  | .boundary, n, v => v = .ofCount n

theorem FunctionKind.Agrees.hostResult {kind : FunctionKind} {x : kind.Result} {v : Value} (h : kind.Agrees x v) :
    Machine.hostResult kind v = kind.value x := by
  cases kind with
  | action => exact Eq.symm h
  | predicate => exact congrArg Value.bool (Eq.symm h)
  | boundary => exact h

/-- The functions of a generated parser by their kinds and numbers. -/
abbrev HostMethods := (kind : FunctionKind) → Nat → HostView → List Value → kind.Result

/-- They do what the functions do that are bound to their code. -/
def HostMethods.Implements (hosts : HostMethods) (k : Constants) (bs : Bindings) : Prop :=
  ∀ i function, k.functions.get? i = some function → ∃ host, bs.find? function.code = some host ∧
    ∀ view args, function.kind.Agrees (hosts function.kind i view args) (host view args)

/-! ## Methods -/

/-- The method of a rule. -/
structure Method where
  name : String
  /-- The number of the rule, which results are remembered by. -/
  rule : RuleId
  span : Span
  body : RuleBody

/-- What source text tells of a parser besides its host code. -/
structure WrittenParser where
  options : CompileOptions
  startRules : List String
  constants : Constants
  methods : List Method

namespace Method

/-- The text of the method. -/
def write (m : Method) (o : CompileOptions) (w : CodeWriter) : CodeWriter :=
  let quoted := Quoted.string m.name
  let w := (w.pushOrigin m.span).openBlock (s!"fn parse_{m.name}(&mut self) -> Value " ++ "\x7b")
  let w := Source.traced o s!"self.st.trace_enter({quoted}, start);" (w.line "let start = self.st.pos;")
  let w :=
    if o.cache then
      let w := w.openBlock (s!"if let Some(cached) = self.st.cache_lookup({m.rule}) " ++ "\x7b")
      let w := Source.traced o s!"self.st.trace_exit({quoted}, start, &cached, true);" w
      (w.line "return cached;").closeBlock "\x7d"
    else w
  let w := m.body.write w
  let w := if o.cache then w.line s!"self.st.cache_store({m.rule}, start, &s0);" else w
  let w := Source.traced o s!"self.st.trace_exit({quoted}, start, &s0, false);" w
  ((w.line "s0").closeBlock "\x7d").popOrigin

/-- A report, if the text has one and someone listens. -/
def traced (o : CompileOptions) (f : ParseState → ParseState) (st : ParseState) : ParseState :=
  if o.trace && st.tracing then f st else st

/-- The state where a method looks up whether its result is remembered. -/
def entered (m : Method) (o : CompileOptions) (st : ParseState) : ParseState :=
  traced o (·.reportEnter m.name st.pos) st

/-- What a method returns; `body` tells what statements do from variables to variables. -/
inductive Returns (m : Method) (o : CompileOptions)
    (body : List Statement → Locals → ParseState → Locals → ParseState → Prop) : ParseState → Value → ParseState → Prop
  | cached {st st₁ : ParseState} {v : Value} (hcache : o.cache = true)
      (hit : (m.entered o st).remembered? m.rule = some (v, st₁)) :
      Returns m o body st v (traced o (·.reportExit m.name st.pos v true) st₁)
  | computed {st st₁ : ParseState} {l : Locals}
      (miss : o.cache = true → (m.entered o st).remembered? m.rule = none)
      (h : body m.body.statements .fresh (m.entered o st) l st₁) :
      Returns m o body st (l.values 0) (traced o (·.reportExit m.name st.pos (l.values 0) false)
        (if o.cache then st₁.remember m.rule st.pos (l.values 0) else st₁))

end Method

namespace Source

/-- The method that a rule gets. -/
def method (p : Parts) (r : RuleId) (rule : Rule) : Except EmitError Method := do
  let context : RuleBody.Context :=
    { rule := rule.name, limit := (p.bytecode r).maxSlot, constants := p.constants
      ruleName? := fun i => p.grammar.live.lookup i |>.map (·.name) }
  return ⟨rule.name, r, rule.span, ← RuleBody.ofCode context (Code.decode (p.bytecode r).words)⟩

/-- The parser that source text is written of. -/
def parser (p : Parts) : Except EmitError WrittenParser := do
  let methods ← p.grammar.live.mapM fun (r, rule) => method p r rule
  return ⟨p.options, p.startRules.map p.grammar.ruleName, p.constants, methods⟩

/-- The text of a rule is that of its method. -/
theorem rule_eq (p : Parts) (r : RuleId) (body : Rule) (w : CodeWriter) :
    rule p r body w = do return (← method p r body).write p.options w := by
  unfold rule method
  simp only
  generalize RuleBody.ofCode _ _ = x
  cases x <;> rfl

/-- And so the text of all rules is that of the methods of the parser. -/
theorem rules_eq (p : Parts) (rs : List (RuleId × Rule)) (w : CodeWriter) :
    rules p rs w = do
      let methods ← rs.mapM fun (r, rule) => method p r rule
      return methods.foldl (fun w m => m.write p.options w) w := by
  induction rs generalizing w with
  | nil => rfl
  | cons head rs ih =>
    obtain ⟨r, body⟩ := head
    unfold rules
    simp only [rule_eq, ih, List.mapM_cons]
    cases method p r body with
    | error why => rfl
    | ok m =>
      show (do let methods ← rs.mapM fun (r, rule) => method p r rule; _ : Except EmitError CodeWriter) = _
      cases rs.mapM fun (r, rule) => method p r rule <;> rfl

/-- The methods are those of the rules. -/
theorem methods_of_rules {p : Parts} {rs : List (RuleId × Rule)} {methods : List Method}
    (h : (rs.mapM fun (r, rule) => method p r rule) = .ok methods) :
    (∀ m ∈ methods, ∃ r rule, (r, rule) ∈ rs ∧ method p r rule = .ok m) ∧
      ∀ r rule, (r, rule) ∈ rs → ∃ m ∈ methods, method p r rule = .ok m := by
  induction rs generalizing methods with
  | nil =>
    cases h
    exact ⟨nofun, nofun⟩
  | cons head rs ih =>
    obtain ⟨r, rule⟩ := head
    rw [List.mapM_cons] at h
    obtain ⟨first, hfirst, h⟩ := except_bind_ok_iff.1 h
    obtain ⟨rest, hrest, h⟩ := except_bind_ok_iff.1 h
    cases h
    obtain ⟨made, all⟩ := ih hrest
    constructor
    · rintro m (_ | ⟨_, hm⟩)
      · exact ⟨r, rule, List.mem_cons_self, hfirst⟩
      · obtain ⟨r', rule', hr', hmethod⟩ := made m hm
        exact ⟨r', rule', List.mem_cons_of_mem _ hr', hmethod⟩
    · rintro r' rule' (_ | ⟨_, hr'⟩)
      · exact ⟨first, List.mem_cons_self, hfirst⟩
      · obtain ⟨m, hm, hmethod⟩ := all r' rule' hr'
        exact ⟨m, List.mem_cons_of_mem _ hm, hmethod⟩

theorem method_ok_iff {p : Parts} {r : RuleId} {rule : Rule} {m : Method} : method p r rule = .ok m ↔
    ∃ body, RuleBody.ofCode
      { rule := rule.name, limit := (p.bytecode r).maxSlot, constants := p.constants
        ruleName? := fun i => p.grammar.live.lookup i |>.map (·.name) }
      (Code.decode (p.bytecode r).words) = .ok body ∧ m = ⟨rule.name, r, rule.span, body⟩ := by
  unfold method
  simp only
  rw [except_bind_ok_iff]
  constructor
  · rintro ⟨body, hbody, h⟩
    cases h
    exact ⟨body, hbody, rfl⟩
  · rintro ⟨body, hbody, rfl⟩
    exact ⟨body, hbody, rfl⟩

/-- Where source text is written there is the parser that it is written of. -/
theorem parser_of_write {p : Parts} {w : CodeWriter} (h : write p = .ok w) : ∃ q, parser p = .ok q := by
  obtain ⟨-, w₀, w₁, hrules⟩ := rules_of_write h
  rw [rules_eq] at hrules
  obtain ⟨methods, hmethods, -⟩ := except_bind_ok_iff.1 hrules
  unfold parser
  rw [hmethods]
  exact ⟨_, rfl⟩

/-- What the parser has besides: the options, the start rules by name, the constants, and a method for each rule that is
left. -/
structure Prints (p : Parts) (q : WrittenParser) : Prop where
  options : q.options = p.options
  startRules : q.startRules = p.startRules.map p.grammar.ruleName
  constants : q.constants = p.constants
  made : ∀ m ∈ q.methods, ∃ r rule, p.grammar.live? r = some rule ∧ method p r rule = .ok m
  all : ∀ r rule, p.grammar.live? r = some rule → ∃ m ∈ q.methods, method p r rule = .ok m

theorem parser_prints {p : Parts} {q : WrittenParser} (h : parser p = .ok q) : Prints p q := by
  obtain ⟨methods, hmethods, h⟩ := except_bind_ok_iff.1 h
  cases h
  obtain ⟨made, all⟩ := methods_of_rules hmethods
  refine ⟨rfl, rfl, rfl, fun m hm => ?_, fun r rule hr => all r rule (Grammar.mem_live.2 hr)⟩
  obtain ⟨r, rule, hr, hmethod⟩ := made m hm
  exact ⟨r, rule, Grammar.mem_live.1 hr, hmethod⟩

end Source

/-! ## Calls and parses -/

namespace WrittenParser

/-- What its statements use: the constants, and the functions as what they return is turned into values. -/
def surroundings (q : WrittenParser) (hosts : HostMethods) : Surroundings where
  literal := Parser.constant q.constants.literals .unknownLiteral
  charClass := Parser.constant q.constants.classes .unknownClass
  expectation := Parser.constant q.constants.expectations .unknownExpectation
  call kind f view args := .ok (kind.value (hosts kind f view args))

/-- What a call of a method does with at most `n` calls inside each other. -/
def Calls (q : WrittenParser) (hosts : HostMethods) : (n : Nat) → String → ParseState → Value → ParseState → Prop
  | 0, _ => fun _ _ _ => False
  | n + 1, name => fun st v st' => ∃ m ∈ q.methods, m.name = name ∧
      m.Returns q.options (Statement.Runs (q.surroundings hosts) (q.Calls hosts n)) st v st'

/-- What the method of a rule returns. -/
def Returns (q : WrittenParser) (hosts : HostMethods) (name : String) (st : ParseState) (v : Value) (st' : ParseState) :
    Prop :=
  ∃ n, q.Calls hosts n name st v st'

/-- The rule that a parse is to start from, the first start rule if it is not given. -/
def startRule (q : WrittenParser) (o : ParseOptions) : String := o.startRule.getD (q.startRules.headD "")

/-- How the function that parses answers. -/
inductive Parses (q : WrittenParser) (hosts : HostMethods) (text : String) (o : ParseOptions) :
    Except ParseError Value → Prop
  | unknown (h : q.startRule o ∉ q.startRules) :
      Parses q hosts text o (.error (.unknownStartRule (q.startRule o) o.source))
  | finished {v : Value} {st : ParseState} (h : q.startRule o ∈ q.startRules)
      (returns : q.Returns hosts (q.startRule o) (.start text o.source o.tracing) v st) :
      Parses q hosts text o (st.finish v).1

end WrittenParser

end PegCompiler
