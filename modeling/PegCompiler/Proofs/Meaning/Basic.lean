/-
What an expression does, told on its tree and not on its code. A meaning is an act: it reads the state
of the parse, calls host code and what rules do, and gives a value. It prunes just where the code does,
so that code and meaning can be compared without any knowledge of what the pruning rests on.
-/
import PegCompiler.Code.OfExpr
import PegCompiler.Proofs.Grammar.Basic
import PegCompiler.Proofs.Machine.Yields
import PegCompiler.Proofs.Semantics.Values

namespace PegCompiler

namespace Machine

/-! ## What operators do to the acts of their operands -/

namespace Act

variable {φ : Type}

/-- A failure. -/
def failing (e : Expectation) : Act φ := change fun st => (.failed, st.fail e)

/-- A value at an earlier position. -/
def backTo (pos : Nat) (v : Value) : Act φ := after (fun st => { st with pos }) (pure v)

/-- Failures are not recorded during an act. -/
def silently (A : Act φ) (B : Value → Act φ) : Act φ :=
  after (fun st => { st with silent := st.silent + 1 })
    (A.bind fun v => after (fun st => { st with silent := st.silent - 1 }) (B v))

def lookahead (m : MatchResult) (negative : Bool) (A : Act φ) : Act φ :=
  read fun st => silently A fun v =>
    if negative then if m.holds (!v.isFailed) then backTo st.pos .failed else pure .null
    else if m.holds (!v.isFailed) then backTo st.pos .null else pure .failed

def named (m : MatchResult) (name : String) (A : Act φ) : Act φ :=
  silently A fun v => if m.holds (!v.isFailed) then pure v else failing (.named name)

def text (m : MatchResult) (A : Act φ) : Act φ :=
  read fun st => A.bind fun v => if m.holds (!v.isFailed) then read fun st' => pure (.str (st'.text st.pos)) else pure v

def optional (m : MatchResult) (A : Act φ) : Act φ :=
  A.bind fun v => if m.holds (!v.isFailed) then pure v else pure .null

def zeroOrMore (A : Act φ) : Act φ := A.bind (Collects (fun _ => A) [])

def oneOrMore (m : MatchResult) (A : Act φ) : Act φ :=
  A.bind fun v => if m.holds (!v.isFailed) then Collects (fun _ => A) [] v else pure .failed

/-- An act unless there are as many items as there may be. -/
def unlessFull (most : Option Nat) (n : Nat) (A : Act φ) : Act φ := if most.any (· ≤ n) then pure .failed else A

/-- A repetition of a first item and further ones; too few of them are a failure where that can be. -/
def counted (checked : Bool) (least : Nat) (most : Option Nat) (first item : Act φ) : Act φ :=
  read fun st => (unlessFull most 0 first).bind fun v =>
    (Collects (fun n => unlessFull most n item) [] v).bind fun items =>
      if checked && items.size < least then backTo st.pos .failed else pure items

/-- A further item with a delimiter before it. -/
def delimited (ofDelimiter ofBody : MatchResult) (delimiter body : Act φ) : Act φ :=
  read fun st => delimiter.bind fun v =>
    if ofDelimiter.holds (!v.isFailed) then
      body.bind fun w => if ofBody.holds (!w.isFailed) then pure w else backTo st.pos .failed
    else pure v

end Act

/-! ## Meanings -/

/-- What meanings depend on besides what rules do. -/
structure Setting extends Code.Plan where
  function : HostFunction → Except Fault (FunctionKind × HostFn)

namespace Setting

variable (c : Setting)

/-- A call of host code with the labels in scope. -/
def call (kind : FunctionKind) (code : HostCode) (ls : Labels) : Act HostFunction :=
  .call c.function ⟨kind, ls.names, code.val, code.span⟩ ls.values

/-- Host code that decides. -/
def predicate (code : HostCode) (negative : Bool) (ls : Labels) : Act HostFunction :=
  .after (fun st => { st with saved := st.pos })
    ((c.call .predicate code ls).bind fun v => .pure (if v.truthy = negative then .failed else .null))

/-- An action on what began at a position. -/
def action (start : Nat) (code : HostCode) (ls : Labels) : Act HostFunction :=
  .after (fun st => { st with saved := start }) (c.call .action code ls)

/-- An act that depends on a bound, which is found first. -/
def withBound (ls : Labels) (b : Boundary) (A : Count → Act HostFunction) : Act HostFunction :=
  match b with
  | .constant n => A (.fixed n)
  | .label name =>
    match ls.lookup name.val with
    | some v => A (.given v)
    | none => .stuck
  | .computed code => (c.call .boundary code ls).bind fun v => A (.given v)

/-- An act that depends on the least and the greatest bound of a repetition. -/
def withBounds (ls : Labels) (min : Option Boundary) (max : Boundary) (A : Nat → Option Nat → Act HostFunction) :
    Act HostFunction :=
  match min with
  | none => c.withBound ls max fun n => A n.least n.most
  | some min => c.withBound ls min fun m => c.withBound ls max fun n => A m.least n.most

/-- How a sequence ends that began at a position. -/
def finish (action : Option HostCode) (start : Nat) (ls : Labels) (values picked : List Value) :
    Act HostFunction :=
  if picked.isEmpty then
    match action with
    | some code => c.action start code ls
    | none => .pure (.array values)
  else .pure (Stack.pickedValue picked)

mutual

/-- What an expression does where `R` tells what rules do. -/
def meaning (R : RuleId → Act HostFunction) : Expr → Labels → Act HostFunction
  | .choice _ first others, ls => (meaning R first ls).bind (meaningOthers R others ls (c.matched first))
  | .sequence _ elements, ls => .read fun st => meaningElements R none st.pos elements ls [] []
  | .labeled _ _ _ body, ls | .group _ body, ls => meaning R body ls
  | .action _ (.sequence _ elements) code, ls =>
    .read fun st => meaningElements R (some code) st.pos elements ls [] []
  | .action _ body code, ls =>
    .read fun st => (meaning R body ls).bind fun v =>
      if (c.matched body).holds (!v.isFailed) then c.action st.pos code (ls.after body v) else .pure v
  | .text _ body, ls => .text (c.matched body) (meaning R body ls)
  | .simpleAnd _ body, ls => .lookahead (c.matched body) false (meaning R body ls)
  | .simpleNot _ body, ls => .lookahead (c.matched body) true (meaning R body ls)
  | .semanticAnd _ code, ls => c.predicate code false ls
  | .semanticNot _ code, ls => c.predicate code true ls
  | .optional _ body, ls => .optional (c.matched body) (meaning R body ls)
  | .zeroOrMore _ body, ls => .zeroOrMore (meaning R body ls)
  | .oneOrMore _ body, ls => .oneOrMore (c.matched body) (meaning R body ls)
  | .repeated _ body min max none, ls =>
    c.withBounds ls min max fun least most =>
      .counted (Code.needsLeast min max) least most (meaning R body ls) (meaning R body ls)
  | .repeated _ body min max (some delimiter), ls =>
    c.withBounds ls min max fun least most =>
      .counted (Code.needsLeast min max) least most (meaning R body ls)
        (.delimited (c.matched delimiter) (c.matched body) (meaning R delimiter ls) (meaning R body ls))
  | .ruleRef _ _ (some target), _ => R target
  | .ruleRef _ _ none, _ => .stuck
  | e@(.literal _ value ignoreCase), _ =>
    if value = "" then .pure (.str "")
    else if ignoreCase then
      .read fun st =>
        if (c.matched e).holds (st.matchStringIc (Case.lower value)) then
          .change (·.acceptStringIc (Case.lower value))
        else .failing (.literal value ignoreCase)
    else
      .read fun st =>
        if (c.matched e).holds (st.matchString value) then .change (·.acceptString value)
        else .failing (.literal value ignoreCase)
  | e@(.charClass _ k), _ =>
    .read fun st => if (c.matched e).holds (st.matchClass k) then .change (·.acceptN 1) else .failing (.charClass k)
  | e@(.any _), _ =>
    .read fun st => if (c.matched e).holds st.matchAny then .change (·.acceptN 1) else .failing .any
  | .named _ name body, ls => .named (c.matched body) name (meaning R body ls)

/-- What the alternatives do after one that can match as told and gave a value. -/
def meaningOthers (R : RuleId → Act HostFunction) :
    List Expr → Labels → (before : MatchResult) → Value → Act HostFunction
  | [], _, _, v => .pure v
  | e :: es, ls, before, v =>
    if before.holds (!v.isFailed) then .pure v
    else (meaning R e ls).bind (meaningOthers R es ls (c.matched e))

/-- What the elements of a sequence that began at a position do after others with these values. -/
def meaningElements (R : RuleId → Act HostFunction) (action : Option HostCode) (start : Nat) :
    List Expr → Labels → (values picked : List Value) → Act HostFunction
  | [], ls, values, picked => c.finish action start ls values picked
  | e :: es, ls, values, picked =>
    (meaning R e ls).bind fun v =>
      if (c.matched e).holds (!v.isFailed) then
        meaningElements R action start es (ls.after e v) (values ++ [v]) (pickedAfter picked e v)
      else .backTo start .failed

end

/-- What a rule does around which nothing is remembered or reported. -/
def ofRule (R : RuleId → Act HostFunction) (r : Rule) : Act HostFunction :=
  match r.displayName with
  | some name => .named (c.matched r.body) name (c.meaning R r.body [])
  | none => c.meaning R r.body []

end Setting

end Machine

end PegCompiler
