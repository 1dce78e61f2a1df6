/-
The code of expressions. The code of an expression that starts with `size` slots on the stack leaves
its result in the slot numbered `size`, and all slots below as they were. Labels are slots: an
environment lists those in scope, in the order of their definitions. A slot is named by its distance
from the top, so one that is above the top is a defect. A condition whose outcome is known is left
out, with the block that is never run.
-/
import PegCompiler.Analysis.Matching
import PegCompiler.Code.Instr

namespace PegCompiler

/-- Labels in scope with the slots of their values. -/
abbrev Env := List (String × Nat)

namespace Env

/-- The environment with a label; one that is there moves to the new slot. -/
def bind (env : Env) (label : String) (slot : Nat) : Env :=
  if env.any (·.1 == label) then env.map fun b => if b.1 == label then (label, slot) else b
  else env ++ [(label, slot)]

/-- The environment after an expression with its result in a slot: only a label on the expression
itself is bound. -/
def after (env : Env) (e : Expr) (slot : Nat) : Env :=
  match e with
  | .labeled _ (some label) _ _ => env.bind label.val slot
  | _ => env

/-- The labels as parameters. -/
def params (env : Env) : List String := env.map (·.1)

/-- The labels' slots. -/
def slots (env : Env) : List Nat := env.map (·.2)

/-- The labels' slots as distances from the top of a stack. -/
def distances (env : Env) (size : Nat) : List Nat := env.map fun b => size - 1 - b.2

end Env

/-- Adds the slot of an expression that is marked with `@`. -/
def pickAfter (picks : List Nat) (e : Expr) (slot : Nat) : List Nat :=
  match e with
  | .labeled _ _ true _ => picks ++ [slot]
  | _ => picks

namespace Code

/-- What the code of an expression depends on besides the expression. -/
structure Plan where
  matched : Expr → MatchResult
  /-- Whether the code tells where in the grammar it comes from. -/
  mapped : Bool

namespace Plan

/-- The code with its place in the grammar around it. -/
def mark (p : Plan) (e : Expr) (code : Code Inline) : Code Inline :=
  if p.mapped && !code.isEmpty then [.mapPush e.span] ++ code ++ [.mapPop] else code

end Plan

/-- A condition whose outcome may be known: always means yes, never means no. -/
def branch (m : MatchResult) (test : Test Inline) (yes no : Code Inline) : Code Inline :=
  match m with
  | .always => yes
  | .never => no
  | .sometimes => [.cond test yes no]

/-- A defect if one of the slots is above the top of a stack of a size. -/
def reach (slots : List Nat) (size : Nat) : Code Inline :=
  match slots.find? (size ≤ ·) with
  | none => []
  | some slot => [.defect (.slotAboveTop slot (size - 1))]

/-- A call of host code with the labels in scope. -/
def callHost (kind : FunctionKind) (code : HostCode) (env : Env) (size pop : Nat) : Code Inline :=
  -- the function is one of the constants also where its arguments cannot be reached
  [.call ⟨kind, env.params, code.val, code.span⟩ pop (env.distances size)] ++ reach env.slots size

/-! ## Terminals -/

/-- A literal; the empty one needs no test. -/
def ofLiteral (m : MatchResult) (value : String) (ignoreCase : Bool) : Code Inline :=
  if value = "" then [.pushEmptyString]
  else
    let fail : Code Inline := [.fail (.literal value ignoreCase)]
    if ignoreCase then
      branch m (.stringIc (Case.lower value)) [.acceptStringIc (Case.lower value)] fail
    else branch m (.string value) [.acceptString value] fail

def ofClass (m : MatchResult) (k : CharClass) : Code Inline :=
  branch m (.charClass k) [.acceptN 1] [.fail (.charClass k)]

def ofAny (m : MatchResult) : Code Inline := branch m .anyChar [.acceptN 1] [.fail .any]

/-! ## Around the code of a subexpression -/

/-- Host code that decides, with or without `!`. -/
def ofPredicate (code : HostCode) (negative : Bool) (env : Env) (size : Nat) : Code Inline :=
  let pass : Instr Inline := if negative then .pushFailed else .pushNull
  let reject : Instr Inline := if negative then .pushNull else .pushFailed
  [.updateSavedPos] ++ callHost .predicate code env size 0 ++ [.cond .isTrue [.pop, pass] [.pop, reject]]

/-- A body that is only tried, with or without `!`. -/
def ofLookahead (m : MatchResult) (negative : Bool) (body : Code Inline) : Code Inline :=
  [.pushPos, .silence] ++ body ++ [.unsilence] ++
    if negative then
      branch m.negate .isError [.pop, .pop, .pushNull] [.pop, .popPos, .pushFailed]
    else branch m .isOk [.pop, .popPos, .pushNull] [.pop, .pop, .pushFailed]

/-- A body whose failures are reported under a name. -/
def ofNamed (m : MatchResult) (name : String) (body : Code Inline) : Code Inline :=
  [.silence] ++ body ++ [.unsilence] ++
    branch m.negate .isError [.pop, .fail (.named name)] []

def ofText (m : MatchResult) (body : Code Inline) : Code Inline :=
  [.pushPos] ++ body ++ branch m .isOk [.pop, .text] [.nip]

def ofOptional (m : MatchResult) (body : Code Inline) : Code Inline :=
  body ++ branch m.negate .isError [.pop, .pushNull] []

/-- An array of the results of `item`, which runs until it fails. -/
def collect (item : Code Inline) : Code Inline := [.whileOk ([.append] ++ item), .pop]

def ofZeroOrMore (item : Code Inline) : Code Inline := [.pushEmptyArray] ++ item ++ collect item

def ofOneOrMore (m : MatchResult) (item : Code Inline) : Code Inline :=
  [.pushEmptyArray] ++ item ++ branch m .isOk (collect item) [.pop, .pop, .pushFailed]

/-- An action on a body that is no sequence; `env` holds the body's label if it has one. -/
def ofAction (m : MatchResult) (code : HostCode) (env : Env) (size : Nat) (body : Code Inline) :
    Code Inline :=
  [.pushPos] ++ body ++
    branch m .isOk ([.loadSavedPos 1] ++ callHost .action code env (size + 2) 1) [] ++ [.nip]

/-! ## Sequences -/

/-- What follows the elements of a sequence, `done` of them, above the position where it began. -/
def finish (action : Option HostCode) (done size : Nat) (env : Env) (picks : List Nat) :
    Code Inline :=
  if !picks.isEmpty then reach picks size ++ [.pluck (done + 1) (picks.map fun slot => size - 1 - slot)]
  else
    match action with
    | some code => [.loadSavedPos done] ++ callHost .action code env size (done + 1)
    | none => [.wrap done, .nip]

/-- Undoes a sequence of which an element failed after `done` others. -/
def abandon (done : Nat) : Code Inline :=
  (if done = 0 then [.pop] else [.popN (done + 1)]) ++ [.popPos, .pushFailed]

/-! ## Repetitions -/

/-- How many slots a bound takes: one for the result of host code. -/
def slotsOf : Boundary → Nat
  | .computed _ => 1
  | _ => 0

/-- The slots of both bounds. -/
def boundSlots (min : Option Boundary) (max : Boundary) : Nat := min.elim 0 slotsOf + slotsOf max

/-- Whether too few items can be a failure, so that the position has to be kept. Without a least bound
the greatest one is both. -/
def needsLeast (min : Option Boundary) (max : Boundary) : Bool :=
  match min.getD max with
  | .constant none | .constant (some 0) => false
  | _ => true

/-- The slot of a repetition's array: above the bounds, and above the position if that is kept. -/
def arraySlot (min : Option Boundary) (max : Boundary) (size : Nat) : Nat :=
  size + boundSlots min max + if needsLeast min max then 1 else 0

/-- How a repetition finds a bound when it runs. -/
inductive Limit
  /-- The bound is a number, or there is none. -/
  | fixed (count : Option Nat)
  /-- The bound is the value of a slot. -/
  | slot (index : Nat)
  deriving DecidableEq

/-- The slot that a bound is read from. -/
def Limit.slots : Limit → List Nat
  | fixed _ => []
  | slot index => [index]

/-- Where a bound is found on a stack that had a size before it. -/
def limitOf (env : Env) (size : Nat) : Boundary → Limit
  | .constant count => .fixed count
  | .label name => (env.lookup name.val).elim (.fixed none) .slot
  | .computed _ => .slot size

/-- The code that makes a bound ready on a stack of a size. -/
def prepare (env : Env) (size : Nat) : Boundary → Code Inline
  | .constant _ => []
  | .label name =>
    if (env.lookup name.val).isSome then [] else [.defect (.labelNotInScope name.val)]
  | .computed code => callHost .boundary code env size 0

/-- The code that makes both bounds ready. -/
def prepareBounds (min : Option Boundary) (max : Boundary) (env : Env) (size : Nat) : Code Inline :=
  min.elim [] (prepare env size) ++ prepare env (size + min.elim 0 slotsOf) max

/-- The greatest number of items. -/
def most (min : Option Boundary) (max : Boundary) (env : Env) (size : Nat) : Limit :=
  limitOf env (size + min.elim 0 slotsOf) max

/-- The least number of items. -/
def least (min : Option Boundary) (max : Boundary) (env : Env) (size : Nat) : Limit :=
  limitOf env size (min.getD max)

/-- Runs the code if the array in a slot is not full, and fails otherwise. -/
def unlessFull (limit : Limit) (array : Nat) (code : Code Inline) : Code Inline :=
  match limit with
  | .fixed none => code
  | .fixed (some n) => [.cond (.atLeast n) [.pushFailed] code]
  | .slot index => [.cond (.atLeastThan (array - index)) [.pushFailed] code]

/-- Whether the array in a slot is too short. -/
def tooFew (limit : Limit) (array : Nat) : Test Inline :=
  match limit with
  | .fixed n => .fewer (n.getD 0)
  | .slot index => .fewerThan (array - index)

/-- A repetition of a first item and further ones. -/
def ofRepeated (min : Option Boundary) (max : Boundary) (env : Env) (size : Nat)
    (first item : Code Inline) : Code Inline :=
  let array := arraySlot min max size
  let most := most min max env size
  let least := least min max env size
  let full := unlessFull most array
  let short := tooFew least array
  -- the slots of the bounds are looked for when there is code for the items
  prepareBounds min max env size ++ (if needsLeast min max then [.pushPos] else []) ++
    [.pushEmptyArray] ++ full first ++ collect (full item) ++ reach (most.slots ++ least.slots) array ++
    (if needsLeast min max then [.cond short [.pop, .popPos, .pushFailed] [.nip]] else []) ++
    List.replicate (boundSlots min max) .nip

/-- A further item with a delimiter before it: without the item the delimiter is given back. -/
def delimited (ofDelimiter ofBody : MatchResult) (delimiter body : Code Inline) : Code Inline :=
  [.pushPos] ++ delimiter ++
    branch ofDelimiter .isOk
      ([.pop] ++ body ++ branch ofBody.negate .isError [.pop, .popPos, .pushFailed] [.nip]) [.nip]

/-! ## Expressions -/

mutual

/-- The code of an expression on a stack of a size. -/
def ofExpr (p : Plan) : Expr → (env : Env) → (size : Nat) → Code Inline
  | e@(.choice _ first others), env, size =>
    p.mark e (ofExpr p first env size ++ ofOthers p (p.matched first) others env size)
  | e@(.sequence _ elements), env, size =>
    p.mark e ([.pushPos] ++ ofElements p none elements 0 env [] (size + 1))
  | e@(.labeled _ _ _ body), env, size => p.mark e (ofExpr p body env size)
  | e@(.action _ (.sequence i elements) code), env, size =>
    p.mark e (p.mark (.sequence i elements)
      ([.pushPos] ++ ofElements p (some code) elements 0 env [] (size + 1)))
  | e@(.action _ body code), env, size =>
    p.mark e (ofAction (p.matched body) code (env.after body (size + 1)) size
      (ofExpr p body env (size + 1)))
  | e@(.text _ body), env, size => p.mark e (ofText (p.matched body) (ofExpr p body env (size + 1)))
  | e@(.simpleAnd _ body), env, size =>
    p.mark e (ofLookahead (p.matched body) false (ofExpr p body env (size + 1)))
  | e@(.simpleNot _ body), env, size =>
    p.mark e (ofLookahead (p.matched body) true (ofExpr p body env (size + 1)))
  | e@(.semanticAnd _ code), env, size => p.mark e (ofPredicate code false env size)
  | e@(.semanticNot _ code), env, size => p.mark e (ofPredicate code true env size)
  | e@(.optional _ body), env, size => p.mark e (ofOptional (p.matched body) (ofExpr p body env size))
  | e@(.zeroOrMore _ body), env, size => p.mark e (ofZeroOrMore (ofExpr p body env (size + 1)))
  | e@(.oneOrMore _ body), env, size =>
    p.mark e (ofOneOrMore (p.matched body) (ofExpr p body env (size + 1)))
  | e@(.repeated _ body min max none), env, size =>
    let item := ofExpr p body env (arraySlot min max size + 1)
    p.mark e (ofRepeated min max env size item item)
  | e@(.repeated _ body min max (some delimiter)), env, size =>
    let array := arraySlot min max size
    p.mark e (ofRepeated min max env size (ofExpr p body env (array + 1))
      (delimited (p.matched delimiter) (p.matched body) (ofExpr p delimiter env (array + 2))
        (ofExpr p body env (array + 2))))
  | e@(.group _ body), env, size => p.mark e (ofExpr p body env size)
  | e@(.ruleRef _ _ (some target)), _, _ => p.mark e [.rule target]
  | e@(.ruleRef _ name none), _, _ => p.mark e [.defect (.unresolved name)]
  | e@(.literal _ value ignoreCase), _, _ => p.mark e (ofLiteral (p.matched e) value ignoreCase)
  | e@(.charClass _ k), _, _ => p.mark e (ofClass (p.matched e) k)
  | e@(.any _), _, _ => p.mark e (ofAny (p.matched e))
  | e@(.named _ name body), env, size => p.mark e (ofNamed (p.matched body) name (ofExpr p body env size))

/-- The alternatives after one with a known result: each is tried if the one before failed. -/
def ofOthers (p : Plan) (before : MatchResult) : List Expr → (env : Env) → (size : Nat) → Code Inline
  | [], _, _ => []
  | e :: es, env, size =>
    branch before.negate .isError
      ([.pop] ++ (ofExpr p e env size ++ ofOthers p (p.matched e) es env size)) []

/-- The elements of a sequence after `done` others. -/
def ofElements (p : Plan) (action : Option HostCode) :
    List Expr → (done : Nat) → (env : Env) → (picks : List Nat) → (size : Nat) → Code Inline
  | [], done, env, picks, size => finish action done size env picks
  | e :: es, done, env, picks, size =>
    ofExpr p e env size ++
      branch (p.matched e) .isOk
        (ofElements p action es (done + 1) (env.after e size) (pickAfter picks e size) (size + 1))
        (abandon done)

end

/-- The code of a rule, which a name for error messages wraps. -/
def ofRule (p : Plan) (r : Rule) : Code Inline :=
  match r.displayName with
  | some name => ofNamed (p.matched r.body) name (ofExpr p r.body [] 0)
  | none => ofExpr p r.body [] 0

/-! ## The greatest slot of a result -/

mutual

/-- The greatest slot for a result of an expression or one inside it. Parts that have no code do not
count. -/
def peak (p : Plan) : Expr → (size : Nat) → Nat
  | .choice _ first others, size => max (peak p first size) (peakOthers p (p.matched first) others size)
  | .sequence _ elements, size => max size (peakElements p elements (size + 1))
  | .action _ (.sequence _ elements) _, size => max size (peakElements p elements (size + 1))
  | .labeled _ _ _ body, size | .optional _ body, size | .group _ body, size | .named _ _ body, size =>
    peak p body size
  | .action _ body _, size | .text _ body, size | .simpleAnd _ body, size | .simpleNot _ body, size
  | .zeroOrMore _ body, size | .oneOrMore _ body, size => peak p body (size + 1)
  | .repeated _ body min max none, size => peak p body (arraySlot min max size + 1)
  | .repeated _ body min max (some delimiter), size =>
    let array := arraySlot min max size
    Nat.max (peak p body (array + 1))
      (Nat.max (peak p delimiter (array + 2))
        (if p.matched delimiter = .never then 0 else peak p body (array + 2)))
  | .semanticAnd .., size | .semanticNot .., size | .ruleRef .., size | .literal .., size
  | .charClass .., size | .any .., size => size

def peakOthers (p : Plan) (before : MatchResult) : List Expr → (size : Nat) → Nat
  | [], _ => 0
  | e :: es, size =>
    if before = .always then 0 else max (peak p e size) (peakOthers p (p.matched e) es size)

def peakElements (p : Plan) : List Expr → (size : Nat) → Nat
  | [], _ => 0
  | e :: es, size =>
    max (peak p e size) (if p.matched e = .never then 0 else peakElements p es (size + 1))

end

end Code

end PegCompiler
