/-
A rule's code as statements. The stack is followed a second time, without trust in how the code came
about: every slot becomes a local variable, a position or a value, and code that does not keep to the
stack, or whose branches leave different ones, is refused.
-/
import PegCompiler.Code.Words
import PegCompiler.Emit.Statement

namespace PegCompiler

/-- The kinds of the slots of a stack, the top first. -/
abbrev StackKinds := List SlotKind

/-- The kinds as messages show them, the top last. -/
def StackKinds.text (s : StackKinds) : String :=
  "[" ++ String.intercalate ", " (s.reverse.map SlotKind.name) ++ "]"

/-- Why code has no statements. -/
inductive BodyFault
  | underflow
  | outOfRange (distance : Nat)
  | wrongKind (slot : Nat) (found expected : SlotKind)
  | tooDeep (slot limit : Nat)
  | noSingleResult (left : StackKinds)
  | branchesDiffer (test : Opcode) (yes no : StackKinds)
  | loopChanges (before after : StackKinds)
  | unknownFunction (i : Nat)
  | unknownRule (r : Nat)
  | unknownOrigin (i : Nat)
  | unbalancedMap
  deriving DecidableEq

def BodyFault.message : BodyFault → String
  | underflow => "stack underflow"
  | outOfRange distance => s!"slot {distance} below the top is out of range"
  | wrongKind slot found expected =>
    s!"slot {slot} holds a {found.name} where a {expected.name} is expected"
  | tooDeep slot limit => s!"stack grows to slot {slot} beyond the compiled maximum {limit}"
  | noSingleResult left => s!"rule leaves {left.text} on the stack"
  | branchesDiffer test yes no =>
    s!"branches of {test.title} leave different stacks: {yes.text} and {no.text}"
  | loopChanges before after => s!"loop body changes the stack from {before.text} to {after.text}"
  | unknownFunction i => s!"unknown function {i}"
  | unknownRule r => s!"call of removed or unknown rule {r}"
  | unknownOrigin i => s!"unknown location {i}"
  | unbalancedMap => "unbalanced source map pop"

/-- Why a parser has no source text. -/
inductive EmitError
  | noStartRules
  | undecodable (why : DecodeError)
  | inRule (rule : String) (fault : BodyFault)
  deriving DecidableEq

def EmitError.message : EmitError → String
  | noStartRules => "no start rules to generate an entry point for"
  | undecodable why => why.message
  | inRule rule fault => s!"in rule \"{rule}\": {fault.message}"

/-- The statements of a rule, and the slots that are variables for positions and for values. -/
structure RuleBody where
  positions : List Nat
  values : List Nat
  statements : List Statement

namespace RuleBody

/-- What the statements of a rule depend on besides its code. -/
structure Context where
  /-- The name of the rule. -/
  rule : String
  /-- The greatest slot that the code may use. -/
  limit : Nat
  constants : Constants
  /-- The name of a rule that was not removed. -/
  ruleName? : Nat → Option String

/-- The stack, the slots used so far as positions and as values, and how many places in the grammar
are open. -/
structure Progress where
  stack : StackKinds
  positions : List Nat
  values : List Nat
  opened : Nat

abbrev Following := StateT Progress (Except EmitError)

/-- Refuses the code. -/
def refuse {α : Type} (c : Context) (fault : BodyFault) : Following α := throw (.inRule c.rule fault)

/-- A number put into a list in order, once. -/
def insert (n : Nat) : List Nat → List Nat
  | [] => [n]
  | m :: ms => if n < m then n :: m :: ms else if n = m then m :: ms else m :: insert n ms

/-- The slot at a distance, which has to hold a kind. -/
def slot (c : Context) (kind : SlotKind) (distance : Nat) : Following Nat := do
  let stack := (← get).stack
  if stack.isEmpty then refuse c .underflow
  else
    match stack[distance]? with
    | none => refuse c (.outOfRange distance)
    | some found =>
      let index := stack.length - 1 - distance
      if found = kind then return index else refuse c (.wrongKind index found kind)

/-- A new slot. -/
def push (c : Context) (kind : SlotKind) : Following Nat := do
  let index := (← get).stack.length
  if c.limit < index then refuse c (.tooDeep index c.limit)
  else
    modify fun p => match kind with
      | .pos => { p with stack := kind :: p.stack, positions := insert index p.positions }
      | .value => { p with stack := kind :: p.stack, values := insert index p.values }
    return index

/-- Pops slots. -/
def pop (c : Context) (count : Nat) : Following Unit := do
  if (← get).stack.length < count then refuse c .underflow
  else modify fun p => { p with stack := p.stack.drop count }

/-- Computes a new value. -/
def compute (c : Context) (what : Computation) : Following (List Statement) := do
  return [.set (← push c .value) what]

/-- The slots of the top values, the deepest first. -/
def topValues (c : Context) : (count : Nat) → Following (List Nat)
  | 0 => return []
  | n + 1 => do
    let first ← slot c .value n
    let rest ← topValues c n
    return first :: rest

/-- Takes one value as it is, and any other number of them as an array. -/
def pickedFrom : List Nat → Computation
  | [v] => .take v
  | vs => .array vs

/-- The condition that a test stands for. -/
def condition (c : Context) : Test Raw → Following Condition
  | .isTrue => return .truthy (← slot c .value 0)
  | .isError => return .failed (← slot c .value 0)
  | .isOk => return .succeeded (← slot c .value 0)
  | .fewer n => return .fewer (← slot c .value 0) n
  | .atLeast n => return .atLeast (← slot c .value 0) n
  | .fewerThan d => do
    let array ← slot c .value 0
    return .fewerThan array (← slot c .value d)
  | .atLeastThan d => do
    let array ← slot c .value 0
    return .atLeastThan array (← slot c .value d)
  | .anyChar => return .anyChar
  | .string i => return .string i
  | .stringIc i => return .stringIc i
  | .charClass i => return .charClass i

/-- Replaces the slot below the top by the top. -/
def nip (c : Context) : Following (List Statement) := do
  match (← get).stack.head? with
  | none => refuse c .underflow
  | some kind =>
    let source ← slot c kind 0
    pop c 2
    let target ← push c kind
    return [match kind with | .pos => .copyPos target source | .value => .set target (.take source)]

/-- Calls a function. -/
def call (c : Context) (f n : Nat) (args : List Nat) : Following (List Statement) := do
  match c.constants.functions.get? f with
  | none => refuse c (.unknownFunction f)
  | some function =>
    let args ← args.mapM (slot c .value)
    pop c n
    compute c (.call function.kind f args)

/-- The statements of an instruction without blocks. -/
def simple (c : Context) : Instr Raw → Following (List Statement)
  | .pushEmptyString => compute c .emptyString
  | .pushNull => compute c .null
  | .pushFailed => compute c .failed
  | .pushEmptyArray => compute c .emptyArray
  | .pushPos => return [.keepPos (← push c .pos)]
  | .pop => do
    pop c 1
    return []
  | .popPos => do
    let p ← slot c .pos 0
    pop c 1
    return [.restorePos p]
  | .popN n => do
    pop c n
    return []
  | .nip => nip c
  | .append => do
    let item ← slot c .value 0
    let array ← slot c .value 1
    pop c 1
    return [.append array item]
  | .wrap n => do
    let items ← topValues c n
    pop c n
    compute c (.array items)
  | .text => do
    let p ← slot c .pos 0
    pop c 1
    compute c (.textFrom p)
  | .pluck n picks => do
    let picked ← picks.mapM (slot c .value)
    pop c n
    compute c (pickedFrom picked)
  | .acceptN n => compute c (.acceptN n)
  | .acceptString i => compute c (.acceptString i)
  | .acceptStringIc i => compute c (.acceptStringIc i)
  | .fail i => compute c (.fail i)
  | .loadSavedPos d => return [.savePos (← slot c .pos d)]
  | .updateSavedPos => return [.saveCurrent]
  | .call f n args => call c f n args
  | .rule r => do
    match c.ruleName? r with
    | none => refuse c (.unknownRule r)
    | some name => compute c (.rule name)
  | .silence => return [.silence]
  | .unsilence => return [.unsilence]
  | .mapPush i => do
    match c.constants.origins.get? i with
    | none => refuse c (.unknownOrigin i)
    | some span =>
      modify fun p => { p with opened := p.opened + 1 }
      return [.origin span]
  | .mapPop => do
    if (← get).opened = 0 then refuse c .unbalancedMap
    else
      modify fun p => { p with opened := p.opened - 1 }
      return [.endOrigin]
  | .defect why => throw (.undecodable why)
  | .cond .. | .whileOk _ => return []

mutual

/-- The statements of an instruction. -/
def instr (c : Context) : Instr Raw → Following (List Statement)
  | .cond test yes no => do
    let test' ← condition c test
    let before := (← get).stack
    let yes ← block c yes
    let afterYes := (← get).stack
    modify fun p => { p with stack := before }
    let no' ← block c no
    let afterNo := (← get).stack
    if afterYes = afterNo then
      return [if no.isEmpty then .when test' yes else .ite test' yes no']
    else refuse c (.branchesDiffer test.opcode afterYes afterNo)
  | .whileOk body => do
    let v ← slot c .value 0
    let before := (← get).stack
    let body ← block c body
    let after := (← get).stack
    if before = after then return [.whileOk v body] else refuse c (.loopChanges before after)
  | i => simple c i

/-- The statements of a block. -/
def block (c : Context) : Code Raw → Following (List Statement)
  | [] => return []
  | i :: code => do
    let first ← instr c i
    let rest ← block c code
    return first ++ rest

end

/-- The statements of a rule's code, which has to leave one value; it begins with one place in the
grammar open, that of the rule. -/
def ofCode (c : Context) (code : Code Raw) : Except EmitError RuleBody := do
  let (statements, p) ← (block c code).run ⟨[], [], [], 1⟩
  if p.stack = [.value] then return ⟨p.positions, p.values, statements⟩
  else throw (.inRule c.rule (.noSingleResult p.stack))

/-- Writes the variables of a rule, those for positions first, and then the statements. -/
def write (b : RuleBody) (w : CodeWriter) : CodeWriter :=
  let declared := b.positions.foldl (fun w i => w.line s!"let mut {posName i}: usize = 0;") w
  let declared := b.values.foldl (fun w i => w.line s!"let mut {valueName i} = Value::Null;") declared
  declared.append (Statement.writeAll b.statements w.nested)

end RuleBody

end PegCompiler
