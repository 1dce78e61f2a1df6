/-
The stack machine. A block runs on the stack of its rule and the state of the parse; a fault ends the
parse, and the state at the fault is kept. Rules call each other and loops go on without a bound of
their own, so a run has fuel: more of it never changes how a run ends that did not use it up.
-/
import PegCompiler.Code.Instr
import PegCompiler.Machine.Host

namespace PegCompiler

/-- Why a run cannot go on. -/
inductive Fault
  | outOfFuel
  | undecodable (why : DecodeError)
  | noCode (why : CodeError)
  | unknownRule (r : Nat)
  | unknownLiteral (i : Nat)
  | unknownClass (i : Nat)
  | unknownExpectation (i : Nat)
  | unknownFunction (i : Nat)
  | unbound (code : String)
  | noSingleResult (rule : String)
  | underflowReading (distance : Nat)
  | underflowPopping (count : Nat)
  | underflowNip
  | expectedPos
  | expectedValue
  deriving DecidableEq

def Fault.message : Fault → String
  | outOfFuel => "out of fuel"
  | undecodable why => why.message
  | noCode why => why.message
  | unknownRule r => s!"call of removed or unknown rule {r}"
  | unknownLiteral i => s!"unknown literal {i}"
  | unknownClass i => s!"unknown class {i}"
  | unknownExpectation i => s!"unknown expectation {i}"
  | unknownFunction i => s!"unknown function {i}"
  | unbound code => s!"no function bound for `{code}`"
  | noSingleResult rule => s!"rule \"{rule}\" didn't leave exactly one value on the stack"
  | underflowReading distance => s!"stack underflow reading slot {distance}"
  | underflowPopping count => s!"stack underflow popping {count} slots"
  | underflowNip => "stack underflow in NIP"
  | expectedPos => "expected a position on the stack"
  | expectedValue => "expected a value on the stack"

/-- A slot of the stack. -/
inductive Slot
  | pos (p : Nat)
  | value (v : Value)
  deriving Inhabited

/-- A stack, the top first. -/
abbrev Stack := List Slot

namespace Stack

/-- The slot at a distance from the top. -/
def slot (s : Stack) (distance : Nat) : Except Fault Slot :=
  match s[distance]? with
  | some slot => .ok slot
  | none => .error (.underflowReading distance)

/-- The position at a distance. -/
def pos (s : Stack) (distance : Nat) : Except Fault Nat := do
  match ← s.slot distance with
  | .pos p => return p
  | .value _ => throw .expectedPos

/-- The value at a distance. -/
def value (s : Stack) (distance : Nat) : Except Fault Value := do
  match ← s.slot distance with
  | .value v => return v
  | .pos _ => throw .expectedValue

/-- The stack without its top slots. -/
def pop (s : Stack) (count : Nat) : Except Fault Stack :=
  if count ≤ s.length then .ok (s.drop count) else .error (.underflowPopping count)

/-- The value at a distance, moved out of its slot. -/
def move (s : Stack) (distance : Nat) : Except Fault (Value × Stack) := do
  let v ← s.value distance
  return (v, s.set distance (.value .null))

/-- The values at distances, moved out of their slots one after the other. -/
def moveAll (s : Stack) : List Nat → Except Fault (List Value × Stack)
  | [] => return ([], s)
  | d :: ds => do
    let (v, s) ← s.move d
    let (vs, s) ← moveAll s ds
    return (v :: vs, s)

/-- The top values, the deepest first, moved out of their slots. -/
def moveTop (s : Stack) : (count : Nat) → Except Fault (List Value × Stack)
  | 0 => return ([], s)
  | n + 1 => do
    let (v, s) ← s.move n
    let (vs, s) ← moveTop s n
    return (v :: vs, s)

/-- Pops the slot below the top. -/
def nip : Stack → Except Fault Stack
  | [] => .error .underflowNip
  | top :: below => do return top :: (← pop below 1)

/-- Pops a value and appends it to the array below. -/
def append (s : Stack) : Except Fault Stack := do
  let (item, s) ← s.move 0
  let s ← s.pop 1
  let array ← s.value 0
  return s.set 0 (.value (array.push item))

/-- Replaces the top values by the array of them. -/
def wrap (s : Stack) (count : Nat) : Except Fault Stack := do
  let (items, s) ← s.moveTop count
  return .value (.array items) :: (← s.pop count)

/-- One value is itself, any other number of them is an array. -/
def pickedValue : List Value → Value
  | [v] => v
  | vs => .array vs

/-- Pops slots and pushes the picked values. -/
def pluck (s : Stack) (count : Nat) (picks : List Nat) : Except Fault Stack := do
  let (picked, s) ← s.moveAll picks
  return .value (pickedValue picked) :: (← s.pop count)

/-- The values at distances, left in their slots. -/
def values (s : Stack) (distances : List Nat) : Except Fault (List Value) := distances.mapM s.value

end Stack

/-- The code of a rule. -/
structure RuleCode (ν : Naming) where
  name : String
  code : Code ν

/-- What the machine runs: rules by number, and what their operands stand for. -/
structure Program (ν : Naming) where
  /-- Rules that were removed have no code. -/
  rules : Array (Option (RuleCode ν))
  literal : ν .literal → Except Fault String
  charClass : ν .charClass → Except Fault CharClass
  expectation : ν .expectation → Except Fault Expectation
  function : ν .function → Except Fault (FunctionKind × HostFn)
  defect : ν .defect → Fault
  /-- Whether results are remembered. -/
  cache : Bool
  /-- Whether rules report. -/
  trace : Bool

namespace Machine

/-- A run changes the state of the parse and may end in a fault. -/
abbrev Run := EStateM Fault ParseState

/-- A fault, or a result that leaves the state alone. -/
def lift {α : Type} : Except Fault α → Run α
  | .ok a => pure a
  | .error why => throw why

/-- A result, and the state after it. -/
def change {α : Type} (f : ParseState → α × ParseState) : Run α := modifyGet f

variable {ν : Naming}

/-- The size of the array on top, against the count at a distance. -/
def comparesTo (s : Stack) (distance : Nat) (compare : Nat → Option Nat → Bool) : Except Fault Bool := do
  let array ← s.value 0
  let bound ← s.value distance
  return compare array.size bound.count?

/-- The outcome of a condition. A least count that is no count is zero, a greatest one is
`Value.maxCount`. -/
def check (p : Program ν) (test : Test ν) (s : Stack) : Run Bool :=
  match test with
  | .isTrue => lift (Value.truthy <$> s.value 0)
  | .isError => lift (Value.isFailed <$> s.value 0)
  | .isOk => lift ((! Value.isFailed ·) <$> s.value 0)
  | .fewer n => lift ((fun v => decide (v.size < n)) <$> s.value 0)
  | .atLeast n => lift ((fun v => decide (n ≤ v.size)) <$> s.value 0)
  | .fewerThan d => lift (comparesTo s d fun size bound => size < bound.getD 0)
  | .atLeastThan d => lift (comparesTo s d fun size bound => bound.getD Value.maxCount ≤ size)
  | .anyChar => do return (← get).matchAny
  | .string l => do
    let l ← lift (p.literal l)
    return (← get).matchString l
  | .stringIc l => do
    let l ← lift (p.literal l)
    return (← get).matchStringIc l
  | .charClass k => do
    let k ← lift (p.charClass k)
    return (← get).matchClass k

/-- What becomes of a host function's result. -/
def hostResult (kind : FunctionKind) (v : Value) : Value :=
  match kind with
  | .predicate => .bool v.truthy
  | .action | .boundary => v

/-- Runs an instruction that has no blocks and calls no rule; the others do nothing here. -/
def step (p : Program ν) (i : Instr ν) (s : Stack) : Run Stack :=
  match i with
  | .pushEmptyString => return .value (.str "") :: s
  | .pushNull => return .value .null :: s
  | .pushFailed => return .value .failed :: s
  | .pushEmptyArray => return .value (.array []) :: s
  | .pushPos => return .pos (← get).pos :: s
  | .pop => lift (s.pop 1)
  | .popPos => do
    let pos ← lift (s.pos 0)
    modify fun st => { st with pos }
    lift (s.pop 1)
  | .popN n => lift (s.pop n)
  | .nip => lift s.nip
  | .append => lift s.append
  | .wrap n => lift (s.wrap n)
  | .text => do
    let start ← lift (s.pos 0)
    let s ← lift (s.pop 1)
    return .value (.str ((← get).text start)) :: s
  | .pluck n picks => lift (s.pluck n picks)
  | .acceptN n => return .value (← change (·.acceptN n)) :: s
  | .acceptString l => do
    let l ← lift (p.literal l)
    return .value (← change (·.acceptString l)) :: s
  | .acceptStringIc l => do
    let l ← lift (p.literal l)
    return .value (← change (·.acceptStringIc l)) :: s
  | .fail e => do
    let e ← lift (p.expectation e)
    modify (·.fail e)
    return .value .failed :: s
  | .loadSavedPos d => do
    let saved ← lift (s.pos d)
    modify fun st => { st with saved }
    return s
  | .updateSavedPos => do
    modify fun st => { st with saved := st.pos }
    return s
  | .call f n args => do
    let (kind, host) ← lift (p.function f)
    let args ← lift (s.values args)
    let result := hostResult kind (host (HostView.of (← get)) args)
    return .value result :: (← lift (s.pop n))
  | .silence => do
    modify fun st => { st with silent := st.silent + 1 }
    return s
  | .unsilence => do
    modify fun st => { st with silent := st.silent - 1 }
    return s
  | .defect why => throw (p.defect why)
  | .mapPush _ | .mapPop | .cond .. | .whileOk _ | .rule _ => return s

/-- The remembered result of a rule at the position, if the program remembers. -/
def recalled (p : Program ν) (r : Nat) : Run (Option Value) := fun st =>
  match if p.cache then st.remembered? r else none with
  | some (v, st) => .ok (some v) st
  | none => .ok none st

/-- Changes the state by a report, if the program reports and anyone listens. -/
def report (p : Program ν) (f : ParseState → ParseState) : Run Unit :=
  modify fun st => if p.trace && st.tracing then f st else st

/-- The value that a rule leaves on its stack. -/
def result (name : String) : Stack → Run Value
  | [.value v] => return v
  | _ => throw (.noSingleResult name)

/-- A rule around its body: the result may be remembered, and is reported. -/
def around (p : Program ν) (r : Nat) (rule : RuleCode ν) (body : Run Stack) : Run Value := do
  let start := (← get).pos
  report p (·.reportEnter rule.name start)
  match ← recalled p r with
  | some v =>
    report p (·.reportExit rule.name start v true)
    return v
  | none =>
    let v ← result rule.name (← body)
    modify fun st => if p.cache then st.remember r start v else st
    report p (·.reportExit rule.name start v false)
    return v

mutual

/-- Runs a block. -/
def block (p : Program ν) : (fuel : Nat) → Code ν → Stack → Run Stack
  | 0, _, _ => throw .outOfFuel
  | _ + 1, [], s => return s
  | fuel + 1, i :: code, s => do
    let s ← instr p fuel i s
    block p fuel code s

/-- Runs an instruction. -/
def instr (p : Program ν) : (fuel : Nat) → Instr ν → Stack → Run Stack
  | 0, _, _ => throw .outOfFuel
  | fuel + 1, .cond test yes no, s => do
    if ← check p test s then block p fuel yes s else block p fuel no s
  | fuel + 1, .whileOk body, s => loop p fuel body s
  | fuel + 1, .rule r, s => do
    let v ← rule p fuel r
    return .value v :: s
  | _ + 1, i, s => step p i s

/-- Runs a block as long as the top value is no failure. -/
def loop (p : Program ν) : (fuel : Nat) → Code ν → Stack → Run Stack
  | 0, _, _ => throw .outOfFuel
  | fuel + 1, body, s => do
    let v ← lift (s.value 0)
    if v.isFailed then return s
    else
      let s ← block p fuel body s
      loop p fuel body s

/-- Runs a rule. -/
def rule (p : Program ν) : (fuel : Nat) → Nat → Run Value
  | 0, _ => throw .outOfFuel
  | fuel + 1, r =>
    match p.rules.getD r none with
    | some code => around p r code (block p fuel code.code [])
    | none => throw (.unknownRule r)

end

end Machine

end PegCompiler
