/-
What the statements of a generated parser do. A method has variables of its own and shares the state of the parse; it
assigns, tests and repeats as statements do in the language they are written in, where taking a value leaves
null behind and a count of silences does not go below zero. A call of a method is a call by name.
-/
import PegCompiler.Proofs.Emit.Locals
import PegCompiler.Proofs.Semantics.Values

namespace PegCompiler

/-- What statements use besides variables and methods: constants by number, and host code. -/
structure Surroundings where
  literal : Nat → Except Fault String
  charClass : Nat → Except Fault CharClass
  expectation : Nat → Except Fault Expectation
  /-- The value of a call of host code, in the way a function of its kind is called. -/
  call : FunctionKind → Nat → HostView → List Value → Except Fault Value

open Machine

/-- Whether a condition holds. -/
def Condition.test (g : Surroundings) (l : Locals) : Condition → Run Bool
  | truthy v => return (l.values v).truthy
  | failed v => return (l.values v).isFailed
  | succeeded v => return !(l.values v).isFailed
  | fewer array n => return decide ((l.values array).size < n)
  | atLeast array n => return decide (n ≤ (l.values array).size)
  | fewerThan array bound => return decide ((l.values array).size < (l.values bound).count?.getD 0)
  | atLeastThan array bound =>
    return decide ((l.values bound).count?.getD Value.maxCount ≤ (l.values array).size)
  | anyChar => do return (← get).matchAny
  | string i => do
    let text ← lift (g.literal i)
    return (← get).matchString text
  | stringIc i => do
    let text ← lift (g.literal i)
    return (← get).matchStringIc text
  | charClass i => do
    let k ← lift (g.charClass i)
    return (← get).matchClass k

/-- A value is computed, and taken from variables. Calls of methods give none here. -/
def Computation.value (g : Surroundings) (l : Locals) : Computation → Run (Value × Locals)
  | emptyString => return (.str "", l)
  | null => return (.null, l)
  | failed => return (.failed, l)
  | emptyArray => return (.array [], l)
  | take v => return l.take v
  | array vs => return (.array (l.takeAll vs).1, (l.takeAll vs).2)
  | textFrom p => do return (.str ((← get).text (l.positions p)), l)
  | acceptN n => do return (← change (·.acceptN n), l)
  | acceptString i => do
    let text ← lift (g.literal i)
    return (← change (·.acceptString text), l)
  | acceptStringIc i => do
    let text ← lift (g.literal i)
    return (← change (·.acceptStringIc text), l)
  | fail i => do
    let e ← lift (g.expectation i)
    modify (·.fail e)
    return (.failed, l)
  | call kind f args => do
    return (← lift (g.call kind f (HostView.of (← get)) (args.map l.values)), l)
  | rule _ => return (.null, l)

namespace Statement

/-- Whether a statement has no blocks, calls no method and ends no silence. -/
def isPlain : Statement → Bool
  | set _ (.rule _) | unsilence | when .. | ite .. | whileOk .. => false
  | _ => true

/-- Runs such a statement; the others do nothing here. -/
def step (g : Surroundings) (l : Locals) : Statement → Run Locals
  | set i what => do
    let (v, l) ← what.value g l
    return l.setValue i v
  | keepPos i => do return l.setPos i (← get).pos
  | copyPos i source => return l.setPos i (l.positions source)
  | restorePos i => do
    modify fun st => { st with pos := l.positions i }
    return l
  | append array item => return (l.take item).2.setValue array ((l.values array).push (l.values item))
  | savePos i => do
    modify fun st => { st with saved := l.positions i }
    return l
  | saveCurrent => do
    modify fun st => { st with saved := st.pos }
    return l
  | silence => do
    modify fun st => { st with silent := st.silent + 1 }
    return l
  | origin _ | endOrigin | unsilence | when .. | ite .. | whileOk .. => return l

/-- Statements run from variables and a state to others; `R` tells what methods do. -/
inductive Runs (g : Surroundings) (R : String → ParseState → Value → ParseState → Prop) :
    List Statement → Locals → ParseState → Locals → ParseState → Prop
  | nil {l : Locals} {st : ParseState} : Runs g R [] l st l st
  | plain {s : Statement} {ss : List Statement} {l l₁ l' : Locals} {st st₁ st' : ParseState}
      (hs : isPlain s = true) (h : step g l s st = .ok l₁ st₁) (rest : Runs g R ss l₁ st₁ l' st') :
      Runs g R (s :: ss) l st l' st'
  /-- There has to be a silence that ends. -/
  | unsilence {ss : List Statement} {l l' : Locals} {st st' : ParseState} (h : st.silent ≠ 0)
      (rest : Runs g R ss l { st with silent := st.silent - 1 } l' st') : Runs g R (.unsilence :: ss) l st l' st'
  | call {i : Nat} {name : String} {ss : List Statement} {l l' : Locals} {st st₁ st' : ParseState} {v : Value}
      (h : R name st v st₁) (rest : Runs g R ss (l.setValue i v) st₁ l' st') :
      Runs g R (.set i (.rule name) :: ss) l st l' st'
  | when {test : Condition} {yes ss : List Statement} {l l₁ l' : Locals} {st st₁ st' : ParseState} {b : Bool}
      (h : test.test g l st = .ok b st) (block : Runs g R (if b then yes else []) l st l₁ st₁)
      (rest : Runs g R ss l₁ st₁ l' st') : Runs g R (.when test yes :: ss) l st l' st'
  | ite {test : Condition} {yes no ss : List Statement} {l l₁ l' : Locals} {st st₁ st' : ParseState} {b : Bool}
      (h : test.test g l st = .ok b st) (block : Runs g R (if b then yes else no) l st l₁ st₁)
      (rest : Runs g R ss l₁ st₁ l' st') : Runs g R (.ite test yes no :: ss) l st l' st'
  | done {i : Nat} {body ss : List Statement} {l l' : Locals} {st st' : ParseState}
      (hv : (l.values i).isFailed = true) (rest : Runs g R ss l st l' st') :
      Runs g R (.whileOk i body :: ss) l st l' st'
  | again {i : Nat} {body ss : List Statement} {l l₁ l' : Locals} {st st₁ st' : ParseState}
      (hv : (l.values i).isFailed = false) (round : Runs g R body l st l₁ st₁)
      (rest : Runs g R (.whileOk i body :: ss) l₁ st₁ l' st') : Runs g R (.whileOk i body :: ss) l st l' st'

end Statement

/-! ## Single instructions -/

/-- Statements find the same constants and host code as the machine. -/
structure Surroundings.Serves (g : Surroundings) (p : Program Raw) (k : Constants) : Prop where
  literal : g.literal = p.literal
  charClass : g.charClass = p.charClass
  expectation : g.expectation = p.expectation
  call : ∀ f function, k.functions.get? f = some function → ∀ view args,
    g.call function.kind f view args = (do let (kind, host) ← p.function f; return hostResult kind (host view args))

namespace RuleBody

variable {g : Surroundings} {p : Program Raw} {c : Context}

@[simp]
theorem lift_ok {α : Type} (a : α) : lift (.ok a) = (pure a : Run α) := rfl

/-- A value that an instruction pushes without looking at the stack is the one that is computed. -/
theorem step_produced (serves : g.Serves p c.constants) {i : Instr Raw} {what : Computation} (h : produced i = some what)
    (l : Locals) (s : StackKinds) :
    step p i (l.stack s) = (do let l' ← Statement.step g l (.set s.length what); return l'.stack (.value :: s)) := by
  have pushed (v : Value) : (l.setValue s.length v).stack (.value :: s) = .value v :: l.stack s := l.stack_push_value s v
  cases i with
  | pushEmptyString | pushNull | pushFailed | pushEmptyArray | acceptN =>
    cases h
    simp [step, Statement.step, Computation.value, pushed]
  | acceptString | acceptStringIc =>
    cases h
    simp [step, Statement.step, Computation.value, pushed, serves.literal]
  | fail =>
    cases h
    simp [step, Statement.step, Computation.value, pushed, serves.expectation]
  | _ => cases h

/-- What the machine does for an instruction without blocks, the statements do that it became. -/
theorem Takes.step_eq (serves : g.Serves p c.constants) {i : Instr Raw} {s s' : StackKinds} {ss : List Statement}
    (h : Takes c i s ss s') (hi : i ≠ .unsilence) (l : Locals) :
    step p i (l.stack s) = (do let l' ← ss.foldlM (Statement.step g) l; return l'.stack s') := by
  -- each slot of the stack is a variable: what the instruction does to its slots the statements do to those
  cases h with
  | produce h room => simp [step_produced serves h]
  | pushPos room => simp [step, Statement.step]
  | pop => simp [step, Locals.stack, Stack.pop]
  | popPos =>
    have top : (l.stack (.pos :: s')).pos 0 = .ok (l.positions s'.length) := by
      simpa using Locals.pos_stack (l := l) (s := .pos :: s') (d := 0) rfl
    have popped : (l.stack (.pos :: s')).pop 1 = .ok (l.stack s') := Locals.pop_stack (by simp)
    simp [step, top, popped, Statement.step]
  | popN h => simp [step, Locals.pop_stack h]
  | @nip kind below s room =>
    cases kind with
    | pos =>
      have pushed := l.stack_push_pos s (l.positions (s.length + 1))
      simp [step, Locals.nip_stack, Statement.step, copied, pushed, Locals.slot]
    | value =>
      have taken : (l.setValue (s.length + 1) .null).stack s = l.stack s := Locals.stack_setValue_of_le (by omega)
      simp [step, Locals.nip_stack, Statement.step, Computation.value, copied, Locals.slot, taken, Locals.take]
  | append => simp [step, Locals.append_stack, Statement.step]
  | wrap hn values room => simp [step, Locals.wrap_stack hn values, Statement.step, Computation.value]
  | @text s room =>
    have top : (l.stack (.pos :: s)).pos 0 = .ok (l.positions s.length) := by
      simpa using Locals.pos_stack (l := l) (s := .pos :: s) (d := 0) rfl
    have popped : (l.stack (.pos :: s)).pop 1 = .ok (l.stack s) := Locals.pop_stack (by simp)
    have pushed (v : Value) : (l.setValue s.length v).stack (.value :: s) = .value v :: l.stack s :=
      l.stack_push_value s v
    simp [step, top, popped, Statement.step, Computation.value, pushed]
  | @pluck n picks s hn values room =>
    simp only [step, Locals.pluck_stack hn values, Statement.step, List.foldlM_cons, List.foldlM_nil]
    have picked : (pickedFrom (picks.map s.index)).value g l = pure
        (Stack.pickedValue (l.takeAll (picks.map s.index)).1, (l.takeAll (picks.map s.index)).2) := by
      cases picks with
      | nil => rfl
      | cons d ds => cases ds <;> rfl
    simp [picked]
  | loadSavedPos h => simp [step, Locals.pos_stack h, Statement.step]
  | updateSavedPos => simp [step, Statement.step]
  | @call f n args function s hf hn values room =>
    have result (v : Value) : (l.setValue (s.length - n) v).stack (.value :: s.drop n) = .value v :: l.stack (s.drop n) := by
      have top : (s.drop n).length = s.length - n := List.length_drop
      rw [← top, Locals.stack_push_value]
    -- a function that is missing is missed by both
    have called := serves.call f function hf
    cases hp : p.function f with
    | error why =>
      simp only [hp] at called
      funext st
      simp [step, hp, Statement.step, Computation.value, called]
      rfl
    | ok found =>
      simp only [hp] at called
      simp [step, hp, Locals.values_stack values, Locals.pop_stack hn, Statement.step, Computation.value, called, result]
      rfl
  | silence => simp [step, Statement.step]
  | unsilence => exact absurd rfl hi
  | mapPush | mapPop => simp [step, Statement.step]

/-- A condition asks what the test asked that it became. -/
theorem Tests.check_eq (serves : g.Serves p c.constants) {test : Test Raw} {s : StackKinds} {test' : Condition}
    (h : Tests test s test') (l : Locals) : check p test (l.stack s) = test'.test g l := by
  cases h with
  | isTrue h | isError h | isOk h | fewer h | atLeast h => simp [check, Condition.test, Locals.value_stack h]
  | fewerThan h hd | atLeastThan h hd =>
    simp [check, Condition.test, comparesTo, Locals.value_stack h, Locals.value_stack hd]
    rfl
  | anyChar => rfl
  | string | stringIc => simp [check, Condition.test, serves.literal]
  | charClass => simp [check, Condition.test, serves.charClass]

end RuleBody

end PegCompiler
