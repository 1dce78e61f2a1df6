/-
What runs of the machine do, told without fuel. `Exec` relates a block, the stack and the state it
starts from and the host calls it makes to the stack and the state it ends with; what the rules that
it calls do is a parameter, so that a run can be followed one level of rules at a time. `RuleExec`
closes the circle by counting how deep rules are nested. A run of the machine ends well with some
fuel just where `Exec` says so (`block_ok_iff`, `rule_ok_iff`).
-/
import PegCompiler.Machine.Run
import PegCompiler.Proofs.Semantics.Values
import PegCompiler.Proofs.Stateful

namespace PegCompiler

namespace Machine

variable {ν : Naming}

/-- What a part of a program may do from a state: the calls it makes, its value, the state after it. -/
abbrev Act (φ : Type) := ParseState → List (HostCall φ) → Value → ParseState → Prop

/-! ## Runs that end well -/

theorem lift_ok_iff {α : Type} {x : Except Fault α} {a : α} {st st' : ParseState} :
    lift x st = .ok a st' ↔ x = .ok a ∧ st = st' := by
  cases x with
  | ok b => simp [lift, pure_ok_iff]
  | error e =>
    show EStateM.Result.error e st = _ ↔ _
    simp

theorem get_ok_iff {a st st' : ParseState} : (get : Run ParseState) st = .ok a st' ↔ st = a ∧ st = st' := by
  show EStateM.Result.ok st st = _ ↔ _
  simp

theorem change_ok_iff {α : Type} {f : ParseState → α × ParseState} {a : α} {st st' : ParseState} :
    change f st = .ok a st' ↔ f st = (a, st') := by
  show EStateM.Result.ok (f st).1 (f st).2 = _ ↔ _
  simp [Prod.ext_iff]

/-- Conditions look at the state and leave it alone. -/
theorem check_state {p : Program ν} {test : Test ν} {s : Stack} {st st' : ParseState} {b : Bool}
    (h : check p test s st = .ok b st') : st' = st := by
  cases test <;> simp only [check, bind_ok_iff, lift_ok_iff, get_ok_iff, pure_ok_iff] at h
  case anyChar => obtain ⟨_, _, ⟨rfl, rfl⟩, -, rfl⟩ := h; rfl
  case string | stringIc | charClass =>
    obtain ⟨_, _, ⟨-, rfl⟩, _, _, ⟨rfl, rfl⟩, -, rfl⟩ := h; rfl
  all_goals exact h.2.symm

/-! ## Blocks -/

/-- The calls that an instruction without blocks makes. -/
def hostCalls (i : Instr ν) (s : Stack) (st : ParseState) : List (HostCall (ν .function)) :=
  match i with
  | .call f _ args =>
    match s.values args with
    | .ok vs => [⟨f, vs, .of st⟩]
    | .error _ => []
  | _ => []

/-- Whether an instruction has no blocks and calls no rule. -/
def isPlain : Instr ν → Bool
  | .cond .. | .whileOk _ | .rule _ => false
  | _ => true

/-- A block runs from a stack and a state to others; `R` tells what rules do. -/
inductive Exec (p : Program ν) (R : Nat → Act (ν .function)) :
    Code ν → Stack → ParseState → List (HostCall (ν .function)) → Stack → ParseState → Prop
  | nil {s : Stack} {st : ParseState} : Exec p R [] s st [] s st
  | plain {i : Instr ν} {code : Code ν} {s s₁ s' : Stack} {st st₁ st' : ParseState}
      {cs : List (HostCall (ν .function))} (hi : isPlain i = true) (h : step p i s st = .ok s₁ st₁)
      (rest : Exec p R code s₁ st₁ cs s' st') :
      Exec p R (i :: code) s st (hostCalls i s st ++ cs) s' st'
  | cond {test : Test ν} {yes no code : Code ν} {s s₁ s' : Stack} {st st₁ st' : ParseState} {b : Bool}
      {cs₁ cs₂ : List (HostCall (ν .function))} (h : check p test s st = .ok b st)
      (block : Exec p R (if b then yes else no) s st cs₁ s₁ st₁)
      (rest : Exec p R code s₁ st₁ cs₂ s' st') :
      Exec p R (.cond test yes no :: code) s st (cs₁ ++ cs₂) s' st'
  | done {body code : Code ν} {s s' : Stack} {st st' : ParseState} {v : Value}
      {cs : List (HostCall (ν .function))} (h : s.value 0 = .ok v) (hv : v.isFailed = true)
      (rest : Exec p R code s st cs s' st') : Exec p R (.whileOk body :: code) s st cs s' st'
  | again {body code : Code ν} {s s₁ s' : Stack} {st st₁ st' : ParseState} {v : Value}
      {cs₁ cs₂ : List (HostCall (ν .function))} (h : s.value 0 = .ok v) (hv : v.isFailed = false)
      (round : Exec p R body s st cs₁ s₁ st₁)
      (rest : Exec p R (.whileOk body :: code) s₁ st₁ cs₂ s' st') :
      Exec p R (.whileOk body :: code) s st (cs₁ ++ cs₂) s' st'
  | rule {r : Nat} {code : Code ν} {s s' : Stack} {st st₁ st' : ParseState} {v : Value}
      {cs₁ cs₂ : List (HostCall (ν .function))} (h : R r st cs₁ v st₁)
      (rest : Exec p R code (.value v :: s) st₁ cs₂ s' st') :
      Exec p R (.rule r :: code) s st (cs₁ ++ cs₂) s' st'

section Blocks

variable {p : Program ν} {R R' : Nat → Act (ν .function)}

theorem exec_append_of {a b : Code ν} {s s₁ s' : Stack} {st st₁ st' : ParseState}
    {cs₁ cs₂ : List (HostCall (ν .function))} (h₁ : Exec p R a s st cs₁ s₁ st₁)
    (h₂ : Exec p R b s₁ st₁ cs₂ s' st') : Exec p R (a ++ b) s st (cs₁ ++ cs₂) s' st' := by
  induction h₁ with
  | nil => exact h₂
  | plain hi h _ ih => rw [List.append_assoc]; exact .plain hi h (ih h₂)
  | cond h block _ _ ih => rw [List.append_assoc]; exact .cond h block (ih h₂)
  | done h hv _ ih => exact .done h hv (ih h₂)
  | again h hv round _ _ ih => rw [List.append_assoc]; exact .again h hv round (ih h₂)
  | rule h _ ih => rw [List.append_assoc]; exact .rule h (ih h₂)

/-- Blocks one after the other run one after the other. -/
theorem exec_append_iff {a b : Code ν} {s s' : Stack} {st st' : ParseState}
    {cs : List (HostCall (ν .function))} :
    Exec p R (a ++ b) s st cs s' st' ↔
      ∃ cs₁ s₁ st₁ cs₂, Exec p R a s st cs₁ s₁ st₁ ∧ Exec p R b s₁ st₁ cs₂ s' st' ∧ cs = cs₁ ++ cs₂ := by
  refine ⟨fun h => ?_, fun ⟨_, _, _, _, h₁, h₂, e⟩ => e ▸ exec_append_of h₁ h₂⟩
  generalize hc : a ++ b = code at h
  -- the induction is on the run of both blocks, `a` is what is left of the first one
  induction h generalizing a with
  | nil =>
    obtain ⟨rfl, rfl⟩ := List.append_eq_nil_iff.1 hc
    exact ⟨[], _, _, [], .nil, .nil, rfl⟩
  | plain hi h rest ih =>
    cases a with
    | nil => subst hc; exact ⟨[], _, _, _, .nil, .plain hi h rest, rfl⟩
    | cons i a =>
      cases hc
      obtain ⟨_, _, _, _, h₁, h₂, rfl⟩ := ih rfl
      exact ⟨_, _, _, _, .plain hi h h₁, h₂, (List.append_assoc ..).symm⟩
  | cond h block rest _ ih =>
    cases a with
    | nil => subst hc; exact ⟨[], _, _, _, .nil, .cond h block rest, rfl⟩
    | cons i a =>
      cases hc
      obtain ⟨_, _, _, _, h₁, h₂, rfl⟩ := ih rfl
      exact ⟨_, _, _, _, .cond h block h₁, h₂, (List.append_assoc ..).symm⟩
  | done h hv rest ih =>
    cases a with
    | nil => subst hc; exact ⟨[], _, _, _, .nil, .done h hv rest, rfl⟩
    | cons i a =>
      cases hc
      obtain ⟨_, _, _, _, h₁, h₂, rfl⟩ := ih rfl
      exact ⟨_, _, _, _, .done h hv h₁, h₂, rfl⟩
  | again h hv round rest _ ih =>
    cases a with
    | nil => subst hc; exact ⟨[], _, _, _, .nil, .again h hv round rest, rfl⟩
    | cons i a =>
      cases hc
      obtain ⟨_, _, _, _, h₁, h₂, rfl⟩ := ih (a := _ :: a) rfl
      exact ⟨_, _, _, _, .again h hv round h₁, h₂, (List.append_assoc ..).symm⟩
  | rule h rest ih =>
    cases a with
    | nil => subst hc; exact ⟨[], _, _, _, .nil, .rule h rest, rfl⟩
    | cons i a =>
      cases hc
      obtain ⟨_, _, _, _, h₁, h₂, rfl⟩ := ih rfl
      exact ⟨_, _, _, _, .rule h h₁, h₂, (List.append_assoc ..).symm⟩

/-- Rules that may do more let blocks do more. -/
theorem Exec.mono (hR : ∀ r st cs v st', R r st cs v st' → R' r st cs v st') {code : Code ν} {s s' : Stack}
    {st st' : ParseState} {cs : List (HostCall (ν .function))} (h : Exec p R code s st cs s' st') :
    Exec p R' code s st cs s' st' := by
  induction h with
  | nil => exact .nil
  | plain hi h _ ih => exact .plain hi h ih
  | cond h _ _ ih₁ ih₂ => exact .cond h ih₁ ih₂
  | done h hv _ ih => exact .done h hv ih
  | again h hv _ _ ih₁ ih₂ => exact .again h hv ih₁ ih₂
  | rule h _ ih => exact .rule (hR _ _ _ _ _ h) ih

/-- A block calls rules only so often: where what rules do grows with `n`, one `n` is enough. -/
theorem Exec.exists_of_chain {Rs : Nat → Nat → Act (ν .function)}
    (hRs : ∀ n m, n ≤ m → ∀ r st cs v st', Rs n r st cs v st' → Rs m r st cs v st') {code : Code ν}
    {s s' : Stack} {st st' : ParseState} {cs : List (HostCall (ν .function))}
    (h : Exec p (fun r st cs v st' => ∃ n, Rs n r st cs v st') code s st cs s' st') :
    ∃ n, Exec p (Rs n) code s st cs s' st' := by
  induction h with
  | nil => exact ⟨0, .nil⟩
  | plain hi h _ ih => obtain ⟨n, ih⟩ := ih; exact ⟨n, .plain hi h ih⟩
  | cond h _ _ ih₁ ih₂ =>
    obtain ⟨n, ih₁⟩ := ih₁
    obtain ⟨m, ih₂⟩ := ih₂
    exact ⟨max n m, .cond h (ih₁.mono (hRs _ _ (Nat.le_max_left ..))) (ih₂.mono (hRs _ _ (Nat.le_max_right ..)))⟩
  | done h hv _ ih => obtain ⟨n, ih⟩ := ih; exact ⟨n, .done h hv ih⟩
  | again h hv _ _ ih₁ ih₂ =>
    obtain ⟨n, ih₁⟩ := ih₁
    obtain ⟨m, ih₂⟩ := ih₂
    exact ⟨max n m, .again h hv (ih₁.mono (hRs _ _ (Nat.le_max_left ..)))
      (ih₂.mono (hRs _ _ (Nat.le_max_right ..)))⟩
  | rule h _ ih =>
    obtain ⟨n, h⟩ := h
    obtain ⟨m, ih⟩ := ih
    exact ⟨max n m, .rule (hRs _ _ (Nat.le_max_left ..) _ _ _ _ _ h) (ih.mono (hRs _ _ (Nat.le_max_right ..)))⟩

end Blocks

/-! ## Rules -/

/-- The state after a report, if the program reports and anyone listens. -/
def reported (p : Program ν) (f : ParseState → ParseState) (st : ParseState) : ParseState :=
  if p.trace && st.tracing then f st else st

/-- A change of the state that changes nothing but the reports. -/
def Reports (f : ParseState → ParseState) : Prop := ∀ st, ∃ trace, f st = { st with trace }

theorem reports_enter {rule : String} {start : Nat} : Reports (·.reportEnter rule start) := fun _ => ⟨_, rfl⟩

theorem reports_exit {rule : String} {start : Nat} {v : Value} {cached : Bool} :
    Reports (·.reportExit rule start v cached) := fun st => by
  unfold ParseState.reportExit
  split
  · exact ⟨_, rfl⟩
  · exact ⟨_, rfl⟩

theorem Reports.reported {f : ParseState → ParseState} (h : Reports f) (p : Program ν) : Reports (reported p f) :=
  fun st => by
    unfold Machine.reported
    split
    · exact h st
    · exact ⟨st.trace, rfl⟩

/-- A rule around its body: a remembered result is taken, any other one is remembered. -/
def Around (p : Program ν) (r : Nat) (name : String) (body : Act (ν .function)) : Act (ν .function) :=
  fun st cs v st' =>
    match if p.cache then (reported p (·.reportEnter name st.pos) st).remembered? r else none with
    | some (w, st₁) => cs = [] ∧ v = w ∧ st' = reported p (·.reportExit name st.pos w true) st₁
    | none =>
      ∃ st₁, body (reported p (·.reportEnter name st.pos) st) cs v st₁ ∧
        st' = reported p (·.reportExit name st.pos v false)
          (if p.cache then st₁.remember r st.pos v else st₁)

section Around

variable {p : Program ν} {r : Nat} {name : String} {body : Act (ν .function)} {st : ParseState}

/-- Reports aside, a rule takes a remembered result, or does what its body does and may remember it. -/
theorem around_cases {cs : List (HostCall (ν .function))} {v : Value} {st' : ParseState}
    (h : Around p r name body st cs v st') :
    (∃ entry trace, cs = [] ∧ p.cache = true ∧ st.cache[st.key r st.pos]? = some entry ∧ v = entry.result ∧
      st' = { st with pos := entry.next, trace }) ∨
    (p.cache = true → st.cache[st.key r st.pos]? = none) ∧ ∃ trace st₁ trace', body { st with trace } cs v st₁ ∧
      st' = { (if p.cache then st₁.remember r st.pos v else st₁) with trace := trace' } := by
  have enter : Reports (·.reportEnter name st.pos) := reports_enter
  have leave (w : Value) (cached : Bool) : Reports (·.reportExit name st.pos w cached) := reports_exit
  obtain ⟨trace, htrace⟩ := enter.reported p st
  unfold Around at h
  rw [htrace] at h
  split at h
  · rename_i w st₁ hrecalled
    obtain ⟨hcs, rfl, rfl⟩ := h
    split at hrecalled
    · rename_i hcache
      unfold ParseState.remembered? at hrecalled
      obtain ⟨entry, hentry, e⟩ := Option.map_eq_some_iff.1 hrecalled
      cases e
      obtain ⟨trace', htrace'⟩ := (leave entry.result true).reported p { st with pos := entry.next, trace }
      exact .inl ⟨entry, trace', hcs, hcache, hentry, rfl, htrace'⟩
    · cases hrecalled
  · rename_i hrecalled
    obtain ⟨st₁, hbody, rfl⟩ := h
    refine .inr ⟨fun hcache => ?_, trace, st₁, ?_⟩
    · rw [if_pos hcache] at hrecalled
      exact Option.map_eq_none_iff.1 hrecalled
    · obtain ⟨trace', htrace'⟩ := (leave v false).reported p (if p.cache then st₁.remember r st.pos v else st₁)
      exact ⟨trace', hbody, htrace'⟩

theorem around_of_hit (name : String) (body : Act (ν .function)) (hcache : p.cache = true) {entry : CacheEntry} (hentry : st.cache[st.key r st.pos]? = some entry) :
    ∃ trace, Around p r name body st [] entry.result { st with pos := entry.next, trace } := by
  have enter : Reports (·.reportEnter name st.pos) := reports_enter
  have leave : Reports (·.reportExit name st.pos entry.result true) := reports_exit
  obtain ⟨trace, htrace⟩ := enter.reported p st
  obtain ⟨trace', htrace'⟩ := leave.reported p { st with pos := entry.next, trace }
  refine ⟨trace', ?_⟩
  have recalled : (if p.cache then ({ st with trace } : ParseState).remembered? r else none) =
      some (entry.result, { st with pos := entry.next, trace }) := by
    rw [if_pos hcache]
    exact Option.map_eq_some_iff.2 ⟨entry, hentry, rfl⟩
  unfold Around
  rw [htrace, recalled]
  exact ⟨rfl, rfl, htrace'.symm⟩

theorem around_of_miss (name : String) (body : Act (ν .function)) (hmiss : p.cache = true → st.cache[st.key r st.pos]? = none) :
    ∃ trace, ∀ cs v st₁, body { st with trace } cs v st₁ → ∃ trace',
      Around p r name body st cs v { (if p.cache then st₁.remember r st.pos v else st₁) with trace := trace' } := by
  have enter : Reports (·.reportEnter name st.pos) := reports_enter
  obtain ⟨trace, htrace⟩ := enter.reported p st
  refine ⟨trace, fun cs v st₁ hbody => ?_⟩
  have leave : Reports (·.reportExit name st.pos v false) := reports_exit
  obtain ⟨trace', htrace'⟩ := leave.reported p (if p.cache then st₁.remember r st.pos v else st₁)
  refine ⟨trace', ?_⟩
  have recalled : (if p.cache then ({ st with trace } : ParseState).remembered? r else none) = none := by
    split
    · rename_i hcache
      exact Option.map_eq_none_iff.2 (hmiss hcache)
    · rfl
  unfold Around
  rw [htrace, recalled]
  exact ⟨st₁, hbody, htrace'.symm⟩

end Around

/-- What a rule does with at most `n` rules inside each other. -/
def RuleExec (p : Program ν) : (n : Nat) → Nat → Act (ν .function)
  | 0, _ => fun _ _ _ _ => False
  | n + 1, r => fun st cs v st' =>
    ∃ code, p.rules.getD r none = some code ∧
      Around p r code.name (fun st cs v st' => Exec p (RuleExec p n) code.code [] st cs [.value v] st')
        st cs v st'

/-- What a rule does. -/
def RuleRuns (p : Program ν) (r : Nat) : Act (ν .function) := fun st cs v st' => ∃ n, RuleExec p n r st cs v st'

theorem Around.mono {p : Program ν} {r : Nat} {name : String} {A B : Act (ν .function)}
    (h : ∀ st cs v st', A st cs v st' → B st cs v st') {st st' : ParseState} {v : Value}
    {cs : List (HostCall (ν .function))} (ha : Around p r name A st cs v st') :
    Around p r name B st cs v st' := by
  unfold Around at ha ⊢
  split at ha
  · exact ha
  · obtain ⟨st₁, hb, e⟩ := ha; exact ⟨st₁, h _ _ _ _ hb, e⟩

theorem RuleExec.mono {p : Program ν} {n m : Nat} (hnm : n ≤ m) :
    ∀ (r : Nat) (st : ParseState) (cs : List (HostCall (ν .function))) (v : Value) (st' : ParseState),
      RuleExec p n r st cs v st' → RuleExec p m r st cs v st' := by
  induction n generalizing m with
  | zero => intro _ _ _ _ _ h; exact h.elim
  | succ n ih =>
    obtain ⟨m, rfl⟩ : ∃ k, m = k + 1 := ⟨m - 1, by omega⟩
    rintro r st cs v st' ⟨code, hc, h⟩
    exact ⟨code, hc, h.mono fun _ _ _ _ hb => hb.mono (ih (by omega))⟩

/-- Rules do what their code does around which they are. -/
theorem ruleRuns_iff {p : Program ν} {r : Nat} {st st' : ParseState} {v : Value}
    {cs : List (HostCall (ν .function))} :
    RuleRuns p r st cs v st' ↔ ∃ code, p.rules.getD r none = some code ∧
      Around p r code.name (fun st cs v st' => Exec p (RuleRuns p) code.code [] st cs [.value v] st')
        st cs v st' := by
  constructor
  · rintro ⟨_ | n, h⟩
    · exact h.elim
    · obtain ⟨code, hc, h⟩ := h
      exact ⟨code, hc, h.mono fun _ _ _ _ hb => hb.mono fun _ _ _ _ _ hr => ⟨n, hr⟩⟩
  · rintro ⟨code, hc, h⟩
    unfold Around at h
    split at h
    · rename_i hm
      exact ⟨1, code, hc, by unfold Around; rw [hm]; exact h⟩
    · rename_i hm
      obtain ⟨st₁, hb, e⟩ := h
      obtain ⟨n, hb⟩ := hb.exists_of_chain fun _ _ => RuleExec.mono
      exact ⟨n + 1, code, hc, by unfold Around; rw [hm]; exact ⟨st₁, hb, e⟩⟩

/-! ## Runs are definite -/

/-- From a state, an act ends in one way at most. -/
def Act.Definite {φ : Type} (A : Act φ) : Prop := ∀ ⦃st cs₁ v₁ st₁ cs₂ v₂ st₂⦄,
  A st cs₁ v₁ st₁ → A st cs₂ v₂ st₂ → cs₁ = cs₂ ∧ v₁ = v₂ ∧ st₁ = st₂

theorem exec_definite {p : Program ν} {R : Nat → Act (ν .function)} (hR : ∀ r, (R r).Definite) {code : Code ν}
    {s s₁ s₂ : Stack} {st st₁ st₂ : ParseState} {cs₁ cs₂ : List (HostCall (ν .function))}
    (h₁ : Exec p R code s st cs₁ s₁ st₁) (h₂ : Exec p R code s st cs₂ s₂ st₂) : cs₁ = cs₂ ∧ s₁ = s₂ ∧ st₁ = st₂ := by
  induction h₁ generalizing cs₂ s₂ st₂ with
  | nil => cases h₂; exact ⟨rfl, rfl, rfl⟩
  | plain hi h _ ih =>
    -- the other run begins with the same instruction, which ends in one way
    cases h₂ with
    | plain hi' h' rest' =>
      rw [h] at h'
      cases h'
      obtain ⟨rfl, rfl, rfl⟩ := ih rest'
      exact ⟨rfl, rfl, rfl⟩
    | cond | done | again | rule => cases hi
  | cond h _ _ ih₁ ih₂ =>
    cases h₂ with
    | plain hi => cases hi
    | cond h' block' rest' =>
      rw [h] at h'
      cases h'
      obtain ⟨rfl, rfl, rfl⟩ := ih₁ block'
      obtain ⟨rfl, rfl, rfl⟩ := ih₂ rest'
      exact ⟨rfl, rfl, rfl⟩
  | done h hv _ ih =>
    cases h₂ with
    | plain hi => cases hi
    | done h' hv' rest' => exact ih rest'
    | again h' hv' => rw [h] at h'; cases h'; rw [hv] at hv'; cases hv'
  | again h hv _ _ ih₁ ih₂ =>
    cases h₂ with
    | plain hi => cases hi
    | done h' hv' => rw [h] at h'; cases h'; rw [hv] at hv'; cases hv'
    | again h' hv' round' rest' =>
      obtain ⟨rfl, rfl, rfl⟩ := ih₁ round'
      obtain ⟨rfl, rfl, rfl⟩ := ih₂ rest'
      exact ⟨rfl, rfl, rfl⟩
  | rule h _ ih =>
    cases h₂ with
    | plain hi => cases hi
    | rule h' rest' =>
      obtain ⟨rfl, rfl, rfl⟩ := hR _ h h'
      obtain ⟨rfl, rfl, rfl⟩ := ih rest'
      exact ⟨rfl, rfl, rfl⟩

theorem ruleExec_definite {p : Program ν} (n r : Nat) : (RuleExec p n r).Definite := by
  induction n generalizing r with
  | zero => intro _ _ _ _ _ _ _ h; exact h.elim
  | succ n ih =>
    rintro st cs₁ v₁ st₁ cs₂ v₂ st₂ ⟨code, hc, h₁⟩ ⟨_, hc', h₂⟩
    rw [hc] at hc'
    cases hc'
    unfold Around at h₁ h₂
    split at h₁ <;> rename_i hm <;> rw [hm] at h₂
    · obtain ⟨rfl, rfl, rfl⟩ := h₁
      obtain ⟨rfl, rfl, rfl⟩ := h₂
      exact ⟨rfl, rfl, rfl⟩
    · obtain ⟨_, h₁, rfl⟩ := h₁
      obtain ⟨_, h₂, rfl⟩ := h₂
      obtain ⟨rfl, e, rfl⟩ := exec_definite ih h₁ h₂
      cases e
      exact ⟨rfl, rfl, rfl⟩

/-- A rule ends in one way at most: with one sequence of calls, one value and one state. -/
theorem ruleRuns_definite {p : Program ν} (r : Nat) : (RuleRuns p r).Definite := by
  rintro st cs₁ v₁ st₁ cs₂ v₂ st₂ ⟨n, h₁⟩ ⟨m, h₂⟩
  exact ruleExec_definite (max n m) r (h₁.mono (Nat.le_max_left ..) ..) (h₂.mono (Nat.le_max_right ..) ..)

/-! ## The machine -/

theorem recalled_ok_iff {p : Program ν} {r : Nat} {st st' : ParseState} {o : Option Value} :
    recalled p r st = .ok o st' ↔
      match if p.cache then st.remembered? r else none with
      | some (w, st₁) => o = some w ∧ st' = st₁
      | none => o = none ∧ st' = st := by
  unfold recalled
  generalize (if p.cache then st.remembered? r else none) = found
  cases found <;> simp only [EStateM.Result.ok.injEq] <;>
    exact ⟨fun ⟨a, b⟩ => ⟨a.symm, b.symm⟩, fun ⟨a, b⟩ => ⟨a.symm, b.symm⟩⟩

theorem report_ok_iff {p : Program ν} {f : ParseState → ParseState} {st st' : ParseState} {u : Unit} :
    report p f st = .ok u st' ↔ reported p f st = st' := modify_ok_iff

theorem result_ok_iff {name : String} {s : Stack} {v : Value} {st st' : ParseState} :
    result name s st = .ok v st' ↔ s = [.value v] ∧ st = st' := by
  unfold result
  split
  · rw [pure_ok_iff]; simp
  · rename_i hs
    refine ⟨fun h => ?_, fun ⟨h, _⟩ => absurd h (hs v)⟩
    cases h

/-- Around a body, the machine does what `Around` says. -/
theorem around_ok_iff {p : Program ν} {r : Nat} {rule : RuleCode ν} {body : Run Stack} {st st' : ParseState}
    {v : Value} :
    around p r rule body st = .ok v st' ↔
      Around p r rule.name (fun st _ v st' => body st = .ok [.value v] st') st [] v st' := by
  unfold around Around
  simp only [bind_ok_iff, get_ok_iff, report_ok_iff]
  constructor
  · rintro ⟨_, _, ⟨rfl, rfl⟩, _, _, rfl, o, st₂, hr, h⟩
    rw [recalled_ok_iff] at hr
    split at hr <;> obtain ⟨rfl, rfl⟩ := hr
    · simp only [bind_ok_iff, report_ok_iff, pure_ok_iff] at h
      obtain ⟨_, _, rfl, rfl, rfl⟩ := h
      exact ⟨trivial, rfl, rfl⟩
    · simp only [bind_ok_iff, report_ok_iff, pure_ok_iff, result_ok_iff, modify_ok_iff] at h
      obtain ⟨_, st₃, hb, _, _, ⟨rfl, rfl⟩, _, _, rfl, _, _, rfl, rfl, rfl⟩ := h
      exact ⟨_, hb, rfl⟩
  · intro h
    refine ⟨_, _, ⟨rfl, rfl⟩, ⟨⟩, _, rfl, ?_⟩
    split at h
    · rename_i w st₁ hm
      obtain ⟨-, rfl, rfl⟩ := h
      refine ⟨some v, st₁, recalled_ok_iff.2 (by rw [hm]; exact ⟨rfl, rfl⟩), ?_⟩
      simp only [bind_ok_iff, report_ok_iff, pure_ok_iff]
      exact ⟨⟨⟩, _, rfl, trivial, rfl⟩
    · rename_i hm
      obtain ⟨st₁, hb, rfl⟩ := h
      refine ⟨none, _, recalled_ok_iff.2 (by rw [hm]; exact ⟨rfl, rfl⟩), ?_⟩
      simp only [bind_ok_iff, report_ok_iff, pure_ok_iff, result_ok_iff, modify_ok_iff]
      exact ⟨_, st₁, hb, v, _, ⟨rfl, rfl⟩, ⟨⟩, _, rfl, ⟨⟩, _, rfl, rfl, rfl⟩

theorem rule_succ_ok_iff {p : Program ν} {fuel r : Nat} {v : Value} {st st' : ParseState} :
    rule p (fuel + 1) r st = .ok v st' ↔ ∃ code, p.rules.getD r none = some code ∧
      around p r code (block p fuel code.code []) st = .ok v st' := by
  unfold rule
  cases hc : p.rules.getD r none with
  | none =>
    refine ⟨fun h => ?_, fun ⟨_, h, _⟩ => by cases h⟩
    cases h
  | some code => simp

/-- An instruction without blocks is a step, whatever the fuel. -/
theorem instr_plain {p : Program ν} {i : Instr ν} (hi : isPlain i = true) (fuel : Nat) (s : Stack) :
    instr p (fuel + 1) i s = step p i s := by
  cases i <;> simp only [instr] <;> exact absurd hi (by simp [isPlain])

/-- Runs that end well with some fuel are executions. -/
theorem exec_of_ok (p : Program ν) (fuel : Nat) :
    (∀ code s st s' st', block p fuel code s st = .ok s' st' → ∃ cs, Exec p (RuleRuns p) code s st cs s' st') ∧
    (∀ i s st s' st', instr p fuel i s st = .ok s' st' → ∃ cs, Exec p (RuleRuns p) [i] s st cs s' st') ∧
    (∀ body s st s' st', loop p fuel body s st = .ok s' st' →
      ∃ cs, Exec p (RuleRuns p) [.whileOk body] s st cs s' st') ∧
    (∀ r st v st', rule p fuel r st = .ok v st' → ∃ cs, RuleRuns p r st cs v st') := by
  induction fuel with
  | zero =>
    refine ⟨?_, ?_, ?_, ?_⟩ <;> intros <;> rename_i h <;> simp only [block, instr, loop, rule] at h <;> cases h
  | succ fuel ih =>
    obtain ⟨ihBlock, ihInstr, ihLoop, ihRule⟩ := ih
    refine ⟨fun code s st s' st' h => ?_, fun i s st s' st' h => ?_, fun body s st s' st' h => ?_,
      fun r st v st' h => ?_⟩
    · -- a block runs its first instruction, and then the others
      cases code with
      | nil =>
        obtain ⟨rfl, rfl⟩ := pure_ok_iff.1 h
        exact ⟨[], .nil⟩
      | cons i code =>
        obtain ⟨s₁, st₁, h₁, h₂⟩ := bind_ok_iff.1 h
        obtain ⟨cs₁, h₁⟩ := ihInstr _ _ _ _ _ h₁
        obtain ⟨cs₂, h₂⟩ := ihBlock _ _ _ _ _ h₂
        exact ⟨cs₁ ++ cs₂, exec_append_of h₁ h₂⟩
    · -- an instruction is a step, or goes into a block or a rule
      cases hi : isPlain i with
      | true =>
        rw [instr_plain hi] at h
        exact ⟨_, .plain hi h .nil⟩
      | false =>
        cases i <;> simp only [isPlain, Bool.true_eq_false] at hi
        case cond test yes no =>
          obtain ⟨b, st₁, hb, h⟩ := bind_ok_iff.1 h
          obtain rfl := check_state hb
          have : ∃ cs, Exec p (RuleRuns p) (if b then yes else no) s st₁ cs s' st' := by
            cases b <;> exact ihBlock _ _ _ _ _ h
          obtain ⟨cs, h⟩ := this
          exact ⟨cs ++ [], .cond hb h .nil⟩
        case whileOk body => exact ihLoop _ _ _ _ _ h
        case rule r =>
          obtain ⟨v, st₁, hv, h⟩ := bind_ok_iff.1 h
          obtain ⟨rfl, rfl⟩ := pure_ok_iff.1 h
          obtain ⟨cs, hv⟩ := ihRule _ _ _ _ hv
          exact ⟨cs ++ [], .rule hv .nil⟩
    · -- a loop looks at the value on top before each round
      simp only [loop] at h
      obtain ⟨v, st₁, hv, h⟩ := bind_ok_iff.1 h
      obtain ⟨hs, rfl⟩ := lift_ok_iff.1 hv
      cases hf : v.isFailed with
      | true =>
        rw [if_pos hf] at h
        obtain ⟨rfl, rfl⟩ := pure_ok_iff.1 h
        exact ⟨[], .done hs hf .nil⟩
      | false =>
        rw [if_neg (by simp [hf])] at h
        obtain ⟨s₁, st₁, h₁, h₂⟩ := bind_ok_iff.1 h
        obtain ⟨cs₁, h₁⟩ := ihBlock _ _ _ _ _ h₁
        obtain ⟨cs₂, h₂⟩ := ihLoop _ _ _ _ _ h₂
        exact ⟨cs₁ ++ cs₂, .again hs hf h₁ h₂⟩
    · -- a rule runs its block between two reports, unless its result is remembered
      obtain ⟨code, hc, h⟩ := rule_succ_ok_iff.1 h
      rw [around_ok_iff] at h
      unfold Around at h
      split at h
      · rename_i hm
        exact ⟨[], ruleRuns_iff.2 ⟨code, hc, by unfold Around; rw [hm]; exact ⟨rfl, h.2⟩⟩⟩
      · rename_i hm
        obtain ⟨st₁, hb, e⟩ := h
        obtain ⟨cs, hb⟩ := ihBlock _ _ _ _ _ hb
        exact ⟨cs, ruleRuns_iff.2 ⟨code, hc, by unfold Around; rw [hm]; exact ⟨st₁, hb, e⟩⟩⟩

/-! ## Fuel -/

/-- The one run does what the other does, or uses up its fuel before that. -/
def Short {α : Type} (x y : Run α) : Prop := ∀ st, x st = y st ∨ ∃ st', x st = .error .outOfFuel st'

namespace Short

variable {α β : Type} {x y : Run α} {f g : α → Run β}

theorem refl (x : Run α) : Short x x := fun _ => .inl rfl

theorem starved (y : Run α) : Short (throw .outOfFuel) y := fun st => .inr ⟨st, rfl⟩

theorem bind (h : Short x y) (hf : ∀ a, Short (f a) (g a)) : Short (x >>= f) (y >>= g) := fun st => by
  rcases h st with e | ⟨st', e⟩
  · cases hy : y st with
    | ok a st₁ =>
      rw [bind_ok (e.trans hy), bind_ok hy]
      exact hf a st₁
    | error why st₁ =>
      exact .inl ((bind_error_iff.2 (.inl (e.trans hy))).trans (bind_error_iff.2 (.inl hy)).symm)
  · exact .inr ⟨st', bind_error_iff.2 (.inl e)⟩

/-- A run that ended well ends so with more fuel. -/
theorem ok (h : Short x y) {st st' : ParseState} {a : α} (hx : x st = .ok a st') : y st = .ok a st' := by
  rcases h st with e | ⟨st₁, e⟩
  · rw [← e, hx]
  · rw [hx] at e
    cases e

/-- If the run ends well with more fuel, there is no fault but that the fuel is used up. -/
theorem fault (h : Short x y) {st st' st₁ : ParseState} {a : α} (hy : y st = .ok a st') {why : Fault}
    (hx : x st = .error why st₁) : why = .outOfFuel := by
  rcases h st with e | ⟨st₂, e⟩
  · rw [hx, hy] at e
    cases e
  · rw [hx] at e
    cases e
    rfl

theorem trans {z : Run α} (h : Short x y) (h' : Short y z) : Short x z := fun st => by
  rcases h st with e | e
  · rw [e]
    exact h' st
  · exact .inr e

theorem around {p : Program ν} {r : Nat} {rule : RuleCode ν} {body body' : Run Stack} (h : Short body body') :
    Short (around p r rule body) (around p r rule body') := by
  unfold Machine.around
  refine bind (refl _) fun st => bind (refl _) fun _ => bind (refl _) fun o => ?_
  cases o with
  | some v => exact refl _
  | none => exact bind h fun s => refl _

end Short

/-- More fuel changes nothing else. -/
theorem short_succ (p : Program ν) (fuel : Nat) :
    (∀ code s, Short (block p fuel code s) (block p (fuel + 1) code s)) ∧
    (∀ i s, Short (instr p fuel i s) (instr p (fuel + 1) i s)) ∧
    (∀ body s, Short (loop p fuel body s) (loop p (fuel + 1) body s)) ∧
    (∀ r, Short (rule p fuel r) (rule p (fuel + 1) r)) := by
  induction fuel with
  | zero =>
    refine ⟨fun code s => ?_, fun i s => ?_, fun body s => ?_, fun r => ?_⟩
    · rw [block]; exact .starved _
    · rw [instr]; exact .starved _
    · rw [loop]; exact .starved _
    · rw [rule]; exact .starved _
  | succ fuel ih =>
    obtain ⟨ihBlock, ihInstr, ihLoop, ihRule⟩ := ih
    refine ⟨fun code s => ?_, fun i s => ?_, fun body s => ?_, fun r => ?_⟩
    · -- blocks
      cases code with
      | nil => exact .refl _
      | cons i code => exact .bind (ihInstr i s) fun s => ihBlock code s
    · -- instructions
      cases hi : isPlain i with
      | true =>
        rw [instr_plain hi, instr_plain hi]
        exact .refl _
      | false =>
        cases i <;> simp only [isPlain, Bool.true_eq_false] at hi
        case cond test yes no => exact .bind (.refl _) fun b => by cases b <;> exact ihBlock _ s
        case whileOk body => exact ihLoop body s
        case rule r => exact .bind (ihRule r) fun v => .refl _
    · -- loops
      rw [loop, loop]
      refine .bind (.refl _) fun v => ?_
      split
      · exact .refl _
      · exact .bind (ihBlock body s) fun s => ihLoop body s
    · -- rules
      rw [rule, rule]
      split
      · exact .around (ihBlock _ _)
      · exact .refl _

theorem short_block {p : Program ν} {fuel fuel' : Nat} (hle : fuel ≤ fuel') (code : Code ν) (s : Stack) :
    Short (block p fuel code s) (block p fuel' code s) := by
  induction hle with
  | refl => exact .refl _
  | step _ ih => exact ih.trans ((short_succ p _).1 code s)

theorem block_ok_of_le {p : Program ν} {fuel fuel' : Nat} (hle : fuel ≤ fuel') {code : Code ν} {s s' : Stack}
    {st st' : ParseState} (h : block p fuel code s st = .ok s' st') : block p fuel' code s st = .ok s' st' :=
  (short_block hle code s).ok h

/-- A run that ends well with some fuel has no fault with any other fuel but that it is used up. -/
theorem block_fault {p : Program ν} {n m : Nat} {code : Code ν} {s s' : Stack} {st st' st₁ : ParseState} {why : Fault}
    (hok : block p n code s st = .ok s' st') (h : block p m code s st = .error why st₁) : why = .outOfFuel :=
  (short_block (Nat.le_max_right n m) code s).fault (block_ok_of_le (Nat.le_max_left n m) hok) h

theorem instr_ok_of_le {p : Program ν} {fuel fuel' : Nat} (hle : fuel ≤ fuel') {i : Instr ν} {s s' : Stack}
    {st st' : ParseState} (h : instr p fuel i s st = .ok s' st') : instr p fuel' i s st = .ok s' st' := by
  induction hle with
  | refl => exact h
  | step _ ih => exact ((short_succ p _).2.1 i s).ok ih

theorem loop_ok_of_le {p : Program ν} {fuel fuel' : Nat} (hle : fuel ≤ fuel') {body : Code ν} {s s' : Stack}
    {st st' : ParseState} (h : loop p fuel body s st = .ok s' st') : loop p fuel' body s st = .ok s' st' := by
  induction hle with
  | refl => exact h
  | step _ ih => exact ((short_succ p _).2.2.1 body s).ok ih

theorem short_rule {p : Program ν} {fuel fuel' : Nat} (hle : fuel ≤ fuel') (r : Nat) :
    Short (rule p fuel r) (rule p fuel' r) := by
  induction hle with
  | refl => exact .refl _
  | step _ ih => exact ih.trans ((short_succ p _).2.2.2 r)

theorem rule_ok_of_le {p : Program ν} {fuel fuel' : Nat} (hle : fuel ≤ fuel') {r : Nat} {v : Value}
    {st st' : ParseState} (h : rule p fuel r st = .ok v st') : rule p fuel' r st = .ok v st' :=
  (short_rule hle r).ok h

theorem rule_fault {p : Program ν} {n m r : Nat} {v : Value} {st st' st₁ : ParseState} {why : Fault}
    (hok : rule p n r st = .ok v st') (h : rule p m r st = .error why st₁) : why = .outOfFuel :=
  (short_rule (Nat.le_max_right n m) r).fault (rule_ok_of_le (Nat.le_max_left n m) hok) h

/-- An instruction and then a block, with fuel for both. -/
theorem block_cons_ok {p : Program ν} {i : Instr ν} {code : Code ν} {s s₁ s' : Stack} {st st₁ st' : ParseState}
    (hi : ∃ fuel, instr p fuel i s st = .ok s₁ st₁) (h : ∃ fuel, block p fuel code s₁ st₁ = .ok s' st') :
    ∃ fuel, block p fuel (i :: code) s st = .ok s' st' := by
  obtain ⟨n, hi⟩ := hi
  obtain ⟨m, h⟩ := h
  exact ⟨max n m + 1, bind_ok_iff.2 ⟨s₁, st₁, instr_ok_of_le (Nat.le_max_left ..) hi,
    block_ok_of_le (Nat.le_max_right ..) h⟩⟩

theorem block_cons_inv {p : Program ν} {i : Instr ν} {code : Code ν} {s s' : Stack} {st st' : ParseState}
    (h : ∃ fuel, block p fuel (i :: code) s st = .ok s' st') : ∃ s₁ st₁,
      (∃ fuel, instr p fuel i s st = .ok s₁ st₁) ∧ ∃ fuel, block p fuel code s₁ st₁ = .ok s' st' := by
  obtain ⟨_ | fuel, h⟩ := h
  · cases h
  · obtain ⟨s₁, st₁, h₁, h₂⟩ := bind_ok_iff.1 h
    exact ⟨s₁, st₁, ⟨fuel, h₁⟩, fuel, h₂⟩

/-- Executions are runs that end well with some fuel, if this is so for rules. -/
theorem block_ok_of_exec {p : Program ν} {R : Nat → Act (ν .function)}
    (hR : ∀ r st cs v st', R r st cs v st' → ∃ fuel, rule p fuel r st = .ok v st')
    {code : Code ν} {s s' : Stack} {st st' : ParseState} {cs : List (HostCall (ν .function))}
    (h : Exec p R code s st cs s' st') : ∃ fuel, block p fuel code s st = .ok s' st' := by
  induction h with
  | nil => exact ⟨1, pure_ok_iff.2 ⟨rfl, rfl⟩⟩
  | plain hi h _ ih => exact block_cons_ok ⟨1, by rw [instr_plain hi]; exact h⟩ ih
  | @cond test yes no code s s₁ s' st st₁ st' b _ _ h _ _ ih₁ ih₂ =>
    obtain ⟨fuel, ih₁⟩ := ih₁
    refine block_cons_ok ⟨fuel + 1, bind_ok_iff.2 ⟨b, st, h, ?_⟩⟩ ih₂
    cases b <;> exact ih₁
  | done h hv _ ih =>
    refine block_cons_ok ⟨2, bind_ok_iff.2 ⟨_, _, lift_ok_iff.2 ⟨h, rfl⟩, ?_⟩⟩ ih
    rw [if_pos hv]; exact pure_ok_iff.2 ⟨rfl, rfl⟩
  | again h hv _ _ ih₁ ih₂ =>
    obtain ⟨n, ih₁⟩ := ih₁
    obtain ⟨s₂, st₂, ⟨m, h₂⟩, ih₂⟩ := block_cons_inv ih₂
    obtain ⟨m, rfl⟩ : ∃ k, m = k + 1 := by
      cases m with
      | zero => cases h₂
      | succ m => exact ⟨m, rfl⟩
    refine block_cons_ok ⟨max n m + 2, bind_ok_iff.2 ⟨_, _, lift_ok_iff.2 ⟨h, rfl⟩, ?_⟩⟩ ih₂
    rw [if_neg (by simp [hv])]
    exact bind_ok_iff.2 ⟨_, _, block_ok_of_le (Nat.le_max_left ..) ih₁,
      loop_ok_of_le (Nat.le_max_right ..) h₂⟩
  | rule h _ ih =>
    obtain ⟨fuel, h⟩ := hR _ _ _ _ _ h
    exact block_cons_ok ⟨fuel + 1, bind_ok_iff.2 ⟨_, _, h, pure_ok_iff.2 ⟨rfl, rfl⟩⟩⟩ ih

theorem rule_ok_of_ruleExec {p : Program ν} (n : Nat) : ∀ (r : Nat) (st : ParseState)
    (cs : List (HostCall (ν .function))) (v : Value) (st' : ParseState),
    RuleExec p n r st cs v st' → ∃ fuel, rule p fuel r st = .ok v st' := by
  induction n with
  | zero => intro _ _ _ _ _ h; exact h.elim
  | succ n ih =>
    rintro r st cs v st' ⟨code, hc, h⟩
    have run : ∀ fuel, around p r code (block p fuel code.code []) st = .ok v st' →
        ∃ fuel, rule p fuel r st = .ok v st' := fun fuel h => ⟨fuel + 1, rule_succ_ok_iff.2 ⟨code, hc, h⟩⟩
    unfold Around at h
    split at h
    · rename_i hm
      exact run 0 (around_ok_iff.2 (by unfold Around; rw [hm]; exact ⟨rfl, h.2⟩))
    · rename_i hm
      obtain ⟨st₁, hb, e⟩ := h
      obtain ⟨fuel, hb⟩ := block_ok_of_exec ih hb
      exact run fuel (around_ok_iff.2 (by unfold Around; rw [hm]; exact ⟨st₁, hb, e⟩))

/-- A block ends well with some fuel just where an execution says so. -/
theorem block_ok_iff {p : Program ν} {code : Code ν} {s s' : Stack} {st st' : ParseState} :
    (∃ fuel, block p fuel code s st = .ok s' st') ↔ ∃ cs, Exec p (RuleRuns p) code s st cs s' st' :=
  ⟨fun ⟨fuel, h⟩ => (exec_of_ok p fuel).1 _ _ _ _ _ h,
    fun ⟨_, h⟩ => block_ok_of_exec (fun _ _ _ _ _ ⟨n, hr⟩ => rule_ok_of_ruleExec n _ _ _ _ _ hr) h⟩

/-- A rule ends well with some fuel just where an execution says so. -/
theorem rule_ok_iff {p : Program ν} {r : Nat} {v : Value} {st st' : ParseState} :
    (∃ fuel, rule p fuel r st = .ok v st') ↔ ∃ cs, RuleRuns p r st cs v st' :=
  ⟨fun ⟨fuel, h⟩ => (exec_of_ok p fuel).2.2.2 _ _ _ _ h,
    fun ⟨_, n, h⟩ => rule_ok_of_ruleExec n _ _ _ _ _ h⟩

end Machine

end PegCompiler
