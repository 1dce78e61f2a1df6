/-
The machine and the statements of a generated method side by side. From variables and from the stack that they hold,
statements come to an end just where the code does that they were written for, with the same state, and the stack is
then the one that the variables hold. What branches and rounds of a loop leave in variables above the stack does not
count: they are written to before they are read. One thing the machine does and statements do not: it ends a silence
where none was begun. Tidy code never asks for that.
-/
import PegCompiler.Proofs.Emit.Running
import PegCompiler.Proofs.Machine.Tidy

namespace PegCompiler

open Machine

namespace Statement

variable {g : Surroundings} {R : String → ParseState → Value → ParseState → Prop} {a b ss : List Statement}
  {l l₁ l' : Locals} {st st₁ st' : ParseState}

theorem Runs.append (ha : Runs g R a l st l₁ st₁) (hb : Runs g R b l₁ st₁ l' st') : Runs g R (a ++ b) l st l' st' := by
  induction ha with
  | nil => exact hb
  | plain hs h _ ih => exact .plain hs h (ih hb)
  | unsilence h _ ih => exact .unsilence h (ih hb)
  | call h _ ih => exact .call h (ih hb)
  | when h block _ _ ih => exact .when h block (ih hb)
  | ite h block _ _ ih => exact .ite h block (ih hb)
  | done hv _ ih => exact .done hv (ih hb)
  | again hv round _ _ ih => exact .again hv round (ih hb)

/-- Statements one after the other run one after the other. -/
theorem runs_append_iff : Runs g R (a ++ b) l st l' st' ↔
    ∃ l₁ st₁, Runs g R a l st l₁ st₁ ∧ Runs g R b l₁ st₁ l' st' := by
  refine ⟨fun h => ?_, fun ⟨_, _, ha, hb⟩ => ha.append hb⟩
  generalize hc : a ++ b = ss at h
  -- the induction is on the run of them all, `a` is what is left of the first ones
  induction h generalizing a with
  | nil =>
    obtain ⟨rfl, rfl⟩ := List.append_eq_nil_iff.1 hc
    exact ⟨_, _, .nil, .nil⟩
  | plain hs h rest ih =>
    cases a with
    | nil => subst hc; exact ⟨_, _, .nil, .plain hs h rest⟩
    | cons s a =>
      cases hc
      obtain ⟨_, _, ha, hb⟩ := ih rfl
      exact ⟨_, _, .plain hs h ha, hb⟩
  | unsilence h rest ih =>
    cases a with
    | nil => subst hc; exact ⟨_, _, .nil, .unsilence h rest⟩
    | cons s a =>
      cases hc
      obtain ⟨_, _, ha, hb⟩ := ih rfl
      exact ⟨_, _, .unsilence h ha, hb⟩
  | call h rest ih =>
    cases a with
    | nil => subst hc; exact ⟨_, _, .nil, .call h rest⟩
    | cons s a =>
      cases hc
      obtain ⟨_, _, ha, hb⟩ := ih rfl
      exact ⟨_, _, .call h ha, hb⟩
  | when h block rest _ ih =>
    cases a with
    | nil => subst hc; exact ⟨_, _, .nil, .when h block rest⟩
    | cons s a =>
      cases hc
      obtain ⟨_, _, ha, hb⟩ := ih rfl
      exact ⟨_, _, .when h block ha, hb⟩
  | ite h block rest _ ih =>
    cases a with
    | nil => subst hc; exact ⟨_, _, .nil, .ite h block rest⟩
    | cons s a =>
      cases hc
      obtain ⟨_, _, ha, hb⟩ := ih rfl
      exact ⟨_, _, .ite h block ha, hb⟩
  | done hv rest ih =>
    cases a with
    | nil => subst hc; exact ⟨_, _, .nil, .done hv rest⟩
    | cons s a =>
      cases hc
      obtain ⟨_, _, ha, hb⟩ := ih rfl
      exact ⟨_, _, .done hv ha, hb⟩
  | again hv round rest _ ih =>
    cases a with
    | nil => subst hc; exact ⟨_, _, .nil, .again hv round rest⟩
    | cons s a =>
      cases hc
      obtain ⟨_, _, ha, hb⟩ := ih (a := _ :: a) rfl
      exact ⟨_, _, .again hv round ha, hb⟩

/-- Plain statements are steps. -/
theorem runs_plain_iff (hss : ∀ s ∈ ss, s.isPlain = true) :
    Runs g R ss l st l' st' ↔ ss.foldlM (step g) l st = .ok l' st' := by
  induction ss generalizing l st with
  | nil =>
    rw [List.foldlM_nil, pure_ok_iff]
    constructor
    · rintro ⟨⟩
      exact ⟨rfl, rfl⟩
    · rintro ⟨rfl, rfl⟩
      exact .nil
  | cons s ss ih =>
    obtain ⟨hs, hss⟩ := List.forall_mem_cons.1 hss
    rw [List.foldlM_cons, bind_ok_iff]
    constructor
    · intro h
      cases h with
      | plain _ h rest => exact ⟨_, _, h, (ih hss).1 rest⟩
      | unsilence | call | when | ite | done | again => cases hs
    · rintro ⟨l₁, st₁, h, rest⟩
      exact .plain hs h ((ih hss).2 rest)

/-- A condition runs one of its blocks; a second block without statements may be left out. -/
theorem runs_cond_iff {test : Condition} {yes no : List Statement} {bare : Bool} (hno : bare = true → no = []) :
    Runs g R ((if bare then .when test yes else .ite test yes no) :: ss) l st l' st' ↔
      ∃ b l₁ st₁, test.test g l st = .ok b st ∧ Runs g R (if b then yes else no) l st l₁ st₁ ∧
        Runs g R ss l₁ st₁ l' st' := by
  cases bare with
  | true =>
    obtain rfl := hno rfl
    constructor
    · intro h
      cases h with
      | plain hs => cases hs
      | when h block rest => exact ⟨_, _, _, h, block, rest⟩
    · rintro ⟨b, l₁, st₁, h, block, rest⟩
      exact .when h block rest
  | false =>
    constructor
    · intro h
      cases h with
      | plain hs => cases hs
      | ite h block rest => exact ⟨_, _, _, h, block, rest⟩
    · rintro ⟨b, l₁, st₁, h, block, rest⟩
      exact .ite h block rest

end Statement

namespace RuleBody

open Statement (Runs)
open Code (Tidy)

variable {g : Surroundings} {p : Program Raw} {c : Context} {R : Nat → Act Nat}
  {R' : String → ParseState → Value → ParseState → Prop}

/-! ## Instructions without blocks -/

/-- Only the end of a silence becomes more than a step. -/
theorem Takes.plain_statements {i : Instr Raw} {s s' : StackKinds} {ss : List Statement} (h : Takes c i s ss s')
    (hi : i ≠ .unsilence) : ∀ x ∈ ss, x.isPlain = true := by
  cases h with
  | @produce i what s h room =>
    have plain : (Statement.set s.length what).isPlain = true := by cases i <;> cases h <;> rfl
    simpa using plain
  | @nip kind below s room => cases kind <;> simp [copied, Statement.isPlain]
  | @pluck n picks s hn values room =>
    have plain : (Statement.set (s.length - n) (pickedFrom (picks.map s.index))).isPlain = true := by
      cases picks with
      | nil => rfl
      | cons d ds => cases ds <;> rfl
    simpa using plain
  | unsilence => exact absurd rfl hi
  | _ => simp [Statement.isPlain]

/-- Its statements run from variables just where the machine steps from the stack that they hold. -/
theorem Takes.runs_iff (serves : g.Serves p c.constants) {i : Instr Raw} {kinds kinds' : StackKinds}
    {ss : List Statement} (h : Takes c i kinds ss kinds') (hi : i ≠ .unsilence) {l : Locals} {s : Stack}
    {st st' : ParseState} : step p i (l.stack kinds) st = .ok s st' ↔
      ∃ l', Runs g R' ss l st l' st' ∧ s = l'.stack kinds' := by
  rw [h.step_eq serves hi, bind_ok_iff]
  constructor
  · rintro ⟨l', st₁, hsteps, hs⟩
    obtain ⟨rfl, rfl⟩ := pure_ok_iff.1 hs
    exact ⟨l', (Statement.runs_plain_iff (h.plain_statements hi)).2 hsteps, rfl⟩
  · rintro ⟨l', hruns, rfl⟩
    exact ⟨l', st', (Statement.runs_plain_iff (h.plain_statements hi)).1 hruns, rfl⟩

/-- So does an instruction by itself. -/
theorem Walk.runs_of_step (serves : g.Serves p c.constants) {i : Instr Raw} {kinds kinds' : StackKinds}
    {ss : List Statement} (walk : Walk c [i] kinds ss kinds') (hi : i ≠ .unsilence) (plain : Machine.isPlain i = true)
    {l : Locals} {s : Stack} {st st' : ParseState} (h : step p i (l.stack kinds) st = .ok s st') :
    ∃ l', Runs g R' ss l st l' st' ∧ s = l'.stack kinds' := by
  cases walk with
  | plain takes after =>
    cases after
    rw [List.append_nil]
    exact (takes.runs_iff serves hi).1 h
  | rule | cond | whileOk => cases plain

/-- A block without code becomes no statements. -/
theorem Walk.statements_eq_nil {code : Code Raw} {kinds kinds' : StackKinds} {ss : List Statement}
    (h : Walk c code kinds ss kinds') (hcode : code.isEmpty = true) : ss = [] := by
  cases h with
  | nil => rfl
  | plain | rule | cond | whileOk => cases hcode

/-! ## Code -/

/-- Where tidy code runs, so do its statements. -/
theorem Walk.runs_of_exec (serves : g.Serves p c.constants)
    (silent : ∀ r st cs v st', R r st cs v st' → st'.silent = st.silent)
    (calls : ∀ r name, c.ruleName? r = some name → ∀ st cs v st', R r st cs v st' → R' name st v st')
    {code : Code Raw} {s s' : Stack} {st st' : ParseState} {cs : List (HostCall Nat)} (h : Exec p R code s st cs s' st')
    {n : Nat} (tidy : Tidy n code) (hn : n ≤ st.silent) {kinds kinds' : StackKinds} {ss : List Statement}
    (walk : Walk c code kinds ss kinds') {l : Locals} (hs : s = l.stack kinds) :
    ∃ l', Runs g R' ss l st l' st' ∧ s' = l'.stack kinds' := by
  -- the induction is on the execution; the walk of the code says which statements each part of it became
  induction h generalizing n kinds kinds' ss l with
  | nil =>
    cases walk
    exact ⟨l, .nil, hs⟩
  | @plain i code s s₁ s' st st₁ st' cs hi h _ ih =>
    subst hs
    obtain ⟨m, tidyRest, hm, -⟩ := tidy_of_step tidy hi hn h
    cases walk with
    | plain takes after =>
      -- the end of a silence is the one step that statements can refuse, and tidy code has begun one before
      by_cases hsilence : i = .unsilence
      · subst hsilence
        obtain ⟨rfl, rfl⟩ := takes_unsilence takes
        obtain ⟨rfl, rfl⟩ := pure_ok_iff.1 h
        obtain ⟨l', runs, rfl⟩ := ih tidyRest hm after rfl
        have begun : st.silent ≠ 0 := by
          cases tidy with
          | tame htame => cases htame
          | unsilence => omega
        exact ⟨l', .unsilence begun runs, rfl⟩
      · obtain ⟨l₁, first, rfl⟩ := (takes.runs_iff serves hsilence).1 h
        obtain ⟨l', runs, rfl⟩ := ih tidyRest hm after rfl
        exact ⟨l', first.append runs, rfl⟩
    | rule | cond | whileOk => cases hi
  | @cond test yes no code s s₁ s' st st₁ st' b _ _ h block _ ihBlock ih =>
    subst hs
    cases walk with
    | plain takes => cases takes.isPlain
    | @cond _ _ _ _ test' _ kinds₁ _ yes' no' rest tests hyes hno after =>
      obtain ⟨tidyRest, tidyBlock⟩ := tidy_of_cond tidy b
      have walkBlock : Walk c (if b then yes else no) kinds (if b then yes' else no') kinds₁ := by cases b <;> assumption
      -- a block is tidy by itself, or it is the single instruction that takes what the test has found
      have inBlock : st₁.silent = st.silent ∧ ∃ l₁, Runs g R' (if b then yes' else no') l st l₁ st₁ ∧ s₁ = l₁.stack kinds₁ := by
        rcases tidyBlock with tidyBlock | ⟨literal, -, -, hb⟩
        · exact ⟨exec_silent silent block tidyBlock (Nat.zero_le _), ihBlock tidyBlock (Nat.zero_le _) walkBlock rfl⟩
        · rw [hb] at block walkBlock
          obtain ⟨s₂, st₂, cs₂, h, done, -⟩ := (exec_plain_iff rfl).1 block
          obtain ⟨-, rfl, rfl⟩ := exec_nil_iff.1 done
          exact ⟨step_silent h nofun nofun, walkBlock.runs_of_step serves nofun rfl h⟩
      obtain ⟨same, l₁, runsBlock, rfl⟩ := inBlock
      obtain ⟨l', runs, rfl⟩ := ih tidyRest (by rw [same]; exact hn) after rfl
      rw [tests.check_eq serves] at h
      exact ⟨l', (Statement.runs_cond_iff hno.statements_eq_nil).2 ⟨b, l₁, st₁, h, runsBlock, runs⟩, rfl⟩
  | @done body code s s' st st' v _ h hv _ ih =>
    subst hs
    cases walk with
    | plain takes => cases takes.isPlain
    | whileOk kind _ after =>
      rw [Locals.value_stack kind] at h
      cases h
      obtain ⟨l', runs, rfl⟩ := ih (tidy_of_while tidy).2 hn after rfl
      exact ⟨l', .done hv runs, rfl⟩
  | @again body code s s₁ s' st st₁ st' v _ _ h hv round _ ihRound ih =>
    subst hs
    cases walk with
    | plain takes => cases takes.isPlain
    | whileOk kind walkBody after =>
      rw [Locals.value_stack kind] at h
      cases h
      have same := exec_silent silent round (tidy_of_while tidy).1 (Nat.zero_le _)
      obtain ⟨l₁, runsRound, rfl⟩ := ihRound (tidy_of_while tidy).1 (Nat.zero_le _) walkBody rfl
      obtain ⟨l', runs, rfl⟩ := ih tidy (by omega) (.whileOk kind walkBody after) rfl
      exact ⟨l', .again hv runsRound runs, rfl⟩
  | @rule r code s s' st st₁ st' v _ _ h _ ih =>
    subst hs
    cases walk with
    | plain takes => cases takes.isPlain
    | rule hname room after =>
      have same := silent _ _ _ _ _ h
      obtain ⟨l', runs, rfl⟩ := ih (tidy_of_rule tidy) (by omega) after (l.stack_push_value kinds v).symm
      exact ⟨l', .call (calls _ _ hname _ _ _ _ h) runs, rfl⟩

/-- Where statements run, so does the code. -/
theorem Walk.exec_of_runs (serves : g.Serves p c.constants)
    (calls : ∀ r name, c.ruleName? r = some name → ∀ st v st', R' name st v st' → ∃ cs, R r st cs v st')
    {code : Code Raw} {kinds kinds' : StackKinds} {ss : List Statement} (walk : Walk c code kinds ss kinds')
    {l l' : Locals} {st st' : ParseState} (h : Runs g R' ss l st l' st') :
    ∃ cs, Exec p R code (l.stack kinds) st cs (l'.stack kinds') st' := by
  induction walk generalizing l l' st st' with
  | nil =>
    cases h
    exact ⟨[], .nil⟩
  | @plain i code kinds kinds₁ kinds' first rest takes _ ih =>
    obtain ⟨l₁, st₁, runsFirst, runs⟩ := Statement.runs_append_iff.1 h
    obtain ⟨cs, exec⟩ := ih runs
    by_cases hsilence : i = .unsilence
    · subst hsilence
      obtain ⟨rfl, rfl⟩ := takes_unsilence takes
      cases runsFirst with
      | plain hs => cases hs
      | unsilence _ done =>
        cases done
        exact ⟨_, .plain rfl rfl exec⟩
    · exact ⟨_, .plain takes.isPlain ((takes.runs_iff serves hsilence).2 ⟨l₁, runsFirst, rfl⟩) exec⟩
  | @rule r name code kinds kinds' rest hname room _ ih =>
    cases h with
    | plain hs => cases hs
    | @call _ _ _ _ _ _ st₁ _ v h runs =>
      obtain ⟨cs₁, called⟩ := calls r name hname _ _ _ h
      obtain ⟨cs₂, exec⟩ := ih runs
      rw [l.stack_push_value] at exec
      exact ⟨_, .rule called exec⟩
  | @cond test yes no code test' kinds kinds₁ kinds' yes' no' rest tests _ hno _ ihYes ihNo ih =>
    obtain ⟨b, l₁, st₁, htest, runsBlock, runs⟩ := (Statement.runs_cond_iff hno.statements_eq_nil).1 h
    have block : ∃ cs, Exec p R (if b then yes else no) (l.stack kinds) st cs (l₁.stack kinds₁) st₁ := by
      cases b
      · exact ihNo runsBlock
      · exact ihYes runsBlock
    obtain ⟨cs₁, block⟩ := block
    obtain ⟨cs₂, exec⟩ := ih runs
    exact ⟨_, .cond (by rw [tests.check_eq serves]; exact htest) block exec⟩
  | @whileOk body code kinds kinds' body' rest kind _ _ ihBody ih =>
    -- the induction on the walk does not count the rounds, the one on the run of the loop does
    generalize hss : (Statement.whileOk (kinds.index 0) body' :: rest) = ss at h
    induction h with
    | done hv runs =>
      cases hss
      obtain ⟨cs, exec⟩ := ih runs
      exact ⟨_, .done (Locals.value_stack kind) hv exec⟩
    | again hv round _ _ ihRest =>
      cases hss
      obtain ⟨cs₁, execRound⟩ := ihBody round
      obtain ⟨cs₂, exec⟩ := ihRest rfl
      exact ⟨_, .again (Locals.value_stack kind) hv execRound exec⟩
    | plain hs =>
      cases hss
      cases hs
    | nil | unsilence | call | when | ite => cases hss

end RuleBody

end PegCompiler
