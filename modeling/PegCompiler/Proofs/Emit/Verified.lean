/-
Whatever code the rules may have: if source text can be written of it, then it is safe to run. The second walk along
the stack accepted it, so at every point that a run comes to there is a walk along the code that is left, from
kinds that fit the slots of the stack (`Tracked`). The first walk's steps keep this, and what they need is what the
machine would get stuck without. Only constants by number may be missing, which the walk does not look up.
-/
import PegCompiler.Proofs.Emit.Running
import PegCompiler.Proofs.Machine.Visits
import PegCompiler.Proofs.Writing

namespace PegCompiler

open Machine Analysis

/-! ## Faults of statements -/

/-- Looking up a constant ends in this fault. -/
def Surroundings.Lacks (g : Surroundings) (why : Fault) : Prop :=
  (∃ i, g.literal i = .error why) ∨ (∃ i, g.charClass i = .error why) ∨ ∃ i, g.expectation i = .error why

/-- Host code can be called, whatever its number. -/
def Surroundings.Answers (g : Surroundings) : Prop := ∀ kind f view args, ∃ v, g.call kind f view args = .ok v

section Faults

variable {g : Surroundings} {l : Locals} {st st' : ParseState} {why : Fault}

theorem Condition.test_error {cond : Condition} (h : cond.test g l st = .error why st') : g.Lacks why := by
  cases cond with
  | string i | stringIc i =>
    rcases bind_error_iff.1 h with h | ⟨text, st₁, -, h⟩
    · exact .inl ⟨i, (lift_error_iff.1 h).1⟩
    · cases h
  | charClass i =>
    rcases bind_error_iff.1 h with h | ⟨k, st₁, -, h⟩
    · exact .inr (.inl ⟨i, (lift_error_iff.1 h).1⟩)
    · cases h
  | _ => cases h

theorem Computation.value_error (answers : g.Answers) {what : Computation} (h : what.value g l st = .error why st') :
    g.Lacks why := by
  cases what with
  | acceptString i | acceptStringIc i =>
    rcases bind_error_iff.1 h with h | ⟨text, st₁, -, h⟩
    · exact .inl ⟨i, (lift_error_iff.1 h).1⟩
    · cases h
  | fail i =>
    rcases bind_error_iff.1 h with h | ⟨e, st₁, -, h⟩
    · exact .inr (.inr ⟨i, (lift_error_iff.1 h).1⟩)
    · cases h
  | call kind f args =>
    obtain ⟨v, hv⟩ := answers kind f (.of st) (args.map l.values)
    have h : (do return (← lift (g.call kind f (.of st) (args.map l.values)), l) : Run (Value × Locals)) st =
      .error why st' := h
    rw [hv] at h
    cases h
  | _ => cases h

theorem Statement.step_error (answers : g.Answers) {s : Statement} (h : s.step g l st = .error why st') :
    g.Lacks why := by
  cases s with
  | set i what =>
    rcases bind_error_iff.1 h with h | ⟨x, st₁, -, h⟩
    · exact Computation.value_error answers h
    · cases h
  | _ => cases h

theorem Statement.steps_error (answers : g.Answers) {ss : List Statement}
    (h : ss.foldlM (Statement.step g) l st = .error why st') : g.Lacks why := by
  induction ss generalizing l st with
  | nil => cases h
  | cons s ss ih =>
    rw [List.foldlM_cons] at h
    rcases bind_error_iff.1 h with h | ⟨l₁, st₁, -, h⟩
    · exact Statement.step_error answers h
    · exact ih h

end Faults

theorem RuleBody.Takes.length_le {c : RuleBody.Context} {i : Instr Raw} {s s' : StackKinds} {ss : List Statement}
    (h : Takes c i s ss s') (hs : s.length ≤ c.limit + 1) : s'.length ≤ c.limit + 1 := by
  cases h with
  | produce _ room | pushPos room => exact Nat.succ_le_succ room
  | nip room | text room => exact Nat.succ_le_succ room
  | wrap _ _ room | pluck _ _ room | call _ _ _ room =>
    rw [List.length_cons, List.length_drop]
    exact Nat.succ_le_succ room
  | pop | popPos | append => simp only [List.length_cons] at hs ⊢; omega
  | popN => rw [List.length_drop]; omega
  | loadSavedPos | updateSavedPos | silence | unsilence | mapPush | mapPop => exact hs

namespace Compilation

variable {c : Compilation} {bs : Bindings}

/-- What the statements of a rule depend on besides its code. -/
def bodyContext (c : Compilation) (r : RuleId) (rule : Rule) : RuleBody.Context :=
  { rule := rule.name, limit := (c.codeOf r).maxSlot, constants := c.constants
    ruleName? := fun i => c.grammar.live.lookup i |>.map (·.name) }

/-- The machine's constants and functions; one that is not there gives null. -/
def surroundings (c : Compilation) (bs : Bindings) : Surroundings where
  literal := (c.parserWith bs).program.literal
  charClass := (c.parserWith bs).program.charClass
  expectation := (c.parserWith bs).program.expectation
  call _ f view args :=
    match (c.parserWith bs).function f with
    | .ok (kind, host) => .ok (hostResult kind (host view args))
    | .error _ => .ok .null

theorem answers_surroundings (c : Compilation) (bs : Bindings) : (c.surroundings bs).Answers := by
  intro kind f view args
  unfold surroundings
  simp only
  split <;> exact ⟨_, rfl⟩

theorem function_eq {f : Nat} {function : HostFunction} {host : HostFn} (hf : c.constants.functions.get? f = some function)
    (hhost : bs.find? function.code = some host) : (c.parserWith bs).function f = .ok (function.kind, host) := by
  rw [function_parserWith, hf]
  show bs.function function = _
  unfold Bindings.function
  rw [hhost]

/-- There is a function for every number in the pool, where nothing is unbound. -/
theorem function_ok (h : (c.parserWith bs).unbound? = none) {f : Nat} {function : HostFunction}
    (hf : c.constants.functions.get? f = some function) : ∃ x, (c.parserWith bs).function f = .ok x := by
  have mem : function ∈ c.constants.functions.toList := List.mem_iff_getElem?.2 ⟨f, Array.getElem?_toList.trans hf⟩
  obtain ⟨host, hhost⟩ := unbound?_eq_none_iff.1 h function mem
  exact ⟨_, function_eq hf hhost⟩

theorem serves_surroundings (h : (c.parserWith bs).unbound? = none) (r : RuleId) (rule : Rule) :
    (c.surroundings bs).Serves (c.parserWith bs).program (c.bodyContext r rule).constants where
  literal := rfl
  charClass := rfl
  expectation := rfl
  call f function hf view args := by
    obtain ⟨⟨kind, host⟩, hx⟩ := function_ok h hf
    unfold surroundings
    simp only
    show _ = (do let x ← (c.parserWith bs).function f; return hostResult x.1 (x.2 view args))
    rw [hx]
    rfl

/-! ## Points that a run comes to -/

/-- Where a run is, the code that is left takes the stack as it is to a single value. -/
structure Tracked (c : Compilation) (x : Point Raw) (rule : Rule) (kinds : StackKinds) (l : Locals) : Prop where
  live : c.grammar.live? x.rule = some rule
  walk : ∃ ss, RuleBody.Walk (c.bodyContext x.rule rule) x.code kinds ss [.value]
  stack : x.stack = l.stack kinds
  room : kinds.length ≤ (c.codeOf x.rule).maxSlot + 1

/-- All rules have statements. -/
def Written (c : Compilation) : Prop := ∀ r rule, c.grammar.live? r = some rule → Source.Writable c.parts r rule

/-- A rule starts like that. -/
theorem Written.tracked_of_enters (written : c.Written) {r : RuleId} {st : ParseState} {x : Point Raw}
    (h : Enters (c.parserWith bs).program r st x) : ∃ rule kinds l, c.Tracked x rule kinds l := by
  obtain ⟨code, hcode, -, rfl⟩ := h
  have hcode : (Parser.rulesOf c).getD r none = some code := hcode
  rw [getD_rulesOf] at hcode
  obtain ⟨rule, hlive, rfl⟩ := Option.map_eq_some_iff.1 hcode
  obtain ⟨body, hbody⟩ := written r rule hlive
  exact ⟨rule, [], .fresh, hlive, ⟨_, RuleBody.walk_of_ofCode hbody⟩, rfl, by simp⟩

/-- What one step leads to is like that too. -/
theorem Written.tracked_of_next (written : c.Written) (bound : (c.parserWith bs).unbound? = none) {x y : Point Raw}
    {rule : Rule} {kinds : StackKinds} {l : Locals} (tracked : c.Tracked x rule kinds l)
    (h : Next (c.parserWith bs).program x y) : ∃ rule kinds l, c.Tracked y rule kinds l := by
  obtain ⟨r, code, s, st⟩ := x
  obtain rfl : s = l.stack kinds := tracked.stack
  obtain ⟨live, ⟨ss, walk⟩, -, room⟩ := tracked
  have serves := serves_surroundings bound r rule
  -- each step of the machine takes off the code what the walk has an entry for
  cases h with
  | @plain r i code s s' st st' hi h =>
    cases walk with
    | @plain _ _ _ kinds₁ _ first rest takes after =>
      by_cases hsilence : i = .unsilence
      · subst hsilence
        obtain ⟨-, rfl⟩ := RuleBody.takes_unsilence takes
        cases h
        exact ⟨rule, kinds₁, l, live, ⟨_, after⟩, rfl, room⟩
      · rw [takes.step_eq serves hsilence] at h
        obtain ⟨l', st₁, -, h⟩ := bind_ok_iff.1 h
        obtain ⟨rfl, rfl⟩ := pure_ok_iff.1 h
        exact ⟨rule, kinds₁, l', live, ⟨_, after⟩, rfl, takes.length_le room⟩
    | rule | cond | whileOk => cases hi
  | @cond r test yes no code s st b h =>
    cases walk with
    | plain takes => cases takes.isPlain
    | cond tests hyes hno after =>
      refine ⟨rule, kinds, l, live, ?_, rfl, room⟩
      cases b with
      | false => exact ⟨_, hno.append after⟩
      | true => exact ⟨_, hyes.append after⟩
  | done h hv =>
    cases walk with
    | plain takes => cases takes.isPlain
    | whileOk kind body after => exact ⟨rule, kinds, l, live, ⟨_, after⟩, rfl, room⟩
  | again h hv =>
    cases walk with
    | plain takes => cases takes.isPlain
    | whileOk kind body after => exact ⟨rule, kinds, l, live, ⟨_, body.append (.whileOk kind body after)⟩, rfl, room⟩
  | enter h => exact written.tracked_of_enters h
  | @leave r r' fuel code s st st' v h =>
    cases walk with
    | plain takes => cases takes.isPlain
    | rule hname hroom after =>
      exact ⟨rule, .value :: kinds, l.setValue kinds.length v, live, ⟨_, after⟩, (l.stack_push_value kinds v).symm,
        Nat.succ_le_succ hroom⟩

/-- Wherever a run comes to, the stack fits the code that is left. -/
theorem Written.tracked (written : c.Written) (bound : (c.parserWith bs).unbound? = none) {r : RuleId} {st : ParseState}
    {y : Point Raw} (h : Visits (c.parserWith bs).program r st y) : ∃ rule kinds l, c.Tracked y rule kinds l :=
  h.induction (P := fun y => ∃ rule kinds l, c.Tracked y rule kinds l) (fun _ _ _ h => written.tracked_of_enters h)
    fun _ _ ⟨_, _, _, tracked⟩ h => written.tracked_of_next bound tracked h

/-- Where the stack fits the code that is left, the machine is not stuck, unless a constant is missing. -/
theorem Tracked.lacks (bound : (c.parserWith bs).unbound? = none) {x : Point Raw} {rule : Rule} {kinds : StackKinds}
    {l : Locals} (tracked : c.Tracked x rule kinds l) {why : Fault} (h : Stuck (c.parserWith bs).program x why) :
    (c.surroundings bs).Lacks why := by
  obtain ⟨r, code, s, st⟩ := x
  obtain rfl : s = l.stack kinds := tracked.stack
  obtain ⟨live, ⟨ss, walk⟩, -, room⟩ := tracked
  have serves := serves_surroundings bound r rule
  -- the walk has looked at each place of the stack that an instruction needs, which leaves the constants
  cases h with
  | @plain r i code s st st' why hi h =>
    cases walk with
    | plain takes after =>
      by_cases hsilence : i = .unsilence
      · subst hsilence
        cases h
      · rw [takes.step_eq serves hsilence] at h
        rcases bind_error_iff.1 h with h | ⟨l', st₁, -, h⟩
        · exact Statement.steps_error (answers_surroundings c bs) h
        · cases h
    | rule | cond | whileOk => cases hi
  | cond h =>
    cases walk with
    | plain takes => cases takes.isPlain
    | cond tests hyes hno after =>
      rw [tests.check_eq serves] at h
      exact Condition.test_error h
  | whileOk h =>
    cases walk with
    | plain takes => cases takes.isPlain
    | whileOk kind body after =>
      rw [Locals.value_stack kind] at h
      cases h
  | @rule r r' code s st h =>
    cases walk with
    | plain takes => cases takes.isPlain
    | rule hname hroom after =>
      -- the rule has a name, so it is there
      obtain ⟨rule', hrule', -⟩ := Option.map_eq_some_iff.1 hname
      have live' := Grammar.mem_liveIds.1 (lookup_isSome_iff.1 (Option.isSome_of_eq_some hrule'))
      obtain ⟨_, hlive'⟩ := live'
      have h : (Parser.rulesOf c).getD r' none = none := h
      rw [getD_rulesOf, hlive'] at h
      cases h
  | @result r code s st hcode h =>
    cases walk with
    | nil => exact absurd rfl (h (l.values 0))

end Compilation

/-! ## Parsers with any code -/

/-- A fault about a number that no constant has. -/
inductive Fault.OutOfRange (k : Constants) : Fault → Prop
  | literal {i : Nat} (h : k.literals.get? i = none) : OutOfRange k (.unknownLiteral i)
  | charClass {i : Nat} (h : k.classes.get? i = none) : OutOfRange k (.unknownClass i)
  | expectation {i : Nat} (h : k.expectations.get? i = none) : OutOfRange k (.unknownExpectation i)

theorem Parser.constant_error {α : Type} {pool : Pool α} {fault : Nat → Fault} {i : Nat} {why : Fault}
    (h : Parser.constant pool fault i = .error why) : pool.get? i = none ∧ why = fault i := by
  unfold Parser.constant at h
  split at h
  · cases h
  · rename_i hnone
    cases h
    exact ⟨hnone, rfl⟩

namespace Compilation

variable {c : Compilation} {bs : Bindings}

theorem outOfRange_of_lacks {why : Fault} (h : (c.surroundings bs).Lacks why) : why.OutOfRange c.constants := by
  rcases h with ⟨i, h⟩ | ⟨i, h⟩ | ⟨i, h⟩ <;> obtain ⟨hnone, rfl⟩ := Parser.constant_error h
  · exact .literal hnone
  · exact .charClass hnone
  · exact .expectation hnone

/-- A rule that is there faults over constants that are missing, or goes on. -/
theorem Written.rule_error (written : c.Written) (bound : (c.parserWith bs).unbound? = none) {r : RuleId} {rule : Rule}
    (hr : c.grammar.live? r = some rule) {fuel : Nat} {st st' : ParseState} {why : Fault}
    (h : Machine.rule (c.parserWith bs).program fuel r st = .error why st') :
    why = .outOfFuel ∨ why.OutOfRange c.constants := by
  by_cases hwhy : why = .outOfFuel
  · exact .inl hwhy
  · have known : (c.parserWith bs).program.rules.getD r none ≠ none := by
      show (Parser.rulesOf c).getD r none ≠ none
      rw [getD_rulesOf, hr]
      exact Option.some_ne_none _
    obtain ⟨y, visits, stuck⟩ := stuck_of_rule h hwhy known
    obtain ⟨_, _, _, tracked⟩ := written.tracked bound visits
    exact .inr (outOfRange_of_lacks (tracked.lacks bound stuck))

end Compilation

namespace Session

variable {g : Grammar} {o : CompileOptions} {s₁ : Session}

theorem forM_pair_ok {p q : Pass} {s s' : Session} (h : [p, q].forM Pass.run s = .ok ⟨⟩ s') :
    ∃ s₁, p.run s = .ok ⟨⟩ s₁ ∧ q.run s₁ = .ok ⟨⟩ s' := by
  have h : (p.run >>= fun _ => q.run >>= fun _ => pure PUnit.unit) s = .ok ⟨⟩ s' := h
  obtain ⟨u, s₁, hp, h⟩ := bind_ok_iff.1 h
  obtain ⟨u', s₂, hq, h⟩ := bind_ok_iff.1 h
  obtain ⟨-, rfl⟩ := pure_ok_iff.1 h
  exact ⟨s₁, hp, hq⟩

/-- The grammar and its start rules, after proxies were bypassed. -/
theorem transform_ok (h : (checked g o).advance .transform = .ok s₁) :
    s₁.compilation.grammar = (g.removeProxies (startRules g o.allowedStartRules).1).1 ∧
      s₁.compilation.startRules = (startRules g o.allowedStartRules).1 := by
  unfold advance at h
  split at h
  · rename_i s hs
    cases h
    obtain ⟨s₂, hproxies, hmatching⟩ := forM_pair_ok hs
    cases hproxies
    have hmatching : Working.findMatches _ = .ok ⟨⟩ s₁ := hmatching
    unfold Working.findMatches at hmatching
    split at hmatching
    · cases hmatching
      exact ⟨rfl, rfl⟩
    · cases hmatching
  · cases h

/-- Start rules are still there. -/
theorem start_live_of_transform (hg : g.Built) (h : (checked g o).advance .transform = .ok s₁) {r : RuleId}
    (hr : r ∈ s₁.compilation.startRules) : ∃ rule, s₁.compilation.grammar.live? r = some rule := by
  obtain ⟨hgrammar, hstart⟩ := transform_ok h
  rw [hstart] at hr
  rw [hgrammar]
  obtain ⟨rule, hrule⟩ := Grammar.mem_liveIds.1 (mem_startRules hr)
  obtain ⟨f, -, hrule'⟩ := (Grammar.bypasses_removeProxies g (startRules g o.allowedStartRules).1).rule r rule
    (Grammar.rule?_of_live? hrule)
  refine ⟨{ rule with body := rule.body.mapRefs f }, ?_⟩
  unfold Grammar.live?
  rw [if_neg]
  · exact hrule'
  · intro removed
    exact (Grammar.removed_removeProxies hg.removed (List.contains_iff_mem.1 removed)).1 hr

end Session

/-- Rules may have any code, and the pools may hold anything: if source text can be written of them, then no run of the
parser faults but for a number without a constant, or has more slots on a stack than its rule says. -/
theorem parser_is_safe_if_written {d : Draft} {g : Grammar} (hd : d.build? = .ok g) {o : CompileOptions}
    {s₀ s₁ s₂ : Session} (hchecks : Session.advance ⟨.start g o, []⟩ .check = .ok s₀)
    (htransform : s₀.advance .transform = .ok s₁) (bytecode : List Bytecode) (constants : Constants)
    (hsource : Pass.source.run { s₁ with compilation := { s₁.compilation with bytecode, constants } } = .ok ⟨⟩ s₂) :
    ∃ p, Parser.ofCompilation { s₁.compilation with bytecode, constants } = .ok p ∧
      ∀ (bs : Bindings) (text : String) (po : ParseOptions),
        (∀ fuel why st, { p with bindings := bs }.runWithin fuel text po = (.error (.fault why), st) →
          why = .outOfFuel ∨ (∃ code, { p with bindings := bs }.unbound? = some code ∧ why = .unbound code) ∨
            why.OutOfRange constants) ∧
        ∀ r y, { p with bindings := bs }.unbound? = none → { p with bindings := bs }.entry po = .ok r →
          Visits { p with bindings := bs }.program r (.start text po.source po.tracing) y →
            y.stack.length ≤ (bytecode.getD y.rule .empty).maxSlot + 1 := by
  rw [Session.advance_check] at hchecks
  cases hchecks
  have built := Draft.built hd
  generalize hc : ({ s₁.compilation with bytecode, constants } : Compilation) = c at hsource
  -- that the text was written is all that is known of the code
  have written : ∃ w, Source.write c.parts = .ok w := by
    have hsource : Pass.source.run ⟨c, s₁.diagnostics⟩ = .ok ⟨⟩ s₂ := hsource
    rw [Pass.run_source] at hsource
    cases hw : Source.write c.parts with
    | ok w => exact ⟨w, rfl⟩
    | error why =>
      simp only [hw] at hsource
      cases hsource
  obtain ⟨w, hw⟩ := written
  obtain ⟨hstart, written⟩ := Source.writable_of_write hw
  have written : c.Written := written
  have hstart : c.startRules ≠ [] := hstart
  have live : ∀ r ∈ c.startRules, ∃ rule, c.grammar.live? r = some rule := by
    subst hc
    exact fun r => Session.start_live_of_transform built htransform
  have made : Parser.ofCompilation c = .ok (c.parserWith []) := by
    unfold Parser.ofCompilation
    rw [if_neg fun hempty => hstart (List.isEmpty_iff.1 hempty)]
    rfl
  refine ⟨c.parserWith [], made, fun bs text po => ⟨fun fuel why st h => ?_, fun r y bound hentry visits => ?_⟩⟩
  · have h : (c.parserWith bs).runWithin fuel text po = (.error (.fault why), st) := h
    -- before the machine starts, host code may be missing, or the start rule may be refused
    cases hu : (c.parserWith bs).unbound? with
    | some code =>
      unfold Parser.runWithin at h
      rw [hu] at h
      cases h
      exact .inr (.inl ⟨code, hu, rfl⟩)
    | none =>
      cases he : (c.parserWith bs).entry po with
      | error why' =>
        unfold Parser.runWithin at h
        rw [hu, he] at h
        cases h
      | ok r =>
        obtain ⟨rule, hrule⟩ := live r (Parser.entry_mem hstart he)
        have failed : Machine.rule (c.parserWith bs).program fuel r (.start text po.source po.tracing) =
            .error why st := by
          unfold Parser.runWithin at h
          simp only [hu, he] at h
          split at h
          · cases h
          · rename_i hrun
            cases h
            exact hrun
        rcases written.rule_error hu hrule failed with h | h
        · exact .inl h
        · refine .inr (.inr ?_)
          subst hc
          exact h
  · obtain ⟨rule, kinds, l, tracked⟩ := written.tracked bound visits
    have room := tracked.room
    rw [tracked.stack, Locals.length_stack]
    subst hc
    exact room

/-- Code by hand: an empty array, a text by a number without a constant, which is appended. -/
def unknownText : List Bytecode := [⟨[3, 26, 7, 9], 1⟩]

/-- As code of `Sample.pair`, source text can be written of it; a parse never has more than two slots, and the missing
text is all that can go wrong. -/
theorem parser_is_safe_if_written_unknownText : ∃ g s₀ s₁ s₂, Sample.pair.draft.build? = .ok g ∧
    Session.advance ⟨.start g .default, []⟩ .check = .ok s₀ ∧ s₀.advance .transform = .ok s₁ ∧
    Pass.source.run { s₁ with compilation := { s₁.compilation with bytecode := unknownText, constants := .empty } } =
      .ok ⟨⟩ s₂ ∧
    ∃ p, Parser.ofCompilation { s₁.compilation with bytecode := unknownText, constants := .empty } = .ok p ∧
      ∀ text, (∀ fuel why st, p.runWithin fuel text default = (.error (.fault why), st) →
          why = .outOfFuel ∨ why.OutOfRange .empty) ∧
        ∀ y, Visits p.program 0 (.start text none false) y → y.stack.length ≤ (unknownText.getD y.rule .empty).maxSlot + 1 := by
  obtain ⟨g, hg⟩ : ∃ g, Sample.pair.draft.build? = .ok g := ⟨_, rfl⟩
  obtain ⟨s₁, hs₁⟩ : ∃ s₁, (Session.checked g .default).advance .transform = .ok s₁ := by
    cases hg
    exact ⟨_, rfl⟩
  have written : ∃ s₂, Pass.source.run
      { s₁ with compilation := { s₁.compilation with bytecode := unknownText, constants := .empty } } = .ok ⟨⟩ s₂ := by
    cases hg
    cases hs₁
    exact ⟨_, rfl⟩
  obtain ⟨s₂, hs₂⟩ := written
  obtain ⟨p, hp, safe⟩ := parser_is_safe_if_written hg (Session.advance_check g .default) hs₁ unknownText .empty hs₂
  have starts : p.unbound? = none ∧ p.entry default = .ok 0 := by
    cases hg
    cases hs₁
    cases hp
    exact ⟨rfl, rfl⟩
  obtain ⟨bound, hentry⟩ := starts
  refine ⟨g, _, s₁, s₂, hg, Session.advance_check g .default, hs₁, hs₂, p, hp, fun text => ?_⟩
  obtain ⟨faults, room⟩ := safe p.bindings text default
  refine ⟨fun fuel why st h => ?_, fun y visits => room 0 y bound hentry visits⟩
  rcases faults fuel why st h with h | ⟨code, hcode, -⟩ | h
  · exact .inl h
  · cases bound.symm.trans hcode
  · exact .inr h

end PegCompiler
