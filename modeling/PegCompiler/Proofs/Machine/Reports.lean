/-
The reports of a run. They come in pairs: a rule that is called is entered and left, and what the rules that it calls
tell stands between. `Narrates` follows a run from one point to another of the same rule, so that no call on the way is
passed over; what it tells is what a run adds to the reports (`ruleExec_recounts`), in the depth that the log shows
(`Narrates.log`), and its offsets may be looked up in any index of the text (`Narrates.lookUps`).
-/
import PegCompiler.Proofs.Machine.Tidy
import PegCompiler.Proofs.Text.LineIndex

namespace PegCompiler

/-- The location from one offset of a text to another by counting, in 32 bits. -/
def Location.counted (text : String) (source : Option String) (start stop : Nat) : Location :=
  ⟨source, (Position.counted text start).inWords, (Position.counted text stop).inWords⟩

namespace TraceEvent

/-- The report that a rule was entered at an offset of a text. -/
def entering (text : String) (source : Option String) (rule : String) (start : Nat) : TraceEvent :=
  ⟨.enter, rule, .counted text source start start, false⟩

/-- The report that a rule was left with a result: a match goes on to where it was left, a failure is where the rule
was entered. -/
def leaving (text : String) (source : Option String) (rule : String) (start stop : Nat) (v : Value) (cached : Bool) :
    TraceEvent :=
  if v.isFailed then ⟨.failed, rule, .counted text source start start, cached⟩
  else ⟨.matched, rule, .counted text source start stop, cached⟩

/-- The offsets that are looked up to locate reports, one after the other. -/
def lookUps (es : List TraceEvent) : List Nat := es.flatMap fun e => [e.location.start.offset, e.location.stop.offset]

/-- The positions of reports, one after the other. -/
def positions (es : List TraceEvent) : List Position := es.flatMap fun e => [e.location.start, e.location.stop]

theorem leaving_kind (text : String) (source : Option String) (rule : String) (start stop : Nat) (v : Value)
    (cached : Bool) : (leaving text source rule start stop v cached).kind ≠ .enter := by
  unfold leaving
  split <;> nofun

end TraceEvent

namespace Machine

open TraceEvent
open Code (Tidy)

variable {ν : Naming} {p : Program ν} {text : String} {source : Option String} {st st₁ st' : ParseState}
  {i : Instr ν} {s s' : Stack}

/-! ## What is added to the reports -/

/-- From one state to another these reports are added. -/
structure Appends (es : List TraceEvent) (st st' : ParseState) : Prop where
  source : st'.source = st.source
  tracing : st'.tracing = st.tracing
  events : st'.events = st.events ++ es

namespace Appends

variable {es es' : List TraceEvent}

theorem of_same (hsource : st'.source = st.source) (htrace : st'.trace = st.trace) : Appends [] st st' :=
  ⟨hsource, by unfold ParseState.tracing; rw [htrace], by unfold ParseState.events; rw [htrace, List.append_nil]⟩

theorem refl (st : ParseState) : Appends [] st st := of_same rfl rfl

theorem trans (h : Appends es st st₁) (h' : Appends es' st₁ st') : Appends (es ++ es') st st' :=
  ⟨h'.source.trans h.source, h'.tracing.trans h.tracing, by rw [h'.events, h.events, List.append_assoc]⟩

theorem report (kind : TraceKind) (rule : String) (start stop : Nat) (cached : Bool)
    (hinput : st.input = .ofString text) (hsource : st.source = source) (htracing : st.tracing = true) :
    Appends [⟨kind, rule, .counted text source start stop, cached⟩] st
      (st.report kind rule start stop cached) := by
  have position (offset : Nat) : st.input.position offset = (Position.counted text offset).inWords := by
    rw [hinput]
    exact Position.ofOffset_eq_counted text offset
  obtain ⟨trace, htrace⟩ := Option.isSome_iff_exists.1 htracing
  unfold ParseState.report ParseState.location
  rw [position, position, hsource]
  refine ⟨hsource.symm ▸ rfl, ?_, ?_⟩
  · simp [ParseState.tracing]
  · simp [ParseState.events, htrace, Location.counted]

end Appends

theorem reported_of_tracing (hp : p.trace = true) (htracing : st.tracing = true) (f : ParseState → ParseState) :
    reported p f st = f st := by
  unfold reported
  rw [hp, htracing]
  rfl

theorem appends_enter (hp : p.trace = true) (hinput : st.input = .ofString text) (hsource : st.source = source)
    (htracing : st.tracing = true) (rule : String) (start : Nat) :
    Appends [entering text source rule start] st (reported p (·.reportEnter rule start) st) := by
  rw [reported_of_tracing hp htracing]
  exact .report .enter rule start start false hinput hsource htracing

theorem appends_exit (hp : p.trace = true) (hinput : st.input = .ofString text) (hsource : st.source = source)
    (htracing : st.tracing = true) (rule : String) (start : Nat) (v : Value) (cached : Bool) :
    Appends [leaving text source rule start st.pos v cached] st (reported p (·.reportExit rule start v cached) st) := by
  rw [reported_of_tracing hp htracing]
  unfold ParseState.reportExit leaving
  split
  · exact .report .failed rule start start cached hinput hsource htracing
  · exact .report .matched rule start st.pos cached hinput hsource htracing

/-- A rule that is called is entered and left: at once if its result is remembered, else around what its body adds. -/
theorem around_appends {r : Nat} {name : String} {body : Act (ν .function)} {cs : List (HostCall (ν .function))}
    {v : Value} (hp : p.trace = true) (hinput : st.input = .ofString text) (hsource : st.source = source)
    (htracing : st.tracing = true) (h : Around p r name body st cs v st') :
    (p.cache = true ∧ (∃ st₁, st.remembered? r = some (v, st₁)) ∧
      Appends [entering text source name st.pos, leaving text source name st.pos st'.pos v true] st st') ∨
    (if p.cache then (reported p (·.reportEnter name st.pos) st).remembered? r else none) = none ∧
      ∃ st₁, body (reported p (·.reportEnter name st.pos) st) cs v st₁ ∧
        ∀ es, st₁.input = .ofString text → Appends es (reported p (·.reportEnter name st.pos) st) st₁ →
          Appends (entering text source name st.pos :: es ++ [leaving text source name st.pos st'.pos v false]) st st' := by
  have enter := appends_enter hp hinput hsource htracing name st.pos
  have leave {es : List TraceEvent} {st₁ : ParseState} {cached : Bool} (hadds : Appends es st st₁)
      (hinput : st₁.input = .ofString text) (e : st' = reported p (·.reportExit name st.pos v cached) st₁) :
      Appends (es ++ [leaving text source name st.pos st'.pos v cached]) st st' := by
    have exit : Reports (·.reportExit name st.pos v cached) := reports_exit
    obtain ⟨trace, hstate⟩ := exit.reported p st₁
    -- reporting the exit moves nothing
    have pos : st'.pos = st₁.pos := by rw [e, hstate]
    rw [pos, e]
    exact hadds.trans
      (appends_exit hp hinput (hadds.source.trans hsource) (hadds.tracing.trans htracing) name st.pos v cached)
  unfold Around at h
  split at h
  · rename_i w st₁ hrecalled
    obtain ⟨-, rfl, e⟩ := h
    have entering : Reports (·.reportEnter name st.pos) := reports_enter
    obtain ⟨trace, hentered⟩ := entering.reported p st
    rw [hentered] at hrecalled enter
    split at hrecalled
    · rename_i hcache
      obtain ⟨entry, hentry, moved⟩ := Option.map_eq_some_iff.1 hrecalled
      obtain ⟨rfl, rfl⟩ := Prod.mk.inj moved
      have back : Appends [] { st with trace } { st with pos := entry.next, trace } := .of_same rfl rfl
      exact .inl ⟨hcache, ⟨_, Option.map_eq_some_iff.2 ⟨entry, hentry, rfl⟩⟩, leave (enter.trans back) hinput e⟩
    · cases hrecalled
  · rename_i hmiss
    obtain ⟨st₁, hbody, e⟩ := h
    refine .inr ⟨hmiss, st₁, hbody, fun es hinput adds => ?_⟩
    have remembered : Appends [] st₁ (if p.cache then st₁.remember r st.pos v else st₁) := by
      split <;> exact .of_same rfl rfl
    have input : (if p.cache then st₁.remember r st.pos v else st₁).input = .ofString text := by
      split <;> exact hinput
    simpa using leave ((enter.trans adds).trans remembered) input e

/-- A step tells nothing. -/
theorem step_appends (h : step p i s st = .ok s' st') : Appends [] st st' := by
  have same : st'.source = st.source ∧ st'.trace = st.trace := by
    cases i with
    | fail e =>
      simp only [step, bind_ok_iff, lift_ok_iff, modify_ok_iff, pure_ok_iff] at h
      obtain ⟨e', st₁, ⟨-, rfl⟩, -, st₂, rfl, -, rfl⟩ := h
      unfold ParseState.fail ParseState.recordFailure
      split
      · split
        · exact ⟨rfl, rfl⟩
        · split <;> exact ⟨rfl, rfl⟩
      · exact ⟨rfl, rfl⟩
    | defect why => cases h
    | _ =>
      simp only [step, bind_ok_iff, lift_ok_iff, modify_ok_iff, pure_ok_iff, get_ok_iff, change_ok_iff] at h
      grind [ParseState.acceptN, ParseState.accept, ParseState.acceptString, ParseState.acceptStringIc]
  exact .of_same same.1 same.2

/-! ## What a run tells -/

/-- The point after another one, where no rule is called. -/
def Within (p : Program ν) (x y : Point ν) : Prop := Next p x y ∧ ∀ r code, x.code ≠ .rule r :: code

/-- A run comes from one point to another and calls no rule on its way. -/
abbrev Quiet (p : Program ν) : Point ν → Point ν → Prop := Relation.ReflTransGen (Within p)

/-- A rule that is called in a state comes to an end, with boundaries of the text at both ends. -/
structure Bracket (p : Program ν) (text : String) (r : Nat) (rule : RuleCode ν) (st : ParseState) (v : Value)
    (st' : ParseState) : Prop where
  rule : p.rules.getD r none = some rule
  run : ∃ fuel, Machine.rule p fuel r st = .ok v st'
  start : Input.Boundary text st.pos
  stop : Input.Boundary text st'.pos

/-- What a run tells from a point to another of the same rule, each report with the number of rules that are under way
around its own. Every call is told by two reports, of the rule that is entered and of this rule that is left, both
from the offset where it is called; a match goes on to the offset where the rule left off. Between the two is what the
code of the rule tells, or nothing at all if the result was remembered. -/
inductive Narrates (p : Program ν) (text : String) (source : Option String) :
    (depth : Nat) → Point ν → List (TraceEvent × Nat) → Point ν → Prop
  | nothing {depth : Nat} {x y : Point ν} (h : Quiet p x y) : Narrates p text source depth x [] y
  | recalled {depth r r' : Nat} {rule : RuleCode ν} {code : Code ν} {s : Stack} {st st₁ st' : ParseState} {v : Value}
      {x y : Point ν} {more : List (TraceEvent × Nat)} (h : Quiet p x ⟨r, .rule r' :: code, s, st⟩)
      (hcall : Bracket p text r' rule st v st') (hcache : p.cache = true) (hresult : st.remembered? r' = some (v, st₁))
      (rest : Narrates p text source depth ⟨r, code, .value v :: s, st'⟩ more y) :
      Narrates p text source depth x ((entering text source rule.name st.pos, depth) ::
        (leaving text source rule.name st.pos st'.pos v true, depth) :: more) y
  | called {depth r r' : Nat} {rule : RuleCode ν} {code : Code ν} {s : Stack} {st st₁ st' : ParseState} {v : Value}
      {x y z : Point ν} {inner more : List (TraceEvent × Nat)} (h : Quiet p x ⟨r, .rule r' :: code, s, st⟩)
      (hcall : Bracket p text r' rule st v st') (henters : Enters p r' st z)
      (inside : Narrates p text source (depth + 1) z inner ⟨r', [], [.value v], st₁⟩)
      (rest : Narrates p text source depth ⟨r, code, .value v :: s, st'⟩ more y) :
      Narrates p text source depth x ((entering text source rule.name st.pos, depth) :: inner ++
        (leaving text source rule.name st.pos st'.pos v false, depth) :: more) y

namespace Narrates

variable {depth : Nat} {x y z : Point ν} {told more : List (TraceEvent × Nat)}

theorem of_quiet (hquiet : Quiet p x y) (h : Narrates p text source depth y told z) :
    Narrates p text source depth x told z := by
  cases h with
  | nothing h => exact .nothing (hquiet.trans h)
  | recalled h hcall hcache hresult rest => exact .recalled (hquiet.trans h) hcall hcache hresult rest
  | called h hcall henters inside rest => exact .called (hquiet.trans h) hcall henters inside rest

theorem append (h : Narrates p text source depth x told y) (h' : Narrates p text source depth y more z) :
    Narrates p text source depth x (told ++ more) z := by
  induction h with
  | nothing h => exact of_quiet h h'
  | recalled h hcall hcache hresult _ ih => exact .recalled h hcall hcache hresult (ih h')
  | called h hcall henters inside _ _ ih =>
    rw [List.append_assoc, List.cons_append]
    exact .called h hcall henters inside (ih h')

theorem comes (h : Narrates p text source depth x told y) : Comes p x y := by
  have comes_of_quiet {x y : Point ν} (h : Quiet p x y) : Comes p x y := h.lift id fun _ _ h => h.1
  induction h with
  | nothing h => exact comes_of_quiet h
  | recalled h hcall _ _ _ ih | called h hcall _ _ _ _ ih =>
    obtain ⟨fuel, hrun⟩ := hcall.run
    exact (comes_of_quiet h).trans (.head (.leave hrun) ih)

/-- The log shows every report in its depth, and goes on from the depth where it began. -/
theorem log (h : Narrates p text source depth x told y) (after : List TraceEvent) :
    logFrom depth (told.map (·.1) ++ after) = told.map (fun e => e.1.line e.2) ++ logFrom depth after := by
  have enter {depth : Nat} {rule : String} {start : Nat} {es : List TraceEvent} :
      logFrom depth (entering text source rule start :: es) =
        (entering text source rule start).line depth :: logFrom (depth + 1) es := rfl
  have leave {depth : Nat} {rule : String} {start stop : Nat} {v : Value} {cached : Bool} {es : List TraceEvent} :
      logFrom (depth + 1) (leaving text source rule start stop v cached :: es) =
        (leaving text source rule start stop v cached).line depth :: logFrom depth es := by
    rw [logFrom, if_neg (leaving_kind text source rule start stop v cached), Nat.add_sub_cancel]
  induction h generalizing after with
  | nothing => rfl
  | recalled _ _ _ _ _ ih =>
    simp only [List.map_cons, List.cons_append, enter, leave, ih]
  | called _ _ _ _ _ ihInside ih =>
    simp only [List.map_cons, List.map_append, List.cons_append, List.append_assoc, enter, leave, ihInside, ih]

/-- The locations that are told are of boundaries of the text. -/
theorem location (h : Narrates p text source depth x told y) : ∀ e ∈ told, ∃ start stop, Input.Boundary text start ∧
    Input.Boundary text stop ∧ e.1.location = .counted text source start stop := by
  have leave {rule : String} {start stop : Nat} {v : Value} {cached : Bool} (hstart : Input.Boundary text start)
      (hstop : Input.Boundary text stop) : ∃ start' stop', Input.Boundary text start' ∧ Input.Boundary text stop' ∧
        (leaving text source rule start stop v cached).location = .counted text source start' stop' := by
    unfold leaving
    split
    · exact ⟨start, start, hstart, hstart, rfl⟩
    · exact ⟨start, stop, hstart, hstop, rfl⟩
  induction h with
  | nothing => nofun
  | recalled _ hcall _ _ _ ih =>
    intro e he
    simp only [List.mem_cons] at he
    rcases he with rfl | rfl | he
    · exact ⟨_, _, hcall.start, hcall.start, rfl⟩
    · exact leave hcall.start hcall.stop
    · exact ih e he
  | called _ hcall _ _ _ ihInside ih =>
    intro e he
    simp only [List.mem_append, List.mem_cons] at he
    rcases he with (rfl | he) | rfl | he
    · exact ⟨_, _, hcall.start, hcall.start, rfl⟩
    · exact ihInside e he
    · exact leave hcall.start hcall.stop
    · exact ih e he

/-- Whatever an index of the text was asked before, it gives the positions that are told, and goes on as if it had not
been asked for them. -/
theorem lookUps (h : Narrates p text source depth x told y) {i : LineIndex} (hi : i.Knows text.toList) (more : List Nat) :
    i.findAll text.toList (lookUps (told.map (·.1)) ++ more) =
      positions (told.map (·.1)) ++ i.findAll text.toList more := by
  have found : (TraceEvent.lookUps (told.map (·.1))).map (Position.ofOffset text.toList) = positions (told.map (·.1)) := by
    unfold TraceEvent.lookUps positions
    rw [List.map_flatMap]
    refine List.flatMap_congr fun e he => ?_
    obtain ⟨e, mem, rfl⟩ := List.mem_map.1 he
    obtain ⟨start, stop, hstart, hstop, hlocation⟩ := h.location e mem
    rw [hlocation]
    simp only [Location.counted, Position.inWords, Position.counted_of_boundary hstart, Position.counted_of_boundary hstop,
      List.map_cons, List.map_nil, Position.ofOffset_eq_counted]
  rw [LineIndex.findAll_eq hi, List.map_append, found, LineIndex.findAll_eq hi]

end Narrates

/-! ## Runs -/

section Runs

variable {R : Nat → Act (ν .function)} {code : Code ν} {cs : List (HostCall (ν .function))} {v : Value} {depth : Nat}

/-- A run is at boundaries of the text, and someone listens. -/
structure Heard (p : Program ν) (text : String) (source : Option String) (x : Point ν) : Prop where
  keeping : Keeping p text (Aligned text) x
  source : x.state.source = source
  tracing : x.state.tracing = true

/-- What a run tells from a point to another is what is added to the reports. -/
def Recounts (p : Program ν) (text : String) (source : Option String) (depth : Nat) (x y : Point ν) : Prop :=
  ∃ told, Narrates p text source depth x told y ∧ Appends (told.map (·.1)) x.state y.state

namespace Recounts

variable {x y z : Point ν}

theorem refl (x : Point ν) : Recounts p text source depth x x := ⟨[], .nothing .refl, .refl _⟩

theorem of_next (hnext : Next p x y) (hcall : ∀ r code, x.code ≠ .rule r :: code) (hadds : Appends [] x.state y.state) :
    Recounts p text source depth x y := ⟨[], .nothing (.single ⟨hnext, hcall⟩), hadds⟩

theorem trans (h : Recounts p text source depth x y) (h' : Recounts p text source depth y z) :
    Recounts p text source depth x z := by
  obtain ⟨told, narrates, adds⟩ := h
  obtain ⟨more, narrates', adds'⟩ := h'
  exact ⟨told ++ more, narrates.append narrates', by rw [List.map_append]; exact adds.trans adds'⟩

end Recounts

section Rules

variable (hrules : ∀ r rule, p.rules.getD r none = some rule → Tidy 0 rule.code)

include hrules

theorem Heard.comes {x y : Point ν} (h : Heard p text source x) (hto : Recounts p text source depth x y) :
    Heard p text source y := by
  obtain ⟨told, narrates, adds⟩ := hto
  exact ⟨h.keeping.comes hrules narrates.comes, adds.source.trans h.source, adds.tracing.trans h.tracing⟩

/-- A block adds what it tells to the reports, if rules do. -/
theorem exec_recounts
    (hcalls : ∀ r r' code s st cs v st', Heard p text source ⟨r, .rule r' :: code, s, st⟩ → R r' st cs v st' →
      Recounts p text source depth ⟨r, .rule r' :: code, s, st⟩ ⟨r, code, .value v :: s, st'⟩)
    {r : Nat} {after : Code ν} (h : Exec p R code s st cs s' st') (hx : Heard p text source ⟨r, code ++ after, s, st⟩) :
    Recounts p text source depth ⟨r, code ++ after, s, st⟩ ⟨r, after, s', st'⟩ := by
  -- the code after the block differs inside of conditions and rounds
  induction h generalizing after with
  | nil => exact .refl _
  | @plain i code s s₁ s' st st₁ st' _ hi hstep _ ih =>
    have first : Recounts p text source depth ⟨r, i :: code ++ after, s, st⟩ ⟨r, code ++ after, s₁, st₁⟩ :=
      .of_next (.plain hi hstep) (fun r code e => by cases e; cases hi) (step_appends hstep)
    exact first.trans (ih (hx.comes hrules first))
  | @cond test yes no code s s₁ s' st st₁ st' b _ _ hcheck _ _ ihBlock ih =>
    have first : Recounts p text source depth ⟨r, .cond test yes no :: code ++ after, s, st⟩
        ⟨r, (if b then yes else no) ++ (code ++ after), s, st⟩ := .of_next (.cond hcheck) nofun (.refl st)
    have inBlock := ihBlock (hx.comes hrules first)
    exact first.trans (inBlock.trans (ih ((hx.comes hrules first).comes hrules inBlock)))
  | @done body code s s' st st' _ _ hs hv _ ih =>
    have first : Recounts p text source depth ⟨r, .whileOk body :: code ++ after, s, st⟩ ⟨r, code ++ after, s, st⟩ :=
      .of_next (.done hs hv) nofun (.refl st)
    exact first.trans (ih (hx.comes hrules first))
  | @again body code s s₁ s' st st₁ st' _ _ _ hs hv _ _ ihRound ih =>
    have first : Recounts p text source depth ⟨r, .whileOk body :: code ++ after, s, st⟩
        ⟨r, body ++ (.whileOk body :: code ++ after), s, st⟩ := .of_next (.again hs hv) nofun (.refl st)
    have round := ihRound (hx.comes hrules first)
    exact first.trans (round.trans (ih ((hx.comes hrules first).comes hrules round)))
  | rule hrule _ ih =>
    have first := hcalls r _ _ _ _ _ _ _ hx hrule
    exact first.trans (ih (hx.comes hrules first))

variable (htrace : p.trace = true)

include htrace

/-- So do rules. -/
theorem ruleExec_recounts (n : Nat) {r r' : Nat} (hx : Heard p text source ⟨r, .rule r' :: code, s, st⟩)
    (h : RuleExec p n r' st cs v st') :
    Recounts p text source depth ⟨r, .rule r' :: code, s, st⟩ ⟨r, code, .value v :: s, st'⟩ := by
  induction n generalizing depth r r' code s st cs v st' with
  | zero => exact h.elim
  | succ n ih =>
    obtain ⟨⟨-, placed, -⟩, hsource, htracing⟩ := hx
    obtain ⟨fuel, hrun⟩ := rule_ok_of_ruleExec (n + 1) r' st cs v st' h
    obtain ⟨rule, hrule, h⟩ := h
    have bracket : Bracket p text r' rule st v st' :=
      ⟨hrule, ⟨fuel, hrun⟩, placed.pos, (rule_placed hrules placed hrun).pos⟩
    rcases around_appends htrace placed.kept.input hsource htracing h with
      ⟨hcache, ⟨st₁, hresult⟩, adds⟩ | ⟨hmiss, st₁, hbody, around⟩
    · exact ⟨_, .recalled .refl bracket hcache hresult (.nothing .refl), adds⟩
    · have enters : Enters p r' st ⟨r', rule.code, [], reported p (·.reportEnter rule.name st.pos) st⟩ :=
        ⟨rule, hrule, hmiss, rfl⟩
      have enter := appends_enter htrace placed.kept.input hsource htracing rule.name st.pos
      have heard : Heard p text source ⟨r', rule.code ++ [], [], reported p (·.reportEnter rule.name st.pos) st⟩ := by
        rw [List.append_nil]
        exact ⟨enters.keeping (steady_aligned text) hrules placed, enter.source.trans hsource, enter.tracing.trans htracing⟩
      have body : Recounts p text source (depth + 1) _ ⟨r', [], [.value v], st₁⟩ :=
        exec_recounts hrules (fun _ _ _ _ _ _ _ _ hx h => ih hx h) hbody heard
      have input := (heard.comes hrules body).keeping.placed.kept.input
      rw [List.append_nil] at body
      obtain ⟨inner, narrates, adds⟩ := body
      refine ⟨_, .called .refl bracket enters narrates (.nothing .refl), ?_⟩
      simpa using around _ input adds

/-- A run of a rule from the start of a text tells what is among its reports then. -/
theorem rule_narrates {r fuel : Nat} (h : Machine.rule p fuel r (.start text source true) = .ok v st) :
    ∃ told, Narrates p text source 0 ⟨r, [.rule r], [], .start text source true⟩ told ⟨r, [], [.value v], st⟩ ∧
      st.events = told.map (·.1) := by
  obtain ⟨cs, n, hx⟩ := rule_ok_iff.1 ⟨fuel, h⟩
  have heard : Heard p text source ⟨r, [.rule r], [], .start text source true⟩ :=
    ⟨⟨.tidy (.tame rfl .nil) (Nat.zero_le _), aligned_start text source true, nofun⟩, rfl, rfl⟩
  have recounts : Recounts p text source 0 _ ⟨r, [], [.value v], st⟩ := ruleExec_recounts hrules htrace n heard hx
  obtain ⟨told, narrates, adds⟩ := recounts
  exact ⟨told, narrates, adds.events⟩

end Rules

end Runs

end Machine

end PegCompiler
