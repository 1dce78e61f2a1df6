/-
Parsers of accepted grammars, and how their runs end. Parsers are compiled with or without bypassing proxies. What
else a parser would call than the host code in its pool does not matter to its runs, so proofs may take it that there
is a function for all host code of the grammar.
-/
import Mathlib.Data.List.DropRight
import Mathlib.Data.List.Find
import PegCompiler.Proofs.Analysis.Progress
import PegCompiler.Proofs.Failures
import PegCompiler.Proofs.MatchResults

namespace PegCompiler

open Machine Analysis

/-! ## Compiling -/

/-- The parser of a grammar that the checks accept, made by these passes and by the generation of code. -/
def Parser.compiled (transform : List Pass) (g : Grammar) (o : CompileOptions) : Except CompileError Parser := do
  let s ← Session.advance ⟨.start g o, []⟩ .check
  match Diagnostics.check s.diagnostics with
  | .error why => throw (.rejected why)
  | .ok _ =>
    match (transform ++ [Pass.bytecode]).forM Pass.run s with
    | .ok _ s => (Parser.ofCompilation s.compilation).mapError CompileError.failed
    | .error why _ => throw (.failed why)

/-- The checks always run, and where they accept the grammar the passes follow. -/
theorem Parser.compiled_eq (transform : List Pass) (g : Grammar) (o : CompileOptions) : Parser.compiled transform g o =
    match Diagnostics.check (Session.checked g o).diagnostics with
    | .error why => throw (.rejected why)
    | .ok _ =>
      match (transform ++ [Pass.bytecode]).forM Pass.run (Session.checked g o) with
      | .ok _ s => (Parser.ofCompilation s.compilation).mapError CompileError.failed
      | .error why _ => throw (.failed why) := by
  unfold Parser.compiled
  rw [Session.advance_check]
  rfl

/-- All host code of the rules. -/
def Grammar.codes (g : Grammar) : List HostCode := g.liveExprs.flatMap Expr.codes

/-- The host code that bounds repetitions in them. -/
def Grammar.bounds (g : Grammar) : List HostCode := g.liveExprs.flatMap Expr.bounds

/-- Bypassing proxies adds no host code. -/
theorem Grammar.Bypasses.mem_codes {g g' : Grammar} (h : g.Bypasses g') (hg : g.removed = []) {code : HostCode}
    (hc : code ∈ g'.codes) : code ∈ g.codes := by
  obtain ⟨e, he, hc⟩ := List.mem_flatMap.1 hc
  obtain ⟨e₀, f, he₀, rfl⟩ := h.mem_liveExprs hg he
  rw [Expr.codes_mapRefs] at hc
  exact List.mem_flatMap.2 ⟨e₀, he₀, hc⟩

/-- A compilation of a grammar that is ready to be run. -/
structure Compilation.Ready (g : Grammar) (o : CompileOptions) (c : Compilation) : Prop where
  bypasses : g.Bypasses c.grammar
  /-- Rules that were removed are neither started from nor referred to. -/
  dropped : ∀ r ∈ c.grammar.removed, r ∉ c.startRules ∧ c.grammar.Unreferenced r
  options : c.options = o
  startRules : c.startRules = (Analysis.startRules g o.allowedStartRules).1
  complete : Matching.Complete c.grammar c.found
  coded : c.Coded
  /-- The pools hold no functions but for the host code of the rules. -/
  functions : ∀ f ∈ c.constants.functions.toList, ∃ code ∈ c.grammar.codes, f.code = code.val

theorem mem_namedStartRules {g : Grammar} {names : List String} {found : List RuleId} {r : RuleId}
    (hfound : ∀ r ∈ found, r ∈ g.liveIds) (h : r ∈ (namedStartRules g names found).1) : r ∈ g.liveIds := by
  induction names generalizing found with
  | nil => exact hfound r h
  | cons name names ih =>
    unfold namedStartRules at h
    split at h
    · rename_i r' hr'
      refine ih (fun t ht => ?_) h
      have named : r' ∈ g.liveIds := by
        unfold Grammar.ruleByName? at hr'
        obtain ⟨⟨t, rule⟩, hf, rfl⟩ := Option.map_eq_some_iff.1 hr'
        exact Grammar.mem_liveIds.2 ⟨rule, Grammar.mem_live.1 (List.mem_of_find?_eq_some hf)⟩
      split at ht
      · exact hfound t ht
      · rcases List.mem_append.1 ht with ht | ht
        · exact hfound t ht
        · exact List.mem_singleton.1 ht ▸ named
    · exact ih hfound h

/-- Parses start from rules that are there. -/
theorem mem_startRules {g : Grammar} {names : List String} {r : RuleId} (h : r ∈ (startRules g names).1) :
    r ∈ g.liveIds := by
  unfold startRules at h
  split at h
  · rename_i rules complaints heq
    split at heq
    · cases heq
      exact List.mem_of_mem_take h
    · split at heq
      · cases heq
        exact h
      · have := congrArg Prod.fst heq
        subst this
        exact mem_namedStartRules (fun _ h => (List.not_mem_nil h).elim) h

theorem namedStartRules_ne_nil {g : Grammar} {names : List String} {found : List RuleId}
    (h : found ≠ [] ∨ names ≠ []) (hfound : (namedStartRules g names found).2 = []) :
    (namedStartRules g names found).1 ≠ [] := by
  induction names generalizing found with
  | nil => exact h.resolve_right fun h => h rfl
  | cons name names ih =>
    unfold namedStartRules at hfound ⊢
    split
    · rename_i r hr
      rw [hr] at hfound
      refine ih (.inl ?_) hfound
      split
      · rename_i hcontains
        rintro rfl
        cases hcontains
      · simp
    · rename_i hnone
      rw [hnone] at hfound
      cases hfound

theorem startRules_ne_nil {g : Grammar} {names : List String} (h : (startRules g names).2 = []) :
    (startRules g names).1 ≠ [] := by
  unfold startRules at h ⊢
  split at h
  rename_i rules complaints heq
  obtain ⟨hcomplaints, hlive⟩ := List.append_eq_nil_iff.1 h
  show rules ≠ []
  have live : g.liveIds ≠ [] := by
    intro hnil
    have : g.live = [] := List.map_eq_nil_iff.1 hnil
    rw [this] at hlive
    cases hlive
  split at heq
  · cases heq
    cases hids : g.liveIds with
    | nil => exact absurd hids live
    | cons r rs => simp
  · rename_i hnames
    split at heq
    · cases heq
      exact live
    · have hfst := congrArg Prod.fst heq
      have hsnd := congrArg Prod.snd heq
      subst hfst hsnd
      refine namedStartRules_ne_nil (.inr ?_) hcomplaints
      rintro rfl
      exact hnames rfl

theorem namedStartRules_error {g : Grammar} {names : List String} {found : List RuleId} {d : Diagnostic}
    (hd : d ∈ (namedStartRules g names found).2) : d.severity = .error := by
  induction names generalizing found with
  | nil => cases hd
  | cons name names ih =>
    unfold namedStartRules at hd
    split at hd
    · exact ih hd
    · rcases List.mem_cons.1 hd with rfl | hd
      · rfl
      · exact ih hd

theorem startRules_error {g : Grammar} {names : List String} {d : Diagnostic} (hd : d ∈ (startRules g names).2) :
    d.severity = .error := by
  unfold startRules at hd
  split at hd
  rename_i rules complaints heq
  have found : ∀ d ∈ complaints, d.severity = .error := by
    have hsnd := congrArg Prod.snd heq
    subst hsnd
    split
    · nofun
    · split
      · nofun
      · exact fun d hd => namedStartRules_error hd
  rcases List.mem_append.1 hd with hd | hd
  · exact found d hd
  · split at hd
    · rw [List.mem_singleton.1 hd]
      rfl
    · cases hd

namespace Session

variable {g : Grammar} {o : CompileOptions}

theorem Accepted.startRules_ne_nil (h : Accepted g o) : (startRules g o.allowedStartRules).1 ≠ [] := by
  refine PegCompiler.startRules_ne_nil (List.eq_nil_iff_forall_not_mem.2 fun d hd => ?_)
  refine Diagnostics.check_ok_iff.1 h d ?_ (startRules_error hd)
  unfold checks
  simp only [List.append_assoc]
  exact List.mem_append_left _ hd

/-- The rules get their code, whatever is known about matching. -/
theorem Accepted.coded_of (h : Accepted g o) (hg : g.Built) (hres : g.Resolved) {s : Session}
    (bypasses : g.Bypasses s.compilation.grammar) (hlength : s.compilation.bytecode.length = g.rules.length)
    (hempty : s.compilation.constants = .empty) :
    ∃ k code, Pass.bytecode.run s = .ok ⟨⟩ (s.withCode k code) ∧ (s.withCode k code).compilation.Coded ∧
      ∀ f ∈ k.functions.toList, ∃ code ∈ s.compilation.grammar.codes, f.code = code.val := by
  have labels : ∀ r rule, s.compilation.grammar.live? r = some rule → labelsIn o.reservedWords [] rule.body = [] :=
    fun r rule hr => h.labels_of hg bypasses hr
  obtain ⟨s₂, hs₂⟩ := Working.compileRules_succeeds (s := s) (bypasses.resolved hres) labels
  obtain ⟨coded, k, code, rfl⟩ := Working.compileRules_ok (hlength.trans bypasses.length.symm) hs₂
  refine ⟨k, code, hs₂, coded, fun f hf => ?_⟩
  rcases Working.functions_compileEach _ hs₂ hf with hf | ⟨x, hx, e, he, code, hcode, same⟩
  · rw [hempty] at hf
    cases hf
  · exact ⟨code, List.mem_flatMap.2 ⟨e, List.mem_flatMap.2 ⟨x, hx, he⟩, hcode⟩, same⟩

/-- Then there is a parser. -/
theorem Accepted.compiled_ok (h : Accepted g o) {passes : List Pass} {s : Session}
    (hs : (passes ++ [Pass.bytecode]).forM Pass.run (checked g o) = .ok ⟨⟩ s)
    (hstart : s.compilation.startRules = (startRules g o.allowedStartRules).1) :
    Parser.compiled passes g o = .ok (s.compilation.parserWith []) := by
  have made : Parser.ofCompilation s.compilation = .ok (s.compilation.parserWith []) :=
    Compilation.ofCompilation_ok (hstart ▸ h.startRules_ne_nil)
  rw [Parser.compiled_eq, show Diagnostics.check (checked g o).diagnostics = .ok ⟨⟩ from h, hs]
  show (Parser.ofCompilation _).mapError _ = _
  rw [made]
  rfl

/-- Once proxies were dealt with, match results are found and rules compiled. -/
theorem Accepted.ready_of (h : Accepted g o) (hg : g.Built) (hres : g.Resolved) {s : Session}
    (prepared : s.Prepared g o) (hstart : s.compilation.startRules = (startRules g o.allowedStartRules).1)
    (hdropped : ∀ r ∈ s.compilation.grammar.removed,
      r ∉ s.compilation.startRules ∧ s.compilation.grammar.Unreferenced r) :
    ∃ s₁ s₂, Pass.matching.run s = .ok ⟨⟩ s₁ ∧ Pass.bytecode.run s₁ = .ok ⟨⟩ s₂ ∧ s₂.compilation.Ready g o ∧
      s₂.compilation.grammar = s.compilation.grammar := by
  obtain ⟨found, hfound, complete⟩ := prepared.matching hg.numbered hres
  obtain ⟨k, code, hcode, coded, functions⟩ :=
    h.coded_of hg hres (s := s.withFound found) prepared.bypasses prepared.bytecode prepared.constants
  exact ⟨_, _, hfound, hcode,
    ⟨prepared.bypasses, hdropped, prepared.options, hstart, complete, coded, functions⟩, rfl⟩

/-- The passes up to the code, after the checks and after these on proxies. -/
theorem Accepted.compiled_of (h : Accepted g o) (hg : g.Built) (hres : g.Resolved) {before : List Pass} {s : Session}
    (hs : before.forM Pass.run (checked g o) = .ok ⟨⟩ s) (prepared : s.Prepared g o)
    (hstart : s.compilation.startRules = (startRules g o.allowedStartRules).1)
    (hdropped : ∀ r ∈ s.compilation.grammar.removed,
      r ∉ s.compilation.startRules ∧ s.compilation.grammar.Unreferenced r) :
    ∃ c : Compilation, Parser.compiled (before ++ [.matching]) g o = .ok (c.parserWith []) ∧ c.Ready g o ∧
      c.grammar = s.compilation.grammar := by
  obtain ⟨s₁, s₂, h₁, h₂, ready, same⟩ := h.ready_of hg hres prepared hstart hdropped
  have passes : ((before ++ [Pass.matching]) ++ [Pass.bytecode]).forM Pass.run (checked g o) = .ok ⟨⟩ s₂ := by
    rw [List.append_assoc]
    exact forM_append_ok_iff.2 ⟨s, hs, bind_ok_iff.2 ⟨⟨⟩, _, h₁, bind_ok_iff.2 ⟨⟨⟩, _, h₂, rfl⟩⟩⟩
  exact ⟨_, h.compiled_ok passes ready.startRules, ready, same⟩

/-- After proxies were bypassed the rules that were removed are out of reach. -/
theorem dropped_of_proxies (hg : g.Built) {s : Session}
    (hgrammar : s.compilation.grammar = (g.removeProxies (startRules g o.allowedStartRules).1).1)
    (hstart : s.compilation.startRules = (startRules g o.allowedStartRules).1) :
    ∀ r ∈ s.compilation.grammar.removed, r ∉ s.compilation.startRules ∧ s.compilation.grammar.Unreferenced r := by
  intro r hr
  rw [hgrammar] at hr ⊢
  rw [hstart]
  exact Grammar.removed_removeProxies hg.removed hr

/-- The parser of an accepted grammar, in which proxies are bypassed. -/
theorem Accepted.compiled_bypassed (h : Accepted g o) (hg : g.Built) (hres : g.Resolved) :
    ∃ c : Compilation, Parser.compiled Stage.transform.passes g o = .ok (c.parserWith []) ∧ c.Ready g o ∧
      c.grammar = (g.removeProxies (startRules g o.allowedStartRules).1).1 := by
  obtain ⟨s, hs, prepared, hgrammar, hstart⟩ := proxies_ok g o
  have before : [Pass.proxies].forM Pass.run (checked g o) = .ok ⟨⟩ s := bind_ok_iff.2 ⟨⟨⟩, s, hs, rfl⟩
  obtain ⟨c, hc, ready, same⟩ := h.compiled_of hg hres before prepared hstart (dropped_of_proxies hg hgrammar hstart)
  exact ⟨c, hc, ready, same.trans hgrammar⟩

theorem Accepted.compiled (h : Accepted g o) (hg : g.Built) (hres : g.Resolved) :
    ∃ c : Compilation, Parser.compiled Stage.transform.passes g o = .ok (c.parserWith []) ∧ c.Ready g o := by
  obtain ⟨c, hc, ready, -⟩ := h.compiled_bypassed hg hres
  exact ⟨c, hc, ready⟩

/-- The parser of an accepted grammar, with all its proxies. -/
theorem Accepted.compiled_proxies (h : Accepted g o) (hg : g.Built) (hres : g.Resolved) :
    ∃ c : Compilation, Parser.compiled [.matching] g o = .ok (c.parserWith []) ∧ c.Ready g o ∧ c.grammar = g := by
  have prepared : (checked g o).Prepared g o := ⟨.refl g, rfl, rfl, List.length_map _, rfl⟩
  have none : ([] : List Pass).forM Pass.run (checked g o) = .ok ⟨⟩ (checked g o) := rfl
  refine h.compiled_of hg hres none prepared rfl fun r hr => ?_
  have hr : r ∈ g.removed := hr
  rw [hg.removed] at hr
  cases hr

end Session

/-! ## Host code -/

theorem Lines.trim_trim (s : String) : trim (trim s) = trim s := by
  have ends (cs : List Char) : trimEndChars cs = cs.rdropWhile Unicode.isBlank := rfl
  have chars (cs : List Char) : trimChars (trimChars cs) = trimChars cs := by
    unfold trimChars
    rw [ends, ends]
    -- what is left after the blanks at the end still begins as it did
    have start : (cs.dropWhile Unicode.isBlank).rdropWhile Unicode.isBlank <+: cs.dropWhile Unicode.isBlank :=
      List.rdropWhile_prefix _ _
    have kept : (((cs.dropWhile Unicode.isBlank).rdropWhile Unicode.isBlank).dropWhile Unicode.isBlank) =
        (cs.dropWhile Unicode.isBlank).rdropWhile Unicode.isBlank := by
      have whole := List.dropWhile_idempotent Unicode.isBlank cs
      cases hx : (cs.dropWhile Unicode.isBlank).rdropWhile Unicode.isBlank with
      | nil => rfl
      | cons c rest =>
        obtain ⟨more, hmore⟩ := start
        rw [hx] at hmore
        rw [← hmore, List.cons_append] at whole
        rw [List.dropWhile_cons_of_neg]
        intro hc
        rw [List.dropWhile_cons_of_pos hc] at whole
        have shorter := (List.dropWhile_sublist Unicode.isBlank (l := rest ++ more)).length_le
        rw [whole] at shorter
        rw [List.length_cons] at shorter
        omega
    rw [kept]
    exact List.rdropWhile_idempotent _ _
  unfold trim
  rw [String.toList_ofList, chars]

namespace Bindings

/-- The bindings with functions for this code too. -/
def covering (bs : Bindings) (codes : List HostCode) : Bindings :=
  bs ++ codes.map fun code => (key code.val, fun _ _ => .null)

variable {bs : Bindings} {codes : List HostCode}

theorem find?_covering_of_some {code : String} {f : HostFn} (h : bs.find? code = some f) :
    (bs.covering codes).find? code = some f := by
  unfold find? covering at *
  rw [List.lookup_append, h]
  rfl

/-- There is a function for all of this code. -/
def Bind (bs : Bindings) (codes : List HostCode) : Prop := ∀ code ∈ codes, ∃ f, bs.find? code.val = some f

theorem bind_covering (bs : Bindings) (codes : List HostCode) : (bs.covering codes).Bind codes := by
  intro code h
  unfold find? covering
  refine Option.isSome_iff_exists.1 (lookup_isSome_iff.2 ?_)
  rw [List.map_append, List.map_map]
  exact List.mem_append_right _ (List.mem_map_of_mem h)

/-- What is not bound yet gets functions that do not fail. -/
theorem NeverFail.covering (h : bs.NeverFail) : (bs.covering codes).NeverFail := by
  intro code f hf view args
  unfold find? Bindings.covering at hf
  rw [List.lookup_append] at hf
  cases hb : bs.lookup (key code) with
  | some f' =>
    rw [hb] at hf
    cases hf
    exact h code f hb view args
  | none =>
    rw [hb] at hf
    obtain ⟨l₁, l₂, hl, -⟩ := List.lookup_eq_some_iff.1 hf
    have mem : (key code, f) ∈ codes.map fun code : HostCode => (key code.val, fun _ _ => Value.null) :=
      hl ▸ List.mem_append_right _ List.mem_cons_self
    obtain ⟨_, -, e⟩ := List.mem_map.1 mem
    rw [← (Prod.mk.inj e).2]
    rfl

theorem find?_key (bs : Bindings) (code : String) : bs.find? (key code) = bs.find? code := by
  unfold find? key
  rw [Lines.trim_trim]

end Bindings

namespace Compilation

variable {c : Compilation} {bs : Bindings}

/-- Nothing is unbound where there is a function for all host code in the pool. -/
theorem unbound?_eq_none_iff :
    (c.parserWith bs).unbound? = none ↔ ∀ f ∈ c.constants.functions.toList, ∃ host, bs.find? f.code = some host := by
  unfold Parser.unbound? Parser.functions
  rw [Option.map_eq_none_iff, List.find?_eq_none]
  constructor
  · intro h f hf
    have found := h _ (List.mem_map_of_mem hf)
    rw [Bool.not_eq_true, Option.isNone_eq_false_iff] at found
    rw [← bs.find?_key]
    exact Option.isSome_iff_exists.1 found
  · intro h x hx
    obtain ⟨f, hf, rfl⟩ := List.mem_map.1 hx
    obtain ⟨host, hhost⟩ := h f hf
    show ¬ (bs.find? (Bindings.key f.code)).isNone = true
    rw [bs.find?_key, hhost]
    exact Bool.false_ne_true

/-- Calls by number are calls of what is bound to the code in the pool. -/
theorem function_parserWith (c : Compilation) (bs : Bindings) (i : Nat) : (c.parserWith bs).function i =
    match c.constants.functions.get? i with
    | none => .error (.unknownFunction i)
    | some f => bs.function f := by
  unfold Parser.function Parser.constant Bindings.function
  rw [show (c.parserWith bs).constants = c.constants from rfl, show (c.parserWith bs).bindings = bs from rfl]
  cases c.constants.functions.get? i with
  | none => rfl
  | some f =>
    simp only [bind, Except.bind]
    cases bs.find? f.code <;> rfl

/-- With functions for all host code, what the parser runs is the same where it could be run before. -/
theorem program_covering (h : (c.parserWith bs).unbound? = none) (codes : List HostCode) :
    (c.parserWith (bs.covering codes)).program = (c.parserWith bs).program := by
  have same (i : Nat) : (c.parserWith (bs.covering codes)).function i = (c.parserWith bs).function i := by
    rw [function_parserWith, function_parserWith]
    cases hi : c.constants.functions.get? i with
    | none => rfl
    | some f =>
      have mem : f ∈ c.constants.functions.toList :=
        List.mem_iff_getElem?.2 ⟨i, Array.getElem?_toList.trans hi⟩
      obtain ⟨host, hhost⟩ := unbound?_eq_none_iff.1 h f mem
      show (bs.covering codes).function f = bs.function f
      unfold Bindings.function
      rw [hhost, Bindings.find?_covering_of_some hhost]
  unfold Parser.program
  congr 1
  exact funext same

theorem function_of_bind (hbs : bs.Bind c.grammar.codes) {r : RuleId} {rule : Rule} (hr : c.grammar.live? r = some rule)
    {e : Expr} (he : e ∈ rule.body.preorder) {code : HostCode} (hc : code ∈ e.codes) (kind : FunctionKind)
    (names : List String) : ∃ f, (c.setting bs).function ⟨kind, names, code.val, code.span⟩ = .ok f := by
  have mem : code ∈ c.grammar.codes :=
    List.mem_flatMap.2 ⟨e, List.mem_flatMap.2 ⟨(r, rule), Grammar.mem_live.2 hr, he⟩, hc⟩
  obtain ⟨f, hf⟩ := hbs code mem
  refine ⟨(kind, f), ?_⟩
  show Bindings.function _ _ = _
  unfold Bindings.function
  rw [hf]

/-- Nothing is unbound where all host code of the rules is bound, and the pools hold no other. -/
theorem unbound?_eq_none_of_functions
    (hfunctions : ∀ f ∈ c.constants.functions.toList, ∃ code ∈ c.grammar.codes, f.code = code.val)
    (hbs : bs.Bind c.grammar.codes) : (c.parserWith bs).unbound? = none := by
  rw [unbound?_eq_none_iff]
  intro f hf
  obtain ⟨code, hcode, e⟩ := hfunctions f hf
  rw [e]
  exact hbs code hcode

/-- A parse that names its start rule looks for it among the start rules. -/
theorem entry_parserWith (c : Compilation) (bs : Bindings) {po : ParseOptions} {name : String}
    (hname : po.startRule = some name) : (c.parserWith bs).entry po =
    match c.startRules.find? fun r => (c.parserWith bs).ruleName? r == some name with
    | some r => .ok r
    | none => .error (.unknownStartRule name po.source) := by
  unfold Parser.entry
  rw [hname]
  rfl

end Compilation

/-! ## Runs -/

namespace Parser

/-- With enough fuel, and however much more there is, the run ends like that. -/
def Ends (p : Parser) (text : String) (o : ParseOptions) (result : Except RunError Value) (st : ParseState) : Prop :=
  ∃ least, ∀ fuel, least ≤ fuel → p.runWithin fuel text o = (result, st)

variable {p : Parser} {text : String} {o : ParseOptions}

/-- A run ends in one way only. -/
theorem Ends.definite {result result' : Except RunError Value} {st st' : ParseState} (h : p.Ends text o result st)
    (h' : p.Ends text o result' st') : result = result' ∧ st = st' := by
  obtain ⟨n, h⟩ := h
  obtain ⟨m, h'⟩ := h'
  have e := (h (max n m) (Nat.le_max_left ..)).symm.trans (h' _ (Nat.le_max_right ..))
  exact ⟨congrArg Prod.fst e, congrArg Prod.snd e⟩

theorem ends_unbound {code : String} (h : p.unbound? = some code) :
    p.Ends text o (.error (.fault (.unbound code))) (.start text o.source o.tracing) := by
  refine ⟨0, fun fuel _ => ?_⟩
  unfold runWithin
  rw [h]

theorem ends_rejected (h : p.unbound? = none) {why : ParseError} (he : p.entry o = .error why) :
    p.Ends text o (.error (.rejected why)) (.start text o.source o.tracing) := by
  refine ⟨0, fun fuel _ => ?_⟩
  unfold runWithin
  rw [h, he]

/-- A run ends with a value where the run of the start rule does. -/
theorem runWithin_ok_iff (h : p.unbound? = none) {r : RuleId} (he : p.entry o = .ok r) {fuel : Nat} {v : Value}
    {st : ParseState} : p.runWithin fuel text o = (.ok v, st) ↔
      Machine.rule p.program fuel r (.start text o.source o.tracing) = .ok v st := by
  unfold runWithin
  simp only [h, he]
  cases Machine.rule p.program fuel r (.start text o.source o.tracing) with
  | ok v' st' => simp
  | error why st' => simp

/-- A parse starts from one of the start rules. -/
theorem entry_mem (hp : p.startRules ≠ []) {r : RuleId}
    (h : p.entry o = .ok r) : r ∈ p.startRules := by
  unfold entry at h
  split at h
  · cases h
    cases hs : p.startRules with
    | nil => exact absurd hs hp
    | cons r rs => exact List.mem_cons_self
  · split at h
    · rename_i hf
      cases h
      exact List.mem_of_find?_eq_some hf
    · cases h

/-- Where the run of the start rule ends, so does the run. -/
theorem ends_of_ruleRuns (h : p.unbound? = none) {r : RuleId} (he : p.entry o = .ok r)
    {cs : List (HostCall Nat)} {v : Value} {st : ParseState}
    (hr : RuleRuns p.program r (.start text o.source o.tracing) cs v st) : p.Ends text o (.ok v) st := by
  obtain ⟨least, hleast⟩ : ∃ fuel, Machine.rule p.program fuel r (.start text o.source o.tracing) = .ok v st :=
    rule_ok_iff.2 ⟨cs, hr⟩
  exact ⟨least, fun fuel hfuel => (runWithin_ok_iff h he).2 (rule_ok_of_le hfuel hleast)⟩

/-- A run that ends with a value is one of the start rule. -/
theorem Ends.ruleRuns {v : Value} {st : ParseState} (h : p.Ends text o (.ok v) st) :
    p.unbound? = none ∧ ∃ r cs, p.entry o = .ok r ∧
      RuleRuns p.program r (.start text o.source o.tracing) cs v st := by
  obtain ⟨least, h⟩ := h
  have h := h least (Nat.le_refl _)
  cases hu : p.unbound? with
  | some code => unfold runWithin at h; rw [hu] at h; cases h
  | none =>
    cases he : p.entry o with
    | error why => unfold runWithin at h; rw [hu, he] at h; cases h
    | ok r =>
      obtain ⟨cs, hcs⟩ := rule_ok_iff.1 ⟨least, (runWithin_ok_iff hu he).1 h⟩
      exact ⟨rfl, r, cs, rfl, hcs⟩

/-- The answer of a parse depends on the place where it ends and on the failures that count. -/
theorem finish_congr {st st' : ParseState} (hinput : st.input = st'.input) (hsource : st.source = st'.source)
    (hpos : st.pos = st'.pos) (h : st.failures.Alike st'.failures) (result : Except RunError Value) :
    Parser.finish result st = Parser.finish result st' := by
  have error : ∀ {st st' : ParseState}, st.input = st'.input → st.source = st'.source →
      st.failures.Alike st'.failures → st.error = st'.error := by
    intro st st' hinput hsource h
    have hpos : st.maxFailPos = st'.maxFailPos := h.pos
    have arranged : ParseError.arrange st.expected.toList = ParseError.arrange st'.expected.toList :=
      ParseError.arrange_congr h.expected
    unfold ParseState.error ParseError.ofExpected ParseState.location
    rw [hinput, hsource, hpos, arranged]
  have recorded : (st.recordFailure st.pos .endOfInput).failures.Alike (st'.recordFailure st'.pos .endOfInput).failures := by
    rw [st.failures_recordFailure, st'.failures_recordFailure, hpos]
    exact h.record _ _
  cases result with
  | error why => rfl
  | ok v =>
    unfold Parser.finish ParseState.finish
    simp only
    by_cases hv : v.isFailed = true
    · rw [if_pos hv, if_pos hv, error hinput hsource h]
    · rw [if_neg hv, if_neg hv, hpos, hinput]
      split
      · rfl
      · have why := error
          (((st.recordFailure_input _ _).trans hinput).trans (st'.recordFailure_input _ _).symm)
          (((st.recordFailure_source _ _).trans hsource).trans (st'.recordFailure_source _ _).symm) recorded
        rw [hpos] at why
        rw [why]

end Parser

namespace Compilation.Ready

variable {g : Grammar} {o : CompileOptions} {c : Compilation}

/-- All host code of the parser is code of the grammar, so nothing is unbound where all of that is bound. -/
theorem unbound?_eq_none (h : c.Ready g o) (hg : g.removed = []) {bs : Bindings} (hbs : bs.Bind g.codes) :
    (c.parserWith bs).unbound? = none :=
  unbound?_eq_none_of_functions h.functions fun code hcode => hbs code (h.bypasses.mem_codes hg hcode)

/-- Start rules are rules of the grammar, which bypassing proxies leaves in place. -/
theorem start_live (h : c.Ready g o) {r : RuleId} (hr : r ∈ c.startRules) :
    ∃ rule f, g.rule? r = some rule ∧ c.grammar.live? r = some { rule with body := rule.body.mapRefs f } := by
  obtain ⟨rule, hrule⟩ := Grammar.mem_liveIds.1 (mem_startRules (h.startRules ▸ hr))
  obtain ⟨f, -, hrule'⟩ := h.bypasses.rule r rule (Grammar.rule?_of_live? hrule)
  refine ⟨rule, f, Grammar.rule?_of_live? hrule, ?_⟩
  unfold Grammar.live?
  rw [if_neg]
  · exact hrule'
  · intro removed
    exact (h.dropped r (List.contains_iff_mem.1 removed)).1 hr

/-- A parse starts from a start rule. -/
theorem entry_live (h : c.Ready g o) (haccepts : Session.Accepted g o) {bs : Bindings} {po : ParseOptions} {r : RuleId}
    (hr : (c.parserWith bs).entry po = .ok r) : r ∈ c.startRules ∧ ∃ rule, c.grammar.live? r = some rule := by
  have nonempty : c.startRules ≠ [] := by
    rw [h.startRules]
    exact haccepts.startRules_ne_nil
  have mem : r ∈ c.startRules := Parser.entry_mem (p := c.parserWith bs) nonempty hr
  obtain ⟨rule, f, -, hlive⟩ := h.start_live mem
  exact ⟨mem, _, hlive⟩

/-- Parses start from the same rule, whichever proxies were bypassed. -/
theorem entry_congr (h : c.Ready g o) {c' : Compilation} (h' : c'.Ready g o) (bs bs' : Bindings) (po : ParseOptions) :
    (c.parserWith bs).entry po = (c'.parserWith bs').entry po := by
  have same : c.startRules = c'.startRules := h.startRules.trans h'.startRules.symm
  have names : ∀ r ∈ c.startRules, (c.parserWith bs).ruleName? r = (c'.parserWith bs').ruleName? r := fun r hr => by
    obtain ⟨rule, f, hrule, hlive⟩ := h.start_live hr
    obtain ⟨rule', f', hrule', hlive'⟩ := h'.start_live (same ▸ hr)
    rw [hrule] at hrule'
    cases hrule'
    rw [ruleName?_parserWith, ruleName?_parserWith, hlive, hlive']
    rfl
  cases hname : po.startRule with
  | none =>
    unfold Parser.entry
    rw [hname]
    exact congrArg (fun rs : List RuleId => Except.ok (rs.headD 0)) same
  | some name =>
    have found : c.startRules.find? (fun r => (c.parserWith bs).ruleName? r == some name) =
        c'.startRules.find? (fun r => (c'.parserWith bs').ruleName? r == some name) := by
      rw [← same]
      exact List.find?_congr fun r hr => by rw [names r hr]
    rw [entry_parserWith c bs hname, entry_parserWith c' bs' hname, found]

end Compilation.Ready

end PegCompiler
