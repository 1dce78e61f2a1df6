/-
The parsers of the samples: the machine and the source text that is written, each with remembered results and without.
All four answer alike, and as the grammar tells; so what they answer is settled by what the grammar reads.
-/
import PegCompiler.Proofs.Answers
import PegCompiler.Proofs.Semantics.Reading

namespace PegCompiler

open Machine Semantics

/-! ## Languages -/

/-- Where the body of the start rule decides what a text is, the answer is the value of what it is, if it is anything. -/
theorem Semantics.World.Decides.ok_iff {α : Type} {w : World} {r : RuleId} {rule : Rule} {L : α → Prop} {value : α → Value}
    {a : Except ParseError Value} (h : w.Decides [] 0 rule.body L value) (hr : w.grammar.live? r = some rule)
    (ha : w.Answers r a) (v : Value) : a = .ok v ↔ ∃ x, L x ∧ v = value x := by
  constructor
  · rintro rfl
    cases ha with
    | accepted hv =>
      cases h with
      | found x left h hL =>
        obtain ⟨cs, saved, h⟩ := h 0
        cases hv.definite ⟨rule, hr, h⟩
        exact ⟨x, (hL x).2 ⟨left.eq_size_iff.1 rfl, rfl⟩, rfl⟩
      | failed h =>
        obtain ⟨cs, saved, h⟩ := h 0
        cases hv.definite ⟨rule, hr, h⟩
  · rintro ⟨y, hy, rfl⟩
    cases h with
    | found x left h hL =>
      obtain ⟨rfl, rfl⟩ := (hL y).1 hy
      obtain ⟨cs, saved, h⟩ := h 0
      rw [left.eq_size_iff.2 rfl] at h
      exact ha.definite (.accepted ⟨rule, hr, h⟩)
    | failed _ hL => exact absurd hy (hL y)

/-! ## Binding -/

/-- Functions that are bound to a parser one after the other. -/
theorem Parser.foldl_bind {f : Parser → String × HostFn → Parser} (hf : ∀ p b, f p b = p.bind b.1 b.2) (p : Parser)
    (bs : List (String × HostFn)) :
    bs.foldl f p = { p with bindings := bs.foldl (fun bound b => bound.bind b.1 b.2) p.bindings } := by
  induction bs generalizing p with
  | nil => rfl
  | cons b bs ih =>
    rw [List.foldl_cons, List.foldl_cons, ih, hf]
    rfl

namespace Sample

variable {x : Sample} {g : Grammar} {text : String} {a : Except ParseError Value}

/-- The functions of a sample as a parser has them. -/
def bound (x : Sample) : Bindings := x.bindings.foldl (fun bound b => bound.bind b.1 b.2) []

/-- The options that its source text is written with. -/
def sourceOptions (cache : Bool) : CompileOptions := { CompileOptions.default with output := .source, cache }

/-- The answer of a sample's parsers to a text, with remembered results or without. -/
structure Answers (x : Sample) (cache : Bool) (text : String) (a : Except ParseError Value) : Prop where
  machine : ∃ p, x.parser? cache = some p ∧ p.Answers text default a
  /-- Source text has it with all methods that do what the functions of the sample do, and there are some. -/
  written : ∃ g s q, x.draft.build? = .ok g ∧ Session.complete g (sourceOptions cache) = .ok s ∧
    Source.parser s.compilation.parts = .ok q ∧
    (∃ hosts : HostMethods, hosts.Implements s.compilation.constants x.bound) ∧
    ∀ hosts : HostMethods, hosts.Implements s.compilation.constants x.bound →
      ∀ a', q.Parses hosts text default a' ↔ a' = a

/-- All parsers of a sample have the same answer to a text: one of these values, if there is one, or else an error. -/
def Computes (x : Sample) (text : String) (L : Value → Prop) : Prop :=
  ∃ a, (∀ cache, x.Answers cache text a) ∧ ∀ v, a = .ok v ↔ L v

theorem Computes.congr {L L' : Value → Prop} (h : x.Computes text L) (hL : ∀ v, L v ↔ L' v) : x.Computes text L' := by
  obtain ⟨a, answers, ha⟩ := h
  exact ⟨a, answers, fun v => (ha v).trans (hL v)⟩

/-- What there is to a sample whose parsers answer. -/
structure Fit (x : Sample) (g : Grammar) : Prop where
  build : x.draft.build? = .ok g
  accepted : Session.Accepted g .default
  /-- Its source text can be written. -/
  full : ∀ rule ∈ g.rules, rule.body.isHollow = false
  serve : x.bound.Serve g
  /-- The first rule is the one to start from. -/
  start : (Analysis.startRules g []).1 = [0]
  /-- No repetition is bounded by host code. -/
  unbounded : (Parser.compiled Stage.transform.passes g (sourceOptions false)).map
    (fun p => p.functions.all fun f => f.1 ≠ .boundary) = .ok true

namespace Fit

variable (h : x.Fit g)

include h

theorem built : g.Built := Draft.built h.build

theorem resolved : g.Resolved := h.built.resolved h.accepted.excludes.references

theorem parser?_eq (cache : Bool) : ∃ s, Session.complete g { CompileOptions.default with cache } = .ok s ∧
    x.parser? cache = some (s.compilation.parserWith x.bound) := by
  have accepted : Session.Accepted g { CompileOptions.default with cache } := h.accepted
  obtain ⟨s, hs⟩ := accepted.completes h.built h.resolved h.full
  obtain ⟨-, ready, -⟩ := accepted.completed h.built h.resolved hs
  have nonempty : s.compilation.startRules ≠ [] := ready.startRules ▸ accepted.startRules_ne_nil
  have output : s.compilation.output = .ok (.parser (s.compilation.parserWith [])) := by
    unfold Compilation.output
    rw [ready.options]
    show (Parser.ofCompilation s.compilation).map Output.parser = _
    rw [Compilation.ofCompilation_ok nonempty]
    rfl
  have compiled : compile g { CompileOptions.default with cache } =
      .ok (.parser (s.compilation.parserWith []), s.diagnostics) := by
    unfold compile
    rw [hs]
    simp only [bind, Except.bind, output]
    rfl
  refine ⟨s, hs, ?_⟩
  unfold parser?
  simp only [h.build, compiled]
  exact congrArg some (Parser.foldl_bind (fun _ _ => rfl) _ _)

/-- A parse starts from the first rule. -/
theorem entry_eq {o : CompileOptions} (ho : o.allowedStartRules = []) {c : Compilation} (ready : c.Ready g o) :
    (c.parserWith x.bound).entry default = .ok 0 := by
  show Except.ok (c.startRules.headD 0) = _
  rw [ready.startRules, ho, h.start]
  rfl

/-- There are methods that do what the functions do. -/
theorem exists_implements {cache : Bool} {s : Session} (hs : Session.complete g (sourceOptions cache) = .ok s) :
    ∃ hosts : HostMethods, hosts.Implements s.compilation.constants x.bound := by
  have accepted : Session.Accepted g (sourceOptions cache) := h.accepted
  obtain ⟨hcompiled, ready, -⟩ := accepted.completed h.built h.resolved hs
  have unbounded := h.unbounded
  cases hp : Parser.compiled Stage.transform.passes g (sourceOptions false) with
  | error why => rw [hp] at unbounded; cases unbounded
  | ok p =>
    have again : Parser.compiled Stage.transform.passes g (sourceOptions cache) = .ok { p with cache } :=
      Parser.compiled_withCache (by decide) hp cache
    have constants : p.constants = s.compilation.constants :=
      congrArg Parser.constants (Except.ok.inj (again.symm.trans hcompiled))
    rw [hp] at unbounded
    have kinds : ∀ f ∈ s.compilation.constants.functions.toList, f.kind ≠ .boundary := fun f hf => by
      have all := List.all_eq_true.1 (Except.ok.inj unbounded) (f.kind, Bindings.key f.code)
        (List.mem_map_of_mem (constants ▸ hf))
      simpa using all
    have known := Compilation.unbound?_eq_none_iff.1 (ready.unbound?_eq_none h.built.removed h.serve.bound)
    exact ⟨_, Bindings.implements_methods known fun f hf hkind => absurd hkind (kinds f hf)⟩

/-- For every text there is one answer of all parsers of a sample, which is the one of its grammar. -/
theorem answers (text : String) : ∃ a, World.Answers ⟨g, x.bound, text, none⟩ 0 a ∧ ∀ cache, x.Answers cache text a := by
  have machine (cache : Bool) : ∃ p a, x.parser? cache = some p ∧ World.Answers ⟨g, x.bound, text, none⟩ 0 a ∧
      p.Answers text default a := by
    have accepted : Session.Accepted g { CompileOptions.default with cache } := h.accepted
    obtain ⟨s, hs, hp⟩ := h.parser?_eq cache
    obtain ⟨-, ready, w, hw⟩ := accepted.completed h.built h.resolved hs
    obtain ⟨q, hq⟩ := Source.parser_of_write hw
    obtain ⟨a, told, answers, -⟩ := Session.answers_of_complete h.built hs hq h.serve
      (h.entry_eq (o := { CompileOptions.default with cache }) rfl ready) text
    exact ⟨_, a, hp, told, answers⟩
  obtain ⟨-, a, -, told, -⟩ := machine false
  refine ⟨a, told, fun cache => ⟨?_, ?_⟩⟩
  · obtain ⟨p, a', hp, told', answers⟩ := machine cache
    exact ⟨p, hp, told.definite told' ▸ answers⟩
  · have accepted : Session.Accepted g (sourceOptions cache) := h.accepted
    obtain ⟨s, hs⟩ := accepted.completes h.built h.resolved h.full
    obtain ⟨-, ready, w, hw⟩ := accepted.completed h.built h.resolved hs
    obtain ⟨q, hq⟩ := Source.parser_of_write hw
    obtain ⟨a', told', -, parses⟩ := Session.answers_of_complete h.built hs hq h.serve
      (h.entry_eq (o := sourceOptions cache) rfl ready) text
    exact ⟨g, s, q, h.build, hs, hq, h.exists_implements hs, told.definite told' ▸ parses⟩

/-- What they compute is what the body of the first rule decides. -/
theorem computes {α : Type} {rule : Rule} (hr : g.live? 0 = some rule) {L : α → Prop} {value : α → Value}
    (hL : World.Decides ⟨g, x.bound, text, none⟩ [] 0 rule.body L value) :
    x.Computes text fun v => ∃ y, L y ∧ v = value y := by
  obtain ⟨a, told, answers⟩ := h.answers text
  exact ⟨a, answers, hL.ok_iff hr told⟩

end Fit

end Sample

end PegCompiler
