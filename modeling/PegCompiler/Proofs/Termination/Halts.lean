/-
Every run of the code of a grammar whose parsers always get on comes to an end, whatever host code answers. A call of a
rule is measured by what is left of the text, and where nothing was consumed by the order of calls that consume
nothing; the rounds of a repetition by what is left of the text, or by the items that it still has place for.
-/
import PegCompiler.Proofs.Parsers
import PegCompiler.Proofs.Termination.Advances

namespace PegCompiler

namespace Machine

open MatchResult Analysis Analysis.Matching

/-! ## Acts that come to an end -/

/-- From a state, the act comes to an end. -/
def Halts {φ : Type} (A : Act φ) (st : ParseState) : Prop := ∃ cs v st', A st cs v st'

section Acts

variable {φ : Type} {A B : Act φ} {st : ParseState}

theorem halts_pure (v : Value) : Halts (.pure v : Act φ) st := ⟨[], v, st, rfl, rfl, rfl⟩

theorem halts_change (f : ParseState → Value × ParseState) : Halts (.change f : Act φ) st := ⟨[], _, _, rfl, rfl⟩

theorem halts_failing (e : Expectation) : Halts (.failing e : Act φ) st := halts_change _

theorem halts_read {D : ParseState → Act φ} : Halts (.read D) st ↔ Halts (D st) st := Iff.rfl

theorem halts_after {f : ParseState → ParseState} : Halts (.after f A) st ↔ Halts A (f st) := Iff.rfl

theorem halts_backTo (pos : Nat) (v : Value) : Halts (.backTo pos v : Act φ) st := halts_after.2 (halts_pure v)

theorem halts_bind {D : Value → Act φ} (hA : Halts A st) (hD : Ends A st fun v st' => Halts (D v) st') :
    Halts (A.bind D) st := by
  obtain ⟨cs, v, st₁, hv⟩ := hA
  obtain ⟨cs', w, st', hw⟩ := hD cs v st₁ hv
  exact ⟨cs ++ cs', w, st', cs, v, st₁, cs', hv, hw, rfl⟩

/-- Something after which the act always ends. -/
theorem halts_bind_always {D : Value → Act φ} (hA : Halts A st) (hD : ∀ v st', Halts (D v) st') :
    Halts (A.bind D) st := halts_bind hA fun _ v st' _ => hD v st'

theorem halts_ite {b : Bool} (hA : b = true → Halts A st) (hB : b = false → Halts B st) :
    Halts (if b then A else B) st := by
  cases b
  · exact hB rfl
  · exact hA rfl

theorem halts_call {function : φ → Except Fault (FunctionKind × HostFn)} {f : φ} {args : List Value}
    (h : ∃ bound, function f = .ok bound) : Halts (.call function f args) st := by
  obtain ⟨⟨kind, host⟩, hf⟩ := h
  exact ⟨_, _, st, kind, host, hf, rfl, rfl, rfl⟩

theorem halts_silently {D : Value → Act φ} (hA : Halts A { st with silent := st.silent + 1 })
    (hD : ∀ v st', Halts (D v) st') : Halts (.silently A D) st :=
  halts_bind_always hA fun v _ => hD v _

theorem halts_lookahead {m : MatchResult} {negative : Bool} (hA : Halts A { st with silent := st.silent + 1 }) :
    Halts (.lookahead m negative A) st := by
  refine halts_silently hA fun v st' => ?_
  refine halts_ite (fun _ => ?_) fun _ => ?_
  · exact halts_ite (fun _ => halts_backTo _ _) fun _ => halts_pure _
  · exact halts_ite (fun _ => halts_backTo _ _) fun _ => halts_pure _

theorem halts_named {m : MatchResult} {name : String} (hA : Halts A { st with silent := st.silent + 1 }) :
    Halts (.named m name A) st :=
  halts_silently hA fun _ _ => halts_ite (fun _ => halts_pure _) fun _ => halts_failing _

theorem halts_text {m : MatchResult} (hA : Halts A st) : Halts (.text m A) st :=
  halts_bind_always hA fun _ _ => halts_ite (fun _ => halts_read.2 (halts_pure _)) fun _ => halts_pure _

theorem halts_optional {m : MatchResult} (hA : Halts A st) : Halts (.optional m A) st :=
  halts_bind_always hA fun _ _ => halts_ite (fun _ => halts_pure _) fun _ => halts_pure _

/-- A test of what comes next. -/
theorem halts_test {m : MatchResult} {test : ParseState → Bool} {accept : ParseState → Value × ParseState}
    {e : Expectation} : Halts (.read fun st => if m.holds (test st) then .change accept else .failing e : Act φ) st :=
  halts_read.2 (halts_ite (fun _ => halts_change _) fun _ => halts_failing _)

/-- Rounds come to an end if each of them does, and each one after which there is another has less before it. -/
theorem halts_collects {item : Nat → Act φ} {J : Nat → Value → ParseState → Prop} (left : Nat → ParseState → Nat)
    (halts : ∀ n v st, J n v st → v.isFailed = false → Halts (item (n + 1)) st)
    (goesOn : ∀ n v st, J n v st → v.isFailed = false →
      Ends (item (n + 1)) st fun w st' => J (n + 1) w st' ∧ (w.isFailed = false → left (n + 1) st' < left n st))
    {vs : List Value} {v : Value} (h : J vs.length v st) : Halts (.Collects item vs v) st := by
  -- the induction is on what is left before the round
  induction hn : left vs.length st using Nat.strong_induction_on generalizing vs v st with
  | _ n ih =>
    cases hv : v.isFailed with
    | true => exact ⟨[], _, st, .done hv⟩
    | false =>
      obtain ⟨cs, w, st₁, hw⟩ := halts _ v st h hv
      have next : J (vs ++ [v]).length w st₁ ∧ (w.isFailed = false → left (vs ++ [v]).length st₁ < left vs.length st) := by
        rw [List.length_append]
        exact goesOn _ v st h hv cs w st₁ hw
      have rest : Halts (.Collects item (vs ++ [v]) w) st₁ := by
        cases hf : w.isFailed with
        | true => exact ⟨[], _, st₁, .done hf⟩
        | false => exact ih _ (hn ▸ next.2 hf) next.1 rfl
      obtain ⟨cs', u, st', hu⟩ := rest
      exact ⟨cs ++ cs', u, st', .more hv hw hu⟩

end Acts

/-! ## What expressions need -/

end Machine

namespace Analysis.Scope

/-- Labels whose values are known are those that the check sees. -/
theorem map_fst_after_labels {scope : Scope} {ls : Labels} (h : scope.map (·.1) = ls.map (·.1)) (e : Expr) (v : Value) :
    (scope.after e).map (·.1) = (ls.after e v).map (·.1) := by
  cases e with
  | labeled i label pick body =>
    cases label with
    | none => exact h
    | some label =>
      show (scope.define label).map (·.1) = (ls.bind label.val v).map (·.1)
      rw [map_fst_define, h]
      exact (map_fst_assign ls label.val v).symm
  | _ => exact h

end Analysis.Scope

namespace Machine

open MatchResult Analysis Analysis.Matching

/-- What an expression needs from elsewhere is there: rules, and functions for its host code. If it repeats something,
that has an end. -/
structure Provided (c : Setting) (g : Grammar) (known : RuleId → Prop) (e : Expr) : Prop where
  target : ∀ i name target, e = .ruleRef i name target → ∃ t, target = some t ∧ known t
  bound : ∀ code ∈ e.codes, ∀ kind names, ∃ f, c.function ⟨kind, names, code.val, code.span⟩ = .ok f
  bounded : Bounded (Consumes g) e

/-- At a position those rules come to an end, and after it all rules do. -/
structure Callable (I : ParseState → Prop) (R : RuleId → Act HostFunction) (known : RuleId → Prop) (size pos : Nat)
    (Q : RuleId → Prop) : Prop where
  here : ∀ t, Q t → known t → ∀ st, I st → st.pos = pos → Halts (R t) st
  further : ∀ t, known t → ∀ st, I st → pos < size → pos < st.pos → Halts (R t) st

section Expressions

variable {s : String} {I : ParseState → Prop} {size : Nat} {c : Setting} {R : RuleId → Act HostFunction} {g : Grammar}
  {known : RuleId → Prop} {ρ : RuleId → MatchResult} {reserved : List String} {Q Q' : RuleId → Prop}

theorem Callable.onward {pos stop : Nat} (h : Callable I R known size pos Q) (ho : Onward size pos stop)
    (hQ : stop = pos → ∀ t, Q' t → Q t) : Callable I R known size stop Q' := by
  have hle := ho.le
  constructor
  · intro t ht hknown st hst hpos
    by_cases heq : stop = pos
    · exact h.here t (hQ heq t ht) hknown st hst (by omega)
    · exact h.further t hknown st hst (ho.inside (by omega)) (by omega)
  · intro t hknown st hst hin hlt
    by_cases heq : stop = pos
    · exact h.further t hknown st hst (by omega) (by omega)
    · exact h.further t hknown st hst (ho.inside (by omega)) (by omega)

theorem Callable.mono {pos : Nat} (h : Callable I R known size pos Q) (hQ : ∀ t, Q' t → Q t) :
    Callable I R known size pos Q' := h.onward (.refl _ _) fun _ => hQ

theorem halts_host {kind : FunctionKind} {code : HostCode} {ls : Labels} {st : ParseState}
    (h : ∀ kind names, ∃ f, c.function ⟨kind, names, code.val, code.span⟩ = .ok f) : Halts (c.call kind code ls) st :=
  halts_call (h kind ls.names)

theorem halts_action {start : Nat} {code : HostCode} {ls : Labels} {st : ParseState}
    (h : ∀ kind names, ∃ f, c.function ⟨kind, names, code.val, code.span⟩ = .ok f) : Halts (c.action start code ls) st :=
  halts_after.2 (halts_host h)

/-- A bound is found out, and it is a greatest one if that is not left out. -/
theorem halts_withBound {ls : Labels} {scope : Scope} {b : Boundary} {st : ParseState} {F : Count → Act HostFunction}
    (hscope : scope.map (·.1) = ls.map (·.1)) (hlabels : boundProblems scope b = [])
    (hbound : ∀ code ∈ b.codes, ∀ kind names, ∃ f, c.function ⟨kind, names, code.val, code.span⟩ = .ok f)
    (h : ∀ n : Count, (b ≠ .constant none → ∃ k, n.most = some k) → Halts (F n) st) : Halts (c.withBound ls b F) st := by
  cases b with
  | constant n =>
    refine h (.fixed n) fun hne => ?_
    cases n with
    | none => exact absurd rfl hne
    | some k => exact ⟨k, rfl⟩
  | label name =>
    have inScope : (ls.lookup name.val).isSome := by
      rw [lookup_isSome_iff, ← hscope, ← lookup_isSome_iff]
      have visible : (if (scope.lookup name.val).isSome then [] else _) = [] := hlabels
      split at visible
      · assumption
      · cases visible
    obtain ⟨v, hv⟩ := Option.isSome_iff_exists.1 inScope
    unfold Setting.withBound
    simp only [hv]
    exact h (.given v) fun _ => ⟨_, rfl⟩
  | computed code =>
    refine halts_bind (halts_host (hbound code List.mem_cons_self)) ?_
    refine ends_call_steady.mono fun v st' e => ?_
    rw [e]
    exact h (.given v) fun _ => ⟨_, rfl⟩

/-- A repetition comes to an end if it does whatever its bounds are; it has a greatest one if that is not left out. -/
theorem halts_withBounds {ls : Labels} {scope : Scope} {min : Option Boundary} {max : Boundary} {st : ParseState}
    {D : Nat → Option Nat → Act HostFunction} (hscope : scope.map (·.1) = ls.map (·.1))
    (hlabels : min.elim [] (boundProblems scope) ++ boundProblems scope max = [])
    (hbound : ∀ code ∈ min.elim [] Boundary.codes ++ max.codes, ∀ kind names,
      ∃ f, c.function ⟨kind, names, code.val, code.span⟩ = .ok f)
    (h : ∀ least most, (max ≠ .constant none → ∃ k, most = some k) → Halts (D least most) st) :
    Halts (c.withBounds ls min max D) st := by
  obtain ⟨hmin, hmax⟩ := List.append_eq_nil_iff.1 hlabels
  have inMax : ∀ code ∈ max.codes, ∀ kind names, ∃ f, c.function ⟨kind, names, code.val, code.span⟩ = .ok f :=
    fun code hc => hbound code (List.mem_append_right _ hc)
  cases min with
  | none => exact halts_withBound hscope hmax inMax fun n hn => h _ _ hn
  | some min =>
    unfold Setting.withBounds
    refine halts_withBound hscope hmin (fun code hc => hbound code (List.mem_append_left _ hc)) fun m _ => ?_
    exact halts_withBound (F := fun n => D m.least n.most) hscope hmax inMax fun n hn => h _ _ hn

/-! ## Repetitions -/

variable {A B : Act HostFunction} {m m' : MatchResult} {P P' : Prop}

/-- Rounds of what is sure to consume come to an end, with what is left of the text. -/
theorem halts_rounds (hA : Advances I size m P A) (p : P) {start : Nat}
    (halts : ∀ st, I st → Onward size start st.pos → Halts A st) {vs : List Value} {v : Value} {st : ParseState}
    (hst : I st) (honward : Onward size start st.pos) : Halts (.Collects (fun _ => A) vs v) st := by
  refine halts_collects (J := fun _ _ st => I st ∧ Onward size start st.pos) (fun _ st => size - st.pos)
    (fun _ _ st h _ => halts st h.1 h.2) (fun _ _ st h _ => ?_) ⟨hst, honward⟩
  refine (hA st h.1).mono fun w st' ⟨hi, hw⟩ => ⟨⟨hi, h.2.trans hw.forward⟩, fun hok => ?_⟩
  have := hw.consumes p hok
  omega

/-- So do those of a repetition with bounds, or with the items that there is place for. -/
theorem halts_counted (hA : Advances I size m P A) (hB : Advances I size m' P' B) {checked : Bool} {least : Nat}
    {most : Option Nat} (hend : P' ∨ ∃ k, most = some k) {st : ParseState} (hst : I st) (first : Halts A st)
    (items : ∀ st', I st' → Onward size st.pos st'.pos → (P → st.pos < st'.pos) → Halts B st') :
    Halts (.counted checked least most A B) st := by
  unfold Act.counted
  have start : Halts (.unlessFull most 0 A) st := halts_ite (fun _ => halts_pure _) fun _ => first
  refine halts_bind start ?_
  have moved : Ends (.unlessFull most 0 A) st fun v st' => I st' ∧ Onward size st.pos st'.pos ∧
      (v.isFailed = false → P → st.pos < st'.pos) :=
    ends_ite (fun _ => ends_pure.2 ⟨hst, .refl _ _, nofun⟩) fun _ =>
      (hA st hst).mono fun v st' ⟨hi, hv⟩ => ⟨hi, hv.forward, fun hok p => (hv.consumes p hok).2⟩
  refine moved.mono fun v st₁ hv => ?_
  refine halts_bind_always ?_ fun items st' => halts_ite (fun _ => halts_backTo _ _) fun _ => halts_pure _
  -- what every round keeps; there is a further one only after an item
  let J (_ : Nat) (v : Value) (st' : ParseState) : Prop := I st' ∧ Onward size st.pos st'.pos ∧
    (v.isFailed = false → P → st.pos < st'.pos)
  have round (n k : Nat) : ∀ v st', J n v st' → v.isFailed = false → Halts (.unlessFull most k B) st' :=
    fun v st' h hok => halts_ite (fun _ => halts_pure _) fun _ => items st' h.1 h.2.1 (h.2.2 hok)
  have kept (left : Nat → ParseState → Nat) : ∀ n v st', J n v st' → v.isFailed = false →
      (∀ w st'', Moves size m' P' st'.pos w st''.pos → most.any (· ≤ n + 1) = false → w.isFailed = false →
        left (n + 1) st'' < left n st') →
      Ends (.unlessFull most (n + 1) B) st' fun w st'' =>
        J (n + 1) w st'' ∧ (w.isFailed = false → left (n + 1) st'' < left n st') := by
    intro n v st' h hok hleft
    refine ends_ite (fun _ => ends_pure.2 ⟨⟨h.1, h.2.1, nofun⟩, nofun⟩) fun hopen => ?_
    refine (hB st' h.1).mono fun w st'' ⟨hi, hw⟩ => ⟨⟨hi, h.2.1.trans hw.forward, fun _ p => ?_⟩, hleft w st'' hw hopen⟩
    exact Nat.lt_of_lt_of_le (h.2.2 hok p) hw.forward.le
  rcases hend with p | ⟨k, rfl⟩
  · have goesOn := kept fun _ st' => size - st'.pos
    refine halts_collects (J := J) (fun _ st' => size - st'.pos) (fun n => round n (n + 1))
      (fun n v st' h hok => goesOn n v st' h hok fun w st'' hw _ hf => ?_) hv
    have := hw.consumes p hf
    omega
  · have goesOn := kept fun n _ => k - n
    refine halts_collects (J := J) (fun n _ => k - n) (fun n => round n (n + 1))
      (fun n v st' h hok => goesOn n v st' h hok fun w st'' _ hopen _ => ?_) hv
    have : ¬ k ≤ n + 1 := by simpa using hopen
    omega

theorem halts_delimited (hA : Advances I size m P A) {st : ParseState} (hst : I st) (halts : Halts A st)
    (next : ∀ st', I st' → Onward size st.pos st'.pos → Halts B st') : Halts (.delimited m m' A B) st := by
  unfold Act.delimited
  refine halts_bind halts ((hA st hst).mono fun v st₁ ⟨hi, hv⟩ => ?_)
  refine halts_ite (fun _ => ?_) fun _ => halts_pure _
  refine halts_bind_always (next st₁ hi hv.forward) fun w st' => ?_
  exact halts_ite (fun _ => halts_pure _) fun _ => halts_backTo _ _

/-! ## Expressions -/

/-- All that expressions are proved from: how they move on, and that those after one that is sure to consume are
reached only past something. -/
structure Moving (s : String) (I : ParseState → Prop) (c : Setting) (R : RuleId → Act HostFunction) (g : Grammar)
    (ρ : RuleId → MatchResult) : Prop where
  steady : Steady s I
  rules : ∀ t, Advances I (Input.ofString s).size (ρ t) (ConsumesRule g t) (R t)
  unsure : ∀ e, Consumes g e → judge ρ e ≠ .always

theorem Moving.advances (h : Moving s I c R g ρ) {e : Expr} (he : Follows c ρ e) (ls : Labels) :
    Advances I (Input.ofString s).size (judge ρ e) (Consumes g e) (c.meaning R e ls) :=
  advances_expr h.steady h.rules h.unsure e he ls

/-- What the expression contains has what it needs. -/
structure Runnable (c : Setting) (g : Grammar) (known : RuleId → Prop) (ρ : RuleId → MatchResult) (e : Expr) : Prop where
  provided : ∀ e' ∈ e.preorder, Provided c g known e'
  follows : Follows c ρ e

theorem Runnable.self {e : Expr} (h : Runnable c g known ρ e) : Provided c g known e :=
  h.provided e (Expr.mem_preorder_self e)

theorem Runnable.child {e e' : Expr} (h : Runnable c g known ρ e) (he : e' ∈ e.children) : Runnable c g known ρ e' :=
  ⟨fun _ h' => h.provided _ (Expr.mem_preorder_of_child he h'), h.follows.child he⟩

/-- The expression comes to an end where rules do that it can call before it has consumed anything. -/
def Completes (I : ParseState → Prop) (size : Nat) (c : Setting) (R : RuleId → Act HostFunction) (g : Grammar)
    (known : RuleId → Prop) (scope : Scope) (e : Expr) : Prop :=
  ∀ ls : Labels, scope.map (·.1) = ls.map (·.1) → ∀ st, I st → Callable I R known size st.pos (fun t => Leads g t e) →
    Halts (c.meaning R e ls) st

/-- So it does wherever the rounds of a repetition have come to. -/
theorem Completes.onward {scope : Scope} {e : Expr} (h : Completes I size c R g known scope e) {ls : Labels}
    (hscope : scope.map (·.1) = ls.map (·.1)) {st : ParseState} (hcall : Callable I R known size st.pos Q)
    (hQ : ∀ t, Leads g t e → Q t) {st' : ParseState} (hst' : I st') (ho : Onward size st.pos st'.pos) :
    Halts (c.meaning R e ls) st' := h ls hscope st' hst' (hcall.onward ho fun _ => hQ)

theorem halts_others (hm : Moving s I c R g ρ) {others : List Expr} (hs : ∀ e ∈ others, Runnable c g known ρ e)
    {scope : Scope} (ih : ∀ e ∈ others, Completes I (Input.ofString s).size c R g known scope e) {ls : Labels}
    (hscope : scope.map (·.1) = ls.map (·.1)) {before : MatchResult} {v : Value} {st : ParseState} (hst : I st)
    (hcall : Callable I R known (Input.ofString s).size st.pos fun t => LeadsAny g t others) :
    Halts (c.meaningOthers R others ls before v) st := by
  induction others generalizing before v st with
  | nil => exact halts_pure _
  | cons e es ihs =>
    unfold Setting.meaningOthers
    refine halts_ite (fun _ => halts_pure _) fun _ => ?_
    have first := ih e List.mem_cons_self ls hscope st hst (hcall.mono fun t => .inl)
    refine halts_bind first ((hm.advances (hs e List.mem_cons_self).follows ls st hst).mono fun w st₁ ⟨hi, hw⟩ => ?_)
    exact ihs (fun e' he => hs e' (List.mem_cons_of_mem _ he)) (fun e' he => ih e' (List.mem_cons_of_mem _ he)) hi
      (hcall.onward hw.forward fun _ t => .inr)

theorem halts_elements (hm : Moving s I c R g ρ) {action : Option HostCode} {start : Nat}
    (haction : ∀ code ∈ action, ∀ kind names, ∃ f, c.function ⟨kind, names, code.val, code.span⟩ = .ok f)
    {elements : List Expr} (hs : ∀ e ∈ elements, Runnable c g known ρ e)
    (ih : ∀ e ∈ elements, ∀ scope, labelsIn reserved scope e = [] →
      Completes I (Input.ofString s).size c R g known scope e)
    {scope : Scope} (hlabels : labelsInOrder reserved scope elements = []) {ls : Labels}
    (hscope : scope.map (·.1) = ls.map (·.1)) {values picked : List Value} {st : ParseState} (hst : I st)
    (hcall : Callable I R known (Input.ofString s).size st.pos fun t => LeadsInOrder g t elements) :
    Halts (c.meaningElements R action start elements ls values picked) st := by
  induction elements generalizing scope ls values picked st with
  | nil =>
    unfold Setting.meaningElements Setting.finish
    split
    · cases action with
      | none => exact halts_pure _
      | some code => exact halts_action (haction code rfl)
    · exact halts_pure _
  | cons e es ihs =>
    obtain ⟨inFirst, inOthers⟩ := List.append_eq_nil_iff.1 hlabels
    have runnable := hs e List.mem_cons_self
    unfold Setting.meaningElements
    have first := ih e List.mem_cons_self scope inFirst ls hscope st hst (hcall.mono fun t => .inl)
    refine halts_bind first ((hm.advances runnable.follows ls st hst).mono fun v st₁ ⟨hi, hv⟩ => ?_)
    rw [runnable.follows.self]
    rcases hv.cases (hm.unsure e) with ⟨hh, -, hc⟩ | ⟨hh, -⟩ <;> rw [hh]
    · refine ihs (fun e' he => hs e' (List.mem_cons_of_mem _ he)) (fun e' he => ih e' (List.mem_cons_of_mem _ he))
        inOthers (Scope.map_fst_after_labels hscope e v) hi (hcall.onward hv.forward fun heq t ht => .inr ⟨fun p => ?_, ht⟩)
      have := hc p
      omega
    · exact halts_backTo _ _

/-- Expressions come to an end where rules do that they can call before they have consumed anything. -/
theorem completes_expr (hm : Moving s I c R g ρ) (e : Expr) (he : Runnable c g known ρ e) (scope : Scope)
    (hlabels : labelsIn reserved scope e = []) : Completes I (Input.ofString s).size c R g known scope e := by
  have silent {st : ParseState} (hst : I st) : I { st with silent := st.silent + 1 } := hm.steady.silence hst _
  induction e using Expr.induction generalizing scope with
  | choice i first others ihFirst ihOthers =>
    obtain ⟨inFirst, inOthers⟩ := List.append_eq_nil_iff.1 hlabels
    have runnable : Runnable c g known ρ first := he.child List.mem_cons_self
    intro ls hscope st hst hcall
    unfold Setting.meaning
    have halts := ihFirst runnable scope inFirst ls hscope st hst (hcall.mono fun t => .inl)
    refine halts_bind halts ((hm.advances runnable.follows ls st hst).mono fun v st₁ ⟨hi, hv⟩ => ?_)
    refine halts_others hm (fun e h => he.child (List.mem_cons_of_mem _ h)) (fun e h => ?_) hscope hi
      (hcall.onward hv.forward fun _ t => .inr)
    exact ihOthers e h (he.child (List.mem_cons_of_mem _ h)) scope (Code.labelsInEach_eq_nil inOthers e h)
  | sequence i elements ih =>
    intro ls hscope st hst hcall
    unfold Setting.meaning
    exact halts_elements hm (fun _ h => by cases h) (fun e h => he.child h) (fun e h scope hl => ih e h (he.child h) scope hl) hlabels
      hscope hst hcall
  | labeled i label pick body ih =>
    intro ls hscope st hst hcall
    unfold Setting.meaning
    exact ih (he.child List.mem_cons_self) scope (List.append_eq_nil_iff.1 hlabels).1 ls hscope st hst hcall
  | group i body ih =>
    intro ls hscope st hst hcall
    unfold Setting.meaning
    exact ih (he.child List.mem_cons_self) scope hlabels ls hscope st hst hcall
  | action i body code ih ihElements =>
    have inBody : Runnable c g known ρ body := he.child List.mem_cons_self
    have bound := he.self.bound code List.mem_cons_self
    intro ls hscope st hst hcall
    refine Expr.action_cases body (fun j elements hb => ?_) fun hb => ?_
    · subst hb
      unfold Setting.meaning
      refine halts_elements hm (fun code' h => ?_) (fun e h => inBody.child h)
        (fun e h scope hl => ihElements e h (inBody.child h) scope hl) hlabels hscope hst hcall
      cases h
      exact bound
    · rw [Setting.meaning]
      · refine halts_bind_always (ih inBody scope hlabels ls hscope st hst hcall) fun v st' => ?_
        exact halts_ite (fun _ => halts_action bound) fun _ => halts_pure _
      · exact hb
  | text i body ih =>
    intro ls hscope st hst hcall
    unfold Setting.meaning
    exact halts_text (ih (he.child List.mem_cons_self) scope hlabels ls hscope st hst hcall)
  | simpleAnd i body ih | simpleNot i body ih =>
    intro ls hscope st hst hcall
    unfold Setting.meaning
    exact halts_lookahead (ih (he.child List.mem_cons_self) scope hlabels ls hscope _ (silent hst) hcall)
  | named i name body ih =>
    intro ls hscope st hst hcall
    unfold Setting.meaning
    exact halts_named (ih (he.child List.mem_cons_self) scope hlabels ls hscope _ (silent hst) hcall)
  | semanticAnd i code | semanticNot i code =>
    intro ls hscope st hst hcall
    unfold Setting.meaning
    have bound := he.self.bound code List.mem_cons_self
    exact halts_after.2 (halts_bind_always (halts_host bound) fun v st' => halts_pure _)
  | optional i body ih =>
    intro ls hscope st hst hcall
    unfold Setting.meaning
    exact halts_optional (ih (he.child List.mem_cons_self) scope hlabels ls hscope st hst hcall)
  | zeroOrMore i body ih =>
    have inBody : Runnable c g known ρ body := he.child List.mem_cons_self
    have consumes : Consumes g body := he.self.bounded
    intro ls hscope st hst hcall
    unfold Setting.meaning
    have item (st' : ParseState) : I st' → Onward (Input.ofString s).size st.pos st'.pos → Halts (c.meaning R body ls) st' :=
      (ih inBody scope hlabels).onward hscope hcall fun _ => id
    have moves := hm.advances inBody.follows ls
    refine halts_bind (item st hst (.refl _ _)) ((moves st hst).mono fun v st₁ ⟨hi, hv⟩ => ?_)
    exact halts_rounds moves consumes item hi hv.forward
  | oneOrMore i body ih =>
    have inBody : Runnable c g known ρ body := he.child List.mem_cons_self
    have consumes : Consumes g body := he.self.bounded
    intro ls hscope st hst hcall
    unfold Setting.meaning
    have item (st' : ParseState) : I st' → Onward (Input.ofString s).size st.pos st'.pos → Halts (c.meaning R body ls) st' :=
      (ih inBody scope hlabels).onward hscope hcall fun _ => id
    have moves := hm.advances inBody.follows ls
    refine halts_bind (item st hst (.refl _ _)) ((moves st hst).mono fun v st₁ ⟨hi, hv⟩ => ?_)
    exact halts_ite (fun _ => halts_rounds moves consumes item hi hv.forward) fun _ => halts_pure _
  | repeated i body min max delimiter ih ihDelimiter =>
    have inBody : Runnable c g known ρ body := he.child List.mem_cons_self
    have bound := he.self.bound
    have moves := hm.advances (R := R) inBody.follows
    intro ls hscope st hst hcall
    cases delimiter with
    | none =>
      obtain ⟨inBounds, labels⟩ := List.append_eq_nil_iff.1 hlabels
      have item (st' : ParseState) : I st' → Onward (Input.ofString s).size st.pos st'.pos → Halts (c.meaning R body ls) st' :=
        (ih inBody scope labels).onward hscope hcall fun _ => id
      unfold Setting.meaning
      refine halts_withBounds hscope inBounds bound fun least most hmost => ?_
      refine halts_counted (moves ls) (moves ls) ?_ hst (item st hst (.refl _ _)) fun st' hi ho _ => item st' hi ho
      rcases he.self.bounded with h | ⟨d, hd, -⟩ | h
      · exact .inl h
      · cases hd
      · exact .inr (hmost h)
    | some d =>
      have inDelimiter : Runnable c g known ρ d := he.child (List.mem_cons_of_mem _ List.mem_cons_self)
      obtain ⟨inBounds, labels⟩ := List.append_eq_nil_iff.1 hlabels
      obtain ⟨inBounds, labelsDelimiter⟩ := List.append_eq_nil_iff.1 inBounds
      have item (st' : ParseState) : I st' → Onward (Input.ofString s).size st.pos st'.pos → Halts (c.meaning R body ls) st' :=
        (ih inBody scope labels).onward hscope hcall fun _ => .inl
      have movesDelimiter := hm.advances inDelimiter.follows ls
      unfold Setting.meaning
      rw [inBody.follows.self, inDelimiter.follows.self]
      refine halts_withBounds hscope inBounds bound fun least most hmost => ?_
      have further := movesDelimiter.delimited hm.steady (moves ls) (hm.unsure d) (hm.unsure body)
      refine halts_counted (moves ls) further ?_ hst (item st hst (.refl _ _)) fun st' hi ho hbody => ?_
      · -- a round consumes if the delimiter or the item is sure to
        rcases he.self.bounded with h | ⟨d', hd, h⟩ | h
        · exact .inl (.inr h)
        · cases hd
          exact .inl (.inl h)
        · exact .inr (hmost h)
      · refine halts_delimited movesDelimiter hi ?_ fun st₂ hi₂ ho₂ => item st₂ hi₂ (ho.trans ho₂)
        -- the delimiter is reached at the same place only after a first item that consumed nothing
        refine ihDelimiter d rfl inDelimiter scope labelsDelimiter ls hscope st' hi (hcall.onward ho fun heq t ht => ?_)
        exact .inr ⟨fun p => by have := hbody p; omega, ht⟩
  | ruleRef i name target =>
    obtain ⟨t, rfl, hknown⟩ := he.self.target i name target rfl
    intro ls hscope st hst hcall
    unfold Setting.meaning
    exact hcall.here t rfl hknown st hst rfl
  | literal i value ignoreCase =>
    intro ls hscope st hst hcall
    unfold Setting.meaning
    split
    · exact halts_pure _
    · split
      · exact halts_test
      · exact halts_test
  | charClass i k | any i =>
    intro ls hscope st hst hcall
    unfold Setting.meaning
    exact halts_test

end Expressions

end Machine

end PegCompiler
