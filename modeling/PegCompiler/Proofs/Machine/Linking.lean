/-
Linked code runs like code that holds its constants. Where one program has the linked code of another
and finds its constants by index, every run of the one is a run of the other, with host functions named
by index (`exec_link_iff`, `ruleExec_link_iff`).
-/
import PegCompiler.Proofs.Code.Assembly
import PegCompiler.Proofs.Machine.Exec

namespace PegCompiler

/-- The call with the index of its function. -/
def HostCall.link (k : Constants) (c : HostCall HostFunction) : HostCall Nat :=
  ⟨k.functions.indexOf c.function, c.args, c.view⟩

namespace Machine

/-- A program with the code of another one linked to pools, where it finds the other's constants. -/
structure Links (k : Constants) (q : Program Raw) (p : Program Inline) : Prop where
  literal : ∀ s ∈ k.literals.toList, q.literal (k.literals.indexOf s) = p.literal s
  charClass : ∀ c ∈ k.classes.toList, q.charClass (k.classes.indexOf c) = p.charClass c
  expectation : ∀ e ∈ k.expectations.toList, q.expectation (k.expectations.indexOf e) = p.expectation e
  function : ∀ f ∈ k.functions.toList, q.function (k.functions.indexOf f) = p.function f
  cache : q.cache = p.cache
  trace : q.trace = p.trace
  rules : ∀ r, q.rules.getD r none =
    (p.rules.getD r none).map fun rule => ⟨rule.name, Code.raw (Code.link k rule.code)⟩
  known : ∀ r rule, p.rules.getD r none = some rule → Code.Known k rule.code

section Links

variable {k : Constants} {q : Program Raw} {p : Program Inline} {s s' : Stack} {st st' : ParseState}

/-! ## Instructions -/

theorem check_link (h : Links k q p) {t : Test Inline} (ht : t.Known k) : check q (t.link k).raw s = check p t s := by
  cases t with
  | string l | stringIc l => simp only [check, Test.link, Test.raw, h.literal l ht]
  | charClass c => simp only [check, Test.link, Test.raw, h.charClass c ht]
  | _ => rfl

/-- A linked instruction without blocks. -/
structure StepLinks (k : Constants) (q : Program Raw) (p : Program Inline) (i : Instr Inline) (j : Instr Pooled) :
    Prop where
  link : i.link k = [j]
  plain : isPlain j.raw = true
  step : ∀ s, step q j.raw s = Machine.step p i s
  calls : ∀ s st, hostCalls j.raw s st = (hostCalls i s st).map (HostCall.link k)

theorem step_link (h : Links k q p) {i : Instr Inline} (hi : isPlain i = true) (hk : i.Known k) :
    ∃ j, StepLinks k q p i j := by
  cases i with
  | acceptString l | acceptStringIc l =>
    refine ⟨_, rfl, rfl, fun s => ?_, fun _ _ => rfl⟩
    simp only [Instr.raw, Machine.step, h.literal l hk]
  | fail e =>
    refine ⟨_, rfl, rfl, fun s => ?_, fun _ _ => rfl⟩
    simp only [Instr.raw, Machine.step, h.expectation e hk]
  | call f n args =>
    refine ⟨_, rfl, rfl, fun s => ?_, fun s st => ?_⟩
    · simp only [Instr.raw, Machine.step, h.function f hk]
    · simp only [Instr.raw, hostCalls]
      cases s.values args <;> rfl
  | defect why => exact hk.elim
  | cond | whileOk | rule => cases hi
  | _ => exact ⟨_, rfl, rfl, fun _ => rfl, fun _ _ => rfl⟩

/-! ## Blocks -/

/-- A rule of the one program does what it does in the other. -/
def RulesLink (k : Constants) (R' : Nat → Act Nat) (R : Nat → Act HostFunction) : Prop :=
  ∀ r st cs v st', R' r st cs v st' ↔ ∃ cs', cs = cs'.map (HostCall.link k) ∧ R r st cs' v st'

variable {R' : Nat → Act Nat} {R : Nat → Act HostFunction} {code : Code Inline}

theorem exec_link (h : Links k q p) (hR : RulesLink k R' R) (hk : Code.Known k code) {cs : List (HostCall HostFunction)}
    (hx : Exec p R code s st cs s' st') :
    Exec q R' (Code.raw (Code.link k code)) s st (cs.map (HostCall.link k)) s' st' := by
  induction hx with
  | nil => exact .nil
  | plain hi hs _ ih =>
    obtain ⟨j, hj⟩ := step_link h hi hk.1
    rw [List.map_append, ← hj.calls, Code.link, hj.link]
    exact .plain hj.plain (by rw [hj.step]; exact hs) (ih hk.2)
  | @cond test yes no _ _ _ _ _ _ _ b _ _ hc _ _ ih₁ ih₂ =>
    obtain ⟨⟨ht, hy, hn⟩, hk⟩ := hk
    rw [List.map_append]
    refine .cond (by rw [check_link h ht]; exact hc) ?_ (ih₂ hk)
    cases b
    · exact ih₁ hn
    · exact ih₁ hy
  | done hv hf _ ih => exact .done hv hf (ih hk.2)
  | again hv hf _ _ ih₁ ih₂ =>
    rw [List.map_append]
    exact .again hv hf (ih₁ hk.1) (ih₂ hk)
  | rule hr _ ih =>
    rw [List.map_append]
    exact .rule ((hR ..).2 ⟨_, rfl, hr⟩) (ih hk.2)

/-- What known code is linked to: its first instruction tells which case it is. -/
inductive FirstLinks (k : Constants) (q : Program Raw) (p : Program Inline) : Instr Inline → Instr Raw → Prop
  | plain {i : Instr Inline} {j : Instr Pooled} (hi : isPlain i = true) (hj : StepLinks k q p i j) :
      FirstLinks k q p i j.raw
  | cond {test : Test Inline} {yes no : Code Inline} : FirstLinks k q p (.cond test yes no)
      (.cond (test.link k).raw (Code.raw (Code.link k yes)) (Code.raw (Code.link k no)))
  | whileOk {body : Code Inline} : FirstLinks k q p (.whileOk body) (.whileOk (Code.raw (Code.link k body)))
  | rule {r : Nat} : FirstLinks k q p (.rule r) (.rule r)

theorem raw_link_cons (h : Links k q p) {i : Instr Inline} (hk : i.Known k) (code : Code Inline) :
    ∃ j, FirstLinks k q p i j ∧ Code.raw (Code.link k (i :: code)) = j :: Code.raw (Code.link k code) := by
  cases hi : isPlain i with
  | true =>
    obtain ⟨j, hj⟩ := step_link h hi hk
    exact ⟨j.raw, .plain hi hj, by rw [Code.link, hj.link]; rfl⟩
  | false =>
    cases i with
    | cond test yes no => exact ⟨_, .cond, rfl⟩
    | whileOk body => exact ⟨_, .whileOk, rfl⟩
    | rule r => exact ⟨_, .rule, rfl⟩
    | _ => cases hi

/-- Code that is linked to other code begins with what the first instruction of that was linked from. -/
theorem of_raw_link_cons (h : Links k q p) (hk : Code.Known k code) {j : Instr Raw} {raw : Code Raw}
    (hc : Code.raw (Code.link k code) = j :: raw) :
    ∃ i rest, code = i :: rest ∧ FirstLinks k q p i j ∧ Code.raw (Code.link k rest) = raw := by
  cases code with
  | nil => cases hc
  | cons i rest =>
    obtain ⟨j', hj, e⟩ := raw_link_cons h hk.1 rest
    rw [hc] at e
    cases e
    exact ⟨i, rest, rfl, hj, rfl⟩

theorem FirstLinks.of_not_plain {i : Instr Inline} {j : Instr Raw} (h : FirstLinks k q p i j) (hj : isPlain j = false) :
    (∃ test yes no, i = .cond test yes no ∧
      j = .cond (test.link k).raw (Code.raw (Code.link k yes)) (Code.raw (Code.link k no))) ∨
    (∃ body, i = .whileOk body ∧ j = .whileOk (Code.raw (Code.link k body))) ∨
    ∃ r, i = .rule r ∧ j = .rule r := by
  cases h with
  | plain hi hj' => rw [hj'.plain] at hj; cases hj
  | cond => exact .inl ⟨_, _, _, rfl, rfl⟩
  | whileOk => exact .inr (.inl ⟨_, rfl, rfl⟩)
  | rule => exact .inr (.inr ⟨_, rfl, rfl⟩)

/-- Code that is linked to a condition begins with a condition. -/
theorem of_raw_link_cond (h : Links k q p) (hk : Code.Known k code) {test : Test Raw} {yes no raw : Code Raw}
    (hc : Code.raw (Code.link k code) = .cond test yes no :: raw) :
    ∃ test₀ yes₀ no₀ rest, code = .cond test₀ yes₀ no₀ :: rest ∧ test = (test₀.link k).raw ∧
      yes = Code.raw (Code.link k yes₀) ∧ no = Code.raw (Code.link k no₀) ∧ Code.raw (Code.link k rest) = raw := by
  obtain ⟨i, rest, rfl, hj, tail⟩ := of_raw_link_cons h hk hc
  rcases hj.of_not_plain rfl with ⟨test₀, yes₀, no₀, rfl, e⟩ | ⟨body, rfl, e⟩ | ⟨r, rfl, e⟩ <;> cases e
  exact ⟨test₀, yes₀, no₀, rest, rfl, rfl, rfl, rfl, tail⟩

/-- Code that is linked to a loop begins with a loop. -/
theorem of_raw_link_whileOk (h : Links k q p) (hk : Code.Known k code) {body raw : Code Raw}
    (hc : Code.raw (Code.link k code) = .whileOk body :: raw) :
    ∃ body₀ rest, code = .whileOk body₀ :: rest ∧ body = Code.raw (Code.link k body₀) ∧
      Code.raw (Code.link k rest) = raw := by
  obtain ⟨i, rest, rfl, hj, tail⟩ := of_raw_link_cons h hk hc
  rcases hj.of_not_plain rfl with ⟨test, yes, no, rfl, e⟩ | ⟨body₀, rfl, e⟩ | ⟨r, rfl, e⟩ <;> cases e
  exact ⟨body₀, rest, rfl, rfl, tail⟩

theorem exec_unlink (h : Links k q p) (hR : RulesLink k R' R) (hk : Code.Known k code) {cs : List (HostCall Nat)}
    (hx : Exec q R' (Code.raw (Code.link k code)) s st cs s' st') :
    ∃ cs', cs = cs'.map (HostCall.link k) ∧ Exec p R code s st cs' s' st' := by
  generalize hc : Code.raw (Code.link k code) = raw at hx
  -- the induction is on the run of the linked code; its first instruction tells which one was linked
  induction hx generalizing code with
  | nil =>
    cases code with
    | nil => exact ⟨[], rfl, .nil⟩
    | cons i code =>
      obtain ⟨j, -, e⟩ := raw_link_cons h hk.1 code
      rw [e] at hc
      cases hc
  | plain hi hs _ ih =>
    obtain ⟨i, rest, rfl, hj, tail⟩ := of_raw_link_cons h hk hc
    cases hj with
    | plain hp hj =>
      obtain ⟨cs', rfl, hrest⟩ := ih hk.2 tail
      rw [hj.step] at hs
      exact ⟨_, by rw [List.map_append, hj.calls], .plain hp hs hrest⟩
    | cond | whileOk | rule => cases hi
  | @cond _ _ _ _ s₀ s₁ _ st₀ st₁ _ b cs₁ _ ht _ _ ih₁ ih₂ =>
    obtain ⟨test, yes, no, rest, rfl, rfl, rfl, rfl, tail⟩ := of_raw_link_cond h hk hc
    obtain ⟨⟨hkt, hy, hn⟩, hk⟩ := hk
    have taken : ∃ cs', cs₁ = cs'.map (HostCall.link k) ∧ Exec p R (if b then yes else no) s₀ st₀ cs' s₁ st₁ := by
      cases b
      · exact ih₁ hn rfl
      · exact ih₁ hy rfl
    obtain ⟨cs₁, e₁, block⟩ := taken
    obtain ⟨cs₂, e₂, hrest⟩ := ih₂ hk tail
    rw [check_link h hkt] at ht
    exact ⟨cs₁ ++ cs₂, by rw [e₁, e₂, List.map_append], .cond ht block hrest⟩
  | done hv hf _ ih =>
    obtain ⟨body, rest, rfl, rfl, tail⟩ := of_raw_link_whileOk h hk hc
    obtain ⟨cs', hcs, hrest⟩ := ih hk.2 tail
    exact ⟨cs', hcs, .done hv hf hrest⟩
  | again hv hf _ _ ih₁ ih₂ =>
    obtain ⟨body, rest, rfl, rfl, tail⟩ := of_raw_link_whileOk h hk hc
    obtain ⟨cs₁, e₁, round⟩ := ih₁ hk.1 rfl
    obtain ⟨cs₂, e₂, hrest⟩ := ih₂ hk hc
    exact ⟨cs₁ ++ cs₂, by rw [e₁, e₂, List.map_append], .again hv hf round hrest⟩
  | rule hr _ ih =>
    obtain ⟨i, rest, rfl, hj, tail⟩ := of_raw_link_cons h hk hc
    rcases hj.of_not_plain rfl with ⟨test, yes, no, rfl, e⟩ | ⟨body, rfl, e⟩ | ⟨r, rfl, e⟩ <;> cases e
    obtain ⟨cs₁, e₁, hr⟩ := (hR ..).1 hr
    obtain ⟨cs₂, e₂, hrest⟩ := ih hk.2 tail
    exact ⟨cs₁ ++ cs₂, by rw [e₁, e₂, List.map_append], .rule hr hrest⟩

/-- Linked code runs like the code that was linked. -/
theorem exec_link_iff (h : Links k q p) (hR : RulesLink k R' R) (hk : Code.Known k code) {cs : List (HostCall Nat)} :
    Exec q R' (Code.raw (Code.link k code)) s st cs s' st' ↔
      ∃ cs', cs = cs'.map (HostCall.link k) ∧ Exec p R code s st cs' s' st' := by
  constructor
  · exact exec_unlink h hR hk
  · rintro ⟨cs', rfl, hx⟩
    exact exec_link h hR hk hx

/-! ## Rules -/

theorem reported_link (h : Links k q p) (f : ParseState → ParseState) (st : ParseState) :
    reported q f st = reported p f st := by
  unfold reported
  rw [h.trace]

theorem around_link_iff (h : Links k q p) {r : Nat} {name : String} {A' : Act Nat} {A : Act HostFunction}
    (hA : ∀ st cs v st', A' st cs v st' ↔ ∃ cs', cs = cs'.map (HostCall.link k) ∧ A st cs' v st')
    {cs : List (HostCall Nat)} {v : Value} :
    Around q r name A' st cs v st' ↔ ∃ cs', cs = cs'.map (HostCall.link k) ∧ Around p r name A st cs' v st' := by
  unfold Around
  simp only [reported_link h, h.cache]
  split
  · constructor
    · rintro ⟨rfl, hv, hst⟩; exact ⟨[], rfl, rfl, hv, hst⟩
    · rintro ⟨_, rfl, rfl, hv, hst⟩; exact ⟨rfl, hv, hst⟩
  · constructor
    · rintro ⟨st₁, hb, e⟩
      obtain ⟨cs', hcs, hb⟩ := (hA ..).1 hb
      exact ⟨cs', hcs, st₁, hb, e⟩
    · rintro ⟨cs', rfl, st₁, hb, e⟩
      exact ⟨st₁, (hA ..).2 ⟨cs', rfl, hb⟩, e⟩

/-- Rules with linked code do what rules do whose code was linked. -/
theorem ruleExec_link_iff (h : Links k q p) (n : Nat) : RulesLink k (RuleExec q n) (RuleExec p n) := by
  induction n with
  | zero =>
    intro r st cs v st'
    constructor
    · intro hx; exact hx.elim
    · rintro ⟨_, -, hx⟩; exact hx.elim
  | succ n ih =>
    intro r st cs v st'
    show (∃ code, q.rules.getD r none = some code ∧ _) ↔ ∃ cs', _ ∧ ∃ code, p.rules.getD r none = some code ∧ _
    rw [h.rules]
    cases hc : p.rules.getD r none with
    | none => simp
    | some rule =>
      let A' : Act Nat := fun st cs v st' =>
        Exec q (RuleExec q n) (Code.raw (Code.link k rule.code)) [] st cs [.value v] st'
      let A : Act HostFunction := fun st cs v st' => Exec p (RuleExec p n) rule.code [] st cs [.value v] st'
      have linked : ∀ st cs v st', A' st cs v st' ↔ ∃ cs', cs = cs'.map (HostCall.link k) ∧ A st cs' v st' :=
        fun _ _ _ _ => exec_link_iff h ih (h.known r rule hc)
      have body : Around q r rule.name A' st cs v st' ↔
          ∃ cs', cs = cs'.map (HostCall.link k) ∧ Around p r rule.name A st cs' v st' := around_link_iff h linked
      constructor
      · rintro ⟨_, e, hx⟩
        cases e
        obtain ⟨cs', hcs, hx⟩ := body.1 hx
        exact ⟨cs', hcs, rule, rfl, hx⟩
      · rintro ⟨cs', hcs, _, e, hx⟩
        cases e
        exact ⟨_, rfl, body.2 ⟨cs', hcs, hx⟩⟩

theorem ruleRuns_link_iff (h : Links k q p) : RulesLink k (RuleRuns q) (RuleRuns p) := by
  intro r st cs v st'
  constructor
  · rintro ⟨n, hx⟩
    obtain ⟨cs', hcs, hx⟩ := (ruleExec_link_iff h n ..).1 hx
    exact ⟨cs', hcs, n, hx⟩
  · rintro ⟨cs', hcs, n, hx⟩
    exact ⟨n, (ruleExec_link_iff h n ..).2 ⟨cs', hcs, hx⟩⟩

end Links

end Machine

end PegCompiler
