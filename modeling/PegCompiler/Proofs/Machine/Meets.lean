/-
The conditions that a run comes to. `Meets` tells of a block which tests are made while it runs, and on which stacks,
also in a run that never ends; what holds of all of them is put together from the parts of the block (`Heeds`). It then
holds at every point that a parse visits (`Visits.heeds`), and for linked code as for the code that was linked.
-/
import PegCompiler.Proofs.Machine.Linking
import PegCompiler.Proofs.Machine.Visits
import PegCompiler.Proofs.Machine.Yields

namespace PegCompiler.Machine

variable {ν : Naming}

/-- A run of a block meets a condition, with a stack. -/
inductive Meets (p : Program ν) (R : Nat → Act (ν .function)) :
    Code ν → Stack → ParseState → Test ν → Stack → Prop
  | here {test : Test ν} {yes no code : Code ν} {s : Stack} {st : ParseState} :
      Meets p R (.cond test yes no :: code) s st test s
  /-- In the block that a condition opens. -/
  | branch {test t : Test ν} {yes no code : Code ν} {s s' : Stack} {st : ParseState} {b : Bool}
      (h : check p test s st = .ok b st) (inner : Meets p R (if b then yes else no) s st t s') :
      Meets p R (.cond test yes no :: code) s st t s'
  /-- In the first round of a loop. -/
  | round {t : Test ν} {body code : Code ν} {s s' : Stack} {st : ParseState} {v : Value} (h : s.value 0 = .ok v)
      (hv : v.isFailed = false) (inner : Meets p R body s st t s') : Meets p R (.whileOk body :: code) s st t s'
  /-- In a later round. -/
  | again {t : Test ν} {body code : Code ν} {s s₁ s' : Stack} {st st₁ : ParseState} {v : Value}
      {cs : List (HostCall (ν .function))} (h : s.value 0 = .ok v) (hv : v.isFailed = false)
      (round : Exec p R body s st cs s₁ st₁) (rest : Meets p R (.whileOk body :: code) s₁ st₁ t s') :
      Meets p R (.whileOk body :: code) s st t s'
  /-- After the first instruction. -/
  | later {i : Instr ν} {t : Test ν} {code : Code ν} {s s₁ s' : Stack} {st st₁ : ParseState}
      {cs : List (HostCall (ν .function))} (h : Exec p R [i] s st cs s₁ st₁) (rest : Meets p R code s₁ st₁ t s') :
      Meets p R (i :: code) s st t s'

section Blocks

variable {p : Program ν} {R : Nat → Act (ν .function)} {a b : Code ν} {s s' : Stack} {st : ParseState} {t : Test ν}

/-- Of blocks one after the other, the second one is met where the first one ends. -/
theorem Meets.of_append (h : Meets p R (a ++ b) s st t s') :
    Meets p R a s st t s' ∨ ∃ cs s₁ st₁, Exec p R a s st cs s₁ st₁ ∧ Meets p R b s₁ st₁ t s' := by
  generalize hc : a ++ b = code at h
  -- the induction is on the run of both blocks, `a` is what is left of the first one
  induction h generalizing a with
  | here =>
    cases a with
    | nil => subst hc; exact .inr ⟨[], _, _, .nil, .here⟩
    | cons i a => cases hc; exact .inl .here
  | branch h inner =>
    cases a with
    | nil => subst hc; exact .inr ⟨[], _, _, .nil, .branch h inner⟩
    | cons i a => cases hc; exact .inl (.branch h inner)
  | round h hv inner =>
    cases a with
    | nil => subst hc; exact .inr ⟨[], _, _, .nil, .round h hv inner⟩
    | cons i a => cases hc; exact .inl (.round h hv inner)
  | again h hv round rest ih =>
    cases a with
    | nil => subst hc; exact .inr ⟨[], _, _, .nil, .again h hv round rest⟩
    | cons i a =>
      cases hc
      rcases ih (a := _ :: a) rfl with met | ⟨cs, s₁, st₁, first, met⟩
      · exact .inl (.again h hv round met)
      · exact .inr ⟨_, s₁, st₁, .again h hv round first, met⟩
  | later h rest ih =>
    cases a with
    | nil => subst hc; exact .inr ⟨[], _, _, .nil, .later h rest⟩
    | cons i a =>
      cases hc
      rcases ih rfl with met | ⟨cs, s₁, st₁, first, met⟩
      · exact .inl (.later h met)
      · exact .inr ⟨_, s₁, st₁, exec_append_of h first, met⟩

/-! ## What all conditions heed -/

/-- Something holds of all conditions that runs of the block from a stack meet. -/
def Heeds (p : Program ν) (R : Nat → Act (ν .function)) (Q : Test ν → Stack → Prop) (code : Code ν) (s : Stack) : Prop :=
  ∀ st t s', Meets p R code s st t s' → Q t s'

variable {Q : Test ν → Stack → Prop}

theorem heeds_nil : Heeds p R Q [] s := fun _ _ _ h => by cases h

theorem heeds_append (ha : Heeds p R Q a s)
    (hb : ∀ st cs s₁ st₁, Exec p R a s st cs s₁ st₁ → Heeds p R Q b s₁) : Heeds p R Q (a ++ b) s := by
  intro st t s' h
  rcases h.of_append with h | ⟨cs, s₁, st₁, first, h⟩
  · exact ha st t s' h
  · exact hb st cs s₁ st₁ first st₁ t s' h

/-- An instruction without conditions comes to what is after it. -/
theorem heeds_plain {i : Instr ν} (hi : isPlain i = true)
    (h : ∀ st s₁ st₁, step p i s st = .ok s₁ st₁ → Heeds p R Q b s₁) : Heeds p R Q (i :: b) s := by
  intro st t s' hm
  cases hm with
  | later first rest =>
    obtain ⟨s₁, st₁, cs, hs, hnil, -⟩ := (exec_plain_iff hi).1 first
    obtain ⟨-, rfl, rfl⟩ := exec_nil_iff.1 hnil
    exact h _ _ _ hs _ t s' rest
  | here | branch | round | again => cases hi

/-- Instructions without conditions meet none. -/
theorem heeds_all (h : a.all isPlain = true) : Heeds p R Q a s := by
  induction a generalizing s with
  | nil => exact heeds_nil
  | cons i a ih =>
    rw [List.all_cons, Bool.and_eq_true] at h
    exact heeds_plain h.1 fun _ _ _ _ => ih h.2

theorem heeds_cond {test : Test ν} (ht : Q test s) (ha : Heeds p R Q a s) (hb : Heeds p R Q b s) :
    Heeds p R Q [.cond test a b] s := by
  intro st t s' hm
  cases hm with
  | here => exact ht
  | @branch _ _ _ _ _ _ _ _ taken _ inner =>
    cases taken
    · exact hb st t s' inner
    · exact ha st t s' inner
  | later _ rest => cases rest

theorem heeds_rule {r : Nat} : Heeds p R Q [.rule r] s := by
  intro st t s' hm
  cases hm with
  | later _ rest => cases rest

/-- A loop that collects values: `J` holds of the array and the next value before every round. -/
theorem heeds_loop {J : List Value → Value → Prop}
    (hJ : ∀ vs v, J vs v → v.isFailed = false → Heeds p R Q a (.value (.array (vs ++ [v])) :: s) ∧
      ∀ st cs s₁ st₁, Exec p R a (.value (.array (vs ++ [v])) :: s) st cs s₁ st₁ →
        ∃ w, s₁ = .value w :: .value (.array (vs ++ [v])) :: s ∧ J (vs ++ [v]) w)
    {vs : List Value} {v : Value} (h : J vs v) :
    Heeds p R Q [.whileOk ([.append] ++ a)] (.value v :: .value (.array vs) :: s) := by
  intro st t s' hm
  generalize hs : Slot.value v :: .value (.array vs) :: s = stack at hm
  generalize hc : [Instr.whileOk ([.append] ++ a)] = code at hm
  -- the induction is on the rounds before the condition
  induction hm generalizing vs v with
  | here => cases hc
  | branch => cases hc
  | @round _ _ _ _ _ _ v hv hf inner =>
    cases hc
    subst hs
    cases hv
    have appended : Heeds p R Q ([.append] ++ a) (.value v :: .value (.array vs) :: s) := by
      refine heeds_plain rfl fun st s₁ st₁ hstep => ?_
      cases hstep
      exact (hJ vs v h hf).1
    exact appended _ _ _ inner
  | @again _ _ _ _ _ _ _ _ v _ hv hf round rest ih =>
    cases hc
    subst hs
    cases hv
    rw [List.singleton_append, exec_step (.value (.array (vs ++ [v])) :: s) _ rfl rfl rfl] at round
    obtain ⟨w, rfl, hw⟩ := (hJ vs v h hf).2 _ _ _ _ round
    exact ih hw rfl rfl
  | later _ rest =>
    cases hc
    cases rest

end Blocks

/-! ## Linked code -/

theorem FirstLinks.single {k : Constants} {q : Program Raw} {p : Program Inline} {i : Instr Inline} {j : Instr Raw}
    (h : FirstLinks k q p i j) : Code.raw (Code.link k [i]) = [j] := by
  cases h with
  | plain _ hj => rw [Code.link, hj.link]; rfl
  | cond => rfl
  | whileOk => rfl
  | rule => rfl

/-- Conditions that linked code meets were linked from conditions that the code meets. -/
theorem Meets.unlink {k : Constants} {q : Program Raw} {p : Program Inline} (h : Links k q p) {R' : Nat → Act Nat}
    {R : Nat → Act HostFunction} (hR : RulesLink k R' R) {code : Code Inline} (hk : Code.Known k code) {s s' : Stack}
    {st : ParseState} {t : Test Raw} (hm : Meets q R' (Code.raw (Code.link k code)) s st t s') :
    ∃ t₀ : Test Inline, t = (t₀.link k).raw ∧ Meets p R code s st t₀ s' := by
  -- the induction is on what linked code meets; each instruction on the way was linked from one
  generalize hc : Code.raw (Code.link k code) = raw at hm
  induction hm generalizing code with
  | here =>
    obtain ⟨test, yes, no, rest, rfl, rfl, rfl, rfl, tail⟩ := of_raw_link_cond h hk hc
    exact ⟨test, rfl, .here⟩
  | @branch _ _ _ _ _ _ _ _ b hcheck _ ih =>
    obtain ⟨test, yes, no, rest, rfl, rfl, rfl, rfl, tail⟩ := of_raw_link_cond h hk hc
    obtain ⟨⟨ht, hy, hn⟩, -⟩ := hk
    rw [check_link h ht] at hcheck
    have taken : Code.Known k (if b then yes else no) := by cases b <;> assumption
    obtain ⟨t₀, e, met⟩ := ih taken (by cases b <;> rfl)
    exact ⟨t₀, e, .branch hcheck met⟩
  | round hv hf _ ih =>
    obtain ⟨body, rest, rfl, rfl, tail⟩ := of_raw_link_whileOk h hk hc
    obtain ⟨t₀, e, met⟩ := ih hk.1 rfl
    exact ⟨t₀, e, .round hv hf met⟩
  | again hv hf round _ ih =>
    obtain ⟨body, rest, rfl, rfl, tail⟩ := of_raw_link_whileOk h hk hc
    obtain ⟨cs, -, first⟩ := exec_unlink h hR hk.1 round
    obtain ⟨t₀, e, met⟩ := ih hk hc
    exact ⟨t₀, e, .again hv hf first met⟩
  | later first _ ih =>
    obtain ⟨i, rest, rfl, hj, tail⟩ := of_raw_link_cons h hk hc
    rw [← hj.single] at first
    have known : Code.Known k [i] := ⟨hk.1, trivial⟩
    obtain ⟨cs, -, first⟩ := exec_unlink h hR known first
    obtain ⟨t₀, e, met⟩ := ih hk.2 tail
    exact ⟨t₀, e, .later first met⟩

/-! ## All of a parse -/

/-- What the conditions in the code of every rule heed, the conditions of a parse do wherever it comes to. -/
theorem Visits.heeds {p : Program ν} {Q : Nat → Test ν → Stack → Prop}
    (hrules : ∀ r rule, p.rules.getD r none = some rule → Heeds p (RuleRuns p) (Q r) rule.code []) {r : Nat}
    {st : ParseState} {y : Point ν} (hy : Visits p r st y) {t : Test ν} {s' : Stack}
    (hm : Meets p (RuleRuns p) y.code y.stack y.state t s') : Q y.rule t s' := by
  refine Visits.induction (P := fun y => ∀ t s', Meets p (RuleRuns p) y.code y.stack y.state t s' → Q y.rule t s')
    ?_ ?_ hy t s' hm
  · rintro r st x ⟨rule, hrule, -, rfl⟩ t s' hm
    exact hrules r rule hrule _ t s' hm
  · intro x y ih hnext t s' hm
    -- the code before the step meets what the code after it does, so it is known already
    cases hnext with
    | plain hi hstep => exact ih t s' (.later (.plain hi hstep .nil) hm)
    | cond hcheck =>
      rcases hm.of_append with met | ⟨cs, s₁, st₁, block, met⟩
      · exact ih t s' (.branch hcheck met)
      · exact ih t s' (.later (.cond hcheck block .nil) met)
    | done hv hf => exact ih t s' (.later (.done hv hf .nil) hm)
    | again hv hf =>
      rcases hm.of_append with met | ⟨cs, s₁, st₁, round, met⟩
      · exact ih t s' (.round hv hf met)
      · exact ih t s' (.again hv hf round met)
    | enter henters =>
      obtain ⟨rule, hrule, -, rfl⟩ := henters
      exact hrules _ rule hrule _ t s' hm
    | leave hrule =>
      obtain ⟨cs, hruns⟩ := rule_ok_iff.1 ⟨_, hrule⟩
      exact ih t s' (.later (.rule hruns .nil) hm)

end PegCompiler.Machine
