/-
Runs depend on host code only as far as they call it. With other functions that give the same results wherever a run
calls them, the run is the same.
-/
import PegCompiler.Proofs.Machine.Exec

namespace PegCompiler

variable {ν : Naming}

/-- Functions that a program may call. -/
abbrev HostTable (ν : Naming) := ν .function → Except Fault (FunctionKind × HostFn)

/-- The program with other functions. -/
def Program.withFunctions (p : Program ν) (f : HostTable ν) : Program ν := { p with function := f }

namespace Machine

/-- A call gives the same with both. -/
def GivesSame (f f' : HostTable ν) (call : HostCall (ν .function)) : Prop :=
  ∀ kind host, f call.function = .ok (kind, host) → ∃ host', f' call.function = .ok (kind, host') ∧
    host' call.view call.args = host call.view call.args

section Rebinding

variable {p : Program ν} {f : HostTable ν} {R R' : Nat → Act (ν .function)} {s s' : Stack} {st st' : ParseState}
  {cs : List (HostCall (ν .function))} {v : Value}

theorem check_withFunctions (test : Test ν) : check (p.withFunctions f) test s st = check p test s st := by
  cases test <;> rfl

theorem step_withFunctions {i : Instr ν} (h : step p i s st = .ok s' st')
    (hcalls : ∀ call ∈ hostCalls i s st, GivesSame p.function f call) :
    step (p.withFunctions f) i s st = .ok s' st' := by
  cases i with
  | call g n args =>
    simp only [step, bind_ok_iff, lift_ok_iff, pure_ok_iff, get_ok_iff] at h ⊢
    obtain ⟨⟨kind, host⟩, st₁, ⟨hg, rfl⟩, vs, st₂, ⟨hvs, rfl⟩, st₃, st₄, ⟨rfl, rfl⟩, s₁, st₅, ⟨hs, rfl⟩, rfl, rfl⟩ := h
    obtain ⟨host', hg', same⟩ := hcalls ⟨g, vs, .of st⟩ (by simp [hostCalls, hvs]) kind host hg
    refine ⟨(kind, host'), st, ⟨hg', rfl⟩, vs, st, ⟨hvs, rfl⟩, st, st, ⟨rfl, rfl⟩, s₁, st, ⟨hs, rfl⟩, ?_, rfl⟩
    exact congrArg (fun v => Slot.value (hostResult kind v) :: s₁) same
  | _ => exact h

theorem Exec.rebind (hR : ∀ r st cs v st', R r st cs v st' → (∀ call ∈ cs, GivesSame p.function f call) →
      R' r st cs v st') {code : Code ν} (h : Exec p R code s st cs s' st')
    (hcs : ∀ call ∈ cs, GivesSame p.function f call) : Exec (p.withFunctions f) R' code s st cs s' st' := by
  induction h with
  | nil => exact .nil
  | plain hi h _ ih =>
    rw [List.forall_mem_append] at hcs
    exact .plain hi (step_withFunctions h hcs.1) (ih hcs.2)
  | cond h _ _ ih₁ ih₂ =>
    rw [List.forall_mem_append] at hcs
    exact .cond ((check_withFunctions _).trans h) (ih₁ hcs.1) (ih₂ hcs.2)
  | done h hv _ ih => exact .done h hv (ih hcs)
  | again h hv _ _ ih₁ ih₂ =>
    rw [List.forall_mem_append] at hcs
    exact .again h hv (ih₁ hcs.1) (ih₂ hcs.2)
  | rule h _ ih =>
    rw [List.forall_mem_append] at hcs
    exact .rule (hR _ _ _ _ _ h hcs.1) (ih hcs.2)

theorem Around.rebind {r : Nat} {name : String} {A B : Act (ν .function)}
    (hAB : ∀ st cs v st', A st cs v st' → (∀ call ∈ cs, GivesSame p.function f call) → B st cs v st')
    (h : Around p r name A st cs v st') (hcs : ∀ call ∈ cs, GivesSame p.function f call) :
    Around (p.withFunctions f) r name B st cs v st' := by
  have same : reported (p.withFunctions f) = reported p := rfl
  unfold Around at h ⊢
  rw [same, show (p.withFunctions f).cache = p.cache from rfl]
  split at h
  · exact h
  · obtain ⟨st₁, hb, e⟩ := h
    exact ⟨st₁, hAB _ _ _ _ hb hcs, e⟩

/-- So do rules, however deep they are nested. -/
theorem RuleRuns.rebind {r : Nat} (h : RuleRuns p r st cs v st') (hcs : ∀ call ∈ cs, GivesSame p.function f call) :
    RuleRuns (p.withFunctions f) r st cs v st' := by
  obtain ⟨n, h⟩ := h
  refine ⟨n, ?_⟩
  induction n generalizing r st cs v st' with
  | zero => exact h.elim
  | succ n ih =>
    obtain ⟨code, hcode, h⟩ := h
    exact ⟨code, hcode, h.rebind (fun _ _ _ _ hb hcs => hb.rebind (fun _ _ _ _ _ hr hcs => ih hcs hr) hcs) hcs⟩

end Rebinding

end Machine

end PegCompiler
