/-
Places in the grammar mean nothing to the machine: what a program does, it also does when all brackets are left out of
its code.
-/
import PegCompiler.Proofs.Code.Unmapped
import PegCompiler.Proofs.Machine.Exec

namespace PegCompiler

variable {ν : Naming}

/-- The program without places in the grammar. -/
def Program.unmapped (p : Program ν) : Program ν :=
  { p with rules := p.rules.map (Option.map fun rule => { rule with code := rule.code.unmapped }) }

namespace Machine

section Unmapped

variable {p : Program ν} {R R' : Nat → Act (ν .function)} {s s' : Stack} {st st' : ParseState}
  {cs : List (HostCall (ν .function))} {v : Value}

theorem getD_unmapped (p : Program ν) (r : Nat) : p.unmapped.rules.getD r none =
    (p.rules.getD r none).map fun rule => { rule with code := rule.code.unmapped } := by
  unfold Program.unmapped
  rw [Array.getD_eq_getD_getElem?, Array.getD_eq_getD_getElem?, Array.getElem?_map]
  cases p.rules[r]? <;> rfl

theorem check_unmapped (test : Test ν) : check p.unmapped test s st = check p test s st := by
  cases test <;> rfl

theorem step_unmapped (i : Instr ν) : step p.unmapped i s st = step p i s st := by
  cases i <;> rfl

theorem Exec.unmapped (hR : ∀ r st cs v st', R r st cs v st' → R' r st cs v st') {code : Code ν}
    (h : Exec p R code s st cs s' st') : Exec p.unmapped R' code.unmapped s st cs s' st' := by
  induction h with
  | nil => exact .nil
  | @plain i code s s₁ s' st st₁ st' cs hi h _ ih =>
    cases i with
    | cond | whileOk | rule => cases hi
    | mapPush | mapPop =>
      -- a bracket is a step that does nothing
      cases h
      exact ih
    | _ => exact .plain hi ((step_unmapped _).trans h) ih
  | @cond test yes no code s s₁ s' st st₁ st' b cs₁ cs₂ h _ _ ih₁ ih₂ =>
    refine .cond ((check_unmapped _).trans h) ?_ ih₂
    cases b <;> exact ih₁
  | done h hv _ ih => exact .done h hv ih
  | again h hv _ _ ih₁ ih₂ => exact .again h hv ih₁ ih₂
  | rule h _ ih => exact .rule (hR _ _ _ _ _ h) ih

/-- Rules do what they do with places, however deep they are nested. -/
theorem RuleRuns.unmapped {r : Nat} (h : RuleRuns p r st cs v st') : RuleRuns p.unmapped r st cs v st' := by
  obtain ⟨n, h⟩ := h
  refine ⟨n, ?_⟩
  induction n generalizing r st cs v st' with
  | zero => exact h.elim
  | succ n ih =>
    obtain ⟨code, hcode, h⟩ := h
    refine ⟨{ code with code := code.code.unmapped }, by rw [getD_unmapped, hcode]; rfl, ?_⟩
    exact h.mono fun _ _ _ _ hb => hb.unmapped fun _ _ _ _ _ hr => ih hr

end Unmapped

end Machine

end PegCompiler
