/-
What code leaves to nobody else: it ends the silences that it begins, inside the block where it begins them, and it
consumes a literal only in the block that a test for it opens. The code of expressions is tidy, and it is while it
runs, so a count of silences never falls below the number that are still to be ended.
-/
import PegCompiler.Proofs.Code.OfExpr

namespace PegCompiler

/-- Whether an instruction has no blocks, begins and ends no silence, and takes nothing without a test of its own. -/
def Instr.isTame {ν : Naming} : Instr ν → Bool
  | .cond .. | .whileOk _ | .silence | .unsilence | .acceptString _ => false
  | _ => true

namespace Code

/-- Code that ends so many silences from before it, and all that it begins. -/
inductive Tidy {ν : Naming} : Nat → Code ν → Prop
  | nil : Tidy 0 []
  | tame {n : Nat} {i : Instr ν} {code : Code ν} (hi : i.isTame = true) (rest : Tidy n code) : Tidy n (i :: code)
  | silence {n : Nat} {code : Code ν} (rest : Tidy (n + 1) code) : Tidy n (.silence :: code)
  | unsilence {n : Nat} {code : Code ν} (rest : Tidy n code) : Tidy (n + 1) (.unsilence :: code)
  | cond {n : Nat} {test : Test ν} {yes no code : Code ν} (hyes : Tidy 0 yes) (hno : Tidy 0 no) (rest : Tidy n code) :
      Tidy n (.cond test yes no :: code)
  | tested {n : Nat} {l : ν .literal} {no code : Code ν} (hno : Tidy 0 no) (rest : Tidy n code) :
      Tidy n (.cond (.string l) [.acceptString l] no :: code)
  | whileOk {n : Nat} {body code : Code ν} (hbody : Tidy 0 body) (rest : Tidy n code) : Tidy n (.whileOk body :: code)

section Tidy

variable {ν : Naming} {a b : Code ν} {n m : Nat}

theorem Tidy.append (ha : Tidy n a) (hb : Tidy m b) : Tidy (n + m) (a ++ b) := by
  induction ha with
  | nil => simpa using hb
  | tame hi _ ih => exact .tame hi ih
  | silence _ ih =>
    refine .silence ?_
    rw [Nat.add_right_comm]
    exact ih
  | unsilence _ ih =>
    rw [Nat.add_right_comm]
    exact .unsilence ih
  | cond hyes hno _ _ _ ih => exact .cond hyes hno ih
  | tested hno _ _ ih => exact .tested hno ih
  | whileOk hbody _ _ ih => exact .whileOk hbody ih

end Tidy

/-- Constants do not matter for it. -/
theorem Tidy.raw_link {n : Nat} {code : Code Inline} (h : Tidy n code) (k : Constants) : Tidy n (raw (link k code)) := by
  induction h with
  | nil => exact .nil
  | @tame n i code hi _ ih =>
    cases i with
    | cond | whileOk | silence | unsilence | acceptString => cases hi
    | defect => exact ih
    | _ => exact .tame rfl ih
  | silence _ ih => exact .silence ih
  | unsilence _ ih => exact .unsilence ih
  | cond _ _ _ ihYes ihNo ih => exact .cond ihYes ihNo ih
  | tested _ _ ihNo ih => exact .tested ihNo ih
  | whileOk _ _ ihBody ih => exact .whileOk ihBody ih

theorem emits_tidy : Emits (Tidy 0) where
  nil := .nil
  append := fun ha hb => ha.append hb
  single := fun {i} hi => by
    refine .tame ?_ .nil
    cases i with
    | cond | whileOk | silence | unsilence | acceptString => cases hi
    | _ => rfl
  cond := fun hyes hno => .cond hyes hno .nil
  whileOk := fun hbody => .whileOk hbody .nil
  bracket := fun _ h => .tame rfl (h.append (.tame rfl .nil))
  silenced := fun h => .silence (h.append (.unsilence .nil))
  tested := fun hno => .tested hno .nil

/-- No literal is sure to match but the empty one, for which there is nothing to test. -/
def Unsure (p : Plan) (e : Expr) : Prop :=
  ∀ i value, .literal i value false ∈ e.preorder → value ≠ "" → p.matched (.literal i value false) ≠ .always

theorem excuses_tidy {p : Plan} {e : Expr} (h : Unsure p e) (scope : Analysis.Scope) :
    Excuses (Tidy 0) p [] scope [e] where
  calls := fun _ _ _ _ _ _ _ _ _ _ => .tame rfl .nil
  unresolved := fun _ _ _ _ _ => .tame rfl .nil
  labels := .inl fun _ => .tame rfl .nil
  literals := .inr fun _ he => List.mem_singleton.1 he ▸ h

/-- The code of expressions is tidy. -/
theorem tidy_ofExpr {p : Plan} {e : Expr} (h : Unsure p e) (env : Env) (size : Nat) :
    Tidy 0 (ofExpr p e env size) := by
  have scope : (env.map fun b => (b.1, (.empty : Span))).map (·.1) = env.map (·.1) := by simp
  exact emits_tidy.ofExpr e _ env size scope (.inl fun _ _ => .tame rfl .nil) (excuses_tidy h _)

theorem tidy_ofRule {p : Plan} {r : Rule} (h : Unsure p r.body) : Tidy 0 (ofRule p r) :=
  emits_tidy.ofRule (excuses_tidy h [])

end Code

end PegCompiler
