/-
What holds of every way in which an act can end: `Ends A st Q` says that `Q` does, of the value and of
the state after it, when the act starts in `st`. One equation for every combinator takes such facts
apart; `ends_collects` is the rule for repetitions, with an invariant of the rounds.
-/
import PegCompiler.Proofs.Meaning.Basic

namespace PegCompiler.Machine

/-- `Q` holds of every value and state that the act can end with. -/
def Ends {φ : Type} (A : Act φ) (st : ParseState) (Q : Value → ParseState → Prop) : Prop :=
  ∀ cs v st', A st cs v st' → Q v st'

section Ends

variable {φ : Type} {A B : Act φ} {st : ParseState} {Q Q' : Value → ParseState → Prop}

theorem Ends.mono (h : Ends A st Q) (hQ : ∀ v st', Q v st' → Q' v st') : Ends A st Q' :=
  fun cs v st' hA => hQ v st' (h cs v st' hA)

@[simp]
theorem ends_pure {v : Value} : Ends (.pure v : Act φ) st Q ↔ Q v st :=
  ⟨fun h => h _ _ _ ⟨rfl, rfl, rfl⟩, fun h _ _ _ ⟨_, hv, hst⟩ => hv ▸ hst ▸ h⟩

@[simp]
theorem ends_stuck : Ends (.stuck : Act φ) st Q ↔ True := ⟨fun _ => trivial, fun _ _ _ _ h => h.elim⟩

@[simp]
theorem ends_bind {D : Value → Act φ} :
    Ends (A.bind D) st Q ↔ Ends A st fun v st' => Ends (D v) st' Q := by
  constructor
  · intro h cs₁ v st₁ hA cs₂ w st' hD
    exact h _ _ _ ⟨cs₁, v, st₁, cs₂, hA, hD, rfl⟩
  · rintro h cs w st' ⟨cs₁, v, st₁, cs₂, hA, hD, rfl⟩
    exact h _ _ _ hA _ _ _ hD

@[simp]
theorem ends_read {D : ParseState → Act φ} : Ends (.read D) st Q ↔ Ends (D st) st Q := Iff.rfl

@[simp]
theorem ends_after {f : ParseState → ParseState} : Ends (.after f A) st Q ↔ Ends A (f st) Q := Iff.rfl

@[simp]
theorem ends_backTo {pos : Nat} {v : Value} : Ends (.backTo pos v : Act φ) st Q ↔ Q v { st with pos } := ends_pure

@[simp]
theorem ends_change {f : ParseState → Value × ParseState} :
    Ends (.change f : Act φ) st Q ↔ Q (f st).1 (f st).2 := by
  constructor
  · intro h; exact h [] _ _ ⟨rfl, rfl⟩
  · rintro h _ v st' ⟨-, hf⟩
    rw [hf] at h; exact h

@[simp]
theorem ends_failing {e : Expectation} : Ends (.failing e : Act φ) st Q ↔ Q .failed (st.fail e) := ends_change

@[simp]
theorem ends_call {function : φ → Except Fault (FunctionKind × HostFn)} {f : φ} {args : List Value} :
    Ends (.call function f args) st Q ↔
      ∀ kind host, function f = .ok (kind, host) → Q (hostResult kind (host (.of st) args)) st := by
  constructor
  · intro h kind host hf; exact h _ _ _ ⟨kind, host, hf, rfl, rfl, rfl⟩
  · rintro h _ _ _ ⟨kind, host, hf, rfl, rfl, rfl⟩; exact h kind host hf

@[simp]
theorem ends_silently {D : Value → Act φ} :
    Ends (.silently A D) st Q ↔ Ends A { st with silent := st.silent + 1 } fun v st' =>
      Ends (D v) { st' with silent := st'.silent - 1 } Q := by
  unfold Act.silently
  rw [ends_after, ends_bind]
  exact Iff.rfl

theorem ends_ite {b : Bool} (hA : b = true → Ends A st Q) (hB : b = false → Ends B st Q) :
    Ends (if b then A else B) st Q := by
  cases b
  · exact hB rfl
  · exact hA rfl

/-- Rounds that keep `J`, which tells of the number of items so far and of the next one, end with an array of
items and a failure of which `J` holds. -/
theorem ends_collects {item : Nat → Act φ} {J : Nat → Value → ParseState → Prop}
    (hJ : ∀ n v st, J n v st → v.isFailed = false → Ends (item (n + 1)) st (J (n + 1))) {vs : List Value} {v : Value}
    (h : J vs.length v st) :
    Ends (.Collects item vs v) st fun w st' =>
      ∃ ws u, w = .array ws ∧ u.isFailed = true ∧ J ws.length u st' := by
  intro cs w st' hc
  induction hc with
  | done hv => exact ⟨_, _, rfl, hv, h⟩
  | more hv hw _ ih =>
    refine ih ?_
    rw [List.length_append]
    exact hJ _ _ _ h hv _ _ _ hw

end Ends

end PegCompiler.Machine
