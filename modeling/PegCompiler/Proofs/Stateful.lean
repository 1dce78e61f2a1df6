/-
Computations that change a state: how those that may fail end well, and what holds after those that never do,
if they are made of others.
-/
namespace PegCompiler

variable {ε σ α β : Type}

/-! ## Computations that may fail -/

theorem bind_ok_iff {x : EStateM ε σ α} {f : α → EStateM ε σ β} {s s' : σ} {b : β} :
    (x >>= f) s = .ok b s' ↔ ∃ a s₁, x s = .ok a s₁ ∧ f a s₁ = .ok b s' := by
  show EStateM.bind x f s = _ ↔ _
  unfold EStateM.bind
  cases x s with
  | ok a s₁ =>
    simp only [EStateM.Result.ok.injEq]
    exact ⟨fun h => ⟨a, s₁, ⟨rfl, rfl⟩, h⟩, fun ⟨_, _, ⟨h₁, h₂⟩, h⟩ => by subst h₁ h₂; exact h⟩
  | error e s₁ => simp

theorem bind_error_iff {x : EStateM ε σ α} {f : α → EStateM ε σ β} {s s' : σ} {e : ε} :
    (x >>= f) s = .error e s' ↔ x s = .error e s' ∨ ∃ a s₁, x s = .ok a s₁ ∧ f a s₁ = .error e s' := by
  show EStateM.bind x f s = _ ↔ _
  unfold EStateM.bind
  cases x s with
  | ok a s₁ =>
    simp only [EStateM.Result.ok.injEq, reduceCtorEq, false_or]
    exact ⟨fun h => ⟨a, s₁, ⟨rfl, rfl⟩, h⟩, fun ⟨_, _, ⟨h₁, h₂⟩, h⟩ => by subst h₁ h₂; exact h⟩
  | error e₁ s₁ => simp

theorem bind_ok {x : EStateM ε σ α} {f : α → EStateM ε σ β} {s s₁ : σ} {a : α} (h : x s = .ok a s₁) :
    (x >>= f) s = f a s₁ := by
  show EStateM.bind x f s = _
  unfold EStateM.bind
  rw [h]

theorem pure_ok_iff {a b : α} {s s' : σ} : (pure a : EStateM ε σ α) s = .ok b s' ↔ a = b ∧ s = s' := by
  show EStateM.Result.ok a s = _ ↔ _
  simp

theorem run'_eq_some_iff {x : EStateM ε σ α} {s : σ} {a : α} : x.run' s = some a ↔ ∃ s', x s = .ok a s' := by
  unfold EStateM.run' EStateM.run
  cases x s with
  | ok b s' =>
    simp only [EStateM.Result.ok.injEq, Option.some.injEq]
    exact ⟨fun h => ⟨s', h, rfl⟩, fun ⟨_, h, _⟩ => h⟩
  | error e s' => simp

theorem except_bind_ok_iff {x : Except ε α} {f : α → Except ε β} {b : β} :
    x >>= f = .ok b ↔ ∃ a, x = .ok a ∧ f a = .ok b := by
  cases x with
  | error e => simp [bind, Except.bind]
  | ok a => simp [bind, Except.bind]

/-- How it goes on matters for what is answered only. -/
theorem except_bind_congr {x : Except ε α} {f k : α → Except ε β} (h : ∀ a, x = .ok a → f a = k a) :
    x >>= f = x >>= k := by
  cases x with
  | error e => rfl
  | ok a => exact h a rfl

theorem modify_ok_iff {f : σ → σ} {a : PUnit} {s s' : σ} :
    (modify f : EStateM ε σ PUnit) s = .ok a s' ↔ f s = s' := by
  show EStateM.Result.ok PUnit.unit (f s) = _ ↔ _
  simp

theorem forM_append_ok_iff {f : α → EStateM ε σ PUnit} {as bs : List α} {s s' : σ} {u : PUnit} :
    (as ++ bs).forM f s = .ok u s' ↔ ∃ s₁, as.forM f s = .ok ⟨⟩ s₁ ∧ bs.forM f s₁ = .ok u s' := by
  induction as generalizing s with
  | nil =>
    constructor
    · intro h; exact ⟨s, rfl, h⟩
    · rintro ⟨s₁, h₁, h⟩
      cases h₁; exact h
  | cons a as ih =>
    show ((f a >>= fun _ => (as ++ bs).forM f) s = .ok u s') ↔
      ∃ s₁, (f a >>= fun _ => as.forM f) s = .ok ⟨⟩ s₁ ∧ bs.forM f s₁ = .ok u s'
    simp only [bind_ok_iff, ih]
    constructor
    · rintro ⟨_, s₁, ha, s₂, has, hbs⟩; exact ⟨s₂, ⟨_, s₁, ha, has⟩, hbs⟩
    · rintro ⟨s₂, ⟨_, s₁, ha, has⟩, hbs⟩; exact ⟨_, s₁, ha, s₂, has, hbs⟩

/-- A computation ends in a state, whether it fails or not. -/
def EndsIn (x : EStateM ε σ α) (s s' : σ) : Prop := (∃ a, x s = .ok a s') ∨ ∃ e, x s = .error e s'

theorem endsIn_bind_iff {x : EStateM ε σ α} {f : α → EStateM ε σ β} {s s' : σ} :
    EndsIn (x >>= f) s s' ↔ (∃ e, x s = .error e s') ∨ ∃ a s₁, x s = .ok a s₁ ∧ EndsIn (f a) s₁ s' := by
  unfold EndsIn
  simp only [bind_ok_iff, bind_error_iff]
  constructor
  · rintro (⟨b, a, s₁, hx, hf⟩ | ⟨e, hx | ⟨a, s₁, hx, hf⟩⟩)
    · exact .inr ⟨a, s₁, hx, .inl ⟨b, hf⟩⟩
    · exact .inl ⟨e, hx⟩
    · exact .inr ⟨a, s₁, hx, .inr ⟨e, hf⟩⟩
  · rintro (⟨e, hx⟩ | ⟨a, s₁, hx, ⟨b, hf⟩ | ⟨e, hf⟩⟩)
    · exact .inr ⟨e, .inl hx⟩
    · exact .inl ⟨b, a, s₁, hx, hf⟩
    · exact .inr ⟨e, .inr ⟨a, s₁, hx, hf⟩⟩

/-- What the computations for all elements keep, whether they fail or not, holds at the end. -/
theorem EndsIn.forM {I : σ → Prop} {f : α → EStateM ε σ PUnit} {l : List α} {s s' : σ} (h : EndsIn (l.forM f) s s')
    (step : ∀ a ∈ l, ∀ s s', I s → EndsIn (f a) s s' → I s') (hs : I s) : I s' := by
  induction l generalizing s with
  | nil =>
    rcases h with ⟨_, h⟩ | ⟨_, h⟩
    · cases h; exact hs
    · cases h
  | cons a l ih =>
    rcases endsIn_bind_iff.1 h with h | ⟨_, s₁, h₁, h⟩
    · exact step a List.mem_cons_self s s' hs (.inr h)
    · exact ih h (fun b hb => step b (List.mem_cons_of_mem a hb)) (step a List.mem_cons_self s s₁ hs (.inl ⟨_, h₁⟩))

/-- One of the computations for all elements fails as all of them together do, with what those before it keep. -/
theorem forM_error {I : σ → Prop} {f : α → EStateM ε σ PUnit} {l : List α} {s s' : σ} {e : ε}
    (h : l.forM f s = .error e s') (step : ∀ a ∈ l, ∀ s s', I s → EndsIn (f a) s s' → I s') (hs : I s) :
    ∃ a ∈ l, ∃ s₁, I s₁ ∧ f a s₁ = .error e s' := by
  induction l generalizing s with
  | nil => cases h
  | cons a l ih =>
    rcases bind_error_iff.1 h with h | ⟨_, s₁, h₁, h⟩
    · exact ⟨a, List.mem_cons_self, s, hs, h⟩
    · have hs₁ := step a List.mem_cons_self s s₁ hs (.inl ⟨_, h₁⟩)
      obtain ⟨b, hb, later⟩ := ih h (fun b hb => step b (List.mem_cons_of_mem a hb)) hs₁
      exact ⟨b, List.mem_cons_of_mem a hb, later⟩

/-! ## Computations that do not fail -/

/-- `Q` holds of the answer that a computation gives from a state, and of the state after it. -/
def After (x : StateM σ α) (s : σ) (Q : α → σ → Prop) : Prop := Q (x s).1 (x s).2

section After

variable {x : StateM σ α} {f : α → StateM σ β} {s : σ} {Q Q' : α → σ → Prop}

theorem After.mono (h : After x s Q) (hQ : ∀ a s', Q a s' → Q' a s') : After x s Q' := hQ _ _ h

@[simp]
theorem after_pure {a : α} : After (pure a) s Q ↔ Q a s := Iff.rfl

@[simp]
theorem after_bind {Q : β → σ → Prop} : After (x >>= f) s Q ↔ After x s fun a s' => After (f a) s' Q := Iff.rfl

@[simp]
theorem after_get {Q : σ → σ → Prop} : After get s Q ↔ Q s s := Iff.rfl

@[simp]
theorem after_set {s' : σ} {Q : PUnit → σ → Prop} : After (set s') s Q ↔ Q ⟨⟩ s' := Iff.rfl

@[simp]
theorem after_modify {g : σ → σ} {Q : PUnit → σ → Prop} : After (modify g) s Q ↔ Q ⟨⟩ (g s) := Iff.rfl

theorem bind_apply : (x >>= f) s = f (x s).1 (x s).2 := rfl

theorem get_bind_apply {f : σ → StateM σ β} : (get >>= f) s = f s s := rfl

/-- What computations keep that give an answer for every element, all of them together keep. -/
theorem after_mapM {I : σ → Prop} {P : α → β → Prop} {l : List α}
    (h : ∀ a ∈ l, ∀ s, I s → After (f a) s fun b s' => I s' ∧ P a b) (hs : I s) :
    After (l.mapM f) s fun bs s' => I s' ∧ ∀ a ∈ l, ∃ b ∈ bs, P a b := by
  induction l generalizing s with
  | nil =>
    rw [List.mapM_nil]
    exact ⟨hs, fun a ha => by cases ha⟩
  | cons a l ih =>
    rw [List.mapM_cons]
    simp only [after_bind, after_pure]
    refine (h a List.mem_cons_self s hs).mono fun b s₁ ⟨h₁, hb⟩ => ?_
    refine (ih (fun a' ha => h a' (List.mem_cons_of_mem _ ha)) h₁).mono fun bs s' ⟨h', hbs⟩ => ⟨h', fun a' ha => ?_⟩
    rcases List.mem_cons.1 ha with rfl | ha
    · exact ⟨b, List.mem_cons_self, hb⟩
    · obtain ⟨b', hb', hp⟩ := hbs a' ha
      exact ⟨b', List.mem_cons_of_mem _ hb', hp⟩

end After

end PegCompiler
