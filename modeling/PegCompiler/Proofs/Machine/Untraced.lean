/-
A run does what it does, whether or not someone listens to its reports: no instruction looks at them, and a rule only
adds to them. So a run ends as the run without a listener ends, with any fuel, and in a state that differs in the
reports alone (`heedless`).
-/
import PegCompiler.Proofs.Machine.Exec

namespace PegCompiler

/-- The state if no one listens. -/
def ParseState.unheard (st : ParseState) : ParseState := { st with trace := none }

namespace Machine

variable {ν : Naming} {p : Program ν} {α β : Type}

/-- How a run ends, if no one listens. -/
def unheard : EStateM.Result Fault ParseState α → EStateM.Result Fault ParseState α
  | .ok a st => .ok a st.unheard
  | .error why st => .error why st.unheard

/-- Whether someone listens makes no difference to a run. -/
def Heedless (x : Run α) : Prop := ∀ st, x st.unheard = unheard (x st)

theorem heedless_pure (a : α) : Heedless (pure a) := fun _ => rfl

theorem heedless_throw (why : Fault) : Heedless (throw why : Run α) := fun _ => rfl

theorem heedless_lift (x : Except Fault α) : Heedless (lift x) := by
  cases x with
  | ok a => exact heedless_pure a
  | error why => exact heedless_throw why

theorem Heedless.bind {x : Run α} {f : α → Run β} (h : Heedless x) (hf : ∀ a, Heedless (f a)) : Heedless (x >>= f) := by
  intro st
  have hx := h st
  show EStateM.bind x f st.unheard = unheard (EStateM.bind x f st)
  unfold EStateM.bind
  rw [hx]
  cases x st with
  | ok a st₁ => exact hf a st₁
  | error why st₁ => rfl

/-- The state may be looked at, but for the reports. -/
theorem heedless_get {f : ParseState → Run α} (hsame : ∀ st, f st.unheard = f st) (hf : ∀ st, Heedless (f st)) :
    Heedless (get >>= f) := by
  intro st
  show f st.unheard st.unheard = unheard (f st st)
  rw [hsame]
  exact hf st st

theorem heedless_modify {f : ParseState → ParseState} (h : ∀ st, f st.unheard = (f st).unheard) :
    Heedless (modify f) := fun st => congrArg (EStateM.Result.ok PUnit.unit) (h st)

theorem heedless_change {f : ParseState → α × ParseState} (h : ∀ st, f st.unheard = ((f st).1, (f st).2.unheard)) :
    Heedless (change f) := by
  intro st
  show EStateM.Result.ok (f st.unheard).1 (f st.unheard).2 = EStateM.Result.ok (f st).1 (f st).2.unheard
  rw [h]

/-- Reports go unheard. -/
theorem heedless_report {f : ParseState → ParseState} (hf : Reports f) : Heedless (report p f) := by
  refine heedless_modify fun st => ?_
  obtain ⟨trace, h⟩ := hf.reported p st
  have h : (if p.trace && st.tracing then f st else st) = { st with trace } := h
  rw [h, if_neg]
  · rfl
  · simp [ParseState.tracing, ParseState.unheard]

theorem heedless_recalled (r : Nat) : Heedless (recalled p r) := by
  intro st
  unfold recalled
  cases p.cache with
  | false => rfl
  | true =>
    have same : st.unheard.remembered? r = (st.remembered? r).map fun e => (e.1, e.2.unheard) := by
      unfold ParseState.remembered?
      rw [Option.map_map]
      rfl
    rw [if_pos rfl, if_pos rfl, same]
    cases st.remembered? r <;> rfl

theorem heedless_check (test : Test ν) (s : Stack) : Heedless (check p test s) := by
  cases test with
  | isTrue | isError | isOk | fewer | atLeast | fewerThan | atLeastThan => exact heedless_lift _
  | anyChar => exact heedless_get (fun _ => rfl) fun _ => heedless_pure _
  | string | stringIc | charClass =>
    exact (heedless_lift _).bind fun _ => heedless_get (fun _ => rfl) fun _ => heedless_pure _

theorem heedless_step (i : Instr ν) (s : Stack) : Heedless (step p i s) := by
  cases i with
  | pushEmptyString | pushNull | pushFailed | pushEmptyArray | mapPush | mapPop | cond | whileOk | rule =>
    exact heedless_pure _
  | pop | popN | nip | append | wrap | pluck => exact heedless_lift _
  | defect => exact heedless_throw _
  | pushPos => exact heedless_get (fun _ => rfl) fun _ => heedless_pure _
  | popPos =>
    refine (heedless_lift _).bind fun _ => (heedless_modify fun _ => ?_).bind fun _ => heedless_lift _
    rfl
  | text =>
    exact (heedless_lift _).bind fun _ => (heedless_lift _).bind fun _ =>
      heedless_get (fun _ => rfl) fun _ => heedless_pure _
  | acceptN => exact (heedless_change fun _ => rfl).bind fun _ => heedless_pure _
  | acceptString | acceptStringIc =>
    exact (heedless_lift _).bind fun _ => (heedless_change fun _ => rfl).bind fun _ => heedless_pure _
  | fail e =>
    refine (heedless_lift _).bind fun e => (heedless_modify fun st => ?_).bind fun _ => heedless_pure _
    unfold ParseState.fail ParseState.recordFailure ParseState.unheard
    split
    · split
      · rfl
      · split <;> rfl
    · rfl
  | loadSavedPos =>
    refine (heedless_lift _).bind fun _ => (heedless_modify fun _ => ?_).bind fun _ => heedless_pure _
    rfl
  | updateSavedPos | silence | unsilence =>
    refine (heedless_modify fun _ => ?_).bind fun _ => heedless_pure _
    rfl
  | call =>
    refine (heedless_lift _).bind fun _ => (heedless_lift _).bind fun _ => heedless_get (fun _ => rfl) fun _ => ?_
    exact (heedless_lift _).bind fun _ => heedless_pure _

theorem Heedless.around {body : Run Stack} (h : Heedless body) (r : Nat) (rule : RuleCode ν) :
    Heedless (around p r rule body) := by
  unfold Machine.around
  refine heedless_get (fun _ => rfl) fun st => (heedless_report reports_enter).bind fun _ =>
    (heedless_recalled r).bind fun o => ?_
  cases o with
  | some v => exact (heedless_report reports_exit).bind fun _ => heedless_pure v
  | none =>
    have single (s : Stack) : Heedless (result rule.name s) := by
      unfold result
      split
      · exact heedless_pure _
      · exact heedless_throw _
    refine h.bind fun s => (single s).bind fun v => ?_
    refine (heedless_modify fun st => ?_).bind fun _ => (heedless_report reports_exit).bind fun _ => heedless_pure v
    split <;> rfl

/-- With any fuel, a run is heedless of its listener. -/
theorem heedless (p : Program ν) (fuel : Nat) :
    (∀ code s, Heedless (block p fuel code s)) ∧ (∀ i s, Heedless (instr p fuel i s)) ∧
      (∀ body s, Heedless (loop p fuel body s)) ∧ ∀ r, Heedless (rule p fuel r) := by
  induction fuel with
  | zero =>
    refine ⟨fun code s => ?_, fun i s => ?_, fun body s => ?_, fun r => ?_⟩
    · rw [block]; exact heedless_throw _
    · rw [instr]; exact heedless_throw _
    · rw [loop]; exact heedless_throw _
    · rw [rule]; exact heedless_throw _
  | succ fuel ih =>
    obtain ⟨ihBlock, ihInstr, ihLoop, ihRule⟩ := ih
    refine ⟨fun code s => ?_, fun i s => ?_, fun body s => ?_, fun r => ?_⟩
    · -- blocks
      cases code with
      | nil => exact heedless_pure s
      | cons i code => exact (ihInstr i s).bind (ihBlock code)
    · -- instructions
      cases hi : isPlain i with
      | true =>
        rw [instr_plain hi]
        exact heedless_step i s
      | false =>
        cases i <;> simp only [isPlain, Bool.true_eq_false] at hi
        case cond test yes no => exact (heedless_check test s).bind fun b => by cases b <;> exact ihBlock _ s
        case whileOk body => exact ihLoop body s
        case rule r => exact (ihRule r).bind fun v => heedless_pure _
    · -- loops
      rw [loop]
      refine (heedless_lift _).bind fun v => ?_
      split
      · exact heedless_pure s
      · exact (ihBlock body s).bind fun s => ihLoop body s
    · -- rules
      rw [rule]
      split
      · exact (ihBlock _ _).around r _
      · exact heedless_throw _

end Machine

end PegCompiler
