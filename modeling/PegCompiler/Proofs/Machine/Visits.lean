/-
Where runs of the machine come to. A point is what a machine would show that was stopped between two
instructions: the rule that it is in, what is left of the code of that rule, and its stack. `Next` goes from one
point to the next one, also into a rule that is called; `Visits` is what a run of a rule comes to. A run
that ends in a fault has come to a point that is stuck with this fault (`stuck_of_rule`), so what holds
of all points settles which faults there can be.
-/
import Mathlib.Logic.Relation
import PegCompiler.Proofs.Machine.Exec

namespace PegCompiler.Machine

variable {ν : Naming}

/-- Where a run is. -/
structure Point (ν : Naming) where
  /-- The rule that runs. -/
  rule : Nat
  /-- What is left of its code. -/
  code : Code ν
  stack : Stack
  state : ParseState

/-- A rule that is called, and has no result that is remembered, starts at a point. -/
def Enters (p : Program ν) (r : Nat) (st : ParseState) (x : Point ν) : Prop :=
  ∃ code, p.rules.getD r none = some code ∧
    (if p.cache then (reported p (·.reportEnter code.name st.pos) st).remembered? r else none) = none ∧
    x = ⟨r, code.code, [], reported p (·.reportEnter code.name st.pos) st⟩

/-- The point after another one, or at the start of the rule that is called there. -/
inductive Next (p : Program ν) : Point ν → Point ν → Prop
  | plain {r : Nat} {i : Instr ν} {code : Code ν} {s s' : Stack} {st st' : ParseState} (hi : isPlain i = true)
      (h : step p i s st = .ok s' st') : Next p ⟨r, i :: code, s, st⟩ ⟨r, code, s', st'⟩
  | cond {r : Nat} {test : Test ν} {yes no code : Code ν} {s : Stack} {st : ParseState} {b : Bool}
      (h : check p test s st = .ok b st) :
      Next p ⟨r, .cond test yes no :: code, s, st⟩ ⟨r, (if b then yes else no) ++ code, s, st⟩
  | done {r : Nat} {body code : Code ν} {s : Stack} {st : ParseState} {v : Value} (h : s.value 0 = .ok v)
      (hv : v.isFailed = true) : Next p ⟨r, .whileOk body :: code, s, st⟩ ⟨r, code, s, st⟩
  | again {r : Nat} {body code : Code ν} {s : Stack} {st : ParseState} {v : Value} (h : s.value 0 = .ok v)
      (hv : v.isFailed = false) :
      Next p ⟨r, .whileOk body :: code, s, st⟩ ⟨r, body ++ .whileOk body :: code, s, st⟩
  | enter {r r' : Nat} {code : Code ν} {s : Stack} {st : ParseState} {x : Point ν} (h : Enters p r' st x) :
      Next p ⟨r, .rule r' :: code, s, st⟩ x
  | leave {r r' fuel : Nat} {code : Code ν} {s : Stack} {st st' : ParseState} {v : Value}
      (h : rule p fuel r' st = .ok v st') : Next p ⟨r, .rule r' :: code, s, st⟩ ⟨r, code, .value v :: s, st'⟩

/-- A run comes from one point to another. -/
abbrev Comes (p : Program ν) : Point ν → Point ν → Prop := Relation.ReflTransGen (Next p)

/-- What a rule comes to that is called in a state. -/
def Visits (p : Program ν) (r : Nat) (st : ParseState) (y : Point ν) : Prop := ∃ x, Enters p r st x ∧ Comes p x y

/-- At a point the machine cannot go on, for a reason. -/
inductive Stuck (p : Program ν) : Point ν → Fault → Prop
  | plain {r : Nat} {i : Instr ν} {code : Code ν} {s : Stack} {st st' : ParseState} {why : Fault}
      (hi : isPlain i = true) (h : step p i s st = .error why st') : Stuck p ⟨r, i :: code, s, st⟩ why
  | cond {r : Nat} {test : Test ν} {yes no code : Code ν} {s : Stack} {st st' : ParseState} {why : Fault}
      (h : check p test s st = .error why st') : Stuck p ⟨r, .cond test yes no :: code, s, st⟩ why
  | whileOk {r : Nat} {body code : Code ν} {s : Stack} {st : ParseState} {why : Fault} (h : s.value 0 = .error why) :
      Stuck p ⟨r, .whileOk body :: code, s, st⟩ why
  | rule {r r' : Nat} {code : Code ν} {s : Stack} {st : ParseState} (h : p.rules.getD r' none = none) :
      Stuck p ⟨r, .rule r' :: code, s, st⟩ (.unknownRule r')
  | result {r : Nat} {code : RuleCode ν} {s : Stack} {st : ParseState} (hcode : p.rules.getD r none = some code)
      (h : ∀ v, s ≠ [.value v]) : Stuck p ⟨r, [], s, st⟩ (.noSingleResult code.name)

/-! ## Runs that end well -/

/-- A block that is run to its end comes to what is after it. -/
theorem comes_of_ok (p : Program ν) (fuel : Nat) :
    (∀ r code rest s st s' st', block p fuel code s st = .ok s' st' →
      Comes p ⟨r, code ++ rest, s, st⟩ ⟨r, rest, s', st'⟩) ∧
    (∀ r i rest s st s' st', instr p fuel i s st = .ok s' st' → Comes p ⟨r, i :: rest, s, st⟩ ⟨r, rest, s', st'⟩) ∧
    (∀ r body rest s st s' st', loop p fuel body s st = .ok s' st' →
      Comes p ⟨r, .whileOk body :: rest, s, st⟩ ⟨r, rest, s', st'⟩) := by
  induction fuel with
  | zero =>
    refine ⟨?_, ?_, ?_⟩ <;> intros <;> rename_i h <;> simp only [block, instr, loop] at h <;> cases h
  | succ fuel ih =>
    obtain ⟨ihBlock, ihInstr, ihLoop⟩ := ih
    refine ⟨fun r code rest s st s' st' h => ?_, fun r i rest s st s' st' h => ?_,
      fun r body rest s st s' st' h => ?_⟩
    · -- blocks
      cases code with
      | nil =>
        obtain ⟨rfl, rfl⟩ := pure_ok_iff.1 h
        exact .refl
      | cons i code =>
        obtain ⟨s₁, st₁, h₁, h₂⟩ := bind_ok_iff.1 h
        exact (ihInstr _ _ _ _ _ _ _ h₁).trans (ihBlock _ _ _ _ _ _ _ h₂)
    · -- instructions
      cases hi : isPlain i with
      | true =>
        rw [instr_plain hi] at h
        exact .single (.plain hi h)
      | false =>
        cases i <;> simp only [isPlain, Bool.true_eq_false] at hi
        case cond test yes no =>
          obtain ⟨b, st₁, hb, h⟩ := bind_ok_iff.1 h
          obtain rfl := check_state hb
          refine .head (.cond hb) ?_
          cases b <;> exact ihBlock _ _ _ _ _ _ _ h
        case whileOk body => exact ihLoop _ _ _ _ _ _ _ h
        case rule r' =>
          obtain ⟨v, st₁, hv, h⟩ := bind_ok_iff.1 h
          obtain ⟨rfl, rfl⟩ := pure_ok_iff.1 h
          exact .single (.leave hv)
    · -- loops
      simp only [loop] at h
      obtain ⟨v, st₁, hv, h⟩ := bind_ok_iff.1 h
      obtain ⟨hs, rfl⟩ := lift_ok_iff.1 hv
      cases hf : v.isFailed with
      | true =>
        rw [if_pos hf] at h
        obtain ⟨rfl, rfl⟩ := pure_ok_iff.1 h
        exact .single (.done hs hf)
      | false =>
        rw [if_neg (by simp [hf])] at h
        obtain ⟨s₁, st₁, h₁, h₂⟩ := bind_ok_iff.1 h
        exact .head (.again hs hf) ((ihBlock _ _ _ _ _ _ _ h₁).trans (ihLoop _ _ _ _ _ _ _ h₂))

/-! ## Runs that end in a fault -/

theorem lift_error_iff {α : Type} {x : Except Fault α} {why : Fault} {st st' : ParseState} :
    lift x st = .error why st' ↔ x = .error why ∧ st = st' := by
  cases x with
  | ok b =>
    show EStateM.Result.ok b st = _ ↔ _
    simp
  | error e =>
    show EStateM.Result.error e st = _ ↔ _
    simp

/-- A rule that ends in a fault is not remembered, and its body ends in the fault or with no single value. -/
theorem around_error {p : Program ν} {r : Nat} {code : RuleCode ν} {body : Run Stack} {st st' : ParseState} {why : Fault}
    (h : around p r code body st = .error why st') :
    (if p.cache then (reported p (·.reportEnter code.name st.pos) st).remembered? r else none) = none ∧
      ((∃ st₁, body (reported p (·.reportEnter code.name st.pos) st) = .error why st₁) ∨
        ∃ s st₁, body (reported p (·.reportEnter code.name st.pos) st) = .ok s st₁ ∧ (∀ v, s ≠ [.value v]) ∧
          why = .noSingleResult code.name) := by
  unfold around at h
  -- neither looking at the state nor reporting fails
  have getting {α : Type} {f : ParseState → Run α} {st : ParseState} : (get >>= f) st = f st st := rfl
  have reporting {α : Type} {f : ParseState → ParseState} {g : PUnit → Run α} {st : ParseState} :
      (report p f >>= g) st = g ⟨⟩ (reported p f st) := rfl
  rw [getting, reporting] at h
  rcases bind_error_iff.1 h with h | ⟨o, st₁, hr, h⟩
  · unfold recalled at h
    split at h <;> cases h
  · rw [recalled_ok_iff] at hr
    split at hr
    · obtain ⟨rfl, rfl⟩ := hr
      cases h
    · rename_i hmiss
      obtain ⟨rfl, rfl⟩ := hr
      refine ⟨hmiss, ?_⟩
      rcases bind_error_iff.1 h with h | ⟨s, st₂, hs, h⟩
      · exact .inl ⟨_, h⟩
      · refine .inr ⟨s, st₂, hs, ?_⟩
        rcases bind_error_iff.1 h with h | ⟨v, st₃, -, h⟩
        · unfold result at h
          split at h
          · cases h
          · rename_i hsingle
            cases h
            exact ⟨hsingle, rfl⟩
        · cases h

/-- A run that ends in a fault comes to a point that is stuck with it, unless the fuel was used up. -/
theorem stuck_of_error (p : Program ν) (fuel : Nat) :
    (∀ r code rest s st why st', block p fuel code s st = .error why st' → why ≠ .outOfFuel →
      ∃ y, Comes p ⟨r, code ++ rest, s, st⟩ y ∧ Stuck p y why) ∧
    (∀ r i rest s st why st', instr p fuel i s st = .error why st' → why ≠ .outOfFuel →
      ∃ y, Comes p ⟨r, i :: rest, s, st⟩ y ∧ Stuck p y why) ∧
    (∀ r body rest s st why st', loop p fuel body s st = .error why st' → why ≠ .outOfFuel →
      ∃ y, Comes p ⟨r, .whileOk body :: rest, s, st⟩ y ∧ Stuck p y why) ∧
    (∀ r st why st', rule p fuel r st = .error why st' → why ≠ .outOfFuel →
      (p.rules.getD r none = none ∧ why = .unknownRule r) ∨ ∃ y, Visits p r st y ∧ Stuck p y why) := by
  induction fuel with
  | zero =>
    refine ⟨?_, ?_, ?_, ?_⟩ <;> intros <;> rename_i h hwhy <;> simp only [block, instr, loop, rule] at h <;>
      cases h <;> exact absurd rfl hwhy
  | succ fuel ih =>
    obtain ⟨ihBlock, ihInstr, ihLoop, ihRule⟩ := ih
    refine ⟨fun r code rest s st why st' h hwhy => ?_, fun r i rest s st why st' h hwhy => ?_,
      fun r body rest s st why st' h hwhy => ?_, fun r st why st' h hwhy => ?_⟩
    · -- a block: the fault is in its first instruction, or after it
      cases code with
      | nil => cases h
      | cons i code =>
        rcases bind_error_iff.1 h with h | ⟨s₁, st₁, h₁, h⟩
        · exact ihInstr _ _ _ _ _ _ _ h hwhy
        · obtain ⟨y, hy, stuck⟩ := ihBlock r code rest _ _ _ _ h hwhy
          exact ⟨y, ((comes_of_ok p fuel).2.1 r i (code ++ rest) s st s₁ st₁ h₁).trans hy, stuck⟩
    · -- an instruction: a step has the fault itself, or it is in what is run inside
      cases hi : isPlain i with
      | true =>
        rw [instr_plain hi] at h
        exact ⟨_, .refl, .plain hi h⟩
      | false =>
        cases i <;> simp only [isPlain, Bool.true_eq_false] at hi
        case cond test yes no =>
          rcases bind_error_iff.1 h with h | ⟨b, st₁, hb, h⟩
          · exact ⟨_, .refl, .cond h⟩
          · obtain rfl := check_state hb
            have inBranch : ∃ y, Comes p ⟨r, (if b then yes else no) ++ rest, s, st₁⟩ y ∧ Stuck p y why := by
              cases b <;> exact ihBlock _ _ _ _ _ _ _ h hwhy
            obtain ⟨y, hy, stuck⟩ := inBranch
            exact ⟨y, .head (.cond hb) hy, stuck⟩
        case whileOk body => exact ihLoop _ _ _ _ _ _ _ h hwhy
        case rule r' =>
          rcases bind_error_iff.1 h with h | ⟨v, st₁, -, h⟩
          · rcases ihRule r' st why st' h hwhy with ⟨hnone, rfl⟩ | ⟨y, ⟨x, henters, hy⟩, stuck⟩
            · exact ⟨_, .refl, .rule hnone⟩
            · exact ⟨y, .head (.enter henters) hy, stuck⟩
          · cases h
    · -- a loop: the fault is in the test, in this round, or in a later one
      simp only [loop] at h
      rcases bind_error_iff.1 h with h | ⟨v, st₁, hv, h⟩
      · exact ⟨_, .refl, .whileOk (lift_error_iff.1 h).1⟩
      · obtain ⟨hs, rfl⟩ := lift_ok_iff.1 hv
        cases hf : v.isFailed with
        | true => rw [if_pos hf] at h; cases h
        | false =>
          rw [if_neg (by simp [hf])] at h
          rcases bind_error_iff.1 h with h | ⟨s₁, st₂, h₁, h⟩
          · obtain ⟨y, hy, stuck⟩ := ihBlock r body (.whileOk body :: rest) _ _ _ _ h hwhy
            exact ⟨y, .head (.again hs hf) hy, stuck⟩
          · obtain ⟨y, hy, stuck⟩ := ihLoop r body rest _ _ _ _ h hwhy
            exact ⟨y, .head (.again hs hf) (((comes_of_ok p fuel).1 r body _ s st s₁ st₂ h₁).trans hy), stuck⟩
    · -- a rule: there is none, or the fault is in its block, or in what is left behind by it
      unfold rule at h
      cases hcode : p.rules.getD r none with
      | none =>
        rw [hcode] at h
        cases h
        exact .inl ⟨rfl, rfl⟩
      | some code =>
        rw [hcode] at h
        obtain ⟨hmiss, h⟩ := around_error h
        have enters : Enters p r st ⟨r, code.code, [], reported p (·.reportEnter code.name st.pos) st⟩ :=
          ⟨code, hcode, hmiss, rfl⟩
        rcases h with ⟨st₁, h⟩ | ⟨s, st₁, hs, hsingle, rfl⟩
        · obtain ⟨y, hy, stuck⟩ := ihBlock r code.code [] _ _ _ _ h hwhy
          rw [List.append_nil] at hy
          exact .inr ⟨y, ⟨_, enters, hy⟩, stuck⟩
        · have ends := (comes_of_ok p fuel).1 r code.code [] _ _ _ _ hs
          rw [List.append_nil] at ends
          exact .inr ⟨_, ⟨_, enters, ends⟩, .result hcode hsingle⟩

/-- Where a rule that is there ends in a fault, it has come to a point that is stuck with it. -/
theorem stuck_of_rule {p : Program ν} {fuel r : Nat} {st st' : ParseState} {why : Fault}
    (h : rule p fuel r st = .error why st') (hwhy : why ≠ .outOfFuel) (hr : p.rules.getD r none ≠ none) :
    ∃ y, Visits p r st y ∧ Stuck p y why :=
  ((stuck_of_error p fuel).2.2.2 r st why st' h hwhy).resolve_left fun ⟨hnone, _⟩ => hr hnone

/-- What holds at the start of all rules and is kept from each point to the next holds of all points. -/
theorem Visits.induction {p : Program ν} {P : Point ν → Prop} (hstart : ∀ r st x, Enters p r st x → P x)
    (hnext : ∀ x y, P x → Next p x y → P y) {r : Nat} {st : ParseState} {y : Point ν} (h : Visits p r st y) : P y := by
  obtain ⟨x, henters, hcomes⟩ := h
  induction hcomes with
  | refl => exact hstart _ _ _ henters
  | tail _ hn ih => exact hnext _ _ ih hn

/-! ## Points that are computed -/

namespace Point

/-- The point where a rule starts, unless its result is remembered. -/
def start? (p : Program ν) (r : Nat) (st : ParseState) : Option (Point ν) :=
  match p.rules.getD r none with
  | none => none
  | some code =>
    match if p.cache then (reported p (·.reportEnter code.name st.pos) st).remembered? r else none with
    | none => some ⟨r, code.code, [], reported p (·.reportEnter code.name st.pos) st⟩
    | some _ => none

/-- The point after a step, unless that failed. -/
def stepped? (r : Nat) (code : Code ν) : EStateM.Result Fault ParseState Stack → Option (Point ν)
  | .ok s st => some ⟨r, code, s, st⟩
  | .error _ _ => none

/-- The next point of the same rule; none where a rule is called or the machine is stuck. -/
def next? (p : Program ν) (x : Point ν) : Option (Point ν) :=
  match x.code with
  | [] | .rule _ :: _ => none
  | .cond test yes no :: code =>
    match check p test x.stack x.state with
    | .ok b st => some ⟨x.rule, (if b then yes else no) ++ code, x.stack, st⟩
    | .error _ _ => none
  | .whileOk body :: code =>
    match x.stack.value 0 with
    | .ok v => some ⟨x.rule, if v.isFailed then code else body ++ .whileOk body :: code, x.stack, x.state⟩
    | .error _ => none
  | i :: code => stepped? x.rule code (step p i x.stack x.state)

/-- The point after so many. -/
def later? (p : Program ν) (x : Point ν) : Nat → Option (Point ν)
  | 0 => some x
  | n + 1 => (x.next? p).bind fun y => y.later? p n

end Point

theorem enters_of_start? {p : Program ν} {r : Nat} {st : ParseState} {x : Point ν} (h : Point.start? p r st = some x) :
    Enters p r st x := by
  unfold Point.start? at h
  split at h
  · cases h
  · rename_i code hcode
    cases hmiss : (if p.cache then (reported p (·.reportEnter code.name st.pos) st).remembered? r else none) with
    | none =>
      rw [hmiss] at h
      cases h
      exact ⟨code, hcode, hmiss, rfl⟩
    | some entry =>
      rw [hmiss] at h
      cases h

theorem next_of_next? {p : Program ν} {x y : Point ν} (h : x.next? p = some y) : Next p x y := by
  obtain ⟨r, code, s, st⟩ := x
  cases code with
  | nil => cases h
  | cons i code =>
    cases hi : isPlain i with
    | true =>
      -- only the instructions with blocks are asked for by themselves
      have plain : (Point.mk r (i :: code) s st).next? p = Point.stepped? r code (step p i s st) := by
        cases i with
        | cond | whileOk | rule => cases hi
        | _ => rfl
      rw [plain] at h
      cases hstep : step p i s st with
      | ok s' st' =>
        rw [hstep] at h
        cases h
        exact .plain hi hstep
      | error why st' =>
        rw [hstep] at h
        cases h
    | false =>
      cases i with
      | cond test yes no =>
        unfold Point.next? at h
        dsimp only at h
        split at h
        · rename_i b st' hcheck
          cases h
          obtain rfl := check_state hcheck
          exact .cond hcheck
        · cases h
      | whileOk body =>
        unfold Point.next? at h
        dsimp only at h
        split at h
        · rename_i v hv
          cases h
          cases hf : v.isFailed with
          | true => exact .done hv hf
          | false => exact .again hv hf
        · cases h
      | rule r' => cases h
      | _ => cases hi

theorem comes_of_later? {p : Program ν} {n : Nat} {x y : Point ν} (h : x.later? p n = some y) : Comes p x y := by
  induction n generalizing x with
  | zero =>
    cases h
    exact .refl
  | succ n ih =>
    obtain ⟨x', hnext, hlater⟩ := Option.bind_eq_some_iff.1 h
    exact .head (next_of_next? hnext) (ih hlater)

end PegCompiler.Machine
