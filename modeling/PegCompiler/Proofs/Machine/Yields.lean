/-
What code does to a stack, as a calculus. `Yields` says of a block that it replaces the top of a
stack by one value, and exactly which values it may leave in which states; one lemma for every
instruction and one for blocks in a row build such facts up from the instructions.
-/
import Mathlib.Data.List.Forall2
import Mathlib.Data.List.Nodup
import PegCompiler.Code.OfExpr
import PegCompiler.Proofs.Machine.Exec

namespace PegCompiler

/-- What a condition decides: where its outcome is known, that and not what is observed. -/
def MatchResult.holds (m : MatchResult) (observed : Bool) : Bool :=
  match m with
  | always => true
  | sometimes => observed
  | never => false

theorem MatchResult.holds_negate (m : MatchResult) (b : Bool) : m.negate.holds b = !m.holds (!b) := by
  cases m <;> simp [negate, holds]

namespace Machine

/-! ## Acts -/

namespace Act

variable {φ : Type}

/-- Nothing but a value. -/
def pure (v : Value) : Act φ := fun st cs w st' => cs = [] ∧ w = v ∧ st' = st

/-- No way to go on. -/
def stuck : Act φ := fun _ _ _ _ => False

/-- One act, and then another that depends on its value. -/
def bind (A : Act φ) (B : Value → Act φ) : Act φ := fun st cs v st' =>
  ∃ cs₁ w st₁ cs₂, A st cs₁ w st₁ ∧ B w st₁ cs₂ v st' ∧ cs = cs₁ ++ cs₂

/-- An act that depends on the state. -/
def read (A : ParseState → Act φ) : Act φ := fun st => A st st

/-- An act in a changed state. -/
def after (f : ParseState → ParseState) (A : Act φ) : Act φ := fun st => A (f st)

/-- A change of the state that gives a value. -/
def change (f : ParseState → Value × ParseState) : Act φ := fun st cs v st' => cs = [] ∧ f st = (v, st')

/-- A call of host code, which is stuck where nothing is bound to it. -/
def call (function : φ → Except Fault (FunctionKind × HostFn)) (f : φ) (args : List Value) : Act φ :=
  fun st cs v st' => ∃ kind host, function f = .ok (kind, host) ∧ cs = [⟨f, args, .of st⟩] ∧
    v = hostResult kind (host (.of st) args) ∧ st' = st

/-- Rounds of `item`, which is told how many values there are before it: `v` joins the values unless it is
a failure, which ends the rounds. -/
inductive Collects (item : Nat → Act φ) : List Value → Value → Act φ
  | done {vs : List Value} {v : Value} {st : ParseState} (hv : v.isFailed = true) :
      Collects item vs v st [] (.array vs) st
  | more {vs : List Value} {v w u : Value} {st st₁ st' : ParseState} {cs₁ cs₂ : List (HostCall φ)}
      (hv : v.isFailed = false) (h : item (vs.length + 1) st cs₁ w st₁)
      (rest : Collects item (vs ++ [v]) w st₁ cs₂ u st') : Collects item vs v st (cs₁ ++ cs₂) u st'

end Act

/-! ## One instruction -/

section Instructions

variable {ν : Naming} {p : Program ν} {R : Nat → Act (ν .function)} {code : Code ν} {s s' : Stack}
  {st st' : ParseState} {cs : List (HostCall (ν .function))}

theorem exec_nil_iff : Exec p R [] s st cs s' st' ↔ cs = [] ∧ s' = s ∧ st' = st := by
  constructor
  · rintro ⟨⟩; exact ⟨rfl, rfl, rfl⟩
  · rintro ⟨rfl, rfl, rfl⟩; exact .nil

theorem exec_plain_iff {i : Instr ν} (hi : isPlain i = true) :
    Exec p R (i :: code) s st cs s' st' ↔ ∃ s₁ st₁ cs₂, step p i s st = .ok s₁ st₁ ∧
      Exec p R code s₁ st₁ cs₂ s' st' ∧ cs = hostCalls i s st ++ cs₂ := by
  constructor
  · intro h
    cases h with
    | plain _ h rest => exact ⟨_, _, _, h, rest, rfl⟩
    | cond | done | again | rule => cases hi
  · rintro ⟨_, _, _, h, rest, rfl⟩; exact .plain hi h rest

/-- An instruction that can only do one thing and calls nothing. -/
theorem exec_step {i : Instr ν} (s₁ : Stack) (st₁ : ParseState) (hi : isPlain i = true)
    (h : step p i s st = .ok s₁ st₁) (hc : hostCalls i s st = []) :
    Exec p R (i :: code) s st cs s' st' ↔ Exec p R code s₁ st₁ cs s' st' := by
  rw [exec_plain_iff hi]
  constructor
  · rintro ⟨_, _, _, h', rest, rfl⟩
    rw [h] at h'
    cases h'
    rw [hc]; exact rest
  · intro rest; exact ⟨_, _, _, h, rest, by rw [hc, List.nil_append]⟩

theorem exec_cond_iff {test : Test ν} {yes no : Code ν} :
    Exec p R (.cond test yes no :: code) s st cs s' st' ↔ ∃ b, check p test s st = .ok b st ∧
      Exec p R ((if b then yes else no) ++ code) s st cs s' st' := by
  constructor
  · intro h
    cases h with
    | plain hi => cases hi
    | cond h block rest => exact ⟨_, h, exec_append_of block rest⟩
  · rintro ⟨b, h, rest⟩
    obtain ⟨_, _, _, _, h₁, h₂, rfl⟩ := exec_append_iff.1 rest
    exact .cond h h₁ h₂

theorem exec_rule_iff {r : Nat} : Exec p R (.rule r :: code) s st cs s' st' ↔
    ∃ cs₁ v st₁ cs₂, R r st cs₁ v st₁ ∧ Exec p R code (.value v :: s) st₁ cs₂ s' st' ∧ cs = cs₁ ++ cs₂ := by
  constructor
  · intro h
    cases h with
    | plain hi => cases hi
    | rule h rest => exact ⟨_, _, _, _, h, rest, rfl⟩
  · rintro ⟨_, _, _, _, h, rest, rfl⟩; exact .rule h rest

end Instructions

/-! ## Blocks that yield a value -/

/-- The block turns a stack into `base` with a value on top: exactly the values in exactly the states that the
act allows. -/
def Yields {ν : Naming} (p : Program ν) (R : Nat → Act (ν .function)) (code : Code ν) (s base : Stack)
    (A : Act (ν .function)) : Prop :=
  ∀ st cs s' st', Exec p R code s st cs s' st' ↔ ∃ v, s' = .value v :: base ∧ A st cs v st'

section Yields

variable {ν : Naming} {p : Program ν} {R : Nat → Act (ν .function)} {code : Code ν} {s base : Stack}
  {A : Act (ν .function)}

theorem yields_nil (v : Value) : Yields p R [] (.value v :: base) base (.pure v) := by
  intro st cs s' st'
  rw [exec_nil_iff]
  constructor
  · rintro ⟨rfl, rfl, rfl⟩; exact ⟨v, rfl, rfl, rfl, rfl⟩
  · rintro ⟨_, rfl, rfl, rfl, rfl⟩; exact ⟨rfl, rfl, rfl⟩

theorem yields_append {a b : Code ν} {mid : Stack} {B : Value → Act (ν .function)} (ha : Yields p R a s mid A)
    (hb : ∀ v, Yields p R b (.value v :: mid) base (B v)) : Yields p R (a ++ b) s base (A.bind B) := by
  intro st cs s' st'
  rw [exec_append_iff]
  constructor
  · rintro ⟨cs₁, s₁, st₁, cs₂, h₁, h₂, rfl⟩
    obtain ⟨w, rfl, hA⟩ := (ha ..).1 h₁
    obtain ⟨v, rfl, hB⟩ := (hb w ..).1 h₂
    exact ⟨v, rfl, cs₁, w, st₁, cs₂, hA, hB, rfl⟩
  · rintro ⟨v, rfl, cs₁, w, st₁, cs₂, h₁, h₂, rfl⟩
    exact ⟨cs₁, _, st₁, cs₂, (ha ..).2 ⟨w, rfl, h₁⟩, (hb w ..).2 ⟨v, rfl, h₂⟩, rfl⟩

/-- Code with something after it that leaves the value alone. -/
theorem yields_append_pure {a b : Code ν} {mid : Stack} (ha : Yields p R a s mid A)
    (hb : ∀ v, Yields p R b (.value v :: mid) base (.pure v)) : Yields p R (a ++ b) s base A := by
  intro st cs s' st'
  rw [yields_append ha hb]
  refine exists_congr fun v => and_congr_right fun _ => ?_
  constructor
  · rintro ⟨cs₁, w, st₁, cs₂, h, ⟨rfl, rfl, rfl⟩, rfl⟩
    rw [List.append_nil]; exact h
  · intro h; exact ⟨cs, v, st', [], h, ⟨rfl, rfl, rfl⟩, (List.append_nil _).symm⟩

/-- An instruction that only changes the stack. -/
theorem yields_step {i : Instr ν} (s₁ : Stack) (hi : isPlain i = true)
    (h : ∀ st, step p i s st = .ok s₁ st) (hc : ∀ st, hostCalls i s st = [])
    (rest : Yields p R code s₁ base A) : Yields p R (i :: code) s base A := by
  intro st cs s' st'
  rw [exec_step _ _ hi (h st) (hc st)]; exact rest ..

/-- An instruction that only changes the state. -/
theorem yields_after {i : Instr ν} {s₁ : Stack} {f : ParseState → ParseState} (hi : isPlain i = true)
    (h : ∀ st, step p i s st = .ok s₁ (f st)) (hc : ∀ st, hostCalls i s st = [])
    (rest : Yields p R code s₁ base A) : Yields p R (i :: code) s base (A.after f) := by
  intro st cs s' st'
  rw [exec_step _ _ hi (h st) (hc st)]; exact rest ..

theorem yields_pushPos {A : Nat → Act (ν .function)} (rest : ∀ q, Yields p R code (.pos q :: s) base (A q)) :
    Yields p R (.pushPos :: code) s base (.read fun st => A st.pos) := by
  intro st cs s' st'
  rw [exec_step (.pos st.pos :: s) st rfl rfl rfl]; exact rest ..

theorem yields_pop {x : Slot} (rest : Yields p R code s base A) : Yields p R (.pop :: code) (x :: s) base A :=
  yields_step _ rfl (fun st => by simp [step, Stack.pop, lift, pure, EStateM.pure]) (fun _ => rfl) rest

theorem yields_popPos {q : Nat} (rest : Yields p R code s base A) :
    Yields p R (.popPos :: code) (.pos q :: s) base (A.after fun st => { st with pos := q }) :=
  yields_after rfl (fun _ => rfl) (fun _ => rfl) rest

theorem yields_nip {x : Slot} {v : Value} (rest : Yields p R code (.value v :: s) base A) :
    Yields p R (.nip :: code) (.value v :: x :: s) base A :=
  yields_step _ rfl (fun st => by simp [step, Stack.nip, Stack.pop, lift, bind, Except.bind, pure, Except.pure,
    EStateM.pure]) (fun _ => rfl) rest

theorem yields_pushNull (rest : Yields p R code (.value .null :: s) base A) :
    Yields p R (.pushNull :: code) s base A := yields_step _ rfl (fun _ => rfl) (fun _ => rfl) rest

theorem yields_pushFailed (rest : Yields p R code (.value .failed :: s) base A) :
    Yields p R (.pushFailed :: code) s base A := yields_step _ rfl (fun _ => rfl) (fun _ => rfl) rest

theorem yields_pushEmptyString (rest : Yields p R code (.value (.str "") :: s) base A) :
    Yields p R (.pushEmptyString :: code) s base A := yields_step _ rfl (fun _ => rfl) (fun _ => rfl) rest

theorem yields_pushEmptyArray (rest : Yields p R code (.value (.array []) :: s) base A) :
    Yields p R (.pushEmptyArray :: code) s base A := yields_step _ rfl (fun _ => rfl) (fun _ => rfl) rest

theorem yields_silence (rest : Yields p R code s base A) :
    Yields p R (.silence :: code) s base (A.after fun st => { st with silent := st.silent + 1 }) :=
  yields_after rfl (fun _ => rfl) (fun _ => rfl) rest

theorem yields_unsilence (rest : Yields p R code s base A) :
    Yields p R (.unsilence :: code) s base (A.after fun st => { st with silent := st.silent - 1 }) :=
  yields_after rfl (fun _ => rfl) (fun _ => rfl) rest

theorem yields_updateSavedPos (rest : Yields p R code s base A) :
    Yields p R (.updateSavedPos :: code) s base (A.after fun st => { st with saved := st.pos }) :=
  yields_after rfl (fun _ => rfl) (fun _ => rfl) rest

theorem yields_loadSavedPos {d q : Nat} (h : s[d]? = some (.pos q)) (rest : Yields p R code s base A) :
    Yields p R (.loadSavedPos d :: code) s base (A.after fun st => { st with saved := q }) :=
  yields_after rfl (fun st => by
    simp only [step, Stack.pos, Stack.slot, h]
    rfl) (fun _ => rfl) rest

theorem yields_text {q : Nat} {A : Value → Act (ν .function)}
    (rest : ∀ v, Yields p R code (.value v :: s) base (A v)) :
    Yields p R (.text :: code) (.pos q :: s) base (.read fun st => A (.str (st.text q))) := by
  intro st cs s' st'
  rw [exec_step (.value (.str (st.text q)) :: s) st rfl rfl rfl]
  exact rest ..

theorem yields_rule {r : Nat} : Yields p R [.rule r] s s (R r) := by
  intro st cs s' st'
  rw [exec_rule_iff]
  constructor
  · rintro ⟨cs₁, v, st₁, cs₂, h, rest, rfl⟩
    obtain ⟨rfl, rfl, rfl⟩ := exec_nil_iff.1 rest
    exact ⟨v, rfl, by rw [List.append_nil]; exact h⟩
  · rintro ⟨v, rfl, h⟩
    exact ⟨cs, v, st', [], h, exec_nil_iff.2 ⟨rfl, rfl, rfl⟩, (List.append_nil _).symm⟩

/-- A condition whose outcome depends on the state. -/
theorem yields_cond (test : Test ν) (b : ParseState → Bool) {yes no : Code ν} {B : Act (ν .function)}
    (h : ∀ st, check p test s st = .ok (b st) st) (hy : Yields p R (yes ++ code) s base A)
    (hn : Yields p R (no ++ code) s base B) :
    Yields p R (.cond test yes no :: code) s base (.read fun st => if b st then A else B) := by
  intro st cs s' st'
  rw [exec_cond_iff]
  have hs : Exec p R ((if b st then yes else no) ++ code) s st cs s' st' ↔
      ∃ v, s' = .value v :: base ∧ (if b st then A else B) st cs v st' := by
    cases b st
    · exact hn ..
    · exact hy ..
  refine ⟨fun ⟨b', h', rest⟩ => ?_, fun rest => ⟨_, h st, hs.2 rest⟩⟩
  rw [h st] at h'
  cases h'
  exact hs.1 rest

/-- A condition that the plan may have left out. -/
theorem yields_branch {p : Program Inline} {R : Nat → Act HostFunction} {s base : Stack} (m : MatchResult)
    (test : Test Inline) (b : ParseState → Bool) {yes no : Code Inline} {A B : Act HostFunction}
    (h : ∀ st, check p test s st = .ok (b st) st) (hy : Yields p R yes s base A) (hn : Yields p R no s base B) :
    Yields p R (Code.branch m test yes no) s base (.read fun st => if m.holds (b st) then A else B) := by
  cases m with
  | always => exact hy
  | never => exact hn
  | sometimes => exact yields_cond test b h (by rw [List.append_nil]; exact hy) (by rw [List.append_nil]; exact hn)

theorem yields_branch_isOk {p : Program Inline} {R : Nat → Act HostFunction} {s base : Stack} {m : MatchResult}
    {v : Value} {yes no : Code Inline} {A B : Act HostFunction} (hy : Yields p R yes (.value v :: s) base A)
    (hn : Yields p R no (.value v :: s) base B) :
    Yields p R (Code.branch m .isOk yes no) (.value v :: s) base (if m.holds (!v.isFailed) then A else B) := by
  have h := yields_branch m .isOk (fun _ => !v.isFailed) (fun _ => rfl) hy hn
  exact h

/-- A test for failure is made where success is not sure. -/
theorem yields_branch_isError {p : Program Inline} {R : Nat → Act HostFunction} {s base : Stack} {m : MatchResult}
    {v : Value} {yes no : Code Inline} {A B : Act HostFunction} (hy : Yields p R yes (.value v :: s) base A)
    (hn : Yields p R no (.value v :: s) base B) :
    Yields p R (Code.branch m.negate .isError yes no) (.value v :: s) base
      (if m.holds (!v.isFailed) then B else A) := by
  have h := yields_branch m.negate .isError (fun _ => v.isFailed) (fun _ => rfl) hy hn
  intro st cs s' st'
  rw [h st cs s' st']
  unfold Act.read
  rw [MatchResult.holds_negate]
  cases m.holds (!v.isFailed) <;> exact Iff.rfl

theorem yields_defect {why : ν .defect} : Yields p R (.defect why :: code) s base .stuck := by
  intro st cs s' st'
  rw [exec_plain_iff rfl]
  refine ⟨fun ⟨_, _, _, h, _⟩ => ?_, fun ⟨_, _, h⟩ => h.elim⟩
  cases h

theorem yields_change {i : Instr ν} {f : ParseState → Value × ParseState} (hi : isPlain i = true)
    (h : ∀ st, step p i s st = .ok (.value (f st).1 :: s) (f st).2) (hc : ∀ st, hostCalls i s st = []) :
    Yields p R [i] s s (.change f) := by
  intro st cs s' st'
  rw [exec_step _ _ hi (h st) (hc st), exec_nil_iff]
  constructor
  · rintro ⟨rfl, rfl, rfl⟩; exact ⟨_, rfl, rfl, rfl⟩
  · rintro ⟨v, rfl, rfl, h⟩
    rw [h]; exact ⟨rfl, rfl, rfl⟩

/-- Instructions that say where code comes from do nothing. -/
theorem yields_mark {p : Program Inline} {R : Nat → Act HostFunction} {s base : Stack} {A : Act HostFunction}
    {plan : Code.Plan} {e : Expr} {code : Code Inline} (h : Yields p R code s base A) :
    Yields p R (plan.mark e code) s base A := by
  unfold Code.Plan.mark
  split
  · refine yields_append_pure (yields_step _ rfl (fun _ => rfl) (fun _ => rfl) h) fun v => ?_
    exact yields_step _ rfl (fun _ => rfl) (fun _ => rfl) (yields_nil v)
  · exact h

end Yields

/-! ## Several slots -/

/-- A stack of values, the last one on top. -/
def ofValues (vs : List Value) : Stack := vs.reverse.map .value

section Slots

variable {ν : Naming} {p : Program ν} {R : Nat → Act (ν .function)} {code : Code ν} {s base : Stack}

theorem ofValues_length (vs : List Value) : (ofValues vs).length = vs.length := by
  simp [ofValues]

theorem ofValues_concat (vs : List Value) (v : Value) : ofValues (vs ++ [v]) = .value v :: ofValues vs := by
  simp [ofValues]

theorem yields_popN {A : Act (ν .function)} {top : Stack} {n : Nat} (hn : n = top.length)
    (rest : Yields p R code s base A) : Yields p R (.popN n :: code) (top ++ s) base A :=
  yields_step s rfl (fun st => by
    simp [step, Stack.pop, lift, hn, pure, EStateM.pure]) (fun _ => rfl) rest

/-- Slots below the top are popped. -/
theorem yields_nips {v : Value} (below : Stack) :
    Yields p R (List.replicate below.length .nip) (.value v :: (below ++ s)) s (.pure v) := by
  induction below with
  | nil => exact yields_nil v
  | cons x below ih => exact yields_nip ih

theorem yields_call {f : ν .function} {pop : Nat} {args : List Nat} {vs : List Value}
    {A : Value → Act (ν .function)} (hargs : s.values args = .ok vs) (hpop : pop ≤ s.length)
    (rest : ∀ v, Yields p R code (.value v :: s.drop pop) base (A v)) :
    Yields p R (.call f pop args :: code) s base ((Act.call p.function f vs).bind A) := by
  intro st cs s' st'
  rw [exec_plain_iff rfl]
  simp only [step, bind_ok_iff, lift_ok_iff, get_ok_iff, pure_ok_iff, hostCalls, hargs]
  constructor
  · rintro ⟨s₁, st₁, cs₂, ⟨⟨kind, host⟩, _, ⟨hf, rfl⟩, args, _, ⟨ha, rfl⟩, _, _, ⟨rfl, rfl⟩, s₂, _, ⟨hp, rfl⟩, rfl, rfl⟩,
      h, rfl⟩
    cases ha
    simp only [Stack.pop, hpop, if_true, Except.ok.injEq] at hp
    obtain rfl := hp
    obtain ⟨v, rfl, hA⟩ := (rest _ ..).1 h
    exact ⟨v, rfl, _, _, _, cs₂, ⟨kind, host, hf, rfl, rfl, rfl⟩, hA, rfl⟩
  · rintro ⟨v, rfl, _, _, _, cs₂, ⟨kind, host, hf, rfl, rfl, rfl⟩, h, rfl⟩
    refine ⟨_, _, cs₂, ⟨(kind, host), _, ⟨hf, rfl⟩, vs, _, ⟨rfl, rfl⟩, _, _, ⟨rfl, rfl⟩, s.drop pop, _, ⟨?_, rfl⟩,
      rfl, rfl⟩, (rest _ ..).2 ⟨v, rfl, h⟩, rfl⟩
    simp [Stack.pop, hpop]

theorem value_of_getElem {d : Nat} {v : Value} (h : s[d]? = some (.value v)) : s.value d = .ok v := by
  simp [Stack.value, Stack.slot, h, bind, Except.bind, pure, Except.pure]

theorem values_of_getElem {ds : List Nat} {vs : List Value}
    (h : List.Forall₂ (fun d v => s[d]? = some (.value v)) ds vs) : s.values ds = .ok vs := by
  induction h with
  | nil => rfl
  | cons h _ ih =>
    unfold Stack.values at ih ⊢
    rw [List.mapM_cons, value_of_getElem h, ih]; rfl

/-- Values that are moved out of different slots are those that were there. -/
theorem moveAll_of_getElem {ds : List Nat} {vs : List Value}
    (h : List.Forall₂ (fun d v => s[d]? = some (.value v)) ds vs) (hd : ds.Nodup) {n : Nat}
    (hn : ∀ d ∈ ds, d < n) :
    ∃ s₁, s.moveAll ds = .ok (vs, s₁) ∧ s₁.drop n = s.drop n ∧ s₁.length = s.length := by
  induction ds generalizing s vs with
  | nil => cases h; exact ⟨s, rfl, rfl, rfl⟩
  | cons d ds ih =>
    cases h with | @cons _ v _ vs h rest =>
    obtain ⟨hnot, hd⟩ := List.nodup_cons.1 hd
    have moved : List.Forall₂ (fun e w => (s.set d (.value .null))[e]? = some (.value w)) ds vs := by
      refine List.forall₂_iff_zip.2 ⟨rest.length_eq, fun {e w} he => ?_⟩
      have hne : d ≠ e := fun heq => hnot (heq ▸ (List.of_mem_zip he).1)
      rw [List.getElem?_set_ne hne]
      exact (List.forall₂_iff_zip.1 rest).2 he
    obtain ⟨s₁, h₁, hdrop, hlen⟩ := ih moved hd fun e he => hn e (List.mem_cons_of_mem _ he)
    refine ⟨s₁, ?_, ?_, ?_⟩
    · simp [Stack.moveAll, Stack.move, value_of_getElem h, h₁, bind, Except.bind, pure, Except.pure]
    · rw [hdrop, List.drop_set_of_lt (hn d List.mem_cons_self)]
    · rw [hlen, List.length_set]

theorem yields_pluck {A : Act (ν .function)} {n : Nat} {ds : List Nat} {vs : List Value}
    (h : List.Forall₂ (fun d v => s[d]? = some (.value v)) ds vs) (hd : ds.Nodup) (hn : ∀ d ∈ ds, d < n)
    (hs : n ≤ s.length) (rest : Yields p R code (.value (Stack.pickedValue vs) :: s.drop n) base A) :
    Yields p R (.pluck n ds :: code) s base A := by
  refine yields_step _ rfl (fun st => ?_) (fun _ => rfl) rest
  obtain ⟨s₁, h₁, hdrop, hlen⟩ := moveAll_of_getElem h hd hn
  simp [step, Stack.pluck, h₁, Stack.pop, hlen, hs, hdrop, lift, bind, Except.bind, pure, Except.pure, EStateM.pure]

theorem moveTop_eq_moveAll (s : Stack) (n : Nat) : s.moveTop n = s.moveAll (List.range n).reverse := by
  induction n generalizing s with
  | zero => rfl
  | succ n ih =>
    rw [List.range_succ, List.reverse_append]
    simp only [Stack.moveTop, List.reverse_singleton, List.singleton_append, Stack.moveAll, ih]

theorem getElem_ofValues (vs : List Value) :
    List.Forall₂ (fun d v => (ofValues vs ++ s)[d]? = some (.value v)) (List.range vs.length).reverse vs := by
  refine List.forall₂_iff_get.2 ⟨by simp, fun i h₁ h₂ => ?_⟩
  have hi : vs.length - 1 - i < (ofValues vs).length := by rw [ofValues_length]; omega
  simp only [List.get_eq_getElem, List.getElem_reverse, List.getElem_range, List.length_range]
  rw [List.getElem?_append_left hi, List.getElem?_eq_getElem hi]
  simp only [ofValues, List.getElem_map, List.getElem_reverse, Option.some.injEq, Slot.value.injEq]
  congr 1
  omega

theorem yields_wrap {A : Act (ν .function)} {vs : List Value}
    (rest : Yields p R code (.value (.array vs) :: s) base A) :
    Yields p R (.wrap vs.length :: code) (ofValues vs ++ s) base A := by
  refine yields_step _ rfl (fun st => ?_) (fun _ => rfl) rest
  obtain ⟨s₁, h₁, hdrop, hlen⟩ := moveAll_of_getElem (getElem_ofValues (s := s) vs)
    (List.nodup_reverse.2 List.nodup_range) (n := vs.length) (by simp)
  have hle : vs.length ≤ s₁.length := by rw [hlen, List.length_append, ofValues_length]; omega
  have hs : s₁.drop vs.length = s := by
    rw [hdrop, ← ofValues_length vs, List.drop_left]
  rw [← moveTop_eq_moveAll] at h₁
  simp [step, Stack.wrap, h₁, Stack.pop, hle, hs, lift, bind, Except.bind, pure, Except.pure, EStateM.pure]

end Slots

/-! ## Loops -/

/-- A loop collects values in the array below the top. -/
theorem yields_collect {p : Program Inline} {R : Nat → Act HostFunction} {s : Stack} {item : Code Inline}
    {A : Nat → Act HostFunction}
    (h : ∀ vs : List Value, Yields p R item (.value (.array vs) :: s) (.value (.array vs) :: s) (A vs.length))
    (vs : List Value) (v : Value) :
    Yields p R (Code.collect item) (.value v :: .value (.array vs) :: s) s (Act.Collects A vs v) := by
  intro st cs s' st'
  unfold Code.collect
  constructor
  · intro hx
    generalize hs : Slot.value v :: .value (.array vs) :: s = stack at hx
    generalize hc : [Instr.whileOk ([.append] ++ item), Instr.pop] = code at hx
    -- the induction is on the run of the loop; one round turns `vs` and `v` into the next array and item
    induction hx generalizing vs v with
    | nil => cases hc
    | plain hi => cases hc; cases hi
    | cond => cases hc
    | rule => cases hc
    | done hv hf rest =>
      cases hc
      subst hs
      cases hv
      obtain ⟨u, rfl, rfl, rfl, rfl⟩ := (yields_pop (yields_nil (.array vs)) ..).1 rest
      exact ⟨_, rfl, .done hf⟩
    | @again _ _ _ _ _ _ _ _ v _ _ hv hf round rest _ ih =>
      cases hc
      subst hs
      cases hv
      have hround := round
      rw [List.singleton_append, exec_step (.value (.array (vs ++ [v])) :: s) _ rfl rfl rfl] at hround
      obtain ⟨w, rfl, hw⟩ := (h (vs ++ [v]) ..).1 hround
      obtain ⟨u, rfl, hu⟩ := ih _ _ rfl rfl
      rw [List.length_append] at hw
      exact ⟨u, rfl, .more hf hw hu⟩
  · rintro ⟨u, rfl, hu⟩
    induction hu with
    | @done vs v st hv => exact .done (v := v) rfl hv ((yields_pop (yields_nil _) ..).2 ⟨_, rfl, rfl, rfl, rfl⟩)
    | @more vs v w u st st₁ st' cs₁ cs₂ hv hw rest ih =>
      refine .again (v := v) rfl hv ?_ ih
      rw [List.singleton_append, exec_step (.value (.array (vs ++ [v])) :: s) st rfl rfl rfl]
      exact (h (vs ++ [v]) ..).2 ⟨w, rfl, by rw [List.length_append]; exact hw⟩

end Machine

end PegCompiler
