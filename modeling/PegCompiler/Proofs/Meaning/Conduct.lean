/-
What a run can rely on wherever it is, and what it owes to what comes after it. Positions are boundaries of the text.
An expression does not move back; it has a value of which something holds that is common to all values of matches
(`Value.Common`), or it fails and is back where it started. Host code is called with such values only, and sees a range
of the text. The induction is on the expression, and takes it that match results are not made use of.
-/
import PegCompiler.Proofs.Meaning.Pruning
import PegCompiler.Proofs.Semantics.Acts
import PegCompiler.Proofs.Termination.Moves

namespace PegCompiler

/-! ## Values of matches -/

namespace Value

/-- There is no failure anywhere in a value. -/
inductive Clean : Value → Prop
  | null : Clean .null
  | bool (b : Bool) : Clean (.bool b)
  | int (n : Int) : Clean (.int n)
  | str (s : String) : Clean (.str s)
  | array {items : List Value} (h : ∀ v ∈ items, Clean v) : Clean (.array items)

/-- `P` holds of no failure, and of whatever expressions make of values of which it holds. -/
structure Common (P : Value → Prop) : Prop where
  matched : ∀ {v}, P v → v.isFailed = false
  null : P .null
  bool : ∀ b, P (.bool b)
  str : ∀ s, P (.str s)
  array : ∀ {items}, (∀ v ∈ items, P v) → P (.array items)

theorem common_clean : Common Clean where
  matched := fun h => by cases h <;> rfl
  null := .null
  bool := .bool
  str := .str
  array := .array

theorem common_matched : Common fun v => v.isFailed = false where
  matched := id
  null := rfl
  bool := fun _ => rfl
  str := fun _ => rfl
  array := fun _ => rfl

theorem Common.picked {P : Value → Prop} (hP : Common P) {vs : List Value} (h : ∀ v ∈ vs, P v) :
    P (Stack.pickedValue vs) := by
  match vs with
  | [] => exact hP.array h
  | [v] => exact h v List.mem_cons_self
  | _ :: _ :: _ => exact hP.array h

end Value

/-- Labels stay of a kind if the values are that they take. -/
theorem Labels.values_after {P : Value → Prop} {ls : Labels} (hls : ∀ v ∈ ls.values, P v) (e : Expr) {v : Value}
    (hv : P v) : ∀ w ∈ (ls.after e v).values, P w := by
  unfold after
  split
  · rename_i label _ _
    unfold bind
    intro w hw
    split at hw
    · obtain ⟨b, hb, rfl⟩ := List.mem_map.1 hw
      obtain ⟨b', hb', rfl⟩ := List.mem_map.1 hb
      split
      · exact hv
      · exact hls _ (List.mem_map_of_mem hb')
    · unfold values at hw hls
      rw [List.map_append, List.mem_append] at hw
      rcases hw with hw | hw
      · exact hls w hw
      · exact List.mem_singleton.1 hw ▸ hv
  · exact hls

namespace Machine

/-! ## Calls and ends -/

/-- `Q` holds of the calls that the act makes from a state, and `E` of every value and state it ends with. -/
def Ensures {φ : Type} (Q : List (HostCall φ) → Prop) (A : Act φ) (st : ParseState) (E : Value → ParseState → Prop) :
    Prop :=
  ∀ cs v st', A st cs v st' → Q cs ∧ E v st'

section Ensures

variable {φ : Type} {Q Q' Q'' : List (HostCall φ) → Prop} {A B : Act φ} {st : ParseState}
  {E E' : Value → ParseState → Prop}

theorem Ensures.mono (h : Ensures Q A st E) (hE : ∀ v st', E v st' → E' v st') : Ensures Q A st E' :=
  fun cs v st' hA => ⟨(h cs v st' hA).1, hE v st' (h cs v st' hA).2⟩

theorem ensures_pure (hQ : Q []) {v : Value} (h : E v st) : Ensures Q (.pure v) st E := by
  rintro _ _ _ ⟨rfl, rfl, rfl⟩
  exact ⟨hQ, h⟩

theorem ensures_stuck : Ensures Q .stuck st E := fun _ _ _ h => h.elim

theorem ensures_bind (hQ : ∀ {a b}, Q a → Q' b → Q'' (a ++ b)) {D : Value → Act φ}
    (h : Ensures Q A st fun v st₁ => Ensures Q' (D v) st₁ E) : Ensures Q'' (A.bind D) st E := by
  rintro _ w st' ⟨cs₁, v, st₁, cs₂, hA, hD, rfl⟩
  obtain ⟨calls, next⟩ := h _ _ _ hA
  obtain ⟨calls', ends⟩ := next _ _ _ hD
  exact ⟨hQ calls calls', ends⟩

theorem ensures_read {D : ParseState → Act φ} : Ensures Q (.read D) st E ↔ Ensures Q (D st) st E := Iff.rfl

theorem ensures_after {f : ParseState → ParseState} : Ensures Q (.after f A) st E ↔ Ensures Q A (f st) E := Iff.rfl

theorem ensures_backTo (hQ : Q []) {pos : Nat} {v : Value} (h : E v { st with pos }) :
    Ensures Q (.backTo pos v) st E :=
  ensures_after.2 (ensures_pure hQ h)

theorem ensures_failing (hQ : Q []) {e : Expectation} (h : E .failed (st.fail e)) : Ensures Q (.failing e) st E := by
  rintro _ _ _ ⟨rfl, hf⟩
  cases hf
  exact ⟨hQ, h⟩

theorem ensures_call {function : φ → Except Fault (FunctionKind × HostFn)} {f : φ} {args : List Value}
    (hQ : Q [⟨f, args, .of st⟩])
    (h : ∀ kind host, function f = .ok (kind, host) → E (hostResult kind (host (.of st) args)) st) :
    Ensures Q (.call function f args) st E := by
  rintro _ _ _ ⟨kind, host, hf, rfl, rfl, rfl⟩
  exact ⟨hQ, h kind host hf⟩

theorem ensures_ite {b : Bool} (hA : b = true → Ensures Q A st E) (hB : b = false → Ensures Q B st E) :
    Ensures Q (if b then A else B) st E := by
  cases b with
  | false => exact hB rfl
  | true => exact hA rfl

/-- Rounds keep `J`, which tells of the items so far and of the next one. -/
theorem ensures_collects (hnil : Q []) (happend : ∀ {a b}, Q a → Q b → Q (a ++ b)) {item : Nat → Act φ}
    {J : List Value → Value → ParseState → Prop}
    (hJ : ∀ vs v st, J vs v st → v.isFailed = false → Ensures Q (item (vs.length + 1)) st (J (vs ++ [v])))
    {vs : List Value} {v : Value} (h : J vs v st) :
    Ensures Q (.Collects item vs v) st fun w st' => ∃ ws u, w = .array ws ∧ J ws u st' := by
  intro cs w st' hc
  induction hc with
  | done hv => exact ⟨hnil, _, _, rfl, h⟩
  | more hv hw _ ih =>
    obtain ⟨calls, hj⟩ := hJ _ _ _ h hv _ _ _ hw
    obtain ⟨calls', ends⟩ := ih hj
    exact ⟨happend calls calls', ends⟩

end Ensures

/-! ## Where runs are -/

/-- A state at a boundary of the text, where what host code may see begins at a boundary too. -/
structure Placed (s : String) (I : ParseState → Prop) (st : ParseState) : Prop where
  kept : I st
  pos : Input.Boundary s st.pos
  saved : Input.Boundary s st.saved

/-- How an act ends that started at a position, with failures silenced so often. -/
structure Reaches (s : String) (P : Value → Prop) (I : ParseState → Prop) (start silent : Nat) (v : Value)
    (st' : ParseState) : Prop where
  placed : Placed s I st'
  silent : st'.silent = silent
  forward : start ≤ st'.pos
  /-- There is a value, or a failure where it started. -/
  value : P v ∨ v = .failed ∧ st'.pos = start

/-- What host code is called with, and what it sees: a range of the text, but for bounds of repetitions, which see what
was left there. -/
structure Ranged (s : String) (P : Value → Prop) (call : HostCall HostFunction) : Prop where
  args : ∀ v ∈ call.args, P v
  input : call.view.input = .ofString s
  pos : Input.Boundary s call.view.pos
  saved : Input.Boundary s call.view.saved
  ordered : call.function.kind ≠ .boundary → call.view.saved ≤ call.view.pos
  here : call.function.kind = .predicate → call.view.saved = call.view.pos

/-- What is kept at all places, what holds of values and what of the calls of runs that follow one another. -/
structure Grounds (s : String) (P : Value → Prop) (I : ParseState → Prop) (Q : List (HostCall HostFunction) → Prop) :
    Prop where
  steady : Steady s I
  common : Value.Common P
  nil : Q []
  append : ∀ {a b}, Q a → Q b → Q (a ++ b)

/-- From any state at its place, an act makes such calls and ends in this way. -/
def Proper (s : String) (P : Value → Prop) (I : ParseState → Prop) (Q : List (HostCall HostFunction) → Prop)
    (A : Act HostFunction) : Prop :=
  ∀ st, Placed s I st → Ensures Q A st (Reaches s P I st.pos st.silent)

section Places

variable {s : String} {P : Value → Prop} {I : ParseState → Prop} {st st' st₁ : ParseState} {start silent : Nat}
  {v w : Value}

namespace Placed

theorem silence (hI : Steady s I) (h : Placed s I st) (n : Nat) : Placed s I { st with silent := n } :=
  ⟨hI.silence h.kept n, h.pos, h.saved⟩

theorem move (hI : Steady s I) (h : Placed s I st) {pos : Nat} (hpos : Input.Boundary s pos) :
    Placed s I { st with pos } := ⟨hI.move h.kept pos, hpos, h.saved⟩

theorem save (hI : Steady s I) (h : Placed s I st) {saved : Nat} (hsaved : Input.Boundary s saved) :
    Placed s I { st with saved } := ⟨hI.save h.kept saved, h.pos, hsaved⟩

theorem fail (hI : Steady s I) (h : Placed s I st) (e : Expectation) : Placed s I (st.fail e) := by
  obtain ⟨kept, hpos⟩ := hI.fail h.kept e
  have hsaved : (st.fail e).saved = st.saved := by
    unfold ParseState.fail ParseState.recordFailure
    split
    · split
      · rfl
      · split <;> rfl
    · rfl
  exact ⟨kept, hpos ▸ h.pos, hsaved ▸ h.saved⟩

end Placed

namespace Reaches

theorem nothing (h : Placed s I st) : Reaches s P I st.pos st.silent .failed st :=
  ⟨h, rfl, Nat.le_refl _, .inr ⟨rfl, rfl⟩⟩

theorem with_value (h : Reaches s P I start silent v st') (hw : P w) : Reaches s P I start silent w st' :=
  ⟨h.placed, h.silent, h.forward, .inl hw⟩

/-- Whether it was a match is seen from the value. -/
theorem cases (hP : Value.Common P) (h : Reaches s P I start silent v st') :
    v.isFailed = false ∧ P v ∨ v.isFailed = true ∧ v = .failed ∧ st'.pos = start := by
  rcases h.value with hv | ⟨rfl, hpos⟩
  · exact .inl ⟨hP.matched hv, hv⟩
  · exact .inr ⟨rfl, rfl, hpos⟩

/-- Back at the start there is a failure. -/
theorem back (hI : Steady s I) (h : Reaches s P I start silent v st') (hstart : Input.Boundary s start) :
    Reaches s P I start silent .failed { st' with pos := start } :=
  ⟨h.placed.move hI hstart, h.silent, Nat.le_refl _, .inr ⟨rfl, rfl⟩⟩

end Reaches

/-! ## Operators -/

namespace Proper

variable {Q : List (HostCall HostFunction) → Prop} {A B : Act HostFunction} (hG : Grounds s P I Q)

include hG

theorem pure_failed : Proper s P I Q (.pure .failed) := fun _ hst => ensures_pure hG.nil (.nothing hst)

theorem optional (h : Proper s P I Q A) : Proper s P I Q (.optional .sometimes A) := by
  intro st hst
  refine ensures_bind hG.append ((h st hst).mono fun v st₁ hv => ?_)
  refine ensures_ite (fun _ => ?_) fun _ => ?_
  · exact ensures_pure hG.nil hv
  · exact ensures_pure hG.nil (hv.with_value hG.common.null)

theorem text (h : Proper s P I Q A) : Proper s P I Q (.text .sometimes A) := by
  intro st hst
  refine ensures_read.2 (ensures_bind hG.append ((h st hst).mono fun v st₁ hv => ?_))
  refine ensures_ite (fun _ => ensures_read.2 ?_) fun _ => ?_
  · exact ensures_pure hG.nil (hv.with_value (hG.common.str _))
  · exact ensures_pure hG.nil hv

/-- While failures are silenced, an act runs as it does otherwise. -/
theorem silently (h : Proper s P I Q A) {D : Value → Act HostFunction} (hst : Placed s I st)
    {E : Value → ParseState → Prop} (next : ∀ v st₁, Reaches s P I st.pos st.silent v st₁ → Ensures Q (D v) st₁ E) :
    Ensures Q (.silently A D) st E := by
  refine ensures_after.2 (ensures_bind hG.append ((h _ (hst.silence hG.steady _)).mono fun v st₁ hv => ?_))
  refine ensures_after.2 (next v _ ⟨hv.placed.silence hG.steady _, ?_, hv.forward, hv.value⟩)
  rw [hv.silent]
  rfl

theorem lookahead (h : Proper s P I Q A) (negative : Bool) : Proper s P I Q (.lookahead .sometimes negative A) := by
  intro st hst
  refine ensures_read.2 (h.silently hG hst fun v st₁ hv => ?_)
  have null : Reaches s P I st.pos st.silent .null { st₁ with pos := st.pos } :=
    ⟨hv.placed.move hG.steady hst.pos, hv.silent, Nat.le_refl _, .inl hG.common.null⟩
  -- a match is undone; a failure has left the position where it was
  rcases hv.cases hG.common with ⟨hf, -⟩ | ⟨hf, -, hpos⟩ <;> cases negative <;> rw [hf]
  · exact ensures_backTo hG.nil null
  · exact ensures_backTo hG.nil (hv.back hG.steady hst.pos)
  · exact ensures_pure hG.nil ⟨hv.placed, hv.silent, hv.forward, .inr ⟨rfl, hpos⟩⟩
  · exact ensures_pure hG.nil (hv.with_value hG.common.null)

theorem named (h : Proper s P I Q A) (name : String) : Proper s P I Q (.named .sometimes name A) := by
  intro st hst
  refine h.silently hG hst fun v st₁ hv => ?_
  rcases hv.cases hG.common with ⟨hf, -⟩ | ⟨hf, -, hpos⟩ <;> rw [hf]
  · exact ensures_pure hG.nil hv
  · obtain ⟨-, fpos⟩ := hG.steady.fail hv.placed.kept (.named name)
    have silent : (st₁.fail (.named name)).silent = st.silent := (st₁.fail_silent _).trans hv.silent
    refine ensures_failing hG.nil ⟨hv.placed.fail hG.steady _, silent, ?_, .inr ⟨rfl, fpos.trans hpos⟩⟩
    rw [fpos]
    exact hv.forward

/-- Rounds end with an array of values. -/
theorem collects {item : Nat → Act HostFunction} (h : ∀ n, Proper s P I Q (item n)) {vs : List Value} {v : Value}
    (hvs : ∀ x ∈ vs, P x) (hv : P v ∨ v = .failed) (hplaced : Placed s I st₁) (hsilent : st₁.silent = silent)
    (hle : start ≤ st₁.pos) :
    Ensures Q (.Collects item vs v) st₁ fun w st' => P w ∧ Placed s I st' ∧ st'.silent = silent ∧ start ≤ st'.pos := by
  let J (vs : List Value) (v : Value) (st : ParseState) : Prop :=
    (∀ x ∈ vs, P x) ∧ (P v ∨ v = .failed) ∧ Placed s I st ∧ st.silent = silent ∧ start ≤ st.pos
  have rounds : Ensures Q (.Collects item vs v) st₁ fun w st' => ∃ ws u, w = .array ws ∧ J ws u st' := by
    refine ensures_collects hG.nil hG.append ?_ ⟨hvs, hv, hplaced, hsilent, hle⟩
    rintro vs v st₂ ⟨hvs, hv, hplaced, hsilent, hle⟩ hf
    have hv : P v := hv.resolve_right fun e => by rw [e] at hf; cases hf
    refine (h _ st₂ hplaced).mono fun w st₃ hw => ?_
    refine ⟨fun x hx => ?_, ?_, hw.placed, hw.silent.trans hsilent, hle.trans hw.forward⟩
    · rcases List.mem_append.1 hx with hx | hx
      · exact hvs x hx
      · exact List.mem_singleton.1 hx ▸ hv
    · exact hw.value.imp id And.left
  refine rounds.mono ?_
  rintro _ st' ⟨ws, u, rfl, hws, -, placed, silent, le⟩
  exact ⟨hG.common.array hws, placed, silent, le⟩

/-- A first item and further ones: all of them, from where the first one started. -/
theorem rounds {item : Nat → Act HostFunction} (h : ∀ n, Proper s P I Q (item n))
    (hv : Reaches s P I start silent v st₁) : Ensures Q (.Collects item [] v) st₁ (Reaches s P I start silent) := by
  refine (collects hG h (by simp) (hv.value.imp id And.left) hv.placed hv.silent hv.forward).mono ?_
  rintro w st' ⟨hw, placed, silent, le⟩
  exact ⟨placed, silent, le, .inl hw⟩

theorem zeroOrMore (h : Proper s P I Q A) : Proper s P I Q (.zeroOrMore A) := by
  intro st hst
  exact ensures_bind hG.append ((h st hst).mono fun v st₁ hv => rounds hG (fun _ => h) hv)

theorem oneOrMore (h : Proper s P I Q A) : Proper s P I Q (.oneOrMore .sometimes A) := by
  intro st hst
  refine ensures_bind hG.append ((h st hst).mono fun v st₁ hv => ?_)
  rcases hv.cases hG.common with ⟨hf, -⟩ | ⟨hf, -, hpos⟩ <;> rw [hf]
  · exact rounds hG (fun _ => h) hv
  · exact ensures_pure hG.nil ⟨hv.placed, hv.silent, hv.forward, .inr ⟨rfl, hpos⟩⟩

theorem unlessFull (h : Proper s P I Q A) (most : Option Nat) (n : Nat) : Proper s P I Q (.unlessFull most n A) := by
  unfold Act.unlessFull
  split
  · exact pure_failed hG
  · exact h

theorem counted (hA : Proper s P I Q A) (hB : Proper s P I Q B) (checked : Bool) (least : Nat) (most : Option Nat) :
    Proper s P I Q (.counted checked least most A B) := by
  intro st hst
  refine ensures_read.2 (ensures_bind hG.append ((hA.unlessFull hG most 0 st hst).mono fun v st₁ hv => ?_))
  refine ensures_bind hG.append ((rounds hG (fun n => hB.unlessFull hG most n) hv).mono fun w st₂ hw => ?_)
  refine ensures_ite (fun _ => ?_) fun _ => ?_
  · exact ensures_backTo hG.nil (hw.back hG.steady hst.pos)
  · exact ensures_pure hG.nil hw

theorem delimited (hA : Proper s P I Q A) (hB : Proper s P I Q B) :
    Proper s P I Q (.delimited .sometimes .sometimes A B) := by
  intro st hst
  refine ensures_read.2 (ensures_bind hG.append ((hA st hst).mono fun v st₁ hv => ?_))
  rcases hv.cases hG.common with ⟨hf, -⟩ | ⟨hf, -, -⟩ <;> rw [hf]
  · refine ensures_bind hG.append ((hB st₁ hv.placed).mono fun w st₂ hw => ?_)
    have reached : Reaches s P I st.pos st.silent .null st₂ :=
      ⟨hw.placed, hw.silent.trans hv.silent, hv.forward.trans hw.forward, .inl hG.common.null⟩
    rcases hw.cases hG.common with ⟨hf', hok⟩ | ⟨hf', -, -⟩ <;> rw [hf']
    · exact ensures_pure hG.nil (reached.with_value hok)
    · exact ensures_backTo hG.nil (reached.back hG.steady hst.pos)
  · exact ensures_pure hG.nil hv

end Proper

end Places

/-! ## Expressions -/

section Expressions

variable {s : String} {P : Value → Prop} {I : ParseState → Prop} {Q Q' : List (HostCall HostFunction) → Prop}
  {T : Expr → Prop} {st : ParseState} {c : Setting} {R : RuleId → Act HostFunction} {ls : Labels}

/-- Host code keeps to values of a kind. -/
def Setting.Keeps (c : Setting) (P : Value → Prop) : Prop :=
  ∀ f kind host, c.function f = .ok (kind, host) → ∀ view args, (∀ v ∈ args, P v) → P (host view args)

theorem hostResult_common {P : Value → Prop} (hP : Value.Common P) {kind : FunctionKind} {v : Value} (hv : P v) :
    P (hostResult kind v) := by
  cases kind with
  | predicate => exact hP.bool _
  | action | boundary => exact hv

/-- A call of an action for what began at a position. -/
structure Acts (code : HostCode) (start : Nat) (call : HostCall HostFunction) : Prop where
  kind : call.function.kind = .action
  named : call.function.code = code.val
  located : call.function.span = code.span
  start : call.view.saved = start

/-- A run of an expression with an action ends with a call of the action, which sees what the run began with. -/
def Setting.Attached (c : Setting) (R : RuleId → Act HostFunction) (e : Expr) (cs : List (HostCall HostFunction))
    (call : HostCall HostFunction) : Prop :=
  ∃ i body code ls st v st', e = .action i body code ∧ Acts code st.pos call ∧ c.meaning R e ls st (cs ++ [call]) v st'

/-- What meanings of expressions take for granted. -/
structure Conditions (s : String) (P : Value → Prop) (I : ParseState → Prop) (Q : List (HostCall HostFunction) → Prop)
    (T : Expr → Prop) (c : Setting) (R : RuleId → Act HostFunction) : Prop extends Grounds s P I Q where
  host : c.Keeps P
  rules : ∀ t, Proper s P I Q (R t)
  calls : ∀ {call}, Ranged s P call → call.function.kind ≠ .action → Q [call]
  acts : ∀ {e cs call}, T e → Q cs → Ranged s P call → c.unpruned.Attached R e cs call → Q (cs ++ [call])

namespace Conditions

/-- A call sees a range of the text. -/
theorem ranged (hI : Steady s I) (hst : Placed s I st) (hls : ∀ v ∈ ls.values, P v) {f : HostFunction}
    (hordered : f.kind ≠ .boundary → st.saved ≤ st.pos) (hhere : f.kind = .predicate → st.saved = st.pos) :
    Ranged s P ⟨f, ls.values, .of st⟩ :=
  ⟨hls, hI.input st hst.kept, hst.pos, hst.saved, hordered, hhere⟩

variable (h : Conditions s P I Q T c R)

include h

/-- A call of host code gives a value. -/
theorem call (hls : ∀ v ∈ ls.values, P v) {kind : FunctionKind} {code : HostCode}
    (hQ : Q' [⟨⟨kind, ls.names, code.val, code.span⟩, ls.values, .of st⟩]) {E : Value → ParseState → Prop}
    (hE : ∀ v, P v → E v st) : Ensures Q' (c.call kind code ls) st E :=
  ensures_call hQ fun kind host hf => hE _ (hostResult_common h.common (h.host _ kind host hf _ _ hls))

theorem predicate (hls : ∀ v ∈ ls.values, P v) (code : HostCode) (negative : Bool) :
    Proper s P I Q (c.predicate code negative ls) := by
  intro st hst
  have saved := hst.save h.steady hst.pos
  refine ensures_after.2 (ensures_bind h.append (h.call hls (h.calls ?_ (by simp)) fun v _ => ensures_pure h.nil ?_))
  · exact ranged h.steady saved hls (fun _ => Nat.le_refl _) fun _ => rfl
  · split
    · exact ⟨saved, rfl, Nat.le_refl _, .inr ⟨rfl, rfl⟩⟩
    · exact ⟨saved, rfl, Nat.le_refl _, .inl h.common.null⟩

/-- An action sees what began at a place before. -/
theorem action {start silent : Nat} (hst : Placed s I st) (hsilent : st.silent = silent)
    (hstart : Input.Boundary s start) (hle : start ≤ st.pos) (hls : ∀ v ∈ ls.values, P v) {code : HostCode}
    (hQ : ∀ {call : HostCall HostFunction}, Ranged s P call → Acts code start call → Q' [call]) :
    Ensures Q' (c.action start code ls) st (Reaches s P I start silent) := by
  have saved := hst.save h.steady hstart
  refine ensures_after.2 (h.call hls (hQ ?_ ⟨rfl, rfl, rfl, rfl⟩) fun v hv => ⟨saved, hsilent, hle, .inl hv⟩)
  refine ranged h.steady saved hls (fun _ => hle) ?_
  simp

theorem withBounds (hst : Placed s I st) (hls : ∀ v ∈ ls.values, P v) {min : Option Boundary} {max : Boundary}
    {D : Nat → Option Nat → Act HostFunction} {E : Value → ParseState → Prop}
    (hD : ∀ least most, Ensures Q (D least most) st E) : Ensures Q (c.unpruned.withBounds ls min max D) st E := by
  have bound (b : Boundary) (F : Count → Act HostFunction) (hF : ∀ n, Ensures Q (F n) st E) :
      Ensures Q (c.unpruned.withBound ls b F) st E := by
    cases b with
    | constant n => exact hF _
    | label name =>
      unfold Setting.withBound
      cases hl : ls.lookup name.val with
      | none => simp only [hl]; exact ensures_stuck
      | some v => simp only [hl]; exact hF _
    | computed code =>
      -- the position that was saved last may be anywhere in the text
      refine ensures_bind h.append (h.call hls (h.calls ?_ (by simp)) fun v _ => hF _)
      exact ranged h.steady hst hls (fun e => absurd rfl e) (by simp)
  cases min with
  | none => exact bound max _ fun _ => hD _ _
  | some min =>
    unfold Setting.withBounds
    exact bound min _ fun _ => bound max _ fun _ => hD _ _

theorem others {others : List Expr} (hls : ∀ v ∈ ls.values, P v)
    (ih : ∀ e ∈ others, ∀ ls : Labels, (∀ v ∈ ls.values, P v) → Proper s P I Q (c.unpruned.meaning R e ls))
    {start silent : Nat} {v : Value} (hv : Reaches s P I start silent v st) :
    Ensures Q (c.unpruned.meaningOthers R others ls .sometimes v) st (Reaches s P I start silent) := by
  induction others generalizing v st with
  | nil => exact ensures_pure h.nil hv
  | cons e es ihs =>
    unfold Setting.meaningOthers
    rcases hv.cases h.common with ⟨hf, -⟩ | ⟨hf, -, hpos⟩ <;> rw [hf]
    · exact ensures_pure h.nil hv
    · refine ensures_bind h.append ((ih e List.mem_cons_self ls hls st hv.placed).mono fun w st₁ hw => ?_)
      rw [hpos, hv.silent] at hw
      exact ihs (fun e' he => ih e' (List.mem_cons_of_mem _ he)) hw

/-- Elements of a sequence that began at a place, with an action after them if there is one: those that matched have
their values. -/
theorem elements {action : Option HostCode} {elements : List Expr}
    (ih : ∀ e ∈ elements, ∀ ls : Labels, (∀ v ∈ ls.values, P v) → Proper s P I Q (c.unpruned.meaning R e ls))
    {start silent : Nat} (hstart : Input.Boundary s start) (hnil : Q' []) (happend : ∀ {a b}, Q a → Q' b → Q' (a ++ b))
    (hown : ∀ code ∈ action, ∀ {call : HostCall HostFunction}, Ranged s P call → Acts code start call → Q' [call])
    {values picked : List Value} (hls : ∀ v ∈ ls.values, P v) (hvalues : ∀ v ∈ values, P v)
    (hpicked : ∀ v ∈ picked, P v) (hst : Placed s I st) (hsilent : st.silent = silent) (hle : start ≤ st.pos) :
    Ensures Q' (c.unpruned.meaningElements R action start elements ls values picked) st
      (Reaches s P I start silent) := by
  induction elements generalizing ls values picked st with
  | nil =>
    unfold Setting.meaningElements Setting.finish
    split
    · cases action with
      | none => exact ensures_pure hnil ⟨hst, hsilent, hle, .inl (h.common.array hvalues)⟩
      | some code => exact h.action hst hsilent hstart hle hls (hown code rfl)
    · exact ensures_pure hnil ⟨hst, hsilent, hle, .inl (h.common.picked hpicked)⟩
  | cons e es ihs =>
    unfold Setting.meaningElements
    refine ensures_bind happend ((ih e List.mem_cons_self ls hls st hst).mono fun v st₁ hv => ?_)
    have silent := hv.silent.trans hsilent
    have onward := hle.trans hv.forward
    rcases hv.cases h.common with ⟨hf, hok⟩ | ⟨hf, -, -⟩ <;> rw [hf]
    · refine ihs (fun e' he => ih e' (List.mem_cons_of_mem _ he)) (ls.values_after hls e hok) (fun w hw => ?_)
        (fun w hw => ?_) hv.placed silent onward
      · rcases List.mem_append.1 hw with hw | hw
        · exact hvalues w hw
        · exact List.mem_singleton.1 hw ▸ hok
      · unfold pickedAfter at hw
        split at hw
        · rcases List.mem_append.1 hw with hw | hw
          · exact hpicked w hw
          · exact List.mem_singleton.1 hw ▸ hok
        · exact hpicked w hw
    · exact ensures_backTo hnil ⟨hv.placed.move h.steady hstart, silent, Nat.le_refl _, .inr ⟨rfl, rfl⟩⟩

/-- An expression with an action: the calls in it, and after these the one of the action if it gets there. -/
theorem acted {i : Expr.Info} {body : Expr} {code : HostCode} (hT : T (.action i body code))
    (hx : ∀ {Q' : List (HostCall HostFunction) → Prop}, (∀ {a}, Q a → Q' a) → (∀ {a b}, Q a → Q' b → Q' (a ++ b)) →
      (∀ {call : HostCall HostFunction}, Ranged s P call → Acts code st.pos call → Q' [call]) →
      Ensures Q' (c.unpruned.meaning R (.action i body code) ls) st (Reaches s P I st.pos st.silent)) :
    Ensures Q (c.unpruned.meaning R (.action i body code) ls) st (Reaches s P I st.pos st.silent) := by
  intro cs v st' hrun
  -- the call of the action is the last one, if there is one
  let Ending (cs : List (HostCall HostFunction)) : Prop :=
    Q cs ∨ ∃ inner call, cs = inner ++ [call] ∧ Q inner ∧ Ranged s P call ∧ Acts code st.pos call
  have append : ∀ {a b}, Q a → Ending b → Ending (a ++ b) := by
    rintro a b ha (hb | ⟨inner, call, rfl, hb, ranged, own⟩)
    · exact .inl (h.append ha hb)
    · exact .inr ⟨_, call, (List.append_assoc ..).symm, h.append ha hb, ranged, own⟩
  have single {call : HostCall HostFunction} (ranged : Ranged s P call) (own : Acts code st.pos call) : Ending [call] :=
    .inr ⟨[], call, rfl, h.nil, ranged, own⟩
  obtain ⟨calls | ⟨inner, call, rfl, calls, ranged, own⟩, reaches⟩ := hx .inl append single cs v st' hrun
  · exact ⟨calls, reaches⟩
  · exact ⟨h.acts hT calls ranged ⟨i, body, code, ls, st, v, st', rfl, own, hrun⟩, reaches⟩

open Semantics in
theorem terminal {e : Expr} {t : List Char → Option (List Char)} (ht : terminal? e = some t) :
    Proper s P I Q (c.unpruned.meaning R e ls) := by
  intro st hst cs v st' hx
  have input := h.steady.input st hst.kept
  have takes : Takes t (expectation? e) (c.unpruned.meaning R e ls) st := takes_terminal input ht
  unfold Takes at takes
  split at takes
  · rename_i text htext
    obtain ⟨rfl, rfl, rfl⟩ := (takes _ _ _).1 hx
    have taken : text <+: (Input.ofString s).rest st.pos := by
      rw [← input]
      exact terminal_prefix ht htext
    exact ⟨h.nil, hst.move h.steady (hst.pos.add taken), rfl, Nat.le_add_right .., .inl (h.common.str _)⟩
  · obtain ⟨x, -, takes⟩ := takes
    obtain ⟨rfl, rfl, rfl⟩ := (takes _ _ _).1 hx
    obtain ⟨-, hpos⟩ := h.steady.fail hst.kept x
    exact ⟨h.nil, hst.fail h.steady x, st.fail_silent x, Nat.le_of_eq hpos.symm, .inr ⟨rfl, hpos⟩⟩

end Conditions

variable (h : Conditions s P I Q T c R)

include h

/-- Expressions conduct themselves like that, if rules do. -/
theorem proper_expr (e : Expr) (hT : ∀ e' ∈ e.preorder, T e') (ls : Labels) (hls : ∀ v ∈ ls.values, P v) :
    Proper s P I Q (c.unpruned.meaning R e ls) := by
  have grounds : Grounds s P I Q := h.toGrounds
  induction e using Expr.induction generalizing ls with
  | choice i first others ihFirst ihOthers =>
    intro st hst
    unfold Setting.meaning
    have inOthers (e : Expr) (he : e ∈ others) (ls : Labels) (hls : ∀ v ∈ ls.values, P v) :
        Proper s P I Q (c.unpruned.meaning R e ls) :=
      ihOthers e he (fun e' he' => hT e' (Expr.mem_preorder_of_child (List.mem_cons_of_mem _ he) he')) ls hls
    have first := ihFirst (fun e' he' => hT e' (Expr.mem_preorder_of_child List.mem_cons_self he')) ls hls st hst
    exact ensures_bind h.append (first.mono fun v st₁ hv => h.others hls inOthers hv)
  | sequence i elements ih =>
    intro st hst
    unfold Setting.meaning
    have inElements (e : Expr) (he : e ∈ elements) (ls : Labels) (hls : ∀ v ∈ ls.values, P v) :
        Proper s P I Q (c.unpruned.meaning R e ls) :=
      ih e he (fun e' he' => hT e' (Expr.mem_preorder_of_child he he')) ls hls
    exact ensures_read.2 (h.elements inElements hst.pos h.nil h.append (by simp) hls (by simp) (by simp) hst rfl
      (Nat.le_refl _))
  | labeled i label pick body ih =>
    unfold Setting.meaning
    exact ih (fun e' he' => hT e' (Expr.mem_preorder_of_child List.mem_cons_self he')) ls hls
  | group i body ih =>
    unfold Setting.meaning
    exact ih (fun e' he' => hT e' (Expr.mem_preorder_of_child List.mem_cons_self he')) ls hls
  | action i body code ih ihElements =>
    intro st hst
    -- what is known of the action is what the conditions say of expressions with host code
    refine h.acted (hT _ (Expr.mem_preorder_self _)) fun hQ happend hown => ?_
    have inBody : ∀ e' ∈ body.preorder, T e' := fun e' he' =>
      hT e' (Expr.mem_preorder_of_child List.mem_cons_self he')
    -- an action on a sequence sees the labels of its elements
    refine Expr.action_cases body (fun j elements hb => ?_) fun hb => ?_
    · subst hb
      unfold Setting.meaning
      have inElements (e : Expr) (he : e ∈ elements) (ls : Labels) (hls : ∀ v ∈ ls.values, P v) :
          Proper s P I Q (c.unpruned.meaning R e ls) :=
        ihElements e he (fun e' he' => inBody e' (Expr.mem_preorder_of_child he he')) ls hls
      refine ensures_read.2 (h.elements inElements hst.pos (hQ h.nil) happend (fun code' hc => ?_) hls (by simp) (by simp)
        hst rfl (Nat.le_refl _))
      cases hc
      exact hown
    · rw [Setting.meaning]
      · refine ensures_read.2 (ensures_bind happend ((ih inBody ls hls st hst).mono fun v st₁ hv => ?_))
        -- the action is called on a match only, and its text ends where the body did
        rcases hv.cases h.common with ⟨hf, hok⟩ | ⟨hf, -, -⟩ <;> rw [hf]
        · exact h.action hv.placed hv.silent hst.pos hv.forward (ls.values_after hls body hok) hown
        · exact ensures_pure (hQ h.nil) hv
      · exact hb
  | text i body ih | simpleAnd i body ih | simpleNot i body ih | optional i body ih | zeroOrMore i body ih
  | oneOrMore i body ih | named i name body ih =>
    have inBody := ih (fun e' he' => hT e' (Expr.mem_preorder_of_child List.mem_cons_self he')) ls hls
    unfold Setting.meaning
    first
      | exact inBody.text grounds
      | exact inBody.lookahead grounds _
      | exact inBody.optional grounds
      | exact inBody.zeroOrMore grounds
      | exact inBody.oneOrMore grounds
      | exact inBody.named grounds name
  | semanticAnd i code | semanticNot i code => unfold Setting.meaning; exact h.predicate hls code _
  | repeated i body min max delimiter ih ihDelimiter =>
    intro st hst
    have inBody := ih (fun e' he' => hT e' (Expr.mem_preorder_of_child List.mem_cons_self he')) ls hls
    cases delimiter with
    | none =>
      unfold Setting.meaning
      exact h.withBounds hst hls fun least most => inBody.counted grounds inBody _ _ _ st hst
    | some d =>
      unfold Setting.meaning
      have inDelimiter := ihDelimiter d rfl (fun e' he' => hT e' (Expr.mem_preorder_of_child (by simp [Expr.children]) he'))
        ls hls
      have item := inDelimiter.delimited grounds inBody
      exact h.withBounds hst hls fun least most => inBody.counted grounds item _ _ _ st hst
  | ruleRef i name target =>
    unfold Setting.meaning
    cases target with
    | none => exact fun st _ => ensures_stuck
    | some t => exact h.rules t
  | literal i value ignoreCase => cases ignoreCase <;> exact h.terminal rfl
  | charClass i k => exact h.terminal rfl
  | any i => exact h.terminal rfl

/-- So do the bodies of rules. -/
theorem proper_ofRule (rule : Rule) (hT : ∀ e ∈ rule.body.preorder, T e) :
    Proper s P I Q (c.unpruned.ofRule R rule) := by
  have body : Proper s P I Q (c.unpruned.meaning R rule.body []) := proper_expr h rule.body hT [] nofun
  unfold Setting.ofRule
  split
  · exact body.named h.toGrounds _
  · exact body

end Expressions

end Machine

end PegCompiler
