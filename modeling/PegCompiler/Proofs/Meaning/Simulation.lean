/-
Two runs side by side. `Pairs` follows an act from one state and another act from another state, like `Ends` follows
one act. A relation of states that is kept by whatever acts do to states is kept by meanings, if it is kept by what
rules do and if what the one expression decides the other one decides too; so to compare two parsers, or a parser with
itself from two states, is to compare their rules.
-/
import PegCompiler.Proofs.Failures
import PegCompiler.Proofs.Grammar.Proxy
import PegCompiler.Proofs.Meaning.Ends
import PegCompiler.Proofs.Semantics.Basic

namespace PegCompiler.Machine

/-! ## Pairs of runs -/

/-- Whatever value the first act ends with, the second one can end with it too, and `Q` holds of both ends. -/
def Pairs {φ : Type} (A : Act φ) (st : ParseState) (B : Act φ) (st' : ParseState)
    (Q : Value → ParseState → ParseState → Prop) : Prop :=
  ∀ cs v st₁, A st cs v st₁ → ∃ cs' st₁', B st' cs' v st₁' ∧ Q v st₁ st₁'

section Pairs

variable {φ : Type} {A B : Act φ} {st st' : ParseState} {Q Q' : Value → ParseState → ParseState → Prop}

theorem Pairs.mono (h : Pairs A st B st' Q) (hQ : ∀ v st₁ st₁', Q v st₁ st₁' → Q' v st₁ st₁') :
    Pairs A st B st' Q' := by
  intro cs v st₁ hA
  obtain ⟨cs', st₁', hB, hq⟩ := h cs v st₁ hA
  exact ⟨cs', st₁', hB, hQ v st₁ st₁' hq⟩

/-- What holds of every end of the first act holds of it here. -/
theorem Pairs.and {P : Value → ParseState → Prop} (h : Pairs A st B st' Q) (hP : Ends A st P) :
    Pairs A st B st' fun v st₁ st₁' => Q v st₁ st₁' ∧ P v st₁ := by
  intro cs v st₁ hA
  obtain ⟨cs', st₁', hB, hq⟩ := h cs v st₁ hA
  exact ⟨cs', st₁', hB, hq, hP cs v st₁ hA⟩

theorem pairs_pure {v : Value} (h : Q v st st') : Pairs (.pure v : Act φ) st (.pure v) st' Q := by
  rintro _ _ _ ⟨rfl, rfl, rfl⟩
  exact ⟨[], st', ⟨rfl, rfl, rfl⟩, h⟩

theorem pairs_stuck : Pairs (.stuck : Act φ) st B st' Q := fun _ _ _ h => h.elim

theorem pairs_bind {D E : Value → Act φ}
    (h : Pairs A st B st' fun v st₁ st₁' => Pairs (D v) st₁ (E v) st₁' Q) : Pairs (A.bind D) st (B.bind E) st' Q := by
  rintro _ w st₂ ⟨cs₁, v, st₁, cs₂, hA, hD, rfl⟩
  obtain ⟨cs₁', st₁', hB, next⟩ := h _ _ _ hA
  obtain ⟨cs₂', st₂', hE, hq⟩ := next _ _ _ hD
  exact ⟨cs₁' ++ cs₂', st₂', ⟨cs₁', v, st₁', cs₂', hB, hE, rfl⟩, hq⟩

theorem pairs_read {D E : ParseState → Act φ} : Pairs (.read D) st (.read E) st' Q ↔ Pairs (D st) st (E st') st' Q :=
  Iff.rfl

theorem pairs_after {f g : ParseState → ParseState} :
    Pairs (.after f A) st (.after g B) st' Q ↔ Pairs A (f st) B (g st') Q := Iff.rfl

theorem pairs_backTo {pos pos' : Nat} {v : Value} (h : Q v { st with pos } { st' with pos := pos' }) :
    Pairs (.backTo pos v : Act φ) st (.backTo pos' v) st' Q := pairs_after.2 (pairs_pure h)

theorem pairs_change {f g : ParseState → Value × ParseState} (hv : (f st).1 = (g st').1)
    (h : Q (f st).1 (f st).2 (g st').2) : Pairs (.change f : Act φ) st (.change g) st' Q := by
  rintro _ v st₁ ⟨rfl, hf⟩
  rw [hf] at h hv
  exact ⟨[], (g st').2, ⟨rfl, Prod.ext hv.symm rfl⟩, h⟩

theorem pairs_failing {e : Expectation} (h : Q .failed (st.fail e) (st'.fail e)) :
    Pairs (.failing e : Act φ) st (.failing e) st' Q := pairs_change rfl h

/-- Both acts go on in the same way. -/
theorem pairs_ite {A' B' : Act φ} {b b' : Bool} (hb : b = b') (hA : b = true → Pairs A st B st' Q)
    (hB : b = false → Pairs A' st B' st' Q) : Pairs (if b then A else A') st (if b' then B else B') st' Q := by
  subst hb
  cases b
  · exact hB rfl
  · exact hA rfl

theorem pairs_collects {item item' : Nat → Act φ} {J : ParseState → ParseState → Prop}
    (hJ : ∀ n st st', J st st' → Pairs (item n) st (item' n) st' fun _ => J) {vs : List Value} {v : Value}
    (h : J st st') : Pairs (.Collects item vs v) st (.Collects item' vs v) st' fun _ => J := by
  intro cs w st₁ hc
  induction hc generalizing st' with
  | done hv => exact ⟨[], st', .done hv, h⟩
  | more hv hw _ ih =>
    obtain ⟨cs₁', st₂', hB, hj⟩ := hJ _ _ _ h _ _ _ hw
    obtain ⟨cs₂', st₁', hC, hj'⟩ := ih hj
    exact ⟨cs₁' ++ cs₂', st₁', .more hv hB hC, hj'⟩

end Pairs

/-! ## Relations that acts keep -/

/-- States so related have the same in common that acts read, and stay so related under what acts do to them. -/
structure Lockstep (rel : ParseState → ParseState → Prop) : Prop where
  input : ∀ {st st'}, rel st st' → st.input = st'.input
  source : ∀ {st st'}, rel st st' → st.source = st'.source
  pos : ∀ {st st'}, rel st st' → st.pos = st'.pos
  move : ∀ {st st'}, rel st st' → ∀ pos, rel { st with pos } { st' with pos }
  save : ∀ {st st'}, rel st st' → ∀ saved, rel { st with saved } { st' with saved }
  fail : ∀ {st st'}, rel st st' → ∀ e, rel (st.fail e) (st'.fail e)
  silence : ∀ {st st'}, rel st st' → rel { st with silent := st.silent + 1 } { st' with silent := st'.silent + 1 }
  /-- They are as silent again as related states before. -/
  unsilence : ∀ {st st' st₁ st₁'}, rel st st' → rel st₁ st₁' → st₁.silent = st.silent + 1 →
    st₁'.silent = st'.silent + 1 → rel { st₁ with silent := st.silent } { st₁' with silent := st'.silent }

/-- Related states after related ones, as silent as those. -/
structure Stays (rel : ParseState → ParseState → Prop) (st st' st₁ st₁' : ParseState) : Prop where
  related : rel st₁ st₁'
  silent : st₁.silent = st.silent
  silent' : st₁'.silent = st'.silent

/-- From related states the second act can do what the first one does, and they stay related. -/
def Simulates {φ : Type} (rel : ParseState → ParseState → Prop) (A B : Act φ) : Prop :=
  ∀ st st', rel st st' → Pairs A st B st' fun _ st₁ st₁' => Stays rel st st' st₁ st₁'

/-- Two conditions decide alike on whatever the act ends with. -/
def Decides {φ : Type} (rel : ParseState → ParseState → Prop) (A : Act φ) (m m' : MatchResult) : Prop :=
  ∀ st st', rel st st' → Ends A st fun v _ => m.holds (!v.isFailed) = m'.holds (!v.isFailed)

section Acts

variable {φ : Type} {rel : ParseState → ParseState → Prop} {A B : Act φ} {st st' st₁ st₁' st₂ st₂' : ParseState}
  {m m' : MatchResult}

theorem Stays.refl (h : rel st st') : Stays rel st st' st st' := ⟨h, rfl, rfl⟩

theorem Stays.trans (h : Stays rel st st' st₁ st₁') (h' : Stays rel st₁ st₁' st₂ st₂') : Stays rel st st' st₂ st₂' :=
  ⟨h'.related, h'.silent.trans h.silent, h'.silent'.trans h.silent'⟩

namespace Lockstep

variable (hl : Lockstep rel)

include hl

theorem stays_move (h : Stays rel st st' st₁ st₁') (pos : Nat) :
    Stays rel st st' { st₁ with pos } { st₁' with pos } := ⟨hl.move h.related pos, h.silent, h.silent'⟩

theorem stays_fail (h : Stays rel st st' st₁ st₁') (e : Expectation) :
    Stays rel st st' (st₁.fail e) (st₁'.fail e) :=
  ⟨hl.fail h.related e, (st₁.fail_silent e).trans h.silent, (st₁'.fail_silent e).trans h.silent'⟩

end Lockstep

/-- After an act, a run goes on from states that stay related. -/
theorem Simulates.bind (h : Simulates rel A B) {D E : Value → Act φ} (hst : rel st st')
    {Q : Value → ParseState → ParseState → Prop}
    (next : ∀ v st₁ st₁', Stays rel st st' st₁ st₁' → Pairs (D v) st₁ (E v) st₁' Q) :
    Pairs (A.bind D) st (B.bind E) st' Q :=
  pairs_bind ((h st st' hst).mono fun v st₁ st₁' => next v st₁ st₁')

/-- And where conditions on its value decide alike, it goes on in the same way. -/
theorem Simulates.bind_decided (h : Simulates rel A B) (hd : Decides rel A m m') {D E D' E' : Value → Act φ}
    (hst : rel st st') {Q : Value → ParseState → ParseState → Prop}
    (yes : ∀ v st₁ st₁', Stays rel st st' st₁ st₁' → Pairs (D v) st₁ (E v) st₁' Q)
    (no : ∀ v st₁ st₁', Stays rel st st' st₁ st₁' → Pairs (D' v) st₁ (E' v) st₁' Q) :
    Pairs (A.bind fun v => if m.holds (!v.isFailed) then D v else D' v) st
      (B.bind fun v => if m'.holds (!v.isFailed) then E v else E' v) st' Q := by
  have both := (h st st' hst).and (hd st st' hst)
  refine pairs_bind (both.mono fun v st₁ st₁' ⟨stays, same⟩ => ?_)
  exact pairs_ite same (fun _ => yes v st₁ st₁' stays) fun _ => no v st₁ st₁' stays

theorem Simulates.silently (hl : Lockstep rel) (h : Simulates rel A B) (hd : Decides rel A m m')
    {D E D' E' : Value → Act φ} (hst : rel st st') {Q : Value → ParseState → ParseState → Prop}
    (yes : ∀ v st₁ st₁', Stays rel st st' st₁ st₁' → Pairs (D v) st₁ (E v) st₁' Q)
    (no : ∀ v st₁ st₁', Stays rel st st' st₁ st₁' → Pairs (D' v) st₁ (E' v) st₁' Q) :
    Pairs (.silently A fun v => if m.holds (!v.isFailed) then D v else D' v) st
      (.silently B fun v => if m'.holds (!v.isFailed) then E v else E' v) st' Q := by
  have silent := hl.silence hst
  refine pairs_after.2 (pairs_bind (((h _ _ silent).and (hd _ _ silent)).mono fun v st₁ st₁' ⟨stays, same⟩ => ?_))
  have back : Stays rel st st' { st₁ with silent := st₁.silent - 1 } { st₁' with silent := st₁'.silent - 1 } := by
    rw [stays.silent, stays.silent']
    exact ⟨hl.unsilence hst stays.related stays.silent stays.silent', rfl, rfl⟩
  exact pairs_after.2 (pairs_ite same (fun _ => yes v _ _ back) fun _ => no v _ _ back)

namespace Simulates

theorem pure (v : Value) : Simulates rel (.pure v : Act φ) (.pure v) := fun _ _ hst => pairs_pure (.refl hst)

variable (hl : Lockstep rel) (h : Simulates rel A B)

include hl

theorem failing (e : Expectation) : Simulates rel (.failing e : Act φ) (.failing e) :=
  fun _ _ hst => pairs_failing (hl.stays_fail (.refl hst) e)

include h

theorem text (hd : Decides rel A m m') : Simulates rel (.text m A) (.text m' B) := by
  intro st st' hst
  refine pairs_read.2 (h.bind_decided hd hst (fun v st₁ st₁' stays => ?_) fun v st₁ st₁' stays => pairs_pure stays)
  have same : st₁.text st.pos = st₁'.text st'.pos := by
    unfold ParseState.text
    rw [hl.input stays.related, hl.pos stays.related, hl.pos hst]
  refine pairs_read.2 ?_
  rw [same]
  exact pairs_pure stays

theorem lookahead (hd : Decides rel A m m') (negative : Bool) :
    Simulates rel (.lookahead m negative A) (.lookahead m' negative B) := by
  intro st st' hst
  have back (v : Value) {st₁ st₁' : ParseState} (stays : Stays rel st st' st₁ st₁') :
      Pairs (.backTo st.pos v : Act φ) st₁ (.backTo st'.pos v) st₁' fun _ => Stays rel st st' := by
    rw [hl.pos hst]
    exact pairs_backTo (hl.stays_move stays st'.pos)
  cases negative
  · exact pairs_read.2 (Simulates.silently hl h hd hst (fun _ _ _ stays => back .null stays)
      fun _ _ _ stays => pairs_pure stays)
  · exact pairs_read.2 (Simulates.silently hl h hd hst (fun _ _ _ stays => back .failed stays)
      fun _ _ _ stays => pairs_pure stays)

theorem named (hd : Decides rel A m m') (name : String) : Simulates rel (.named m name A) (.named m' name B) :=
  fun _ _ hst => Simulates.silently hl h hd hst (fun _ _ _ stays => pairs_pure stays)
    fun _ _ _ stays => pairs_failing (hl.stays_fail stays _)

omit hl in
theorem optional (hd : Decides rel A m m') : Simulates rel (.optional m A) (.optional m' B) :=
  fun _ _ hst => h.bind_decided hd hst (fun _ _ _ stays => pairs_pure stays) fun _ _ _ stays => pairs_pure stays

omit hl in
/-- Rounds from related states. -/
theorem rounds {vs : List Value} {v : Value} (stays : Stays rel st st' st₁ st₁') :
    Pairs (.Collects (fun _ => A) vs v) st₁ (.Collects (fun _ => B) vs v) st₁' fun _ => Stays rel st st' :=
  pairs_collects (fun _ st₁ st₁' stays => (h st₁ st₁' stays.related).mono fun _ _ _ => stays.trans) stays

omit hl in
theorem zeroOrMore : Simulates rel (.zeroOrMore A) (.zeroOrMore B) :=
  fun _ _ hst => h.bind hst fun _ _ _ stays => h.rounds stays

omit hl in
theorem oneOrMore (hd : Decides rel A m m') : Simulates rel (.oneOrMore m A) (.oneOrMore m' B) :=
  fun _ _ hst => h.bind_decided hd hst (fun _ _ _ stays => h.rounds stays) fun _ _ _ stays => pairs_pure stays

omit hl in
theorem unlessFull (most : Option Nat) (n : Nat) : Simulates rel (.unlessFull most n A) (.unlessFull most n B) :=
  fun st st' hst => pairs_ite rfl (fun _ => pairs_pure (.refl hst)) fun _ => h st st' hst

theorem counted {A' B' : Act φ} (h' : Simulates rel A' B') (checked : Bool) (least : Nat) (most : Option Nat) :
    Simulates rel (.counted checked least most A A') (.counted checked least most B B') := by
  intro st st' hst
  refine pairs_read.2 ((h.unlessFull most 0).bind hst fun v st₁ st₁' stays => pairs_bind ?_)
  have rounds : Pairs (.Collects (fun n => .unlessFull most n A') [] v) st₁
      (.Collects (fun n => .unlessFull most n B') [] v) st₁' fun _ => Stays rel st st' :=
    pairs_collects (fun n st₁ st₁' stays => (h'.unlessFull most n st₁ st₁' stays.related).mono fun _ _ _ => stays.trans)
      stays
  refine rounds.mono fun items st₂ st₂' stays => pairs_ite rfl (fun _ => ?_) fun _ => pairs_pure stays
  rw [hl.pos hst]
  exact pairs_backTo (hl.stays_move stays st'.pos)

theorem delimited {A' B' : Act φ} {n n' : MatchResult} (hd : Decides rel A m m') (h' : Simulates rel A' B')
    (hd' : Decides rel A' n n') : Simulates rel (.delimited m n A A') (.delimited m' n' B B') := by
  intro st st' hst
  refine pairs_read.2 (h.bind_decided hd hst (fun v st₁ st₁' stays => ?_) fun v st₁ st₁' stays => pairs_pure stays)
  refine h'.bind_decided hd' stays.related (fun w st₂ st₂' stays' => pairs_pure (stays.trans stays'))
    fun w st₂ st₂' stays' => ?_
  rw [hl.pos hst]
  exact pairs_backTo (hl.stays_move (stays.trans stays') st'.pos)

end Simulates

end Acts

/-! ## Meanings -/

section Meanings

variable {rel : ParseState → ParseState → Prop} {c c' : Setting} {R R' : RuleId → Act HostFunction}
  {f : Expr.Reference → Expr.Reference}

/-- An expression and that expression with redirected references decide alike, once it is known that they end alike;
what their rules do keeps the relation, and so do the calls that bound a repetition. -/
structure Alike (rel : ParseState → ParseState → Prop) (c c' : Setting) (R R' : RuleId → Act HostFunction)
    (f : Expr.Reference → Expr.Reference) (e : Expr) : Prop where
  terminal : (Semantics.terminal? e).isSome → c.matched e = c'.matched e
  decides : ∀ ls, Simulates rel (c.meaning R e ls) (c'.meaning R' (e.mapRefs f) ls) →
    Decides rel (c.meaning R e ls) (c.matched e) (c'.matched (e.mapRefs f))
  rules : ∀ i name t, e = .ruleRef i name (some t) →
    ∃ t', (f ⟨name, some t⟩).target = some t' ∧ Simulates rel (R t) (R' t')
  bounds : ∀ code ∈ e.bounds, ∀ ls, Simulates rel (c.call .boundary code ls) (c'.call .boundary code ls)

/-- So is all that the expression contains. -/
def AllAlike (rel : ParseState → ParseState → Prop) (c c' : Setting) (R R' : RuleId → Act HostFunction)
    (f : Expr.Reference → Expr.Reference) (e : Expr) : Prop := ∀ e' ∈ e.preorder, Alike rel c c' R R' f e'

theorem AllAlike.self {e : Expr} (h : AllAlike rel c c' R R' f e) : Alike rel c c' R R' f e :=
  h e (Expr.mem_preorder_self e)

theorem AllAlike.child {e e' : Expr} (h : AllAlike rel c c' R R' f e) (he : e' ∈ e.children) :
    AllAlike rel c c' R R' f e' := fun _ h' => h _ (Expr.mem_preorder_of_child he h')

/-- An expression with redirected references binds the same label. -/
theorem after_mapRefs (e : Expr) (ls : Labels) (v : Value) :
    ls.after (e.mapRefs f) v = ls.after e v := by
  cases e with
  | labeled i label pick body => cases label <;> rfl
  | repeated i body min max delimiter => cases delimiter <;> rfl
  | _ => rfl

theorem pickedAfter_mapRefs (picked : List Value) (e : Expr) (v : Value) :
    pickedAfter picked (e.mapRefs f) v = pickedAfter picked e v := by
  cases e with
  | labeled i label pick body => cases pick <;> rfl
  | repeated i body min max delimiter => cases delimiter <;> rfl
  | _ => rfl

variable (hl : Lockstep rel) (hcalls : c.function = c'.function)

include hl hcalls

/-- Host code sees the same of both states, once they have the same place for the beginning of its text. -/
theorem pairs_call (kind : FunctionKind) (code : HostCode) (ls : Labels) {st st' : ParseState} (hst : rel st st')
    (saved : Nat) : Pairs (c.call kind code ls) { st with saved } (c'.call kind code ls) { st' with saved }
      fun _ => Stays rel st st' := by
  have view : HostView.of { st with saved } = HostView.of { st' with saved } := by
    unfold HostView.of
    rw [hl.input hst, hl.source hst, hl.pos hst]
  rintro _ v _ ⟨kind', host, hf, rfl, rfl, rfl⟩
  refine ⟨_, { st' with saved }, ⟨kind', host, hcalls ▸ hf, rfl, ?_, rfl⟩, hl.save hst saved, rfl, rfl⟩
  rw [view]

theorem simulates_predicate (code : HostCode) (negative : Bool) (ls : Labels) :
    Simulates rel (c.predicate code negative ls) (c'.predicate code negative ls) := by
  intro st st' hst
  have call := pairs_call hl hcalls .predicate code ls hst st.pos
  rw [show ({ st' with saved := st.pos } : ParseState) = { st' with saved := st'.pos } by rw [hl.pos hst]] at call
  exact pairs_after.2 (pairs_bind (call.mono fun v st₁ st₁' stays => pairs_pure stays))

theorem simulates_action (start : Nat) (code : HostCode) (ls : Labels) :
    Simulates rel (c.action start code ls) (c'.action start code ls) :=
  fun _ _ hst => pairs_after.2 (pairs_call hl hcalls .action code ls hst start)

omit hl hcalls in
theorem simulates_withBounds {min : Option Boundary} {max : Boundary} {ls : Labels}
    (hb : ∀ code ∈ min.elim [] Boundary.codes ++ max.codes,
      Simulates rel (c.call .boundary code ls) (c'.call .boundary code ls))
    {D E : Nat → Option Nat → Act HostFunction} (h : ∀ least most, Simulates rel (D least most) (E least most)) :
    Simulates rel (c.withBounds ls min max D) (c'.withBounds ls min max E) := by
  have one (b : Boundary) (hb : ∀ code ∈ b.codes, Simulates rel (c.call .boundary code ls) (c'.call .boundary code ls))
      {D E : Count → Act HostFunction} (h : ∀ n, Simulates rel (D n) (E n)) :
      Simulates rel (c.withBound ls b D) (c'.withBound ls b E) := by
    cases b with
    | constant n => exact h _
    | label name =>
      unfold Setting.withBound
      cases hl : ls.lookup name.val with
      | none => simp only [hl]; exact fun _ _ _ => pairs_stuck
      | some v => simp only [hl]; exact h _
    | computed code =>
      exact fun st st' hst => (hb code List.mem_cons_self).bind hst fun v st₁ st₁' stays =>
        (h _ st₁ st₁' stays.related).mono fun _ _ _ => stays.trans
  have inMax : ∀ code ∈ max.codes, Simulates rel (c.call .boundary code ls) (c'.call .boundary code ls) :=
    fun code hc => hb code (List.mem_append_right _ hc)
  cases min with
  | none => exact one max inMax fun n => h _ _
  | some min =>
    unfold Setting.withBounds
    exact one min (fun code hc => hb code (List.mem_append_left _ hc)) fun m => one max inMax fun n => h _ _

theorem simulates_finish (action : Option HostCode) (start : Nat) (ls : Labels) (values picked : List Value) :
    Simulates rel (c.finish action start ls values picked) (c'.finish action start ls values picked) := by
  unfold Setting.finish
  split
  · cases action with
    | none => exact .pure _
    | some code => exact simulates_action hl hcalls start code ls
  · exact .pure _

omit hl hcalls in
theorem simulates_others {others : List Expr} {ls : Labels} (ha : ∀ e ∈ others, Alike rel c c' R R' f e)
    (ih : ∀ e ∈ others, Simulates rel (c.meaning R e ls) (c'.meaning R' (e.mapRefs f) ls)) {m m' : MatchResult}
    {v : Value} (hm : m.holds (!v.isFailed) = m'.holds (!v.isFailed)) : Simulates rel (c.meaningOthers R others ls m v)
      (c'.meaningOthers R' (others.map (Expr.mapRefs f)) ls m' v) := by
  induction others generalizing m m' v with
  | nil => exact .pure _
  | cons e es ihs =>
    intro st st' hst
    rw [List.map_cons, Setting.meaningOthers, Setting.meaningOthers]
    refine pairs_ite hm (fun _ => pairs_pure (.refl hst)) fun _ => pairs_bind ?_
    have first := ih e List.mem_cons_self
    have both := (first st st' hst).and ((ha e List.mem_cons_self).decides ls first st st' hst)
    refine both.mono fun w st₁ st₁' ⟨stays, same⟩ => ?_
    have rest := ihs (fun e he => ha e (List.mem_cons_of_mem _ he)) (fun e he => ih e (List.mem_cons_of_mem _ he)) same
    exact (rest st₁ st₁' stays.related).mono fun _ _ _ => stays.trans

theorem simulates_elements {action : Option HostCode} {start : Nat} {elements : List Expr}
    (ha : ∀ e ∈ elements, Alike rel c c' R R' f e)
    (ih : ∀ e ∈ elements, ∀ ls, Simulates rel (c.meaning R e ls) (c'.meaning R' (e.mapRefs f) ls)) {ls : Labels}
    {values picked : List Value} : Simulates rel (c.meaningElements R action start elements ls values picked)
      (c'.meaningElements R' action start (elements.map (Expr.mapRefs f)) ls values picked) := by
  induction elements generalizing ls values picked with
  | nil => exact simulates_finish hl hcalls _ _ _ _ _
  | cons e es ihs =>
    intro st st' hst
    rw [List.map_cons, Setting.meaningElements, Setting.meaningElements]
    have first := ih e List.mem_cons_self ls
    refine first.bind_decided ((ha e List.mem_cons_self).decides ls first) hst
      (fun v st₁ st₁' stays => ?_) fun v st₁ st₁' stays => pairs_backTo (hl.stays_move stays start)
    rw [after_mapRefs e ls v, pickedAfter_mapRefs picked e v]
    have rest : Simulates rel (c.meaningElements R action start es (ls.after e v) (values ++ [v]) (pickedAfter picked e v))
        (c'.meaningElements R' action start (es.map (Expr.mapRefs f)) (ls.after e v) (values ++ [v])
          (pickedAfter picked e v)) :=
      ihs (fun e he => ha e (List.mem_cons_of_mem _ he)) fun e he => ih e (List.mem_cons_of_mem _ he)
    exact (rest st₁ st₁' stays.related).mono fun _ _ _ => stays.trans

omit hcalls in
/-- A test of the text, which decides alike in related states. -/
theorem simulates_test {m m' : MatchResult} (hm : m = m') {test : ParseState → Bool}
    {accept : ParseState → Value × ParseState} {e : Expectation}
    (htest : ∀ st st', rel st st' → test st = test st')
    (haccept : ∀ st st', rel st st' → ∃ v pos, accept st = (v, { st with pos }) ∧ accept st' = (v, { st' with pos })) :
    Simulates rel (.read fun st => if m.holds (test st) then .change accept else .failing e : Act HostFunction)
      (.read fun st => if m'.holds (test st) then .change accept else .failing e) := by
  subst hm
  intro st st' hst
  refine pairs_read.2 (pairs_ite (by rw [htest st st' hst]) (fun _ => ?_) fun _ => Simulates.failing hl e st st' hst)
  obtain ⟨v, pos, hv, hv'⟩ := haccept st st' hst
  refine pairs_change (by rw [hv, hv']) ?_
  rw [hv, hv']
  exact hl.stays_move (.refl hst) pos

omit hcalls in
/-- A terminal reads the text that related states have in common. -/
theorem simulates_terminal {e : Expr} {t : List Char → Option (List Char)} (ht : Semantics.terminal? e = some t)
    (hm : c.matched e = c'.matched e) (ls : Labels) :
    Simulates rel (c.meaning R e ls) (c'.meaning R' (e.mapRefs f) ls) := by
  have rest {st st' : ParseState} (hst : rel st st') : st.rest = st'.rest := by
    unfold ParseState.rest
    rw [hl.input hst, hl.pos hst]
  cases e with
  | literal i value ignoreCase =>
    rw [Expr.mapRefs, Setting.meaning, Setting.meaning]
    split
    · exact .pure _
    · split
      · refine simulates_test hl hm (fun st st' hst => ?_) fun st st' hst => ?_
        · unfold ParseState.matchStringIc ParseState.icMatch?
          rw [rest hst]
        · refine ⟨_, _, rfl, ?_⟩
          unfold ParseState.acceptStringIc ParseState.accept ParseState.icMatch?
          rw [rest hst, hl.pos hst]
      · refine simulates_test hl hm (fun st st' hst => ?_) fun st st' hst => ?_
        · unfold ParseState.matchString
          rw [rest hst]
        · refine ⟨_, _, rfl, ?_⟩
          unfold ParseState.acceptString
          rw [hl.pos hst]
  | charClass i k =>
    rw [Expr.mapRefs, Setting.meaning, Setting.meaning]
    refine simulates_test hl hm (fun st st' hst => ?_) fun st st' hst => ?_
    · unfold ParseState.matchClass
      rw [rest hst]
    · refine ⟨_, _, rfl, ?_⟩
      unfold ParseState.acceptN ParseState.accept
      rw [rest hst, hl.pos hst]
  | any i =>
    rw [Expr.mapRefs, Setting.meaning, Setting.meaning]
    refine simulates_test hl hm (fun st st' hst => ?_) fun st st' hst => ?_
    · unfold ParseState.matchAny
      rw [hl.input hst, hl.pos hst]
    · refine ⟨_, _, rfl, ?_⟩
      unfold ParseState.acceptN ParseState.accept
      rw [rest hst, hl.pos hst]
  | _ => cases ht

/-- A sequence begins at the position that related states have in common. -/
theorem simulates_sequence {action : Option HostCode} {elements : List Expr}
    (ha : ∀ e ∈ elements, Alike rel c c' R R' f e)
    (ih : ∀ e ∈ elements, ∀ ls, Simulates rel (c.meaning R e ls) (c'.meaning R' (e.mapRefs f) ls)) (ls : Labels) :
    Simulates rel (.read fun st => c.meaningElements R action st.pos elements ls [] [])
      (.read fun st => c'.meaningElements R' action st.pos (elements.map (Expr.mapRefs f)) ls [] []) := by
  intro st st' hst
  refine pairs_read.2 ?_
  rw [hl.pos hst]
  exact simulates_elements hl hcalls ha ih st st' hst

/-- From related states, an expression and that expression with redirected references end alike. -/
theorem simulates_expr (e : Expr) (ha : AllAlike rel c c' R R' f e) (ls : Labels) :
    Simulates rel (c.meaning R e ls) (c'.meaning R' (e.mapRefs f) ls) := by
  -- the parts end alike by induction, and so what is decided after them is decided alike
  have self : Alike rel c c' R R' f e := ha.self
  induction e using Expr.induction generalizing ls with
  | choice i first others ih ihs =>
    have inFirst : AllAlike rel c c' R R' f first := ha.child List.mem_cons_self
    have inOthers : ∀ e ∈ others, AllAlike rel c c' R R' f e := fun e he => ha.child (List.mem_cons_of_mem _ he)
    intro st st' hst
    rw [Expr.mapRefs, Expr.mapRefsAll_eq, Setting.meaning, Setting.meaning]
    have alike := ih inFirst ls inFirst.self
    have both := (alike st st' hst).and (inFirst.self.decides ls alike st st' hst)
    refine pairs_bind (both.mono fun v st₁ st₁' both => ?_)
    obtain ⟨stays, same⟩ := both
    have others := simulates_others (fun e he => (inOthers e he).self)
      (fun e he => ihs e he (inOthers e he) ls (inOthers e he).self) same
    exact (others st₁ st₁' stays.related).mono fun _ _ _ => stays.trans
  | sequence i elements ih =>
    have inside : ∀ e ∈ elements, AllAlike rel c c' R R' f e := fun e he => ha.child he
    rw [Expr.mapRefs, Expr.mapRefsAll_eq, Setting.meaning, Setting.meaning]
    exact simulates_sequence hl hcalls (fun e he => (inside e he).self)
      (fun e he ls => ih e he (inside e he) ls (inside e he).self) ls
  | labeled i label pick body ih | group i body ih =>
    have inBody : AllAlike rel c c' R R' f body := ha.child List.mem_cons_self
    rw [Expr.mapRefs, Setting.meaning, Setting.meaning]
    exact ih inBody ls inBody.self
  | action i body code ih ihElements =>
    have inBody : AllAlike rel c c' R R' f body := ha.child List.mem_cons_self
    refine Expr.action_cases body (fun j elements hb => ?_) fun hb => ?_
    · subst hb
      have inside : ∀ e ∈ elements, AllAlike rel c c' R R' f e := fun e he => inBody.child he
      rw [Expr.mapRefs, Expr.mapRefs, Expr.mapRefsAll_eq, Setting.meaning, Setting.meaning]
      exact simulates_sequence hl hcalls (fun e he => (inside e he).self)
        (fun e he ls => ihElements e he (inside e he) ls (inside e he).self) ls
    · have alike := ih inBody ls inBody.self
      intro st st' hst
      rw [Expr.mapRefs, Setting.meaning, Setting.meaning]
      · refine pairs_read.2 (alike.bind_decided (inBody.self.decides ls alike) hst
          (fun v st₁ st₁' stays => ?_) fun v st₁ st₁' stays => pairs_pure stays)
        rw [after_mapRefs body ls v, hl.pos hst]
        exact (simulates_action hl hcalls _ _ _ st₁ st₁' stays.related).mono fun _ _ _ => stays.trans
      · exact Expr.mapRefs_ne_sequence hb
      · exact hb
  | text i body ih =>
    have inBody : AllAlike rel c c' R R' f body := ha.child List.mem_cons_self
    rw [Expr.mapRefs, Setting.meaning, Setting.meaning]
    have alike := ih inBody ls inBody.self
    exact Simulates.text hl alike (inBody.self.decides ls alike)
  | simpleAnd i body ih | simpleNot i body ih =>
    have inBody : AllAlike rel c c' R R' f body := ha.child List.mem_cons_self
    rw [Expr.mapRefs, Setting.meaning, Setting.meaning]
    have alike := ih inBody ls inBody.self
    exact Simulates.lookahead hl alike (inBody.self.decides ls alike) _
  | semanticAnd i code | semanticNot i code =>
    rw [Expr.mapRefs, Setting.meaning, Setting.meaning]
    exact simulates_predicate hl hcalls code _ ls
  | optional i body ih =>
    have inBody : AllAlike rel c c' R R' f body := ha.child List.mem_cons_self
    rw [Expr.mapRefs, Setting.meaning, Setting.meaning]
    have alike := ih inBody ls inBody.self
    exact alike.optional (inBody.self.decides ls alike)
  | zeroOrMore i body ih =>
    have inBody : AllAlike rel c c' R R' f body := ha.child List.mem_cons_self
    rw [Expr.mapRefs, Setting.meaning, Setting.meaning]
    exact (ih inBody ls inBody.self).zeroOrMore
  | oneOrMore i body ih =>
    have inBody : AllAlike rel c c' R R' f body := ha.child List.mem_cons_self
    rw [Expr.mapRefs, Setting.meaning, Setting.meaning]
    have alike := ih inBody ls inBody.self
    exact alike.oneOrMore (inBody.self.decides ls alike)
  | repeated i body min max delimiter ih ihDelimiter =>
    have inBody : AllAlike rel c c' R R' f body := ha.child List.mem_cons_self
    have bodies := ih inBody ls inBody.self
    cases delimiter with
    | none =>
      rw [Expr.mapRefs, Setting.meaning, Setting.meaning]
      exact simulates_withBounds (fun code hc => self.bounds code hc ls) fun least most =>
        Simulates.counted hl bodies bodies _ least most
    | some d =>
      have inDelimiter : AllAlike rel c c' R R' f d := ha.child (List.mem_cons_of_mem _ List.mem_cons_self)
      rw [Expr.mapRefs, Setting.meaning, Setting.meaning]
      have delimiters := ihDelimiter d rfl inDelimiter ls inDelimiter.self
      have items := Simulates.delimited hl delimiters (inDelimiter.self.decides ls delimiters) bodies
        (inBody.self.decides ls bodies)
      exact simulates_withBounds (fun code hc => self.bounds code hc ls) fun least most =>
        Simulates.counted hl bodies items _ least most
  | ruleRef i name target =>
    cases target with
    | none =>
      rw [Setting.meaning]
      exact fun _ _ _ => pairs_stuck
    | some t =>
      obtain ⟨t', ht', hR⟩ := self.rules i name t rfl
      rw [Expr.mapRefs, ht', Setting.meaning, Setting.meaning]
      exact hR
  | literal i value ignoreCase => cases ignoreCase <;> exact simulates_terminal hl rfl (self.terminal rfl) ls
  | charClass i k => exact simulates_terminal hl rfl (self.terminal rfl) ls
  | any i => exact simulates_terminal hl rfl (self.terminal rfl) ls
  | named i name body ih =>
    have inBody : AllAlike rel c c' R R' f body := ha.child List.mem_cons_self
    rw [Expr.mapRefs, Setting.meaning, Setting.meaning]
    have alike := ih inBody ls inBody.self
    exact Simulates.named hl alike (inBody.self.decides ls alike) name

/-- So do rules that have them as their bodies. -/
theorem simulates_ofRule (rule : Rule) (ha : AllAlike rel c c' R R' f rule.body) :
    Simulates rel (c.ofRule R rule) (c'.ofRule R' { rule with body := rule.body.mapRefs f }) := by
  have body := simulates_expr hl hcalls rule.body ha []
  unfold Setting.ofRule
  split
  · rename_i name hname
    rw [show ({ rule with body := rule.body.mapRefs f } : Rule).displayName = some name from hname]
    exact Simulates.named hl body (ha.self.decides [] body) name
  · rename_i hname
    rw [show ({ rule with body := rule.body.mapRefs f } : Rule).displayName = none from hname]
    exact body

omit hcalls in
/-- Rules that do alike are enough for one setting, where host code that bounds repetitions does. -/
theorem simulates_rule (hR : ∀ t, Simulates rel (R t) (R' t)) (rule : Rule)
    (hb : ∀ e ∈ rule.body.preorder, ∀ code ∈ e.bounds, ∀ ls,
      Simulates rel (c.call .boundary code ls) (c.call .boundary code ls)) :
    Simulates rel (c.ofRule R rule) (c.ofRule R' rule) := by
  have same : ({ rule with body := rule.body.mapRefs fun ref => ref } : Rule) = rule := by
    rw [Expr.mapRefs_self]
  have whole : Simulates rel (c.ofRule R rule) (c.ofRule R' { rule with body := rule.body.mapRefs fun ref => ref }) := by
    refine simulates_ofRule hl rfl rule fun e he => ⟨fun _ => rfl, fun ls _ st st' _ cs v st₁ _ => ?_, ?_, hb e he⟩
    · rw [Expr.mapRefs_self]
    · exact fun i name t _ => ⟨t, rfl, hR t⟩
  rwa [same] at whole

end Meanings

end PegCompiler.Machine
