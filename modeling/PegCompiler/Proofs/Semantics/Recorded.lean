/-
A parse records what its evaluation logs, unless failures are silenced. The induction is on the expression, as for the
results of evaluations, which tell here where the parts of an expression are tried.
-/
import PegCompiler.Proofs.Semantics.Logs
import PegCompiler.Proofs.Semantics.Sound

namespace PegCompiler.Semantics

open Machine

/-! ## Recorded logs -/

/-- From the one state to the other a log was recorded, unless failures are silenced. -/
structure Recorded (l : Log) (st st' : ParseState) : Prop where
  silent : st'.silent = st.silent
  failures : st'.failures = if st.silent = 0 then st.failures.recordAll l else st.failures

/-- What an act does is recorded as told. -/
def Records (w : World) (A : Act HostFunction) (L : (pos saved : Nat) → Log → Prop) : Prop :=
  ∀ st, w.Has st → ∀ cs v st', A st cs v st' → ∃ l, L st.pos st.saved l ∧ Recorded l st st'

variable {w : World} {c : Setting} {R : RuleId → Act HostFunction} {ls : Labels} {st st₁ st' : ParseState}
  {cs : List Call} {v : Value} {l l' : Log}

namespace Recorded

/-- Nothing fails where nothing is recorded. -/
theorem nothing (hsilent : st'.silent = st.silent) (hfailures : st'.failures = st.failures) : Recorded [] st st' :=
  ⟨hsilent, by rw [hfailures]; exact (ite_self _).symm⟩

theorem trans (h : Recorded l st st₁) (h' : Recorded l' st₁ st') : Recorded (l ++ l') st st' := by
  refine ⟨h'.silent.trans h.silent, ?_⟩
  rw [h'.failures, h.silent, h.failures]
  split
  · rw [Failures.recordAll_append]
  · rfl

/-- What nothing is recorded by may follow. -/
theorem andNothing (h : Recorded l st st₁) (h' : Recorded [] st₁ st') : Recorded l st st' := by
  have both := h.trans h'
  rwa [List.append_nil] at both

theorem fail (st : ParseState) (x : Expectation) : Recorded [(st.pos, x)] st (st.fail x) :=
  ⟨st.fail_silent x, st.failures_fail x⟩

/-- Where failures are silenced for a while, none is recorded meanwhile. -/
theorem silenced (h : Recorded l { st with silent := st.silent + 1 } st₁) :
    Recorded [] st { st₁ with silent := st₁.silent - 1 } := by
  refine nothing ?_ ?_
  · show st₁.silent - 1 = st.silent
    rw [h.silent]
    rfl
  · show st₁.failures = st.failures
    rw [h.failures, if_neg (Nat.succ_ne_zero _)]
    rfl

end Recorded

theorem Records.mono {A : Act HostFunction} {L L' : (pos saved : Nat) → Log → Prop} (h : Records w A L)
    (hL : ∀ pos saved l, L pos saved l → L' pos saved l) : Records w A L' := by
  intro st has cs v st' hA
  obtain ⟨l, hl, recorded⟩ := h st has cs v st' hA
  exact ⟨l, hL _ _ _ hl, recorded⟩

/-! ## Terminals, names and lookaheads -/

theorem records_terminal {e : Expr} {t : List Char → Option (List Char)} (ht : terminal? e = some t) :
    Records w (c.unpruned.meaning R e ls) (Logs w e ls) := by
  intro st has cs v st' h
  have takes : Takes t (expectation? e) (c.unpruned.meaning R e ls) st := takes_terminal has.input ht
  unfold Takes at takes
  rw [has.rest] at takes
  cases hr : t (w.input.rest st.pos) with
  | none =>
    rw [hr] at takes
    obtain ⟨x, hx, takes⟩ := takes
    obtain ⟨-, -, rfl⟩ := (takes cs v st').1 h
    exact ⟨_, .rejected ht hr hx, .fail st x⟩
  | some text =>
    rw [hr] at takes
    obtain ⟨-, -, rfl⟩ := (takes cs v st').1 h
    exact ⟨[], .accepted ht hr, .nothing rfl rfl⟩

/-- What has a name is recorded under it, if it fails. -/
theorem records_named {A : Act HostFunction} {S : Told} {L : (pos saved : Nat) → Log → Prop} (hS : Sound w A S)
    (hL : Records w A L) (name : String) : Records w (.named .sometimes name A) fun pos saved l =>
      ∃ cs r saved', S pos saved cs r saved' ∧ l = r.log pos name := by
  rintro st has _ v st' ⟨cs₁, x, st₁, cs₂, hA, hrest, rfl⟩
  obtain ⟨r, s₁, hr, -, -, hend⟩ := hS _ (has.silence _) _ _ _ hA
  obtain ⟨l, -, recorded⟩ := hL _ (has.silence _) _ _ _ hA
  refine ⟨_, ⟨cs₁, r, s₁, hr, rfl⟩, ?_⟩
  have before := recorded.silenced
  cases r with
  | found a q =>
    obtain ⟨rfl, rfl, hx⟩ := hend
    simp only [hx] at hrest
    obtain ⟨-, -, rfl⟩ := hrest
    exact before
  | failed =>
    obtain ⟨rfl, hpos⟩ := hend
    have hrest : cs₂ = [] ∧ (Value.failed, ({ st₁ with silent := st₁.silent - 1 }).fail (.named name)) = (v, st') :=
      hrest
    obtain ⟨-, e⟩ := hrest
    cases e
    have entry := before.trans (.fail _ (.named name))
    rw [List.nil_append] at entry
    rw [← show st₁.pos = st.pos from hpos]
    exact entry

theorem records_lookahead {A : Act HostFunction} {L : (pos saved : Nat) → Log → Prop} (hL : Records w A L)
    (negative : Bool) : Records w (.lookahead .sometimes negative A) fun _ _ l => l = [] := by
  rintro st has _ v st' ⟨cs₁, x, st₁, cs₂, hA, hrest, -⟩
  obtain ⟨l, -, recorded⟩ := hL _ (has.silence _) _ _ _ hA
  refine ⟨[], rfl, recorded.silenced.andNothing ?_⟩
  -- whatever the body did, it is left to move back or to stay
  have moved : (∃ pos, st' = { st₁ with silent := st₁.silent - 1, pos }) := by
    cases negative <;> cases hx : x.isFailed <;> (simp only [hx] at hrest; obtain ⟨-, -, rfl⟩ := hrest; exact ⟨_, rfl⟩)
  obtain ⟨pos, rfl⟩ := moved
  exact .nothing rfl rfl

/-! ## Repetitions -/

section Repetitions

variable {A B : Act HostFunction} {body d : Expr} {delimiter : Option Expr} {most : Option Nat}

theorem records_alone {n : Nat} (hn : n = 0 ∨ delimiter = none) (h : Records w A (Logs w body ls)) :
    Records w A (LogsItem w body delimiter ls n) :=
  h.mono fun _ _ _ => .alone hn

theorem records_delimited {n : Nat} (hd : Sound w B (Eval w d ls)) (hld : Records w B (Logs w d ls))
    (hl : Records w A (Logs w body ls)) :
    Records w (.delimited .sometimes .sometimes B A) (LogsItem w body (some d) ls (n + 1)) := by
  rintro st has cs v st' ⟨cs₁, u, st₁, cs₂, hB, hrest, -⟩
  obtain ⟨r, s₁, hr, has₁, rfl, hend⟩ := hd st has _ _ _ hB
  obtain ⟨l₁, hl₁, recorded₁⟩ := hld st has _ _ _ hB
  cases r with
  | failed =>
    obtain ⟨rfl, -⟩ := hend
    obtain ⟨-, -, rfl⟩ := hrest
    exact ⟨l₁, .noDelimiter hr hl₁, recorded₁⟩
  | found a q =>
    obtain ⟨rfl, rfl, hu⟩ := hend
    rw [show MatchResult.sometimes.holds (!u.isFailed) = true by rw [hu]; rfl] at hrest
    obtain ⟨cs₃, x, st₂, cs₄, hA, hrest, -⟩ := hrest
    obtain ⟨l₂, hl₂, recorded₂⟩ := hl st₁ has₁ _ _ _ hA
    refine ⟨l₁ ++ l₂, .delimited hr hl₁ hl₂, (recorded₁.trans recorded₂).andNothing ?_⟩
    cases hx : x.isFailed <;> (simp only [hx] at hrest; obtain ⟨-, -, rfl⟩ := hrest; exact .nothing rfl rfl)

/-- Where the attempt at an item after `n` others has ended with a value, the log of the items after it. -/
def LogsFrom (w : World) (body : Expr) (delimiter : Option Expr) (most : Option Nat) (ls : Labels) (n : Nat)
    (v : Value) (st : ParseState) (l : Log) : Prop :=
  v.isFailed = true ∧ l = [] ∨
    v.isFailed = false ∧ LogsItems w body delimiter most ls (n + 1) st.pos st.saved l

theorem records_turn {n : Nat} (hS : Sound w A (Item w body delimiter ls n))
    (hL : Records w A (LogsItem w body delimiter ls n)) (has : w.Has st)
    (ht : Act.unlessFull most n A st cs v st₁) : ∃ l, Recorded l st st₁ ∧ ∀ l',
      LogsFrom w body delimiter most ls n v st₁ l' → LogsItems w body delimiter most ls n st.pos st.saved (l ++ l') := by
  unfold Act.unlessFull at ht
  cases hm : most.any (· ≤ n) with
  | true =>
    rw [hm] at ht
    obtain ⟨-, rfl, rfl⟩ := ht
    refine ⟨[], .nothing rfl rfl, ?_⟩
    rintro l' (⟨-, rfl⟩ | ⟨hv, -⟩)
    · exact .full hm
    · cases hv
  | false =>
    rw [hm] at ht
    obtain ⟨r, s₁, hr, -, rfl, hend⟩ := hS st has _ _ _ ht
    obtain ⟨l, hl, recorded⟩ := hL st has _ _ _ ht
    refine ⟨l, recorded, ?_⟩
    cases r with
    | failed =>
      obtain ⟨rfl, -⟩ := hend
      rintro l' (⟨-, rfl⟩ | ⟨hv, -⟩)
      · rw [List.append_nil]
        exact .last hm hr hl
      · cases hv
    | found a q =>
      obtain ⟨rfl, rfl, hok⟩ := hend
      rintro l' (⟨hv, -⟩ | ⟨-, later⟩)
      · rw [hok] at hv; cases hv
      · exact .more hm hr hl later

/-- The rounds of a repetition. -/
theorem records_rounds (hS : ∀ n, Sound w A (Item w body delimiter ls (n + 1)))
    (hL : ∀ n, Records w A (LogsItem w body delimiter ls (n + 1))) {acc : List Value} {u : Value} (has : w.Has st)
    (h : Act.Collects (fun n => Act.unlessFull most n A) acc v st cs u st') :
    ∃ l, Recorded l st st' ∧ LogsFrom w body delimiter most ls acc.length v st l := by
  induction h with
  | done hv => exact ⟨[], .nothing rfl rfl, .inl ⟨hv, rfl⟩⟩
  | @more acc v x u st st₁ st' cs₁ cs₂ hv h _ ih =>
    obtain ⟨has₁, -⟩ := sound_turn (hS _) has h
    obtain ⟨l₁, recorded₁, turn⟩ := records_turn (hS _) (hL _) has h
    obtain ⟨l₂, recorded₂, follow⟩ := ih has₁
    rw [List.length_append] at follow
    exact ⟨l₁ ++ l₂, recorded₁.trans recorded₂, .inr ⟨hv, turn l₂ follow⟩⟩

/-- The items of a repetition. -/
theorem records_items {first : Act HostFunction} (hfirst : Sound w first (Item w body delimiter ls 0))
    (hlfirst : Records w first (LogsItem w body delimiter ls 0))
    (hS : ∀ n, Sound w A (Item w body delimiter ls (n + 1)))
    (hL : ∀ n, Records w A (LogsItem w body delimiter ls (n + 1))) {u : Value} (has : w.Has st)
    (h : ((Act.unlessFull most 0 first).bind (Act.Collects (fun n => Act.unlessFull most n A) [])) st cs u st') :
    ∃ l, Recorded l st st' ∧ LogsItems w body delimiter most ls 0 st.pos st.saved l := by
  obtain ⟨cs₁, x, st₁, cs₂, h, hrest, -⟩ := h
  obtain ⟨has₁, -⟩ := sound_turn hfirst has h
  obtain ⟨l₁, recorded₁, turn⟩ := records_turn hfirst hlfirst has h
  obtain ⟨l₂, recorded₂, follow⟩ := records_rounds hS hL has₁ hrest
  exact ⟨l₁ ++ l₂, recorded₁.trans recorded₂, turn l₂ follow⟩

/-- A repetition between bounds. -/
theorem records_counted {first : Act HostFunction} (hfirst : Sound w first (Item w body delimiter ls 0))
    (hlfirst : Records w first (LogsItem w body delimiter ls 0))
    (hS : ∀ n, Sound w A (Item w body delimiter ls (n + 1)))
    (hL : ∀ n, Records w A (LogsItem w body delimiter ls (n + 1))) {checked : Bool} {least : Nat} (has : w.Has st)
    (h : Act.counted checked least most first A st cs v st') :
    ∃ l, Recorded l st st' ∧ LogsItems w body delimiter most ls 0 st.pos st.saved l := by
  obtain ⟨cs₁, x, st₁, cs₂, hfirst', ⟨cs₃, items, st₂, cs₄, hrounds, hrest, rfl⟩, rfl⟩ := h
  obtain ⟨l, recorded, hl⟩ := records_items hfirst hlfirst hS hL has ⟨cs₁, x, st₁, cs₃, hfirst', hrounds, rfl⟩
  refine ⟨l, recorded.andNothing ?_, hl⟩
  split at hrest <;> (obtain ⟨-, -, rfl⟩ := hrest; exact .nothing rfl rfl)

end Repetitions

/-! ## Sequences -/

/-- How a sequence ends is not recorded. -/
theorem finish_records {action : Option HostCode} {start : Nat} {values picked : List Value}
    (h : c.finish action start ls values picked st cs v st') : Recorded [] st st' := by
  unfold Setting.finish at h
  split at h
  · cases action with
    | none => obtain ⟨-, -, rfl⟩ := h; exact .nothing rfl rfl
    | some code => obtain ⟨_, _, -, -, -, rfl⟩ := h; exact .nothing rfl rfl
  · obtain ⟨-, -, rfl⟩ := h
    exact .nothing rfl rfl

theorem records_elements {action : Option HostCode} {start : Nat} {es : List Expr}
    (hS : ∀ e ∈ es, ∀ ls, Sound w (c.unpruned.meaning R e ls) (Eval w e ls))
    (hL : ∀ e ∈ es, ∀ ls, Records w (c.unpruned.meaning R e ls) (Logs w e ls)) {values picked : List Value}
    (has : w.Has st) (h : c.unpruned.meaningElements R action start es ls values picked st cs v st') :
    ∃ l, LogsAll w es ls st.pos st.saved l ∧ Recorded l st st' := by
  induction es generalizing ls values picked st cs with
  | nil => exact ⟨[], .nil, finish_records h⟩
  | cons e es ih =>
    unfold Setting.meaningElements at h
    obtain ⟨cs₁, x, st₁, cs₂, he, hrest, -⟩ := h
    obtain ⟨r, s₁, hr, has₁, rfl, hend⟩ := hS e List.mem_cons_self ls st has _ _ _ he
    obtain ⟨l₁, hl₁, recorded₁⟩ := hL e List.mem_cons_self ls st has _ _ _ he
    cases r with
    | failed =>
      obtain ⟨rfl, -⟩ := hend
      obtain ⟨-, -, rfl⟩ := hrest
      exact ⟨l₁, .here hr hl₁, recorded₁.andNothing (.nothing rfl rfl)⟩
    | found a q =>
      obtain ⟨rfl, rfl, hx⟩ := hend
      rw [show (c.unpruned.matched e).holds (!x.isFailed) = true by rw [hx]; rfl, if_pos rfl] at hrest
      obtain ⟨l₂, hl₂, recorded₂⟩ := ih (fun e' he' => hS e' (List.mem_cons_of_mem _ he'))
        (fun e' he' => hL e' (List.mem_cons_of_mem _ he')) has₁ hrest
      exact ⟨l₁ ++ l₂, .cons hr hl₁ hl₂, recorded₁.trans recorded₂⟩

/-! ## Choices -/

theorem records_choice {i : Expr.Info} {first : Expr} {others : List Expr}
    (hS : ∀ e ∈ first :: others, Sound w (c.unpruned.meaning R e ls) (Eval w e ls))
    (hL : ∀ e ∈ first :: others, Records w (c.unpruned.meaning R e ls) (Logs w e ls)) :
    Records w ((c.unpruned.meaning R first ls).bind (c.unpruned.meaningOthers R others ls .sometimes))
      (Logs w (.choice i first others) ls) := by
  induction others generalizing first with
  | nil =>
    rintro st has _ v st' ⟨cs₁, x, st₁, _, h, ⟨rfl, rfl, rfl⟩, -⟩
    obtain ⟨r, s₁, hr, -⟩ := hS first List.mem_cons_self st has _ _ _ h
    obtain ⟨l, hl, recorded⟩ := hL first List.mem_cons_self st has _ _ _ h
    cases r with
    | found a q => exact ⟨l, .first hr hl, recorded⟩
    | failed => exact ⟨l, .noneLeft hr hl, recorded⟩
  | cons e es ih =>
    rintro st has _ v st' ⟨cs₁, x, st₁, cs₂, h, hrest, -⟩
    obtain ⟨r, s₁, hr, has₁, rfl, hend⟩ := hS first List.mem_cons_self st has _ _ _ h
    obtain ⟨l₁, hl₁, recorded₁⟩ := hL first List.mem_cons_self st has _ _ _ h
    unfold Setting.meaningOthers at hrest
    cases r with
    | found a q =>
      obtain ⟨rfl, rfl, hx⟩ := hend
      rw [hx] at hrest
      obtain ⟨-, -, rfl⟩ := hrest
      exact ⟨l₁, .first hr hl₁, recorded₁⟩
    | failed =>
      obtain ⟨rfl, hpos⟩ := hend
      obtain ⟨l₂, hl₂, recorded₂⟩ := ih (fun e' he => hS e' (List.mem_cons_of_mem _ he))
        (fun e' he => hL e' (List.mem_cons_of_mem _ he)) st₁ has₁ _ _ _ hrest
      rw [hpos] at hl₂
      exact ⟨l₁ ++ l₂, .others hr hl₁ hl₂, recorded₁.trans recorded₂⟩

/-! ## Expressions -/

/-- After an act that is recorded, one that nothing is recorded by. -/
theorem Records.bind {A : Act HostFunction} {L : (pos saved : Nat) → Log → Prop} (h : Records w A L)
    {D : Value → Act HostFunction} (hD : ∀ u st cs v st', D u st cs v st' → Recorded [] st st') :
    Records w (A.bind D) L := by
  rintro st has _ v st' ⟨cs₁, u, st₁, cs₂, hA, hrest, -⟩
  obtain ⟨l, hl, recorded⟩ := h st has _ _ _ hA
  exact ⟨l, hl, recorded.andNothing (hD u st₁ cs₂ v st' hrest)⟩

/-- What expressions do is recorded as it is logged, if this is so of rules. -/
theorem records_expr (hf : c.function = w.bindings.function) (hbs : w.bindings.NeverFail)
    (hS : ∀ r, Sound w (R r) (EvalRule w r)) (hL : ∀ r, Records w (R r) (LogsRule w r)) (e : Expr) (ls : Labels) :
    Records w (c.unpruned.meaning R e ls) (Logs w e ls) := by
  have sound (e : Expr) (ls : Labels) : Sound w (c.unpruned.meaning R e ls) (Eval w e ls) := sound_expr hf hbs hS e ls
  have hf : c.unpruned.function = w.bindings.function := hf
  induction e using Expr.induction generalizing ls with
  | choice i first others ihFirst ihOthers =>
    unfold Setting.meaning
    refine records_choice (fun e _ => sound e ls) fun e he => ?_
    rcases List.mem_cons.1 he with rfl | he
    · exact ihFirst ls
    · exact ihOthers e he ls
  | sequence i elements ih =>
    intro st has cs v st' h
    unfold Setting.meaning at h
    obtain ⟨l, hl, recorded⟩ := records_elements (fun e _ => sound e) ih has h
    exact ⟨l, .sequence hl, recorded⟩
  | labeled i label pick body ih =>
    unfold Setting.meaning
    exact (ih ls).mono fun _ _ _ => .labeled
  | group i body ih =>
    unfold Setting.meaning
    exact (ih ls).mono fun _ _ _ => .group
  | action i body code ih ihElements =>
    refine Expr.action_cases body (fun j elements hb => ?_) fun hb => ?_
    · subst hb
      intro st has cs v st' h
      unfold Setting.meaning at h
      obtain ⟨l, hl, recorded⟩ := records_elements (fun e _ => sound e) ihElements has h
      exact ⟨l, .action (.sequence hl), recorded⟩
    · intro st has cs v st' h
      rw [Setting.meaning] at h
      · obtain ⟨cs₁, u, st₁, cs₂, hbody, hrest, -⟩ := h
        obtain ⟨l, hl, recorded⟩ := ih ls st has _ _ _ hbody
        refine ⟨l, .action hl, recorded.andNothing ?_⟩
        split at hrest
        · obtain ⟨_, _, -, -, -, rfl⟩ := hrest; exact .nothing rfl rfl
        · obtain ⟨-, -, rfl⟩ := hrest; exact .nothing rfl rfl
      · exact hb
  | text i body ih =>
    intro st has cs v st' h
    obtain ⟨cs₁, u, st₁, cs₂, hbody, hrest, -⟩ := h
    obtain ⟨l, hl, recorded⟩ := ih ls st has _ _ _ hbody
    refine ⟨l, .text hl, recorded.andNothing ?_⟩
    split at hrest <;> (obtain ⟨-, -, rfl⟩ := hrest; exact .nothing rfl rfl)
  | simpleAnd i body ih =>
    unfold Setting.meaning
    refine (records_lookahead (ih ls) false).mono ?_
    rintro pos saved _ rfl
    exact .simpleAnd
  | simpleNot i body ih =>
    unfold Setting.meaning
    refine (records_lookahead (ih ls) true).mono ?_
    rintro pos saved _ rfl
    exact .simpleNot
  | semanticAnd i code =>
    intro st has cs v st' h
    obtain ⟨_, -, -, -, rfl⟩ := (predicate_iff hf has).1 h
    exact ⟨[], .semanticAnd, .nothing rfl rfl⟩
  | semanticNot i code =>
    intro st has cs v st' h
    obtain ⟨_, -, -, -, rfl⟩ := (predicate_iff hf has).1 h
    exact ⟨[], .semanticNot, .nothing rfl rfl⟩
  | optional i body ih =>
    unfold Setting.meaning
    refine Records.bind ((ih ls).mono fun _ _ _ => .optional) fun u st cs v st' hrest => ?_
    split at hrest <;> (obtain ⟨-, -, rfl⟩ := hrest; exact .nothing rfl rfl)
  | zeroOrMore i body ih =>
    intro st has cs v st' h
    have h : ((Act.unlessFull none 0 (c.unpruned.meaning R body ls)).bind
        (Act.Collects (fun n => Act.unlessFull none n (c.unpruned.meaning R body ls)) [])) st cs v st' := h
    obtain ⟨l, recorded, hl⟩ := records_items (sound_alone (.inl rfl) (sound body ls)) (records_alone (.inl rfl) (ih ls))
      (fun _ => sound_alone (.inr rfl) (sound body ls)) (fun _ => records_alone (.inr rfl) (ih ls)) has h
    exact ⟨l, .zeroOrMore hl, recorded⟩
  | oneOrMore i body ih =>
    rintro st has _ v st' ⟨cs₁, x, st₁, cs₂, h, hrest, rfl⟩
    -- without a first item there are no rounds, and else they go on as those of any repetition
    have first : Sound w (c.unpruned.meaning R body ls) (Item w body none ls 0) := sound_alone (.inl rfl) (sound body ls)
    have rounds : ∃ l, Recorded l st st' ∧ LogsItems w body none none ls 0 st.pos st.saved l := by
      have h : Act.unlessFull none 0 (c.unpruned.meaning R body ls) st cs₁ x st₁ := h
      obtain ⟨l₁, recorded₁, turn⟩ := records_turn first (records_alone (.inl rfl) (ih ls)) has h
      obtain ⟨has₁, -⟩ := sound_turn first has h
      cases hx : x.isFailed with
      | true =>
        rw [hx] at hrest
        obtain ⟨-, -, rfl⟩ := hrest
        exact ⟨l₁ ++ [], recorded₁.trans (.nothing rfl rfl), turn [] (.inl ⟨hx, rfl⟩)⟩
      | false =>
        rw [hx] at hrest
        obtain ⟨l₂, recorded₂, follow⟩ := records_rounds (fun _ => sound_alone (.inr rfl) (sound body ls))
          (fun _ => records_alone (.inr rfl) (ih ls)) has₁
          (show Act.Collects (fun n => Act.unlessFull none n (c.unpruned.meaning R body ls)) [] x st₁ cs₂ v st' from hrest)
        exact ⟨l₁ ++ l₂, recorded₁.trans recorded₂, turn l₂ follow⟩
    obtain ⟨l, recorded, hl⟩ := rounds
    exact ⟨l, .oneOrMore hl, recorded⟩
  | repeated i body min max delimiter ih ihDelimiter =>
    have first : Records w (c.unpruned.meaning R body ls) (LogsItem w body delimiter ls 0) := records_alone (.inl rfl) (ih ls)
    intro st has cs v st' h
    cases delimiter with
    | none =>
      unfold Setting.meaning at h
      obtain ⟨cs₁, least, most, cs₂, hb, hA, -⟩ := (withBounds_iff hf has).1 h
      obtain ⟨l, recorded, hl⟩ := records_counted (sound_alone (.inl rfl) (sound body ls)) first
        (fun n => sound_alone (.inr rfl) (sound body ls)) (fun n => records_alone (.inr rfl) (ih ls)) has hA
      exact ⟨l, .repeated hb hl, recorded⟩
    | some d =>
      unfold Setting.meaning at h
      obtain ⟨cs₁, least, most, cs₂, hb, hA, -⟩ := (withBounds_iff hf has).1 h
      obtain ⟨l, recorded, hl⟩ := records_counted (sound_alone (.inl rfl) (sound body ls)) first
        (fun n => sound_delimited (sound d ls) (sound body ls))
        (fun n => records_delimited (sound d ls) (ihDelimiter d rfl ls) (ih ls)) has hA
      exact ⟨l, .repeated hb hl, recorded⟩
  | ruleRef i name target =>
    cases target with
    | none => exact fun st has cs v st' h => h.elim
    | some t =>
      unfold Setting.meaning
      exact (hL t).mono fun _ _ _ => .ruleRef
  | literal i value ignoreCase => cases ignoreCase <;> exact records_terminal rfl
  | charClass | any => exact records_terminal rfl
  | named i name body ih =>
    unfold Setting.meaning
    refine (records_named (sound body ls) (ih ls) name).mono ?_
    rintro pos saved _ ⟨cs, r, saved', h, rfl⟩
    exact .named h

end PegCompiler.Semantics
