/-
Expressions as acts do whatever the semantics tells of. The induction is on how it is told: on evaluations of
expressions, of the elements of sequences and of the items of repetitions at once.
-/
import PegCompiler.Proofs.Semantics.Sound

namespace PegCompiler.Semantics

open Machine

variable {w : World} {c : Setting} {R : RuleId → Act HostFunction}

/-- From whatever state is at this place, an act can end as told; a failure is one back at `start`. -/
def Does (w : World) (start : Nat) (A : Act HostFunction) : Told := fun pos saved cs r saved' =>
  ∀ st, w.Has st → st.pos = pos → st.saved = saved → ∃ v st', A st cs v st' ∧ EndsAs w start r saved' v st'

/-! ## Operators -/

section Operators

variable {A : Act HostFunction} {X Y : Value → Act HostFunction} {start pos saved saved₁ saved' stop : Nat} {u v : Value}
  {cs cs₁ cs₂ : List Call} {r : Result Value}

theorem does_pure (h : r.Is start v pos) : Does w start (.pure v) pos saved [] r saved := by
  rintro st has rfl rfl
  exact ⟨v, st, ⟨rfl, rfl, rfl⟩, has, rfl, h⟩

theorem does_backTo {q : Nat} (h : r.Is start v q) : Does w start (.backTo q v) pos saved [] r saved := by
  rintro st has - rfl
  exact ⟨v, _, ⟨rfl, rfl, rfl⟩, has.move q, rfl, h⟩

theorem does_failing {x : Expectation} : Does w pos (.failing x) pos saved [] .failed saved := by
  rintro st has rfl rfl
  exact ⟨.failed, _, ⟨rfl, rfl⟩, endsAs_fail has x⟩

theorem does_read {D : ParseState → Act HostFunction}
    (h : ∀ st, w.Has st → st.pos = pos → Does w start (D st) pos saved cs r saved') :
    Does w start (.read D) pos saved cs r saved' :=
  fun st has hpos hsaved => h st has hpos st has hpos hsaved

theorem does_found {start₁ : Nat} (h : Does w start₁ A pos saved cs₁ (.found u stop) saved₁)
    (hX : u.isFailed = false → Does w start (X u) stop saved₁ cs₂ r saved') :
    Does w start (A.bind X) pos saved (cs₁ ++ cs₂) r saved' := by
  intro st has hpos hsaved
  obtain ⟨_, st₁, hA, has₁, hs, rfl, hq, hu⟩ := h st has hpos hsaved
  obtain ⟨v, st', hv, hend⟩ := hX hu st₁ has₁ hq hs
  exact ⟨v, st', ⟨cs₁, _, st₁, cs₂, hA, hv, rfl⟩, hend⟩

theorem does_failed {start₁ : Nat} (h : Does w start₁ A pos saved cs₁ .failed saved₁)
    (hX : Does w start (X .failed) start₁ saved₁ cs₂ r saved') :
    Does w start (A.bind X) pos saved (cs₁ ++ cs₂) r saved' := by
  intro st has hpos hsaved
  obtain ⟨_, st₁, hA, has₁, hs, rfl, hq⟩ := h st has hpos hsaved
  obtain ⟨v, st', hv, hend⟩ := hX st₁ has₁ hq hs
  exact ⟨v, st', ⟨cs₁, _, st₁, cs₂, hA, hv, rfl⟩, hend⟩

/-- Where it is asked whether an act matched, the one that follows is the one for a match. -/
theorem does_if (hu : u.isFailed = false) {B D : Act HostFunction} (h : Does w start B pos saved cs r saved') :
    Does w start (if MatchResult.sometimes.holds (!u.isFailed) then B else D) pos saved cs r saved' := by
  rw [hu]; exact h

/-- What an act can match with is no failure. -/
theorem does_ok (h : Does w start A pos saved cs (.found v stop) saved') : v.isFailed = false := by
  obtain ⟨_, _, _, hend⟩ := h { ParseState.start w.text w.source false with pos, saved } ⟨rfl, rfl⟩ rfl rfl
  exact hend.result.2.2

theorem does_silently (h : ∀ n : Nat → Nat, Does w start
      (A.bind fun v => .after (fun st => { st with silent := n st.silent }) (X v)) pos saved cs r saved') :
    Does w start (.silently A X) pos saved cs r saved' := by
  intro st has hpos hsaved
  exact h (· - 1) { st with silent := st.silent + 1 } (has.silence _) hpos hsaved

theorem does_after {n : Nat → Nat} (h : Does w start A pos saved cs r saved') :
    Does w start (.after (fun st => { st with silent := n st.silent }) A) pos saved cs r saved' :=
  fun st has hpos hsaved => h { st with silent := n st.silent } (has.silence _) hpos hsaved

/-- A name for error messages makes no difference. -/
theorem does_named (h : Does w pos A pos saved cs r saved') (name : String) :
    Does w pos (.named .sometimes name A) pos saved cs r saved' := by
  rw [← List.append_nil cs]
  cases r with
  | found v stop =>
    exact does_silently fun n => does_found h fun hu => does_after (does_if hu (does_pure ⟨rfl, rfl, hu⟩))
  | failed => exact does_silently fun n => does_failed h (does_after does_failing)

end Operators

/-! ## Host code -/

section Calls

variable (hf : c.function = w.bindings.function) {code : HostCode} {ls : Labels} {v : Value} {pos saved : Nat}

include hf

theorem does_withBounds {min : Option Boundary} {max : Boundary} {A : Nat → Option Nat → Act HostFunction}
    {start least saved' : Nat} {most : Option Nat} {cs₁ cs₂ : List Call} {r : Result Value}
    (hb : Bounds w ls pos saved min max cs₁ least most) (h : Does w start (A least most) pos saved cs₂ r saved') :
    Does w start (c.withBounds ls min max A) pos saved (cs₁ ++ cs₂) r saved' := by
  intro st has hpos hsaved
  obtain ⟨v, st', hA, hend⟩ := h st has hpos hsaved
  subst hpos hsaved
  exact ⟨v, st', (withBounds_iff hf has).2 ⟨cs₁, least, most, cs₂, hb, hA, rfl⟩, hend⟩

theorem does_predicate {negative : Bool} {r : Result Value} (hv : w.answer? code ls pos pos = some v)
    (hr : r.Is pos (if v.truthy = negative then .failed else .null) pos) :
    Does w pos (c.predicate code negative ls) pos saved [w.call .predicate code ls pos pos] r pos := by
  rintro st has rfl rfl
  exact ⟨_, _, (predicate_iff hf has).2 ⟨v, hv, rfl, rfl, rfl⟩, has.save _, rfl, hr⟩

theorem does_action {start : Nat} (hbs : w.bindings.NeverFail) (hv : w.answer? code ls start pos = some v) :
    Does w start (c.action start code ls) pos saved [w.call .action code ls start pos] (.found v pos) start := by
  rintro st has rfl rfl
  exact ⟨v, _, (action_iff hf has).2 ⟨hv, rfl, rfl⟩, has.save _, rfl, rfl, rfl, answer_ok hbs hv⟩

end Calls

/-! ## Terminals -/

section Terminals

variable {e : Expr} {ls : Labels} {t : List Char → Option (List Char)} {pos saved : Nat}

theorem does_accepted (ht : terminal? e = some t) {text : List Char} (h : t (w.input.rest pos) = some text) :
    Does w pos (c.unpruned.meaning R e ls) pos saved []
      (.found (.str (String.ofList text)) (pos + Input.byteLength text)) saved := by
  rintro st has rfl rfl
  have takes : Takes t (expectation? e) (c.unpruned.meaning R e ls) st := takes_terminal has.input ht
  unfold Takes at takes
  rw [has.rest, h] at takes
  exact ⟨_, _, (takes _ _ _).2 ⟨rfl, rfl, rfl⟩, has.move _, rfl, rfl, rfl, rfl⟩

theorem does_rejected (ht : terminal? e = some t) (h : t (w.input.rest pos) = none) :
    Does w pos (c.unpruned.meaning R e ls) pos saved [] .failed saved := by
  rintro st has rfl rfl
  have takes : Takes t (expectation? e) (c.unpruned.meaning R e ls) st := takes_terminal has.input ht
  unfold Takes at takes
  rw [has.rest, h] at takes
  obtain ⟨x, -, takes⟩ := takes
  exact ⟨_, _, (takes _ _ _).2 ⟨rfl, rfl, rfl⟩, endsAs_fail has x⟩

end Terminals

/-! ## Sequences -/

/-- Elements of a sequence do what is told: if they match, what is left to do is to finish the sequence. -/
def DoesAll (w : World) (c : Setting) (R : RuleId → Act HostFunction) (es : List Expr) (ls : Labels) (pos saved : Nat)
    (cs : List Call) (r : Result (List Value)) (saved' : Nat) : Prop :=
  ∀ action start values picked, match r with
    | .found vs stop => (∀ v ∈ vs, v.isFailed = false) ∧ ∀ cs₂ r' saved₂,
      Does w start (c.unpruned.finish action start (ls.afterAll es vs) (values ++ vs) (picked ++ pickedOf es vs))
        stop saved' cs₂ r' saved₂ →
      Does w start (c.unpruned.meaningElements R action start es ls values picked) pos saved (cs ++ cs₂) r' saved₂
    | .failed => Does w start (c.unpruned.meaningElements R action start es ls values picked) pos saved cs .failed saved'

/-! ## Repetitions -/

/-- An item after `n` others. -/
def itemAct (c : Setting) (R : RuleId → Act HostFunction) (body : Expr) (delimiter : Option Expr) (ls : Labels) :
    (n : Nat) → Act HostFunction
  | 0 => c.unpruned.meaning R body ls
  | _ + 1 =>
    match delimiter with
    | none => c.unpruned.meaning R body ls
    | some d => .delimited .sometimes .sometimes (c.unpruned.meaning R d ls) (c.unpruned.meaning R body ls)

/-- The rounds of a repetition from an item on, after others. -/
def rounds (c : Setting) (R : RuleId → Act HostFunction) (body : Expr) (delimiter : Option Expr) (most : Option Nat)
    (ls : Labels) (acc : List Value) : Act HostFunction :=
  (Act.unlessFull most acc.length (itemAct c R body delimiter ls acc.length)).bind
    (Act.Collects (fun n => Act.unlessFull most n (itemAct c R body delimiter ls 1)) acc)

/-- Items of a repetition are collected as told. -/
def DoesItems (w : World) (c : Setting) (R : RuleId → Act HostFunction) (body : Expr) (delimiter : Option Expr)
    (most : Option Nat) (ls : Labels) (n pos saved : Nat) (cs : List Call) (vs : List Value) (stop saved' : Nat) : Prop :=
  ∀ start (acc : List Value), acc.length = n →
    Does w start (rounds c R body delimiter most ls acc) pos saved cs (.found (.array (acc ++ vs)) stop) saved'

section Rounds

variable {body d : Expr} {delimiter : Option Expr} {most : Option Nat} {ls : Labels} {pos saved saved₁ saved' : Nat}
  {cs cs₁ cs₂ : List Call} {r : Result Value} {u v : Value} {n pos₁ stop : Nat} {vs : List Value}

theorem does_alone (hn : n = 0 ∨ delimiter = none) (h : Does w pos (c.unpruned.meaning R body ls) pos saved cs r saved') :
    Does w pos (itemAct c R body delimiter ls n) pos saved cs r saved' := by
  cases n with
  | zero => exact h
  | succ n =>
    obtain rfl := hn.resolve_left (Nat.succ_ne_zero n)
    exact h

theorem does_full (hm : most.any (· ≤ n) = true) : DoesItems w c R body delimiter most ls n pos saved [] [] pos saved := by
  rintro start acc rfl
  rw [List.append_nil]
  unfold rounds Act.unlessFull
  rw [hm]
  have none : Does w pos (.pure .failed) pos saved [] .failed saved := does_pure ⟨rfl, rfl⟩
  exact does_failed none fun st has hpos hsaved => ⟨_, st, .done rfl, has, hsaved, rfl, hpos, rfl⟩

theorem does_last (hm : most.any (· ≤ n) = false) (h : Does w pos (itemAct c R body delimiter ls n) pos saved cs .failed saved') :
    DoesItems w c R body delimiter most ls n pos saved cs [] pos saved' := by
  rintro start acc rfl
  rw [List.append_nil, ← List.append_nil cs]
  unfold rounds Act.unlessFull
  rw [hm]
  exact does_failed h fun st has hpos hsaved => ⟨_, st, .done rfl, has, hsaved, rfl, hpos, rfl⟩

/-- An item joins those before it, and others follow. -/
theorem does_collects (hv : v.isFailed = false)
    (rest : DoesItems w c R body delimiter most ls (n + 1) pos saved cs vs stop saved') {start : Nat} {acc : List Value}
    (hn : acc.length = n) :
    Does w start (Act.Collects (fun n => Act.unlessFull most n (itemAct c R body delimiter ls 1)) acc v) pos saved cs
      (.found (.array (acc ++ v :: vs)) stop) saved' := by
  intro st has hpos hsaved
  obtain ⟨u, st', ⟨cs₁, x, st₁, cs₂, hx, hrest, rfl⟩, hend⟩ :=
    rest start (acc ++ [v]) (by rw [List.length_append, hn]; rfl) st has hpos hsaved
  rw [List.append_assoc] at hend
  rw [List.length_append] at hx
  exact ⟨u, st', .more hv hx hrest, hend⟩

theorem does_more (hm : most.any (· ≤ n) = false)
    (h : Does w pos (itemAct c R body delimiter ls n) pos saved cs₁ (.found v pos₁) saved₁)
    (rest : DoesItems w c R body delimiter most ls (n + 1) pos₁ saved₁ cs₂ vs stop saved') :
    DoesItems w c R body delimiter most ls n pos saved (cs₁ ++ cs₂) (v :: vs) stop saved' := by
  rintro start acc rfl
  unfold rounds
  have turn : Does w pos (.unlessFull most acc.length (itemAct c R body delimiter ls acc.length)) pos saved cs₁
      (.found v pos₁) saved₁ := by
    unfold Act.unlessFull
    rw [hm]
    exact h
  exact does_found turn fun hv => does_collects hv rest rfl

theorem does_delimited (hd : Does w pos (c.unpruned.meaning R d ls) pos saved cs₁ (.found u pos₁) saved₁)
    (h : Does w pos₁ (c.unpruned.meaning R body ls) pos₁ saved₁ cs₂ r saved') :
    Does w pos (.delimited .sometimes .sometimes (c.unpruned.meaning R d ls) (c.unpruned.meaning R body ls)) pos saved
      (cs₁ ++ cs₂) r saved' := by
  unfold Act.delimited
  refine does_read fun st _ hpos => does_found hd fun hu => does_if hu ?_
  rw [← List.append_nil cs₂]
  cases r with
  | found v stop => exact does_found h fun hv => does_if hv (does_pure ⟨rfl, rfl, hv⟩)
  | failed => exact does_failed h (does_backTo ⟨rfl, hpos⟩)

theorem does_noDelimiter (hd : Does w pos (c.unpruned.meaning R d ls) pos saved cs .failed saved') :
    Does w pos (.delimited .sometimes .sometimes (c.unpruned.meaning R d ls) (c.unpruned.meaning R body ls)) pos saved cs
      .failed saved' := by
  unfold Act.delimited
  rw [← List.append_nil cs]
  exact does_read fun st _ _ => does_failed hd (does_pure ⟨rfl, rfl⟩)

/-- Whatever is collected stands after what was there. -/
theorem collects_append {item : Nat → Act HostFunction} {acc : List Value} {st st' : ParseState}
    (h : Act.Collects item acc v st cs u st') : ∃ ws, u = .array (acc ++ ws) := by
  induction h with
  | done _ => exact ⟨[], by rw [List.append_nil]⟩
  | more _ _ _ ih =>
    obtain ⟨ws, rfl⟩ := ih
    exact ⟨_, by rw [List.append_assoc]⟩

theorem stop_eq (h : Items w body delimiter most ls n pos saved cs vs stop saved') (hv : vs = []) : stop = pos := by
  cases h with
  | full => rfl
  | last => rfl
  | more => cases hv

/-- A repetition of at least one item. -/
theorem does_oneOrMore (h : DoesItems w c R body none none ls 0 pos saved cs vs stop saved') (hstop : vs = [] → stop = pos) :
    Does w pos (.oneOrMore .sometimes (c.unpruned.meaning R body ls)) pos saved cs
      (if vs = [] then .failed else .found (.array vs) stop) saved' := by
  intro st has hpos hsaved
  obtain ⟨u, st', ⟨cs₁, x, st₁, cs₂, hx, hrest, rfl⟩, has', hs, hu, hq, -⟩ := h pos [] rfl st has hpos hsaved
  cases hxf : x.isFailed with
  | true =>
    cases hrest with
    | more hv => rw [hxf] at hv; cases hv
    | done _ =>
      cases hu
      refine ⟨.failed, _, ⟨cs₁, x, _, [], hx, ?_, rfl⟩, has', hs, rfl, hq.trans (hstop rfl)⟩
      show (if MatchResult.sometimes.holds (!x.isFailed) then _ else _ : Act HostFunction) _ _ _ _
      rw [hxf]
      exact ⟨rfl, rfl, rfl⟩
  | false =>
    have hne : vs ≠ [] := by
      rintro rfl
      cases hrest with
      | done hv => rw [hxf] at hv; cases hv
      | more _ _ rest =>
        obtain ⟨ws, rfl⟩ := collects_append rest
        cases hu
    rw [if_neg hne]
    refine ⟨u, st', ⟨cs₁, x, st₁, cs₂, hx, ?_, rfl⟩, has', hs, hu, hq, rfl⟩
    show (if MatchResult.sometimes.holds (!x.isFailed) then _ else _ : Act HostFunction) _ _ _ _
    rw [hxf]
    exact hrest

/-- A repetition between bounds. -/
theorem does_counted {checked : Bool} {least : Nat} (hchecked : checked = false → least = 0)
    (h : DoesItems w c R body delimiter most ls 0 pos saved cs vs stop saved') :
    Does w pos (.counted checked least most (itemAct c R body delimiter ls 0) (itemAct c R body delimiter ls 1)) pos saved
      cs (if vs.length < least then .failed else .found (.array vs) stop) saved' := by
  intro st has hpos hsaved
  obtain ⟨u, st', ⟨cs₁, x, st₁, cs₂, hx, hrest, rfl⟩, has', hs, rfl, hq, -⟩ := h pos [] rfl st has hpos hsaved
  by_cases hlen : vs.length < least
  · rw [if_pos hlen]
    have few : (checked && decide ((Value.array vs).size < least)) = true := by
      cases checked with
      | true => exact decide_eq_true hlen
      | false => rw [hchecked rfl] at hlen; omega
    refine ⟨.failed, _, ⟨cs₁, x, st₁, cs₂, hx, ⟨cs₂, _, st', [], hrest, ?_, (List.append_nil _).symm⟩, rfl⟩,
      has'.move st.pos, hs, rfl, hpos⟩
    show (if (checked && decide ((Value.array vs).size < least)) = true then _ else _ : Act HostFunction) st' [] _ _
    rw [few]
    exact ⟨rfl, rfl, rfl⟩
  · rw [if_neg hlen]
    have enough : (checked && decide ((Value.array vs).size < least)) = false := by
      rw [show decide ((Value.array vs).size < least) = false from decide_eq_false hlen, Bool.and_false]
    refine ⟨.array vs, st', ⟨cs₁, x, st₁, cs₂, hx, ⟨cs₂, _, st', [], hrest, ?_, (List.append_nil _).symm⟩, rfl⟩,
      has', hs, rfl, hq, rfl⟩
    show (if (checked && decide ((Value.array vs).size < least)) = true then _ else _ : Act HostFunction) st' [] _ _
    rw [enough]
    exact ⟨rfl, rfl, rfl⟩

theorem meaning_repeated (i : Expr.Info) (min : Option Boundary) (max : Boundary) :
    c.unpruned.meaning R (.repeated i body min max delimiter) ls = c.unpruned.withBounds ls min max fun least most =>
      .counted (Code.needsLeast min max) least most (itemAct c R body delimiter ls 0) (itemAct c R body delimiter ls 1) := by
  cases delimiter <;> (unfold Setting.meaning; rfl)

end Rounds

/-! ## Evaluations -/

/-- The setting and what rules do fit the world. -/
structure Fits (w : World) (c : Setting) (R : RuleId → Act HostFunction) : Prop where
  function : c.function = w.bindings.function
  neverFail : w.bindings.NeverFail
  /-- Rules do what their bodies do. -/
  rules : ∀ t rule, w.grammar.live? t = some rule → ∀ pos saved cs r saved',
    Does w pos (c.unpruned.meaning R rule.body []) pos saved cs r saved' → Does w pos (R t) pos saved cs r saved'

mutual

theorem does_eval (fit : Fits w c R) {e : Expr} {ls : Labels} {pos saved saved' : Nat} {cs : List Call} {r : Result Value} :
    Eval w e ls pos saved cs r saved' → Does w pos (c.unpruned.meaning R e ls) pos saved cs r saved'
  | .first h => by
    unfold Setting.meaning
    rw [← List.append_nil cs]
    refine does_found (does_eval fit h) fun hv => ?_
    unfold Setting.meaningOthers
    split
    · exact does_pure ⟨rfl, rfl, hv⟩
    · exact does_if hv (does_pure ⟨rfl, rfl, hv⟩)
  | .others h rest => by
    unfold Setting.meaning
    -- what is left is the choice without its first alternative
    refine does_failed (does_eval fit h) ?_
    have later := does_eval fit rest
    unfold Setting.meaning at later
    exact later
  | .noneLeft h => by
    unfold Setting.meaning
    rw [← List.append_nil cs]
    exact does_failed (does_eval fit h) (does_pure ⟨rfl, rfl⟩)
  | .sequence h => by
    unfold Setting.meaning
    refine does_read fun st _ hpos => ?_
    -- the elements leave the finish to do, which gives their values
    obtain ⟨hok, hvs⟩ := does_all fit h none st.pos [] []
    rw [hpos] at hvs ⊢
    rw [← List.append_nil cs]
    refine hvs _ _ _ fun st has hpos hsaved => ?_
    exact ⟨_, st, (finish_none_iff _ _).2 ⟨rfl, rfl, rfl⟩, has, hsaved, rfl, hpos, sequenceValue_ok hok⟩
  | .sequenceFails h => by
    unfold Setting.meaning
    refine does_read fun st _ hpos => ?_
    rw [hpos]
    exact does_all fit h none pos [] []
  | .labeled h => by
    unfold Setting.meaning
    exact does_eval fit h
  | .actionOnAll h hp hv => by
    unfold Setting.meaning
    refine does_read fun st _ hpos => ?_
    obtain ⟨-, hvs⟩ := does_all fit h (some _) st.pos [] []
    rw [hpos] at hvs ⊢
    refine hvs _ _ _ fun st has hpos hsaved => ?_
    subst hpos
    exact ⟨_, _, (finish_some_iff fit.function has).2 (.inl ⟨hp, hv, rfl, rfl⟩), has.save _, rfl, rfl, rfl, answer_ok fit.neverFail hv⟩
  | .actionPicks h hp => by
    unfold Setting.meaning
    refine does_read fun st _ hpos => ?_
    obtain ⟨hok, hvs⟩ := does_all fit h (some _) st.pos [] []
    rw [hpos] at hvs ⊢
    rw [← List.append_nil cs]
    refine hvs _ _ _ fun st has hpos hsaved => ?_
    exact ⟨_, _, (finish_some_iff fit.function has).2 (.inr ⟨hp, rfl, rfl, rfl⟩), has, hsaved, rfl, hpos, sequenceValue_ok hok⟩
  | .actionOnAllFails h => by
    unfold Setting.meaning
    refine does_read fun st _ hpos => ?_
    rw [hpos]
    exact does_all fit h (some _) pos [] []
  | .action hb h hv => by
    rw [Setting.meaning]
    · refine does_read fun st _ hpos => does_found (does_eval fit h) fun hu => does_if hu ?_
      rw [hpos]
      exact does_action fit.function fit.neverFail hv
    · exact hb
  | .actionFails hb h => by
    rw [Setting.meaning, ← List.append_nil cs]
    · exact does_read fun st _ _ => does_failed (does_eval fit h) (does_pure ⟨rfl, rfl⟩)
    · exact hb
  | .text h => by
    unfold Setting.meaning
    rw [← List.append_nil cs]
    refine does_read fun st _ hpos => does_found (does_eval fit h) fun hu => does_if hu (does_read fun st' has hpos' => ?_)
    refine does_pure ⟨?_, rfl, rfl⟩
    rw [ParseState.text, has.input, hpos, hpos']
  | .textFails h => by
    unfold Setting.meaning
    rw [← List.append_nil cs]
    exact does_read fun st _ _ => does_failed (does_eval fit h) (does_pure ⟨rfl, rfl⟩)
  | .simpleAnd h => by
    unfold Setting.meaning
    rw [← List.append_nil cs]
    exact does_read fun st _ hpos => does_silently fun n => does_found (does_eval fit h) fun hu =>
      does_after (does_if hu (does_backTo ⟨rfl, hpos, rfl⟩))
  | .simpleAndFails h => by
    unfold Setting.meaning
    rw [← List.append_nil cs]
    exact does_read fun st _ _ => does_silently fun n => does_failed (does_eval fit h) (does_after (does_pure ⟨rfl, rfl⟩))
  | .simpleNot h => by
    unfold Setting.meaning
    rw [← List.append_nil cs]
    exact does_read fun st _ _ => does_silently fun n => does_failed (does_eval fit h) (does_after (does_pure ⟨rfl, rfl, rfl⟩))
  | .simpleNotFails h => by
    unfold Setting.meaning
    rw [← List.append_nil cs]
    exact does_read fun st _ hpos => does_silently fun n => does_found (does_eval fit h) fun hu =>
      does_after (does_if hu (does_backTo ⟨rfl, hpos⟩))
  | .semanticAnd hv => by
    unfold Setting.meaning
    exact does_predicate fit.function hv (and_is _)
  | .semanticNot hv => by
    unfold Setting.meaning
    exact does_predicate fit.function hv (not_is _)
  | .optional h => by
    unfold Setting.meaning
    rw [← List.append_nil cs]
    exact does_found (does_eval fit h) fun hu => does_if hu (does_pure ⟨rfl, rfl, hu⟩)
  | .absent h => by
    unfold Setting.meaning
    rw [← List.append_nil cs]
    exact does_failed (does_eval fit h) (does_pure ⟨rfl, rfl, rfl⟩)
  | .zeroOrMore h => by
    unfold Setting.meaning
    exact does_items fit h pos [] rfl
  | .oneOrMore h hv => by
    unfold Setting.meaning
    -- without an item the loop has not moved, and the repetition fails where it began
    have items := does_oneOrMore (does_items fit h) (stop_eq h)
    rw [if_neg hv] at items
    exact items
  | .oneOrMoreFails h => by
    unfold Setting.meaning
    have items := does_oneOrMore (does_items fit h) (stop_eq h)
    rw [if_pos rfl] at items
    exact items
  | .repeated hb h hv => by
    rw [meaning_repeated]
    have counted := does_counted (least_eq_zero hb) (does_items fit h)
    rw [if_neg (Nat.not_lt.2 hv)] at counted
    exact does_withBounds (c := c.unpruned) fit.function hb counted
  | .repeatedFails hb h hv => by
    rw [meaning_repeated]
    have counted := does_counted (least_eq_zero hb) (does_items fit h)
    rw [if_pos hv] at counted
    exact does_withBounds (c := c.unpruned) fit.function hb counted
  | .group h => by
    unfold Setting.meaning
    exact does_eval fit h
  | .ruleRef hr h => by
    unfold Setting.meaning
    exact fit.rules _ _ hr _ _ _ _ _ (does_eval fit h)
  | .accepted ht h => does_accepted ht h
  | .rejected ht h => does_rejected ht h
  | .named h => by
    unfold Setting.meaning
    exact does_named (does_eval fit h) _

theorem does_all (fit : Fits w c R) {es : List Expr} {ls : Labels} {pos saved saved' : Nat} {cs : List Call} {r : Result (List Value)} :
    EvalAll w es ls pos saved cs r saved' → DoesAll w c R es ls pos saved cs r saved'
  | .nil => by
    intro action start values picked
    refine ⟨List.forall_mem_nil _, fun cs₂ r' saved₂ h => ?_⟩
    have h : Does w start (c.unpruned.finish action start ls (values ++ []) (picked ++ [])) pos saved cs₂ r' saved₂ := h
    rw [List.append_nil, List.append_nil] at h
    unfold Setting.meaningElements
    exact h
  | .cons h rest => by
    intro action start values picked
    have first := does_eval fit h
    obtain ⟨hok, -⟩ := does_all fit rest action start values picked
    refine ⟨List.forall_mem_cons.2 ⟨does_ok first, hok⟩, fun cs₂ r' saved₂ hfinish => ?_⟩
    unfold Setting.meaningElements
    rw [List.append_assoc]
    -- the value joins those before it, and the other elements go on from there
    refine does_found first fun hu => does_if hu ?_
    refine (does_all fit rest action start _ _).2 cs₂ r' saved₂ ?_
    rw [List.append_assoc, pickedAfter_eq, List.append_assoc]
    exact hfinish
  | .here h => by
    intro action start values picked
    show Does _ _ _ _ _ _ _ _
    unfold Setting.meaningElements
    rw [← List.append_nil cs]
    exact does_failed (does_eval fit h) (does_backTo ⟨rfl, rfl⟩)
  | .later h rest => by
    intro action start values picked
    show Does _ _ _ _ _ _ _ _
    unfold Setting.meaningElements
    exact does_found (does_eval fit h) fun hu => does_if hu (does_all fit rest action start _ _)

theorem does_item (fit : Fits w c R) {body : Expr} {delimiter : Option Expr} {ls : Labels} {n pos saved saved' : Nat} {cs : List Call}
    {r : Result Value} : Item w body delimiter ls n pos saved cs r saved' →
      Does w pos (itemAct c R body delimiter ls n) pos saved cs r saved'
  | .alone hn h => does_alone hn (does_eval fit h)
  | .delimited hd h => does_delimited (does_eval fit hd) (does_eval fit h)
  | .noDelimiter hd => does_noDelimiter (does_eval fit hd)

theorem does_items (fit : Fits w c R) {body : Expr} {delimiter : Option Expr} {most : Option Nat} {ls : Labels}
    {n pos saved stop saved' : Nat} {cs : List Call} {vs : List Value} :
    Items w body delimiter most ls n pos saved cs vs stop saved' →
      DoesItems w c R body delimiter most ls n pos saved cs vs stop saved'
  | .full hm => does_full hm
  | .last hm h => does_last hm (does_item fit h)
  | .more hm h rest => does_more hm (does_item fit h) (does_items fit rest)

end

end PegCompiler.Semantics
