/-
Whatever expressions do as acts, the semantics tells of. The induction is on the expression, for acts that
prune nothing and for rules of which this is so already; repetitions and sequences have inductions of their
own, on their rounds and their elements.
-/
import PegCompiler.Proofs.Semantics.Acts

namespace PegCompiler.Semantics

open Machine

variable {w : World} {c : Setting} {R : RuleId → Act HostFunction} {ls : Labels} {st st' : ParseState}
  {cs : List Call} {v : Value}

theorem Sound.mono {A : Act HostFunction} {S S' : Told} (h : Sound w A S)
    (hS : ∀ pos saved cs r saved', S pos saved cs r saved' → S' pos saved cs r saved') : Sound w A S' := by
  intro st has cs v st' hA
  obtain ⟨r, saved', hr, hend⟩ := h st has cs v st' hA
  exact ⟨r, saved', hS _ _ _ _ _ hr, hend⟩

/-! ## One act after another -/

/-- How an act went on after one that is told of: from the match there was, or from the failure. -/
inductive GoesOn (w : World) (S : Told) (next : Value → Act HostFunction) (st : ParseState) :
    List Call → Value → ParseState → Prop
  | found {cs cs' : List Call} {u v : Value} {st₁ st' : ParseState}
      (told : S st.pos st.saved cs (.found u st₁.pos) st₁.saved) (has : w.Has st₁) (hu : u.isFailed = false)
      (rest : next u st₁ cs' v st') : GoesOn w S next st (cs ++ cs') v st'
  | failed {cs cs' : List Call} {v : Value} {st₁ st' : ParseState}
      (told : S st.pos st.saved cs .failed st₁.saved) (has : w.Has st₁) (hpos : st₁.pos = st.pos)
      (rest : next .failed st₁ cs' v st') : GoesOn w S next st (cs ++ cs') v st'

theorem Sound.goesOn {A : Act HostFunction} {S : Told} {next : Value → Act HostFunction} (h : Sound w A S) (has : w.Has st)
    (hnext : (A.bind next) st cs v st') : GoesOn w S next st cs v st' := by
  obtain ⟨cs₁, x, st₁, cs₂, hA, rest, rfl⟩ := hnext
  obtain ⟨r, s₁, told, has₁, rfl, hend⟩ := h st has _ _ _ hA
  cases r with
  | found u q =>
    obtain ⟨rfl, rfl, hu⟩ := hend
    exact .found told has₁ hu rest
  | failed =>
    obtain ⟨rfl, hpos⟩ := hend
    exact .failed told has₁ hpos rest

/-- What was silenced meanwhile is not told of. -/
theorem Sound.goesOn_silently {A : Act HostFunction} {S : Told} {next : Value → Act HostFunction} (h : Sound w A S)
    (has : w.Has st) (hnext : (Act.silently A next) st cs v st') : GoesOn w S next st cs v st' := by
  cases h.goesOn (has.silence (st.silent + 1)) hnext with
  | @found _ _ _ _ st₁ _ told has₁ hu rest =>
    have loud : w.Has { st₁ with silent := st₁.silent - 1 } := has₁.silence _
    refine .found ?_ loud hu rest
    exact told
  | @failed _ _ _ st₁ _ told has₁ hpos rest =>
    have loud : w.Has { st₁ with silent := st₁.silent - 1 } := has₁.silence _
    refine .failed ?_ loud hpos rest
    exact told

/-! ## Terminals -/

/-- What a terminal takes is what the semantics says. -/
theorem sound_terminal {e : Expr} {t : List Char → Option (List Char)} (ht : terminal? e = some t) :
    Sound w (c.unpruned.meaning R e ls) (Eval w e ls) := by
  intro st has cs v st' h
  have takes : Takes t (expectation? e) (c.unpruned.meaning R e ls) st := takes_terminal has.input ht
  unfold Takes at takes
  rw [has.rest] at takes
  cases hr : t (w.input.rest st.pos) with
  | none =>
    rw [hr] at takes
    obtain ⟨x, -, takes⟩ := takes
    obtain ⟨rfl, rfl, rfl⟩ := (takes cs v st').1 h
    exact ⟨.failed, _, .rejected ht hr, endsAs_fail has x⟩
  | some text =>
    rw [hr] at takes
    obtain ⟨rfl, rfl, rfl⟩ := (takes cs v st').1 h
    exact ⟨_, _, .accepted ht hr, has.move _, rfl, rfl, rfl, rfl⟩

/-! ## Repetitions -/

theorem sound_alone {A : Act HostFunction} {body : Expr} {delimiter : Option Expr} {n : Nat}
    (hn : n = 0 ∨ delimiter = none) (h : Sound w A (Eval w body ls)) : Sound w A (Item w body delimiter ls n) :=
  h.mono fun _ _ _ _ _ => .alone hn

section Repetitions

variable {A B : Act HostFunction} {body d : Expr} {delimiter : Option Expr} {most : Option Nat}

theorem sound_delimited {n : Nat} (hd : Sound w B (Eval w d ls)) (h : Sound w A (Eval w body ls)) :
    Sound w (.delimited .sometimes .sometimes B A) (Item w body (some d) ls (n + 1)) := by
  intro st has cs v st' hdelimited
  cases hd.goesOn has hdelimited with
  | failed hr has₁ hpos rest =>
    obtain ⟨rfl, rfl, rfl⟩ := rest
    rw [List.append_nil]
    exact ⟨.failed, _, .noDelimiter hr, has₁, rfl, rfl, hpos⟩
  | found hr has₁ hu rest =>
    rw [hu] at rest
    cases h.goesOn has₁ rest with
    | failed hr' has₂ _ rest =>
      obtain ⟨rfl, rfl, rfl⟩ := rest
      rw [List.append_nil]
      exact ⟨.failed, _, .delimited hr hr', has₂.move _, rfl, rfl, rfl⟩
    | found hr' has₂ hx rest =>
      rw [hx] at rest
      obtain ⟨rfl, rfl, rfl⟩ := rest
      rw [List.append_nil]
      exact ⟨.found _ _, _, .delimited hr hr', has₂, rfl, rfl, rfl, hx⟩

/-- Where the attempt at an item after `n` others has ended with a value, `vs` are the items from it on. -/
def ItemsFrom (w : World) (body : Expr) (delimiter : Option Expr) (most : Option Nat) (ls : Labels) (n : Nat)
    (v : Value) (st : ParseState) (cs : List Call) (vs : List Value) (st' : ParseState) : Prop :=
  v.isFailed = true ∧ vs = [] ∧ cs = [] ∧ st' = st ∨ v.isFailed = false ∧ ∃ vs', vs = v :: vs' ∧
    Items w body delimiter most ls (n + 1) st.pos st.saved cs vs' st'.pos st'.saved

theorem sound_turn {n : Nat} (h : Sound w A (Item w body delimiter ls n)) (has : w.Has st) {cs₁ : List Call}
    {st₁ : ParseState} (ht : Act.unlessFull most n A st cs₁ v st₁) : w.Has st₁ ∧ ∀ cs₂ vs st',
      ItemsFrom w body delimiter most ls n v st₁ cs₂ vs st' →
        Items w body delimiter most ls n st.pos st.saved (cs₁ ++ cs₂) vs st'.pos st'.saved := by
  unfold Act.unlessFull at ht
  cases hm : most.any (· ≤ n) with
  | true =>
    rw [hm] at ht
    obtain ⟨rfl, rfl, rfl⟩ := ht
    refine ⟨has, ?_⟩
    rintro cs₂ vs st' (⟨-, rfl, rfl, rfl⟩ | ⟨hv, -⟩)
    · exact .full hm
    · cases hv
  | false =>
    rw [hm] at ht
    obtain ⟨r, s₁, hr, has₁, rfl, hend⟩ := h st has _ _ _ ht
    refine ⟨has₁, ?_⟩
    cases r with
    | failed =>
      obtain ⟨rfl, hpos⟩ := hend
      rintro cs₂ vs st' (⟨-, rfl, rfl, rfl⟩ | ⟨hv, -⟩)
      · rw [List.append_nil, hpos]
        exact .last hm hr
      · cases hv
    | found a q =>
      obtain ⟨rfl, rfl, hok⟩ := hend
      rintro cs₂ vs st' (⟨hv, -⟩ | ⟨-, vs', rfl, hvs⟩)
      · rw [hok] at hv; cases hv
      · exact .more hm hr hvs

/-- The rounds of a repetition. -/
theorem sound_rounds (hitem : ∀ n, Sound w A (Item w body delimiter ls (n + 1))) {acc : List Value} {u : Value}
    (has : w.Has st) (h : Act.Collects (fun n => Act.unlessFull most n A) acc v st cs u st') :
    w.Has st' ∧ ∃ vs, u = .array (acc ++ vs) ∧ ItemsFrom w body delimiter most ls acc.length v st cs vs st' := by
  induction h with
  | done hv => exact ⟨has, [], by rw [List.append_nil], .inl ⟨hv, rfl, rfl, rfl⟩⟩
  | @more acc v x u st st₁ st' cs₁ cs₂ hv h _ ih =>
    obtain ⟨has₁, turn⟩ := sound_turn (hitem _) has h
    obtain ⟨has', vs, rfl, follow⟩ := ih has₁
    rw [List.length_append] at follow
    exact ⟨has', v :: vs, by rw [List.append_assoc]; rfl, .inr ⟨hv, vs, rfl, turn _ _ _ follow⟩⟩

/-- The items of a repetition. -/
theorem sound_items {first : Act HostFunction} (hfirst : Sound w first (Item w body delimiter ls 0))
    (hitem : ∀ n, Sound w A (Item w body delimiter ls (n + 1))) {u : Value} (has : w.Has st)
    (h : ((Act.unlessFull most 0 first).bind (Act.Collects (fun n => Act.unlessFull most n A) [])) st cs u st') :
    w.Has st' ∧ ∃ vs, u = .array vs ∧ Items w body delimiter most ls 0 st.pos st.saved cs vs st'.pos st'.saved := by
  obtain ⟨cs₁, x, st₁, cs₂, h, hrest, rfl⟩ := h
  obtain ⟨has₁, turn⟩ := sound_turn hfirst has h
  obtain ⟨has', vs, rfl, follow⟩ := sound_rounds hitem has₁ hrest
  exact ⟨has', vs, rfl, turn _ _ _ follow⟩

/-- A repetition between bounds. -/
theorem sound_counted {first : Act HostFunction} (hfirst : Sound w first (Item w body delimiter ls 0))
    (hitem : ∀ n, Sound w A (Item w body delimiter ls (n + 1))) {checked : Bool} {least : Nat}
    (hchecked : checked = false → least = 0) {i : Expr.Info} {min : Option Boundary} {max : Boundary}
    {cs₀ : List Call} (has : w.Has st) (hb : Bounds w ls st.pos st.saved min max cs₀ least most)
    (h : Act.counted checked least most first A st cs v st') : ∃ r saved',
      Eval w (.repeated i body min max delimiter) ls st.pos st.saved (cs₀ ++ cs) r saved' ∧
        EndsAs w st.pos r saved' v st' := by
  obtain ⟨cs₁, x, st₁, cs₂, hfirst', ⟨cs₃, items, st₂, cs₄, hrounds, hrest, rfl⟩, rfl⟩ := h
  obtain ⟨has₂, vs, rfl, hvs⟩ := sound_items hfirst hitem has ⟨cs₁, x, st₁, cs₃, hfirst', hrounds, rfl⟩
  by_cases hlen : vs.length < least
  · have : (checked && decide ((Value.array vs).size < least)) = true := by
      cases checked with
      | true => exact decide_eq_true hlen
      | false => rw [hchecked rfl] at hlen; omega
    rw [this] at hrest
    obtain ⟨rfl, rfl, rfl⟩ := hrest
    rw [List.append_nil]
    exact ⟨.failed, _, .repeatedFails hb hvs hlen, has₂.move _, rfl, rfl, rfl⟩
  · have : (checked && decide ((Value.array vs).size < least)) = false := by
      rw [show decide ((Value.array vs).size < least) = false from decide_eq_false hlen, Bool.and_false]
    rw [this] at hrest
    obtain ⟨rfl, rfl, rfl⟩ := hrest
    rw [List.append_nil]
    exact ⟨.found (.array vs) _, _, .repeated hb hvs (by omega), has₂, rfl, rfl, rfl, rfl⟩

end Repetitions

/-! ## Sequences -/

/-- The elements of a sequence: they end as told, and if they match what is left to do is to finish. -/
theorem sound_elements {action : Option HostCode} {start : Nat} {es : List Expr}
    (ih : ∀ e ∈ es, ∀ ls, Sound w (c.unpruned.meaning R e ls) (Eval w e ls)) {values picked : List Value}
    (has : w.Has st) (h : c.unpruned.meaningElements R action start es ls values picked st cs v st') :
    (∃ cs₁ vs st₁ cs₂, EvalAll w es ls st.pos st.saved cs₁ (.found vs st₁.pos) st₁.saved ∧ w.Has st₁ ∧
      (∀ v ∈ vs, v.isFailed = false) ∧ cs = cs₁ ++ cs₂ ∧
      c.unpruned.finish action start (ls.afterAll es vs) (values ++ vs) (picked ++ pickedOf es vs) st₁ cs₂ v st') ∨
    EvalAll w es ls st.pos st.saved cs .failed st'.saved ∧ w.Has st' ∧ v = .failed ∧ st'.pos = start := by
  induction es generalizing ls values picked st cs with
  | nil =>
    refine .inl ⟨[], [], st, cs, .nil, has, List.forall_mem_nil _, rfl, ?_⟩
    show c.unpruned.finish action start ls (values ++ []) (picked ++ []) st cs v st'
    rw [List.append_nil, List.append_nil]
    exact h
  | cons e es ihs =>
    unfold Setting.meaningElements at h
    cases (ih e List.mem_cons_self ls).goesOn has h with
    | failed hr has₁ _ rest =>
      obtain ⟨rfl, rfl, rfl⟩ := rest
      rw [List.append_nil]
      exact .inr ⟨.here hr, has₁.move _, rfl, rfl⟩
    | @found cs₁ _ x _ _ _ hr has₁ hx rest =>
      rw [show (c.unpruned.matched e).holds (!x.isFailed) = true by rw [hx]; rfl, if_pos rfl] at rest
      rcases ihs (fun e' he' => ih e' (List.mem_cons_of_mem _ he')) has₁ rest with
        ⟨cs₃, vs, st₂, cs₄, hvs, has₂, hok, rfl, hfinish⟩ | ⟨hvs, has', rfl, hpos⟩
      · rw [List.append_assoc, pickedAfter_eq, List.append_assoc] at hfinish
        exact .inl ⟨cs₁ ++ cs₃, x :: vs, st₂, cs₄, .cons hr hvs, has₂, List.forall_mem_cons.2 ⟨hx, hok⟩,
          (List.append_assoc ..).symm, hfinish⟩
      · exact .inr ⟨.later hr hvs, has', rfl, hpos⟩

theorem pickedValue_eq {es : List Expr} {vs : List Value} (h : pickedOf es vs ≠ []) :
    Stack.pickedValue (pickedOf es vs) = sequenceValue es vs := by
  unfold sequenceValue Stack.pickedValue
  split
  · rename_i hp; rw [hp]
  · rename_i hp
    split
    · rename_i hp'; exact absurd hp' h
    · rename_i hp'; exact absurd hp' (hp _)
    · rfl

theorem finish_none_iff {start : Nat} (es : List Expr) (vs : List Value) :
    c.finish none start ls vs (pickedOf es vs) st cs v st' ↔ cs = [] ∧ v = sequenceValue es vs ∧ st' = st := by
  unfold Setting.finish
  cases hp : pickedOf es vs with
  | nil =>
    have : sequenceValue es vs = .array vs := by unfold sequenceValue; rw [hp]
    rw [this]
    exact Iff.rfl
  | cons p ps =>
    rw [← pickedValue_eq (hp ▸ List.cons_ne_nil p ps), hp]
    exact Iff.rfl

theorem finish_some_iff (hf : c.function = w.bindings.function) (has : w.Has st) {start : Nat} {code : HostCode}
    {es : List Expr} {vs : List Value} :
    c.finish (some code) start ls vs (pickedOf es vs) st cs v st' ↔
      (pickedOf es vs = [] ∧ w.answer? code ls start st.pos = some v ∧
        cs = [w.call .action code ls start st.pos] ∧ st' = { st with saved := start }) ∨
      (pickedOf es vs ≠ [] ∧ cs = [] ∧ v = sequenceValue es vs ∧ st' = st) := by
  unfold Setting.finish
  cases hp : pickedOf es vs with
  | nil =>
    refine (action_iff hf has).trans ⟨fun h => .inl ⟨rfl, h⟩, ?_⟩
    rintro (⟨-, h⟩ | ⟨h, -⟩)
    · exact h
    · exact absurd rfl h
  | cons p ps =>
    rw [← pickedValue_eq (hp ▸ List.cons_ne_nil p ps), hp]
    refine ⟨fun h => .inr ⟨List.cons_ne_nil p ps, h⟩, ?_⟩
    rintro (⟨h, -⟩ | ⟨-, h⟩)
    · cases h
    · exact h

/-- Host code that gives no failures answers with none. -/
theorem answer_ok (hbs : w.bindings.NeverFail) {code : HostCode} {saved pos : Nat}
    (h : w.answer? code ls saved pos = some v) : v.isFailed = false := by
  obtain ⟨f, hf, rfl⟩ := Option.map_eq_some_iff.1 h
  exact hbs _ f hf _ _

theorem sound_sequence {elements : List Expr}
    (ih : ∀ e ∈ elements, ∀ ls, Sound w (c.unpruned.meaning R e ls) (Eval w e ls)) (i : Expr.Info) :
    Sound w (c.unpruned.meaning R (.sequence i elements) ls) (Eval w (.sequence i elements) ls) := by
  intro st has cs v st' h
  unfold Setting.meaning at h
  rcases sound_elements ih has h with ⟨cs₁, vs, st₁, cs₂, hvs, has₁, hok, rfl, hfinish⟩ | ⟨hvs, has', rfl, hpos⟩
  · rw [List.nil_append, List.nil_append] at hfinish
    obtain ⟨rfl, rfl, rfl⟩ := (finish_none_iff elements vs).1 hfinish
    rw [List.append_nil]
    exact ⟨_, _, .sequence hvs, has₁, rfl, rfl, rfl, sequenceValue_ok hok⟩
  · exact ⟨_, _, .sequenceFails hvs, has', rfl, rfl, hpos⟩

section Actions

variable (hf : c.unpruned.function = w.bindings.function) (hbs : w.bindings.NeverFail)

include hf hbs

/-- An action on a sequence is called where nothing is picked from it. -/
theorem sound_actionOnAll {elements : List Expr}
    (ih : ∀ e ∈ elements, ∀ ls, Sound w (c.unpruned.meaning R e ls) (Eval w e ls)) (i j : Expr.Info) (code : HostCode) :
    Sound w (c.unpruned.meaning R (.action i (.sequence j elements) code) ls)
      (Eval w (.action i (.sequence j elements) code) ls) := by
  intro st has cs v st' h
  unfold Setting.meaning at h
  rcases sound_elements ih has h with ⟨cs₁, vs, st₁, cs₂, hvs, has₁, hok, rfl, hfinish⟩ | ⟨hvs, has', rfl, hpos⟩
  · rw [List.nil_append, List.nil_append] at hfinish
    rcases (finish_some_iff hf has₁).1 hfinish with ⟨hp, hv, rfl, rfl⟩ | ⟨hp, rfl, rfl, rfl⟩
    · exact ⟨_, _, .actionOnAll hvs hp hv, has₁.save _, rfl, rfl, rfl, answer_ok hbs hv⟩
    · rw [List.append_nil]
      exact ⟨_, _, .actionPicks hvs hp, has₁, rfl, rfl, rfl, sequenceValue_ok hok⟩
  · exact ⟨_, _, .actionOnAllFails hvs, has', rfl, rfl, hpos⟩

theorem sound_action {body : Expr} (hb : ∀ j elements, body = .sequence j elements → False)
    (ih : Sound w (c.unpruned.meaning R body ls) (Eval w body ls)) (i : Expr.Info) (code : HostCode) :
    Sound w (c.unpruned.meaning R (.action i body code) ls) (Eval w (.action i body code) ls) := by
  intro st has cs v st' h
  rw [Setting.meaning] at h
  · cases ih.goesOn has h with
    | found hr has₁ hu rest =>
      rw [hu] at rest
      obtain ⟨hv, rfl, rfl⟩ := (action_iff hf has₁).1 rest
      exact ⟨_, _, .action hb hr hv, has₁.save _, rfl, rfl, rfl, answer_ok hbs hv⟩
    | failed hr has₁ hpos rest =>
      obtain ⟨rfl, rfl, rfl⟩ := rest
      rw [List.append_nil]
      exact ⟨_, _, .actionFails hb hr, has₁, rfl, rfl, hpos⟩
  · exact hb

end Actions

/-! ## Choices and names -/

/-- The alternatives of a choice, each from the state in which the one before it failed. -/
theorem sound_choice {i : Expr.Info} {first : Expr} {others : List Expr}
    (hfirst : Sound w (c.unpruned.meaning R first ls) (Eval w first ls))
    (hothers : ∀ e ∈ others, Sound w (c.unpruned.meaning R e ls) (Eval w e ls)) :
    Sound w ((c.unpruned.meaning R first ls).bind (c.unpruned.meaningOthers R others ls .sometimes))
      (Eval w (.choice i first others) ls) := by
  induction others generalizing first with
  | nil =>
    intro st has cs v st' h
    cases hfirst.goesOn has h with
    | found hr has₁ hu rest =>
      obtain ⟨rfl, rfl, rfl⟩ := rest
      rw [List.append_nil]
      exact ⟨_, _, .first hr, has₁, rfl, rfl, rfl, hu⟩
    | failed hr has₁ hpos rest =>
      obtain ⟨rfl, rfl, rfl⟩ := rest
      rw [List.append_nil]
      exact ⟨_, _, .noneLeft hr, has₁, rfl, rfl, hpos⟩
  | cons e es ih =>
    intro st has cs v st' h
    cases hfirst.goesOn has h with
    | found hr has₁ hu rest =>
      unfold Setting.meaningOthers at rest
      rw [hu] at rest
      obtain ⟨rfl, rfl, rfl⟩ := rest
      rw [List.append_nil]
      exact ⟨_, _, .first hr, has₁, rfl, rfl, rfl, hu⟩
    | failed hr has₁ hpos rest =>
      unfold Setting.meaningOthers at rest
      obtain ⟨r, s₂, hr', hend⟩ := ih (hothers e List.mem_cons_self)
        (fun e' he => hothers e' (List.mem_cons_of_mem _ he)) _ has₁ _ _ _ rest
      rw [hpos] at hr' hend
      exact ⟨r, s₂, .others hr hr', hend⟩

/-- A name for error messages makes no difference. -/
theorem sound_named {A : Act HostFunction} {S : Told} (h : Sound w A S) (name : String) :
    Sound w (.named .sometimes name A) S := by
  intro st has cs v st' hnamed
  cases h.goesOn_silently has hnamed with
  | found hr has₁ hu rest =>
    rw [hu] at rest
    obtain ⟨rfl, rfl, rfl⟩ := rest
    rw [List.append_nil]
    exact ⟨_, _, hr, has₁, rfl, rfl, rfl, hu⟩
  | @failed cs₁ cs₂ _ st₁ _ hr has₁ hpos rest =>
    have ends := endsAs_fail has₁ (.named name)
    have rest : cs₂ = [] ∧ (Value.failed, st₁.fail (.named name)) = (v, st') := rest
    obtain ⟨rfl, e⟩ := rest
    cases e
    rw [List.append_nil]
    exact ⟨_, _, hr, ends.has, ends.saved, rfl, ends.result.2.trans hpos⟩

/-! ## Texts, lookaheads and what may be absent -/

section Operators

variable {A : Act HostFunction} {body : Expr}

theorem sound_text (h : Sound w A (Eval w body ls)) (i : Expr.Info) :
    Sound w (.text .sometimes A) (Eval w (.text i body) ls) := by
  intro st has cs v st' htext
  cases h.goesOn has htext with
  | found hr has₁ hu rest =>
    rw [hu] at rest
    obtain ⟨rfl, rfl, rfl⟩ := rest
    rw [List.append_nil]
    refine ⟨_, _, .text hr, has₁, rfl, ?_, rfl, rfl⟩
    rw [ParseState.text, has₁.input]
  | failed hr has₁ hpos rest =>
    obtain ⟨rfl, rfl, rfl⟩ := rest
    rw [List.append_nil]
    exact ⟨_, _, .textFails hr, has₁, rfl, rfl, hpos⟩

theorem sound_simpleAnd (h : Sound w A (Eval w body ls)) (i : Expr.Info) :
    Sound w (.lookahead .sometimes false A) (Eval w (.simpleAnd i body) ls) := by
  intro st has cs v st' hlook
  cases h.goesOn_silently has hlook with
  | found hr has₁ hu rest =>
    rw [hu] at rest
    obtain ⟨rfl, rfl, rfl⟩ := rest
    rw [List.append_nil]
    exact ⟨_, _, .simpleAnd hr, has₁.move _, rfl, rfl, rfl, rfl⟩
  | failed hr has₁ hpos rest =>
    obtain ⟨rfl, rfl, rfl⟩ := rest
    rw [List.append_nil]
    exact ⟨_, _, .simpleAndFails hr, has₁, rfl, rfl, hpos⟩

theorem sound_simpleNot (h : Sound w A (Eval w body ls)) (i : Expr.Info) :
    Sound w (.lookahead .sometimes true A) (Eval w (.simpleNot i body) ls) := by
  intro st has cs v st' hlook
  cases h.goesOn_silently has hlook with
  | found hr has₁ hu rest =>
    rw [hu] at rest
    obtain ⟨rfl, rfl, rfl⟩ := rest
    rw [List.append_nil]
    exact ⟨_, _, .simpleNotFails hr, has₁.move _, rfl, rfl, rfl⟩
  | failed hr has₁ hpos rest =>
    obtain ⟨rfl, rfl, rfl⟩ := rest
    rw [List.append_nil]
    exact ⟨_, _, .simpleNot hr, has₁, rfl, rfl, hpos, rfl⟩

theorem sound_optional (h : Sound w A (Eval w body ls)) (i : Expr.Info) :
    Sound w (.optional .sometimes A) (Eval w (.optional i body) ls) := by
  intro st has cs v st' hoptional
  cases h.goesOn has hoptional with
  | found hr has₁ hu rest =>
    rw [hu] at rest
    obtain ⟨rfl, rfl, rfl⟩ := rest
    rw [List.append_nil]
    exact ⟨_, _, .optional hr, has₁, rfl, rfl, rfl, hu⟩
  | failed hr has₁ hpos rest =>
    obtain ⟨rfl, rfl, rfl⟩ := rest
    rw [List.append_nil]
    exact ⟨_, _, .absent hr, has₁, rfl, rfl, hpos, rfl⟩

theorem sound_zeroOrMore (h : Sound w A (Eval w body ls)) (i : Expr.Info) :
    Sound w (.zeroOrMore A) (Eval w (.zeroOrMore i body) ls) := by
  intro st has cs v st' hitems
  -- any number of items is no limit, so that they are those of a repetition without one
  have items : ((Act.unlessFull none 0 A).bind (Act.Collects (fun n => Act.unlessFull none n A) [])) st cs v st' := hitems
  obtain ⟨has', vs, rfl, hvs⟩ := sound_items (sound_alone (.inl rfl) h) (fun n => sound_alone (.inr rfl) h) has items
  exact ⟨_, _, .zeroOrMore hvs, has', rfl, rfl, rfl, rfl⟩

theorem sound_oneOrMore (h : Sound w A (Eval w body ls)) (i : Expr.Info) :
    Sound w (.oneOrMore .sometimes A) (Eval w (.oneOrMore i body) ls) := by
  intro st has cs v st' hitems
  cases h.goesOn has hitems with
  | failed hr has₁ hpos rest =>
    obtain ⟨rfl, rfl, rfl⟩ := rest
    rw [List.append_nil]
    exact ⟨_, _, .oneOrMoreFails (.last rfl (.alone (.inl rfl) hr)), has₁, rfl, rfl, hpos⟩
  | @found cs₁ cs₂ u _ st₁ _ hr has₁ hu rest =>
    rw [hu] at rest
    have rest : Act.Collects (fun n => Act.unlessFull none n A) [] u st₁ cs₂ v st' := rest
    obtain ⟨has', vs, rfl, follow⟩ := sound_rounds (fun n => sound_alone (.inr rfl) h) has₁ rest
    -- after the first item there are rounds, so that it is among the items
    obtain ⟨hfailed, -⟩ | ⟨-, vs, rfl, hvs⟩ := follow
    · rw [hu] at hfailed; cases hfailed
    · exact ⟨_, _, .oneOrMore (.more rfl (.alone (.inl rfl) hr) hvs) (List.cons_ne_nil _ _), has', rfl, rfl, rfl, rfl⟩

end Operators

/-! ## Expressions -/

/-- What expressions do is told of, if this is so of rules. -/
theorem sound_expr (hf : c.function = w.bindings.function) (hbs : w.bindings.NeverFail)
    (hR : ∀ r, Sound w (R r) (EvalRule w r)) (e : Expr) (ls : Labels) :
    Sound w (c.unpruned.meaning R e ls) (Eval w e ls) := by
  have hf : c.unpruned.function = w.bindings.function := hf
  induction e using Expr.induction generalizing ls with
  | choice i first others ihFirst ihOthers =>
    unfold Setting.meaning
    exact sound_choice (ihFirst ls) fun e he => ihOthers e he ls
  | sequence i elements ih => exact sound_sequence ih i
  | labeled i label pick body ih =>
    unfold Setting.meaning
    exact (ih ls).mono fun _ _ _ _ _ => .labeled
  | group i body ih =>
    unfold Setting.meaning
    exact (ih ls).mono fun _ _ _ _ _ => .group
  | action i body code ih ihElements =>
    -- an action on a sequence sees its elements, any other one what its body gives
    refine Expr.action_cases body (fun j elements hb => ?_) fun hb => ?_
    · subst hb
      exact sound_actionOnAll hf hbs ihElements i j code
    · exact sound_action hf hbs hb (ih ls) i code
  | text i body ih =>
    unfold Setting.meaning
    exact sound_text (ih ls) i
  | simpleAnd i body ih =>
    unfold Setting.meaning
    exact sound_simpleAnd (ih ls) i
  | simpleNot i body ih =>
    unfold Setting.meaning
    exact sound_simpleNot (ih ls) i
  | semanticAnd i code =>
    intro st has cs v st' h
    obtain ⟨u, hu, rfl, rfl, rfl⟩ := (predicate_iff hf has).1 h
    exact ⟨_, _, .semanticAnd hu, has.save _, rfl, and_is _⟩
  | semanticNot i code =>
    intro st has cs v st' h
    obtain ⟨u, hu, rfl, rfl, rfl⟩ := (predicate_iff hf has).1 h
    exact ⟨_, _, .semanticNot hu, has.save _, rfl, not_is _⟩
  | optional i body ih =>
    unfold Setting.meaning
    exact sound_optional (ih ls) i
  | zeroOrMore i body ih =>
    unfold Setting.meaning
    exact sound_zeroOrMore (ih ls) i
  | oneOrMore i body ih =>
    unfold Setting.meaning
    exact sound_oneOrMore (ih ls) i
  | repeated i body min max delimiter ih ihDelimiter =>
    have hfirst : Sound w (c.unpruned.meaning R body ls) (Item w body delimiter ls 0) := sound_alone (.inl rfl) (ih ls)
    intro st has cs v st' h
    cases delimiter with
    | none =>
      unfold Setting.meaning at h
      obtain ⟨cs₁, least, most, cs₂, hb, hA, rfl⟩ := (withBounds_iff hf has).1 h
      exact sound_counted hfirst (fun n => sound_alone (.inr rfl) (ih ls)) (least_eq_zero hb) has hb hA
    | some d =>
      unfold Setting.meaning at h
      obtain ⟨cs₁, least, most, cs₂, hb, hA, rfl⟩ := (withBounds_iff hf has).1 h
      exact sound_counted hfirst (fun n => sound_delimited (ihDelimiter d rfl ls) (ih ls)) (least_eq_zero hb) has hb hA
  | ruleRef i name target =>
    cases target with
    | none => exact fun st has cs v st' h => h.elim
    | some t =>
      intro st has cs v st' h
      obtain ⟨r, s', ⟨rule, hrule, hr⟩, hend⟩ := hR t st has cs v st' h
      exact ⟨r, s', .ruleRef hrule hr, hend⟩
  | literal i value ignoreCase => cases ignoreCase <;> exact sound_terminal rfl
  | charClass | any => exact sound_terminal rfl
  | named i name body ih =>
    unfold Setting.meaning
    exact (sound_named (ih ls) name).mono fun _ _ _ _ _ => .named

end PegCompiler.Semantics
