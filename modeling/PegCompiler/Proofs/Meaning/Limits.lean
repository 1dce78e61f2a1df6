/-
How far repetitions go. An array is compared with a greatest count only by the code of a repetition, before every
item, and then it has no more items than that; so the array that a repetition gives has no more either. The induction
over expressions goes along with the one that says what their code does, which tells how stacks look in between.
-/
import PegCompiler.Proofs.Machine.Meets
import PegCompiler.Proofs.Meaning.Matching
import PegCompiler.Proofs.Meaning.OfCode

namespace PegCompiler

/-- Whether a condition is made of a greatest count. -/
def Test.isGreatest {ν : Naming} : Test ν → Bool
  | .atLeast _ | .atLeastThan _ => true
  | _ => false

namespace Machine

/-! ## Conditions of greatest counts -/

/-- The count on a stack that a condition compares an array with, as the greatest one. -/
inductive Compares {ν : Naming} (s : Stack) : Test ν → Count → Prop
  | fixed {n : Nat} : Compares s (.atLeast n) (.fixed (some n))
  | given {d : Nat} {v : Value} (h : s.value d = .ok v) : Compares s (.atLeastThan d) (.given v)

/-- The counts that a bound can be: a number is known beforehand, and a value is not. -/
def Kind : Boundary → Count → Prop
  | .constant n, .fixed m => n = m
  | .label _, .given _ | .computed _, .given _ => True
  | _, _ => False

/-- A condition compares an array with a maximum, and there are no more items than that. -/
structure Measures {ν : Naming} (max : Boundary) (test : Test ν) (s : Stack) (n : Count) (items : List Value) : Prop where
  kind : Kind max n
  compares : Compares s test n
  array : s.value 0 = .ok (.array items)
  within : ∃ most, n.most = some most ∧ items.length ≤ most

/-- A condition of a greatest count is one of a repetition in an expression, and fits its maximum. -/
def Limited {ν : Naming} (e : Expr) (test : Test ν) (s : Stack) : Prop :=
  test.isGreatest = true → ∃ (i : Expr.Info) (body : Expr) (min : Option Boundary) (max : Boundary)
    (delimiter : Option Expr) (n : Count) (items : List Value),
    .repeated i body min max delimiter ∈ e.preorder ∧ Measures max test s n items

/-- Where other conditions hold no matter what, blocks keep to what is asked of greatest counts. -/
theorem limited_of_not {ν : Naming} {e : Expr} {test : Test ν} {s : Stack} (h : test.isGreatest = false) :
    Limited e test s := fun h' => by rw [h] at h'; cases h'

/-! ## Room for another item -/

/-- There is room for a next item after so many, or the next one is a failure. -/
def HasRoom (most : Option Nat) (n : Nat) (v : Value) : Prop := v.isFailed = false → ∀ k ∈ most, n < k

/-- An act that runs unless the array is full leaves room for what it gives. -/
theorem ends_unlessFull_room {φ : Type} {most : Option Nat} {n : Nat} {A : Act φ} {st : ParseState} :
    Ends (.unlessFull most n A) st fun v _ => HasRoom most n v := by
  refine ends_unlessFull (fun k _ _ => ?_) fun hopen _ _ _ _ _ => hopen
  intro hv
  cases hv

/-- The array of a repetition has no more items than its maximum. -/
theorem ends_counted_size {φ : Type} {checked : Bool} {least : Nat} {most : Option Nat} {first item : Act φ}
    {st : ParseState} : Ends (.counted checked least most first item) st fun v _ => ∀ k ∈ most, v.size ≤ k := by
  unfold Act.counted
  rw [ends_read, ends_bind]
  refine ends_unlessFull_room.mono fun v st₁ room => ?_
  rw [ends_bind]
  have start : (∀ k ∈ most, ([] : List Value).length ≤ k) ∧ HasRoom most ([] : List Value).length v :=
    ⟨fun k _ => Nat.zero_le k, room⟩
  refine (ends_collects (J := fun n u _ => (∀ k ∈ most, n ≤ k) ∧ HasRoom most n u) ?_ start).mono ?_
  · rintro n u st₂ ⟨-, room⟩ hu
    exact ends_unlessFull_room.mono fun w _ next => ⟨fun k hk => room hu k hk, next⟩
  · rintro w st₂ ⟨ws, u, rfl, -, within, -⟩
    split
    · rw [ends_backTo]
      exact fun k _ => Nat.zero_le k
    · rw [ends_pure]
      exact within

section Operators

variable {c : Setting} {rules : Array (Option (RuleCode Inline))} {cache trace : Bool}
  {R : RuleId → Act HostFunction} {s : Stack} {m : MatchResult} {A B : Act HostFunction} {a b : Code Inline}
  {whole : Expr}

/-- All conditions in code on a stack are limited by the repetitions in an expression. -/
abbrev Keeps (c : Setting) (rules : Array (Option (RuleCode Inline))) (cache trace : Bool)
    (R : RuleId → Act HostFunction) (whole : Expr) (code : Code Inline) (s : Stack) : Prop :=
  Heeds (c.program rules cache trace) R (Limited whole) code s

/-! ## Parts of code -/

/-- Code that leaves a value, and code that goes on with it. -/
theorem keeps_append {mid : Stack} (ha : Keeps c rules cache trace R whole a s)
    (hy : Yields (c.program rules cache trace) R a s mid A)
    (hb : ∀ v, Keeps c rules cache trace R whole b (.value v :: mid)) : Keeps c rules cache trace R whole (a ++ b) s := by
  refine heeds_append ha fun st cs s₁ st₁ hx => ?_
  obtain ⟨v, rfl, -⟩ := (hy ..).1 hx
  exact hb v

/-- Code that comes after other code, whatever that leaves. -/
theorem keeps_append_any (ha : Keeps c rules cache trace R whole a s)
    (hb : ∀ s', Keeps c rules cache trace R whole b s') : Keeps c rules cache trace R whole (a ++ b) s :=
  heeds_append ha fun _ _ _ _ _ => hb _

theorem keeps_cond {test : Test Inline} (ht : test.isGreatest = false) (ha : Keeps c rules cache trace R whole a s)
    (hb : Keeps c rules cache trace R whole b s) : Keeps c rules cache trace R whole [.cond test a b] s :=
  heeds_cond (limited_of_not ht) ha hb

theorem keeps_branch {test : Test Inline} (ht : test.isGreatest = false) (ha : Keeps c rules cache trace R whole a s)
    (hb : Keeps c rules cache trace R whole b s) : Keeps c rules cache trace R whole (Code.branch m test a b) s := by
  cases m with
  | always => exact ha
  | never => exact hb
  | sometimes => exact keeps_cond ht ha hb

theorem keeps_pushPos (h : ∀ q, Keeps c rules cache trace R whole a (.pos q :: s)) :
    Keeps c rules cache trace R whole (.pushPos :: a) s :=
  heeds_plain rfl fun st s₁ st₁ hstep => by
    cases hstep
    exact h _

theorem keeps_pushEmptyArray (h : Keeps c rules cache trace R whole a (.value (.array []) :: s)) :
    Keeps c rules cache trace R whole (.pushEmptyArray :: a) s :=
  heeds_plain rfl fun st s₁ st₁ hstep => by
    cases hstep
    exact h

theorem keeps_pop {x : Slot} (h : Keeps c rules cache trace R whole a s) :
    Keeps c rules cache trace R whole (.pop :: a) (x :: s) :=
  heeds_plain rfl fun st s₁ st₁ hstep => by
    simp only [step, Stack.pop, List.length_cons, Nat.le_add_left, if_true, lift_ok_iff, Except.ok.injEq] at hstep
    obtain ⟨rfl, -⟩ := hstep
    exact h

theorem keeps_silence (h : Keeps c rules cache trace R whole a s) : Keeps c rules cache trace R whole (.silence :: a) s :=
  heeds_plain rfl fun st s₁ st₁ hstep => by
    cases hstep
    exact h

theorem keeps_mark {e : Expr} (h : Keeps c rules cache trace R whole a s) :
    Keeps c rules cache trace R whole (c.mark e a) s := by
  unfold Code.Plan.mark
  split
  · have begun : Keeps c rules cache trace R whole ([.mapPush e.span] ++ a) s :=
      heeds_plain rfl fun st s₁ st₁ hstep => by
        cases hstep
        exact h
    exact keeps_append_any begun fun _ => heeds_all rfl
  · exact h

/-! ## Terminals and host code -/

theorem keeps_ofLiteral (value : String) (ignoreCase : Bool) :
    Keeps c rules cache trace R whole (Code.ofLiteral m value ignoreCase) s := by
  unfold Code.ofLiteral
  split
  · exact heeds_all rfl
  · split <;> exact keeps_branch rfl (heeds_all rfl) (heeds_all rfl)

theorem keeps_callHost {kind : FunctionKind} {code : HostCode} {env : Env} {size pop : Nat} :
    Keeps c rules cache trace R whole (Code.callHost kind code env size pop) s := by
  unfold Code.callHost
  rcases Code.reach_cases env.slots size with h | ⟨_, h⟩ <;> (rw [h]; exact heeds_all rfl)

theorem keeps_ofPredicate (code : HostCode) (negative : Bool) (env : Env) (size : Nat) :
    Keeps c rules cache trace R whole (Code.ofPredicate code negative env size) s := by
  unfold Code.ofPredicate
  refine keeps_append_any (keeps_append_any (heeds_all rfl) fun _ => keeps_callHost) fun _ => keeps_cond rfl ?_ ?_
  · cases negative <;> exact heeds_all rfl
  · cases negative <;> exact heeds_all rfl

theorem keeps_ofAction {code : HostCode} {env : Env} {size : Nat}
    (h : ∀ q, Keeps c rules cache trace R whole a (.pos q :: s)) :
    Keeps c rules cache trace R whole (Code.ofAction m code env size a) s := by
  unfold Code.ofAction
  refine keeps_append_any (keeps_append_any (keeps_pushPos h) fun _ => ?_) fun _ => heeds_all rfl
  exact keeps_branch rfl (keeps_append_any (heeds_all rfl) fun _ => keeps_callHost) heeds_nil

/-! ## Around an operand -/

theorem keeps_ofLookahead {negative : Bool} (h : ∀ q, Keeps c rules cache trace R whole a (.pos q :: s)) :
    Keeps c rules cache trace R whole (Code.ofLookahead m negative a) s := by
  unfold Code.ofLookahead
  have tried : Keeps c rules cache trace R whole ([.pushPos, .silence] ++ a) s :=
    keeps_pushPos fun q => keeps_silence (h q)
  refine keeps_append_any (keeps_append_any tried fun _ => heeds_all rfl) fun _ => ?_
  split <;> exact keeps_branch rfl (heeds_all rfl) (heeds_all rfl)

theorem keeps_ofNamed {name : String} (h : Keeps c rules cache trace R whole a s) :
    Keeps c rules cache trace R whole (Code.ofNamed m name a) s := by
  unfold Code.ofNamed
  refine keeps_append_any (keeps_append_any (keeps_silence h) fun _ => heeds_all rfl) fun _ => ?_
  exact keeps_branch rfl (heeds_all rfl) heeds_nil

theorem keeps_ofText (h : ∀ q, Keeps c rules cache trace R whole a (.pos q :: s)) :
    Keeps c rules cache trace R whole (Code.ofText m a) s := by
  unfold Code.ofText
  exact keeps_append_any (keeps_pushPos h) fun _ => keeps_branch rfl (heeds_all rfl) (heeds_all rfl)

theorem keeps_ofOptional (h : Keeps c rules cache trace R whole a s) :
    Keeps c rules cache trace R whole (Code.ofOptional m a) s :=
  keeps_append_any h fun _ => keeps_branch rfl (heeds_all rfl) heeds_nil

/-! ## Loops -/

/-- A loop around an item that leaves a value above the array. -/
theorem keeps_collect {J : List Value → Value → Prop} {I : Nat → Act HostFunction}
    (ha : ∀ vs v, J vs v → v.isFailed = false →
      Keeps c rules cache trace R whole a (.value (.array (vs ++ [v])) :: s))
    (hy : ∀ vs, Yields (c.program rules cache trace) R a (.value (.array vs) :: s) (.value (.array vs) :: s)
      (I vs.length))
    (hJ : ∀ vs v w st cs st', J vs v → v.isFailed = false → I (vs.length + 1) st cs w st' → J (vs ++ [v]) w)
    {vs : List Value} {v : Value} (h : J vs v) :
    Keeps c rules cache trace R whole (Code.collect a) (.value v :: .value (.array vs) :: s) := by
  have loop : Keeps c rules cache trace R whole [.whileOk ([.append] ++ a)] (.value v :: .value (.array vs) :: s) := by
    refine heeds_loop (J := J) (fun vs v h hv => ⟨ha vs v h hv, fun st cs s₁ st₁ hx => ?_⟩) h
    obtain ⟨w, rfl, hw⟩ := (hy _ ..).1 hx
    rw [List.length_append] at hw
    exact ⟨w, rfl, hJ vs v w _ _ _ h hv hw⟩
  exact keeps_append_any (b := [.pop]) loop fun _ => heeds_all rfl

/-- A loop without a maximum. -/
theorem keeps_collect_all (ha : ∀ x, Keeps c rules cache trace R whole a (x :: s))
    (hy : ∀ x, Yields (c.program rules cache trace) R a (x :: s) (x :: s) A) (vs : List Value) (v : Value) :
    Keeps c rules cache trace R whole (Code.collect a) (.value v :: .value (.array vs) :: s) :=
  keeps_collect (J := fun _ _ => True) (I := fun _ => A) (fun _ _ _ _ => ha _) (fun _ => hy _)
    (fun _ _ _ _ _ _ _ _ _ => trivial) trivial

theorem keeps_ofZeroOrMore (ha : ∀ x, Keeps c rules cache trace R whole a (x :: s))
    (hy : ∀ x, Yields (c.program rules cache trace) R a (x :: s) (x :: s) A) :
    Keeps c rules cache trace R whole (Code.ofZeroOrMore a) s := by
  unfold Code.ofZeroOrMore
  simp only [List.cons_append, List.nil_append]
  exact keeps_pushEmptyArray (keeps_append (ha _) (hy _) fun v => keeps_collect_all ha hy [] v)

theorem keeps_ofOneOrMore (ha : ∀ x, Keeps c rules cache trace R whole a (x :: s))
    (hy : ∀ x, Yields (c.program rules cache trace) R a (x :: s) (x :: s) A) :
    Keeps c rules cache trace R whole (Code.ofOneOrMore m a) s := by
  unfold Code.ofOneOrMore
  simp only [List.cons_append, List.nil_append]
  exact keeps_pushEmptyArray (keeps_append (ha _) (hy _) fun v =>
    keeps_branch rfl (keeps_collect_all ha hy [] v) (heeds_all rfl))

/-! ## Repetitions -/

theorem keeps_delimited {ofDelimiter ofBody : MatchResult} (ha : ∀ q, Keeps c rules cache trace R whole a (.pos q :: s))
    (hy : ∀ q, Yields (c.program rules cache trace) R a (.pos q :: s) (.pos q :: s) A)
    (hb : ∀ q, Keeps c rules cache trace R whole b (.pos q :: s)) :
    Keeps c rules cache trace R whole (Code.delimited ofDelimiter ofBody a b) s := by
  unfold Code.delimited
  simp only [List.cons_append, List.nil_append]
  refine keeps_pushPos fun q => keeps_append (ha q) (hy q) fun v => ?_
  refine keeps_branch rfl (keeps_pop (keeps_append_any (hb q) fun _ => ?_)) (heeds_all rfl)
  exact keeps_branch rfl (heeds_all rfl) (heeds_all rfl)

/-- The condition of a maximum that is found on the stack. -/
theorem keeps_unlessFull {i : Expr.Info} {body : Expr} {min : Option Boundary} {max : Boundary} {delimiter : Option Expr}
    (he : .repeated i body min max delimiter ∈ whole.preorder) {l : Code.Limit} {n : Count} (hn : Kind max n)
    (hl : Finds s l n) {vs : List Value} (hvs : ∀ k ∈ n.most, vs.length ≤ k)
    (ha : Keeps c rules cache trace R whole a (.value (.array vs) :: s)) :
    Keeps c rules cache trace R whole (Code.unlessFull l s.length a) (.value (.array vs) :: s) := by
  cases l with
  | fixed k =>
    cases n with
    | given v => exact hl.elim
    | fixed k' =>
      cases hl
      cases k with
      | none => exact ha
      | some k =>
        refine heeds_cond (fun _ => ?_) (heeds_all rfl) ha
        exact ⟨i, body, min, max, delimiter, _, vs, he, hn, .fixed, rfl, k, rfl, hvs k rfl⟩
  | slot j =>
    cases n with
    | fixed k => exact hl.elim
    | given v =>
      refine heeds_cond (fun _ => ?_) (heeds_all rfl) ha
      exact ⟨i, body, min, max, delimiter, _, vs, he, hn, .given (value_below hl), rfl, _, rfl, hvs _ rfl⟩

/-- The array of a repetition is filled up to its maximum. -/
theorem keeps_filled {i : Expr.Info} {body : Expr} {min : Option Boundary} {max : Boundary} {delimiter : Option Expr}
    (he : .repeated i body min max delimiter ∈ whole.preorder) {l : Code.Limit} {n : Count} (hn : Kind max n)
    (hl : Finds s l n) {first item tail : Code Inline} {F I : Act HostFunction}
    (hfirst : ∀ x, Keeps c rules cache trace R whole first (x :: s))
    (hF : ∀ x, Yields (c.program rules cache trace) R first (x :: s) (x :: s) F)
    (hitem : ∀ x, Keeps c rules cache trace R whole item (x :: s))
    (hI : ∀ x, Yields (c.program rules cache trace) R item (x :: s) (x :: s) I)
    (htail : ∀ s', Keeps c rules cache trace R whole tail s') :
    Keeps c rules cache trace R whole (.pushEmptyArray :: (Code.unlessFull l s.length first ++
      (Code.collect (Code.unlessFull l s.length item) ++ tail))) s := by
  refine keeps_pushEmptyArray (heeds_append ?_ fun st cs s₁ st₁ hx => ?_)
  · exact keeps_unlessFull he hn hl (fun k _ => Nat.zero_le k) (hfirst _)
  · obtain ⟨v, rfl, hv⟩ := (yields_unlessFull hl [] (hF _) ..).1 hx
    refine keeps_append_any (keeps_collect (J := fun vs v => HasRoom n.most vs.length v) (fun vs v room hv => ?_)
      (I := fun k => .unlessFull n.most k I)
      (fun vs => yields_unlessFull hl vs (hI _)) (fun vs v w st cs st' _ _ hw => ?_) (ends_unlessFull_room _ _ _ hv)) htail
    · refine keeps_unlessFull he hn hl (fun k hk => ?_) (hitem _)
      rw [List.length_append]
      exact room hv k hk
    · rw [List.length_append]
      exact ends_unlessFull_room _ _ _ hw

/-- A bound is made ready on the stack. -/
theorem keeps_prepare {env : Env} {ls : Labels} (henv : env.Holds ls s) (bound : Boundary)
    (rest : ∀ n top, top.length = Code.slotsOf bound → Finds (top ++ s) (Code.limitOf env s.length bound) n →
      Kind bound n → Keeps c rules cache trace R whole a (top ++ s)) :
    Keeps c rules cache trace R whole (Code.prepare env s.length bound ++ a) s := by
  cases bound with
  | constant k => exact rest (.fixed k) [] rfl rfl rfl
  | computed code =>
    unfold Code.prepare
    dsimp only
    rw [Code.callHost_eq henv.lt]
    refine heeds_plain rfl fun st s₁ st₁ hstep => ?_
    simp only [step, bind_ok_iff, lift_ok_iff, get_ok_iff, pure_ok_iff] at hstep
    obtain ⟨⟨kind, host⟩, _, -, args, _, -, view, _, -, s₂, _, ⟨hpop, -⟩, rfl, -⟩ := hstep
    simp only [Stack.pop, Nat.zero_le, if_true, List.drop_zero, Except.ok.injEq] at hpop
    subst hpop
    exact rest (.given _) [.value _] rfl (reverse_slot_top s _) trivial
  | label name =>
    cases hs : env.lookup name.val with
    | none =>
      simp only [Code.prepare, hs, Option.isSome_none, Bool.false_eq_true, if_false]
      refine heeds_plain rfl fun st s₁ st₁ hstep => ?_
      cases hstep
    | some slot =>
      obtain ⟨v, -, hslot⟩ := henv.lookup_some hs
      simp only [Code.prepare, hs, Option.isSome_some, if_true, List.nil_append]
      refine rest (.given v) [] rfl ?_ trivial
      unfold Code.limitOf
      simp only [hs]
      exact hslot

theorem keeps_prepareBounds {env : Env} {ls : Labels} {min : Option Boundary} {max : Boundary} (henv : env.Holds ls s)
    (rest : ∀ n top, top.length = Code.boundSlots min max → Finds (top ++ s) (Code.most min max env s.length) n →
      Kind max n → Keeps c rules cache trace R whole a (top ++ s)) :
    Keeps c rules cache trace R whole (Code.prepareBounds min max env s.length ++ a) s := by
  cases min with
  | none =>
    refine keeps_prepare henv max fun n top hlen hn => rest n top ?_ hn
    rw [hlen]
    exact (Nat.zero_add _).symm
  | some min =>
    unfold Code.prepareBounds
    simp only [Option.elim_some, List.append_assoc]
    refine keeps_prepare henv min fun _ top hlen _ _ => ?_
    have hsize : s.length + Code.slotsOf min = (top ++ s).length := by rw [List.length_append, hlen, Nat.add_comm]
    rw [hsize]
    refine keeps_prepare (henv.push top) max fun n top' hlen' hn => ?_
    rw [← List.append_assoc] at hn ⊢
    refine rest n (top' ++ top) ?_ ?_
    · rw [List.length_append, hlen, hlen', Nat.add_comm]
      rfl
    · unfold Code.most
      simp only [Option.elim_some, hsize]
      exact hn

theorem keeps_ofRepeated {i : Expr.Info} {body : Expr} {min : Option Boundary} {max : Boundary} {delimiter : Option Expr}
    (he : .repeated i body min max delimiter ∈ whole.preorder) {env : Env} {ls : Labels} (henv : env.Holds ls s)
    {first item : Code Inline} {F I : Act HostFunction}
    (hfirst : ∀ top : Stack, (top ++ s).length = Code.arraySlot min max s.length + 1 →
      Keeps c rules cache trace R whole first (top ++ s))
    (hF : ∀ top : Stack, (top ++ s).length = Code.arraySlot min max s.length + 1 →
      Yields (c.program rules cache trace) R first (top ++ s) (top ++ s) F)
    (hitem : ∀ top : Stack, (top ++ s).length = Code.arraySlot min max s.length + 1 →
      Keeps c rules cache trace R whole item (top ++ s))
    (hI : ∀ top : Stack, (top ++ s).length = Code.arraySlot min max s.length + 1 →
      Yields (c.program rules cache trace) R item (top ++ s) (top ++ s) I) :
    Keeps c rules cache trace R whole (Code.ofRepeated min max env s.length first item) s := by
  have nips (k : Nat) (s' : Stack) : Keeps c rules cache trace R whole (List.replicate k .nip) s' := by
    refine heeds_all (List.all_eq_true.2 fun i hi => ?_)
    rw [(List.mem_replicate.1 hi).2]
    rfl
  unfold Code.ofRepeated
  dsimp only
  rw [Code.reach_bounds henv.lt]
  simp only [List.append_assoc, List.cons_append, List.nil_append]
  refine keeps_prepareBounds henv fun n top hlen hn hkind => ?_
  -- the array is above the bounds, and above a position to go back to if there is one
  have filled (kept : Stack) (hkept : kept.length = if Code.needsLeast min max then 1 else 0) {tail : Code Inline}
      (htail : ∀ s', Keeps c rules cache trace R whole tail s') : Keeps c rules cache trace R whole
        (.pushEmptyArray :: (Code.unlessFull (Code.most min max env s.length) (Code.arraySlot min max s.length) first ++
          (Code.collect (Code.unlessFull (Code.most min max env s.length) (Code.arraySlot min max s.length) item) ++ tail)))
        (kept ++ (top ++ s)) := by
    have hsize : Code.arraySlot min max s.length = (kept ++ (top ++ s)).length := by
      unfold Code.arraySlot
      rw [List.length_append, List.length_append, hlen, hkept]
      omega
    have slot (x : Slot) : x :: (kept ++ (top ++ s)) = (x :: (kept ++ top)) ++ s := by
      rw [List.cons_append, List.append_assoc]
    have hslot (x : Slot) : ((x :: (kept ++ top)) ++ s).length = Code.arraySlot min max s.length + 1 := by
      rw [← slot, List.length_cons, hsize]
    rw [hsize]
    refine keeps_filled he hkind (hn.push kept) (F := F) (I := I) (fun x => ?_) (fun x => ?_) (fun x => ?_) (fun x => ?_) htail
    · rw [slot]; exact hfirst _ (hslot x)
    · rw [slot]; exact hF _ (hslot x)
    · rw [slot]; exact hitem _ (hslot x)
    · rw [slot]; exact hI _ (hslot x)
  cases needs : Code.needsLeast min max with
  | true =>
    rw [needs] at filled
    refine keeps_pushPos fun q => filled [.pos q] rfl fun s' => ?_
    -- what follows is a condition of the least count
    refine keeps_append_any (a := [_]) (keeps_cond ?_ (heeds_all rfl) (heeds_all rfl)) (nips _)
    unfold Code.tooFew
    split <;> rfl
  | false =>
    rw [needs] at filled
    exact filled [] rfl (nips _)

/-! ## Expressions -/

/-- The code of an expression keeps to it, wherever on the stack the labels are. -/
def Obeys (c : Setting) (rules : Array (Option (RuleCode Inline))) (cache trace : Bool) (R : RuleId → Act HostFunction)
    (whole e : Expr) : Prop :=
  ∀ (env : Env) (ls : Labels) (s : Stack), env.Holds ls s →
    Keeps c rules cache trace R whole (Code.ofExpr c.toPlan e env s.length) s

theorem Obeys.above {e : Expr} (h : Obeys c rules cache trace R whole e) {env : Env} {ls : Labels} (henv : env.Holds ls s)
    (top : Stack) {size : Nat} (hlen : (top ++ s).length = size) :
    Keeps c rules cache trace R whole (Code.ofExpr c.toPlan e env size) (top ++ s) := by
  rw [← hlen]
  exact h env ls _ (henv.push top)

theorem yields_above (e : Expr) {env : Env} {ls : Labels} (henv : env.Holds ls s) (top : Stack) {size : Nat}
    (hlen : (top ++ s).length = size) : Yields (c.program rules cache trace) R (Code.ofExpr c.toPlan e env size) (top ++ s)
      (top ++ s) (c.meaning R e ls) := by
  rw [← hlen]
  exact yields_ofExpr e env ls _ (henv.push top)

/-- The alternatives after one that left a value. -/
theorem keeps_ofOthers {others : List Expr} (ih : ∀ e ∈ others, Obeys c rules cache trace R whole e)
    (before : MatchResult) {env : Env} {ls : Labels} (henv : env.Holds ls s) (v : Value) :
    Keeps c rules cache trace R whole (Code.ofOthers c.toPlan before others env s.length) (.value v :: s) := by
  induction others generalizing before v with
  | nil => exact heeds_nil
  | cons e es ihs =>
    unfold Code.ofOthers
    simp only [List.singleton_append]
    refine keeps_branch rfl (keeps_pop ?_) heeds_nil
    exact keeps_append (ih e List.mem_cons_self env ls s henv) (yields_ofExpr e env ls s henv) fun w =>
      ihs (fun e' he => ih e' (List.mem_cons_of_mem _ he)) _ w

theorem keeps_finish (action : Option HostCode) (done size : Nat) (env : Env) (picks : List Nat) :
    Keeps c rules cache trace R whole (Code.finish action done size env picks) s := by
  unfold Code.finish
  split
  · rcases Code.reach_cases picks size with h | ⟨_, h⟩ <;> (rw [h]; exact heeds_all rfl)
  · cases action with
    | none => exact heeds_all rfl
    | some code => exact keeps_append_any (heeds_all rfl) fun _ => keeps_callHost

/-- The elements of a sequence after others. -/
theorem keeps_ofElements {action : Option HostCode} {elements : List Expr}
    (ih : ∀ e ∈ elements, Obeys c rules cache trace R whole e) (done : Nat) {env : Env} {ls : Labels}
    (henv : env.Holds ls s) (picks : List Nat) :
    Keeps c rules cache trace R whole (Code.ofElements c.toPlan action elements done env picks s.length) s := by
  induction elements generalizing done env ls picks s with
  | nil => exact keeps_finish _ _ _ _ _
  | cons e es ihs =>
    unfold Code.ofElements
    refine keeps_append (ih e List.mem_cons_self env ls s henv) (yields_ofExpr e env ls s henv) fun v => ?_
    refine keeps_branch rfl ?_ ?_
    · exact ihs (fun e' he => ih e' (List.mem_cons_of_mem _ he)) _
        ((henv.push_one (.value v)).after (reverse_slot_top _ _) e) _
    · unfold Code.abandon
      split <;> exact heeds_all rfl

theorem keeps_sequence {action : Option HostCode} {elements : List Expr}
    (ih : ∀ e ∈ elements, Obeys c rules cache trace R whole e) {env : Env} {ls : Labels} (henv : env.Holds ls s) :
    Keeps c rules cache trace R whole
      ([.pushPos] ++ Code.ofElements c.toPlan action elements 0 env [] (s.length + 1)) s :=
  keeps_pushPos fun q => keeps_ofElements (s := .pos q :: s) ih 0 (henv.push_one _) []

/-- The code of a part of an expression keeps to the expression. -/
theorem obeys_of_mem {e : Expr} (he : ∀ e' ∈ e.preorder, e' ∈ whole.preorder) : Obeys c rules cache trace R whole e := by
  -- a part of a part is one of the whole
  have part {e c : Expr} (he : ∀ e' ∈ e.preorder, e' ∈ whole.preorder) (hc : c ∈ e.children) :
      ∀ e' ∈ c.preorder, e' ∈ whole.preorder := fun e' he' => he e' (Expr.mem_preorder_of_child hc he')
  induction e using Expr.induction with
  | choice i first others ihFirst ihOthers =>
    intro env ls s henv
    unfold Code.ofExpr
    refine keeps_mark (keeps_append (ihFirst (part he List.mem_cons_self) env ls s henv)
      (yields_ofExpr first env ls s henv) fun v => keeps_ofOthers (fun e hm => ?_) _ henv v)
    exact ihOthers e hm (part he (List.mem_cons_of_mem _ hm))
  | sequence i elements ih =>
    intro env ls s henv
    unfold Code.ofExpr
    exact keeps_mark (keeps_sequence (fun e hm => ih e hm (part he hm)) henv)
  | labeled i label pick body ih | group i body ih =>
    intro env ls s henv
    unfold Code.ofExpr
    exact keeps_mark (ih (part he List.mem_cons_self) env ls s henv)
  | action i body code ih ihElements =>
    intro env ls s henv
    have inBody := part he List.mem_cons_self
    refine Expr.action_cases body (fun j elements hb => ?_) fun hb => ?_
    · subst hb
      unfold Code.ofExpr
      exact keeps_mark (keeps_mark (keeps_sequence (fun e hm => ihElements e hm (part inBody hm)) henv))
    · rw [Code.ofExpr]
      · exact keeps_mark (keeps_ofAction fun q => ih inBody env ls (.pos q :: s) (henv.push_one _))
      · exact hb
  | text i body ih =>
    intro env ls s henv
    unfold Code.ofExpr
    exact keeps_mark (keeps_ofText fun q => ih (part he List.mem_cons_self) env ls _ (henv.push_one _))
  | simpleAnd i body ih | simpleNot i body ih =>
    intro env ls s henv
    unfold Code.ofExpr
    exact keeps_mark (keeps_ofLookahead fun q => ih (part he List.mem_cons_self) env ls _ (henv.push_one _))
  | semanticAnd i code | semanticNot i code =>
    intro env ls s henv
    unfold Code.ofExpr
    exact keeps_mark (keeps_ofPredicate _ _ _ _)
  | optional i body ih =>
    intro env ls s henv
    unfold Code.ofExpr
    exact keeps_mark (keeps_ofOptional (ih (part he List.mem_cons_self) env ls s henv))
  | zeroOrMore i body ih =>
    intro env ls s henv
    unfold Code.ofExpr
    exact keeps_mark (keeps_ofZeroOrMore (fun x => ih (part he List.mem_cons_self) env ls _ (henv.push_one x))
      fun x => yields_ofExpr body env ls _ (henv.push_one x))
  | oneOrMore i body ih =>
    intro env ls s henv
    unfold Code.ofExpr
    exact keeps_mark (keeps_ofOneOrMore (fun x => ih (part he List.mem_cons_self) env ls _ (henv.push_one x))
      fun x => yields_ofExpr body env ls _ (henv.push_one x))
  | repeated i body min max delimiter ih ihDelimiter =>
    intro env ls s henv
    have own := he _ (Expr.mem_preorder_self _)
    have inBody := ih (part he List.mem_cons_self)
    cases delimiter with
    | none =>
      unfold Code.ofExpr
      exact keeps_mark (keeps_ofRepeated own henv (fun top => inBody.above henv top) (fun top => yields_above body henv top)
        (fun top => inBody.above henv top) fun top => yields_above body henv top)
    | some d =>
      have inDelimiter := ihDelimiter d rfl (part he (List.mem_cons_of_mem _ (List.mem_singleton_self d)))
      -- above the array there is the position to go back to
      have next {top : Stack} {size : Nat} (hlen : (top ++ s).length = size + 1) (q : Nat) :
          ((.pos q :: top) ++ s).length = size + 2 := by
        rw [List.cons_append, List.length_cons, hlen]
      unfold Code.ofExpr
      refine keeps_mark (keeps_ofRepeated (I := .delimited (c.matched d) (c.matched body) (c.meaning R d ls) (c.meaning R body ls))
        own henv (fun top => inBody.above henv top) (fun top => yields_above body henv top) (fun top hlen => ?_)
        fun top hlen => ?_)
      · exact keeps_delimited (fun q => inDelimiter.above henv (.pos q :: top) (next hlen q))
          (fun q => yields_above d henv (.pos q :: top) (next hlen q))
          fun q => inBody.above henv (.pos q :: top) (next hlen q)
      · exact yields_delimited (fun q => yields_above d henv (.pos q :: top) (next hlen q))
          fun q => yields_above body henv (.pos q :: top) (next hlen q)
  | ruleRef i name target =>
    intro env ls s henv
    cases target with
    | none => unfold Code.ofExpr; exact keeps_mark (heeds_all rfl)
    | some target => unfold Code.ofExpr; exact keeps_mark heeds_rule
  | literal i value ignoreCase =>
    intro env ls s henv
    unfold Code.ofExpr
    exact keeps_mark (keeps_ofLiteral _ _)
  | charClass i k =>
    intro env ls s henv
    unfold Code.ofExpr
    exact keeps_mark (keeps_branch rfl (heeds_all rfl) (heeds_all rfl))
  | any i =>
    intro env ls s henv
    unfold Code.ofExpr
    exact keeps_mark (keeps_branch rfl (heeds_all rfl) (heeds_all rfl))
  | named i name body ih =>
    intro env ls s henv
    unfold Code.ofExpr
    exact keeps_mark (keeps_ofNamed (ih (part he List.mem_cons_self) env ls s henv))

/-- All conditions of greatest counts in the code of a rule are made for repetitions in its body. -/
theorem keeps_ofRule (r : Rule) : Keeps c rules cache trace R r.body (Code.ofRule c.toPlan r) [] := by
  have body : Keeps c rules cache trace R r.body (Code.ofExpr c.toPlan r.body [] 0) [] :=
    obeys_of_mem (fun _ h => h) [] [] [] .nil
  unfold Code.ofRule
  cases r.displayName with
  | none => exact body
  | some name => exact keeps_ofNamed body

end Operators

end Machine

end PegCompiler
