/-
Code does what expressions mean. The code of an expression, started on a stack whose slots hold the
values of the labels in scope, adds one value to it: just the values, states and host calls that the
meaning of the expression allows (`yields_ofExpr`). The induction is on the expression; what ties the
labels to the stack is `Env.Holds`.
-/
import PegCompiler.Proofs.Code.OfExpr
import PegCompiler.Proofs.Meaning.Basic

namespace PegCompiler

open Machine

/-! ## Labels on the stack -/

/-- The value of every label is in its slot. -/
def Env.Holds (env : Env) (ls : Labels) (s : Stack) : Prop :=
  List.Forall₂ (fun b l => b.1 = l.1 ∧ s.reverse[b.2]? = some (.value l.2)) env ls

/-- There are stacks that hold any labels. -/
theorem Env.exists_holds (ls : Labels) : ∃ (env : Env) (s : Stack), env.Holds ls s := by
  refine ⟨ls.zipIdx.map fun x => (x.1.1, x.2), (ls.map fun l => .value l.2).reverse, ?_⟩
  unfold Env.Holds
  rw [List.forall₂_map_left_iff, List.reverse_reverse, List.forall₂_iff_get]
  refine ⟨List.length_zipIdx, fun i hi hi' => ?_⟩
  simpa using ⟨_, List.getElem?_eq_getElem hi'⟩

namespace Env.Holds

variable {env : Env} {ls : Labels} {s : Stack}

theorem push (h : env.Holds ls s) (top : Stack) : env.Holds ls (top ++ s) :=
  h.imp fun _ _ ⟨hn, hv⟩ => ⟨hn, reverse_slot_push hv top⟩

theorem push_one (h : env.Holds ls s) (x : Slot) : env.Holds ls (x :: s) := h.push [x]

theorem params (h : env.Holds ls s) : env.params = ls.names := by
  induction h with
  | nil => rfl
  | cons h _ ih => exact congrArg₂ List.cons h.1 ih

/-- The labels are all below the top. -/
theorem lt (h : env.Holds ls s) : ∀ i ∈ env.slots, i < s.length := by
  induction h with
  | nil => exact nofun
  | cons h _ ih => exact List.forall_mem_cons.2 ⟨slot_lt h.2, ih⟩

theorem values (h : env.Holds ls s) : s.values (env.distances s.length) = .ok ls.values := by
  refine values_of_getElem ?_
  unfold Env.distances Labels.values
  rw [List.forall₂_map_left_iff, List.forall₂_map_right_iff]
  exact h.imp fun _ _ hb => slot_at_distance hb.2

theorem lookup_none (h : env.Holds ls s) {name : String} : env.lookup name = none ↔ ls.lookup name = none := by
  induction h with
  | nil => simp
  | @cons b l _ _ h _ ih =>
    obtain ⟨n, v⟩ := l
    obtain ⟨m, i⟩ := b
    obtain ⟨rfl, -⟩ := h
    simp only [List.lookup_cons]
    split <;> simp [ih]

theorem lookup_some (h : env.Holds ls s) {name : String} {slot : Nat} (hs : env.lookup name = some slot) :
    ∃ v, ls.lookup name = some v ∧ s.reverse[slot]? = some (.value v) := by
  induction h with
  | nil => simp at hs
  | @cons b l _ _ h _ ih =>
    obtain ⟨n, v⟩ := l
    obtain ⟨m, i⟩ := b
    obtain ⟨rfl, hv⟩ := h
    simp only [List.lookup_cons] at hs ⊢
    split at hs
    · cases hs; exact ⟨v, rfl, hv⟩
    · exact ih hs

theorem any_eq (h : env.Holds ls s) (label : String) : env.any (·.1 == label) = ls.any (·.1 == label) := by
  induction h with
  | nil => rfl
  | cons h _ ih => simp only [List.any_cons, h.1, ih]

theorem bind (h : env.Holds ls s) {slot : Nat} {v : Value} (hv : s.reverse[slot]? = some (.value v))
    (label : String) : (env.bind label slot).Holds (ls.bind label v) s := by
  unfold Env.bind Labels.bind
  rw [h.any_eq label]
  split
  · unfold Env.Holds
    rw [List.forall₂_map_left_iff, List.forall₂_map_right_iff]
    refine h.imp fun b l hb => ?_
    rw [← hb.1]
    split
    · exact ⟨rfl, hv⟩
    · exact hb
  · exact List.rel_append h (.cons ⟨rfl, hv⟩ .nil)

theorem after (h : env.Holds ls s) {slot : Nat} {v : Value} (hv : s.reverse[slot]? = some (.value v)) (e : Expr) :
    (env.after e slot).Holds (ls.after e v) s := by
  cases e with
  | labeled i label pick body =>
    cases label with
    | none => exact h
    | some label => exact h.bind hv label.val
  | _ => exact h

end Env.Holds

namespace Machine

/-- The program that runs code which holds its constants. -/
def Setting.program (c : Setting) (rules : Array (Option (RuleCode Inline))) (cache trace : Bool) : Program Inline where
  rules := rules
  literal := .ok
  charClass := .ok
  expectation := .ok
  function := c.function
  defect := .noCode
  cache := cache
  trace := trace

section Operators

variable {c : Setting} {rules : Array (Option (RuleCode Inline))} {cache trace : Bool}
  {R : RuleId → Act HostFunction} {s : Stack} {m : MatchResult} {A B : Act HostFunction} {a b : Code Inline}

/-! ## Terminals -/

theorem yields_failing (e : Expectation) :
    Yields (c.program rules cache trace) R [.fail e] s s (.failing e) :=
  yields_change rfl (fun _ => rfl) (fun _ => rfl)

theorem yields_ofLiteral (value : String) (ignoreCase : Bool) :
    Yields (c.program rules cache trace) R (Code.ofLiteral m value ignoreCase) s s
      (if value = "" then .pure (.str "")
      else if ignoreCase then
        .read fun st =>
          if m.holds (st.matchStringIc (Case.lower value)) then .change (·.acceptStringIc (Case.lower value))
          else .failing (.literal value ignoreCase)
      else
        .read fun st =>
          if m.holds (st.matchString value) then .change (·.acceptString value)
          else .failing (.literal value ignoreCase)) := by
  unfold Code.ofLiteral
  split
  · exact yields_pushEmptyString (yields_nil _)
  · split
    · exact yields_branch m _ _ (fun _ => rfl) (yields_change rfl (fun _ => rfl) (fun _ => rfl)) (yields_failing _)
    · exact yields_branch m _ _ (fun _ => rfl) (yields_change rfl (fun _ => rfl) (fun _ => rfl)) (yields_failing _)

theorem yields_ofClass (k : CharClass) :
    Yields (c.program rules cache trace) R (Code.ofClass m k) s s
      (.read fun st => if m.holds (st.matchClass k) then .change (·.acceptN 1) else .failing (.charClass k)) :=
  yields_branch m _ _ (fun _ => rfl) (yields_change rfl (fun _ => rfl) (fun _ => rfl)) (yields_failing _)

theorem yields_ofAny :
    Yields (c.program rules cache trace) R (Code.ofAny m) s s
      (.read fun st => if m.holds st.matchAny then .change (·.acceptN 1) else .failing .any) :=
  yields_branch m _ _ (fun _ => rfl) (yields_change rfl (fun _ => rfl) (fun _ => rfl)) (yields_failing _)

/-! ## Around an operand -/

theorem yields_ofLookahead {negative : Bool}
    (h : ∀ q, Yields (c.program rules cache trace) R a (.pos q :: s) (.pos q :: s) A) :
    Yields (c.program rules cache trace) R (Code.ofLookahead m negative a) s s (.lookahead m negative A) := by
  unfold Code.ofLookahead
  simp only [List.append_assoc, List.cons_append, List.nil_append]
  cases negative with
  | true =>
    exact yields_pushPos fun q => yields_silence (yields_append (h q) fun v => yields_unsilence
      (yields_branch_isError (yields_pop (yields_pop (yields_pushNull (yields_nil _))))
        (yields_pop (yields_popPos (yields_pushFailed (yields_nil _))))))
  | false =>
    exact yields_pushPos fun q => yields_silence (yields_append (h q) fun v => yields_unsilence
      (yields_branch_isOk (yields_pop (yields_popPos (yields_pushNull (yields_nil _))))
        (yields_pop (yields_pop (yields_pushFailed (yields_nil _))))))

theorem yields_ofNamed {name : String} (h : Yields (c.program rules cache trace) R a s s A) :
    Yields (c.program rules cache trace) R (Code.ofNamed m name a) s s (.named m name A) := by
  unfold Code.ofNamed
  simp only [List.append_assoc, List.cons_append, List.nil_append]
  exact yields_silence (yields_append h fun v =>
    yields_unsilence (yields_branch_isError (yields_pop (yields_failing _)) (yields_nil v)))

theorem yields_ofText (h : ∀ q, Yields (c.program rules cache trace) R a (.pos q :: s) (.pos q :: s) A) :
    Yields (c.program rules cache trace) R (Code.ofText m a) s s (.text m A) := by
  unfold Code.ofText
  simp only [List.cons_append, List.nil_append]
  exact yields_pushPos fun q => yields_append (h q) fun v =>
    yields_branch_isOk (yields_pop (yields_text fun w => yields_nil w)) (yields_nip (yields_nil v))

theorem yields_ofOptional (h : Yields (c.program rules cache trace) R a s s A) :
    Yields (c.program rules cache trace) R (Code.ofOptional m a) s s (.optional m A) :=
  yields_append h fun v => yields_branch_isError (yields_pop (yields_pushNull (yields_nil _))) (yields_nil v)

theorem yields_ofZeroOrMore (h : ∀ x, Yields (c.program rules cache trace) R a (x :: s) (x :: s) A) :
    Yields (c.program rules cache trace) R (Code.ofZeroOrMore a) s s (.zeroOrMore A) := by
  unfold Code.ofZeroOrMore
  simp only [List.cons_append, List.nil_append]
  exact yields_pushEmptyArray (yields_append (h _) fun v => yields_collect (fun _ => h _) [] v)

theorem yields_ofOneOrMore (h : ∀ x, Yields (c.program rules cache trace) R a (x :: s) (x :: s) A) :
    Yields (c.program rules cache trace) R (Code.ofOneOrMore m a) s s (.oneOrMore m A) := by
  unfold Code.ofOneOrMore
  simp only [List.cons_append, List.nil_append]
  exact yields_pushEmptyArray (yields_append (h _) fun v =>
    yields_branch_isOk (yields_collect (fun _ => h _) [] v) (yields_pop (yields_pop (yields_pushFailed (yields_nil _)))))

/-! ## Host code -/

theorem yields_callHost {kind : FunctionKind} {code : HostCode} {env : Env} {ls : Labels} {pop : Nat}
    {base : Stack} {A : Value → Act HostFunction} (henv : env.Holds ls s) (hpop : pop ≤ s.length)
    (rest : ∀ v, Yields (c.program rules cache trace) R a (.value v :: s.drop pop) base (A v)) :
    Yields (c.program rules cache trace) R (Code.callHost kind code env s.length pop ++ a) s base
      ((c.call kind code ls).bind A) := by
  unfold Setting.call
  rw [Code.callHost_eq henv.lt, henv.params]
  exact yields_call henv.values hpop rest

/-- A call at the end of code. -/
theorem yields_callHost_last {kind : FunctionKind} {code : HostCode} {env : Env} {ls : Labels} {pop : Nat}
    (henv : env.Holds ls s) (hpop : pop ≤ s.length) :
    Yields (c.program rules cache trace) R (Code.callHost kind code env s.length pop) s (s.drop pop)
      (c.call kind code ls) := by
  intro st cs s' st'
  rw [← List.append_nil (Code.callHost ..), yields_callHost henv hpop (fun v => yields_nil v)]
  refine exists_congr fun v => and_congr_right fun _ => ?_
  constructor
  · rintro ⟨cs₁, w, st₁, cs₂, h, ⟨rfl, rfl, rfl⟩, rfl⟩
    rw [List.append_nil]; exact h
  · intro h; exact ⟨cs, v, st', [], h, ⟨rfl, rfl, rfl⟩, (List.append_nil _).symm⟩

theorem yields_ofPredicate {code : HostCode} {negative : Bool} {env : Env} {ls : Labels} (henv : env.Holds ls s) :
    Yields (c.program rules cache trace) R (Code.ofPredicate code negative env s.length) s s
      (c.predicate code negative ls) := by
  unfold Code.ofPredicate
  simp only [List.cons_append, List.nil_append]
  refine yields_updateSavedPos (yields_callHost henv (Nat.zero_le _) fun v => ?_)
  have value (w : Value) : Yields (c.program rules cache trace) R
      ([.pop, if w.isFailed then .pushFailed else .pushNull] ++ []) (.value v :: s) s
        (.pure (if w.isFailed then .failed else .null)) := by
    cases w.isFailed
    · exact yields_pop (yields_pushNull (yields_nil _))
    · exact yields_pop (yields_pushFailed (yields_nil _))
  have h := yields_cond .isTrue (fun _ => v.truthy) (fun _ => rfl)
    (value (if negative then .failed else .null)) (value (if negative then .null else .failed))
  cases negative <;> cases hv : v.truthy <;> simp only [hv] at h <;> exact h

theorem yields_ofAction {code : HostCode} {env : Env} {ls : Labels} {body : Expr} (henv : env.Holds ls s)
    (h : ∀ q, Yields (c.program rules cache trace) R a (.pos q :: s) (.pos q :: s) A) :
    Yields (c.program rules cache trace) R (Code.ofAction m code (env.after body (s.length + 1)) s.length a) s s
      (.read fun st => A.bind fun v =>
        if m.holds (!v.isFailed) then c.action st.pos code (ls.after body v) else .pure v) := by
  unfold Code.ofAction
  simp only [List.append_assoc, List.cons_append, List.nil_append]
  refine yields_pushPos (p := c.program rules cache trace) (A := fun q => A.bind fun v =>
    if m.holds (!v.isFailed) then c.action q code (ls.after body v) else .pure v) fun q => ?_
  refine yields_append (h q) fun v => ?_
  refine yields_append_pure (yields_branch_isOk (yields_loadSavedPos rfl ?_) (yields_nil v))
    fun w => yields_nip (yields_nil w)
  exact yields_callHost_last (((henv.push_one _).push_one _).after (reverse_slot_top _ _) body) (by simp)

/-! ## Repetitions -/

theorem yields_delimited {ofDelimiter ofBody : MatchResult}
    (ha : ∀ q, Yields (c.program rules cache trace) R a (.pos q :: s) (.pos q :: s) A)
    (hb : ∀ q, Yields (c.program rules cache trace) R b (.pos q :: s) (.pos q :: s) B) :
    Yields (c.program rules cache trace) R (Code.delimited ofDelimiter ofBody a b) s s
      (.delimited ofDelimiter ofBody A B) := by
  unfold Code.delimited
  simp only [List.cons_append, List.nil_append]
  refine yields_pushPos (p := c.program rules cache trace) (A := fun q => A.bind fun v =>
    if ofDelimiter.holds (!v.isFailed) then
      B.bind fun w => if ofBody.holds (!w.isFailed) then .pure w else .backTo q .failed
    else .pure v) fun q => ?_
  refine yields_append (ha q) fun v => yields_branch_isOk (yields_pop (yields_append (hb q) fun w => ?_))
    (yields_nip (yields_nil v))
  exact yields_branch_isError (yields_pop (yields_popPos (yields_pushFailed (yields_nil _)))) (yields_nip (yields_nil w))

/-- The bound is what the limit finds on the stack. -/
def Finds (s : Stack) : Code.Limit → Count → Prop
  | .fixed n, .fixed m => n = m
  | .slot i, .given v => s.reverse[i]? = some (.value v)
  | _, _ => False

theorem Finds.push {l : Code.Limit} {n : Count} (h : Finds s l n) (top : Stack) : Finds (top ++ s) l n := by
  cases l <;> cases n
  · exact h
  · exact h
  · exact h
  · exact reverse_slot_push h top

/-- A bound on the stack is at its distance from the array above. -/
theorem value_below {i : Nat} {v w : Value} (h : s.reverse[i]? = some (.value v)) :
    Stack.value (.value w :: s) (s.length - i) = .ok v :=
  value_of_getElem (slot_below_top h _)

theorem yields_unlessFull {l : Code.Limit} {n : Count} (hl : Finds s l n) (vs : List Value)
    (h : Yields (c.program rules cache trace) R a (.value (.array vs) :: s) (.value (.array vs) :: s) A) :
    Yields (c.program rules cache trace) R (Code.unlessFull l s.length a) (.value (.array vs) :: s)
      (.value (.array vs) :: s) (.unlessFull n.most vs.length A) := by
  have full : Yields (c.program rules cache trace) R ([.pushFailed] ++ []) (.value (.array vs) :: s)
      (.value (.array vs) :: s) (.pure .failed) := yields_pushFailed (yields_nil _)
  have rest : Yields (c.program rules cache trace) R (a ++ []) (.value (.array vs) :: s)
      (.value (.array vs) :: s) A := by rw [List.append_nil]; exact h
  cases l with
  | fixed k =>
    cases n with
    | given v => exact hl.elim
    | fixed k' =>
      cases hl
      cases k with
      | none => exact h
      | some k => exact yields_cond (.atLeast k) (fun _ => decide (k ≤ vs.length)) (fun _ => rfl) full rest
  | slot i =>
    cases n with
    | fixed k => exact hl.elim
    | given v =>
      refine yields_cond (.atLeastThan (s.length - i))
        (fun _ => decide (v.count?.getD Value.maxCount ≤ vs.length)) (fun st => ?_) full rest
      show lift (comparesTo _ _ _) st = _
      unfold comparesTo
      rw [value_below hl]
      rfl

/-- Whether the array on top is too short. -/
theorem check_tooFew {l : Code.Limit} {n : Count} (hl : Finds s l n) (w : Value) (st : ParseState) :
    check (c.program rules cache trace) (Code.tooFew l s.length) (.value w :: s) st =
      .ok (decide (w.size < n.least)) st := by
  cases l with
  | fixed k =>
    cases n with
    | given v => exact hl.elim
    | fixed k' => cases hl; rfl
  | slot i =>
    cases n with
    | fixed k => exact hl.elim
    | given v =>
      show lift (comparesTo _ _ _) st = _
      unfold comparesTo
      rw [value_below hl]
      rfl

/-- The array of a repetition is filled, and then something is done with it. -/
theorem yields_filled {l : Code.Limit} {n : Count} {first item tail : Code Inline} {F I : Act HostFunction}
    {D : Value → Act HostFunction} {base : Stack} (hl : Finds s l n)
    (hF : ∀ x, Yields (c.program rules cache trace) R first (x :: s) (x :: s) F)
    (hI : ∀ x, Yields (c.program rules cache trace) R item (x :: s) (x :: s) I)
    (hD : ∀ w, Yields (c.program rules cache trace) R tail (.value w :: s) base (D w)) :
    Yields (c.program rules cache trace) R
      (.pushEmptyArray :: (Code.unlessFull l s.length first ++
        (Code.collect (Code.unlessFull l s.length item) ++ tail))) s base
      ((Act.unlessFull n.most 0 F).bind fun v =>
        (Act.Collects (fun k => .unlessFull n.most k I) [] v).bind D) :=
  yields_pushEmptyArray (yields_append (yields_unlessFull hl [] (hF _)) fun v =>
    yields_append (yields_collect (fun vs => yields_unlessFull hl vs (hI _)) [] v) hD)

/-- A bound is made ready on the stack, and then something is done with it. -/
theorem yields_prepare {env : Env} {ls : Labels} {base : Stack} {D : Count → Act HostFunction}
    (henv : env.Holds ls s) (bound : Boundary)
    (rest : ∀ n top, top.length = Code.slotsOf bound → Finds (top ++ s) (Code.limitOf env s.length bound) n →
      Yields (c.program rules cache trace) R a (top ++ s) base (D n)) :
    Yields (c.program rules cache trace) R (Code.prepare env s.length bound ++ a) s base (c.withBound ls bound D) := by
  cases bound with
  | constant k => exact rest (.fixed k) [] rfl rfl
  | computed code =>
    exact yields_callHost henv (Nat.zero_le _) fun v => rest (.given v) [.value v] rfl (reverse_slot_top s _)
  | label name =>
    cases hs : env.lookup name.val with
    | none =>
      simp only [Code.prepare, Setting.withBound, hs, henv.lookup_none.1 hs, Option.isSome_none, Bool.false_eq_true,
        if_false]
      exact yields_defect
    | some slot =>
      obtain ⟨v, hv, hslot⟩ := henv.lookup_some hs
      simp only [Code.prepare, Setting.withBound, hs, hv, Option.isSome_some, if_true, List.nil_append]
      refine rest (.given v) [] rfl ?_
      unfold Code.limitOf
      simp only [hs]
      exact hslot

theorem yields_prepareBounds {env : Env} {ls : Labels} {base : Stack} {min : Option Boundary} {max : Boundary}
    {D : Nat → Option Nat → Act HostFunction} (henv : env.Holds ls s)
    (rest : ∀ m n top, top.length = Code.boundSlots min max →
      Finds (top ++ s) (Code.least min max env s.length) m → Finds (top ++ s) (Code.most min max env s.length) n →
      Yields (c.program rules cache trace) R a (top ++ s) base (D m.least n.most)) :
    Yields (c.program rules cache trace) R (Code.prepareBounds min max env s.length ++ a) s base
      (c.withBounds ls min max D) := by
  cases min with
  | none =>
    refine yields_prepare henv max fun n top hlen hn => rest n n top ?_ hn hn
    rw [hlen]; exact (Nat.zero_add _).symm
  | some min =>
    unfold Code.prepareBounds Setting.withBounds
    simp only [Option.elim_some, List.append_assoc]
    refine yields_prepare henv min fun m top hlen hm => ?_
    have hsize : s.length + Code.slotsOf min = (top ++ s).length := by rw [List.length_append, hlen, Nat.add_comm]
    rw [hsize]
    refine yields_prepare (henv.push top) max fun n top' hlen' hn => ?_
    rw [← List.append_assoc] at hn ⊢
    refine rest m n (top' ++ top) ?_ ?_ ?_
    · rw [List.length_append, hlen, hlen', Nat.add_comm]; rfl
    · rw [List.append_assoc]; exact hm.push top'
    · unfold Code.most
      simp only [Option.elim_some, hsize]
      exact hn

theorem yields_ofRepeated {env : Env} {ls : Labels} {min : Option Boundary} {max : Boundary}
    {first item : Code Inline} {F I : Act HostFunction} (henv : env.Holds ls s)
    (hF : ∀ top : Stack, (top ++ s).length = Code.arraySlot min max s.length + 1 →
      Yields (c.program rules cache trace) R first (top ++ s) (top ++ s) F)
    (hI : ∀ top : Stack, (top ++ s).length = Code.arraySlot min max s.length + 1 →
      Yields (c.program rules cache trace) R item (top ++ s) (top ++ s) I) :
    Yields (c.program rules cache trace) R (Code.ofRepeated min max env s.length first item) s s
      (c.withBounds ls min max fun least most => .counted (Code.needsLeast min max) least most F I) := by
  unfold Code.ofRepeated
  dsimp only
  rw [Code.reach_bounds henv.lt]
  simp only [List.append_assoc, List.cons_append, List.nil_append]
  refine yields_prepareBounds henv fun m n top hlen hm hn => ?_
  rw [← hlen]
  unfold Code.arraySlot at hF hI ⊢
  -- where too few items can be a failure, there is a position below the array to go back to
  cases needs : Code.needsLeast min max with
  | true =>
    simp only [needs, if_true, ← hlen] at hF hI ⊢
    refine yields_pushPos (p := c.program rules cache trace) (A := fun q =>
      (Act.unlessFull n.most 0 F).bind fun v => (Act.Collects (fun k => .unlessFull n.most k I) [] v).bind fun w =>
        if (true && decide (w.size < m.least)) = true then .backTo q .failed else .pure w) fun q => ?_
    have hsize : s.length + top.length + 1 = (.pos q :: (top ++ s) : Stack).length := by
      rw [List.length_cons, List.length_append, Nat.add_comm top.length]
    rw [hsize]
    refine yields_filled (hn.push [.pos q]) (fun x => hF (x :: .pos q :: top) ?_) (fun x => hI (x :: .pos q :: top) ?_)
      fun w => ?_
    · simp only [List.cons_append, List.length_cons, List.length_append]; omega
    · simp only [List.cons_append, List.length_cons, List.length_append]; omega
    · have short : Yields (c.program rules cache trace) R
          [.cond (Code.tooFew (Code.least min max env s.length) (.pos q :: (top ++ s) : Stack).length)
            [.pop, .popPos, .pushFailed] [.nip]] (.value w :: .pos q :: (top ++ s)) (top ++ s)
          (.read fun _ => if decide (w.size < m.least) = true then .backTo q .failed else .pure w) :=
        yields_cond _ _ (fun st => check_tooFew (hm.push [.pos q]) w st)
          (yields_pop (yields_popPos (yields_pushFailed (yields_nil _)))) (yields_nip (yields_nil w))
      rw [Bool.true_and]
      exact yields_append_pure short fun v => yields_nips top
  | false =>
    simp only [needs, Bool.false_eq_true, if_false, ← hlen] at hF hI ⊢
    have hsize : s.length + top.length + 0 = (top ++ s).length := by
      rw [List.length_append, Nat.add_comm top.length, Nat.add_zero]
    rw [hsize]
    refine yields_filled hn (fun x => hF (x :: top) ?_) (fun x => hI (x :: top) ?_) fun w => yields_nips top
    · simp only [List.cons_append, List.length_cons, List.length_append]; omega
    · simp only [List.cons_append, List.length_cons, List.length_append]; omega

/-! ## Sequences -/

/-- The picked values are in their slots, which are different and lie above a sequence's position. -/
structure Picks (picks : List Nat) (picked : List Value) (floor : Nat) (s : Stack) : Prop where
  found : List.Forall₂ (fun slot v => s.reverse[slot]? = some (.value v)) picks picked
  distinct : picks.Nodup
  above : ∀ slot ∈ picks, floor < slot

namespace Picks

theorem none (floor : Nat) : Picks [] [] floor s := ⟨.nil, .nil, by simp⟩

theorem lt {picks : List Nat} {picked : List Value} {floor : Nat} (h : Picks picks picked floor s) :
    ∀ slot ∈ picks, slot < s.length := by
  intro slot hslot
  obtain ⟨i, hi, rfl⟩ := List.mem_iff_getElem.1 hslot
  have hv := List.forall₂_iff_get.1 h.found
  exact slot_lt (hv.2 i hi (hv.1 ▸ hi))

/-- The value of the next element, on top of the stack, is picked if the element is marked. -/
theorem next {picks : List Nat} {picked : List Value} {floor : Nat} (h : Picks picks picked floor s)
    (hfloor : floor < s.length) (e : Expr) (v : Value) :
    Picks (pickAfter picks e s.length) (pickedAfter picked e v) floor (.value v :: s) := by
  have pushed : Picks picks picked floor (.value v :: s) :=
    ⟨h.found.imp fun _ _ hb => reverse_slot_push hb [_], h.distinct, h.above⟩
  have added : Picks (picks ++ [s.length]) (picked ++ [v]) floor (.value v :: s) := by
    refine ⟨List.rel_append pushed.found (.cons (reverse_slot_top _ _) .nil), ?_, ?_⟩
    · refine List.nodup_append.2 ⟨h.distinct, List.nodup_singleton _, fun x hx y hy => ?_⟩
      rw [List.mem_singleton.1 hy]
      exact Nat.ne_of_lt (h.lt x hx)
    · intro slot hslot
      rcases List.mem_append.1 hslot with hs | hs
      · exact h.above slot hs
      · rw [List.mem_singleton.1 hs]; exact hfloor
  cases e with
  | labeled i label pick body =>
    cases pick with
    | true => exact added
    | false => exact pushed
  | _ => exact pushed

theorem isEmpty_eq {picks : List Nat} {picked : List Value} {floor : Nat} (h : Picks picks picked floor s) :
    picks.isEmpty = picked.isEmpty := by
  cases h.found <;> rfl

end Picks

theorem yields_finish {action : Option HostCode} {start : Nat} {env : Env} {ls : Labels}
    {values picked : List Value} {picks : List Nat}
    (henv : env.Holds ls (ofValues values ++ .pos start :: s))
    (hpicks : Picks picks picked s.length (ofValues values ++ .pos start :: s)) :
    Yields (c.program rules cache trace) R
      (Code.finish action values.length (ofValues values ++ .pos start :: s).length env picks)
      (ofValues values ++ .pos start :: s) s (c.finish action start ls values picked) := by
  have hlen : (ofValues values ++ .pos start :: s).length = values.length + 1 + s.length := by
    rw [List.length_append, ofValues_length, List.length_cons]; omega
  have hle : values.length + 1 ≤ (ofValues values ++ .pos start :: s).length := by omega
  have hdrop : (ofValues values ++ .pos start :: s).drop (values.length + 1) = s := by
    rw [← ofValues_length values, List.drop_append, List.drop_of_length_le (by omega), List.nil_append,
      Nat.add_sub_cancel_left]; rfl
  unfold Code.finish Setting.finish
  rw [hpicks.isEmpty_eq]
  -- picked values are what the sequence gives, and its action is not called
  cases hp : picked.isEmpty with
  | true =>
    simp only [Bool.not_true, Bool.false_eq_true, if_false, if_true]
    cases action with
    | none => exact yields_wrap (yields_nip (yields_nil _))
    | some code =>
      have start_at : (ofValues values ++ .pos start :: s)[values.length]? = some (.pos start) := by
        rw [List.getElem?_append_right (Nat.le_of_eq (ofValues_length _)), ofValues_length, Nat.sub_self]; rfl
      have last : Yields (c.program rules cache trace) R
          (Code.callHost .action code env (ofValues values ++ .pos start :: s).length (values.length + 1))
          (ofValues values ++ .pos start :: s) ((ofValues values ++ .pos start :: s).drop (values.length + 1))
          (c.call .action code ls) := yields_callHost_last henv hle
      rw [hdrop] at last
      exact yields_loadSavedPos start_at last
  | false =>
    simp only [Bool.not_false, if_true, Bool.false_eq_true, if_false]
    have hd : ∀ d ∈ picks.map fun slot => (ofValues values ++ .pos start :: s).length - 1 - slot,
        d < values.length + 1 := by
      intro d hd
      obtain ⟨slot, hslot, rfl⟩ := List.mem_map.1 hd
      have := hpicks.above slot hslot
      omega
    have found : List.Forall₂ (fun d v => (ofValues values ++ .pos start :: s)[d]? = some (.value v))
        (picks.map fun slot => (ofValues values ++ .pos start :: s).length - 1 - slot) picked := by
      rw [List.forall₂_map_left_iff]
      exact hpicks.found.imp fun _ _ hb => slot_at_distance hb
    rw [Code.reach_eq_nil hpicks.lt]
    refine yields_pluck found ?_ hd hle ?_
    · refine List.Nodup.map_on (fun x hx y hy hxy => ?_) hpicks.distinct
      have := hpicks.lt x hx
      have := hpicks.lt y hy
      omega
    · rw [hdrop]; exact yields_nil _

/-- An element failed, and the sequence is undone. -/
theorem yields_abandon {start : Nat} {values : List Value} (v : Value) :
    Yields (c.program rules cache trace) R (Code.abandon values.length)
      (.value v :: (ofValues values ++ .pos start :: s)) s (.backTo start .failed) := by
  unfold Code.abandon
  split
  · rename_i h
    cases List.length_eq_zero_iff.1 h
    exact yields_pop (yields_popPos (yields_pushFailed (yields_nil _)))
  · have popped : Yields (c.program rules cache trace) R [.popN (values.length + 1), .popPos, .pushFailed]
        ((.value v :: ofValues values) ++ .pos start :: s) s (.backTo start .failed) :=
      yields_popN (by rw [List.length_cons, ofValues_length]) (yields_popPos (yields_pushFailed (yields_nil _)))
    exact popped

/-! ## Expressions -/

/-- The code of an expression does what the expression means, wherever on the stack the labels are. -/
def Does (c : Setting) (rules : Array (Option (RuleCode Inline))) (cache trace : Bool) (R : RuleId → Act HostFunction)
    (e : Expr) : Prop :=
  ∀ (env : Env) (ls : Labels) (s : Stack), env.Holds ls s →
    Yields (c.program rules cache trace) R (Code.ofExpr c.toPlan e env s.length) s s (c.meaning R e ls)

/-- The alternatives after one that left a value do what they mean. -/
theorem yields_ofOthers {others : List Expr}
    (ih : ∀ e ∈ others, Does c rules cache trace R e)
    (before : MatchResult) {env : Env} {ls : Labels} (henv : env.Holds ls s) (v : Value) :
    Yields (c.program rules cache trace) R (Code.ofOthers c.toPlan before others env s.length) (.value v :: s) s
      (c.meaningOthers R others ls before v) := by
  induction others generalizing before v with
  | nil => exact yields_nil v
  | cons e es ihs =>
    unfold Code.ofOthers Setting.meaningOthers
    simp only [List.singleton_append]
    refine yields_branch_isError (yields_pop ?_) (yields_nil v)
    exact yields_append (ih e List.mem_cons_self env ls s henv) fun w =>
      ihs (fun e' he => ih e' (List.mem_cons_of_mem _ he)) _ w

/-- The elements of a sequence after others with these values do what they mean. -/
theorem yields_ofElements {action : Option HostCode} {start : Nat} {elements : List Expr}
    (ih : ∀ e ∈ elements, Does c rules cache trace R e)
    {env : Env} {ls : Labels} {values picked : List Value} {picks : List Nat}
    (henv : env.Holds ls (ofValues values ++ .pos start :: s))
    (hpicks : Picks picks picked s.length (ofValues values ++ .pos start :: s)) :
    Yields (c.program rules cache trace) R
      (Code.ofElements c.toPlan action elements values.length env picks (ofValues values ++ .pos start :: s).length)
      (ofValues values ++ .pos start :: s) s (c.meaningElements R action start elements ls values picked) := by
  induction elements generalizing env ls values picked picks with
  | nil => exact yields_finish henv hpicks
  | cons e es ihs =>
    unfold Code.ofElements Setting.meaningElements
    refine yields_append (ih e List.mem_cons_self env ls _ henv) fun v => yields_branch_isOk ?_ (yields_abandon v)
    have hfloor : s.length < (ofValues values ++ .pos start :: s).length := by
      rw [List.length_append, List.length_cons]; omega
    have henv' := (henv.push_one (.value v)).after (reverse_slot_top _ _) e
    have hpicks' := hpicks.next hfloor e v
    rw [← List.cons_append, ← ofValues_concat] at henv' hpicks' ⊢
    have next := ihs (fun e' he => ih e' (List.mem_cons_of_mem _ he)) henv' hpicks'
    rw [ofValues_concat, List.length_append] at next
    rw [ofValues_concat]
    exact next

theorem yields_sequence {action : Option HostCode} {elements : List Expr}
    (ih : ∀ e ∈ elements, Does c rules cache trace R e) {env : Env} {ls : Labels} (henv : env.Holds ls s) :
    Yields (c.program rules cache trace) R
      ([.pushPos] ++ Code.ofElements c.toPlan action elements 0 env [] (s.length + 1)) s s
      (.read fun st => c.meaningElements R action st.pos elements ls [] []) := by
  refine yields_pushPos (p := c.program rules cache trace)
    (A := fun q => c.meaningElements R action q elements ls [] []) fun q => ?_
  have h : Env.Holds env ls (ofValues [] ++ .pos q :: s) := henv.push_one _
  exact yields_ofElements ih h (.none _)

/-- The code of an expression does what the expression means. -/
theorem yields_ofExpr (e : Expr) : Does c rules cache trace R e := by
  induction e using Expr.induction with
  | choice i first others ihFirst ihOthers =>
    intro env ls s henv
    unfold Code.ofExpr Setting.meaning
    exact yields_mark (yields_append (ihFirst env ls s henv) fun v => yields_ofOthers ihOthers _ henv v)
  | sequence i elements ih =>
    intro env ls s henv
    unfold Code.ofExpr Setting.meaning
    exact yields_mark (yields_sequence ih henv)
  | labeled i label pick body ih | group i body ih =>
    intro env ls s henv
    unfold Code.ofExpr Setting.meaning
    exact yields_mark (ih env ls s henv)
  | action i body code ih ihElements =>
    intro env ls s henv
    refine Expr.action_cases body (fun j elements hb => ?_) fun hb => ?_
    · subst hb
      unfold Code.ofExpr Setting.meaning
      exact yields_mark (yields_mark (yields_sequence ihElements henv))
    · rw [Code.ofExpr, Setting.meaning]
      · exact yields_mark (yields_ofAction henv fun q => ih env ls (.pos q :: s) (henv.push_one _))
      all_goals exact hb
  | text i body ih =>
    intro env ls s henv
    unfold Code.ofExpr Setting.meaning
    exact yields_mark (yields_ofText fun q => ih env ls _ (henv.push_one _))
  | simpleAnd i body ih | simpleNot i body ih =>
    intro env ls s henv
    unfold Code.ofExpr Setting.meaning
    exact yields_mark (yields_ofLookahead fun q => ih env ls _ (henv.push_one _))
  | semanticAnd i code | semanticNot i code =>
    intro env ls s henv
    unfold Code.ofExpr Setting.meaning
    exact yields_mark (yields_ofPredicate henv)
  | optional i body ih =>
    intro env ls s henv
    unfold Code.ofExpr Setting.meaning
    exact yields_mark (yields_ofOptional (ih env ls s henv))
  | zeroOrMore i body ih =>
    intro env ls s henv
    unfold Code.ofExpr Setting.meaning
    exact yields_mark (yields_ofZeroOrMore fun x => ih env ls _ (henv.push_one _))
  | oneOrMore i body ih =>
    intro env ls s henv
    unfold Code.ofExpr Setting.meaning
    exact yields_mark (yields_ofOneOrMore fun x => ih env ls _ (henv.push_one _))
  | repeated i body min max delimiter ih ihDelimiter =>
    intro env ls s henv
    cases delimiter with
    | none =>
      unfold Code.ofExpr Setting.meaning
      refine yields_mark (yields_ofRepeated henv (fun top hlen => ?_) fun top hlen => ?_)
      · rw [← hlen]; exact ih env ls _ (henv.push top)
      · rw [← hlen]; exact ih env ls _ (henv.push top)
    | some delimiter =>
      unfold Code.ofExpr Setting.meaning
      -- above the bounds and the array there is one position more, to go back to after a delimiter
      refine yields_mark (yields_ofRepeated henv (fun top hlen => ?_) fun top hlen => yields_delimited (fun q => ?_)
        fun q => ?_)
      · rw [← hlen]; exact ih env ls _ (henv.push top)
      · have h := ihDelimiter delimiter rfl env ls (.pos q :: (top ++ s)) ((henv.push top).push_one _)
        rw [List.length_cons, hlen] at h
        exact h
      · have h := ih env ls (.pos q :: (top ++ s)) ((henv.push top).push_one _)
        rw [List.length_cons, hlen] at h
        exact h
  | ruleRef i name target =>
    intro env ls s henv
    cases target with
    | none => unfold Code.ofExpr Setting.meaning; exact yields_mark yields_defect
    | some target => unfold Code.ofExpr Setting.meaning; exact yields_mark yields_rule
  | literal i value ignoreCase =>
    intro env ls s henv
    unfold Code.ofExpr Setting.meaning
    exact yields_mark (yields_ofLiteral value ignoreCase)
  | charClass i k =>
    intro env ls s henv
    unfold Code.ofExpr Setting.meaning
    exact yields_mark (yields_ofClass k)
  | any i =>
    intro env ls s henv
    unfold Code.ofExpr Setting.meaning
    exact yields_mark yields_ofAny
  | named i name body ih =>
    intro env ls s henv
    unfold Code.ofExpr Setting.meaning
    exact yields_mark (yields_ofNamed (ih env ls s henv))

/-- The code of a rule does what the rule means. -/
theorem yields_ofRule (r : Rule) :
    Yields (c.program rules cache trace) R (Code.ofRule c.toPlan r) [] [] (c.ofRule R r) := by
  unfold Code.ofRule Setting.ofRule
  cases r.displayName with
  | none => exact yields_ofExpr r.body [] [] [] .nil
  | some name => exact yields_ofNamed (yields_ofExpr r.body [] [] [] .nil)

end Operators

end Machine

end PegCompiler
