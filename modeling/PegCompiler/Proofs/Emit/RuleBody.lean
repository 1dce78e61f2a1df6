/-
Code that the second walk along the stack accepts. `Leads` says of a computation that it comes from one
stack to another without a fault; every instruction has its lemma, and so has every way to put code
together. `Fits` says so of code whose constants are known.
-/
import PegCompiler.Code.OfExpr
import PegCompiler.Emit.RuleBody
import PegCompiler.Proofs.Code.Assembly

namespace PegCompiler

namespace RuleBody

variable {c : Context} {s s₁ s' : StackKinds} {α β : Type}

/-! ## Computations -/

/-- From one stack the computation comes to another without a fault, with as many places open. -/
def Leads (m : Following α) (s s' : StackKinds) : Prop :=
  ∀ p : Progress, p.stack = s → ∃ a p', m p = .ok (a, p') ∧ p'.stack = s' ∧ p'.opened = p.opened

theorem leads_pure (a : α) : Leads (pure a) s s := fun p hp => ⟨a, p, rfl, hp, rfl⟩

theorem Leads.bind {m : Following α} {f : α → Following β} (h : Leads m s s₁) (hf : ∀ a, Leads (f a) s₁ s') :
    Leads (m >>= f) s s' := by
  intro p hp
  obtain ⟨a, p₁, h₁, stack₁, opened₁⟩ := h p hp
  obtain ⟨b, p', h', stack', opened'⟩ := hf a p₁ stack₁
  refine ⟨b, p', ?_, stack', opened'.trans opened₁⟩
  show (do let x ← m p; f x.1 x.2 : Except EmitError (β × Progress)) = _
  rw [h₁]
  exact h'

theorem Leads.map {m : Following α} (h : Leads m s s') (f : α → β) :
    Leads (do let a ← m; return f a) s s' :=
  h.bind fun _ => leads_pure _

theorem leads_get {f : Progress → Following α} (h : ∀ p, p.stack = s → Leads (f p) s s') : Leads (get >>= f) s s' :=
  fun p hp => h p hp p hp

theorem leads_modify {f : Progress → Progress} (h : ∀ p, p.stack = s → (f p).stack = s' ∧ (f p).opened = p.opened) :
    Leads (modify f) s s' :=
  fun p hp => ⟨⟨⟩, f p, rfl, h p hp⟩

theorem leads_slot {kind : SlotKind} {d : Nat} (h : s[d]? = some kind) : Leads (slot c kind d) s s := by
  refine leads_get fun p hp => ?_
  have nonempty : s.isEmpty = false := by
    cases s with
    | nil => cases h
    | cons => rfl
  simp only [hp, nonempty, Bool.false_eq_true, if_false, h, if_true]
  exact leads_pure _

theorem leads_push (kind : SlotKind) (h : s.length ≤ c.limit) : Leads (push c kind) s (kind :: s) := by
  refine leads_get fun p hp => ?_
  rw [hp, if_neg (Nat.not_lt.2 h)]
  refine (leads_modify fun q hq => ?_).bind fun _ => leads_pure _
  cases kind <;> exact ⟨congrArg _ hq, rfl⟩

theorem leads_pop {n : Nat} (h : n ≤ s.length) : Leads (pop c n) s (s.drop n) := by
  refine leads_get fun p hp => ?_
  rw [hp, if_neg (Nat.not_lt.2 h)]
  exact leads_modify fun q hq => ⟨congrArg _ hq, rfl⟩

theorem leads_compute (what : Computation) (h : s.length ≤ c.limit) : Leads (compute c what) s (.value :: s) :=
  (leads_push .value h).map _

theorem leads_slots {ds : List Nat} (h : ∀ d ∈ ds, s[d]? = some .value) : Leads (ds.mapM (slot c .value)) s s := by
  induction ds with
  | nil => exact leads_pure _
  | cons d ds ih =>
    rw [List.mapM_cons]
    exact (leads_slot (h d List.mem_cons_self)).bind fun _ => (ih fun d' hd => h d' (List.mem_cons_of_mem _ hd)).map _

theorem leads_topValues {n : Nat} (h : ∀ d < n, s[d]? = some .value) : Leads (topValues c n) s s := by
  induction n with
  | zero => exact leads_pure _
  | succ n ih => exact (leads_slot (h n n.lt_succ_self)).bind fun _ => (ih fun d hd => h d (Nat.lt_succ_of_lt hd)).map _

/-! ## Code -/

/-- The walk along the code comes from one stack to the other, if the constants of the code are known. -/
def Fits (c : Context) (code : Code Inline) (s s' : StackKinds) : Prop :=
  Code.Known c.constants code → Leads (block c (Code.raw (Code.link c.constants code))) s s'

theorem block_append (a b : Code Raw) :
    block c (a ++ b) = do let first ← block c a; let rest ← block c b; return first ++ rest := by
  induction a with
  | nil => simp [block]
  | cons i a ih => simp only [List.cons_append, block, ih, bind_assoc, pure_bind, List.append_assoc]

theorem fits_nil : Fits c [] s s := fun _ => leads_pure _

theorem Fits.append {a b : Code Inline} (ha : Fits c a s s₁) (hb : Fits c b s₁ s') : Fits c (a ++ b) s s' := by
  intro known
  obtain ⟨knownA, knownB⟩ := Code.known_append.1 known
  rw [Code.link_append, Code.raw_append, block_append]
  exact (ha knownA).bind fun _ => (hb knownB).map _

theorem Fits.cons {i : Instr Inline} {code : Code Inline} (hi : Fits c [i] s s₁) (h : Fits c code s₁ s') :
    Fits c (i :: code) s s' :=
  Fits.append (a := [i]) hi h

/-- One instruction. -/
theorem leads_block_singleton {i : Instr Raw} (h : Leads (instr c i) s s') : Leads (block c [i]) s s' :=
  h.bind fun _ => (leads_pure _).map _

/-! ## Instructions -/

/-- The instruction only pushes a value. -/
def isValue : Instr Inline → Bool
  | .pushEmptyString | .pushNull | .pushFailed | .pushEmptyArray | .acceptN _ | .acceptString _ | .acceptStringIc _
  | .fail _ => true
  | _ => false

theorem fits_value {i : Instr Inline} (hi : isValue i = true) (h : s.length ≤ c.limit) :
    Fits c [i] s (.value :: s) := fun _ => by
  cases i with
  | pushEmptyString | pushNull | pushFailed | pushEmptyArray | acceptN | acceptString | acceptStringIc | fail =>
    exact leads_block_singleton (leads_compute _ h)
  | _ => cases hi

theorem fits_pushPos (h : s.length ≤ c.limit) : Fits c [.pushPos] s (.pos :: s) := fun _ =>
  leads_block_singleton ((leads_push .pos h).map _)

theorem fits_pop {kind : SlotKind} : Fits c [.pop] (kind :: s) s := fun _ =>
  leads_block_singleton ((leads_pop (by simp)).map _)

theorem fits_popPos : Fits c [.popPos] (.pos :: s) s := fun _ =>
  leads_block_singleton ((leads_slot rfl).bind fun _ => (leads_pop (by simp)).map _)

theorem fits_popN (top : StackKinds) : Fits c [.popN top.length] (top ++ s) s := fun _ => by
  have popped : Leads (pop c top.length) (top ++ s) ((top ++ s).drop top.length) :=
    leads_pop (List.length_append ▸ Nat.le_add_right _ _)
  rw [List.drop_left] at popped
  exact leads_block_singleton (popped.map _)

theorem fits_nip {kind below : SlotKind} (h : s.length ≤ c.limit) : Fits c [.nip] (kind :: below :: s) (kind :: s) := by
  intro _
  refine leads_block_singleton (leads_get fun p hp => ?_)
  rw [hp]
  exact (leads_slot rfl).bind fun _ => (leads_pop (by simp)).bind fun _ => (leads_push kind h).map _

theorem fits_append : Fits c [.append] (.value :: .value :: s) (.value :: s) := fun _ =>
  leads_block_singleton ((leads_slot rfl).bind fun _ => (leads_slot rfl).bind fun _ => (leads_pop (by simp)).map _)

theorem fits_wrap {n : Nat} (h : s.length ≤ c.limit) : Fits c [.wrap n] (List.replicate n .value ++ s) (.value :: s) := by
  intro _
  have values : ∀ d < n, (List.replicate n SlotKind.value ++ s)[d]? = some .value := fun d hd => by
    rw [List.getElem?_append_left (by simpa using hd), List.getElem?_replicate, if_pos hd]
  have popped : Leads (pop c n) (List.replicate n .value ++ s) s := by
    have := leads_pop (c := c) (s := List.replicate n .value ++ s) (n := n) (by simp)
    rwa [List.drop_left' List.length_replicate] at this
  exact leads_block_singleton ((leads_topValues values).bind fun _ => popped.bind fun _ => leads_compute _ h)

theorem fits_text (h : s.length ≤ c.limit) : Fits c [.text] (.pos :: s) (.value :: s) := fun _ =>
  leads_block_singleton ((leads_slot rfl).bind fun _ => (leads_pop (by simp)).bind fun _ => leads_compute _ h)

theorem fits_pluck {n : Nat} {picks : List Nat} (hpicks : ∀ d ∈ picks, s[d]? = some .value) (hn : n ≤ s.length)
    (h : (s.drop n).length ≤ c.limit) : Fits c [.pluck n picks] s (.value :: s.drop n) := fun _ =>
  leads_block_singleton ((leads_slots hpicks).bind fun _ => (leads_pop hn).bind fun _ => leads_compute _ h)

theorem fits_loadSavedPos {d : Nat} (h : s[d]? = some .pos) : Fits c [.loadSavedPos d] s s := fun _ =>
  leads_block_singleton ((leads_slot h).map _)

theorem fits_updateSavedPos : Fits c [.updateSavedPos] s s := fun _ => leads_block_singleton (leads_pure _)

theorem fits_silence : Fits c [.silence] s s := fun _ => leads_block_singleton (leads_pure _)

theorem fits_unsilence : Fits c [.unsilence] s s := fun _ => leads_block_singleton (leads_pure _)

theorem fits_call {f : HostFunction} {n : Nat} {args : List Nat} (hargs : ∀ d ∈ args, s[d]? = some .value)
    (hn : n ≤ s.length) (h : (s.drop n).length ≤ c.limit) : Fits c [.call f n args] s (.value :: s.drop n) := by
  intro known
  refine leads_block_singleton ?_
  show Leads (call c (c.constants.functions.indexOf f) n args) s _
  unfold call
  rw [Pool.get?_indexOf known.1]
  exact (leads_slots hargs).bind fun _ => (leads_pop hn).bind fun _ => leads_compute _ h

theorem fits_rule {r : Nat} (hr : (c.ruleName? r).isSome = true) (h : s.length ≤ c.limit) :
    Fits c [.rule r] s (.value :: s) := by
  intro _
  obtain ⟨name, hname⟩ := Option.isSome_iff_exists.1 hr
  refine leads_block_singleton ?_
  show Leads (simple c (.rule r)) s _
  simp only [simple, hname]
  exact leads_compute _ h

/-- There is no code for a defect that is known. -/
theorem fits_defect {why : CodeError} : Fits c [.defect why] s s' := fun known => known.1.elim

/-! ## Blocks -/

/-- The distances of the values that a condition is about. -/
def tested : Test Inline → List Nat
  | .isTrue | .isError | .isOk | .fewer _ | .atLeast _ => [0]
  | .fewerThan d | .atLeastThan d => [0, d]
  | .anyChar | .string _ | .stringIc _ | .charClass _ => []

theorem leads_condition {t : Test Inline} (h : ∀ d ∈ tested t, s[d]? = some .value) :
    Leads (condition c (t.link c.constants).raw) s s := by
  cases t with
  | isTrue | isError | isOk | fewer | atLeast => exact (leads_slot (h 0 List.mem_cons_self)).map _
  | fewerThan d | atLeastThan d =>
    exact (leads_slot (h 0 List.mem_cons_self)).bind fun _ =>
      (leads_slot (h d (List.mem_cons_of_mem _ List.mem_cons_self))).map _
  | anyChar | string | stringIc | charClass => exact leads_pure _

theorem fits_cond {t : Test Inline} {yes no : Code Inline} (ht : ∀ d ∈ tested t, s[d]? = some .value)
    (hyes : Fits c yes s s') (hno : Fits c no s s') : Fits c [.cond t yes no] s s' := by
  intro known
  obtain ⟨⟨-, knownYes, knownNo⟩, -⟩ := known
  refine leads_block_singleton ?_
  show Leads (instr c (.cond (t.link c.constants).raw (Code.raw (Code.link c.constants yes))
    (Code.raw (Code.link c.constants no)))) s s'
  unfold instr
  refine (leads_condition ht).bind fun _ => leads_get fun p₀ hp₀ => (hyes knownYes).bind fun _ =>
    leads_get fun p₁ hp₁ => ?_
  -- the other block starts where the condition was checked
  have back : Leads (modify fun q => { q with stack := p₀.stack } : Following PUnit) s' s :=
    leads_modify fun q _ => ⟨hp₀, rfl⟩
  refine back.bind fun _ => (hno knownNo).bind fun _ => leads_get fun p₂ hp₂ => ?_
  rw [hp₁, hp₂, if_pos rfl]
  exact leads_pure _

theorem fits_branch {m : MatchResult} {t : Test Inline} {yes no : Code Inline}
    (ht : ∀ d ∈ tested t, s[d]? = some .value) (hyes : m ≠ .never → Fits c yes s s')
    (hno : m ≠ .always → Fits c no s s') : Fits c (Code.branch m t yes no) s s' := by
  cases m with
  | always => exact hyes (by decide)
  | never => exact hno (by decide)
  | sometimes => exact fits_cond ht (hyes (by decide)) (hno (by decide))

theorem fits_whileOk {body : Code Inline} (h : Fits c body (.value :: s) (.value :: s)) :
    Fits c [.whileOk body] (.value :: s) (.value :: s) := by
  intro known
  refine leads_block_singleton ?_
  show Leads (instr c (.whileOk (Code.raw (Code.link c.constants body)))) _ _
  unfold instr
  refine (leads_slot rfl).bind fun _ => leads_get fun p₀ hp₀ => (h known.1).bind fun _ => leads_get fun p₁ hp₁ => ?_
  rw [hp₀, hp₁, if_pos rfl]
  exact leads_pure _

/-- Code in a bracket: its place is open inside, and closed afterwards. -/
theorem block_bracket {inner : Code Raw} {i : Nat} {place : Span} (hi : c.constants.origins.get? i = some place)
    (p : Progress) : block c ([.mapPush i] ++ inner ++ [.mapPop]) p = (do
      let r ← block c inner { p with opened := p.opened + 1 }
      if r.2.opened = 0 then throw (.inRule c.rule .unbalancedMap)
      else return (.origin place :: (r.1 ++ [.endOrigin]), { r.2 with opened := r.2.opened - 1 })) := by
  have enter : instr c (.mapPush i) p = .ok ([.origin place], { p with opened := p.opened + 1 }) := by
    show simple c (.mapPush i) p = _
    simp only [simple, hi]
    rfl
  rw [block_append, block_append]
  simp only [block, bind_assoc, pure_bind, List.append_nil]
  show (do let x ← instr c (.mapPush i) p; _ : Except EmitError _) = _
  rw [enter]
  show (do let x ← block c inner { p with opened := p.opened + 1 }; _ : Except EmitError _) = _
  cases block c inner { p with opened := p.opened + 1 } with
  | error why => rfl
  | ok r =>
    show (do let x ← (if r.2.opened = 0 then refuse c .unbalancedMap
        else do
          modify fun p => { p with opened := p.opened - 1 }
          return [.endOrigin] : Following (List Statement)) r.2; _ : Except EmitError _) =
      if r.2.opened = 0 then _ else _
    split <;> rfl

theorem fits_bracket {place : Span} {code : Code Inline} (h : Fits c code s s') :
    Fits c ([.mapPush place] ++ code ++ [.mapPop]) s s' := by
  intro known p hp
  obtain ⟨known, -⟩ := Code.known_append.1 known
  obtain ⟨⟨knownPlace, -⟩, knownCode⟩ := Code.known_append.1 known
  obtain ⟨inner, q, hq, stack, opened⟩ := h knownCode { p with opened := p.opened + 1 } hp
  refine ⟨.origin place :: (inner ++ [.endOrigin]), { q with opened := q.opened - 1 }, ?_, stack, ?_⟩
  · rw [Code.link_append, Code.link_append, Code.raw_append, Code.raw_append]
    refine (block_bracket (Pool.get?_indexOf knownPlace) p).trans ?_
    rw [hq]
    exact if_neg (by rw [opened]; exact Nat.succ_ne_zero _)
  · show q.opened - 1 = p.opened
    rw [opened]; rfl

/-! ## Rules -/

/-- Code that leads from no slots to one value is a rule's body. -/
theorem Fits.ofCode {code : Code Inline} (h : Fits c code [] [.value]) (known : Code.Known c.constants code) :
    ∃ body, ofCode c (Code.raw (Code.link c.constants code)) = .ok body := by
  obtain ⟨statements, p, hp, stack, -⟩ := h known ⟨[], [], [], 1⟩ rfl
  unfold RuleBody.ofCode
  rw [StateT.run, hp]
  show ∃ body, (if p.stack = [.value] then _ else _ : Except EmitError RuleBody) = .ok body
  rw [if_pos stack]
  exact ⟨_, rfl⟩

end RuleBody

end PegCompiler
