/-
The second walk along the stack accepts the code of expressions. Like the code, the induction on the
expression starts on any stack that has values in the slots of the labels, and ends with one value more.
Two facts carry it: no push goes beyond the greatest slot that was found for the expression
(`Code.le_peak`), and branches leave the same together. The array of a sequence without elements is the one
push that the greatest slot does not count, so such sequences are left out (`Expr.isHollow`).
-/
import PegCompiler.Proofs.Code.OfExpr
import PegCompiler.Proofs.Emit.RuleBody

namespace PegCompiler

/-! ## Sequences without elements -/

namespace Expr

def isEmptySequence : Expr → Bool
  | sequence _ [] => true
  | _ => false

/-- The subexpressions whose results are used as they are: an action takes the place of the array of its
sequence. -/
def parts : Expr → List Expr
  | action _ (sequence ..) _ => []
  | e => e.children

/-- Whether the result of some sequence in the expression is an array without items because it has no elements. -/
def isHollow (e : Expr) : Bool := e.isEmptySequence || e.preorder.any fun e' => e'.parts.any isEmptySequence

theorem isHollow_of_part {e c : Expr} (h : e.isHollow = false) (hc : c ∈ e.parts) (hsub : c ∈ e.children) :
    c.isHollow = false := by
  simp only [isHollow, Bool.or_eq_false_iff, List.any_eq_false] at h ⊢
  refine ⟨?_, fun e' he' => h.2 e' (mem_preorder_of_child hsub he')⟩
  have := h.2 e (mem_preorder_self e)
  rw [List.any_eq_true] at this
  exact Bool.eq_false_iff.2 fun hempty => this ⟨c, hc, hempty⟩

/-- The elements of a sequence under an action. -/
theorem isHollow_of_element {i j : Info} {elements : List Expr} {code : HostCode} {c : Expr}
    (h : (action i (sequence j elements) code).isHollow = false) (hc : c ∈ elements) : c.isHollow = false := by
  simp only [isHollow, Bool.or_eq_false_iff, List.any_eq_false] at h ⊢
  have inside : ∀ e ∈ (sequence j elements).preorder, e ∈ (action i (sequence j elements) code).preorder :=
    fun e he => mem_preorder_of_child (c := sequence j elements) List.mem_cons_self he
  refine ⟨?_, fun e' he' => h.2 e' (inside _ (mem_preorder_of_child hc he'))⟩
  have := h.2 _ (inside _ (mem_preorder_self _))
  rw [List.any_eq_true] at this
  exact Bool.eq_false_iff.2 fun hempty => this ⟨c, hc, hempty⟩

end Expr

namespace Code

/-! ## The greatest slot -/

/-- The result of an expression is counted. -/
theorem le_peak (p : Plan) (e : Expr) (size : Nat) : size ≤ peak p e size := by
  induction e using Expr.induction generalizing size with
  | choice i first others ih _ => unfold peak; exact Nat.le_trans (ih size) (Nat.le_max_left _ _)
  | sequence i elements _ => unfold peak; exact Nat.le_max_left _ _
  | action i body code ih _ =>
    refine Expr.action_cases body (fun j elements hb => ?_) fun hb => ?_
    · subst hb; unfold peak; exact Nat.le_max_left _ _
    · rw [peak]
      · exact Nat.le_of_succ_le (ih (size + 1))
      · exact hb
  | labeled i label pick body ih | optional i body ih | group i body ih | named i name body ih =>
    unfold peak; exact ih size
  | text i body ih | simpleAnd i body ih | simpleNot i body ih | zeroOrMore i body ih | oneOrMore i body ih =>
    unfold peak; exact Nat.le_of_succ_le (ih (size + 1))
  | repeated i body min max delimiter ih _ =>
    have array : size ≤ arraySlot min max size + 1 := by unfold arraySlot; omega
    cases delimiter with
    | none => unfold peak; exact Nat.le_trans array (ih _)
    | some d => unfold peak; exact Nat.le_trans array (Nat.le_trans (ih _) (Nat.le_max_left _ _))
  | semanticAnd | semanticNot | ruleRef | literal | charClass | any => unfold peak; exact Nat.le_refl _

theorem le_peakElements {p : Plan} {elements : List Expr} (h : elements ≠ []) (size : Nat) :
    size ≤ peakElements p elements size := by
  cases elements with
  | nil => exact absurd rfl h
  | cons e es => unfold peakElements; exact Nat.le_trans (le_peak p e size) (Nat.le_max_left _ _)

end Code

namespace RuleBody

open Code

/-! ## Slots with values -/

/-- There is a value in each of these slots. -/
def Valued (slots : List Nat) (s : StackKinds) : Prop := ∀ i ∈ slots, s.reverse[i]? = some .value

namespace Valued

variable {slots more : List Nat} {s : StackKinds}

theorem push (h : Valued slots s) (top : StackKinds) : Valued slots (top ++ s) :=
  fun i hi => reverse_slot_push (h i hi) top

theorem push_one (h : Valued slots s) (kind : SlotKind) : Valued slots (kind :: s) := h.push [kind]

theorem lt (h : Valued slots s) : ∀ i ∈ slots, i < s.length := fun i hi => slot_lt (h i hi)

theorem at_distance (h : Valued slots s) : ∀ d ∈ slots.map fun i => s.length - 1 - i, s[d]? = some .value := by
  intro d hd
  obtain ⟨i, hi, rfl⟩ := List.mem_map.1 hd
  exact slot_at_distance (h i hi)

/-- The slot of a new value may be one of them. -/
theorem next (h : Valued slots s) (hmore : ∀ i ∈ more, i = s.length ∨ i ∈ slots) : Valued more (.value :: s) := by
  intro i hi
  rcases hmore i hi with rfl | hi
  · exact reverse_slot_top s _
  · exact h.push_one _ i hi

end Valued

section Shapes

variable {c : Context} {s : StackKinds} {m : MatchResult} {a b : Code Inline} {env : Env}

/-- A condition that looks at a value on top. -/
theorem value_on_top {d : Nat} (hd : d ∈ [0]) : (SlotKind.value :: s)[d]? = some .value := by
  rw [List.mem_singleton.1 hd]; rfl

/-! ## Terminals -/

theorem fits_ofLiteral (value : String) (ignoreCase : Bool) (h : s.length ≤ c.limit) :
    Fits c (ofLiteral m value ignoreCase) s (.value :: s) := by
  have single {i : Instr Inline} (hi : isValue i = true) : Fits c [i] s (.value :: s) := fits_value hi h
  unfold ofLiteral
  split
  · exact single rfl
  · split
    · exact fits_branch (by simp [tested]) (fun _ => single rfl) fun _ => single rfl
    · exact fits_branch (by simp [tested]) (fun _ => single rfl) fun _ => single rfl

theorem fits_ofClass (k : CharClass) (h : s.length ≤ c.limit) : Fits c (ofClass m k) s (.value :: s) :=
  fits_branch (by simp [tested]) (fun _ => fits_value rfl h) fun _ => fits_value rfl h

theorem fits_ofAny (h : s.length ≤ c.limit) : Fits c (ofAny m) s (.value :: s) :=
  fits_branch (by simp [tested]) (fun _ => fits_value rfl h) fun _ => fits_value rfl h

/-! ## Around an operand -/

theorem fits_mark {p : Plan} {e : Expr} {s' : StackKinds} (h : Fits c a s s') : Fits c (p.mark e a) s s' := by
  unfold Plan.mark
  split
  · exact fits_bracket h
  · exact h

/-- A result is dropped, and so is the position below it; another result takes their place. -/
theorem fits_giveUp {i : Instr Inline} (hi : isValue i = true) (h : s.length ≤ c.limit) :
    Fits c [.pop, .popPos, i] (.value :: .pos :: s) (.value :: s) :=
  fits_pop.cons (fits_popPos.cons (fits_value hi h))

theorem fits_replace {kind : SlotKind} {i : Instr Inline} (hi : isValue i = true) (h : s.length ≤ c.limit) :
    Fits c [.pop, .pop, i] (.value :: kind :: s) (.value :: s) :=
  fits_pop.cons (fits_pop.cons (fits_value hi h))

theorem fits_ofLookahead {negative : Bool} (hs : s.length ≤ c.limit) (h : Fits c a (.pos :: s) (.value :: .pos :: s)) :
    Fits c (ofLookahead m negative a) s (.value :: s) := by
  have tried : Fits c ([.pushPos, .silence] ++ a ++ [.unsilence]) s (.value :: .pos :: s) :=
    (((fits_pushPos hs).cons fits_silence).append h).append fits_unsilence
  unfold ofLookahead
  refine tried.append ?_
  cases negative with
  | true => exact fits_branch (fun _ => value_on_top) (fun _ => fits_replace rfl hs) fun _ => fits_giveUp rfl hs
  | false => exact fits_branch (fun _ => value_on_top) (fun _ => fits_giveUp rfl hs) fun _ => fits_replace rfl hs

theorem fits_ofNamed (name : String) (hs : s.length ≤ c.limit) (h : Fits c a s (.value :: s)) :
    Fits c (ofNamed m name a) s (.value :: s) := by
  have tried : Fits c ([.silence] ++ a ++ [.unsilence]) s (.value :: s) := (fits_silence.append h).append fits_unsilence
  unfold ofNamed
  exact tried.append (fits_branch (fun _ => value_on_top) (fun _ => fits_pop.cons (fits_value rfl hs)) fun _ => fits_nil)

theorem fits_ofText (hs : s.length ≤ c.limit) (h : Fits c a (.pos :: s) (.value :: .pos :: s)) :
    Fits c (ofText m a) s (.value :: s) := by
  unfold ofText
  exact ((fits_pushPos hs).append h).append (fits_branch (fun _ => value_on_top) (fun _ => fits_pop.cons (fits_text hs))
    fun _ => fits_nip hs)

theorem fits_ofOptional (hs : s.length ≤ c.limit) (h : Fits c a s (.value :: s)) :
    Fits c (ofOptional m a) s (.value :: s) :=
  h.append (fits_branch (fun _ => value_on_top) (fun _ => fits_pop.cons (fits_value rfl hs)) fun _ => fits_nil)

theorem fits_collect (h : Fits c a (.value :: s) (.value :: .value :: s)) :
    Fits c (collect a) (.value :: .value :: s) (.value :: s) :=
  (fits_whileOk (fits_append.append h)).cons fits_pop

theorem fits_ofZeroOrMore (hs : s.length ≤ c.limit) (h : Fits c a (.value :: s) (.value :: .value :: s)) :
    Fits c (ofZeroOrMore a) s (.value :: s) :=
  ((fits_value rfl hs).append h).append (fits_collect h)

theorem fits_ofOneOrMore (hs : s.length ≤ c.limit) (h : Fits c a (.value :: s) (.value :: .value :: s)) :
    Fits c (ofOneOrMore m a) s (.value :: s) :=
  ((fits_value rfl hs).append h).append (fits_branch (fun _ => value_on_top) (fun _ => fits_collect h)
    fun _ => fits_replace rfl hs)

/-! ## Host code -/

theorem fits_callHost {kind : FunctionKind} {code : HostCode} {pop : Nat} (henv : Valued env.slots s)
    (hpop : pop ≤ s.length) (hs : s.length - pop ≤ c.limit) :
    Fits c (callHost kind code env s.length pop) s (.value :: s.drop pop) := by
  have args : env.distances s.length = env.slots.map fun i => s.length - 1 - i := by
    unfold Env.distances Env.slots
    rw [List.map_map]; rfl
  rw [callHost_eq henv.lt, args]
  exact fits_call henv.at_distance hpop (by rw [List.length_drop]; exact hs)

theorem fits_ofPredicate {code : HostCode} {negative : Bool} (henv : Valued env.slots s)
    (hs : s.length ≤ c.limit) : Fits c (ofPredicate code negative env s.length) s (.value :: s) := by
  have decided {i : Instr Inline} (hi : isValue i = true) : Fits c [.pop, i] (.value :: s) (.value :: s) :=
    fits_pop.cons (fits_value hi hs)
  unfold ofPredicate
  refine (fits_updateSavedPos.append (fits_callHost henv (Nat.zero_le _) hs)).append
    (fits_cond (fun _ => value_on_top) ?_ ?_)
  · cases negative <;> exact decided rfl
  · cases negative <;> exact decided rfl

theorem fits_ofAction {code : HostCode} {body : Expr} (henv : Valued env.slots s) (hs : s.length + 1 ≤ c.limit)
    (h : Fits c a (.pos :: s) (.value :: .pos :: s)) :
    Fits c (ofAction m code (env.after body (s.length + 1)) s.length a) s (.value :: s) := by
  have slots : Valued (env.after body (s.length + 1)).slots (.value :: .pos :: s) :=
    (henv.push_one .pos).next (env.mem_slots_after body _)
  have called : Fits c ([.loadSavedPos 1] ++ callHost .action code (env.after body (s.length + 1)) (s.length + 2) 1)
      (.value :: .pos :: s) (.value :: .pos :: s) :=
    (fits_loadSavedPos rfl).append (fits_callHost slots (by simp) (by simpa using hs))
  unfold ofAction
  exact (((fits_pushPos (Nat.le_of_succ_le hs)).append h).append (fits_branch (fun _ => value_on_top) (fun _ => called)
    fun _ => fits_nil)).append (fits_nip (Nat.le_of_succ_le hs))

/-! ## Repetitions -/

theorem fits_delimited {ofDelimiter ofBody : MatchResult} (hs : s.length ≤ c.limit)
    (ha : Fits c a (.pos :: s) (.value :: .pos :: s))
    (hb : ofDelimiter ≠ .never → Fits c b (.pos :: s) (.value :: .pos :: s)) :
    Fits c (delimited ofDelimiter ofBody a b) s (.value :: s) := by
  unfold delimited
  refine ((fits_pushPos hs).append ha).append (fits_branch (fun _ => value_on_top) (fun hne => ?_) fun _ => fits_nip hs)
  exact (fits_pop.append (hb hne)).append (fits_branch (fun _ => value_on_top) (fun _ => fits_giveUp rfl hs)
    fun _ => fits_nip hs)

/-- The values on top that are bounds. -/
def boundValues (n : Nat) : StackKinds := List.replicate n .value

theorem length_boundValues (n : Nat) : (boundValues n).length = n := List.length_replicate

theorem boundValues_add (m n : Nat) : boundValues n ++ boundValues m = boundValues (m + n) := by
  unfold boundValues
  rw [List.replicate_append_replicate, Nat.add_comm]

theorem fits_prepare (bound : Boundary) (henv : Valued env.slots s) (hs : s.length ≤ c.limit) :
    Fits c (prepare env s.length bound) s (boundValues (slotsOf bound) ++ s) := by
  cases bound with
  | constant n => exact fits_nil
  | computed code => exact fits_callHost henv (Nat.zero_le _) hs
  | label name =>
    unfold prepare
    dsimp only
    split
    · exact fits_nil
    · exact fits_defect

/-- Where a limit is found there is a value. -/
theorem valued_limitOf (bound : Boundary) (henv : Valued env.slots s) :
    Valued (limitOf env s.length bound).slots (boundValues (slotsOf bound) ++ s) := by
  cases bound with
  | constant n => exact fun _ hi => by cases hi
  | computed code =>
    intro i hi
    rw [List.mem_singleton.1 hi]
    exact reverse_slot_top s _
  | label name =>
    show Valued (Limit.slots ((env.lookup name.val).elim (.fixed none) .slot)) s
    cases h : env.lookup name.val with
    | none => exact fun _ hi => by cases hi
    | some slot =>
      intro i hi
      rw [List.mem_singleton.1 hi]
      refine henv slot (List.mem_map.2 ⟨(name.val, slot), ?_, rfl⟩)
      obtain ⟨l₁, l₂, rfl, -⟩ := List.lookup_eq_some_iff.1 h
      exact List.mem_append_right _ List.mem_cons_self

theorem fits_unlessFull {l : Limit} (hl : Valued l.slots s) (hs : s.length + 1 ≤ c.limit)
    (h : Fits c a (.value :: s) (.value :: .value :: s)) :
    Fits c (unlessFull l s.length a) (.value :: s) (.value :: .value :: s) := by
  have full : Fits c [.pushFailed] (.value :: s) (.value :: .value :: s) := fits_value rfl hs
  rcases l with (_ | n) | i
  · exact h
  · exact fits_cond (fun _ => value_on_top) full h
  · refine fits_cond (fun d hd => ?_) full h
    simp only [tested, List.mem_cons, List.not_mem_nil, or_false] at hd
    rcases hd with rfl | rfl
    · rfl
    · exact slot_below_top (hl i (List.mem_singleton_self i)) _

theorem tested_tooFew {l : Limit} (hl : Valued l.slots s) :
    ∀ d ∈ tested (tooFew l s.length), (SlotKind.value :: s)[d]? = some .value := by
  intro d hd
  rcases l with n | i
  · exact value_on_top hd
  · simp only [tooFew, tested, List.mem_cons, List.not_mem_nil, or_false] at hd
    rcases hd with rfl | rfl
    · rfl
    · exact slot_below_top (hl i (List.mem_singleton_self i)) _

theorem fits_nips {n : Nat} (hs : s.length + n ≤ c.limit) :
    Fits c (List.replicate n .nip) (.value :: (boundValues n ++ s)) (.value :: s) := by
  induction n with
  | zero => exact fits_nil
  | succ n ih =>
    refine Fits.cons (fits_nip ?_) (ih (Nat.le_of_succ_le hs))
    show (boundValues n ++ s).length ≤ _
    rw [List.length_append, length_boundValues]
    omega

/-- What the walk finds after the bounds of a repetition were made ready. -/
structure Bounded (min : Option Boundary) (max : Boundary) (env : Env) (s : StackKinds) : Prop where
  least : Valued (least min max env s.length).slots (boundValues (boundSlots min max) ++ s)
  most : Valued (most min max env s.length).slots (boundValues (boundSlots min max) ++ s)

theorem fits_prepareBounds {min : Option Boundary} {max : Boundary} (henv : Valued env.slots s)
    (hs : s.length + boundSlots min max ≤ c.limit) :
    Fits c (prepareBounds min max env s.length) s (boundValues (boundSlots min max) ++ s) ∧ Bounded min max env s := by
  cases min with
  | none =>
    have slots : boundSlots none max = slotsOf max := Nat.zero_add _
    rw [slots] at hs ⊢
    refine ⟨fits_prepare max henv (Nat.le_of_add_right_le hs), ?_, ?_⟩ <;> (rw [slots]; exact valued_limitOf max henv)
  | some min =>
    have henv' := henv.push (boundValues (slotsOf min))
    have length : (boundValues (slotsOf min) ++ s).length = s.length + slotsOf min := by
      rw [List.length_append, length_boundValues, Nat.add_comm]
    have together : boundValues (slotsOf max) ++ (boundValues (slotsOf min) ++ s) =
        boundValues (boundSlots (some min) max) ++ s := by rw [← List.append_assoc, boundValues_add]; rfl
    have hs' : s.length + slotsOf min + slotsOf max ≤ c.limit := by rw [Nat.add_assoc]; exact hs
    have prepared := fits_prepare max henv' (by rw [length]; exact Nat.le_of_add_right_le hs')
    have greatest := valued_limitOf max henv'
    rw [length, together] at prepared greatest
    refine ⟨(fits_prepare min henv ?_).append prepared, ?_, greatest⟩
    · exact Nat.le_of_add_right_le (Nat.le_of_add_right_le hs')
    · rw [← together]
      exact (valued_limitOf min henv).push _

/-- The array of a repetition is filled. -/
theorem fits_filled {l : Limit} {first item : Code Inline} (hl : Valued l.slots s) (hs : s.length + 1 ≤ c.limit)
    (hF : Fits c first (.value :: s) (.value :: .value :: s)) (hI : Fits c item (.value :: s) (.value :: .value :: s)) :
    Fits c ([.pushEmptyArray] ++ unlessFull l s.length first ++ collect (unlessFull l s.length item)) s (.value :: s) :=
  ((fits_value rfl (Nat.le_of_succ_le hs)).append (fits_unlessFull hl hs hF)).append
    (fits_collect (fits_unlessFull hl hs hI))

theorem fits_ofRepeated {min : Option Boundary} {max : Boundary} {first item : Code Inline}
    (henv : Valued env.slots s) (hs : arraySlot min max s.length + 1 ≤ c.limit)
    (hF : ∀ top : StackKinds, (top ++ s).length = arraySlot min max s.length + 1 →
      Fits c first (top ++ s) (.value :: (top ++ s)))
    (hI : ∀ top : StackKinds, (top ++ s).length = arraySlot min max s.length + 1 →
      Fits c item (top ++ s) (.value :: (top ++ s))) :
    Fits c (ofRepeated min max env s.length first item) s (.value :: s) := by
  have hbounds : s.length + boundSlots min max ≤ c.limit := by unfold arraySlot at hs; omega
  obtain ⟨prepared, bounded⟩ := fits_prepareBounds henv hbounds
  have length : (boundValues (boundSlots min max) ++ s).length = s.length + boundSlots min max := by
    rw [List.length_append, length_boundValues, Nat.add_comm]
  have dropped : Fits c (List.replicate (boundSlots min max) .nip) (.value :: (boundValues (boundSlots min max) ++ s))
      (.value :: s) := fits_nips hbounds
  have hbase : (boundValues (boundSlots min max) ++ s).length ≤ c.limit := by rw [length]; exact hbounds
  have filled (kept : StackKinds) (hlen : (kept ++ s).length = arraySlot min max s.length)
      (hmost : Valued (most min max env s.length).slots (kept ++ s)) :
      Fits c ([.pushEmptyArray] ++ unlessFull (most min max env s.length) (arraySlot min max s.length) first ++
        collect (unlessFull (most min max env s.length) (arraySlot min max s.length) item)) (kept ++ s)
        (.value :: (kept ++ s)) := by
    have h := fits_filled hmost (by rw [hlen]; exact hs) (hF (.value :: kept) (congrArg Nat.succ hlen))
      (hI (.value :: kept) (congrArg Nat.succ hlen))
    rwa [hlen] at h
  unfold ofRepeated
  dsimp only
  rw [reach_bounds henv.lt, List.append_nil]
  cases needs : needsLeast min max with
  | true =>
    -- the position is kept between the bounds and the array
    have hlen : (SlotKind.pos :: boundValues (boundSlots min max) ++ s).length = arraySlot min max s.length := by
      unfold arraySlot
      rw [needs, if_pos rfl, List.cons_append, List.length_cons, length]
    have array := filled (.pos :: boundValues (boundSlots min max)) hlen (bounded.most.push_one _)
    have short := tested_tooFew (bounded.least.push_one .pos)
    rw [← List.cons_append, hlen] at short
    have checked := fits_cond short (fits_giveUp (i := .pushFailed) rfl hbase) (fits_nip hbase)
    have whole := (((prepared.append (fits_pushPos hbase)).append array).append checked).append dropped
    simpa only [List.append_assoc, if_true] using whole
  | false =>
    have hlen : (boundValues (boundSlots min max) ++ s).length = arraySlot min max s.length := by
      unfold arraySlot
      rw [needs, if_neg Bool.false_ne_true, length, Nat.add_zero]
    have array := filled (boundValues (boundSlots min max)) hlen bounded.most
    have whole := (prepared.append array).append dropped
    simpa only [List.append_assoc, Bool.false_eq_true, if_false, List.append_nil, List.nil_append] using whole

/-! ## Sequences -/

/-- The results of elements above the position where their sequence began. -/
def onSequence (done : Nat) (s : StackKinds) : StackKinds := List.replicate done .value ++ .pos :: s

theorem length_onSequence (done : Nat) : (onSequence done s).length = s.length + done + 1 := by
  unfold onSequence
  rw [List.length_append, List.length_replicate, List.length_cons]
  omega

theorem drop_onSequence (done : Nat) : (onSequence done s).drop (done + 1) = s := by
  unfold onSequence
  rw [List.drop_append, List.length_replicate, Nat.add_sub_cancel_left, List.drop_of_length_le (by simp)]
  rfl

theorem start_onSequence (done : Nat) : (onSequence done s)[done]? = some .pos := by
  unfold onSequence
  rw [List.getElem?_append_right (by simp), List.length_replicate, Nat.sub_self]
  rfl

theorem fits_finish {action : Option HostCode} {done : Nat} {picks : List Nat}
    (henv : Valued env.slots (onSequence done s)) (hpicks : Valued picks (onSequence done s))
    (hs : s.length ≤ c.limit) (harray : action = none → s.length + 1 ≤ c.limit) :
    Fits c (finish action done (onSequence done s).length env picks) (onSequence done s) (.value :: s) := by
  have all : done + 1 ≤ (onSequence done s).length := by rw [length_onSequence]; omega
  have base : (onSequence done s).length - (done + 1) ≤ c.limit := by rw [length_onSequence]; omega
  have dropped := drop_onSequence (s := s) done
  unfold finish
  cases hp : picks.isEmpty with
  | false =>
    have plucked := fits_pluck (c := c) hpicks.at_distance all (by rw [List.length_drop]; exact base)
    rw [dropped] at plucked
    rw [reach_eq_nil hpicks.lt]
    exact plucked
  | true =>
    cases action with
    | none => exact (fits_wrap (s := .pos :: s) (harray rfl)).cons (fits_nip hs)
    | some code =>
      have called : Fits c (callHost .action code env (onSequence done s).length (done + 1)) (onSequence done s)
          (.value :: (onSequence done s).drop (done + 1)) := fits_callHost henv all base
      rw [dropped] at called
      exact (fits_loadSavedPos (start_onSequence done)).append called

theorem fits_abandon {done : Nat} (hs : s.length ≤ c.limit) :
    Fits c (abandon done) (.value :: onSequence done s) (.value :: s) := by
  unfold abandon
  split
  · rename_i h
    subst h
    exact fits_giveUp rfl hs
  · have popped : Fits c [.popN (done + 1)] (List.replicate (done + 1) .value ++ .pos :: s) (.pos :: s) := by
      have h := fits_popN (c := c) (s := .pos :: s) (List.replicate (done + 1) .value)
      rwa [List.length_replicate] at h
    exact popped.append (fits_popPos.cons (fits_value rfl hs))

/-! ## Expressions -/

/-- The walk accepts the code of the expression, wherever on the stack the labels are. -/
def Follows (c : Context) (p : Plan) (e : Expr) : Prop :=
  ∀ (env : Env) (s : StackKinds), Valued env.slots s → peak p e s.length ≤ c.limit →
    Fits c (ofExpr p e env s.length) s (.value :: s)

variable {p : Plan}

theorem fits_ofOthers {others : List Expr} (ih : ∀ e ∈ others, Follows c p e) (before : MatchResult)
    (henv : Valued env.slots s) (hpeak : peakOthers p before others s.length ≤ c.limit) :
    Fits c (ofOthers p before others env s.length) (.value :: s) (.value :: s) := by
  induction others generalizing before with
  | nil => exact fits_nil
  | cons e es ihs =>
    unfold ofOthers
    refine fits_branch (fun _ => value_on_top) (fun hne => fits_pop.append ?_) fun _ => fits_nil
    -- after an alternative that always matches no other one is compiled, and none is counted
    have reached : before ≠ .always := fun h => hne (by rw [h]; rfl)
    unfold peakOthers at hpeak
    rw [if_neg reached] at hpeak
    exact (ih e List.mem_cons_self env s henv (Nat.le_trans (Nat.le_max_left _ _) hpeak)).append
      (ihs (fun e' he => ih e' (List.mem_cons_of_mem _ he)) _ (Nat.le_trans (Nat.le_max_right _ _) hpeak))

theorem fits_ofElements {action : Option HostCode} {elements : List Expr} (ih : ∀ e ∈ elements, Follows c p e)
    {done : Nat} {picks : List Nat} (henv : Valued env.slots (onSequence done s))
    (hpicks : Valued picks (onSequence done s)) (hs : s.length ≤ c.limit)
    (harray : action = none → s.length + 1 ≤ c.limit)
    (hpeak : peakElements p elements (onSequence done s).length ≤ c.limit) :
    Fits c (ofElements p action elements done env picks (onSequence done s).length) (onSequence done s) (.value :: s) := by
  induction elements generalizing done env picks with
  | nil => exact fits_finish henv hpicks hs harray
  | cons e es ihs =>
    unfold peakElements at hpeak
    unfold ofElements
    refine (ih e List.mem_cons_self env _ henv (Nat.le_trans (Nat.le_max_left _ _) hpeak)).append
      (fits_branch (fun _ => value_on_top) (fun reached => ?_) fun _ => fits_abandon hs)
    rw [if_neg reached] at hpeak
    have next : SlotKind.value :: onSequence done s = onSequence (done + 1) s := rfl
    have hlen : (onSequence done s).length + 1 = (onSequence (done + 1) s).length := rfl
    rw [hlen] at hpeak ⊢
    rw [next]
    exact ihs (fun e' he => ih e' (List.mem_cons_of_mem _ he)) (henv.next (env.mem_slots_after e _))
      (hpicks.next (mem_pickAfter picks e _)) (Nat.le_trans (Nat.le_max_right _ _) hpeak)

theorem fits_sequence {action : Option HostCode} {elements : List Expr} (ih : ∀ e ∈ elements, Follows c p e)
    (henv : Valued env.slots s) (hs : s.length ≤ c.limit) (harray : action = none → elements ≠ [])
    (hpeak : peakElements p elements (s.length + 1) ≤ c.limit) :
    Fits c ([.pushPos] ++ ofElements p action elements 0 env [] (s.length + 1)) s (.value :: s) := by
  have inside : Fits c (ofElements p action elements 0 env [] (onSequence 0 s).length) (onSequence 0 s) (.value :: s) :=
    fits_ofElements ih (henv.push_one _) (fun _ hi => by cases hi) hs
      (fun h => Nat.le_trans (le_peakElements (harray h) _) hpeak) hpeak
  exact (fits_pushPos hs).append inside

/-- The walk accepts the code of an expression whose references stand for remaining rules, and in which no sequence
without elements makes an array. -/
theorem follows_ofExpr (e : Expr) (hrefs : ∀ i name t, .ruleRef i name (some t) ∈ e.preorder → (c.ruleName? t).isSome = true)
    (hfull : e.isHollow = false) : Follows c p e := by
  have sub {e x : Expr} (hrefs : ∀ i name t, .ruleRef i name (some t) ∈ e.preorder → (c.ruleName? t).isSome = true)
      (hx : x ∈ e.children) : ∀ i name t, .ruleRef i name (some t) ∈ x.preorder → (c.ruleName? t).isSome = true :=
    fun i name t h => hrefs i name t (Expr.mem_preorder_of_child hx h)
  induction e using Expr.induction with
  | choice i first others ihFirst ihOthers =>
    intro env s henv hpeak
    have first' : first.isHollow = false := Expr.isHollow_of_part hfull List.mem_cons_self List.mem_cons_self
    have others' : ∀ e ∈ others, Follows c p e := fun e he =>
      ihOthers e he (sub hrefs (List.mem_cons_of_mem _ he))
        (Expr.isHollow_of_part hfull (List.mem_cons_of_mem _ he) (List.mem_cons_of_mem _ he))
    unfold peak at hpeak
    unfold ofExpr
    exact fits_mark ((ihFirst (sub hrefs List.mem_cons_self) first' env s henv
      (Nat.le_trans (Nat.le_max_left _ _) hpeak)).append
      (fits_ofOthers others' _ henv (Nat.le_trans (Nat.le_max_right _ _) hpeak)))
  | sequence i elements ih =>
    intro env s henv hpeak
    have hs := Nat.le_trans (le_peak p _ _) hpeak
    have nonempty : elements ≠ [] := by rintro rfl; cases hfull
    unfold peak at hpeak
    unfold ofExpr
    exact fits_mark (fits_sequence (fun e he => ih e he (sub hrefs he) (Expr.isHollow_of_part hfull he he)) henv hs
      (fun _ => nonempty) (Nat.le_trans (Nat.le_max_right _ _) hpeak))
  | action i body code ih ihElements =>
    intro env s henv hpeak
    have hs := Nat.le_trans (le_peak p _ _) hpeak
    have inBody := sub hrefs (x := body) List.mem_cons_self
    refine Expr.action_cases body (fun j elements hb => ?_) fun hb => ?_
    · subst hb
      unfold peak at hpeak
      unfold ofExpr
      refine fits_mark (fits_mark (fits_sequence (fun e he => ?_) henv hs (fun h => by cases h)
        (Nat.le_trans (Nat.le_max_right _ _) hpeak)))
      exact ihElements e he (sub inBody he) (Expr.isHollow_of_element hfull he)
    · rw [peak] at hpeak
      · rw [ofExpr]
        · have part : body ∈ (Expr.action i body code).parts := by
            unfold Expr.parts
            split
            · rename_i heq
              cases heq
              exact absurd rfl (hb _ _)
            · exact List.mem_cons_self
          have hbody := ih inBody (Expr.isHollow_of_part hfull part List.mem_cons_self) env (.pos :: s)
            (henv.push_one _) hpeak
          exact fits_mark (fits_ofAction henv (Nat.le_trans (le_peak p body _) hpeak) hbody)
        · exact hb
      · exact hb
  | repeated i body min max delimiter ih ihDelimiter =>
    intro env s henv hpeak
    have body' := ih (sub hrefs List.mem_cons_self) (Expr.isHollow_of_part hfull List.mem_cons_self List.mem_cons_self)
    cases delimiter with
    | none =>
      unfold peak at hpeak
      unfold ofExpr
      have hs : arraySlot min max s.length + 1 ≤ c.limit := Nat.le_trans (le_peak p body _) hpeak
      have item : ∀ top : StackKinds, (top ++ s).length = arraySlot min max s.length + 1 →
          Fits c (ofExpr p body env (arraySlot min max s.length + 1)) (top ++ s) (.value :: (top ++ s)) := by
        intro top hlen
        rw [← hlen] at hpeak ⊢
        exact body' env _ (henv.push top) hpeak
      exact fits_mark (fits_ofRepeated henv hs item item)
    | some d =>
      have inside : d ∈ (Expr.repeated i body min max (some d)).children := List.mem_cons_of_mem _ List.mem_cons_self
      have delimiter' := ihDelimiter d rfl (sub hrefs inside) (Expr.isHollow_of_part hfull inside inside)
      unfold peak at hpeak
      unfold ofExpr
      simp only [Nat.max_le] at hpeak
      obtain ⟨hbody, hdelimiter, hnext⟩ := hpeak
      have hs : arraySlot min max s.length + 1 ≤ c.limit := Nat.le_trans (le_peak p body _) hbody
      refine fits_mark (fits_ofRepeated henv hs (fun top hlen => ?_) fun top hlen => ?_)
      · rw [← hlen] at hbody ⊢
        exact body' env _ (henv.push top) hbody
      · have size : arraySlot min max s.length + 2 = (SlotKind.pos :: (top ++ s)).length := by
          rw [List.length_cons, hlen]
        rw [size] at hdelimiter hnext ⊢
        refine fits_delimited (by rw [hlen]; exact hs) ?_ fun reached => ?_
        · exact delimiter' env _ ((henv.push top).push_one _) hdelimiter
        · rw [if_neg reached] at hnext
          exact body' env _ ((henv.push top).push_one _) hnext
  | ruleRef i name target =>
    intro env s henv hpeak
    have hs := Nat.le_trans (le_peak p _ _) hpeak
    cases target with
    | none => unfold ofExpr; exact fits_mark fits_defect
    | some t => unfold ofExpr; exact fits_mark (fits_rule (hrefs i name t (Expr.mem_preorder_self _)) hs)
  | semanticAnd i code | semanticNot i code =>
    intro env s henv hpeak
    unfold ofExpr
    exact fits_mark (fits_ofPredicate henv (Nat.le_trans (le_peak p _ _) hpeak))
  | literal i value ignoreCase =>
    intro env s henv hpeak
    unfold ofExpr
    exact fits_mark (fits_ofLiteral value ignoreCase (Nat.le_trans (le_peak p _ _) hpeak))
  | charClass i k =>
    intro env s henv hpeak
    unfold ofExpr
    exact fits_mark (fits_ofClass k (Nat.le_trans (le_peak p _ _) hpeak))
  | any i =>
    intro env s henv hpeak
    unfold ofExpr
    exact fits_mark (fits_ofAny (Nat.le_trans (le_peak p _ _) hpeak))
  | labeled i label pick body ih | optional i body ih | group i body ih | named i name body ih =>
    intro env s henv hpeak
    have hs := Nat.le_trans (le_peak p _ _) hpeak
    unfold peak at hpeak
    have hbody := ih (sub hrefs List.mem_cons_self) (Expr.isHollow_of_part hfull List.mem_cons_self List.mem_cons_self)
      env s henv hpeak
    unfold ofExpr
    first
      | exact fits_mark hbody
      | exact fits_mark (fits_ofOptional hs hbody)
      | exact fits_mark (fits_ofNamed _ hs hbody)
  | text i body ih | simpleAnd i body ih | simpleNot i body ih | zeroOrMore i body ih | oneOrMore i body ih =>
    intro env s henv hpeak
    have hs := Nat.le_trans (le_peak p _ _) hpeak
    unfold peak at hpeak
    -- below the result there is a position, or the array so far
    have hbody (kind : SlotKind) := ih (sub hrefs List.mem_cons_self)
      (Expr.isHollow_of_part hfull List.mem_cons_self List.mem_cons_self) env (kind :: s) (henv.push_one _) hpeak
    unfold ofExpr
    first
      | exact fits_mark (fits_ofText hs (hbody .pos))
      | exact fits_mark (fits_ofLookahead hs (hbody .pos))
      | exact fits_mark (fits_ofZeroOrMore hs (hbody .value))
      | exact fits_mark (fits_ofOneOrMore hs (hbody .value))

theorem fits_ofRule {r : Rule}
    (hrefs : ∀ i name t, .ruleRef i name (some t) ∈ r.body.preorder → (c.ruleName? t).isSome = true)
    (hfull : r.body.isHollow = false) (hpeak : peak p r.body 0 ≤ c.limit) : Fits c (ofRule p r) [] [.value] := by
  have hbody : Fits c (ofExpr p r.body [] 0) [] [.value] :=
    follows_ofExpr r.body hrefs hfull [] [] (fun _ hi => by cases hi) hpeak
  unfold ofRule
  cases r.displayName with
  | none => exact hbody
  | some name => exact fits_ofNamed name (Nat.zero_le _) hbody

end Shapes

end RuleBody

end PegCompiler
