/-
What holds of the code of every expression because of how code is put together: `Emits P` says that
`P` holds of instructions, blocks and brackets of code of which it holds, and so it does of the code of
expressions, if it does of the defects in it and of the calls of host code. Where references stand for rules
and labels are in scope there are no defects, and code is assembled without a failure: the slots that code reads
are those of labels and of other results, which are all below the top.
-/
import PegCompiler.Analysis.Labels
import PegCompiler.Code.OfExpr
import PegCompiler.Proofs.Code.Assembly
import PegCompiler.Proofs.Grammar.Basic

namespace PegCompiler

open Analysis

/-! ## Slots -/

section Slots

variable {α : Type} {s : List α} {i : Nat} {x : α}

theorem reverse_slot_push (h : s.reverse[i]? = some x) (top : List α) : (top ++ s).reverse[i]? = some x := by
  obtain ⟨hi, rfl⟩ := List.getElem?_eq_some_iff.1 h
  rw [List.reverse_append, List.getElem?_append_left hi, List.getElem?_eq_getElem hi]

theorem reverse_slot_top (s : List α) (x : α) : (x :: s).reverse[s.length]? = some x := by
  rw [List.reverse_cons, show s.length = s.reverse.length from List.length_reverse.symm, List.getElem?_concat_length]

theorem slot_lt (h : s.reverse[i]? = some x) : i < s.length := by
  obtain ⟨hi, -⟩ := List.getElem?_eq_some_iff.1 h
  rwa [List.length_reverse] at hi

/-- A slot is found at its distance from the top. -/
theorem slot_at_distance (h : s.reverse[i]? = some x) : s[s.length - 1 - i]? = some x := by
  rwa [List.getElem?_reverse (slot_lt h)] at h

/-- Below the top a slot is one further away. -/
theorem slot_below_top (h : s.reverse[i]? = some x) (top : α) : (top :: s)[s.length - i]? = some x := by
  have hi := slot_lt h
  rw [show s.length - i = (s.length - 1 - i) + 1 by omega, List.getElem?_cons_succ]
  exact slot_at_distance h

end Slots

/-! ## Labels in scope -/

theorem lookup_isSome_iff {α β : Type} [DecidableEq α] {l : List (α × β)} {name : α} :
    (l.lookup name).isSome ↔ name ∈ l.map (·.1) := by
  induction l with
  | nil => simp
  | cons b l ih =>
    rw [List.lookup_cons, List.map_cons, List.mem_cons]
    by_cases h : name = b.1
    · simp [h]
    · have : (name == b.1) = false := by simpa using h
      rw [this]
      simp [h, ih]

/-- A name that gets a value is there afterwards, at its place if it had one. -/
theorem map_fst_assign {β : Type} (l : List (String × β)) (name : String) (b : β) :
    (if l.any (·.1 == name) then l.map fun x => if x.1 == name then (name, b) else x else l ++ [(name, b)]).map (·.1) =
      if name ∈ l.map (·.1) then l.map (·.1) else l.map (·.1) ++ [name] := by
  have : l.any (·.1 == name) = true ↔ name ∈ l.map (·.1) := by
    rw [List.any_eq_true, List.mem_map]
    simp [and_comm]
  by_cases h : name ∈ l.map (·.1)
  · rw [if_pos h, if_pos (this.2 h), List.map_map]
    refine List.map_congr_left fun x _ => ?_
    show (if x.1 == name then (name, b) else x).1 = x.1
    split
    · rename_i hx; exact (beq_iff_eq.1 hx).symm
    · rfl
  · rw [if_neg h, if_neg fun ha => h (this.1 ha), List.map_append]
    rfl

theorem Analysis.Scope.map_fst_define (scope : Scope) (label : Located String) : (scope.define label).map (·.1) =
    if label.val ∈ scope.map (·.1) then scope.map (·.1) else scope.map (·.1) ++ [label.val] := by
  unfold Scope.define
  by_cases hl : label.val ∈ scope.map (·.1)
  · rw [if_pos (lookup_isSome_iff.2 hl), if_pos hl]
  · rw [if_neg fun hs => hl (lookup_isSome_iff.1 hs), if_neg hl, List.map_append]
    rfl

/-- The check of labels and the code of labels agree on which are in scope. -/
theorem Analysis.Scope.map_fst_after {scope : Scope} {env : Env} (h : scope.map (·.1) = env.map (·.1)) (e : Expr)
    (slot : Nat) : (scope.after e).map (·.1) = (env.after e slot).map (·.1) := by
  cases e with
  | labeled i label pick body =>
    cases label with
    | none => exact h
    | some label =>
      show (scope.define label).map (·.1) = (env.bind label.val slot).map (·.1)
      rw [Scope.map_fst_define, h]
      exact (map_fst_assign env label.val slot).symm
  | _ => exact h

/-- A label gets the slot of a result, or keeps the one that it has. -/
theorem Env.mem_slots_bind (env : Env) (label : String) (slot : Nat) :
    ∀ i ∈ (env.bind label slot).slots, i = slot ∨ i ∈ env.slots := by
  intro i hi
  obtain ⟨b, hb, rfl⟩ := List.mem_map.1 hi
  unfold Env.bind at hb
  split at hb
  · obtain ⟨b', hb', rfl⟩ := List.mem_map.1 hb
    split
    · exact .inl rfl
    · exact .inr (List.mem_map.2 ⟨b', hb', rfl⟩)
  · rcases List.mem_append.1 hb with hb | hb
    · exact .inr (List.mem_map.2 ⟨b, hb, rfl⟩)
    · rw [List.mem_singleton.1 hb]; exact .inl rfl

theorem Env.mem_slots_after (env : Env) (e : Expr) (slot : Nat) :
    ∀ i ∈ (env.after e slot).slots, i = slot ∨ i ∈ env.slots := by
  cases e with
  | labeled i label pick body =>
    cases label with
    | none => exact fun _ hi => .inr hi
    | some label => exact env.mem_slots_bind label.val slot
  | _ => exact fun _ hi => .inr hi

theorem mem_pickAfter (picks : List Nat) (e : Expr) (slot : Nat) :
    ∀ i ∈ pickAfter picks e slot, i = slot ∨ i ∈ picks := by
  cases e with
  | labeled i label pick body =>
    cases pick with
    | false => exact fun _ hi => .inr hi
    | true =>
      intro j hj
      exact (List.mem_append.1 hj).symm.imp_left List.mem_singleton.1
  | _ => exact fun _ hi => .inr hi

namespace Code

/-! ## Slots below the top -/

/-- There is one defect at most. -/
theorem reach_cases (slots : List Nat) (size : Nat) : reach slots size = [] ∨ ∃ why, reach slots size = [.defect why] := by
  unfold reach
  split
  · exact .inl rfl
  · exact .inr ⟨_, rfl⟩

theorem reach_eq_nil {slots : List Nat} {size : Nat} (h : ∀ i ∈ slots, i < size) : reach slots size = [] := by
  unfold reach
  rw [List.find?_eq_none.2 fun i hi => by simpa using h i hi]

theorem callHost_eq {env : Env} {size : Nat} (henv : ∀ i ∈ env.slots, i < size) (kind : FunctionKind) (code : HostCode)
    (pop : Nat) : callHost kind code env size pop =
      [.call ⟨kind, env.params, code.val, code.span⟩ pop (env.distances size)] := by
  unfold callHost
  rw [reach_eq_nil henv, List.append_nil]

theorem le_arraySlot (min : Option Boundary) (max : Boundary) (size : Nat) :
    size + boundSlots min max ≤ arraySlot min max size := Nat.le_add_right _ _

/-- The slot of a bound is that of a label, or its own. -/
theorem lt_of_mem_limitOf {env : Env} {size i : Nat} (henv : ∀ j ∈ env.slots, j < size) (b : Boundary)
    (hi : i ∈ (limitOf env size b).slots) : i < size + slotsOf b := by
  cases b with
  | constant count => cases hi
  | computed code => rw [List.mem_singleton.1 hi]; exact Nat.lt_succ_self size
  | label name =>
    unfold limitOf at hi
    dsimp only at hi
    cases h : env.lookup name.val with
    | none => rw [h] at hi; cases hi
    | some slot =>
      rw [h] at hi
      rw [List.mem_singleton.1 hi]
      obtain ⟨before, after, rfl, -⟩ := List.lookup_eq_some_iff.1 h
      exact henv slot (List.mem_map.2 ⟨(name.val, slot), by simp, rfl⟩)

/-- The slots of both bounds are below the array of their repetition. -/
theorem lt_arraySlot {env : Env} {size i : Nat} (henv : ∀ j ∈ env.slots, j < size) {min : Option Boundary} {max : Boundary}
    (hi : i ∈ (most min max env size).slots ++ (least min max env size).slots) : i < arraySlot min max size := by
  refine Nat.lt_of_lt_of_le ?_ (le_arraySlot min max size)
  have wider : ∀ j ∈ env.slots, j < size + min.elim 0 slotsOf := fun j hj => Nat.lt_add_right _ (henv j hj)
  unfold boundSlots
  rcases List.mem_append.1 hi with hi | hi
  · exact Nat.add_assoc .. ▸ lt_of_mem_limitOf wider max hi
  · have own := lt_of_mem_limitOf henv (min.getD max) hi
    cases min with
    | none => rwa [Option.elim_none, Nat.zero_add]
    | some min => exact Nat.lt_of_lt_of_le own (Nat.add_le_add_left (Nat.le_add_right _ _) size)

theorem reach_bounds {env : Env} {size : Nat} (henv : ∀ j ∈ env.slots, j < size) (min : Option Boundary) (max : Boundary) :
    reach ((most min max env size).slots ++ (least min max env size).slots) (arraySlot min max size) = [] :=
  reach_eq_nil fun _ => lt_arraySlot henv

/-! ## Properties of all that is emitted -/

/-- A property of code that is made of parts with it. -/
structure Emits (P : Code Inline → Prop) : Prop where
  nil : P []
  append : ∀ {a b}, P a → P b → P (a ++ b)
  single : ∀ {i}, i.isSingle = true → P [i]
  cond : ∀ {test yes no}, P yes → P no → P [.cond test yes no]
  whileOk : ∀ {body}, P body → P [.whileOk body]
  bracket : ∀ {s code}, code ≠ [] → P code → P ([.mapPush s] ++ code ++ [.mapPop])
  silenced : ∀ {code}, P code → P ([.silence] ++ code ++ [.unsilence])
  tested : ∀ {l no}, P no → P [.cond (.string l) [.acceptString l] no]

/-- The property holds of calls of host code. -/
def Allows (P : Code Inline → Prop) (code : HostCode) : Prop :=
  ∀ kind params pop args, P [.call ⟨kind, params, code.val, code.span⟩ pop args]

/-- The property holds of slots above the top, or these are all below it. -/
def Reaches (P : Code Inline → Prop) (slots : List Nat) (size : Nat) : Prop :=
  (∀ slot top, P [.defect (.slotAboveTop slot top)]) ∨ ∀ i ∈ slots, i < size

/-- The property holds of the calls that an expression makes, of the defects that it has where these labels are in
scope, and of what it consumes without a test. -/
structure Excuses (P : Code Inline → Prop) (p : Plan) (reserved : List String) (scope : Scope) (es : List Expr) :
    Prop where
  calls : ∀ e ∈ es, ∀ e' ∈ e.preorder, ∀ code ∈ e'.codes, Allows P code
  unresolved : ∀ e ∈ es, ∀ i name, .ruleRef i name none ∈ e.preorder → P [.defect (.unresolved name)]
  labels : (∀ name, P [.defect (.labelNotInScope name)]) ∨ ∀ e ∈ es, labelsIn reserved scope e = []
  literals : (∀ l, P [.acceptString l]) ∨ ∀ e ∈ es, ∀ i value, .literal i value false ∈ e.preorder → value ≠ "" →
    p.matched (.literal i value false) ≠ .always

section Emits

variable {P : Code Inline → Prop} {p : Plan} {m : MatchResult} {a b : Code Inline} {reserved : List String}
  {scope : Scope} {env : Env} {size : Nat}

namespace Reaches

theorem empty (size : Nat) : Reaches P [] size := .inr nofun

theorem mono {slots : List Nat} (h : Reaches P slots size) {more : Nat} (hle : size ≤ more) : Reaches P slots more :=
  h.imp_right fun h i hi => Nat.lt_of_lt_of_le (h i hi) hle

/-- The slot of the next result may be one of them. -/
theorem next {slots more : List Nat} (h : Reaches P slots size) (hmore : ∀ i ∈ more, i = size ∨ i ∈ slots) :
    Reaches P more (size + 1) := h.imp_right fun h i hi => by
  rcases hmore i hi with rfl | hi
  · exact Nat.lt_succ_self _
  · exact Nat.lt_succ_of_lt (h i hi)

end Reaches

namespace Excuses

/-- Subexpressions that see the same labels. -/
theorem child {e : Expr} {es : List Expr} (h : Excuses P p reserved scope [e]) (hc : ∀ c ∈ es, c ∈ e.children)
    (hl : labelsIn reserved scope e = [] → ∀ c ∈ es, labelsIn reserved scope c = []) :
    Excuses P p reserved scope es := by
  refine ⟨fun c hce e' he' => ?_, fun c hce i name hi => ?_,
    h.labels.imp_right fun hl' => hl (hl' e List.mem_cons_self), h.literals.imp_right fun hm c hce i value hi => ?_⟩
  · exact h.calls e List.mem_cons_self e' (Expr.mem_preorder_of_child (hc c hce) he')
  · exact h.unresolved e List.mem_cons_self i name (Expr.mem_preorder_of_child (hc c hce) hi)
  · exact hm e List.mem_cons_self i value (Expr.mem_preorder_of_child (hc c hce) hi)

theorem of_mem {e : Expr} {es : List Expr} (h : Excuses P p reserved scope es) (he : e ∈ es) :
    Excuses P p reserved scope [e] :=
  ⟨fun _ he' => List.mem_singleton.1 he' ▸ h.calls e he, fun _ he' => List.mem_singleton.1 he' ▸ h.unresolved e he,
    h.labels.imp_right fun hl _ he' => List.mem_singleton.1 he' ▸ hl e he,
    h.literals.imp_right fun hm _ he' => List.mem_singleton.1 he' ▸ hm e he⟩

/-- The calls that an expression makes itself. -/
theorem own {e : Expr} (h : Excuses P p reserved scope [e]) {code : HostCode} (hc : code ∈ e.codes) : Allows P code :=
  h.calls e List.mem_cons_self e (Expr.mem_preorder_self e) code hc

end Excuses

theorem labelsInEach_eq_nil {es : List Expr} (h : labelsInEach reserved scope es = []) :
    ∀ e ∈ es, labelsIn reserved scope e = [] := by
  induction es with
  | nil => intro e he; cases he
  | cons e es ih =>
    rw [labelsInEach, List.append_eq_nil_iff] at h
    intro e' he'
    rcases List.mem_cons.1 he' with rfl | he'
    · exact h.1
    · exact ih h.2 e' he'

namespace Emits

theorem all (hP : Emits P) (h : a.all Instr.isSingle = true) : P a := by
  induction a with
  | nil => exact hP.nil
  | cons i a ih =>
    rw [List.all_cons, Bool.and_eq_true] at h
    exact hP.append (hP.single h.1) (ih h.2)

theorem branch (hP : Emits P) {test : Test Inline} (hy : P a) (hn : P b) : P (branch m test a b) := by
  cases m with
  | always => exact hy
  | never => exact hn
  | sometimes => exact hP.cond hy hn

theorem mark (hP : Emits P) {e : Expr} (h : P a) : P (p.mark e a) := by
  unfold Plan.mark
  split
  · rename_i hmark
    refine hP.bracket ?_ h
    rintro rfl
    simp at hmark
  · exact h

theorem collect (hP : Emits P) (h : P a) : P (collect a) :=
  hP.append (hP.whileOk (hP.append (hP.all rfl) h)) (hP.all rfl)

theorem ofLiteral (hP : Emits P) (value : String) (ignoreCase : Bool)
    (h : (∀ l, P [.acceptString l]) ∨ (ignoreCase = false → value ≠ "" → m ≠ .always)) :
    P (ofLiteral m value ignoreCase) := by
  unfold Code.ofLiteral
  split
  · exact hP.all rfl
  · rename_i hvalue
    cases ignoreCase with
    | true => exact hP.branch (hP.all rfl) (hP.all rfl)
    | false =>
      rcases h with h | h
      · exact hP.branch (h value) (hP.all rfl)
      · cases m with
        | always => exact absurd rfl (h rfl hvalue)
        | never => exact hP.all rfl
        | sometimes => exact hP.tested (hP.all rfl)

theorem reach (hP : Emits P) {slots : List Nat} (h : Reaches P slots size) : P (reach slots size) := by
  rcases h with h | h
  · unfold Code.reach
    split
    · exact hP.nil
    · exact h _ _
  · rw [reach_eq_nil h]
    exact hP.nil

theorem callHost (hP : Emits P) {code : HostCode} (hc : Allows P code) (henv : Reaches P env.slots size)
    (kind : FunctionKind) (pop : Nat) : P (callHost kind code env size pop) :=
  hP.append (hc kind _ pop _) (hP.reach henv)

theorem ofPredicate (hP : Emits P) {code : HostCode} (hc : Allows P code) (henv : Reaches P env.slots size)
    (negative : Bool) : P (ofPredicate code negative env size) := by
  unfold Code.ofPredicate
  refine hP.append (hP.append (hP.all rfl) (hP.callHost hc henv _ _)) (hP.cond (hP.all ?_) (hP.all ?_)) <;>
    cases negative <;> rfl

theorem ofLookahead (hP : Emits P) {negative : Bool} (h : P a) : P (ofLookahead m negative a) := by
  unfold Code.ofLookahead
  have around : P ([.pushPos] ++ ([.silence] ++ a ++ [.unsilence])) := hP.append (hP.all rfl) (hP.silenced h)
  refine hP.append around ?_
  split <;> exact hP.branch (hP.all rfl) (hP.all rfl)

theorem ofNamed (hP : Emits P) (name : String) (h : P a) : P (ofNamed m name a) :=
  hP.append (hP.silenced h) (hP.branch (hP.all rfl) hP.nil)

theorem ofText (hP : Emits P) (h : P a) : P (ofText m a) :=
  hP.append (hP.append (hP.all rfl) h) (hP.branch (hP.all rfl) (hP.all rfl))

theorem ofOptional (hP : Emits P) (h : P a) : P (ofOptional m a) :=
  hP.append h (hP.branch (hP.all rfl) hP.nil)

theorem ofZeroOrMore (hP : Emits P) (h : P a) : P (ofZeroOrMore a) :=
  hP.append (hP.append (hP.all rfl) h) (hP.collect h)

theorem ofOneOrMore (hP : Emits P) (h : P a) : P (ofOneOrMore m a) :=
  hP.append (hP.append (hP.all rfl) h) (hP.branch (hP.collect h) (hP.all rfl))

theorem ofAction (hP : Emits P) {code : HostCode} (hc : Allows P code) (henv : Reaches P env.slots (size + 2)) (h : P a) :
    P (ofAction m code env size a) :=
  hP.append (hP.append (hP.append (hP.all rfl) h)
    (hP.branch (hP.append (hP.all rfl) (hP.callHost hc henv _ _)) hP.nil)) (hP.all rfl)

theorem delimited (hP : Emits P) {m' : MatchResult} (ha : P a) (hb : P b) : P (delimited m m' a b) :=
  hP.append (hP.append (hP.all rfl) ha) (hP.branch (hP.append (hP.append (hP.all rfl) hb)
    (hP.branch (hP.all rfl) (hP.all rfl))) (hP.all rfl))

theorem finish (hP : Emits P) {action : Option HostCode} (hc : ∀ code ∈ action, Allows P code) (done : Nat)
    {picks : List Nat} (henv : Reaches P env.slots size) (hpicks : Reaches P picks size) :
    P (finish action done size env picks) := by
  unfold Code.finish
  split
  · exact hP.append (hP.reach hpicks) (hP.all rfl)
  · cases action with
    | none => exact hP.all rfl
    | some code => exact hP.append (hP.all rfl) (hP.callHost (hc code rfl) henv _ _)

theorem abandon (hP : Emits P) (done : Nat) : P (abandon done) := by
  unfold Code.abandon
  split <;> exact hP.all rfl

theorem unlessFull (hP : Emits P) {limit : Limit} {array : Nat} (h : P a) : P (unlessFull limit array a) := by
  rcases limit with (_ | n) | index
  · exact h
  · exact hP.cond (hP.all rfl) h
  · exact hP.cond (hP.all rfl) h

theorem prepare (hP : Emits P) {b : Boundary} (hc : ∀ code ∈ b.codes, Allows P code) (hscope : scope.map (·.1) = env.map (·.1))
    (henv : Reaches P env.slots size) (hb : (∀ name, P [.defect (.labelNotInScope name)]) ∨ boundProblems scope b = []) :
    P (prepare env size b) := by
  cases b with
  | constant n => exact hP.nil
  | computed code => exact hP.callHost (hc code (List.mem_singleton_self code)) henv _ _
  | label name =>
    unfold Code.prepare
    dsimp only
    split
    · exact hP.nil
    · rename_i hn
      rcases hb with hb | hb
      · exact hb name.val
      · unfold boundProblems at hb
        dsimp only at hb
        rw [lookup_isSome_iff, ← hscope] at hn
        rw [if_neg fun h => hn (lookup_isSome_iff.1 h)] at hb
        cases hb

theorem ofRepeated (hP : Emits P) {min : Option Boundary} {max : Boundary}
    (hc : ∀ code ∈ min.elim [] Boundary.codes ++ max.codes, Allows P code) (hscope : scope.map (·.1) = env.map (·.1))
    (henv : Reaches P env.slots size) (hb : (∀ name, P [.defect (.labelNotInScope name)]) ∨
      min.elim [] (boundProblems scope) ++ boundProblems scope max = []) (hfirst : P a) (hitem : P b) :
    P (ofRepeated min max env size a b) := by
  have hmin : P (min.elim [] (Code.prepare env size)) := by
    cases min with
    | none => exact hP.nil
    | some min =>
      exact hP.prepare (fun code h => hc code (List.mem_append_left _ h)) hscope henv
        (hb.imp_right fun h => (List.append_eq_nil_iff.1 h).1)
  have hmax : P (Code.prepare env (size + min.elim 0 slotsOf) max) :=
    hP.prepare (fun code h => hc code (List.mem_append_right _ h)) hscope (henv.mono (Nat.le_add_right _ _))
      (hb.imp_right fun h => (List.append_eq_nil_iff.1 h).2)
  have hbounds : Reaches P ((most min max env size).slots ++ (least min max env size).slots) (arraySlot min max size) :=
    henv.imp_right fun h _ hi => lt_arraySlot h hi
  unfold Code.ofRepeated Code.prepareBounds
  refine hP.append (hP.append (hP.append (hP.append (hP.append (hP.append (hP.append (hP.append hmin hmax) ?_)
    (hP.all rfl)) (hP.unlessFull hfirst)) (hP.collect (hP.unlessFull hitem))) (hP.reach hbounds)) ?_) (hP.all ?_)
  · split
    · exact hP.all rfl
    · exact hP.nil
  · split
    · exact hP.cond (hP.all rfl) (hP.all rfl)
    · exact hP.nil
  · rw [List.all_eq_true]
    intro i hi
    rw [(List.mem_replicate.1 hi).2]
    rfl

/-- The property of the code of an expression, wherever it stands. -/
def Of (P : Code Inline → Prop) (p : Plan) (reserved : List String) (e : Expr) : Prop :=
  ∀ (scope : Scope) (env : Env) (size : Nat), scope.map (·.1) = env.map (·.1) → Reaches P env.slots size →
    Excuses P p reserved scope [e] → P (Code.ofExpr p e env size)

theorem ofOthers (hP : Emits P) {es : List Expr} (ih : ∀ e ∈ es, Of P p reserved e)
    (hscope : scope.map (·.1) = env.map (·.1)) (henv : Reaches P env.slots size) (h : Excuses P p reserved scope es)
    (before : MatchResult) : P (ofOthers p before es env size) := by
  induction es generalizing before with
  | nil => exact hP.nil
  | cons e es ihs =>
    unfold Code.ofOthers
    refine hP.branch (hP.append (hP.all rfl) (hP.append ?_ ?_)) hP.nil
    · exact ih e List.mem_cons_self scope env size hscope henv (h.of_mem List.mem_cons_self)
    · refine ihs (fun e' he' => ih e' (List.mem_cons_of_mem _ he'))
        ⟨fun e' he' => ?_, fun e' he' => ?_, h.labels.imp_right ?_, h.literals.imp_right ?_⟩ _
      · exact h.calls e' (List.mem_cons_of_mem _ he')
      · exact h.unresolved e' (List.mem_cons_of_mem _ he')
      · exact fun hl e' he' => hl e' (List.mem_cons_of_mem _ he')
      · exact fun hm e' he' => hm e' (List.mem_cons_of_mem _ he')

theorem ofElements (hP : Emits P) {action : Option HostCode} {es : List Expr} (ih : ∀ e ∈ es, Of P p reserved e)
    (hscope : scope.map (·.1) = env.map (·.1)) (haction : ∀ code ∈ action, Allows P code)
    (hcalls : ∀ e ∈ es, ∀ e' ∈ e.preorder, ∀ code ∈ e'.codes, Allows P code)
    (hrefs : ∀ e ∈ es, ∀ i name, .ruleRef i name none ∈ e.preorder → P [.defect (.unresolved name)])
    (hlabels : (∀ name, P [.defect (.labelNotInScope name)]) ∨ labelsInOrder reserved scope es = [])
    (hliterals : (∀ l, P [.acceptString l]) ∨ ∀ e ∈ es, ∀ i value, .literal i value false ∈ e.preorder → value ≠ "" →
      p.matched (.literal i value false) ≠ .always) (done : Nat) {picks : List Nat} (henv : Reaches P env.slots size)
    (hpicks : Reaches P picks size) : P (ofElements p action es done env picks size) := by
  induction es generalizing scope env done picks size with
  | nil => exact hP.finish haction done henv hpicks
  | cons e es ihs =>
    unfold Code.ofElements
    refine hP.append ?_ (hP.branch ?_ (hP.abandon done))
    · refine ih e List.mem_cons_self scope env size hscope henv
        ⟨fun e' he' => ?_, fun e' he' => ?_, hlabels.imp_right fun hl e' he' => ?_,
          hliterals.imp_right fun hm e' he' => ?_⟩
      · rw [List.mem_singleton.1 he']; exact hcalls e List.mem_cons_self
      · rw [List.mem_singleton.1 he']; exact hrefs e List.mem_cons_self
      · rw [List.mem_singleton.1 he']; exact (List.append_eq_nil_iff.1 hl).1
      · rw [List.mem_singleton.1 he']; exact hm e List.mem_cons_self
    · exact ihs (fun e' he' => ih e' (List.mem_cons_of_mem _ he')) (Scope.map_fst_after hscope e size)
        (fun e' he' => hcalls e' (List.mem_cons_of_mem _ he'))
        (fun e' he' => hrefs e' (List.mem_cons_of_mem _ he'))
        (hlabels.imp_right fun hl => (List.append_eq_nil_iff.1 hl).2)
        (hliterals.imp_right fun hm e' he' => hm e' (List.mem_cons_of_mem _ he')) _
        (henv.next (env.mem_slots_after e size)) (hpicks.next (mem_pickAfter picks e size))

theorem sequence (hP : Emits P) {i : Expr.Info} {action : Option HostCode} {es : List Expr}
    (ih : ∀ e ∈ es, Of P p reserved e) (hscope : scope.map (·.1) = env.map (·.1))
    (henv : Reaches P env.slots size) (haction : ∀ code ∈ action, Allows P code)
    (h : Excuses P p reserved scope [.sequence i es]) :
    P ([.pushPos] ++ Code.ofElements p action es 0 env [] (size + 1)) := by
  refine hP.append (hP.all rfl) (hP.ofElements ih hscope haction (fun e he e' he' => ?_) (fun e he i' name hi => ?_) ?_ ?_
    _ (henv.mono (Nat.le_succ size)) (.empty _))
  · exact h.calls _ List.mem_cons_self e' (Expr.mem_preorder_of_child he he')
  · exact h.unresolved _ List.mem_cons_self i' name (Expr.mem_preorder_of_child he hi)
  · exact h.labels.imp_right fun hl => hl _ List.mem_cons_self
  · exact h.literals.imp_right fun hm e he i' value hi =>
      hm _ List.mem_cons_self i' value (Expr.mem_preorder_of_child he hi)

/-- A property of all that is emitted holds of the code of expressions. -/
theorem ofExpr (hP : Emits P) (e : Expr) : Of P p reserved e := by
  -- the labels in scope go along with the code, so that bounds and host code find theirs
  induction e using Expr.induction with
  | choice i first others ihFirst ihOthers =>
    intro scope env size hscope henv h
    unfold Code.ofExpr
    have parts : Excuses P p reserved scope (first :: others) := h.child (fun c hc => hc) fun hl c hc => by
      rw [labelsIn, List.append_eq_nil_iff] at hl
      rcases List.mem_cons.1 hc with rfl | hc
      · exact hl.1
      · exact labelsInEach_eq_nil hl.2 c hc
    refine hP.mark (hP.append (ihFirst scope env size hscope henv (parts.of_mem List.mem_cons_self)) ?_)
    refine hP.ofOthers ihOthers hscope henv ⟨fun e he => ?_, fun e he => ?_, parts.labels.imp_right fun hl e he => ?_,
      parts.literals.imp_right fun hm e he => ?_⟩ _
    · exact parts.calls e (List.mem_cons_of_mem _ he)
    · exact parts.unresolved e (List.mem_cons_of_mem _ he)
    · exact hl e (List.mem_cons_of_mem _ he)
    · exact hm e (List.mem_cons_of_mem _ he)
  | sequence i elements ih =>
    intro scope env size hscope henv h
    unfold Code.ofExpr
    exact hP.mark (hP.sequence ih hscope henv (fun _ hc => by cases hc) h)
  | action i body code ih ihElements =>
    intro scope env size hscope henv h
    have allowed : Allows P code := h.own (List.mem_singleton_self code)
    have inBody : Excuses P p reserved scope [body] := h.child (fun c hc => hc) fun hl c hc => by
      rw [List.mem_singleton.1 hc]
      rw [labelsIn] at hl; exact hl
    refine Expr.action_cases body (fun j elements hb => ?_) fun hb => ?_
    · subst hb
      unfold Code.ofExpr
      exact hP.mark (hP.mark (hP.sequence ihElements hscope henv (fun _ hc => by cases hc; exact allowed) inBody))
    · rw [Code.ofExpr]
      · exact hP.mark (hP.ofAction allowed ((henv.mono (Nat.le_succ size)).next (env.mem_slots_after body (size + 1)))
        (ih scope env (size + 1) hscope (henv.mono (Nat.le_succ size)) inBody))
      · exact hb
  | labeled i label pick body ih =>
    intro scope env size hscope henv h
    unfold Code.ofExpr
    refine hP.mark (ih scope env size hscope henv (h.child (fun c hc => hc) fun hl c hc => ?_))
    rw [labelsIn, List.append_eq_nil_iff] at hl
    rw [List.mem_singleton.1 hc]; exact hl.1
  | repeated i body min max delimiter ih ihDelimiter =>
    intro scope env size hscope henv h
    have inArray (n : Nat) : size ≤ arraySlot min max size + n :=
      Nat.le_trans (Nat.le_add_right _ _) (Nat.le_trans (le_arraySlot min max size) (Nat.le_add_right _ n))
    cases delimiter with
    | none =>
      have hl := h.labels.imp_right fun hl => by
        have := hl _ List.mem_cons_self
        rw [labelsIn] at this
        exact List.append_eq_nil_iff.1 this
      have inBody : Excuses P p reserved scope [body] := h.child (fun c hc => hc) fun hl c hc => by
        rw [labelsIn] at hl
        rw [List.mem_singleton.1 hc]; exact (List.append_eq_nil_iff.1 hl).2
      have hbody := ih scope env (arraySlot min max size + 1) hscope (henv.mono (inArray 1)) inBody
      unfold Code.ofExpr
      exact hP.mark (hP.ofRepeated (fun code hc => h.own hc) hscope henv (hl.imp_right And.left) hbody hbody)
    | some d =>
      have hl := h.labels.imp_right fun hl => by
        have := hl _ List.mem_cons_self
        rw [labelsIn, List.append_eq_nil_iff, List.append_eq_nil_iff] at this
        exact this
      have parts : Excuses P p reserved scope [body, d] := h.child (fun c hc => hc) fun hl c hc => by
        rw [labelsIn, List.append_eq_nil_iff, List.append_eq_nil_iff] at hl
        simp only [List.mem_cons, List.not_mem_nil, or_false] at hc
        rcases hc with rfl | rfl
        · exact hl.2
        · exact hl.1.2
      have hbody (n : Nat) := ih scope env (arraySlot min max size + n) hscope (henv.mono (inArray n))
        (parts.of_mem List.mem_cons_self)
      have hdelimiter := ihDelimiter d rfl scope env (arraySlot min max size + 2) hscope (henv.mono (inArray 2))
        (parts.of_mem (List.mem_cons_of_mem _ List.mem_cons_self))
      unfold Code.ofExpr
      exact hP.mark (hP.ofRepeated (fun code hc => h.own hc) hscope henv (hl.imp_right fun h => h.1.1) (hbody _)
        (hP.delimited hdelimiter (hbody _)))
  | ruleRef i name target =>
    intro scope env size hscope henv h
    cases target with
    | none =>
      unfold Code.ofExpr
      exact hP.mark (h.unresolved _ List.mem_cons_self i name (Expr.mem_preorder_self _))
    | some t => unfold Code.ofExpr; exact hP.mark (hP.all rfl)
  | semanticAnd i code | semanticNot i code =>
    intro scope env size hscope henv h
    unfold Code.ofExpr
    exact hP.mark (hP.ofPredicate (h.own (List.mem_singleton_self code)) henv _)
  | literal i value ignoreCase =>
    intro scope env size hscope henv h
    unfold Code.ofExpr
    refine hP.mark (hP.ofLiteral value ignoreCase (h.literals.imp_right fun hm hcase hvalue => ?_))
    subst hcase
    exact hm _ List.mem_cons_self i value (Expr.mem_preorder_self _) hvalue
  | charClass i k =>
    intro scope env size hscope henv h
    unfold Code.ofExpr
    exact hP.mark (hP.branch (hP.all rfl) (hP.all rfl))
  | any i =>
    intro scope env size hscope henv h
    unfold Code.ofExpr
    exact hP.mark (hP.branch (hP.all rfl) (hP.all rfl))
  | text i body ih | simpleAnd i body ih | simpleNot i body ih | optional i body ih | zeroOrMore i body ih
  | oneOrMore i body ih | group i body ih | named i name body ih =>
    intro scope env size hscope henv h
    have inBody : Excuses P p reserved scope [body] := h.child (fun c hc => hc) fun hl c hc => by
      rw [List.mem_singleton.1 hc]
      rw [labelsIn] at hl; exact hl
    have hbody := ih scope env size hscope henv inBody
    have hinside := ih scope env (size + 1) hscope (henv.mono (Nat.le_succ size)) inBody
    unfold Code.ofExpr
    first
      | exact hP.mark (hP.ofText hinside)
      | exact hP.mark (hP.ofLookahead hinside)
      | exact hP.mark (hP.ofOptional hbody)
      | exact hP.mark (hP.ofZeroOrMore hinside)
      | exact hP.mark (hP.ofOneOrMore hinside)
      | exact hP.mark (hP.ofNamed _ hbody)
      | exact hP.mark hbody

/-- A property of all that is emitted holds of the code of rules. -/
theorem ofRule (hP : Emits P) {r : Rule} (h : Excuses P p reserved [] [r.body]) : P (ofRule p r) := by
  have hbody := hP.ofExpr (p := p) r.body [] [] 0 rfl (.empty 0) h
  unfold Code.ofRule
  split
  · exact hP.ofNamed _ hbody
  · exact hbody

end Emits

end Emits

/-! ## Assembling what is emitted -/

theorem emits_bracketed : Emits Bracketed where
  nil := .nil
  append := .append
  single := fun hi => .alone (Instr.isAlone_of_isSingle hi) .nil
  cond := fun hy hn => .cond hy hn .nil
  whileOk := fun hb => .whileOk hb .nil
  bracket := fun hsome h => .bracket hsome h .nil
  silenced := fun h => .alone rfl (h.append (.alone rfl .nil))
  tested := fun hn => .cond (.alone rfl .nil) hn .nil

/-- The constants of the code can be added to any pools, but for these reasons. -/
def FailsFor (excused : CodeError → Prop) (code : Code Inline) : Prop :=
  ∀ g why g', gather code g = .error why g' → excused why

section FailsFor

variable {excused : CodeError → Prop}

theorem failsFor_append {a b : Code Inline} (ha : FailsFor excused a) (hb : FailsFor excused b) :
    FailsFor excused (a ++ b) := fun g why g' h => by
  rcases gather_append_error.1 h with h | ⟨g₁, -, h⟩
  · exact ha g why g' h
  · exact hb g₁ why g' h

theorem failsFor_singleton {i : Instr Inline} (h : ∀ g why g', i.gather g = .error why g' → excused why) :
    FailsFor excused [i] := fun g why g' hg => by
  rcases bind_error_iff.1 hg with hg | ⟨_, g₁, -, hg⟩
  · exact h g why g' hg
  · cases hg

theorem failsFor_alone {i : Instr Inline} (hi : i.isAlone = true) : FailsFor excused [i] :=
  failsFor_singleton fun g why g' h => by
    cases i with
    | cond | whileOk | mapPush | mapPop | defect | call => cases hi
    | _ => cases h

theorem failsFor_cond {test : Test Inline} {yes no : Code Inline} (hy : FailsFor excused yes) (hn : FailsFor excused no) :
    FailsFor excused [.cond test yes no] := failsFor_singleton fun g why g' h => by
  rcases bind_error_iff.1 h with h | ⟨_, g₁, -, h⟩
  · cases test <;> cases h
  rcases bind_error_iff.1 h with h | ⟨_, g₂, -, h⟩
  · exact hy g₁ why g' h
  · exact hn g₂ why g' h

theorem emits_failsFor (excused : CodeError → Prop) : Emits (FailsFor excused) where
  nil := nofun
  append := failsFor_append
  single := fun hi => failsFor_alone (Instr.isAlone_of_isSingle hi)
  cond := failsFor_cond
  silenced := fun h => failsFor_append (failsFor_append (failsFor_alone rfl) h) (failsFor_alone rfl)
  tested := fun hn => failsFor_cond (failsFor_alone rfl) hn
  whileOk := fun hb => failsFor_singleton hb
  bracket := fun _ h => failsFor_append (failsFor_append (failsFor_singleton nofun) h) (failsFor_singleton nofun)

/-- Code that has its labels in scope fails for references only. -/
theorem excuses_failsFor {p : Plan} {reserved : List String} {scope : Scope} {e : Expr}
    (hrefs : ∀ i name, .ruleRef i name none ∈ e.preorder → excused (.unresolved name))
    (hlabels : labelsIn reserved scope e = []) : Excuses (FailsFor excused) p reserved scope [e] := by
  refine ⟨fun _ _ _ _ _ _ _ _ _ _ => failsFor_singleton nofun, fun e' he i name hi => ?_, .inr fun e' he => ?_,
    .inl fun _ => failsFor_alone rfl⟩
  · rw [List.mem_singleton.1 he] at hi
    refine failsFor_singleton fun g why g' h => ?_
    cases h
    exact hrefs i name hi
  · rw [List.mem_singleton.1 he]; exact hlabels

end FailsFor

theorem bracketed_ofExpr (p : Plan) (e : Expr) (env : Env) (size : Nat) : Bracketed (ofExpr p e env size) := by
  have excused : Code.Excuses Bracketed p [] (env.map fun b => (b.1, .empty)) [e] :=
    ⟨fun _ _ _ _ _ _ _ _ _ _ => .call .nil, fun _ _ _ _ _ => .defect .nil, .inl fun _ => .defect .nil,
      .inl fun _ => .alone rfl .nil⟩
  refine emits_bracketed.ofExpr e (env.map fun b => (b.1, .empty)) env size ?_ (.inl fun _ _ => .defect .nil) excused
  rw [List.map_map]; rfl

theorem bracketed_ofRule (p : Plan) (r : Rule) : Bracketed (ofRule p r) :=
  have excused : Code.Excuses Bracketed p [] [] [r.body] :=
    ⟨fun _ _ _ _ _ _ _ _ _ _ => .call .nil, fun _ _ _ _ _ => .defect .nil, .inl fun _ => .defect .nil,
      .inl fun _ => .alone rfl .nil⟩
  emits_bracketed.ofRule excused

section Assemble

variable {p : Plan} {reserved : List String} {code : Code Inline}

theorem FailsFor.of_assemble {excused : CodeError → Prop} (h : FailsFor excused code) {k k' : Constants} {why : CodeError}
    (hcode : code.assemble k = .error why k') : excused why := by
  unfold Code.assemble at hcode
  split at hcode
  · cases hcode
  · rename_i why' g hg
    cases hcode
    exact h _ _ _ hg

/-- Code that fails for no reason is assembled. -/
theorem FailsFor.assemble (h : FailsFor (fun _ => False) code) (k : Constants) :
    ∃ pooled k', code.assemble k = .ok pooled k' := by
  cases hcode : code.assemble k with
  | ok pooled k' => exact ⟨pooled, k', rfl⟩
  | error why k' => exact (h.of_assemble hcode).elim

/-- An expression is assembled where its references stand for rules and its labels are in scope and on the stack. -/
theorem assemble_ofExpr {e : Expr} {scope : Scope} {env : Env} (hscope : scope.map (·.1) = env.map (·.1)) {size : Nat}
    (henv : ∀ i ∈ env.slots, i < size) (hrefs : ∀ i name, .ruleRef i name none ∉ e.preorder)
    (hlabels : labelsIn reserved scope e = []) (k : Constants) :
    ∃ code k', (ofExpr p e env size).assemble k = .ok code k' :=
  ((emits_failsFor _).ofExpr e scope env size hscope (.inr henv) (excuses_failsFor hrefs hlabels)).assemble k

/-- So is a rule. -/
theorem assemble_ofRule {r : Rule} (hrefs : ∀ i name, .ruleRef i name none ∉ r.body.preorder)
    (hlabels : labelsIn reserved [] r.body = []) (k : Constants) : ∃ code k', (ofRule p r).assemble k = .ok code k' :=
  ((emits_failsFor _).ofRule (excuses_failsFor hrefs hlabels)).assemble k

/-- With its labels in scope a rule fails to be assembled for references only. -/
theorem unresolved_of_assemble {r : Rule} (hlabels : labelsIn reserved [] r.body = []) {k k' : Constants} {why : CodeError}
    (h : (ofRule p r).assemble k = .error why k') : ∃ name, why = .unresolved name :=
  have fails : FailsFor (fun why => ∃ name, why = .unresolved name) (ofRule p r) :=
    (emits_failsFor _).ofRule (excuses_failsFor (fun _ name _ => ⟨name, rfl⟩) hlabels)
  fails.of_assemble h

end Assemble

end Code

end PegCompiler
