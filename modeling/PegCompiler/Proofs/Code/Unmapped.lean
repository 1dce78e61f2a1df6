/-
Code without its places in the grammar. Code that is not asked to tell them is the code that is, with the brackets
left out (`unmapped_ofExpr`), and its constants have the same indexes, since places are in a pool of their own
(`gather_unmapped`, `link_unmapped`). In every block of code that was linked the brackets are balanced
(`Bracketed.balanced`).
-/
import PegCompiler.Proofs.Code.OfExpr

namespace PegCompiler

mutual

/-- The instruction without the brackets in its blocks; nothing for one end of a bracket. -/
def Instr.unmapped {ν : Naming} : Instr ν → Code ν
  | .mapPush _ | .mapPop => []
  | .cond test yes no => [.cond test (Code.unmapped yes) (Code.unmapped no)]
  | .whileOk body => [.whileOk (Code.unmapped body)]
  | i => [i]

/-- The code without brackets, also in blocks. -/
def Code.unmapped {ν : Naming} : Code ν → Code ν
  | [] => []
  | i :: code => i.unmapped ++ Code.unmapped code

end

namespace Code

section Unmapped

variable {ν : Naming}

theorem unmapped_append (a b : Code ν) : unmapped (a ++ b) = unmapped a ++ unmapped b := by
  induction a with
  | nil => rfl
  | cons i a ih => simp only [List.cons_append, unmapped, ih, List.append_assoc]

/-- Instructions without blocks that end no bracket stay. -/
theorem unmapped_all {a : Code ν} (h : a.all Instr.isAlone = true) : unmapped a = a := by
  induction a with
  | nil => rfl
  | cons i a ih =>
    rw [List.all_cons, Bool.and_eq_true] at h
    rw [unmapped, ih h.2]
    cases i with
    | cond | whileOk | mapPush | mapPop | defect | call => cases h.1
    | _ => rfl

end Unmapped

/-! ## What is emitted -/

/-- The plan for code that does not tell where it comes from. -/
def Plan.unmapped (p : Plan) : Plan := { p with mapped := false }

section Emitted

variable {p : Plan} {m m' : MatchResult} {a b : Code Inline} {env : Env} {size : Nat}

theorem unmapped_branch (test : Test Inline) : unmapped (branch m test a b) = branch m test (unmapped a) (unmapped b) := by
  cases m <;> rfl

theorem unmapped_mark (e : Expr) : unmapped (p.mark e a) = p.unmapped.mark e (unmapped a) := by
  show unmapped (p.mark e a) = unmapped a
  unfold Plan.mark
  split
  · rw [unmapped_append, unmapped_append]
    exact List.append_nil _
  · rfl

theorem unmapped_ofLiteral (value : String) (ignoreCase : Bool) :
    unmapped (ofLiteral m value ignoreCase) = ofLiteral m value ignoreCase := by
  unfold ofLiteral
  split
  · rfl
  · cases ignoreCase <;> exact unmapped_branch _

theorem unmapped_reach (slots : List Nat) : unmapped (reach slots size) = reach slots size := by
  rcases reach_cases slots size with h | ⟨_, h⟩ <;> (rw [h]; rfl)

theorem unmapped_callHost (kind : FunctionKind) (host : HostCode) (pop : Nat) :
    unmapped (callHost kind host env size pop) = callHost kind host env size pop := by
  unfold callHost
  rw [unmapped_append, unmapped_reach]
  rfl

theorem unmapped_ofPredicate (host : HostCode) (negative : Bool) :
    unmapped (ofPredicate host negative env size) = ofPredicate host negative env size := by
  unfold ofPredicate
  rw [unmapped_append, unmapped_append, unmapped_callHost]
  cases negative <;> rfl

theorem unmapped_ofLookahead (negative : Bool) :
    unmapped (ofLookahead m negative a) = ofLookahead m negative (unmapped a) := by
  unfold ofLookahead
  cases negative <;> simp only [unmapped_append, if_true, if_false, Bool.false_eq_true, unmapped_branch] <;> rfl

theorem unmapped_ofNamed (name : String) : unmapped (ofNamed m name a) = ofNamed m name (unmapped a) := by
  unfold ofNamed
  simp only [unmapped_append, unmapped_branch]
  rfl

theorem unmapped_ofText : unmapped (ofText m a) = ofText m (unmapped a) := by
  unfold ofText
  simp only [unmapped_append, unmapped_branch]
  rfl

theorem unmapped_ofOptional : unmapped (ofOptional m a) = ofOptional m (unmapped a) := by
  unfold ofOptional
  simp only [unmapped_append, unmapped_branch]
  rfl

theorem unmapped_collect : unmapped (collect a) = collect (unmapped a) := rfl

theorem unmapped_ofZeroOrMore : unmapped (ofZeroOrMore a) = ofZeroOrMore (unmapped a) := by
  unfold ofZeroOrMore
  simp only [unmapped_append, unmapped_collect]
  rfl

theorem unmapped_ofOneOrMore : unmapped (ofOneOrMore m a) = ofOneOrMore m (unmapped a) := by
  unfold ofOneOrMore
  simp only [unmapped_append, unmapped_branch, unmapped_collect]
  rfl

theorem unmapped_ofAction (host : HostCode) :
    unmapped (ofAction m host env size a) = ofAction m host env size (unmapped a) := by
  unfold ofAction
  simp only [unmapped_append, unmapped_branch, unmapped_callHost]
  rfl

theorem unmapped_delimited : unmapped (delimited m m' a b) = delimited m m' (unmapped a) (unmapped b) := by
  unfold delimited
  simp only [unmapped_append, unmapped_branch]
  rfl

theorem unmapped_finish (action : Option HostCode) (done : Nat) (picks : List Nat) :
    unmapped (finish action done size env picks) = finish action done size env picks := by
  unfold finish
  split
  · rw [unmapped_append, unmapped_reach]
    rfl
  · cases action with
    | none => rfl
    | some host =>
      dsimp only
      rw [unmapped_append, unmapped_callHost]
      rfl

theorem unmapped_abandon (done : Nat) : unmapped (abandon done) = abandon done := by
  refine unmapped_all ?_
  unfold abandon
  split <;> rfl

theorem unmapped_unlessFull (limit : Limit) (array : Nat) :
    unmapped (unlessFull limit array a) = unlessFull limit array (unmapped a) := by
  rcases limit with (_ | n) | index <;> rfl

theorem unmapped_prepare (bound : Boundary) : unmapped (prepare env size bound) = prepare env size bound := by
  cases bound with
  | constant => rfl
  | computed host => exact unmapped_callHost .boundary host 0
  | label name =>
    unfold prepare
    dsimp only
    split <;> rfl

theorem unmapped_ofRepeated (min : Option Boundary) (max : Boundary) :
    unmapped (ofRepeated min max env size a b) = ofRepeated min max env size (unmapped a) (unmapped b) := by
  have bounds : unmapped (prepareBounds min max env size) = prepareBounds min max env size := by
    unfold prepareBounds
    rw [unmapped_append, unmapped_prepare]
    cases min with
    | none => rfl
    | some min => exact congrArg (· ++ _) (unmapped_prepare min)
  have nips : unmapped (List.replicate (boundSlots min max) .nip : Code Inline) = List.replicate (boundSlots min max) .nip :=
    unmapped_all (List.all_eq_true.2 fun i hi => by rw [(List.mem_replicate.1 hi).2]; rfl)
  unfold ofRepeated
  simp only [unmapped_append, unmapped_collect, unmapped_unlessFull, unmapped_reach, bounds, nips]
  cases needsLeast min max <;> rfl

/-- Code that does not tell where it comes from is code that does, without the brackets. -/
def Unmaps (p : Plan) (e : Expr) : Prop := ∀ env size, unmapped (ofExpr p e env size) = ofExpr p.unmapped e env size

theorem unmapped_ofOthers {es : List Expr} (ih : ∀ e ∈ es, Unmaps p e) (before : MatchResult) :
    unmapped (ofOthers p before es env size) = ofOthers p.unmapped before es env size := by
  induction es generalizing before with
  | nil => rfl
  | cons e es ihs =>
    unfold ofOthers
    rw [unmapped_branch, unmapped_append, unmapped_append, ih e List.mem_cons_self,
      ihs fun e' he => ih e' (List.mem_cons_of_mem _ he)]
    rfl

theorem unmapped_ofElements {action : Option HostCode} {es : List Expr} (ih : ∀ e ∈ es, Unmaps p e) (done : Nat)
    (picks : List Nat) :
    unmapped (ofElements p action es done env picks size) = ofElements p.unmapped action es done env picks size := by
  induction es generalizing env done picks size with
  | nil => exact unmapped_finish action done picks
  | cons e es ihs =>
    unfold ofElements
    rw [unmapped_append, unmapped_branch, unmapped_abandon, ih e List.mem_cons_self,
      ihs fun e' he => ih e' (List.mem_cons_of_mem _ he)]
    rfl

theorem unmapped_sequence {action : Option HostCode} {es : List Expr} (ih : ∀ e ∈ es, Unmaps p e) :
    unmapped ([.pushPos] ++ ofElements p action es 0 env [] (size + 1)) =
      [.pushPos] ++ ofElements p.unmapped action es 0 env [] (size + 1) := by
  rw [unmapped_append, unmapped_ofElements ih]
  rfl

theorem unmapped_ofExpr (p : Plan) (e : Expr) : Unmaps p e := by
  -- marks are all that is dropped, and each operator is made from its parts in the same way without them
  induction e using Expr.induction with
  | choice i first others ih ihs =>
    intro env size
    unfold ofExpr
    rw [unmapped_mark, unmapped_append, ih, unmapped_ofOthers ihs]
    rfl
  | sequence i elements ih =>
    intro env size
    unfold ofExpr
    rw [unmapped_mark, unmapped_sequence ih]
  | labeled i label pick body ih | group i body ih =>
    intro env size
    unfold ofExpr
    rw [unmapped_mark, ih]
  | action i body host ih ihElements =>
    intro env size
    refine Expr.action_cases body (fun j elements hb => ?_) fun hb => ?_
    · subst hb
      have ihElements : ∀ e ∈ elements, Unmaps p e := ihElements
      unfold ofExpr
      rw [unmapped_mark, unmapped_mark, unmapped_sequence ihElements]
    · rw [ofExpr, ofExpr]
      · rw [unmapped_mark, unmapped_ofAction, ih]
        rfl
      · exact hb
      · exact hb
  | zeroOrMore i body ih =>
    intro env size
    unfold ofExpr
    rw [unmapped_mark, unmapped_ofZeroOrMore, ih]
  | text i body ih | simpleAnd i body ih | simpleNot i body ih | optional i body ih | oneOrMore i body ih
  | named i name body ih =>
    intro env size
    unfold ofExpr
    rw [unmapped_mark]
    first
      | rw [unmapped_ofText, ih]
      | rw [unmapped_ofLookahead, ih]
      | rw [unmapped_ofOptional, ih]
      | rw [unmapped_ofOneOrMore, ih]
      | rw [unmapped_ofNamed, ih]
    rfl
  | semanticAnd i host | semanticNot i host =>
    intro env size
    unfold ofExpr
    rw [unmapped_mark, unmapped_ofPredicate]
  | repeated i body min max delimiter ih ihDelimiter =>
    intro env size
    cases delimiter with
    | none =>
      unfold ofExpr
      rw [unmapped_mark, unmapped_ofRepeated, ih]
    | some d =>
      unfold ofExpr
      rw [unmapped_mark, unmapped_ofRepeated, unmapped_delimited, ih, ih, ihDelimiter d rfl]
      rfl
  | ruleRef i name target =>
    intro env size
    cases target <;> (unfold ofExpr; exact unmapped_mark _)
  | literal i value ignoreCase =>
    intro env size
    unfold ofExpr
    rw [unmapped_mark, unmapped_ofLiteral]
    rfl
  | charClass | any =>
    intro env size
    unfold ofExpr
    rw [unmapped_mark]
    exact congrArg _ (unmapped_branch _)

theorem unmapped_ofRule (p : Plan) (r : Rule) : unmapped (ofRule p r) = ofRule p.unmapped r := by
  unfold ofRule
  split
  · rw [unmapped_ofNamed, unmapped_ofExpr]
    rfl
  · exact unmapped_ofExpr p r.body [] 0

/-! ## Slots -/

theorem peakOthers_unmapped {es : List Expr} (h : ∀ e ∈ es, ∀ size, peak p.unmapped e size = peak p e size)
    (before : MatchResult) (size : Nat) : peakOthers p.unmapped before es size = peakOthers p before es size := by
  induction es generalizing before size with
  | nil => rfl
  | cons e es ih =>
    unfold peakOthers
    rw [h e List.mem_cons_self, ih fun e' he => h e' (List.mem_cons_of_mem _ he)]
    rfl

theorem peakElements_unmapped {es : List Expr} (h : ∀ e ∈ es, ∀ size, peak p.unmapped e size = peak p e size)
    (size : Nat) : peakElements p.unmapped es size = peakElements p es size := by
  induction es generalizing size with
  | nil => rfl
  | cons e es ih =>
    unfold peakElements
    rw [h e List.mem_cons_self, ih fun e' he => h e' (List.mem_cons_of_mem _ he)]
    rfl

/-- Places take no slots. -/
theorem peak_unmapped (p : Plan) (e : Expr) (size : Nat) : peak p.unmapped e size = peak p e size := by
  induction e using Expr.induction generalizing size with
  | choice i first es ih ihs =>
    unfold peak
    rw [ih, peakOthers_unmapped ihs]
    rfl
  | sequence i es ih =>
    unfold peak
    rw [peakElements_unmapped ih]
  | action i body host ih ihElements =>
    refine Expr.action_cases body (fun j es hb => ?_) fun hb => ?_
    · subst hb
      have ihElements : ∀ e ∈ es, ∀ size, peak p.unmapped e size = peak p e size := ihElements
      unfold peak
      rw [peakElements_unmapped ihElements]
    · rw [peak, peak]
      · exact ih _
      · exact hb
      · exact hb
  | repeated i body min max delimiter ih ihDelimiter =>
    cases delimiter with
    | none =>
      unfold peak
      exact ih _
    | some d =>
      unfold peak
      simp only [ih, ihDelimiter d rfl]
      rfl
  | labeled i label pick body ih | optional i body ih | group i body ih | named i name body ih | text i body ih
  | simpleAnd i body ih | simpleNot i body ih | zeroOrMore i body ih | oneOrMore i body ih =>
    unfold peak
    exact ih _
  | semanticAnd | semanticNot | ruleRef | literal | charClass | any => rfl

end Emitted

end Code

/-! ## Pools -/

/-- Pools without places in the grammar. -/
def Constants.unmapped (k : Constants) : Constants := { k with origins := .empty }

namespace Code

/-- Code without brackets adds the same constants, but no places. -/
theorem gather_unmapped {code : Code Inline} {g g' : Gathered} (h : gather code g = .ok ⟨⟩ g') :
    gather (unmapped code) ⟨g.constants.unmapped, []⟩ = .ok ⟨⟩ ⟨g'.constants.unmapped, []⟩ := by
  induction code using induction generalizing g g' with
  | nil =>
    cases h
    rfl
  | plain i code hi ih =>
    obtain ⟨_, g₁, h₁, h⟩ := bind_ok_iff.1 h
    have rest := ih h
    cases i with
    | cond | whileOk => cases hi
    | defect => cases h₁
    | mapPush =>
      cases h₁
      exact rest
    | mapPop =>
      -- the place is added where its bracket ends
      have closed : g₁.constants.unmapped = g.constants.unmapped := by
        have h₁ : Gathering.close g = .ok ⟨⟩ g₁ := h₁
        obtain ⟨k, opened⟩ := g
        cases opened <;> (cases h₁; rfl)
      rw [closed] at rest
      exact rest
    | _ =>
      cases h₁
      exact bind_ok_iff.2 ⟨⟨⟩, _, rfl, rest⟩
  | cond test yes no code ihYes ihNo ih =>
    obtain ⟨_, g₁, h₁, h⟩ := bind_ok_iff.1 h
    obtain ⟨_, g₂, h₂, h₁⟩ := bind_ok_iff.1 h₁
    obtain ⟨_, g₃, h₃, h₁⟩ := bind_ok_iff.1 h₁
    have tested : test.gather ⟨g.constants.unmapped, []⟩ = .ok ⟨⟩ ⟨g₂.constants.unmapped, []⟩ := by
      cases test <;> (cases h₂; rfl)
    exact bind_ok_iff.2 ⟨⟨⟩, _, bind_ok_iff.2 ⟨⟨⟩, _, tested, bind_ok_iff.2 ⟨⟨⟩, _, ihYes h₃, ihNo h₁⟩⟩, ih h⟩
  | whileOk body code ihBody ih =>
    obtain ⟨_, g₁, h₁, h⟩ := bind_ok_iff.1 h
    exact bind_ok_iff.2 ⟨⟨⟩, _, ihBody h₁, ih h⟩

/-- What is left of linked code is linked code of what is left. -/
theorem link_unmapped (k : Constants) (code : Code Inline) : link k.unmapped (unmapped code) = unmapped (link k code) := by
  induction code using induction with
  | nil => rfl
  | plain i code hi ih =>
    rw [unmapped, link_append, ih, link, unmapped_append]
    cases i with
    | cond | whileOk => cases hi
    | _ => rfl
  | cond test yes no code ihYes ihNo ih =>
    have same : test.link k.unmapped = test.link k := by cases test <;> rfl
    simp only [unmapped, Instr.unmapped, link, Instr.link, List.cons_append, List.nil_append, ihYes, ihNo, ih,
      same]
  | whileOk body code ihBody ih =>
    simp only [unmapped, Instr.unmapped, link, Instr.link, List.cons_append, List.nil_append, ihBody, ih]

theorem raw_unmapped (code : Code Pooled) : raw (unmapped code) = unmapped (raw code) := by
  induction code using induction with
  | nil => rfl
  | plain i code hi ih =>
    rw [unmapped, raw_append, ih, raw, unmapped]
    cases i with
    | cond | whileOk => cases hi
    | defect why => cases why
    | _ => rfl
  | cond test yes no code ihYes ihNo ih =>
    simp only [unmapped, Instr.unmapped, raw, Instr.raw, List.cons_append, List.nil_append, ihYes, ihNo, ih]
  | whileOk body code ihBody ih =>
    simp only [unmapped, Instr.unmapped, raw, Instr.raw, List.cons_append, List.nil_append, ihBody, ih]

/-- A place has some code in it, which is left when the place goes. -/
theorem Bracketed.unmapped_ne_nil {k : Constants} {code : Code Inline} (h : Bracketed code) (known : Known k code)
    (hcode : code ≠ []) : unmapped (raw (link k code)) ≠ [] := by
  induction h with
  | nil => exact absurd rfl hcode
  | @alone i code hi =>
    cases i with
    | cond | whileOk | mapPush | mapPop | defect | call => cases hi
    | _ => exact List.cons_ne_nil _ _
  | call | cond | whileOk => exact List.cons_ne_nil _ _
  | defect => exact known.1.elim
  | @bracket s inner code hsome _ _ ihInner =>
    intro hnil
    have split : unmapped (raw (link k (inner ++ .mapPop :: code))) = [] := hnil
    rw [link_append, raw_append, unmapped_append, List.append_eq_nil_iff] at split
    exact ihInner (known_append.1 known.2).1 hsome split.1

/-- So no block gets empty. -/
theorem Bracketed.isEmpty_unmapped {k : Constants} {code : Code Inline} (h : Bracketed code) (known : Known k code) :
    (unmapped (raw (link k code))).isEmpty = (raw (link k code)).isEmpty := by
  cases code with
  | nil => rfl
  | cons i code =>
    have left := h.unmapped_ne_nil known (List.cons_ne_nil _ _)
    rw [List.isEmpty_eq_false_iff.2 left, List.isEmpty_eq_false_iff.2 fun hnil => left (by rw [hnil]; rfl)]

theorem assemble_unmapped {code : Code Inline} {k k' : Constants} {pooled : Code Pooled}
    (h : code.assemble k = .ok pooled k') : (unmapped code).assemble k.unmapped = .ok (unmapped pooled) k'.unmapped := by
  unfold assemble at h ⊢
  cases hg : gather code ⟨k, []⟩ with
  | error why g => rw [hg] at h; cases h
  | ok u g =>
    rw [hg] at h
    cases h
    rw [gather_unmapped hg]
    simp only [link_unmapped]

/-! ## Balance -/

section Balance

variable {ν : Naming} {a b : Code ν}

/-- How many brackets are open after code that starts with so many, if it ends none that is not open. -/
def openAfter : Code ν → Nat → Option Nat
  | [], n => some n
  | .mapPush _ :: code, n => openAfter code (n + 1)
  | .mapPop :: _, 0 => none
  | .mapPop :: code, n + 1 => openAfter code n
  | _ :: code, n => openAfter code n

/-- All brackets of a block begin and end in it, one inside the other. -/
def Balanced (code : Code ν) : Prop := openAfter code 0 = some 0

/-- A property of code and of all blocks in it. -/
inductive Everywhere (Q : Code ν → Prop) : Code ν → Prop
  | intro {code : Code ν} (here : Q code) (inside : ∀ i ∈ code, ∀ b ∈ i.blocks, Everywhere Q b) : Everywhere Q code

theorem openAfter_append (a b : Code ν) (n : Nat) : openAfter (a ++ b) n = (openAfter a n).bind (openAfter b) := by
  induction a generalizing n with
  | nil => rfl
  | cons i a ih =>
    cases i with
    | mapPop => cases n <;> simp only [List.cons_append, openAfter, ih, Option.bind_none]
    | _ => simp only [List.cons_append, openAfter, ih]

end Balance

/-- Code in brackets leaves as many open as there were. -/
theorem Bracketed.openAfter_link {code : Code Inline} (h : Bracketed code) (k : Constants) (n : Nat) :
    openAfter (link k code) n = some n := by
  induction h generalizing n with
  | nil => rfl
  | @alone i code hi _ ih =>
    rw [link, openAfter_append]
    cases i with
    | cond | whileOk | mapPush | mapPop | defect | call => cases hi
    | _ => exact ih n
  | call _ ih | defect _ ih | cond _ _ _ _ _ ih | whileOk _ _ _ ih => exact ih n
  | @bracket s inner code _ _ _ ihInner ih =>
    show openAfter (link k (inner ++ .mapPop :: code)) (n + 1) = some n
    rw [link_append, openAfter_append, ihInner]
    exact ih n

/-- Everywhere in code that was linked the brackets are balanced. -/
theorem Bracketed.balanced {code : Code Inline} (h : Bracketed code) (k : Constants) :
    Everywhere Balanced (link k code) := by
  refine .intro (h.openAfter_link k 0) ?_
  induction h with
  | nil => exact nofun
  | @alone i code hi _ ih =>
    rw [link]
    intro j hj b hb
    rcases List.mem_append.1 hj with hj | hj
    · cases i with
      | cond | whileOk | mapPush | mapPop | defect | call => cases hi
      | _ => rw [List.mem_singleton.1 hj] at hb; cases hb
    · exact ih j hj b hb
  | call _ ih =>
    rintro j (_ | ⟨_, hj⟩) b hb
    · cases hb
    · exact ih j hj b hb
  | defect _ ih => exact ih
  | cond hyes hno _ ihYes ihNo ih =>
    rintro j (_ | ⟨_, hj⟩) b hb
    · simp only [Instr.blocks, List.mem_cons, List.not_mem_nil, or_false] at hb
      rcases hb with rfl | rfl
      · exact .intro (hyes.openAfter_link k 0) ihYes
      · exact .intro (hno.openAfter_link k 0) ihNo
    · exact ih j hj b hb
  | whileOk hbody _ ihBody ih =>
    rintro j (_ | ⟨_, hj⟩) b hb
    · rw [List.mem_singleton.1 hb]
      exact .intro (hbody.openAfter_link k 0) ihBody
    · exact ih j hj b hb
  | @bracket s inner code _ _ _ ihInner ih =>
    -- the bracket has no blocks of its own
    show ∀ j ∈ .mapPush _ :: link k (inner ++ .mapPop :: code), _
    rw [link_append]
    rintro j (_ | ⟨_, hj⟩) b hb
    · cases hb
    · rcases List.mem_append.1 hj with hj | (_ | ⟨_, hj⟩)
      · exact ihInner j hj b hb
      · cases hb
      · exact ih j hj b hb

end Code

end PegCompiler
