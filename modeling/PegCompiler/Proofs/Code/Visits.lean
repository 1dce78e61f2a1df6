/-
Where the code of an expression comes from. `Visits` follows the making of code from an expression to those inside it
that are not left out, with the environment and the size of the stack that each is made with. The code of what is
visited stands in the code of the whole (`part_visits`), and no host function is called from anywhere else
(`visited_of_hosts`): both are shown for one step from an expression to a direct subexpression.
-/
import PegCompiler.Proofs.Code.OfExpr

namespace PegCompiler

/-- The environment after expressions in a row, with their results in slots one above the other. -/
def Env.through (env : Env) (size : Nat) : List Expr → Env
  | [] => env
  | e :: es => (env.after e size).through (size + 1) es

/-- The environment in which an expression is done. -/
def Env.closing (env : Env) (size : Nat) : Expr → Env
  | .action _ body _ => (env.through (size + 1) body.elements).after body (size + 1)
  | _ => env

/-- The functions that host code of an expression becomes, where labels are visible at its beginning and at its end. -/
def Expr.functions (e : Expr) (around closing : List String) : List HostFunction :=
  match e with
  | .action _ _ code => [⟨.action, closing, code.val, code.span⟩]
  | .semanticAnd _ code | .semanticNot _ code => [⟨.predicate, around, code.val, code.span⟩]
  | e => e.bounds.map fun code => ⟨.boundary, around, code.val, code.span⟩

namespace Code

/-! ## Parts of code -/

/-- The code stands in some code, or in a block of it. -/
inductive Part (a : Code Inline) : Code Inline → Prop
  | self : Part a a
  | left {b c : Code Inline} (h : Part a b) : Part a (b ++ c)
  | right {b c : Code Inline} (h : Part a c) : Part a (b ++ c)
  | yes {test : Test Inline} {yes no : Code Inline} (h : Part a yes) : Part a [.cond test yes no]
  | no {test : Test Inline} {yes no : Code Inline} (h : Part a no) : Part a [.cond test yes no]
  | body {body : Code Inline} (h : Part a body) : Part a [.whileOk body]

section Part

variable {p : Plan} {a b c : Code Inline} {m : MatchResult} {test : Test Inline} {e : Expr}

theorem Part.trans (hab : Part a b) (hbc : Part b c) : Part a c := by
  induction hbc with
  | self => exact hab
  | left _ ih => exact .left ih
  | right _ ih => exact .right ih
  | yes _ ih => exact .yes ih
  | no _ ih => exact .no ih
  | body _ ih => exact .body ih

theorem Part.mark (h : Part a b) : Part a (p.mark e b) := by
  unfold Plan.mark
  split
  · exact .left (.right h)
  · exact h

theorem Part.branch_yes (hm : m ≠ .never) (h : Part a b) : Part a (branch m test b c) := by
  cases m with
  | always => exact h
  | never => exact absurd rfl hm
  | sometimes => exact .yes h

theorem Part.unlessFull {limit : Limit} {array : Nat} (h : Part a b) : Part a (unlessFull limit array b) := by
  rcases limit with (_ | n) | index
  · exact h
  · exact .no h
  · exact .no h

theorem Part.collect (h : Part a b) : Part a (collect b) := .left (.body (.right h))

end Part

/-! ## Visits -/

/-- The making of an expression's code: in an environment, on a stack of a size, and with the host code for the result
if the expression is a sequence that an action is on. -/
structure Visit where
  expr : Expr
  env : Env
  size : Nat
  action : Option HostCode

namespace Visit

/-- What the code of a rule begins with. -/
def ofRule (r : Rule) : Visit := ⟨r.body, [], 0, none⟩

/-- The code that is made. -/
def code (p : Plan) (v : Visit) : Code Inline :=
  match v.expr, v.action with
  | .sequence i elements, some code =>
    p.mark (.sequence i elements) ([.pushPos] ++ ofElements p (some code) elements 0 v.env [] (v.size + 1))
  | e, _ => ofExpr p e v.env v.size

end Visit

/-- The code of an expression is made with the code of a direct subexpression: with that of a later alternative if none
before it is sure to match, with that of a later element if none before it is sure to fail. -/
inductive Passes (p : Plan) : Visit → (child : Nat) → Visit → Prop
  | alternative {i first others child e env size} (h : (first :: others)[child]? = some e)
      (before : ∀ e ∈ (first :: others).take child, p.matched e ≠ .always) :
      Passes p ⟨.choice i first others, env, size, none⟩ child ⟨e, env, size, none⟩
  | element {i elements child e env size action} (h : elements[child]? = some e)
      (before : ∀ e ∈ elements.take child, p.matched e ≠ .never) :
      Passes p ⟨.sequence i elements, env, size, action⟩ child
        ⟨e, env.through (size + 1) (elements.take child), size + 1 + child, none⟩
  | labeled {i label pick body env size} :
      Passes p ⟨.labeled i label pick body, env, size, none⟩ 0 ⟨body, env, size, none⟩
  | acted {i j elements code env size} : Passes p ⟨.action i (.sequence j elements) code, env, size, none⟩ 0
      ⟨.sequence j elements, env, size, some code⟩
  | action {i body code env size} (h : ∀ j elements, body ≠ .sequence j elements) :
      Passes p ⟨.action i body code, env, size, none⟩ 0 ⟨body, env, size + 1, none⟩
  | text {i body env size} : Passes p ⟨.text i body, env, size, none⟩ 0 ⟨body, env, size + 1, none⟩
  | simpleAnd {i body env size} : Passes p ⟨.simpleAnd i body, env, size, none⟩ 0 ⟨body, env, size + 1, none⟩
  | simpleNot {i body env size} : Passes p ⟨.simpleNot i body, env, size, none⟩ 0 ⟨body, env, size + 1, none⟩
  | optional {i body env size} : Passes p ⟨.optional i body, env, size, none⟩ 0 ⟨body, env, size, none⟩
  | zeroOrMore {i body env size} : Passes p ⟨.zeroOrMore i body, env, size, none⟩ 0 ⟨body, env, size + 1, none⟩
  | oneOrMore {i body env size} : Passes p ⟨.oneOrMore i body, env, size, none⟩ 0 ⟨body, env, size + 1, none⟩
  | first {i body min max delimiter env size} : Passes p ⟨.repeated i body min max delimiter, env, size, none⟩ 0
      ⟨body, env, arraySlot min max size + 1, none⟩
  | delimiter {i body min max delimiter env size} : Passes p ⟨.repeated i body min max (some delimiter), env, size, none⟩ 1
      ⟨delimiter, env, arraySlot min max size + 2, none⟩
  | further {i body min max delimiter env size} (before : p.matched delimiter ≠ .never) :
      Passes p ⟨.repeated i body min max (some delimiter), env, size, none⟩ 0
        ⟨body, env, arraySlot min max size + 2, none⟩
  | group {i body env size} : Passes p ⟨.group i body, env, size, none⟩ 0 ⟨body, env, size, none⟩
  | named {i name body env size} : Passes p ⟨.named i name body, env, size, none⟩ 0 ⟨body, env, size, none⟩

/-- What is visited on the way of a path. -/
inductive Visits (p : Plan) : Visit → (path : List Nat) → Visit → Prop
  | here (v : Visit) : Visits p v [] v
  | inside {v u w : Visit} {child : Nat} {path : List Nat} (h : Passes p v child u) (rest : Visits p u path w) :
      Visits p v (child :: path) w

variable {p : Plan} {v w : Visit} {child : Nat} {path : List Nat}

theorem child_of_passes (h : Passes p v child w) : v.expr.children[child]? = some w.expr := by
  cases h with
  | alternative h _ | element h _ => exact h
  | _ => rfl

theorem Visits.mem_preorder (h : Visits p v path w) : w.expr ∈ v.expr.preorder := by
  induction h with
  | here v => exact Expr.mem_preorder_self _
  | inside h _ ih => exact Expr.mem_preorder_of_child (List.mem_of_getElem? (child_of_passes h)) ih

/-! ## The code of visits -/

theorem part_ofOthers {e : Expr} {es : List Expr} {env : Env} {size : Nat} (h : es[child]? = some e) :
    ∀ {before : MatchResult}, before ≠ .always → (∀ e ∈ es.take child, p.matched e ≠ .always) →
      Part (ofExpr p e env size) (ofOthers p before es env size) := by
  induction es generalizing child with
  | nil => cases h
  | cons e' es ih =>
    intro before hbefore hes
    have goesOn : before.negate ≠ .never := by
      cases before with
      | always => exact absurd rfl hbefore
      | _ => nofun
    unfold ofOthers
    refine .branch_yes goesOn (.right ?_)
    cases child with
    | zero => cases h; exact .left .self
    | succ child =>
      rw [List.take_succ_cons, List.forall_mem_cons] at hes
      exact .right (ih h hes.1 hes.2)

theorem part_ofElements {e : Expr} {es : List Expr} {action : Option HostCode} (h : es[child]? = some e) :
    ∀ {done : Nat} {env : Env} {picks : List Nat} {size : Nat}, (∀ e ∈ es.take child, p.matched e ≠ .never) →
      Part (ofExpr p e (env.through size (es.take child)) (size + child)) (ofElements p action es done env picks size) := by
  induction es generalizing child with
  | nil => cases h
  | cons e' es ih =>
    intro done env picks size hes
    unfold ofElements
    cases child with
    | zero => cases h; exact .left .self
    | succ child =>
      rw [List.take_succ_cons, List.forall_mem_cons] at hes
      rw [List.take_succ_cons, Env.through, Nat.add_comm child 1, ← Nat.add_assoc]
      exact .right (.branch_yes hes.1 (ih h hes.2))

theorem code_of_plain (e : Expr) (env : Env) (size : Nat) : Visit.code p ⟨e, env, size, none⟩ = ofExpr p e env size := by
  unfold Visit.code
  split
  · rename_i h; cases h
  · rfl

/-- The code of a direct subexpression stands in the code of the expression. -/
theorem part_passes (h : Passes p v child w) : Part (w.code p) (v.code p) := by
  cases h with
  | @alternative i first others child e env size h before =>
    rw [code_of_plain, code_of_plain, ofExpr]
    refine .mark ?_
    cases child with
    | zero => cases h; exact .left .self
    | succ child =>
      rw [List.take_succ_cons, List.forall_mem_cons] at before
      -- the others stand in the branch for a first one that fails
      have other : others[child]? = some e := h
      exact .right (part_ofOthers other before.1 before.2)
  | @element i elements child e env size action h before =>
    rw [code_of_plain]
    cases action with
    | none =>
      rw [code_of_plain, ofExpr]
      exact .mark (.right (part_ofElements h before))
    | some code => exact .mark (.right (part_ofElements h before))
  | labeled | group =>
    rw [code_of_plain, code_of_plain, ofExpr]
    exact .mark .self
  | acted =>
    rw [code_of_plain, ofExpr]
    exact .mark .self
  | action h =>
    rw [code_of_plain, code_of_plain, ofExpr]
    · exact .mark (.left (.left (.right .self)))
    · exact h
  | text | zeroOrMore | oneOrMore =>
    rw [code_of_plain, code_of_plain, ofExpr]
    exact .mark (.left (.right .self))
  | simpleAnd | simpleNot =>
    rw [code_of_plain, code_of_plain, ofExpr]
    exact .mark (.left (.left (.right .self)))
  | optional =>
    rw [code_of_plain, code_of_plain, ofExpr]
    exact .mark (.left .self)
  | named =>
    rw [code_of_plain, code_of_plain, ofExpr]
    exact .mark (.left (.left (.right .self)))
  | @first i body min max delimiter env size =>
    -- the first item stands before the loop, whatever is in the loop
    have first : ∀ item, Part (ofExpr p body env (arraySlot min max size + 1))
        (ofRepeated min max env size (ofExpr p body env (arraySlot min max size + 1)) item) := fun item =>
      .left (.left (.left (.left (.right (.unlessFull .self)))))
    rw [code_of_plain, code_of_plain]
    cases delimiter with
    | none => rw [ofExpr]; exact .mark (first _)
    | some delimiter => rw [ofExpr]; exact .mark (first _)
  | @delimiter i body min max delimiter env size =>
    rw [code_of_plain, code_of_plain, ofExpr]
    exact .mark (.left (.left (.left (.right (.collect (.unlessFull (.left (.right .self))))))))
  | @further i body min max delimiter env size before =>
    rw [code_of_plain, code_of_plain, ofExpr]
    exact .mark (.left (.left (.left (.right (.collect (.unlessFull (.right (.branch_yes before (.left (.right .self))))))))))

/-- The code of what is visited stands in the code that is made. -/
theorem part_visits (h : Visits p v path w) : Part (w.code p) (v.code p) := by
  induction h with
  | here => exact .self
  | inside h _ ih => exact ih.trans (part_passes h)

theorem part_ofRule {r : Rule} (h : Visits p (.ofRule r) path w) : Part (w.code p) (ofRule p r) := by
  have body : Part (w.code p) (ofExpr p r.body [] 0) := by
    have part := part_visits h
    rwa [Visit.ofRule, code_of_plain] at part
  unfold ofRule
  split
  · exact .left (.left (.right body))
  · exact body

/-! ## Host functions in code -/

mutual

/-- The host functions that an instruction calls. -/
def hostsOf : Instr Inline → List HostFunction
  | .call f _ _ => [f]
  | .cond _ yes no => hosts yes ++ hosts no
  | .whileOk body => hosts body
  | _ => []

/-- The host functions that code calls. -/
def hosts : Code Inline → List HostFunction
  | [] => []
  | i :: code => hostsOf i ++ hosts code

end

attribute [simp] hosts hostsOf

section Hosts

variable {a b : Code Inline} {m : MatchResult} {test : Test Inline} {e : Expr} {f : HostFunction} {env : Env} {size : Nat}

@[simp]
theorem hosts_append (a b : Code Inline) : hosts (a ++ b) = hosts a ++ hosts b := by
  induction a with
  | nil => rfl
  | cons i a ih => rw [List.cons_append, hosts, hosts, ih, List.append_assoc]

theorem mem_hosts_branch (h : f ∈ hosts (branch m test a b)) :
    m ≠ .never ∧ f ∈ hosts a ∨ m ≠ .always ∧ f ∈ hosts b := by
  cases m with
  | always => exact .inl ⟨nofun, h⟩
  | never => exact .inr ⟨nofun, h⟩
  | sometimes =>
    have either : f ∈ hosts a ++ hosts b ++ [] := h
    rw [List.append_nil, List.mem_append] at either
    exact either.imp (fun h => ⟨nofun, h⟩) fun h => ⟨nofun, h⟩

@[simp]
theorem hosts_mark (a : Code Inline) : hosts (p.mark e a) = hosts a := by
  unfold Plan.mark
  split <;> simp

@[simp]
theorem hosts_unlessFull (limit : Limit) (array : Nat) (a : Code Inline) : hosts (unlessFull limit array a) = hosts a := by
  rcases limit with (_ | n) | index <;> simp [unlessFull]

@[simp]
theorem hosts_collect (a : Code Inline) : hosts (collect a) = hosts a := by
  simp [collect]

theorem hosts_ofLookahead (negative : Bool) (a : Code Inline) : hosts (ofLookahead m negative a) = hosts a := by
  unfold ofLookahead
  cases negative <;> cases m <;> simp [branch, MatchResult.negate]

theorem hosts_ofNamed (name : String) (a : Code Inline) : hosts (ofNamed m name a) = hosts a := by
  unfold ofNamed
  cases m <;> simp [branch, MatchResult.negate]

theorem hosts_ofText (a : Code Inline) : hosts (ofText m a) = hosts a := by
  unfold ofText
  cases m <;> simp [branch]

theorem hosts_ofOptional (a : Code Inline) : hosts (ofOptional m a) = hosts a := by
  unfold ofOptional
  cases m <;> simp [branch, MatchResult.negate]

theorem mem_hosts_ofZeroOrMore (h : f ∈ hosts (ofZeroOrMore a)) : f ∈ hosts a := by
  simpa [ofZeroOrMore] using h

theorem mem_hosts_ofOneOrMore (h : f ∈ hosts (ofOneOrMore m a)) : f ∈ hosts a := by
  cases m <;> simpa [ofOneOrMore, branch] using h

theorem mem_hosts_delimited {m' : MatchResult} (h : f ∈ hosts (delimited m m' a b)) :
    f ∈ hosts a ∨ m ≠ .never ∧ f ∈ hosts b := by
  cases m <;> cases m' <;> simpa [delimited, branch, MatchResult.negate] using h

@[simp]
theorem hosts_reach (slots : List Nat) (size : Nat) : hosts (reach slots size) = [] := by
  rcases reach_cases slots size with h | ⟨_, h⟩ <;> (rw [h]; rfl)

@[simp]
theorem hosts_callHost (kind : FunctionKind) (code : HostCode) (pop : Nat) :
    hosts (callHost kind code env size pop) = [⟨kind, env.params, code.val, code.span⟩] := by
  simp [callHost]

theorem hosts_ofPredicate (code : HostCode) (negative : Bool) :
    hosts (ofPredicate code negative env size) = [⟨.predicate, env.params, code.val, code.span⟩] := by
  unfold ofPredicate
  cases negative <;> simp

theorem hosts_prepare (b : Boundary) : hosts (prepare env size b) =
    b.codes.map fun code => ⟨.boundary, env.params, code.val, code.span⟩ := by
  cases b with
  | label name => unfold prepare; dsimp only; split <;> rfl
  | computed code => exact hosts_callHost .boundary code 0
  | constant count => rfl

theorem hosts_nips (n : Nat) : hosts (List.replicate n .nip) = [] := by
  induction n with
  | zero => rfl
  | succ n ih =>
    rw [List.replicate_succ, hosts, ih]
    rfl

/-- A repetition calls its bounds and what its items call. -/
theorem mem_hosts_ofRepeated {min : Option Boundary} {max : Boundary} (h : f ∈ hosts (ofRepeated min max env size a b)) :
    f ∈ (min.elim [] Boundary.codes ++ max.codes).map (fun code => ⟨.boundary, env.params, code.val, code.span⟩) ∨
      f ∈ hosts a ∨ f ∈ hosts b := by
  have least : hosts (min.elim [] (prepare env size)) =
      (min.elim [] Boundary.codes).map fun code => ⟨.boundary, env.params, code.val, code.span⟩ := by
    cases min with
    | none => rfl
    | some b => exact hosts_prepare b
  have kept : hosts (if needsLeast min max then [.pushPos] else []) = [] := by split <;> rfl
  have checked : hosts (if needsLeast min max then
      [.cond (tooFew (Code.least min max env size) (arraySlot min max size)) [.pop, .popPos, .pushFailed] [.nip]] else
      []) = [] := by split <;> rfl
  unfold ofRepeated prepareBounds at h
  dsimp only at h
  simp only [hosts_append, least, hosts_prepare, hosts_reach, kept, checked, hosts_nips, hosts_unlessFull, hosts_collect,
    ← List.map_append, hosts, hostsOf, List.append_nil, List.mem_append] at h
  exact or_assoc.1 h

theorem mem_hosts_ofOthers {es : List Expr} :
    ∀ {before : MatchResult}, f ∈ hosts (ofOthers p before es env size) → before ≠ .always ∧ ∃ child e,
      es[child]? = some e ∧ (∀ e ∈ es.take child, p.matched e ≠ .always) ∧ f ∈ hosts (ofExpr p e env size) := by
  induction es with
  | nil => intro before h; cases h
  | cons e es ih =>
    intro before h
    unfold ofOthers at h
    rcases mem_hosts_branch h with ⟨hm, h⟩ | ⟨-, h⟩
    · refine ⟨fun always => hm (by rw [always]; rfl), ?_⟩
      rw [hosts_append, hosts_append] at h
      rcases List.mem_append.1 h with h | h
      · cases h
      rcases List.mem_append.1 h with h | h
      · exact ⟨0, e, rfl, by simp, h⟩
      · obtain ⟨hbefore, child, e', he', hes, h⟩ := ih h
        refine ⟨child + 1, e', he', ?_, h⟩
        rw [List.take_succ_cons, List.forall_mem_cons]
        exact ⟨hbefore, hes⟩
    · cases h

theorem mem_hosts_ofElements {es : List Expr} {action : Option HostCode} :
    ∀ {done : Nat} {env : Env} {picks : List Nat} {size : Nat}, f ∈ hosts (ofElements p action es done env picks size) →
      (∃ code ∈ action, f = ⟨.action, (env.through size es).params, code.val, code.span⟩) ∨ ∃ child e,
        es[child]? = some e ∧ (∀ e ∈ es.take child, p.matched e ≠ .never) ∧
          f ∈ hosts (ofExpr p e (env.through size (es.take child)) (size + child)) := by
  induction es with
  | nil =>
    intro done env picks size h
    unfold ofElements finish at h
    split at h
    · simp at h
    · cases action with
      | none => cases h
      | some code =>
        rw [hosts_append, hosts_callHost] at h
        exact .inl ⟨code, rfl, List.mem_singleton.1 h⟩
  | cons e es ih =>
    intro done env picks size h
    unfold ofElements at h
    rw [hosts_append] at h
    rcases List.mem_append.1 h with h | h
    · exact .inr ⟨0, e, rfl, by simp, h⟩
    rcases mem_hosts_branch h with ⟨hm, h⟩ | ⟨-, h⟩
    · rcases ih h with own | ⟨child, e', he', hes, h⟩
      · exact .inl own
      · refine .inr ⟨child + 1, e', he', ?_, ?_⟩
        · rw [List.take_succ_cons, List.forall_mem_cons]
          exact ⟨hm, hes⟩
        · rw [List.take_succ_cons, Env.through, Nat.add_comm child 1, ← Nat.add_assoc]
          exact h
    · unfold abandon at h
      split at h <;> cases h

end Hosts

/-- The functions that the host code of what is visited becomes. -/
def Visit.functions (v : Visit) : List HostFunction :=
  v.expr.functions v.env.params (v.env.closing v.size v.expr).params

/-- A host function is called at a visit, as a function of the host code there. -/
def Visited (p : Plan) (v : Visit) (f : HostFunction) : Prop :=
  ∃ path w, Visits p v path w ∧ w.action = none ∧ f ∈ w.functions

theorem Visited.passes {f : HostFunction} (h : Passes p v child w) (hw : Visited p w f) : Visited p v f := by
  obtain ⟨path, u, visits, plain, hf⟩ := hw
  exact ⟨child :: path, u, .inside h visits, plain, hf⟩

theorem Visited.codes {f : HostFunction} (h : Visited p v f) :
    ∃ e ∈ v.expr.preorder, ∃ code ∈ e.codes, f.code = code.val := by
  obtain ⟨path, ⟨e, env, size, action⟩, visits, -, hf⟩ := h
  refine ⟨e, visits.mem_preorder, ?_⟩
  have own (kind : FunctionKind) (params : List String) (codes : List HostCode)
      (hf : f ∈ codes.map fun code => (⟨kind, params, code.val, code.span⟩ : HostFunction)) :
      ∃ code ∈ codes, f.code = code.val := by
    obtain ⟨code, hcode, rfl⟩ := List.mem_map.1 hf
    exact ⟨code, hcode, rfl⟩
  cases e with
  | action i body code => exact own .action _ [code] hf
  | semanticAnd i code | semanticNot i code => exact own .predicate _ [code] hf
  | _ => exact own .boundary env.params _ hf

/-- No host function is called in the code of an expression but at visits. -/
theorem visited_of_hosts (e : Expr) {env : Env} {size : Nat} {f : HostFunction} (h : f ∈ hosts (ofExpr p e env size)) :
    Visited p ⟨e, env, size, none⟩ f := by
  -- a sequence calls the action on it, if there is one, or else one of its elements calls
  have elements {i : Expr.Info} {es : List Expr} {env : Env} {size : Nat} {action : Option HostCode}
      (ih : ∀ e ∈ es, ∀ {env : Env} {size : Nat}, f ∈ hosts (ofExpr p e env size) → Visited p ⟨e, env, size, none⟩ f)
      (h : f ∈ hosts ([.pushPos] ++ ofElements p action es 0 env [] (size + 1))) :
      (∃ code ∈ action, f = ⟨.action, (env.through (size + 1) es).params, code.val, code.span⟩) ∨
        Visited p ⟨.sequence i es, env, size, action⟩ f := by
    rcases mem_hosts_ofElements h with own | ⟨child, e, he, before, h⟩
    · exact .inl own
    · exact .inr ((ih e (List.mem_of_getElem? he) h).passes (.element he before))
  induction e using Expr.induction generalizing env size with
  | choice i first others ih ihs =>
    rw [ofExpr, hosts_mark, hosts_append] at h
    rcases List.mem_append.1 h with h | h
    · have passes : Passes p ⟨.choice i first others, env, size, none⟩ 0 ⟨first, env, size, none⟩ :=
        .alternative rfl (by simp)
      exact (ih h).passes passes
    · obtain ⟨hfirst, child, e, he, before, h⟩ := mem_hosts_ofOthers h
      have passes : Passes p ⟨.choice i first others, env, size, none⟩ (child + 1) ⟨e, env, size, none⟩ := by
        refine .alternative he ?_
        rw [List.take_succ_cons, List.forall_mem_cons]
        exact ⟨hfirst, before⟩
      exact (ihs e (List.mem_of_getElem? he) h).passes passes
  | sequence i es ihs =>
    rw [ofExpr, hosts_mark] at h
    rcases elements (fun e he _ _ => ihs e he) h with ⟨code, hcode, -⟩ | h
    · cases hcode
    · exact h
  | labeled i label pick body ih =>
    rw [ofExpr, hosts_mark] at h
    exact (ih h).passes .labeled
  | action i body code ih ihs =>
    have own (hf : f = ⟨.action, (env.closing size (.action i body code)).params, code.val, code.span⟩) :
        Visited p ⟨.action i body code, env, size, none⟩ f :=
      ⟨[], _, .here _, rfl, List.mem_singleton.2 hf⟩
    -- the action on a sequence sees what the elements bind, any other one what its body binds
    refine Expr.action_cases body (fun j es hb => ?_) fun hb => ?_
    · subst hb
      rw [ofExpr, hosts_mark, hosts_mark] at h
      rcases elements (i := j) (fun e he _ _ => ihs e he) h with ⟨code', hcode, hf⟩ | h
      · cases hcode
        exact own hf
      · exact h.passes .acted
    · rw [ofExpr] at h
      · rw [hosts_mark] at h
        unfold ofAction at h
        rw [hosts_append, hosts_append, hosts_append] at h
        rcases List.mem_append.1 h with h | h
        · rcases List.mem_append.1 h with h | h
          · exact (ih h).passes (.action hb)
          · rcases mem_hosts_branch h with ⟨-, h⟩ | ⟨-, h⟩
            · rw [hosts_append, hosts_callHost] at h
              refine own ((List.mem_singleton.1 h).trans ?_)
              -- no elements are bound by what is no sequence
              have none : body.elements = [] := by
                cases body with
                | sequence j es => exact absurd rfl (hb j es)
                | _ => rfl
              rw [Env.closing, none]
              rfl
            · cases h
        · cases h
      · exact hb
  | text i body ih =>
    rw [ofExpr, hosts_mark, hosts_ofText] at h
    exact (ih h).passes .text
  | simpleAnd i body ih =>
    rw [ofExpr, hosts_mark, hosts_ofLookahead] at h
    exact (ih h).passes .simpleAnd
  | simpleNot i body ih =>
    rw [ofExpr, hosts_mark, hosts_ofLookahead] at h
    exact (ih h).passes .simpleNot
  | semanticAnd i code | semanticNot i code =>
    rw [ofExpr, hosts_mark, hosts_ofPredicate] at h
    exact ⟨[], _, .here _, rfl, h⟩
  | optional i body ih =>
    rw [ofExpr, hosts_mark, hosts_ofOptional] at h
    exact (ih h).passes .optional
  | zeroOrMore i body ih =>
    rw [ofExpr, hosts_mark] at h
    exact (ih (mem_hosts_ofZeroOrMore h)).passes .zeroOrMore
  | oneOrMore i body ih =>
    rw [ofExpr, hosts_mark] at h
    exact (ih (mem_hosts_ofOneOrMore h)).passes .oneOrMore
  | repeated i body min max delimiter ih ihDelimiter =>
    have own (hf : f ∈ (min.elim [] Boundary.codes ++ max.codes).map fun code : HostCode =>
        (⟨.boundary, env.params, code.val, code.span⟩ : HostFunction)) :
        Visited p ⟨.repeated i body min max delimiter, env, size, none⟩ f := ⟨[], _, .here _, rfl, hf⟩
    cases delimiter with
    | none =>
      rw [ofExpr, hosts_mark] at h
      rcases mem_hosts_ofRepeated h with h | h | h
      · exact own h
      · exact (ih h).passes .first
      · exact (ih h).passes .first
    | some delimiter =>
      rw [ofExpr, hosts_mark] at h
      rcases mem_hosts_ofRepeated h with h | h | h
      · exact own h
      · exact (ih h).passes .first
      · rcases mem_hosts_delimited h with h | ⟨hm, h⟩
        · exact (ihDelimiter delimiter rfl h).passes .delimiter
        · exact (ih h).passes (.further hm)
  | group i body ih =>
    rw [ofExpr, hosts_mark] at h
    exact (ih h).passes .group
  | ruleRef i name target =>
    cases target <;> (rw [ofExpr, hosts_mark] at h; cases h)
  | literal i value ignoreCase =>
    rw [ofExpr, hosts_mark] at h
    unfold ofLiteral at h
    dsimp only at h
    split at h
    · cases h
    · split at h <;> (rcases mem_hosts_branch h with ⟨-, h⟩ | ⟨-, h⟩ <;> cases h)
  | charClass i k | any i =>
    rw [ofExpr, hosts_mark] at h
    rcases mem_hosts_branch h with ⟨-, h⟩ | ⟨-, h⟩ <;> cases h
  | named i name body ih =>
    rw [ofExpr, hosts_mark, hosts_ofNamed] at h
    exact (ih h).passes .named

theorem visited_of_rule {r : Rule} {f : HostFunction} (h : f ∈ hosts (ofRule p r)) : Visited p (.ofRule r) f := by
  unfold ofRule at h
  split at h
  · rw [hosts_ofNamed] at h
    exact visited_of_hosts r.body h
  · exact visited_of_hosts r.body h

/-! ## Functions in the pools -/

/-- Whether it fails or not, a gathering adds no functions to the pools but these. -/
def Adds (fs : List HostFunction) (x : Gathering Unit) : Prop :=
  ∀ g g', EndsIn x g g' → ∀ f ∈ g'.constants.functions.toList, f ∈ g.constants.functions.toList ∨ f ∈ fs

section Adds

variable {x y : Gathering Unit} {fs fs' : List HostFunction}

theorem Adds.andThen (hx : Adds fs x) (hy : Adds fs' y) : Adds (fs ++ fs') (do x; y) := by
  intro g g' h f hf
  rcases endsIn_bind_iff.1 h with h | ⟨_, g₁, h₁, h⟩
  · exact (hx g g' (.inr h) f hf).imp_right (List.mem_append_left _)
  · rcases hy g₁ g' h f hf with hf | hf
    · exact (hx g g₁ (.inl ⟨_, h₁⟩) f hf).imp_right (List.mem_append_left _)
    · exact .inr (List.mem_append_right _ hf)

/-- A gathering that changes other pools only. -/
theorem adds_nothing {k : Gathered → Gathered} (h : ∀ g, (k g).constants.functions = g.constants.functions) :
    Adds [] (modify k) := by
  rintro g g' (⟨_, hg⟩ | ⟨_, hg⟩) f hf
  · cases hg
    exact .inl (h g ▸ hf)
  · cases hg

theorem adds_test (t : Test Inline) : Adds [] t.gather := by
  cases t with
  | string | stringIc | charClass => exact adds_nothing fun _ => rfl
  | _ => exact adds_nothing (k := fun g => g) fun _ => rfl

mutual

theorem adds_instr : ∀ i : Instr Inline, Adds (hostsOf i) i.gather
  | .cond test yes no => (adds_test test).andThen ((adds_gather yes).andThen (adds_gather no))
  | .whileOk body => adds_gather body
  | .call function pop args => by
    rintro g g' (⟨_, h⟩ | ⟨_, h⟩) f hf
    · cases h
      exact (Pool.mem_of_mem_add hf).imp_right fun e => List.mem_singleton.2 e
    · cases h
  | .defect why => by
    rintro g g' (⟨_, h⟩ | ⟨_, h⟩) f hf
    · cases h
    · cases h
      exact .inl hf
  | .mapPop => by
    refine adds_nothing fun g => ?_
    obtain ⟨constants, opened⟩ := g
    cases opened <;> rfl
  | .mapPush _ | .acceptString _ | .acceptStringIc _ | .fail _ => adds_nothing fun _ => rfl
  | .pushEmptyString | .pushNull | .pushFailed | .pushEmptyArray | .pushPos | .pop | .popPos | .popN _ | .nip | .append
  | .wrap _ | .text | .pluck _ _ | .acceptN _ | .loadSavedPos _ | .updateSavedPos | .rule _ | .silence | .unsilence =>
    adds_nothing (k := fun g => g) fun _ => rfl

theorem adds_gather : ∀ code : Code Inline, Adds (hosts code) (gather code)
  | [] => adds_nothing (k := fun g => g) fun _ => rfl
  | i :: code => (adds_instr i).andThen (adds_gather code)

end

/-- Assembling code adds the functions that it calls, even if it fails. -/
theorem functions_assemble {code : Code Inline} {k k' : Constants} (h : EndsIn code.assemble k k') {f : HostFunction}
    (hf : f ∈ k'.functions.toList) : f ∈ k.functions.toList ∨ f ∈ hosts code := by
  have adds := adds_gather code ⟨k, []⟩
  unfold EndsIn assemble at h
  cases hg : gather code ⟨k, []⟩ with
  | ok u g =>
    rw [hg] at h
    rcases h with ⟨_, h⟩ | ⟨_, h⟩
    · cases h
      exact adds g (.inl ⟨_, hg⟩) f hf
    · cases h
  | error why g =>
    rw [hg] at h
    rcases h with ⟨_, h⟩ | ⟨_, h⟩
    · cases h
    · cases h
      exact adds g (.inr ⟨_, hg⟩) f hf

end Adds

end Code

end PegCompiler
