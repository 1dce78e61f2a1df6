/-
Nothing is lost by pruning. Where match results hold of what expressions do, what is left out because of them
would never have been done: the meaning that prunes is the one that does not.
-/
import PegCompiler.Proofs.Meaning.Matching

namespace PegCompiler

/-- A class without parts that is not inverted has no character. -/
theorem CharClass.has_empty (k : CharClass) (h : (k.parts.isEmpty && !k.inverted) = true) (c : Char) :
    k.has c = false := by
  obtain ⟨hparts, hinv⟩ := Bool.and_eq_true_iff.1 h
  have listed : k.listed = fun _ => false := by
    funext c
    unfold CharClass.listed
    rw [List.isEmpty_iff.1 hparts]
    rfl
  have nowhere (cs : List Char) : cs.any k.listed = false := by simp [listed]
  unfold CharClass.has CharClass.covered
  rw [nowhere, nowhere, listed]
  simpa using hinv

namespace Machine

open PegCompiler.Analysis.Matching

/-- The setting in which nothing is known about matching, so that nothing is left out. -/
def Setting.unpruned (c : Setting) : Setting := { c with matched := fun _ => .sometimes }

/-- A result holds of every way in which an act can end. -/
abbrev Gives {φ : Type} (m : MatchResult) (A : Act φ) : Prop := Agrees (fun _ => True) m A

section Acts

variable {φ : Type} {m : MatchResult} {A : Act φ} {D D' : Value → Act φ}

/-- After an act it only matters what it can give. -/
theorem bind_congr (h : Gives m A) (hD : ∀ v, m.Tells v → D v = D' v) : A.bind D = A.bind D' := by
  funext st cs v st'
  refine propext ⟨?_, ?_⟩
  · rintro ⟨cs₁, w, st₁, cs₂, hA, hw, rfl⟩
    exact ⟨cs₁, w, st₁, cs₂, hA, hD w (h st trivial _ _ _ hA).1 ▸ hw, rfl⟩
  · rintro ⟨cs₁, w, st₁, cs₂, hA, hw, rfl⟩
    exact ⟨cs₁, w, st₁, cs₂, hA, (hD w (h st trivial _ _ _ hA).1).symm ▸ hw, rfl⟩

/-- Where it is asked whether an act matched, the answer that is known is the one that is observed. -/
theorem bind_holds (h : Gives m A) : (A.bind fun v => if m.holds (!v.isFailed) then D v else D' v) =
    A.bind fun v => if MatchResult.sometimes.holds (!v.isFailed) then D v else D' v :=
  bind_congr h fun v hv => by rw [hv.holds_eq]; rfl

theorem silently_holds (h : Gives m A) : (Act.silently A fun v => if m.holds (!v.isFailed) then D v else D' v) =
    Act.silently A fun v => if MatchResult.sometimes.holds (!v.isFailed) then D v else D' v := by
  funext st
  refine congrFun (bind_congr h fun v hv => ?_) { st with silent := st.silent + 1 }
  dsimp only
  rw [hv.holds_eq]
  rfl

theorem lookahead_unpruned (h : Gives m A) (negative : Bool) :
    Act.lookahead m negative A = Act.lookahead .sometimes negative A := by
  funext st
  cases negative
  · exact congrFun (silently_holds h) st
  · exact congrFun (silently_holds h) st

theorem delimited_unpruned {m' : MatchResult} {B : Act φ} (h : Gives m A) (h' : Gives m' B) :
    Act.delimited m m' A B = Act.delimited .sometimes .sometimes A B := by
  funext st
  let next : Act φ := B.bind fun w =>
    if MatchResult.sometimes.holds (!w.isFailed) then .pure w else .backTo st.pos .failed
  have body : (B.bind fun w => if m'.holds (!w.isFailed) then .pure w else .backTo st.pos .failed) = next := bind_holds h'
  have whole : (A.bind fun v => if m.holds (!v.isFailed) then next else .pure v) =
      A.bind fun v => if MatchResult.sometimes.holds (!v.isFailed) then next else .pure v := bind_holds h
  show (A.bind fun v => if m.holds (!v.isFailed) then _ else _) st = _
  rw [body, whole]
  rfl

end Acts

variable {c : Setting} {R : RuleId → Act HostFunction} {ρ : RuleId → MatchResult}

theorem meaningOthers_unpruned {others : List Expr} {ls : Labels}
    (hgives : ∀ e ∈ others, Gives (c.matched e) (c.meaning R e ls))
    (ih : ∀ e ∈ others, c.meaning R e ls = c.unpruned.meaning R e ls) {before : MatchResult} {v : Value}
    (hv : before.Tells v) :
    c.meaningOthers R others ls before v = c.unpruned.meaningOthers R others ls .sometimes v := by
  induction others generalizing before v with
  | nil => rfl
  | cons e es ihs =>
    unfold Setting.meaningOthers
    rw [hv.holds_eq, ← ih e List.mem_cons_self]
    have rest : (c.meaning R e ls).bind (c.meaningOthers R es ls (c.matched e)) =
        (c.meaning R e ls).bind (c.unpruned.meaningOthers R es ls .sometimes) :=
      bind_congr (hgives e List.mem_cons_self) fun w hw =>
        ihs (fun e' he => hgives e' (List.mem_cons_of_mem _ he)) (fun e' he => ih e' (List.mem_cons_of_mem _ he)) hw
    rw [rest]
    rfl

theorem meaningElements_unpruned {action : Option HostCode} {start : Nat} {elements : List Expr}
    (hgives : ∀ e ∈ elements, ∀ ls, Gives (c.matched e) (c.meaning R e ls))
    (ih : ∀ e ∈ elements, ∀ ls, c.meaning R e ls = c.unpruned.meaning R e ls) {ls : Labels}
    {values picked : List Value} : c.meaningElements R action start elements ls values picked =
      c.unpruned.meaningElements R action start elements ls values picked := by
  induction elements generalizing ls values picked with
  | nil => rfl
  | cons e es ihs =>
    unfold Setting.meaningElements
    rw [bind_holds (hgives e List.mem_cons_self ls), ih e List.mem_cons_self]
    have later (ls : Labels) (values picked : List Value) : c.meaningElements R action start es ls values picked =
        c.unpruned.meaningElements R action start es ls values picked :=
      ihs (fun e' he => hgives e' (List.mem_cons_of_mem _ he)) (fun e' he => ih e' (List.mem_cons_of_mem _ he))
    simp only [later]
    rfl

theorem literal_unpruned {i : Expr.Info} {value : String} {ignoreCase : Bool} {ls : Labels}
    (he : Follows c ρ (.literal i value ignoreCase)) :
    c.meaning R (.literal i value ignoreCase) ls = c.unpruned.meaning R (.literal i value ignoreCase) ls := by
  have same : value ≠ "" → c.matched (.literal i value ignoreCase) = .sometimes := fun hv => by
    rw [he.self, judge, if_neg hv]
  unfold Setting.meaning
  split
  · rfl
  · rename_i hv
    rw [same hv]
    rfl

theorem charClass_unpruned {i : Expr.Info} {k : CharClass} {ls : Labels} (he : Follows c ρ (.charClass i k)) :
    c.meaning R (.charClass i k) ls = c.unpruned.meaning R (.charClass i k) ls := by
  unfold Setting.meaning
  funext st
  have known : (c.matched (.charClass i k)).holds (st.matchClass k) = st.matchClass k := by
    rw [he.self, judge]
    split
    · rename_i hk
      unfold ParseState.matchClass
      cases st.rest.head? with
      | none => rfl
      | some ch => exact (k.has_empty hk ch).symm
    · rfl
  show (if (c.matched (.charClass i k)).holds (st.matchClass k) then _ else _ : Act HostFunction) st = _
  rw [known]
  rfl

theorem any_unpruned {i : Expr.Info} {ls : Labels} (he : Follows c ρ (.any i)) :
    c.meaning R (.any i) ls = c.unpruned.meaning R (.any i) ls := by
  unfold Setting.meaning
  rw [he.self]
  rfl

/-- Pruning does not change what an expression does, if match results hold of what rules do. -/
theorem meaning_unpruned (hc : c.NeverFails) (hR : ∀ r, Gives (ρ r) (R r)) (e : Expr) (he : Follows c ρ e)
    (ls : Labels) : c.meaning R e ls = c.unpruned.meaning R e ls := by
  have gives {e : Expr} (he : Follows c ρ e) (ls : Labels) : Gives (c.matched e) (c.meaning R e ls) := by
    rw [he.self]
    exact agrees_expr (fun _ _ _ _ => trivial) hc hR e he ls
  -- pruned tests are answered before the run as the run would answer them, since match results hold of each part
  induction e using Expr.induction generalizing ls with
  | choice i first others ihFirst ihOthers =>
    have inFirst : Follows c ρ first := he.child List.mem_cons_self
    have inOthers : ∀ e ∈ others, Follows c ρ e := fun e h => he.child (List.mem_cons_of_mem _ h)
    unfold Setting.meaning
    rw [← ihFirst inFirst ls]
    exact bind_congr (gives inFirst ls) fun v hv =>
      meaningOthers_unpruned (fun e h => gives (inOthers e h) ls) (fun e h => ihOthers e h (inOthers e h) ls) hv
  | sequence i elements ih =>
    unfold Setting.meaning
    funext st
    exact congrFun (meaningElements_unpruned (fun e h => gives (he.child h)) fun e h => ih e h (he.child h)) st
  | labeled i label pick body ih | group i body ih =>
    unfold Setting.meaning
    exact ih (he.child List.mem_cons_self) ls
  | action i body code ih ihElements =>
    have inBody : Follows c ρ body := he.child List.mem_cons_self
    refine Expr.action_cases body (fun j elements hb => ?_) fun hb => ?_
    · subst hb
      unfold Setting.meaning
      funext st
      exact congrFun (meaningElements_unpruned (fun e h => gives (inBody.child h))
        fun e h => ihElements e h (inBody.child h)) st
    · rw [Setting.meaning, Setting.meaning, ← ih inBody ls]
      · funext st
        exact congrFun (bind_holds (gives inBody ls)) st
      all_goals exact hb
  | text i body ih =>
    have inBody : Follows c ρ body := he.child List.mem_cons_self
    unfold Setting.meaning
    rw [← ih inBody ls]
    funext st
    exact congrFun (bind_holds (gives inBody ls)) st
  | simpleAnd i body ih | simpleNot i body ih =>
    have inBody : Follows c ρ body := he.child List.mem_cons_self
    unfold Setting.meaning
    rw [← ih inBody ls]
    exact lookahead_unpruned (gives inBody ls) _
  | semanticAnd i code | semanticNot i code => rfl
  | optional i body ih =>
    have inBody : Follows c ρ body := he.child List.mem_cons_self
    unfold Setting.meaning
    rw [← ih inBody ls]
    exact bind_holds (gives inBody ls)
  | zeroOrMore i body ih =>
    unfold Setting.meaning
    rw [ih (he.child List.mem_cons_self) ls]
  | oneOrMore i body ih =>
    have inBody : Follows c ρ body := he.child List.mem_cons_self
    unfold Setting.meaning
    rw [← ih inBody ls]
    exact bind_holds (gives inBody ls)
  | repeated i body min max delimiter ih ihDelimiter =>
    have inBody : Follows c ρ body := he.child List.mem_cons_self
    cases delimiter with
    | none =>
      unfold Setting.meaning
      rw [ih inBody ls]
      rfl
    | some d =>
      have inDelimiter : Follows c ρ d := he.child (List.mem_cons_of_mem _ List.mem_cons_self)
      unfold Setting.meaning
      rw [delimited_unpruned (gives inDelimiter ls) (gives inBody ls), ih inBody ls, ihDelimiter d rfl inDelimiter ls]
      rfl
  | ruleRef i name target => cases target <;> rfl
  | literal i value ignoreCase => exact literal_unpruned he
  | charClass i k => exact charClass_unpruned he
  | any i => exact any_unpruned he
  | named i name body ih =>
    have inBody : Follows c ρ body := he.child List.mem_cons_self
    unfold Setting.meaning
    rw [← ih inBody ls]
    exact silently_holds (gives inBody ls)

end Machine

end PegCompiler
