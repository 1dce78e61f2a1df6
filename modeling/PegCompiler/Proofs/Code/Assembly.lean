/-
What the pools hold once code was added to them: every constant of the code, at an index that it keeps
while the pools grow. For places in the grammar this rests on their brackets, which code closes in the
block that opens them (`Code.Bracketed`).
-/
import PegCompiler.Code.Assembly
import PegCompiler.Proofs.Code.Words
import PegCompiler.Proofs.Stateful

namespace PegCompiler

/-! ## Pools -/

namespace Pool

variable {α : Type} [DecidableEq α] {p q : Pool α} {a b : α}

theorem index?_eq (p : Pool α) (a : α) : p.index? a = p.toList.findIdx? (· = a) := by
  obtain ⟨⟨items⟩⟩ := p
  show (List.toArray items).findIdx? (fun b => decide (b = a)) = _
  rw [List.findIdx?_toArray]
  rfl

theorem index?_isSome : (p.index? a).isSome ↔ a ∈ p.toList := by
  rw [index?_eq, List.findIdx?_isSome, List.any_eq_true]
  simp

/-- A constant keeps its index while the pool grows. -/
theorem indexOf_eq_of_prefix (h : p.toList <+: q.toList) (ha : a ∈ p.toList) : q.indexOf a = p.indexOf a := by
  obtain ⟨i, hi⟩ := Option.isSome_iff_exists.1 (index?_isSome.2 ha)
  obtain ⟨more, hq⟩ := h
  unfold indexOf
  rw [hi, index?_eq, ← hq, List.findIdx?_append, ← index?_eq, hi]
  rfl

theorem get?_indexOf (ha : a ∈ p.toList) : p.get? (p.indexOf a) = some a := by
  obtain ⟨i, hi⟩ := Option.isSome_iff_exists.1 (index?_isSome.2 ha)
  unfold indexOf get?
  rw [hi]
  unfold index? at hi
  obtain ⟨hlt, heq, -⟩ := Array.findIdx?_eq_some_iff_getElem.1 hi
  rw [Option.getD_some, Array.getElem?_eq_getElem hlt]
  simpa using heq

theorem prefix_add (p : Pool α) (a : α) : p.toList <+: (p.add a).toList := by
  unfold add
  split
  · exact List.prefix_refl _
  · unfold toList
    rw [Array.toList_push]
    exact List.prefix_append _ _

theorem mem_add (p : Pool α) (a : α) : a ∈ (p.add a).toList := by
  unfold add
  split
  · rename_i h; exact index?_isSome.1 h
  · simp [toList]

theorem mem_of_mem_add (h : b ∈ (p.add a).toList) : b ∈ p.toList ∨ b = a := by
  unfold add at h
  split at h
  · exact .inl h
  · unfold toList at h
    rw [Array.toList_push, List.mem_append, List.mem_singleton] at h
    exact h

end Pool

namespace Constants

/-- Pools that came about by adding to others. -/
structure Grows (k k' : Constants) : Prop where
  literals : k.literals.toList <+: k'.literals.toList
  classes : k.classes.toList <+: k'.classes.toList
  expectations : k.expectations.toList <+: k'.expectations.toList
  functions : k.functions.toList <+: k'.functions.toList
  origins : k.origins.toList <+: k'.origins.toList

namespace Grows

variable {k k' k'' : Constants}

theorem refl (k : Constants) : k.Grows k :=
  ⟨List.prefix_refl _, List.prefix_refl _, List.prefix_refl _, List.prefix_refl _, List.prefix_refl _⟩

theorem trans (h : k.Grows k') (h' : k'.Grows k'') : k.Grows k'' :=
  ⟨h.literals.trans h'.literals, h.classes.trans h'.classes, h.expectations.trans h'.expectations,
    h.functions.trans h'.functions, h.origins.trans h'.origins⟩

theorem addLiteral (k : Constants) (s : String) : k.Grows (k.addLiteral s) :=
  { refl k with literals := k.literals.prefix_add s }

theorem addClass (k : Constants) (c : CharClass) : k.Grows (k.addClass c) :=
  { refl k with classes := k.classes.prefix_add c }

theorem addExpectation (k : Constants) (e : Expectation) : k.Grows (k.addExpectation e) :=
  { refl k with expectations := k.expectations.prefix_add e }

theorem addFunction (k : Constants) (f : HostFunction) : k.Grows (k.addFunction f) :=
  { refl k with functions := k.functions.prefix_add f }

theorem addOrigin (k : Constants) (s : Span) : k.Grows (k.addOrigin s) :=
  { refl k with origins := k.origins.prefix_add s }

end Grows

end Constants

/-! ## Code whose constants are known -/

/-- The constants of a condition are in the pools. -/
def Test.Known (k : Constants) : Test Inline → Prop
  | .string s | .stringIc s => s ∈ k.literals.toList
  | .charClass c => c ∈ k.classes.toList
  | _ => True

mutual

/-- There is an instruction, and its constants are in the pools. -/
def Instr.Known (k : Constants) : Instr Inline → Prop
  | .cond test yes no => test.Known k ∧ Code.Known k yes ∧ Code.Known k no
  | .whileOk body => Code.Known k body
  | .acceptString s | .acceptStringIc s => s ∈ k.literals.toList
  | .fail e => e ∈ k.expectations.toList
  | .call f _ _ => f ∈ k.functions.toList
  | .mapPush s => s ∈ k.origins.toList
  | .defect _ => False
  | _ => True

/-- The code has no defects, and its constants are in the pools. -/
def Code.Known (k : Constants) : Code Inline → Prop
  | [] => True
  | i :: code => i.Known k ∧ Code.Known k code

end

namespace Code

variable {k k' : Constants}

/-- Induction over code: of an instruction with blocks the blocks are known too. -/
@[elab_as_elim]
theorem induction {ν : Naming} {motive : Code ν → Prop} (nil : motive [])
    (plain : ∀ i code, i.blocks = [] → motive code → motive (i :: code))
    (cond : ∀ test yes no code, motive yes → motive no → motive code → motive (.cond test yes no :: code))
    (whileOk : ∀ body code, motive body → motive code → motive (.whileOk body :: code)) (code : Code ν) :
    motive code := by
  have cons : ∀ i : Instr ν, (∀ b ∈ i.blocks, motive b) → ∀ code, motive code → motive (i :: code) := by
    intro i hi code hcode
    cases i with
    | cond test yes no =>
      exact cond test yes no code (hi yes List.mem_cons_self) (hi no (List.mem_cons_of_mem _ List.mem_cons_self)) hcode
    | whileOk body => exact whileOk body code (hi body List.mem_cons_self) hcode
    | _ => exact plain _ code rfl hcode
  refine List.rec nil (fun i code hcode => cons i ?_ code hcode) code
  refine @Instr.rec ν (fun i => ∀ b ∈ i.blocks, motive b) motive ?_ ?_ ?_ ?_ ?_ ?_ ?_ ?_ ?_ ?_ ?_ ?_ ?_ ?_ ?_ ?_ ?_ ?_
    ?_ ?_ ?_ ?_ ?_ ?_ ?_ ?_ ?_ ?_ nil (fun i code hi hcode => cons i hi code hcode) i
  case refine_14 =>
    intro test yes no hyes hno b hb
    simp only [Instr.blocks, List.mem_cons, List.not_mem_nil, or_false] at hb
    rcases hb with rfl | rfl
    · exact hyes
    · exact hno
  case refine_15 =>
    intro body hbody b hb
    rw [List.mem_singleton.1 hb]
    exact hbody
  all_goals
    intros
    rename_i hb
    cases hb

theorem link_append (k : Constants) (a b : Code Inline) : link k (a ++ b) = link k a ++ link k b := by
  induction a with
  | nil => rfl
  | cons i a ih => simp only [List.cons_append, link, ih, List.append_assoc]

theorem raw_append (a b : Code Pooled) : raw (a ++ b) = raw a ++ raw b := by
  induction a with
  | nil => rfl
  | cons i a ih => simp only [List.cons_append, raw, ih]

theorem known_append {a b : Code Inline} : Known k (a ++ b) ↔ Known k a ∧ Known k b := by
  induction a with
  | nil => simp [Known]
  | cons i a ih => simp only [List.cons_append, Known, ih, and_assoc]

theorem Test.Known.mono {t : Test Inline} (h : k.Grows k') (ht : t.Known k) : t.Known k' := by
  cases t with
  | string s | stringIc s => exact h.literals.subset ht
  | charClass c => exact h.classes.subset ht
  | _ => trivial

/-- Code that was known stays known while the pools grow. -/
theorem Known.mono {code : Code Inline} (h : k.Grows k') (hc : Known k code) : Known k' code := by
  induction code using induction with
  | nil => trivial
  | plain i code hi ih =>
    refine ⟨?_, ih hc.2⟩
    have hk := hc.1
    cases i with
    | acceptString s | acceptStringIc s => exact h.literals.subset hk
    | fail e => exact h.expectations.subset hk
    | call f n args => exact h.functions.subset hk
    | mapPush s => exact h.origins.subset hk
    | defect why => exact hk.elim
    | cond | whileOk => cases hi
    | _ => trivial
  | cond test yes no code ihYes ihNo ih =>
    obtain ⟨⟨ht, hy, hn⟩, hc⟩ := hc
    exact ⟨⟨Test.Known.mono h ht, ihYes hy, ihNo hn⟩, ih hc⟩
  | whileOk body code ihBody ih => exact ⟨ihBody hc.1, ih hc.2⟩

/-- Indexes do not change while the pools grow. -/
theorem link_eq_of_grows {code : Code Inline} (h : k.Grows k') (hc : Known k code) : link k' code = link k code := by
  induction code using induction with
  | nil => rfl
  | plain i code hi ih =>
    rw [link, link, ih hc.2]
    have hk := hc.1
    congr 1
    cases i with
    | acceptString s | acceptStringIc s => simp only [Instr.link, Pool.indexOf_eq_of_prefix h.literals hk]
    | fail e => simp only [Instr.link, Pool.indexOf_eq_of_prefix h.expectations hk]
    | call f n args => simp only [Instr.link, Pool.indexOf_eq_of_prefix h.functions hk]
    | mapPush s => simp only [Instr.link, Pool.indexOf_eq_of_prefix h.origins hk]
    | defect why => exact hk.elim
    | cond | whileOk => cases hi
    | _ => rfl
  | cond test yes no code ihYes ihNo ih =>
    obtain ⟨⟨ht, hy, hn⟩, hc⟩ := hc
    have htest : test.link k' = test.link k := by
      cases test with
      | string s | stringIc s => simp only [Test.link, Pool.indexOf_eq_of_prefix h.literals ht]
      | charClass c => simp only [Test.link, Pool.indexOf_eq_of_prefix h.classes ht]
      | _ => rfl
    simp only [link, Instr.link, ihYes hy, ihNo hn, ih hc, htest]
  | whileOk body code ihBody ih => simp only [link, Instr.link, ihBody hc.1, ih hc.2]

/-! ## Code in brackets -/

end Code

/-- Whether an instruction is there, has no blocks, is no bracket and calls no host code. -/
def Instr.isAlone {ν : Naming} : Instr ν → Bool
  | .cond .. | .whileOk _ | .mapPush _ | .mapPop | .defect _ | .call .. => false
  | _ => true

/-- Whether an instruction is alone, and means something by itself: no silence is begun or ended by it, and what it
consumes need not have been tested. -/
def Instr.isSingle {ν : Naming} : Instr ν → Bool
  | .silence | .unsilence | .acceptString _ => false
  | i => i.isAlone

theorem Instr.isAlone_of_isSingle {ν : Naming} {i : Instr ν} (h : i.isSingle = true) : i.isAlone = true := by
  cases i with
  | silence | unsilence | acceptString => cases h
  | _ => exact h

namespace Code

variable {k k' : Constants}

/-- Code in which every place in the grammar has some code, and is closed in the block that opens it. -/
inductive Bracketed : Code Inline → Prop
  | nil : Bracketed []
  | alone {i : Instr Inline} {code : Code Inline} (hi : i.isAlone = true) (rest : Bracketed code) :
      Bracketed (i :: code)
  | call {f : HostFunction} {pop : Nat} {args : List Nat} {code : Code Inline} (rest : Bracketed code) :
      Bracketed (.call f pop args :: code)
  | defect {why : CodeError} {code : Code Inline} (rest : Bracketed code) : Bracketed (.defect why :: code)
  | cond {test : Test Inline} {yes no code : Code Inline} (hyes : Bracketed yes) (hno : Bracketed no)
      (rest : Bracketed code) : Bracketed (.cond test yes no :: code)
  | whileOk {body code : Code Inline} (hbody : Bracketed body) (rest : Bracketed code) :
      Bracketed (.whileOk body :: code)
  | bracket {s : Span} {inner code : Code Inline} (hsome : inner ≠ []) (hinner : Bracketed inner)
      (rest : Bracketed code) : Bracketed (.mapPush s :: (inner ++ .mapPop :: code))

theorem Bracketed.append {a b : Code Inline} (ha : Bracketed a) (hb : Bracketed b) : Bracketed (a ++ b) := by
  induction ha with
  | nil => exact hb
  | alone hi _ ih => exact .alone hi ih
  | call _ ih => exact .call ih
  | defect _ ih => exact .defect ih
  | cond hyes hno _ _ _ ih => exact .cond hyes hno ih
  | whileOk hbody _ _ ih => exact .whileOk hbody ih
  | bracket hsome hinner _ _ ih =>
    rw [List.cons_append, List.append_assoc, List.cons_append]
    exact .bracket hsome hinner ih

theorem gather_append (a b : Code Inline) : gather (a ++ b) = gather a >>= fun _ => gather b := by
  induction a with
  | nil => rfl
  | cons i a ih =>
    rw [List.cons_append, gather, gather, ih, bind_assoc]

theorem gather_append_ok {a b : Code Inline} {g g' : Gathered} :
    gather (a ++ b) g = .ok ⟨⟩ g' ↔ ∃ g₁, gather a g = .ok ⟨⟩ g₁ ∧ gather b g₁ = .ok ⟨⟩ g' := by
  rw [gather_append, bind_ok_iff]
  exact ⟨fun ⟨_, h⟩ => h, fun h => ⟨⟨⟩, h⟩⟩

theorem gather_append_error {a b : Code Inline} {g g' : Gathered} {why : CodeError} :
    gather (a ++ b) g = .error why g' ↔
      gather a g = .error why g' ∨ ∃ g₁, gather a g = .ok ⟨⟩ g₁ ∧ gather b g₁ = .error why g' := by
  rw [gather_append, bind_error_iff]
  exact ⟨fun h => h.imp_right fun ⟨_, h⟩ => h, fun h => h.imp_right fun h => ⟨⟨⟩, h⟩⟩

theorem gather_test_ok {t : Test Inline} {g g' : Gathered} (h : t.gather g = .ok ⟨⟩ g') :
    g.constants.Grows g'.constants ∧ g'.opened = g.opened ∧ t.Known g'.constants := by
  cases t with
  | string s | stringIc s => cases h; exact ⟨.addLiteral _ _, rfl, Pool.mem_add _ _⟩
  | charClass c => cases h; exact ⟨.addClass _ _, rfl, Pool.mem_add _ _⟩
  | _ => cases h; exact ⟨.refl _, rfl, trivial⟩

theorem gather_alone_ok {i : Instr Inline} {g g' : Gathered} (hi : i.isAlone = true) (h : i.gather g = .ok ⟨⟩ g') :
    g.constants.Grows g'.constants ∧ g'.opened = g.opened ∧ i.Known g'.constants := by
  cases i with
  | acceptString s | acceptStringIc s => cases h; exact ⟨.addLiteral _ _, rfl, Pool.mem_add _ _⟩
  | fail e => cases h; exact ⟨.addExpectation _ _, rfl, Pool.mem_add _ _⟩
  | cond | whileOk | mapPush | mapPop | defect | call => cases hi
  | _ => cases h; exact ⟨.refl _, rfl, trivial⟩

/-- Code whose constants were added is known. -/
theorem Bracketed.gather_ok {code : Code Inline} (hb : Bracketed code) {g g' : Gathered}
    (h : gather code g = .ok ⟨⟩ g') :
    g.constants.Grows g'.constants ∧ g'.opened = g.opened ∧ Known g'.constants code := by
  induction hb generalizing g g' with
  | nil => cases h; exact ⟨.refl _, rfl, trivial⟩
  | defect =>
    obtain ⟨_, g₁, h₁, h⟩ := bind_ok_iff.1 h
    cases h₁
  | alone hi _ ih =>
    obtain ⟨_, g₁, h₁, h⟩ := bind_ok_iff.1 h
    obtain ⟨grow₁, open₁, known₁⟩ := gather_alone_ok hi h₁
    obtain ⟨grow, opened, known⟩ := ih h
    refine ⟨grow₁.trans grow, opened.trans open₁, ?_, known⟩
    exact (show Known g'.constants [_] from Known.mono grow ⟨known₁, trivial⟩).1
  | @call f pop args code _ ih =>
    obtain ⟨_, g₁, h₁, h⟩ := bind_ok_iff.1 h
    cases h₁
    obtain ⟨grow, opened, known⟩ := ih h
    have grow₁ := Constants.Grows.addFunction g.constants f
    exact ⟨grow₁.trans grow, opened, grow.functions.subset (Pool.mem_add _ _), known⟩
  | cond _ _ _ ihYes ihNo ih =>
    obtain ⟨_, g₁, h₁, h⟩ := bind_ok_iff.1 h
    obtain ⟨_, g₂, h₂, h₁⟩ := bind_ok_iff.1 h₁
    obtain ⟨_, g₃, h₃, h₁⟩ := bind_ok_iff.1 h₁
    obtain ⟨grow₂, open₂, known₂⟩ := gather_test_ok h₂
    obtain ⟨grow₃, open₃, known₃⟩ := ihYes h₃
    obtain ⟨grow₁, open₁, known₁⟩ := ihNo h₁
    obtain ⟨grow, opened, known⟩ := ih h
    refine ⟨((grow₂.trans grow₃).trans grow₁).trans grow, by rw [opened, open₁, open₃, open₂], ⟨?_, ?_, ?_⟩, known⟩
    · exact Test.Known.mono ((grow₃.trans grow₁).trans grow) known₂
    · exact known₃.mono (grow₁.trans grow)
    · exact known₁.mono grow
  | whileOk _ _ ihBody ih =>
    obtain ⟨_, g₁, h₁, h⟩ := bind_ok_iff.1 h
    obtain ⟨grow₁, open₁, known₁⟩ := ihBody h₁
    obtain ⟨grow, opened, known⟩ := ih h
    exact ⟨grow₁.trans grow, opened.trans open₁, known₁.mono grow, known⟩
  | @bracket s inner code _ _ _ ihInner ih =>
    obtain ⟨_, g₁, h₁, h⟩ := bind_ok_iff.1 h
    cases h₁
    obtain ⟨g₂, h₂, h⟩ := gather_append_ok.1 h
    obtain ⟨_, g₃, h₃, h⟩ := bind_ok_iff.1 h
    obtain ⟨grow₂, open₂, known₂⟩ := ihInner h₂
    obtain ⟨grow, opened, known⟩ := ih h
    -- the bracket that closes is the one that was opened here, for all inside are closed
    have closed : g₃ = ⟨g₂.constants.addOrigin s, g.opened⟩ := by
      have : Gathering.close g₂ = .ok ⟨⟩ g₃ := h₃
      obtain ⟨constants, opened⟩ := g₂
      cases open₂
      cases this; rfl
    subst closed
    have grow₃ := Constants.Grows.addOrigin g₂.constants s
    refine ⟨(grow₂.trans grow₃).trans grow, opened, ?_, ?_⟩
    · exact grow.origins.subset (Pool.mem_add _ _)
    · exact known_append.2 ⟨known₂.mono (grow₃.trans grow), trivial, known⟩

/-- Code that was assembled is known to the pools, and its words are those of the code linked to them. -/
theorem Bracketed.assemble_ok {code : Code Inline} (hb : Bracketed code) {k k' : Constants} {pooled : Code Pooled}
    (h : code.assemble k = .ok pooled k') : k.Grows k' ∧ Known k' code ∧ pooled = link k' code := by
  unfold assemble at h
  cases hg : gather code ⟨k, []⟩ with
  | ok u g =>
    rw [hg] at h
    cases h
    obtain ⟨grow, -, known⟩ := hb.gather_ok hg
    exact ⟨grow, known, rfl⟩
  | error e g => rw [hg] at h; cases h

end Code

end PegCompiler
