/-
What is so at every point of a run of tidy code. As many silences are open as the rest of the code ends, or more, so
that none is ended that was not begun; a literal is consumed where it was just found; and so the run stays at
boundaries of the text, as do the positions on its stack.
-/
import PegCompiler.Proofs.Code.Tidy
import PegCompiler.Proofs.Machine.Visits
import PegCompiler.Proofs.Machine.Yields
import PegCompiler.Proofs.Meaning.Conduct

namespace PegCompiler.Machine

variable {ν : Naming} {p : Program ν} {R : Nat → Act (ν .function)} {i : Instr ν} {code : Code ν} {s s' : Stack}
  {st st' : ParseState} {cs : List (HostCall (ν .function))} {v : Value} {n : Nat}

open Code (Tidy)

/-! ## Silences -/

/-- Other instructions without blocks leave the count of silences alone. -/
theorem step_silent (h : step p i s st = .ok s' st') (hsilence : i ≠ .silence) (hunsilence : i ≠ .unsilence) :
    st'.silent = st.silent := by
  cases i with
  | silence => exact absurd rfl hsilence
  | unsilence => exact absurd rfl hunsilence
  | fail e =>
    simp only [step, bind_ok_iff, lift_ok_iff, modify_ok_iff, pure_ok_iff] at h
    obtain ⟨e', st₁, ⟨-, rfl⟩, -, st₂, rfl, -, rfl⟩ := h
    exact ParseState.fail_silent _ _
  | defect why => cases h
  | _ =>
    simp only [step, bind_ok_iff, lift_ok_iff, modify_ok_iff, pure_ok_iff, get_ok_iff, change_ok_iff] at h
    grind [ParseState.acceptN, ParseState.accept, ParseState.acceptString, ParseState.acceptStringIc]

/-- A step leaves the rest of tidy code as many more silences to end, or fewer, as it leaves open. -/
theorem tidy_of_step (htidy : Tidy n (i :: code)) (hi : isPlain i = true) (hn : n ≤ st.silent)
    (h : step p i s st = .ok s' st') : ∃ m, Tidy m code ∧ m ≤ st'.silent ∧ st'.silent + n = st.silent + m := by
  cases htidy with
  | tame htame rest =>
    have same := step_silent h (by rintro rfl; cases htame) (by rintro rfl; cases htame)
    exact ⟨n, rest, by omega, by omega⟩
  | silence rest =>
    obtain ⟨-, rfl⟩ := pure_ok_iff.1 h
    exact ⟨_, rest, Nat.succ_le_succ hn, by simp only; omega⟩
  | @unsilence m _ rest =>
    obtain ⟨-, rfl⟩ := pure_ok_iff.1 h
    exact ⟨m, rest, Nat.le_sub_one_of_lt hn, by simp only; omega⟩
  | cond | tested | whileOk => cases hi

/-- The block of a condition is tidy, or consumes nothing but the literal that was found. -/
theorem tidy_of_cond {test : Test ν} {yes no : Code ν} (htidy : Tidy n (.cond test yes no :: code)) (b : Bool) :
    Tidy n code ∧ (Tidy 0 (if b then yes else no) ∨
      ∃ l, test = .string l ∧ b = true ∧ (if b then yes else no) = [.acceptString l]) := by
  cases htidy with
  | tame htame => cases htame
  | cond hyes hno rest => cases b <;> exact ⟨rest, .inl (by assumption)⟩
  | @tested _ l _ _ hno rest =>
    cases b with
    | false => exact ⟨rest, .inl hno⟩
    | true => exact ⟨rest, .inr ⟨l, rfl, rfl, rfl⟩⟩

theorem tidy_of_while {body : Code ν} (htidy : Tidy n (.whileOk body :: code)) : Tidy 0 body ∧ Tidy n code := by
  cases htidy with
  | tame htame => cases htame
  | whileOk hbody rest => exact ⟨hbody, rest⟩

theorem tidy_of_rule {r : Nat} (htidy : Tidy n (.rule r :: code)) : Tidy n code := by
  cases htidy with
  | tame _ rest => exact rest

/-- Tidy code ends the silences that it has to end, and leaves none behind. -/
theorem exec_silent (hR : ∀ r st cs v st', R r st cs v st' → st'.silent = st.silent)
    (h : Exec p R code s st cs s' st') (htidy : Tidy n code) (hn : n ≤ st.silent) : st'.silent + n = st.silent := by
  induction h generalizing n with
  | nil =>
    cases htidy
    rfl
  | plain hi h _ ih =>
    obtain ⟨m, rest, hm, same⟩ := tidy_of_step htidy hi hn h
    have := ih rest hm
    omega
  | @cond _ _ _ _ _ _ _ st st₁ _ b _ _ _ block _ ihBlock ih =>
    obtain ⟨rest, tidy | ⟨l, -, -, hl⟩⟩ := tidy_of_cond htidy b
    · have same : st₁.silent = st.silent := ihBlock tidy (Nat.zero_le _)
      rw [← same]
      exact ih rest (by rw [same]; exact hn)
    · rw [hl] at block
      obtain ⟨s₁, st₂, cs₂, h, done, -⟩ := (exec_plain_iff rfl).1 block
      obtain ⟨-, -, rfl⟩ := exec_nil_iff.1 done
      have same := step_silent h nofun nofun
      rw [← same]
      exact ih rest (by rw [same]; exact hn)
  | done _ _ _ ih => exact ih (tidy_of_while htidy).2 hn
  | @again _ _ _ _ _ st st₁ _ _ _ _ _ _ _ _ ihRound ih =>
    have same : st₁.silent = st.silent := ihRound (tidy_of_while htidy).1 (Nat.zero_le _)
    rw [← same]
    exact ih htidy (by rw [same]; exact hn)
  | rule h _ ih =>
    have same := hR _ _ _ _ _ h
    rw [← same]
    exact ih (tidy_of_rule htidy) (by rw [same]; exact hn)

theorem around_silent {r : Nat} {name : String} {A : Act (ν .function)} (hA : ∀ st cs v st', A st cs v st' → st'.silent = st.silent)
    (h : Around p r name A st cs v st') : st'.silent = st.silent := by
  rcases around_cases h with ⟨entry, trace, -, -, -, -, rfl⟩ | ⟨-, trace, st₁, trace', hbody, rfl⟩
  · rfl
  · have same := hA _ _ _ _ hbody
    split <;> exact same

section Rules

variable (hrules : ∀ r rule, p.rules.getD r none = some rule → Tidy 0 rule.code)

include hrules

/-- Rules with tidy code leave the count of silences as it was. -/
theorem ruleExec_silent (n r : Nat) (h : RuleExec p n r st cs v st') : st'.silent = st.silent := by
  induction n generalizing r st cs v st' with
  | zero => exact h.elim
  | succ n ih =>
    obtain ⟨rule, hr, h⟩ := h
    refine around_silent (fun st cs v st' hx => ?_) h
    exact exec_silent (fun r st cs v st' h => ih r h) hx (hrules r rule hr) (Nat.zero_le _)

theorem rule_silent {fuel r : Nat} (h : rule p fuel r st = .ok v st') : st'.silent = st.silent := by
  obtain ⟨cs, n, hx⟩ := rule_ok_iff.1 ⟨fuel, h⟩
  exact ruleExec_silent hrules n r hx

end Rules

/-! ## Points -/

/-- At a point, what is left of the code is tidy: the silences that it ends were begun, and if a literal is to be
consumed now it was found. -/
inductive Poised (p : Program ν) : Point ν → Prop
  | tidy {r n : Nat} {code : Code ν} {s : Stack} {st : ParseState} (htidy : Tidy n code) (hn : n ≤ st.silent) :
      Poised p ⟨r, code, s, st⟩
  | found {r n : Nat} {l : ν .literal} {code : Code ν} {s : Stack} {st : ParseState} (htidy : Tidy n code)
      (hn : n ≤ st.silent) (hfound : check p (.string l) s st = .ok true st) :
      Poised p ⟨r, .acceptString l :: code, s, st⟩

namespace Poised

variable {x y : Point ν}

/-- No silence is ended that was not begun. -/
theorem silent_pos (h : Poised p x) {rest : Code ν} (hcode : x.code = .unsilence :: rest) : 0 < x.state.silent := by
  cases h with
  | tidy htidy hn =>
    subst hcode
    cases htidy with
    | tame htame => cases htame
    | unsilence => exact Nat.lt_of_lt_of_le (Nat.succ_pos _) hn
  | found => cases hcode

/-- A literal is consumed where it was found. -/
theorem found_of_accept (h : Poised p x) {l : ν .literal} {rest : Code ν} (hcode : x.code = .acceptString l :: rest) :
    check p (.string l) x.stack x.state = .ok true x.state := by
  cases h with
  | tidy htidy =>
    subst hcode
    cases htidy with
    | tame htame => cases htame
  | found _ _ hfound =>
    cases hcode
    exact hfound

theorem next (hrules : ∀ r rule, p.rules.getD r none = some rule → Tidy 0 rule.code) (h : Poised p x)
    (hnext : Next p x y) : Poised p y := by
  cases hnext with
  | plain hi hstep =>
    cases h with
    | found htidy hn => exact .tidy htidy (by rw [step_silent hstep nofun nofun]; exact hn)
    | tidy htidy hn =>
      obtain ⟨m, rest, hm, -⟩ := tidy_of_step htidy hi hn hstep
      exact .tidy rest hm
  | @cond r test yes no code s st b hcheck =>
    cases h with
    | tidy htidy hn =>
      -- the block that is taken comes before what follows the condition
      have inBlock {block : Code ν} {n : Nat} (hblock : Tidy 0 block) (rest : Tidy n code) : Tidy n (block ++ code) := by
        simpa using hblock.append rest
      cases htidy with
      | tame htame => cases htame
      | cond hyes hno rest => cases b <;> exact .tidy (inBlock (by assumption) rest) hn
      | tested hno rest =>
        cases b with
        | false => exact .tidy (inBlock hno rest) hn
        | true => exact .found rest hn hcheck
  | done =>
    cases h with
    | tidy htidy hn => exact .tidy (tidy_of_while htidy).2 hn
  | again =>
    cases h with
    | tidy htidy hn => exact .tidy (by simpa using (tidy_of_while htidy).1.append htidy) hn
  | enter henters =>
    obtain ⟨code, hcode, -, rfl⟩ := henters
    exact .tidy (hrules _ code hcode) (Nat.zero_le _)
  | leave hrule =>
    cases h with
    | tidy htidy hn => exact .tidy (tidy_of_rule htidy) (by rw [rule_silent hrules hrule]; exact hn)

theorem comes (hrules : ∀ r rule, p.rules.getD r none = some rule → Tidy 0 rule.code) (h : Poised p x)
    (hcomes : Comes p x y) : Poised p y := by
  induction hcomes with
  | refl => exact h
  | tail _ hnext ih => exact ih.next hrules hnext

end Poised

/-! ## Places -/

/-- Of all positions on a stack something holds. -/
def Marked (P : Nat → Prop) (s : Stack) : Prop := ∀ q, .pos q ∈ s → P q

namespace Marked

variable {P : Nat → Prop}

@[simp]
theorem value_cons_iff : Marked P (.value v :: s) ↔ Marked P s := by simp [Marked]

@[simp]
theorem pos_cons_iff {q : Nat} : Marked P (.pos q :: s) ↔ P q ∧ Marked P s := by simp [Marked]

theorem pos {d q : Nat} (h : Marked P s) (hq : s.pos d = .ok q) : P q := by
  simp only [Stack.pos, Stack.slot] at hq
  split at hq
  · rename_i slot hslot
    cases slot with
    | pos q' =>
      cases hq
      exact h q (List.mem_of_getElem? hslot)
    | value => cases hq
  · cases hq

theorem drop (h : Marked P s) (n : Nat) : Marked P (s.drop n) := fun q hq => h q (List.mem_of_mem_drop hq)

theorem set_value (h : Marked P s) (d : Nat) (v : Value) : Marked P (s.set d (.value v)) := fun q hq => by
  rcases List.mem_or_eq_of_mem_set hq with hq | hq
  · exact h q hq
  · cases hq

theorem pop (h : Marked P s) (hs : s.pop n = .ok s') : Marked P s' := by
  unfold Stack.pop at hs
  split at hs
  · cases hs
    exact h.drop n
  · cases hs

theorem move (h : Marked P s) {d : Nat} (hs : s.move d = .ok (v, s')) : Marked P s' := by
  obtain ⟨w, -, hs⟩ := except_bind_ok_iff.1 hs
  cases hs
  exact h.set_value d .null

theorem moveAll (h : Marked P s) {ds : List Nat} {vs : List Value} (hs : s.moveAll ds = .ok (vs, s')) :
    Marked P s' := by
  induction ds generalizing s vs with
  | nil =>
    cases hs
    exact h
  | cons d ds ih =>
    obtain ⟨⟨v, s₁⟩, hv, hs⟩ := except_bind_ok_iff.1 hs
    obtain ⟨⟨vs, s₂⟩, hvs, hs⟩ := except_bind_ok_iff.1 hs
    cases hs
    exact ih (h.move hv) hvs

theorem nip (h : Marked P s) (hs : s.nip = .ok s') : Marked P s' := by
  cases s with
  | nil => cases hs
  | cons top below =>
    obtain ⟨s₁, hpop, hs⟩ := except_bind_ok_iff.1 hs
    cases hs
    have rest : Marked P s₁ := pop (fun q hq => h q (List.mem_cons_of_mem _ hq)) hpop
    intro q hq
    rcases List.mem_cons.1 hq with rfl | hq
    · exact h q List.mem_cons_self
    · exact rest q hq

theorem append (h : Marked P s) (hs : s.append = .ok s') : Marked P s' := by
  obtain ⟨⟨item, s₁⟩, hitem, hs⟩ := except_bind_ok_iff.1 hs
  obtain ⟨s₂, hpop, hs⟩ := except_bind_ok_iff.1 hs
  obtain ⟨array, -, hs⟩ := except_bind_ok_iff.1 hs
  cases hs
  exact ((h.move hitem).pop hpop).set_value 0 _

theorem pluck (h : Marked P s) {picks : List Nat} (hs : s.pluck n picks = .ok s') : Marked P s' := by
  obtain ⟨⟨picked, s₁⟩, hpicked, hs⟩ := except_bind_ok_iff.1 hs
  obtain ⟨s₂, hpop, hs⟩ := except_bind_ok_iff.1 hs
  cases hs
  exact value_cons_iff.2 ((h.moveAll hpicked).pop hpop)

theorem wrap (h : Marked P s) (hs : s.wrap n = .ok s') : Marked P s' := by
  obtain ⟨⟨items, s₁⟩, hitems, hs⟩ := except_bind_ok_iff.1 hs
  obtain ⟨s₂, hpop, hs⟩ := except_bind_ok_iff.1 hs
  cases hs
  rw [moveTop_eq_moveAll] at hitems
  exact value_cons_iff.2 ((h.moveAll hitems).pop hpop)

end Marked

variable {text : String} {I : ParseState → Prop}

/-- A step stays at boundaries of the text, if it consumes no literal that is not there. -/
theorem step_placed (hI : Steady text I) (h : step p i s st = .ok s' st') (hst : Placed text I st)
    (hs : Marked (Input.Boundary text) s) (hfound : ∀ l, i = .acceptString l → check p (.string l) s st = .ok true st) :
    Placed text I st' ∧ Marked (Input.Boundary text) s' := by
  -- what is accepted is what the text goes on with
  have accepted {cs : List Char} (hcs : cs <+: st.rest) : Placed text I (st.accept cs).2 := by
    have pos : Input.Boundary text (st.pos + Input.byteLength cs) := by
      refine hst.pos.add ?_
      rw [← hI.input st hst.kept]
      exact hcs
    exact hst.move hI pos
  cases i with
  | acceptN k =>
    simp only [step, bind_ok_iff, change_ok_iff, pure_ok_iff] at h
    obtain ⟨v, st₁, e, rfl, rfl⟩ := h
    cases e
    exact ⟨accepted (List.take_prefix k _), Marked.value_cons_iff.2 hs⟩
  | acceptString l =>
    simp only [step, bind_ok_iff, lift_ok_iff, change_ok_iff, pure_ok_iff] at h
    obtain ⟨literal, _, ⟨hl, rfl⟩, v, st₁, e, rfl, rfl⟩ := h
    cases e
    have found := hfound l rfl
    simp only [check, bind_ok_iff, lift_ok_iff, get_ok_iff, pure_ok_iff] at found
    obtain ⟨_, _, ⟨hl', rfl⟩, _, _, ⟨rfl, rfl⟩, found, -⟩ := found
    cases hl.symm.trans hl'
    have taken : Placed text I { st with pos := st.pos + Input.byteLength literal.toList } :=
      accepted (List.isPrefixOf_iff_prefix.1 found)
    rw [Input.byteLength_toList] at taken
    exact ⟨taken, Marked.value_cons_iff.2 hs⟩
  | acceptStringIc l =>
    simp only [step, bind_ok_iff, lift_ok_iff, change_ok_iff, pure_ok_iff] at h
    obtain ⟨literal, _, ⟨-, rfl⟩, v, st₁, e, rfl, rfl⟩ := h
    cases e
    refine ⟨accepted ?_, Marked.value_cons_iff.2 hs⟩
    unfold ParseState.icMatch?
    cases hmatch : ParseState.icStart? literal.toList st.rest with
    | none => exact List.nil_prefix
    | some cs => exact ParseState.icStart?_prefix hmatch
  | fail e =>
    simp only [step, bind_ok_iff, lift_ok_iff, modify_ok_iff, pure_ok_iff] at h
    obtain ⟨e', _, ⟨-, rfl⟩, -, _, rfl, rfl, rfl⟩ := h
    exact ⟨hst.fail hI e', Marked.value_cons_iff.2 hs⟩
  | pushPos =>
    simp only [step, bind_ok_iff, get_ok_iff, pure_ok_iff] at h
    obtain ⟨_, _, ⟨rfl, rfl⟩, rfl, rfl⟩ := h
    exact ⟨hst, Marked.pos_cons_iff.2 ⟨hst.pos, hs⟩⟩
  | popPos =>
    simp only [step, bind_ok_iff, lift_ok_iff, modify_ok_iff] at h
    obtain ⟨q, _, ⟨hq, rfl⟩, -, _, rfl, hpop, rfl⟩ := h
    exact ⟨hst.move hI (hs.pos hq), hs.pop hpop⟩
  | loadSavedPos d =>
    simp only [step, bind_ok_iff, lift_ok_iff, modify_ok_iff, pure_ok_iff] at h
    obtain ⟨q, _, ⟨hq, rfl⟩, -, _, rfl, rfl, rfl⟩ := h
    exact ⟨hst.save hI (hs.pos hq), hs⟩
  | updateSavedPos =>
    simp only [step, bind_ok_iff, modify_ok_iff, pure_ok_iff] at h
    obtain ⟨-, _, rfl, rfl, rfl⟩ := h
    exact ⟨hst.save hI hst.pos, hs⟩
  | text =>
    simp only [step, bind_ok_iff, lift_ok_iff, get_ok_iff, pure_ok_iff] at h
    obtain ⟨q, _, ⟨-, rfl⟩, _, _, ⟨hpop, rfl⟩, _, _, ⟨rfl, rfl⟩, rfl, rfl⟩ := h
    exact ⟨hst, Marked.value_cons_iff.2 (hs.pop hpop)⟩
  | call f n args =>
    simp only [step, bind_ok_iff, lift_ok_iff, get_ok_iff, pure_ok_iff] at h
    obtain ⟨-, _, ⟨-, rfl⟩, _, _, ⟨-, rfl⟩, _, _, ⟨rfl, rfl⟩, _, _, ⟨hpop, rfl⟩, rfl, rfl⟩ := h
    exact ⟨hst, Marked.value_cons_iff.2 (hs.pop hpop)⟩
  | silence | unsilence =>
    simp only [step, bind_ok_iff, modify_ok_iff, pure_ok_iff] at h
    obtain ⟨-, _, rfl, rfl, rfl⟩ := h
    exact ⟨hst.silence hI _, hs⟩
  | pushEmptyString | pushNull | pushFailed | pushEmptyArray =>
    obtain ⟨rfl, rfl⟩ := pure_ok_iff.1 h
    exact ⟨hst, Marked.value_cons_iff.2 hs⟩
  | mapPush | mapPop | cond | whileOk | rule =>
    obtain ⟨rfl, rfl⟩ := pure_ok_iff.1 h
    exact ⟨hst, hs⟩
  | pop | popN | nip | append | wrap | pluck =>
    obtain ⟨hstack, rfl⟩ := lift_ok_iff.1 h
    refine ⟨hst, ?_⟩
    first
      | exact hs.pop hstack
      | exact hs.nip hstack
      | exact hs.append hstack
      | exact hs.wrap hstack
      | exact hs.pluck hstack
  | defect why => cases h

/-- A point at boundaries of the text. -/
structure Keeping (p : Program ν) (text : String) (I : ParseState → Prop) (x : Point ν) : Prop where
  poised : Poised p x
  placed : Placed text I x.state
  marked : Marked (Input.Boundary text) x.stack

/-- So is the start of a rule that is called there. -/
theorem Enters.keeping (hI : Steady text I) (hrules : ∀ r rule, p.rules.getD r none = some rule → Tidy 0 rule.code)
    {r : Nat} {x : Point ν} (h : Enters p r st x) (hst : Placed text I st) : Keeping p text I x := by
  obtain ⟨rule, hrule, -, rfl⟩ := h
  have enter : Reports (·.reportEnter rule.name st.pos) := reports_enter
  obtain ⟨trace, htrace⟩ := enter.reported p st
  rw [htrace]
  exact ⟨.tidy (hrules r rule hrule) (Nat.zero_le _), ⟨hI.keeps st _ rfl rfl hst.kept, hst.pos, hst.saved⟩, nofun⟩

/-- From a point at boundaries of the text the run comes to such points only, if rules end at them. -/
theorem Keeping.next (hI : Steady text I) (hrules : ∀ r rule, p.rules.getD r none = some rule → Tidy 0 rule.code)
    (hends : ∀ fuel r st v st', Placed text I st → rule p fuel r st = .ok v st' → Placed text I st') {x y : Point ν}
    (h : Keeping p text I x) (hnext : Next p x y) : Keeping p text I y := by
  obtain ⟨poised, placed, marked⟩ := h
  have onward := poised.next hrules hnext
  cases hnext with
  | plain hi hstep =>
    obtain ⟨placed', marked'⟩ := step_placed hI hstep placed marked fun l e => by
      subst e
      exact poised.found_of_accept rfl
    exact ⟨onward, placed', marked'⟩
  | cond | done | again => exact ⟨onward, placed, marked⟩
  | enter henters => exact henters.keeping hI hrules placed
  | leave hrule => exact ⟨onward, hends _ _ _ _ _ placed hrule, Marked.value_cons_iff.2 marked⟩

/-! ## Rules -/

/-- A state of a run over a text: what is remembered of a rule ended at a boundary. -/
structure Aligned (text : String) (st : ParseState) : Prop where
  input : st.input = .ofString text
  next : ∀ (key : CacheKey) (entry : CacheEntry), st.cache[key]? = some entry → Input.Boundary text entry.next

theorem steady_aligned (text : String) : Steady text (Aligned text) where
  input := fun _ h => h.input
  keeps := fun _ _ hi hc h => ⟨hi.trans h.input, fun key entry he => h.next key entry (hc ▸ he)⟩

theorem aligned_start (text : String) (source : Option String) (tracing : Bool) :
    Placed text (Aligned text) (.start text source tracing) :=
  ⟨⟨rfl, by simp [ParseState.start]⟩, Input.boundary_zero text, Input.boundary_zero text⟩

/-- Tidy code that starts at boundaries of the text ends at them, if rules do. -/
theorem exec_placed (hI : Steady text I) (hsilent : ∀ r st cs v st', R r st cs v st' → st'.silent = st.silent)
    (hplaced : ∀ r st cs v st', Placed text I st → R r st cs v st' → Placed text I st')
    (h : Exec p R code s st cs s' st') (htidy : Tidy n code) (hn : n ≤ st.silent) (hst : Placed text I st)
    (hs : Marked (Input.Boundary text) s) : Placed text I st' ∧ Marked (Input.Boundary text) s' := by
  induction h generalizing n with
  | nil => exact ⟨hst, hs⟩
  | plain hi h _ ih =>
    obtain ⟨m, rest, hm, -⟩ := tidy_of_step htidy hi hn h
    obtain ⟨hst₁, hs₁⟩ := step_placed hI h hst hs fun l e => by
      subst e
      cases htidy with
      | tame htame => cases htame
    exact ih rest hm hst₁ hs₁
  | @cond _ _ _ _ s s₁ _ st st₁ _ b _ _ hcheck block _ ihBlock ih =>
    obtain ⟨rest, inside⟩ := tidy_of_cond htidy b
    -- the block is tidy, or it is the step that the condition allows
    have ends : (Placed text I st₁ ∧ Marked (Input.Boundary text) s₁) ∧ st₁.silent = st.silent := by
      rcases inside with tidy | ⟨l, rfl, rfl, hl⟩
      · exact ⟨ihBlock tidy (Nat.zero_le _) hst hs, exec_silent hsilent block tidy (Nat.zero_le _)⟩
      · rw [hl] at block
        obtain ⟨_, _, _, h, done, -⟩ := (exec_plain_iff rfl).1 block
        obtain ⟨-, rfl, rfl⟩ := exec_nil_iff.1 done
        exact ⟨step_placed hI h hst hs fun l e => by cases e; exact hcheck, step_silent h nofun nofun⟩
    obtain ⟨⟨hst₁, hs₁⟩, same⟩ := ends
    exact ih rest (by rw [same]; exact hn) hst₁ hs₁
  | done _ _ _ ih => exact ih (tidy_of_while htidy).2 hn hst hs
  | @again _ _ _ _ _ st st₁ _ _ _ _ _ _ round _ ihRound ih =>
    have tidy := (tidy_of_while htidy).1
    obtain ⟨hst₁, hs₁⟩ := ihRound tidy (Nat.zero_le _) hst hs
    have same : st₁.silent = st.silent := exec_silent hsilent round tidy (Nat.zero_le _)
    exact ih htidy (by rw [same]; exact hn) hst₁ hs₁
  | rule h _ ih =>
    exact ih (tidy_of_rule htidy) (by rw [hsilent _ _ _ _ _ h]; exact hn) (hplaced _ _ _ _ _ hst h)
      (Marked.value_cons_iff.2 hs)

theorem around_placed {r : Nat} {name : String} {A : Act (ν .function)}
    (hA : ∀ st cs v st', Placed text (Aligned text) st → A st cs v st' → Placed text (Aligned text) st')
    (h : Around p r name A st cs v st') (hst : Placed text (Aligned text) st) : Placed text (Aligned text) st' := by
  have hI := steady_aligned text
  rcases around_cases h with ⟨entry, trace, -, -, hentry, -, rfl⟩ | ⟨-, trace, st₁, trace', hbody, rfl⟩
  · exact ⟨hI.keeps st _ rfl rfl hst.kept, hst.kept.next _ _ hentry, hst.saved⟩
  · have entered : Placed text (Aligned text) { st with trace } := ⟨hI.keeps st _ rfl rfl hst.kept, hst.pos, hst.saved⟩
    have ends := hA _ _ _ _ entered hbody
    split
    · refine ⟨⟨ends.kept.input, fun key entry he => ?_⟩, ends.pos, ends.saved⟩
      -- the result that is remembered now ended here
      unfold ParseState.remember at he
      dsimp only at he
      rw [Std.HashMap.getElem?_insert] at he
      split at he
      · cases he
        exact ends.pos
      · exact ends.kept.next key entry he
    · exact ⟨hI.keeps st₁ _ rfl rfl ends.kept, ends.pos, ends.saved⟩

section Rules

variable (hrules : ∀ r rule, p.rules.getD r none = some rule → Tidy 0 rule.code)

include hrules

theorem ruleExec_placed (n r : Nat) (h : RuleExec p n r st cs v st') (hst : Placed text (Aligned text) st) :
    Placed text (Aligned text) st' := by
  induction n generalizing r st cs v st' with
  | zero => exact h.elim
  | succ n ih =>
    obtain ⟨rule, hr, h⟩ := h
    refine around_placed (fun st cs v st' hst hx => ?_) h hst
    exact (exec_placed (steady_aligned text) (fun r st cs v st' h => ruleExec_silent hrules n r h)
      (fun r st cs v st' hst h => ih r h hst) hx (hrules r rule hr) (Nat.zero_le _) hst nofun).1

/-- Rules with tidy code that are called at boundaries of the text end at them. -/
theorem rule_placed {fuel r : Nat} (hst : Placed text (Aligned text) st) (h : rule p fuel r st = .ok v st') :
    Placed text (Aligned text) st' := by
  obtain ⟨cs, n, hx⟩ := rule_ok_iff.1 ⟨fuel, h⟩
  exact ruleExec_placed hrules n r hx hst

/-- From a point at boundaries of the text a run comes to such points only. -/
theorem Keeping.comes {x y : Point ν} (h : Keeping p text (Aligned text) x) (hcomes : Comes p x y) :
    Keeping p text (Aligned text) y := by
  induction hcomes with
  | refl => exact h
  | tail _ hnext ih =>
    exact ih.next (steady_aligned text) hrules (fun _ _ _ _ _ hst hrun => rule_placed hrules hst hrun) hnext

end Rules

end PegCompiler.Machine
