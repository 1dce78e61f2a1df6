/-
Where parses failed and what they expected there. A parse keeps the farthest of its failures; what it has kept after
many of them is told here of the log of all (`Failures.recordAll`). Errors list expectations by their descriptions, the
first one for each, so failures that are known already change nothing in them.
-/
import Mathlib.Data.List.Induction
import Mathlib.Data.List.Nodup
import Mathlib.Data.String.Basic
import PegCompiler.Machine.State

namespace PegCompiler

/-! ## What errors list -/

namespace ParseError

theorem dedup_sublist (l : List (String × Expectation)) : (arrange.dedup l).Sublist l := by
  induction l with
  | nil => exact List.nil_sublist _
  | cons a rest ih =>
    rw [arrange.dedup]
    split
    · exact List.Sublist.cons_cons a (List.nil_sublist rest)
    · rename_i b others heq
      rw [heq] at ih
      split
      · exact .cons_cons a (.trans (List.sublist_cons_self b others) ih)
      · exact .cons_cons a ih

/-- In order, one for each description: the first one. -/
theorem dedup_spec {l : List (String × Expectation)} (h : l.Pairwise fun a b => a.1 ≤ b.1) :
    (arrange.dedup l).Pairwise (fun a b => a.1 < b.1) ∧
      ∀ x, x ∈ arrange.dedup l ↔ l.find? (fun a => a.1 = x.1) = some x := by
  induction l with
  | nil => exact ⟨.nil, fun x => by simp [arrange.dedup]⟩
  | cons a rest ih =>
    obtain ⟨least, sorted⟩ := List.pairwise_cons.1 h
    obtain ⟨strict, members⟩ := ih sorted
    -- what follows has greater descriptions, so the one of the first is found at once and every other one after it
    have whole : ∀ others, others.Pairwise (fun a b => a.1 < b.1) → (∀ x ∈ others, a.1 < x.1) →
        (∀ x, a.1 ≠ x.1 → (x ∈ others ↔ x ∈ arrange.dedup rest)) →
        (a :: others).Pairwise (fun a b => a.1 < b.1) ∧
          ∀ x, x ∈ a :: others ↔ (a :: rest).find? (fun b => b.1 = x.1) = some x := by
      intro others hothers beyond same
      refine ⟨List.pairwise_cons.2 ⟨beyond, hothers⟩, fun x => ?_⟩
      rw [List.mem_cons]
      by_cases hx : a.1 = x.1
      · rw [List.find?_cons_of_pos (by simpa using hx), Option.some_inj, or_iff_left fun hm => (beyond x hm).ne hx]
        exact eq_comm
      · rw [List.find?_cons_of_neg (by simpa using hx), ← members, same x hx,
          or_iff_right fun e => hx (congrArg Prod.fst e.symm)]
    cases hd : arrange.dedup rest with
    | nil =>
      have e : arrange.dedup (a :: rest) = [a] := by rw [arrange.dedup, hd]
      rw [e]
      exact whole [] .nil (fun x hx => by cases hx) fun x _ => by rw [hd]
    | cons b others =>
      have e : arrange.dedup (a :: rest) = if a.1 = b.1 then a :: others else a :: b :: others := by
        rw [arrange.dedup, hd]
      rw [hd] at strict
      obtain ⟨hb, hothers⟩ := List.pairwise_cons.1 strict
      have later : a.1 ≤ b.1 := least b ((dedup_sublist rest).subset (hd ▸ List.mem_cons_self))
      rw [e]
      by_cases hab : a.1 = b.1
      · rw [if_pos hab]
        refine whole others hothers (fun x hx => hab ▸ hb x hx) fun x hx => ?_
        rw [hd, List.mem_cons, or_iff_right]
        exact fun e => hx (hab.trans (congrArg Prod.fst e.symm))
      · rw [if_neg hab]
        have before : a.1 < b.1 := lt_of_le_of_ne later hab
        refine whole (b :: others) strict (fun x hx => ?_) fun x _ => by rw [hd]
        rcases List.mem_cons.1 hx with rfl | hx
        · exact before
        · exact before.trans (hb x hx)

/-- Expectations with their descriptions, in the order of these. -/
def sorted (l : List Expectation) : List (String × Expectation) :=
  (l.map fun e => (e.text, e)).mergeSort fun a b => decide (a.1 ≤ b.1)

theorem sorted_total (a b : String × Expectation) : (decide (a.1 ≤ b.1) || decide (b.1 ≤ a.1)) = true := by
  simpa using le_total a.1 b.1

theorem sorted_trans (a b c : String × Expectation) (hab : decide (a.1 ≤ b.1) = true) (hbc : decide (b.1 ≤ c.1) = true) :
    decide (a.1 ≤ c.1) = true := by
  simpa using le_trans (of_decide_eq_true hab) (of_decide_eq_true hbc)

theorem pairwise_sorted (l : List Expectation) : (sorted l).Pairwise fun a b => a.1 ≤ b.1 :=
  (List.pairwise_mergeSort sorted_trans sorted_total _).imp fun h => of_decide_eq_true h

/-- Sorting keeps the order of expectations with one description, so the first of them stays the first. -/
theorem find?_sorted (l : List Expectation) (d : String) : (sorted l).find? (fun a => a.1 = d) =
    (l.find? fun e => e.text = d).map fun e => (e.text, e) := by
  have alike : ((l.map fun e => (e.text, e)).filter fun a => a.1 = d).Pairwise fun a b => decide (a.1 ≤ b.1) = true := by
    rw [List.pairwise_filter]
    refine List.pairwise_of_forall fun a b ha hb => ?_
    have ha : a.1 = d := of_decide_eq_true ha
    have hb : b.1 = d := of_decide_eq_true hb
    rw [ha, hb]
    exact decide_eq_true (le_refl d)
  have sub : ((l.map fun e => (e.text, e)).filter fun a => a.1 = d).Sublist ((sorted l).filter fun a => a.1 = d) := by
    have sub := (List.sublist_mergeSort sorted_trans sorted_total alike List.filter_sublist).filter fun a => decide (a.1 = d)
    rwa [List.filter_filter, List.filter_congr fun a _ => Bool.and_self _] at sub
  have same : ((l.map fun e => (e.text, e)).filter fun a => a.1 = d) = (sorted l).filter fun a => a.1 = d :=
    sub.eq_of_length ((List.mergeSort_perm _ _).filter _).length_eq.symm
  rw [← List.head?_filter, ← same, List.head?_filter, List.find?_map]
  rfl

/-- Errors list expectations by their descriptions, in order and without repetitions. -/
theorem pairwise_arrange (l : List Expectation) : (arrange l).Pairwise fun a b => a.1 < b.1 :=
  (dedup_spec (pairwise_sorted l)).1

/-- For each description they list the first expectation that has it. -/
theorem mem_arrange_iff {l : List Expectation} {x : String × Expectation} :
    x ∈ arrange l ↔ l.find? (fun e => e.text = x.1) = some x.2 := by
  have mem : x ∈ arrange l ↔ (sorted l).find? (fun a => a.1 = x.1) = some x := (dedup_spec (pairwise_sorted l)).2 x
  rw [mem, find?_sorted, Option.map_eq_some_iff]
  constructor
  · rintro ⟨e, he, rfl⟩
    exact he
  · intro h
    have text := List.find?_some h
    exact ⟨x.2, h, Prod.ext (of_decide_eq_true text) rfl⟩

/-- Expectations are listed with their own descriptions. -/
theorem text_of_mem_arrange {l : List Expectation} {x : String × Expectation} (h : x ∈ arrange l) : x.2.text = x.1 := by
  have text := List.find?_some (mem_arrange_iff.1 h)
  exact of_decide_eq_true text

theorem text_arrange (l : List Expectation) : (arrange l).map (·.1) = ((arrange l).map (·.2)).map (·.text) := by
  rw [List.map_map]
  exact List.map_congr_left fun x hx => (text_of_mem_arrange hx).symm

theorem find?_eraseDups (p : Expectation → Bool) (l : List Expectation) : l.eraseDups.find? p = l.find? p := by
  induction hn : l.length using Nat.strong_induction_on generalizing l with
  | _ n ih =>
    cases l with
    | nil => rfl
    | cons e es =>
      rw [List.eraseDups_cons, List.find?_cons, List.find?_cons]
      cases he : p e with
      | true => rfl
      | false =>
        have shorter : (es.filter fun b => !b == e).length < n := by
          rw [← hn, List.length_cons]
          exact Nat.lt_succ_of_le (List.length_filter_le _ _)
        -- what is left out does not have the property either
        show List.find? p (es.filter fun b => !b == e).eraseDups = es.find? p
        rw [ih _ shorter _ rfl, List.find?_filter]
        congr 1
        funext b
        by_cases hb : b = e
        · simp [hb, he]
        · simp [hb]

/-- What errors list depends on the order in which expectations come first, and on nothing else. -/
theorem arrange_congr {l l' : List Expectation} (h : l.eraseDups = l'.eraseDups) : arrange l = arrange l' := by
  have members : ∀ x, x ∈ arrange l ↔ x ∈ arrange l' := fun x => by
    rw [mem_arrange_iff, mem_arrange_iff, ← find?_eraseDups _ l, h, find?_eraseDups]
  have nodup (l : List Expectation) : (arrange l).Nodup :=
    (pairwise_arrange l).imp fun h e => h.ne (congrArg Prod.fst e)
  have perm := (List.perm_ext_iff_of_nodup (nodup l) (nodup l')).2 members
  exact perm.eq_of_pairwise (fun a b _ _ hab hba => absurd (hab.trans hba) (lt_irrefl _)) (pairwise_arrange l)
    (pairwise_arrange l')

end ParseError

/-! ## What a parse keeps of its failures -/

/-- Where a parse failed farthest, and what it expected there, in order. -/
structure Failures where
  pos : Nat
  expected : List Expectation

namespace Failures

/-- What is kept after another failure. -/
def record (f : Failures) (pos : Nat) (e : Expectation) : Failures :=
  if pos < f.pos then f else if f.pos < pos then ⟨pos, [e]⟩ else ⟨f.pos, f.expected ++ [e]⟩

/-- What is kept after failures one after the other. -/
def recordAll (f : Failures) (log : List (Nat × Expectation)) : Failures := log.foldl (fun f x => f.record x.1 x.2) f

/-- The failure would add nothing: there is one farther on, or it is there already. -/
def Knows (f : Failures) (x : Nat × Expectation) : Prop := x.1 < f.pos ∨ x.1 = f.pos ∧ x.2 ∈ f.expected

/-- The same failures, if it is only looked at which of them came first. -/
structure Alike (f f' : Failures) : Prop where
  pos : f.pos = f'.pos
  expected : f.expected.eraseDups = f'.expected.eraseDups

variable {f f' : Failures} {log : List (Nat × Expectation)} {x : Nat × Expectation}

theorem recordAll_append (f : Failures) (log log' : List (Nat × Expectation)) :
    f.recordAll (log ++ log') = (f.recordAll log).recordAll log' := List.foldl_append

theorem recordAll_concat (f : Failures) (log : List (Nat × Expectation)) (pos : Nat) (e : Expectation) :
    f.recordAll (log ++ [(pos, e)]) = (f.recordAll log).record pos e := recordAll_append f log _

theorem Alike.refl (f : Failures) : Alike f f := ⟨rfl, rfl⟩

theorem Alike.trans {f'' : Failures} (h : Alike f f') (h' : Alike f' f'') : Alike f f'' :=
  ⟨h.pos.trans h'.pos, h.expected.trans h'.expected⟩

theorem Alike.knows (h : Alike f f') : f.Knows x ↔ f'.Knows x := by
  unfold Knows
  rw [h.pos, ← List.mem_eraseDups (l := f.expected), h.expected, List.mem_eraseDups]

/-- Only what was not expected yet is new. -/
theorem eraseDups_concat (l : List Expectation) (e : Expectation) :
    (l ++ [e]).eraseDups = l.eraseDups ++ if e ∈ l then [] else [e] := by
  rw [List.eraseDups_append]
  congr 1
  by_cases he : e ∈ l
  · simp [List.removeAll, he]
  · simp [List.removeAll, he, List.eraseDups_cons]

theorem Alike.record (h : Alike f f') (pos : Nat) (e : Expectation) : Alike (f.record pos e) (f'.record pos e) := by
  unfold Failures.record
  rw [h.pos]
  split
  · exact h
  · split
    · exact .refl _
    · refine ⟨rfl, ?_⟩
      have same : e ∈ f.expected ↔ e ∈ f'.expected := by
        rw [← List.mem_eraseDups, h.expected, List.mem_eraseDups]
      rw [eraseDups_concat, eraseDups_concat, h.expected]
      simp only [same]

theorem knows_record (f : Failures) (pos : Nat) (e : Expectation) : (f.record pos e).Knows (pos, e) := by
  unfold record Knows
  split
  · exact .inl ‹_›
  · split
    · exact .inr ⟨rfl, List.mem_singleton_self e⟩
    · exact .inr ⟨by show pos = f.pos; omega, List.mem_append_right _ (List.mem_singleton_self e)⟩

/-- What is known stays known. -/
theorem Knows.record (h : f.Knows x) (pos : Nat) (e : Expectation) : (f.record pos e).Knows x := by
  unfold Failures.record
  split
  · exact h
  · rename_i hle
    split
    · rename_i hlt
      refine .inl ?_
      rcases h with h | ⟨h, -⟩
      · exact h.trans hlt
      · exact h ▸ hlt
    · rcases h with h | ⟨h, hmem⟩
      · exact .inl h
      · exact .inr ⟨h, List.mem_append_left _ hmem⟩

theorem Knows.recordAll (h : f.Knows x) (log : List (Nat × Expectation)) : (f.recordAll log).Knows x := by
  induction log generalizing f with
  | nil => exact h
  | cons y log ih => exact ih (h.record y.1 y.2)

theorem knows_recordAll (f : Failures) (hx : x ∈ log) : (f.recordAll log).Knows x := by
  obtain ⟨before, after, rfl⟩ := List.append_of_mem hx
  rw [recordAll_append]
  exact (knows_record (f.recordAll before) x.1 x.2).recordAll after

/-- What is known already makes no difference. -/
theorem alike_record (h : f.Knows x) : Alike (f.record x.1 x.2) f := by
  unfold Failures.record
  split
  · exact .refl f
  · rename_i hle
    rcases h with h | ⟨h, hmem⟩
    · exact absurd h hle
    · rw [if_neg (by omega)]
      refine ⟨rfl, ?_⟩
      rw [eraseDups_concat, if_pos hmem, List.append_nil]

theorem alike_recordAll (h : ∀ x ∈ log, f.Knows x) : Alike (f.recordAll log) f := by
  induction log generalizing f with
  | nil => exact .refl f
  | cons y log ih =>
    have first := alike_record (h y List.mem_cons_self)
    exact (ih fun x hx => first.knows.2 (h x (List.mem_cons_of_mem _ hx))).trans first

/-! ### What is left of a log -/

/-- The farthest position in a log, the start of the text if there is none. -/
def farthest (log : List (Nat × Expectation)) : Nat := (log.map (·.1)).foldl max 0

/-- What was expected at a position, in order. -/
def expectedAt (log : List (Nat × Expectation)) (pos : Nat) : List Expectation :=
  (log.filter fun x => x.1 = pos).map (·.2)

theorem farthest_concat (log : List (Nat × Expectation)) (x : Nat × Expectation) :
    farthest (log ++ [x]) = max (farthest log) x.1 := by
  unfold farthest
  rw [List.map_append, List.foldl_append]
  rfl

theorem expectedAt_concat (log : List (Nat × Expectation)) (x : Nat × Expectation) (pos : Nat) :
    expectedAt (log ++ [x]) pos = expectedAt log pos ++ if x.1 = pos then [x.2] else [] := by
  unfold expectedAt
  rw [List.filter_append, List.map_append, List.filter_singleton]
  by_cases h : x.1 = pos
  · simp [h]
  · simp [h]

/-- No position in a log is farther. -/
theorem farthest_greatest (log : List (Nat × Expectation)) : ∀ x ∈ log, x.1 ≤ farthest log := by
  induction log using List.reverseRecOn with
  | nil => exact fun x hx => absurd hx List.not_mem_nil
  | append_singleton log y ih =>
    intro x hx
    rw [farthest_concat]
    rcases List.mem_append.1 hx with hx | hx
    · exact (ih x hx).trans (Nat.le_max_left ..)
    · rw [List.mem_singleton.1 hx]
      exact Nat.le_max_right ..

/-- Nothing was expected farther on. -/
theorem expectedAt_eq_nil {pos : Nat} (h : farthest log < pos) : expectedAt log pos = [] := by
  unfold expectedAt
  rw [List.map_eq_nil_iff, List.filter_eq_nil_iff]
  intro x hx
  have le := farthest_greatest log x hx
  simpa using (by omega : x.1 ≠ pos)

/-- Of the failures of a whole parse the farthest ones are kept, in order. -/
theorem recordAll_start (log : List (Nat × Expectation)) :
    recordAll ⟨0, []⟩ log = ⟨farthest log, expectedAt log (farthest log)⟩ := by
  induction log using List.reverseRecOn with
  | nil => rfl
  | append_singleton log x ih =>
    rw [recordAll_concat, ih, farthest_concat, expectedAt_concat]
    unfold record
    dsimp only
    rcases Nat.lt_trichotomy x.1 (farthest log) with h | h | h
    · rw [if_pos h, Nat.max_eq_left h.le, if_neg h.ne, List.append_nil]
    · rw [if_neg (by omega), if_neg (by omega), Nat.max_eq_left h.le, if_pos h]
    · rw [if_neg (by omega), if_pos h, Nat.max_eq_right h.le, if_pos rfl, expectedAt_eq_nil h, List.nil_append]

end Failures

namespace ParseState

/-- The failures that count. -/
def failures (st : ParseState) : Failures := ⟨st.maxFailPos, st.expected.toList⟩

theorem failures_recordFailure (st : ParseState) (pos : Nat) (e : Expectation) :
    (st.recordFailure pos e).failures = st.failures.record pos e := by
  unfold recordFailure Failures.record
  show _ = if pos < st.maxFailPos then _ else if st.maxFailPos < pos then _ else _
  split
  · rfl
  · split
    · rfl
    · exact congrArg (Failures.mk _) Array.toList_push

/-- A failure counts unless failures are silenced. -/
theorem failures_fail (st : ParseState) (e : Expectation) :
    (st.fail e).failures = if st.silent = 0 then st.failures.record st.pos e else st.failures := by
  unfold fail
  split
  · exact failures_recordFailure st st.pos e
  · rfl

/-- Failures are recorded, and nothing else is done. -/
theorem recordFailure_eq (st : ParseState) (pos : Nat) (e : Expectation) : st.recordFailure pos e =
    { st with maxFailPos := (st.recordFailure pos e).maxFailPos, expected := (st.recordFailure pos e).expected } := by
  unfold recordFailure
  split
  · rfl
  · split <;> rfl

theorem recordFailure_input (st : ParseState) (pos : Nat) (e : Expectation) :
    (st.recordFailure pos e).input = st.input := by
  rw [recordFailure_eq]

theorem recordFailure_source (st : ParseState) (pos : Nat) (e : Expectation) :
    (st.recordFailure pos e).source = st.source := by
  rw [recordFailure_eq]

theorem fail_eq (st : ParseState) (e : Expectation) :
    st.fail e = { st with maxFailPos := (st.fail e).maxFailPos, expected := (st.fail e).expected } := by
  unfold fail
  split
  · exact recordFailure_eq st st.pos e
  · rfl

theorem fail_input (st : ParseState) (e : Expectation) : (st.fail e).input = st.input := by rw [fail_eq]

theorem fail_source (st : ParseState) (e : Expectation) : (st.fail e).source = st.source := by rw [fail_eq]

theorem fail_pos (st : ParseState) (e : Expectation) : (st.fail e).pos = st.pos := by rw [fail_eq]

theorem fail_silent (st : ParseState) (e : Expectation) : (st.fail e).silent = st.silent := by rw [fail_eq]

end ParseState

end PegCompiler
