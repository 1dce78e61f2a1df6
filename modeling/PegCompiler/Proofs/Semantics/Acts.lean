/-
How the meanings of expressions as acts and the semantics of grammars fit together: the states of a parse in
a world, results as values that are left there, and what calls of host code, bounds and terminals are in both.
-/
import PegCompiler.Proofs.Failures
import PegCompiler.Proofs.Machine.Parser
import PegCompiler.Proofs.Meaning.Pruning
import PegCompiler.Proofs.Semantics.Basic
import PegCompiler.Proofs.Text.Input

namespace PegCompiler.Semantics

open Machine

/-! ## States and results -/

/-- A state of a parse in the world. -/
structure World.Has (w : World) (st : ParseState) : Prop where
  input : st.input = w.input
  source : st.source = w.source

/-- A result is left as a value at a position: a failure is one at the start. -/
def Result.Is (start : Nat) : Result Value → Value → (stop : Nat) → Prop
  | .found a q, v, stop => v = a ∧ stop = q ∧ a.isFailed = false
  | .failed, v, stop => v = .failed ∧ stop = start

/-- An act ends with a value in a state as told. -/
structure EndsAs (w : World) (start : Nat) (r : Result Value) (saved : Nat) (v : Value) (st : ParseState) : Prop where
  has : w.Has st
  saved : st.saved = saved
  result : r.Is start v st.pos

/-- What the semantics tells of an expression or a rule. -/
abbrev Told := (pos saved : Nat) → List Call → Result Value → (saved' : Nat) → Prop

/-- What a rule does, by the semantics of its body. -/
def EvalRule (w : World) (r : RuleId) : Told := fun pos saved cs res saved' =>
  ∃ rule, w.grammar.live? r = some rule ∧ Eval w rule.body [] pos saved cs res saved'

/-- Whatever an act does is told of. -/
def Sound (w : World) (A : Act HostFunction) (S : Told) : Prop :=
  ∀ st, w.Has st → ∀ cs v st', A st cs v st' →
    ∃ r saved', S st.pos st.saved cs r saved' ∧ EndsAs w st.pos r saved' v st'

variable {w : World} {st st' : ParseState} {cs : List Call} {v : Value}

namespace World.Has

theorem view (h : w.Has st) : HostView.of st = w.view st.saved st.pos := by
  unfold HostView.of World.view
  rw [h.input, h.source]

theorem rest (h : w.Has st) : st.rest = w.input.rest st.pos := by
  unfold ParseState.rest
  rw [h.input]

theorem silence (h : w.Has st) (n : Nat) : w.Has { st with silent := n } := ⟨h.input, h.source⟩

theorem move (h : w.Has st) (pos : Nat) : w.Has { st with pos } := ⟨h.input, h.source⟩

theorem save (h : w.Has st) (saved : Nat) : w.Has { st with saved } := ⟨h.input, h.source⟩

end World.Has

theorem endsAs_fail (h : w.Has st) (e : Expectation) :
    EndsAs w st.pos .failed st.saved .failed (st.fail e) := by
  rw [st.fail_eq]
  exact ⟨⟨h.input, h.source⟩, rfl, rfl, rfl⟩

/-! ## Host code -/

section Calls

variable {c : Setting} (hf : c.function = w.bindings.function)

include hf

theorem call_iff (h : w.Has st) {kind : FunctionKind} {code : HostCode} {ls : Labels} :
    c.call kind code ls st cs v st' ↔ ∃ u, w.answer? code ls st.saved st.pos = some u ∧
      cs = [w.call kind code ls st.saved st.pos] ∧ v = hostResult kind u ∧ st' = st := by
  unfold Setting.call Act.call World.answer? World.call
  rw [hf, h.view]
  unfold Bindings.function
  dsimp only
  cases hcode : w.bindings.find? code.val with
  | none =>
    constructor
    · rintro ⟨_, _, e, _⟩; cases e
    · rintro ⟨_, e, _⟩; cases e
  | some f =>
    constructor
    · rintro ⟨_, _, e, hcs, hv, hst⟩
      cases e
      exact ⟨_, rfl, hcs, hv, hst⟩
    · rintro ⟨_, e, hcs, hv, hst⟩
      cases e
      exact ⟨_, _, rfl, hcs, hv, hst⟩

theorem action_iff (h : w.Has st) {start : Nat} {code : HostCode} {ls : Labels} :
    c.action start code ls st cs v st' ↔ w.answer? code ls start st.pos = some v ∧
      cs = [w.call .action code ls start st.pos] ∧ st' = { st with saved := start } := by
  unfold Setting.action Act.after
  rw [call_iff hf (h.save start)]
  constructor
  · rintro ⟨u, hu, hcs, rfl, hst⟩; exact ⟨hu, hcs, hst⟩
  · rintro ⟨hu, hcs, hst⟩; exact ⟨v, hu, hcs, rfl, hst⟩

theorem predicate_iff (h : w.Has st) {code : HostCode} {negative : Bool} {ls : Labels} :
    c.predicate code negative ls st cs v st' ↔ ∃ u, w.answer? code ls st.pos st.pos = some u ∧
      cs = [w.call .predicate code ls st.pos st.pos] ∧ v = (if u.truthy = negative then .failed else .null) ∧
      st' = { st with saved := st.pos } := by
  unfold Setting.predicate Act.after Act.bind
  constructor
  · rintro ⟨_, _, _, _, hcall, ⟨rfl, rfl, rfl⟩, rfl⟩
    obtain ⟨u, hu, rfl, rfl, rfl⟩ := (call_iff hf (h.save st.pos)).1 hcall
    exact ⟨u, hu, rfl, rfl, rfl⟩
  · rintro ⟨u, hu, rfl, rfl, rfl⟩
    exact ⟨_, _, _, [], (call_iff hf (h.save st.pos)).2 ⟨u, hu, rfl, rfl, rfl⟩, ⟨rfl, rfl, rfl⟩, rfl⟩

theorem withBound_iff (h : w.Has st) {b : Boundary} {ls : Labels} {A : Count → Act HostFunction} :
    c.withBound ls b A st cs v st' ↔
      ∃ cs₁ n cs₂, Bound w ls st.pos st.saved b cs₁ n ∧ A n st cs₂ v st' ∧ cs = cs₁ ++ cs₂ := by
  cases b with
  | constant n =>
    constructor
    · intro hA; exact ⟨[], _, cs, .constant, hA, rfl⟩
    · rintro ⟨_, _, _, hb, hA, rfl⟩; cases hb; exact hA
  | label name =>
    unfold Setting.withBound
    dsimp only
    cases hl : ls.lookup name.val with
    | none =>
      constructor
      · intro hA; exact hA.elim
      · rintro ⟨_, _, _, hb, _⟩
        cases hb with
        | label h' => rw [hl] at h'; cases h'
    | some u =>
      constructor
      · intro hA; exact ⟨[], _, cs, .label hl, hA, rfl⟩
      · rintro ⟨_, _, _, hb, hA, rfl⟩
        cases hb with
        | label h' => rw [hl] at h'; cases h'; exact hA
  | computed code =>
    unfold Setting.withBound Act.bind
    constructor
    · rintro ⟨_, _, _, cs₂, hcall, hA, rfl⟩
      obtain ⟨u, hu, rfl, rfl, rfl⟩ := (call_iff hf h).1 hcall
      exact ⟨_, _, cs₂, .computed hu, hA, rfl⟩
    · rintro ⟨_, _, cs₂, hb, hA, rfl⟩
      cases hb with
      | computed hu => exact ⟨_, _, _, cs₂, (call_iff hf h).2 ⟨_, hu, rfl, rfl, rfl⟩, hA, rfl⟩

theorem withBounds_iff (h : w.Has st) {min : Option Boundary} {max : Boundary} {ls : Labels}
    {A : Nat → Option Nat → Act HostFunction} :
    c.withBounds ls min max A st cs v st' ↔ ∃ cs₁ least most cs₂,
      Bounds w ls st.pos st.saved min max cs₁ least most ∧ A least most st cs₂ v st' ∧ cs = cs₁ ++ cs₂ := by
  cases min with
  | none =>
    unfold Setting.withBounds
    dsimp only
    rw [withBound_iff hf h]
    constructor
    · rintro ⟨cs₁, n, cs₂, hb, hA, rfl⟩; exact ⟨cs₁, _, _, cs₂, .exactly hb, hA, rfl⟩
    · rintro ⟨cs₁, _, _, cs₂, hb, hA, rfl⟩
      cases hb with
      | exactly hb => exact ⟨cs₁, _, cs₂, hb, hA, rfl⟩
  | some min =>
    unfold Setting.withBounds
    dsimp only
    rw [withBound_iff hf h]
    constructor
    · rintro ⟨cs₁, m, _, hb, hA, rfl⟩
      obtain ⟨cs₂, n, cs₃, hb', hA', rfl⟩ := (withBound_iff hf h).1 hA
      exact ⟨cs₁ ++ cs₂, _, _, cs₃, .between hb hb', hA', (List.append_assoc ..).symm⟩
    · rintro ⟨_, _, _, cs₃, hb, hA, rfl⟩
      cases hb with
      | between hb hb' =>
        refine ⟨_, _, _, hb, (withBound_iff hf h).2 ⟨_, _, cs₃, hb', hA, rfl⟩, ?_⟩
        rw [List.append_assoc]

end Calls

theorem and_is {pos : Nat} (b : Bool) : Result.Is pos (if b then .found .null pos else .failed)
    (if b = false then .failed else .null) pos := by
  cases b
  · exact ⟨rfl, rfl⟩
  · exact ⟨rfl, rfl, rfl⟩

theorem not_is {pos : Nat} (b : Bool) : Result.Is pos (if b then .failed else .found .null pos)
    (if b = true then .failed else .null) pos := by
  cases b
  · exact ⟨rfl, rfl, rfl⟩
  · exact ⟨rfl, rfl⟩

/-- Where too few items cannot be a failure, there is no least number of them. -/
theorem least_eq_zero {min : Option Boundary} {max : Boundary} {ls : Labels} {pos saved least : Nat} {most : Option Nat}
    (h : Bounds w ls pos saved min max cs least most) (hn : Code.needsLeast min max = false) : least = 0 := by
  have zero {b : Boundary} {cs : List Call} {n : Count} (hb : Bound w ls pos saved b cs n)
      (hn : Code.needsLeast none b = false) : n.least = 0 := by
    cases hb with
    | @constant n =>
      match n with
      | none => rfl
      | some 0 => rfl
      | some (n + 1) => cases hn
    | label h => cases hn
    | computed h => cases hn
  cases h with
  | exactly h => exact zero h hn
  | between h h' => exact zero h hn

/-! ## Terminals -/

/-- What a terminal does that is asked about the rest `rest` of a text: it takes the beginning that it matches, or
fails as told. -/
def Takes (t : List Char → Option (List Char)) (x? : Option Expectation) (A : Act HostFunction) (st : ParseState) : Prop :=
  match t st.rest with
  | some text => ∀ cs v st', A st cs v st' ↔ cs = [] ∧ v = .str (String.ofList text) ∧
      st' = { st with pos := st.pos + Input.byteLength text }
  | none => ∃ x : Expectation, x? = some x ∧ ∀ cs v st', A st cs v st' ↔ cs = [] ∧ v = .failed ∧ st' = st.fail x

theorem takes_test {t : List Char → Option (List Char)} {b : ParseState → Bool} {f : ParseState → Value × ParseState}
    {x : Expectation} (hb : b st = (t st.rest).isSome)
    (hf : ∀ text, t st.rest = some text →
      f st = (.str (String.ofList text), { st with pos := st.pos + Input.byteLength text })) :
    Takes t (some x) (.read fun st => if MatchResult.sometimes.holds (b st) then .change f else .failing x) st := by
  unfold Takes
  cases ht : t st.rest with
  | none =>
    refine ⟨x, rfl, fun cs v st' => ?_⟩
    show (if b st then _ else _ : Act HostFunction) st cs v st' ↔ _
    rw [hb, ht]
    show cs = [] ∧ (Value.failed, st.fail x) = (v, st') ↔ _
    rw [Prod.mk.injEq, eq_comm (a := v), eq_comm (a := st')]
  | some text =>
    intro cs v st'
    show (if b st then _ else _ : Act HostFunction) st cs v st' ↔ _
    rw [hb, ht]
    show cs = [] ∧ f st = (v, st') ↔ _
    rw [hf text ht, Prod.mk.injEq, eq_comm (a := v), eq_comm (a := st')]

theorem takes_literal {c : Setting} {R : RuleId → Act HostFunction} {i : Expr.Info} {value : String}
    {ignoreCase : Bool} {ls : Labels} {t : List Char → Option (List Char)}
    (ht : terminal? (.literal i value ignoreCase) = some t) :
    Takes t (some (.literal value ignoreCase)) (c.unpruned.meaning R (.literal i value ignoreCase) ls) st := by
  unfold Setting.meaning
  by_cases hv : value = ""
  · subst hv
    rw [if_pos rfl]
    have empty : t st.rest = some [] := by
      cases ignoreCase <;> cases ht
      · rfl
      · cases st.rest <;> rfl
    unfold Takes
    rw [empty]
    intro cs v st'
    exact Iff.rfl
  · rw [if_neg hv]
    cases ignoreCase <;> cases ht
    · refine takes_test ?_ fun text ht => ?_
      · show value.toList.isPrefixOf st.rest = _
        cases value.toList.isPrefixOf st.rest <;> rfl
      · split at ht
        · cases ht
          rw [Input.byteLength_toList, String.ofList_toList]
          rfl
        · cases ht
    · refine takes_test rfl fun text ht => ?_
      have found : st.icMatch? (Case.lower value) = some text := ht
      unfold ParseState.acceptStringIc
      rw [found]
      rfl

/-- What a terminal takes is where the text goes on. -/
theorem terminal_prefix {e : Expr} {t : List Char → Option (List Char)} (ht : terminal? e = some t)
    {rest text : List Char} (h : t rest = some text) : text <+: rest := by
  have one {p : Char → Bool} (h : (rest.head?.filter p).map ([·]) = some text) : text <+: rest := by
    cases rest with
    | nil => cases h
    | cons c cs =>
      obtain ⟨d, hd, rfl⟩ := Option.map_eq_some_iff.1 h
      obtain ⟨hc, -⟩ := Option.filter_eq_some_iff.1 hd
      cases hc
      exact List.prefix_append [c] cs
  cases e with
  | literal i value ignoreCase =>
    cases ignoreCase <;> cases ht
    · dsimp only at h
      split at h
      · rename_i hprefix
        cases h
        exact List.isPrefixOf_iff_prefix.1 hprefix
      · cases h
    · exact ParseState.icStart?_prefix h
  | charClass i k =>
    cases ht
    exact one h
  | any i =>
    cases ht
    refine one (p := fun _ => true) ?_
    cases rest with
    | nil => cases h
    | cons c cs => exact h
  | _ => cases ht

/-- A terminal takes what it matches. -/
theorem takes_terminal {s : String} (h : st.input = .ofString s) {c : Setting} {R : RuleId → Act HostFunction} {e : Expr} {ls : Labels}
    {t : List Char → Option (List Char)} (ht : terminal? e = some t) :
    Takes t (expectation? e) (c.unpruned.meaning R e ls) st := by
  cases e with
  | literal i value ignoreCase => exact takes_literal ht
  | charClass i k =>
    cases ht
    unfold Setting.meaning
    refine takes_test ?_ fun text ht => ?_
    · unfold ParseState.matchClass
      cases st.rest with
      | nil => rfl
      | cons ch rest =>
        show k.has ch = ((if k.has ch then some ch else none).map ([·])).isSome
        cases k.has ch <;> rfl
    · unfold ParseState.acceptN ParseState.accept
      cases hr : st.rest with
      | nil => rw [hr] at ht; cases ht
      | cons ch rest =>
        rw [hr] at ht
        have ht : (if k.has ch then some ch else none).map ([·]) = some text := ht
        cases hk : k.has ch with
        | true => rw [hk] at ht; cases ht; rfl
        | false => rw [hk] at ht; cases ht
  | any i =>
    cases ht
    unfold Setting.meaning
    refine takes_test ?_ fun text ht => ?_
    · show st.matchAny = _
      rw [ParseState.matchAny_eq h, Option.isSome_map]
    · unfold ParseState.acceptN ParseState.accept
      cases hr : st.rest with
      | nil => rw [hr] at ht; cases ht
      | cons ch rest => rw [hr] at ht; cases ht; rfl
  | _ => cases ht

end PegCompiler.Semantics
