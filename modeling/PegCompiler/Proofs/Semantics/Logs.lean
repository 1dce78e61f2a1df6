/-
What fails while a grammar is evaluated, told beside the semantics of grammars and by its means: the log of an
evaluation has an entry for every terminal that fails and for every failure that has a name. Nothing is logged inside
of what has a name, nor inside of lookaheads. Evaluations go one way only, and so there is one log of each.
-/
import PegCompiler.Proofs.Failures
import PegCompiler.Proofs.Semantics.Basic

namespace PegCompiler.Semantics

variable {w : World}

/-! ## There is one way to evaluate -/

theorem Bound.definite {ls : Labels} {pos saved : Nat} {b : Boundary} {cs cs' : List Call} {n n' : Count}
    (h : Bound w ls pos saved b cs n) (h' : Bound w ls pos saved b cs' n') : cs = cs' ∧ n = n' := by
  cases h <;> cases h' <;> grind

theorem Bounds.definite {ls : Labels} {pos saved : Nat} {min : Option Boundary} {max : Boundary} {cs cs' : List Call}
    {least least' : Nat} {most most' : Option Nat} (h : Bounds w ls pos saved min max cs least most)
    (h' : Bounds w ls pos saved min max cs' least' most') : cs = cs' ∧ least = least' ∧ most = most' := by
  cases h <;> cases h' <;> grind [Bound.definite]

/-- A terminal is evaluated by what it accepts. -/
theorem Eval.of_terminal {e : Expr} {t : List Char → Option (List Char)} {ls : Labels} {pos saved s : Nat}
    {cs : List Call} {r : Result Value} (ht : terminal? e = some t) (h : Eval w e ls pos saved cs r s) :
    cs = [] ∧ s = saved ∧ r = match t (w.input.rest pos) with
      | some taken => .found (.str (String.ofList taken)) (pos + Input.byteLength taken)
      | none => .failed := by
  cases h
  case accepted t' ht' h' =>
    obtain rfl := Option.some.inj (ht.symm.trans ht')
    rw [h']
    exact ⟨rfl, rfl, rfl⟩
  case rejected t' ht' h' =>
    obtain rfl := Option.some.inj (ht.symm.trans ht')
    rw [h']
    exact ⟨rfl, rfl, rfl⟩
  all_goals cases ht

/-- An expression is evaluated in one way only. -/
theorem Eval.definite {e : Expr} {ls : Labels} {pos saved s₁ s₂ : Nat} {cs₁ cs₂ : List Call} {r₁ r₂ : Result Value}
    (h₁ : Eval w e ls pos saved cs₁ r₁ s₁) (h₂ : Eval w e ls pos saved cs₂ r₂ s₂) :
    cs₁ = cs₂ ∧ r₁ = r₂ ∧ s₁ = s₂ := by
  suffices h : ∀ {cs' r' s'}, Eval w e ls pos saved cs' r' s' → cs₁ = cs' ∧ r₁ = r' ∧ s₁ = s' from h h₂
  clear h₂
  -- Evaluations of an expression begin with its first part. As that is evaluated in one way, they go by the same rule,
  -- and so on with the other parts.
  apply @Eval.rec w
    (fun e ls pos saved cs r s _ => ∀ {cs' r' s'}, Eval w e ls pos saved cs' r' s' →
      cs = cs' ∧ r = r' ∧ s = s')
    (fun es ls pos saved cs r s _ => ∀ {cs' r' s'}, EvalAll w es ls pos saved cs' r' s' →
      cs = cs' ∧ r = r' ∧ s = s')
    (fun body delimiter ls n pos saved cs r s _ => ∀ {cs' r' s'},
      Item w body delimiter ls n pos saved cs' r' s' → cs = cs' ∧ r = r' ∧ s = s')
    (fun body delimiter most ls n pos saved cs vs stop s _ => ∀ {cs' vs' stop' s'},
      Items w body delimiter most ls n pos saved cs' vs' stop' s' → cs = cs' ∧ vs = vs' ∧ stop = stop' ∧ s = s')
    (t := h₁)
  case accepted =>
    intro e t ls pos saved taken ht h cs' r' s' h'
    obtain ⟨rfl, rfl, rfl⟩ := h'.of_terminal ht
    rw [h]
    exact ⟨rfl, rfl, rfl⟩
  case rejected =>
    intro e t ls pos saved ht h cs' r' s' h'
    obtain ⟨rfl, rfl, rfl⟩ := h'.of_terminal ht
    rw [h]
    exact ⟨rfl, rfl, rfl⟩
  all_goals
    intros
    rename_i h'
    cases h'
  -- what is left are no terminals
  all_goals try cases ‹terminal? _ = some _›
  all_goals grind [Bounds.definite]

theorem Item.definite {body : Expr} {delimiter : Option Expr} {ls : Labels} {n pos saved s₁ s₂ : Nat}
    {cs₁ cs₂ : List Call} {r₁ r₂ : Result Value} (h₁ : Item w body delimiter ls n pos saved cs₁ r₁ s₁)
    (h₂ : Item w body delimiter ls n pos saved cs₂ r₂ s₂) : cs₁ = cs₂ ∧ r₁ = r₂ ∧ s₁ = s₂ := by
  cases h₁ <;> cases h₂ <;> grind [Eval.definite]

/-! ## What is logged -/

/-- Failures one after the other, each with the position where what failed began. -/
abbrev Log := List (Nat × Expectation)

/-- What is logged of something with a name that began at a position. -/
def Result.log {α : Type} (r : Result α) (pos : Nat) (name : String) : Log :=
  match r with
  | .found _ _ => []
  | .failed => [(pos, .named name)]

mutual

/-- The log of an expression, with these labels in scope, at a position and with a place where an action's text
begins. -/
inductive Logs (w : World) : Expr → Labels → (pos saved : Nat) → Log → Prop
  | first (h : Eval w first ls pos saved cs (.found v stop) saved') (log : Logs w first ls pos saved l) :
      Logs w (.choice i first others) ls pos saved l
  /-- Alternatives that fail are logged before the one that is taken. -/
  | others (h : Eval w first ls pos saved cs .failed saved₁) (log : Logs w first ls pos saved l₁)
      (rest : Logs w (.choice i e es) ls pos saved₁ l₂) : Logs w (.choice i first (e :: es)) ls pos saved (l₁ ++ l₂)
  | noneLeft (h : Eval w first ls pos saved cs .failed saved') (log : Logs w first ls pos saved l) :
      Logs w (.choice i first []) ls pos saved l
  | sequence (log : LogsAll w es ls pos saved l) : Logs w (.sequence i es) ls pos saved l
  | labeled (log : Logs w body ls pos saved l) : Logs w (.labeled i label pick body) ls pos saved l
  | action (log : Logs w body ls pos saved l) : Logs w (.action i body code) ls pos saved l
  | text (log : Logs w body ls pos saved l) : Logs w (.text i body) ls pos saved l
  /-- Nothing is logged inside of lookaheads, and they have no entry of their own. -/
  | simpleAnd : Logs w (.simpleAnd i body) ls pos saved []
  | simpleNot : Logs w (.simpleNot i body) ls pos saved []
  | semanticAnd : Logs w (.semanticAnd i code) ls pos saved []
  | semanticNot : Logs w (.semanticNot i code) ls pos saved []
  | optional (log : Logs w body ls pos saved l) : Logs w (.optional i body) ls pos saved l
  | zeroOrMore (log : LogsItems w body none none ls 0 pos saved l) : Logs w (.zeroOrMore i body) ls pos saved l
  | oneOrMore (log : LogsItems w body none none ls 0 pos saved l) : Logs w (.oneOrMore i body) ls pos saved l
  | repeated {min : Option Boundary} {max : Boundary} (hb : Bounds w ls pos saved min max cs least most)
      (log : LogsItems w body delimiter most ls 0 pos saved l) :
      Logs w (.repeated i body min max delimiter) ls pos saved l
  | group (log : Logs w body ls pos saved l) : Logs w (.group i body) ls pos saved l
  | ruleRef (log : LogsRule w target pos saved l) : Logs w (.ruleRef i name (some target)) ls pos saved l
  | accepted (ht : terminal? e = some t) (h : t (w.input.rest pos) = some text) : Logs w e ls pos saved []
  | rejected (ht : terminal? e = some t) (h : t (w.input.rest pos) = none) (hx : expectation? e = some x) :
      Logs w e ls pos saved [(pos, x)]
  /-- What fails under a name is logged under that name and in no other way. -/
  | named (h : Eval w body ls pos saved cs r saved') : Logs w (.named i name body) ls pos saved (r.log pos name)

/-- The log of a rule, whose name for error messages is one like that of a named expression. -/
inductive LogsRule (w : World) : RuleId → (pos saved : Nat) → Log → Prop
  | plain (hr : w.grammar.live? r = some rule) (hn : rule.displayName = none)
      (log : Logs w rule.body [] pos saved l) : LogsRule w r pos saved l
  | aliased (hr : w.grammar.live? r = some rule) (hn : rule.displayName = some name)
      (h : Eval w rule.body [] pos saved cs res saved') : LogsRule w r pos saved (res.log pos name)

/-- The log of the elements of a sequence, up to the first one that fails. -/
inductive LogsAll (w : World) : List Expr → Labels → (pos saved : Nat) → Log → Prop
  | nil : LogsAll w [] ls pos saved []
  | cons (h : Eval w e ls pos saved cs (.found v pos₁) saved₁) (log : Logs w e ls pos saved l₁)
      (rest : LogsAll w es (ls.after e v) pos₁ saved₁ l₂) : LogsAll w (e :: es) ls pos saved (l₁ ++ l₂)
  | here (h : Eval w e ls pos saved cs .failed saved') (log : Logs w e ls pos saved l) :
      LogsAll w (e :: es) ls pos saved l

/-- The log of an item of a repetition after `n` others, with the delimiter before it. -/
inductive LogsItem (w : World) : Expr → Option Expr → Labels → (n pos saved : Nat) → Log → Prop
  | alone (hn : n = 0 ∨ delimiter = none) (log : Logs w body ls pos saved l) :
      LogsItem w body delimiter ls n pos saved l
  | delimited (hd : Eval w d ls pos saved cs (.found u pos₁) saved₁) (log : Logs w d ls pos saved l₁)
      (rest : Logs w body ls pos₁ saved₁ l₂) : LogsItem w body (some d) ls (n + 1) pos saved (l₁ ++ l₂)
  | noDelimiter (hd : Eval w d ls pos saved cs .failed saved') (log : Logs w d ls pos saved l) :
      LogsItem w body (some d) ls (n + 1) pos saved l

/-- The log of the items of a repetition after `n` others, up to the first attempt that fails. -/
inductive LogsItems (w : World) : Expr → Option Expr → (most : Option Nat) → Labels → (n pos saved : Nat) → Log → Prop
  | full (hm : most.any (· ≤ n) = true) : LogsItems w body delimiter most ls n pos saved []
  | last (hm : most.any (· ≤ n) = false) (h : Item w body delimiter ls n pos saved cs .failed saved')
      (log : LogsItem w body delimiter ls n pos saved l) : LogsItems w body delimiter most ls n pos saved l
  | more (hm : most.any (· ≤ n) = false) (h : Item w body delimiter ls n pos saved cs (.found v pos₁) saved₁)
      (log : LogsItem w body delimiter ls n pos saved l₁)
      (rest : LogsItems w body delimiter most ls (n + 1) pos₁ saved₁ l₂) :
      LogsItems w body delimiter most ls n pos saved (l₁ ++ l₂)

end

/-- The log of a terminal is that of its failure, if it fails. -/
theorem Logs.of_terminal {e : Expr} {t : List Char → Option (List Char)} {ls : Labels} {pos saved : Nat} {l : Log}
    (ht : terminal? e = some t) (h : Logs w e ls pos saved l) :
    l = if (t (w.input.rest pos)).isSome then [] else (expectation? e).toList.map (pos, ·) := by
  cases h
  case accepted t' taken ht' h' =>
    obtain rfl := Option.some.inj (ht.symm.trans ht')
    rw [h']
    rfl
  case rejected t' x ht' h' hx =>
    obtain rfl := Option.some.inj (ht.symm.trans ht')
    rw [h', hx]
    rfl
  all_goals cases ht

/-- There is one log of a rule at a position. -/
theorem LogsRule.definite {r : RuleId} {pos saved : Nat} {l₁ l₂ : Log} (h₁ : LogsRule w r pos saved l₁)
    (h₂ : LogsRule w r pos saved l₂) : l₁ = l₂ := by
  suffices h : ∀ {l'}, LogsRule w r pos saved l' → l₁ = l' from h h₂
  clear h₂
  apply @LogsRule.rec w
    (fun e ls pos saved l _ => ∀ {l'}, Logs w e ls pos saved l' → l = l')
    (fun r pos saved l _ => ∀ {l'}, LogsRule w r pos saved l' → l = l')
    (fun es ls pos saved l _ => ∀ {l'}, LogsAll w es ls pos saved l' → l = l')
    (fun body delimiter ls n pos saved l _ => ∀ {l'}, LogsItem w body delimiter ls n pos saved l' → l = l')
    (fun body delimiter most ls n pos saved l _ => ∀ {l'},
      LogsItems w body delimiter most ls n pos saved l' → l = l')
    (t := h₁)
  case accepted =>
    intro e t pos taken ls saved ht h l' h'
    rw [h'.of_terminal ht, h]
    rfl
  case rejected =>
    intro e t pos x ls saved ht h hx l' h'
    rw [h'.of_terminal ht, h, hx]
    rfl
  all_goals
    intros
    rename_i h'
    cases h'
  all_goals try cases ‹terminal? _ = some _›
  all_goals grind [Eval.definite, Item.definite, Bounds.definite]

end PegCompiler.Semantics
