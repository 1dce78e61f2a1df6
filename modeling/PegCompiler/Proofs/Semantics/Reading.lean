/-
Reading a text with the expressions of a grammar, one rule for each of them. What an expression reads at a position is
what it evaluates to wherever the text of an action begins before, so the rules go together without a word about that
place or about the calls that are made. Positions are told by the characters that are left. What repeats a terminal of
one character reads the longest run of what the terminal takes.
-/
import PegCompiler.Proofs.Semantics.Basic
import PegCompiler.Proofs.Text.Input

namespace PegCompiler.Semantics

/-! ## Positions -/

/-- These characters are left of the text at a position. -/
def World.Leaves (w : World) (pos : Nat) (rest : List Char) : Prop :=
  ∃ before, w.text.toList = before ++ rest ∧ Input.byteLength before = pos

namespace World.Leaves

variable {w : World} {pos : Nat} {rest taken : List Char}

theorem zero (w : World) : w.Leaves 0 w.text.toList := ⟨[], rfl, rfl⟩

theorem rest_eq (h : w.Leaves pos rest) : w.input.rest pos = rest := by
  obtain ⟨before, htext, rfl⟩ := h
  exact Input.rest_of_append htext

theorem add (taken : List Char) (h : w.Leaves pos (taken ++ rest)) : w.Leaves (pos + Input.byteLength taken) rest := by
  obtain ⟨before, htext, rfl⟩ := h
  exact ⟨before ++ taken, by rw [htext, List.append_assoc], Input.byteLength_append before taken⟩

theorem slice_eq (h : w.Leaves pos (taken ++ rest)) :
    w.input.slice pos (pos + Input.byteLength taken) = String.ofList taken := by
  unfold Input.slice
  rw [h.rest_eq, Nat.add_sub_cancel_left, Input.takeBytes_append]

/-- Nothing is left at the end of the text, and nowhere else. -/
theorem eq_size_iff (h : w.Leaves pos rest) : pos = w.input.size ↔ rest = [] := by
  obtain ⟨before, htext, rfl⟩ := h
  have size : w.input.size = Input.byteLength before + Input.byteLength rest := by
    rw [← Input.byteLength_append, ← htext, Input.byteLength_toList]
    rfl
  constructor
  · intro h
    by_contra hne
    have := Input.byteLength_pos hne
    omega
  · rintro rfl
    exact size.symm

end World.Leaves

/-! ## Reading -/

section Reading

variable (w : World) (ls : Labels) (pos : Nat)

/-- An expression reads this at a position. -/
def World.Reads (e : Expr) (r : Result Value) : Prop :=
  ∀ saved, ∃ cs saved', Eval w e ls pos saved cs r saved'

/-- Expressions read this one after the other. -/
def World.ReadsAll (es : List Expr) (r : Result (List Value)) : Prop :=
  ∀ saved, ∃ cs saved', EvalAll w es ls pos saved cs r saved'

/-- An expression that is repeated reads these items after `n` others. -/
def World.ReadsItems (body : Expr) (n : Nat) (vs : List Value) (stop : Nat) : Prop :=
  ∀ saved, ∃ cs saved', Items w body none none ls n pos saved cs vs stop saved'

end Reading

variable {w : World} {ls : Labels} {pos stop stop' n : Nat} {i j : Expr.Info} {e body : Expr} {es : List Expr}
  {r : Result Value} {u v : Value} {vs : List Value} {code : HostCode}

namespace World.Reads

theorem first (h : w.Reads ls pos e (.found v stop)) : w.Reads ls pos (.choice i e es) (.found v stop) := fun saved => by
  obtain ⟨cs, saved', h⟩ := h saved
  exact ⟨_, _, .first h⟩

theorem others {e' : Expr} (h : w.Reads ls pos e .failed) (rest : w.Reads ls pos (.choice i e' es) r) :
    w.Reads ls pos (.choice i e (e' :: es)) r := fun saved => by
  obtain ⟨cs, saved', h⟩ := h saved
  obtain ⟨cs', saved'', rest⟩ := rest saved'
  exact ⟨_, _, .others h rest⟩

/-- The only alternative that is left reads what it reads by itself. -/
theorem alone (h : w.Reads ls pos e r) : w.Reads ls pos (.choice i e []) r := fun saved => by
  obtain ⟨cs, saved', h⟩ := h saved
  cases r with
  | found v stop => exact ⟨_, _, .first h⟩
  | failed => exact ⟨_, _, .noneLeft h⟩

theorem labeled {label : Option (Located String)} {pick : Bool} (h : w.Reads ls pos e r) :
    w.Reads ls pos (.labeled i label pick e) r := fun saved => by
  obtain ⟨cs, saved', h⟩ := h saved
  exact ⟨_, _, .labeled h⟩

/-- A reference reads what its rule does, whatever the labels in scope. -/
theorem ruleRef {target : RuleId} {rule : Rule} {name : String} (hr : w.grammar.live? target = some rule)
    (h : w.Reads [] pos rule.body r) : w.Reads ls pos (.ruleRef i name (some target)) r := fun saved => by
  obtain ⟨cs, saved', h⟩ := h saved
  exact ⟨_, _, .ruleRef hr h⟩

theorem sequence (h : w.ReadsAll ls pos es (.found vs stop)) :
    w.Reads ls pos (.sequence i es) (.found (sequenceValue es vs) stop) := fun saved => by
  obtain ⟨cs, saved', h⟩ := h saved
  exact ⟨_, _, .sequence h⟩

theorem sequenceFails (h : w.ReadsAll ls pos es .failed) : w.Reads ls pos (.sequence i es) .failed := fun saved => by
  obtain ⟨cs, saved', h⟩ := h saved
  exact ⟨_, _, .sequenceFails h⟩

theorem actionOnAll (h : w.ReadsAll ls pos es (.found vs stop)) (hp : pickedOf es vs = [])
    (hv : w.answer? code (ls.afterAll es vs) pos stop = some v) :
    w.Reads ls pos (.action i (.sequence j es) code) (.found v stop) := fun saved => by
  obtain ⟨cs, saved', h⟩ := h saved
  exact ⟨_, _, .actionOnAll h hp hv⟩

theorem actionOnAllFails (h : w.ReadsAll ls pos es .failed) :
    w.Reads ls pos (.action i (.sequence j es) code) .failed := fun saved => by
  obtain ⟨cs, saved', h⟩ := h saved
  exact ⟨_, _, .actionOnAllFails h⟩

theorem action (hb : ∀ j es, body = .sequence j es → False) (h : w.Reads ls pos body (.found u stop))
    (hv : w.answer? code (ls.after body u) pos stop = some v) :
    w.Reads ls pos (.action i body code) (.found v stop) := fun saved => by
  obtain ⟨cs, saved', h⟩ := h saved
  exact ⟨_, _, .action hb h hv⟩

theorem actionFails (hb : ∀ j es, body = .sequence j es → False) (h : w.Reads ls pos body .failed) :
    w.Reads ls pos (.action i body code) .failed := fun saved => by
  obtain ⟨cs, saved', h⟩ := h saved
  exact ⟨_, _, .actionFails hb h⟩

theorem zeroOrMore (h : w.ReadsItems ls pos body 0 vs stop) :
    w.Reads ls pos (.zeroOrMore i body) (.found (.array vs) stop) := fun saved => by
  obtain ⟨cs, saved', h⟩ := h saved
  exact ⟨_, _, .zeroOrMore h⟩

theorem oneOrMore (h : w.ReadsItems ls pos body 0 vs stop) (hv : vs ≠ []) :
    w.Reads ls pos (.oneOrMore i body) (.found (.array vs) stop) := fun saved => by
  obtain ⟨cs, saved', h⟩ := h saved
  exact ⟨_, _, .oneOrMore h hv⟩

theorem oneOrMoreFails (h : w.ReadsItems ls pos body 0 [] stop) : w.Reads ls pos (.oneOrMore i body) .failed :=
  fun saved => by
    obtain ⟨cs, saved', h⟩ := h saved
    exact ⟨_, _, .oneOrMoreFails h⟩

section Terminals

variable {t : List Char → Option (List Char)} {taken rest : List Char}

theorem accepted (ht : terminal? e = some t) (hpos : w.Leaves pos rest) (h : t rest = some taken) :
    w.Reads ls pos e (.found (.str (String.ofList taken)) (pos + Input.byteLength taken)) := fun saved =>
  ⟨[], saved, .accepted ht (hpos.rest_eq.symm ▸ h)⟩

theorem rejected (ht : terminal? e = some t) (hpos : w.Leaves pos rest) (h : t rest = none) :
    w.Reads ls pos e .failed := fun saved =>
  ⟨[], saved, .rejected ht (hpos.rest_eq.symm ▸ h)⟩

end Terminals

end World.Reads

namespace World.ReadsAll

theorem nil : w.ReadsAll ls pos [] (.found [] pos) := fun saved => ⟨[], saved, .nil⟩

theorem cons (h : w.Reads ls pos e (.found v stop)) (rest : w.ReadsAll (ls.after e v) stop es (.found vs stop')) :
    w.ReadsAll ls pos (e :: es) (.found (v :: vs) stop') := fun saved => by
  obtain ⟨cs, saved', h⟩ := h saved
  obtain ⟨cs', saved'', rest⟩ := rest saved'
  exact ⟨_, _, .cons h rest⟩

theorem here (h : w.Reads ls pos e .failed) : w.ReadsAll ls pos (e :: es) .failed := fun saved => by
  obtain ⟨cs, saved', h⟩ := h saved
  exact ⟨_, _, .here h⟩

theorem later (h : w.Reads ls pos e (.found v stop)) (rest : w.ReadsAll (ls.after e v) stop es .failed) :
    w.ReadsAll ls pos (e :: es) .failed := fun saved => by
  obtain ⟨cs, saved', h⟩ := h saved
  obtain ⟨cs', saved'', rest⟩ := rest saved'
  exact ⟨_, _, .later h rest⟩

end World.ReadsAll

namespace World.ReadsItems

theorem nil (h : w.Reads ls pos body .failed) : w.ReadsItems ls pos body n [] pos := fun saved => by
  obtain ⟨cs, saved', h⟩ := h saved
  exact ⟨_, _, .last rfl (.alone (.inr rfl) h)⟩

theorem cons (h : w.Reads ls pos body (.found v stop)) (rest : w.ReadsItems ls stop body (n + 1) vs stop') :
    w.ReadsItems ls pos body n (v :: vs) stop' := fun saved => by
  obtain ⟨cs, saved', h⟩ := h saved
  obtain ⟨cs', saved'', rest⟩ := rest saved'
  exact ⟨_, _, .more rfl (.alone (.inr rfl) h) rest⟩

end World.ReadsItems

/-! ## Runs -/

section Runs

variable {p : Char → Bool} {rest : List Char}

/-- A terminal that takes one character, if it is one of these. -/
def TakesOne (e : Expr) (p : Char → Bool) : Prop := terminal? e = some fun rest => (rest.head?.filter p).map ([·])

theorem takesOne_charClass {k : CharClass} : TakesOne (.charClass i k) k.has := rfl

theorem takesOne_literal {c : Char} {s : String} (hs : s.toList = [c]) : TakesOne (.literal i s false) (· == c) := by
  have same : (fun rest : List Char => if s.toList.isPrefixOf rest then some s.toList else none) =
      fun rest => (rest.head?.filter (· == c)).map ([·]) := by
    funext rest
    cases rest with
    | nil => rw [hs]; rfl
    | cons d rest =>
      rw [hs, List.head?_cons, Option.filter_some]
      by_cases h : c = d
      · simp [h]
      · simp [h, Ne.symm h]
  exact congrArg some same

theorem TakesOne.reads {c : Char} (h : TakesOne e p) (hpos : w.Leaves pos (c :: rest)) (hc : p c = true) :
    w.Reads ls pos e (.found (.str (String.ofList [c])) (pos + Input.byteLength [c])) :=
  .accepted h hpos (by rw [List.head?_cons, Option.filter_some_pos hc]; rfl)

theorem TakesOne.fails (h : TakesOne e p) (hpos : w.Leaves pos rest) (hrest : ∀ c, rest.head? = some c → p c = false) :
    w.Reads ls pos e .failed := by
  refine .rejected h hpos ?_
  cases hc : rest.head? with
  | none => rfl
  | some c => rw [Option.filter_some_neg (by simp [hrest c hc])]; rfl

/-- What repeats it reads as much as there is of these characters in a row. -/
theorem TakesOne.readsItems (h : TakesOne e p) (hpos : w.Leaves pos rest) :
    w.ReadsItems ls pos e n ((rest.takeWhile p).map fun c => .str (String.ofList [c]))
      (pos + Input.byteLength (rest.takeWhile p)) := by
  induction rest generalizing pos n with
  | nil => exact .nil (h.fails hpos fun _ hc => nomatch hc)
  | cons c rest ih =>
    cases hc : p c with
    | true =>
      rw [List.takeWhile_cons_of_pos hc, ← List.singleton_append, Input.byteLength_append, ← Nat.add_assoc]
      exact .cons (h.reads hpos hc) (ih (hpos.add [c]))
    | false =>
      rw [List.takeWhile_cons_of_neg (by simp [hc])]
      exact .nil (h.fails hpos fun d hd => Option.some.inj hd ▸ hc)

theorem World.Leaves.run (h : w.Leaves pos rest) (p : Char → Bool) :
    w.Leaves (pos + Input.byteLength (rest.takeWhile p)) (rest.dropWhile p) :=
  World.Leaves.add _ (by rw [List.takeWhile_append_dropWhile]; exact h)

end Runs

/-! ## Languages -/

/-- An expression decides what the rest of a text is: it reads all of it, with the value of `x`, just where the rest is
what stands for `x`. -/
inductive World.Decides {α : Type} (w : World) (ls : Labels) (pos : Nat) (e : Expr) (L : α → Prop) (value : α → Value) :
    Prop
  | found (x : α) {stop : Nat} {rest : List Char} (left : w.Leaves stop rest)
      (h : w.Reads ls pos e (.found (value x) stop)) (hL : ∀ y, L y ↔ rest = [] ∧ y = x)
  | failed (h : w.Reads ls pos e .failed) (hL : ∀ y, ¬ L y)

end PegCompiler.Semantics
