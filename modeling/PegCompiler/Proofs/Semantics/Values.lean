/-
What expressions tell each other and host code: the labels in scope with their values, the counts that
bound repetitions, and the calls of host code.
-/
import PegCompiler.Code.Constants
import PegCompiler.Grammar.Basic
import PegCompiler.Machine.Host

namespace PegCompiler

/-! ## Labels -/

/-- The labels in scope with their values, in the order of their definitions. -/
abbrev Labels := List (String × Value)

namespace Labels

/-- The labels with another one, which takes its value anew if it is there. -/
def bind (ls : Labels) (label : String) (v : Value) : Labels :=
  if ls.any (·.1 == label) then ls.map fun b => if b.1 == label then (label, v) else b else ls ++ [(label, v)]

/-- The labels after an expression with a value: only a label on the expression itself is bound. -/
def after (ls : Labels) (e : Expr) (v : Value) : Labels :=
  match e with
  | .labeled _ (some label) _ _ => ls.bind label.val v
  | _ => ls

/-- The labels after expressions one after the other, with their values. -/
def afterAll (ls : Labels) : List Expr → List Value → Labels
  | e :: es, v :: vs => (ls.after e v).afterAll es vs
  | _, _ => ls

def names (ls : Labels) : List String := ls.map (·.1)

def values (ls : Labels) : List Value := ls.map (·.2)

end Labels

/-! ## Counts -/

/-- What a bound is when a repetition runs. -/
inductive Count
  | fixed (n : Option Nat)
  /-- The bound is a value, which may be no count. -/
  | given (v : Value)

namespace Count

/-- As a least count. -/
def least : Count → Nat
  | fixed n => n.getD 0
  | given v => v.count?.getD 0

/-- As a greatest count. -/
def most : Count → Option Nat
  | fixed n => n
  | given v => some (v.count?.getD Value.maxCount)

end Count

/-! ## Picks -/

/-- Adds the value of an expression that is marked with `@`. -/
def pickedAfter (picked : List Value) (e : Expr) (v : Value) : List Value :=
  match e with
  | .labeled _ _ true _ => picked ++ [v]
  | _ => picked

/-- The values of those among some expressions that are marked. -/
def pickedOf : List Expr → List Value → List Value
  | e :: es, v :: vs => pickedAfter [] e v ++ pickedOf es vs
  | _, _ => []

/-- The value of a sequence whose elements have these values: the marked one, the array of the marked ones, or if none
is marked the array of all. -/
def sequenceValue (es : List Expr) (vs : List Value) : Value :=
  match pickedOf es vs with
  | [] => .array vs
  | [v] => v
  | picked => .array picked

theorem pickedAfter_eq (picked : List Value) (e : Expr) (v : Value) :
    pickedAfter picked e v = picked ++ pickedAfter [] e v := by
  cases e with
  | labeled i label pick body => cases pick <;> simp [pickedAfter]
  | _ => exact (List.append_nil _).symm

theorem mem_pickedOf {es : List Expr} {vs : List Value} {v : Value} (h : v ∈ pickedOf es vs) : v ∈ vs := by
  induction es generalizing vs with
  | nil => cases h
  | cons e es ih =>
    cases vs with
    | nil => cases h
    | cons u vs =>
      rcases List.mem_append.1 h with h | h
      · have : v = u := by
          unfold pickedAfter at h
          split at h
          · exact List.mem_singleton.1 h
          · cases h
        rw [this]
        exact List.mem_cons_self
      · exact List.mem_cons_of_mem _ (ih h)

/-- Elements that matched make a sequence that matches. -/
theorem sequenceValue_ok {es : List Expr} {vs : List Value} (h : ∀ v ∈ vs, v.isFailed = false) :
    (sequenceValue es vs).isFailed = false := by
  unfold sequenceValue
  split
  · rfl
  · rename_i v hp
    exact h v (mem_pickedOf (hp ▸ List.mem_singleton_self v))
  · rfl

/-! ## Host code -/

/-- Host code gives no failures. -/
def Bindings.NeverFail (bs : Bindings) : Prop :=
  ∀ code f, bs.find? code = some f → ∀ view args, (f view args).isFailed = false

theorem Bindings.neverFail_nil : Bindings.NeverFail [] := nofun

/-- Functions do not fail if each of them does not. -/
theorem Bindings.neverFail_cons {bs : Bindings} {code : String} {f : HostFn}
    (hf : ∀ view args, (f view args).isFailed = false) (h : bs.NeverFail) : Bindings.NeverFail ((code, f) :: bs) := by
  intro code' f' h' view args
  unfold Bindings.find? at h'
  rw [List.lookup_cons] at h'
  split at h'
  · cases h'
    exact hf view args
  · exact h code' f' h' view args

/-- A call of host code: what is called, with what, and what it sees of the parse. -/
structure HostCall (φ : Type) where
  function : φ
  args : List Value
  view : HostView

end PegCompiler
