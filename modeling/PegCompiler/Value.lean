/-
Semantic values. `failed` stands for a failure and never is the value of a successful parse.
-/
import PegCompiler.Text.Quoted

namespace PegCompiler

inductive Value
  | null
  | failed
  | bool (b : Bool)
  | int (n : Int)
  | str (s : String)
  | array (items : List Value)
  deriving Inhabited

namespace Value

mutual

/-- Whether two values are equal. -/
def same : Value → Value → Bool
  | null, null => true
  | failed, failed => true
  | bool a, bool b => a == b
  | int a, int b => a == b
  | str a, str b => a == b
  | array a, array b => sameItems a b
  | _, _ => false

def sameItems : List Value → List Value → Bool
  | [], [] => true
  | a :: as, b :: bs => a.same b && sameItems as bs
  | _, _ => false

end

instance : BEq Value := ⟨same⟩

def isFailed : Value → Bool
  | failed => true
  | _ => false

/-- What a value counts as where a condition is needed. -/
def truthy : Value → Bool
  | null | failed => false
  | bool b => b
  | int n => n != 0
  | str s => s != ""
  | array _ => true

/-- The number of items; zero for what is no array. -/
def size : Value → Nat
  | array items => items.length
  | _ => 0

/-- The array with one more item; what is no array stays as it is. -/
def push (v item : Value) : Value :=
  match v with
  | array items => array (items ++ [item])
  | v => v

/-- The value as a count; none if it is not one. -/
def count? : Value → Option Nat
  | int n => if 0 ≤ n then some n.toNat else none
  | _ => none

/-- The greatest count, which also bounds where a greatest count is asked for and there is none. -/
def maxCount : Nat := 18446744073709551615

def str? : Value → Option String
  | str s => some s
  | _ => none

def int? : Value → Option Int
  | int n => some n
  | _ => none

mutual

/-- The value as a text. -/
def text : Value → String
  | null => "null"
  | failed => "<failed>"
  | bool b => if b then "true" else "false"
  | int n => toString n
  | str s => Quoted.string s
  | array [] => "[]"
  | array (v :: vs) => "[" ++ v.text ++ textRest vs ++ "]"

def textRest : List Value → String
  | [] => ""
  | v :: vs => ", " ++ v.text ++ textRest vs

end

/-- A whole number that wraps around in 64 bits. -/
def wrapInt (n : Int) : Int := n.bmod 18446744073709551616

end Value

end PegCompiler
