/-
The constants that code refers to, kept in pools: equal constants share one index, indexes count up
from zero, and a pool only grows.
-/
import PegCompiler.Expectation
import PegCompiler.Text.Span

namespace PegCompiler

/-- What the result of a host function is for. -/
inductive FunctionKind
  /-- It becomes the value of an expression. -/
  | action
  /-- It decides whether an expression matches. -/
  | predicate
  /-- It bounds a repetition. -/
  | boundary
  deriving DecidableEq, Inhabited

def FunctionKind.name : FunctionKind → String
  | action => "action"
  | predicate => "predicate"
  | boundary => "boundary"

/-- Host code as code calls it: with the labels visible at the call as parameters. -/
structure HostFunction where
  kind : FunctionKind
  params : List String
  code : String
  span : Span
  deriving DecidableEq, Inhabited

/-- Distinct constants in the order in which they were added. -/
structure Pool (α : Type) where
  items : Array α
  deriving Inhabited

namespace Pool

variable {α : Type}

def empty : Pool α := ⟨#[]⟩

/-- The index of a constant. -/
def index? [DecidableEq α] (p : Pool α) (a : α) : Option Nat := p.items.findIdx? (· = a)

/-- The pool with a constant. -/
def add [DecidableEq α] (p : Pool α) (a : α) : Pool α :=
  if (p.index? a).isSome then p else ⟨p.items.push a⟩

/-- The constant at an index. -/
def get? (p : Pool α) (i : Nat) : Option α := p.items[i]?

def size (p : Pool α) : Nat := p.items.size

def toList (p : Pool α) : List α := p.items.toList

/-- The constants with their indexes. -/
def indexed (p : Pool α) : List (Nat × α) := p.toList.zipIdx.map fun (a, i) => (i, a)

end Pool

/-- The pools of one compilation. -/
structure Constants where
  literals : Pool String
  classes : Pool CharClass
  expectations : Pool Expectation
  functions : Pool HostFunction
  origins : Pool Span
  deriving Inhabited

namespace Constants

def empty : Constants := ⟨.empty, .empty, .empty, .empty, .empty⟩

end Constants

end PegCompiler
