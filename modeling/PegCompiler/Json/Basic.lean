/-
JSON values. Whole numbers are kept apart from numbers written with a fraction or an exponent, which
no part of a grammar may be, and from minus zero. An object keeps its fields as they are written,
repeated ones too; `Json.merged` leaves one of each. Some texts have the form of a value and stand for
none: they are kept as written, for whoever skips them.
-/
namespace PegCompiler

inductive Json
  | null
  | bool (b : Bool)
  | int (n : Int)
  | real (text : String)
  | str (s : String)
  | arr (items : List Json)
  | obj (fields : List (String × Json))
  /-- A string with half a pair of surrogates, an object with such a key, or a number too large. -/
  | unreadable (text : String)
  deriving Inhabited

namespace Json

/-- The value of a field, if this is an object that has it. -/
def get? (j : Json) (key : String) : Option Json :=
  match j with
  | obj fields => fields.lookup key
  | _ => none

/-- The value of a field of an object, which may be left out but not repeated. -/
def field? (j : Json) (key : String) : Option (Option Json) :=
  match j with
  | obj fields =>
    match fields.filter (·.1 == key) with
    | [] => some none
    | [(_, value)] => some (some value)
    | _ => none
  | _ => none

/-- Fields with one more; a field already there takes the new value. -/
def put (fields : List (String × Json)) (key : String) (value : Json) : List (String × Json) :=
  if fields.any (·.1 == key) then fields.map fun f => if f.1 == key then (key, value) else f
  else fields ++ [(key, value)]

/-- A natural number. -/
def nat (n : Nat) : Json := int n

/-- A string, or null. -/
def optional (s : Option String) : Json :=
  match s with
  | some s => str s
  | none => null

mutual

/-- The value with one field for each key of an object: the last one, in the place of the first. -/
def merged : Json → Json
  | arr items => arr (mergedItems items)
  | obj fields => obj (mergedFields [] fields)
  | j => j

def mergedItems : List Json → List Json
  | [] => []
  | j :: rest => j.merged :: mergedItems rest

def mergedFields (done : List (String × Json)) : List (String × Json) → List (String × Json)
  | [] => done
  | (key, j) :: rest => mergedFields (put done key j.merged) rest

end

mutual

/-- Whether all of the value can be read. -/
def isReadable : Json → Bool
  | unreadable _ => false
  | arr items => itemsReadable items
  | obj fields => fieldsReadable fields
  | _ => true

def itemsReadable : List Json → Bool
  | [] => true
  | j :: rest => j.isReadable && itemsReadable rest

def fieldsReadable : List (String × Json) → Bool
  | [] => true
  | (_, j) :: rest => j.isReadable && fieldsReadable rest

end

mutual

/-- How many arrays and objects are nested in each other at most. -/
def depth : Json → Nat
  | arr items => depthOfItems items + 1
  | obj fields => depthOfFields fields + 1
  | _ => 0

def depthOfItems : List Json → Nat
  | [] => 0
  | j :: rest => max j.depth (depthOfItems rest)

def depthOfFields : List (String × Json) → Nat
  | [] => 0
  | (_, j) :: rest => max j.depth (depthOfFields rest)

end

end Json

end PegCompiler
