/-
Where a text nests arrays and objects too deep. The arrays and objects of a value begin in its text in
the order in which they stand in the value, so one of them is found in the text by how many begin
before it.
-/
import PegCompiler.Json.Basic

namespace PegCompiler.Json

/-- A line of a text and a column in bytes, from one on. -/
structure Place where
  line : Nat
  column : Nat
  deriving DecidableEq

/-- Where the arrays and objects of a text begin, from a place in it on that is in a string or is not. -/
def beginnings : (quoted : Bool) → Place → List Char → List Place
  | _, _, [] => []
  | true, p, '\\' :: c :: cs => beginnings true ⟨p.line, p.column + 1 + c.utf8Size⟩ cs
  | quoted, p, c :: cs =>
    let next : Place := if c = '\n' then ⟨p.line + 1, 1⟩ else ⟨p.line, p.column + c.utf8Size⟩
    if c = '"' then beginnings (!quoted) next cs
    else if !quoted && (c = '[' || c = '\x7b') then p :: beginnings quoted next cs
    else beginnings quoted next cs

mutual

/-- How many arrays and objects begin in a value. -/
def brackets : Json → Nat
  | arr items => bracketsOfItems items + 1
  | obj fields => bracketsOfFields fields + 1
  | unreadable text => (beginnings false ⟨1, 1⟩ text.toList).length
  | _ => 0

def bracketsOfItems : List Json → Nat
  | [] => 0
  | j :: rest => j.brackets + bracketsOfItems rest

def bracketsOfFields : List (String × Json) → Nat
  | [] => 0
  | (_, j) :: rest => j.brackets + bracketsOfFields rest

end

/-- How many arrays and objects begin before the one that is looked for, which is in one of several parts. -/
def beforeIn {α : Type} (before? : α → Option Nat) (brackets : α → Nat) : List α → Option Nat
  | [] => none
  | part :: parts => (before? part).orElse fun _ => (beforeIn before? brackets parts).map (· + brackets part)

mutual

/-- How many arrays and objects begin before the first one that is nested deeper than `limit`. -/
def beforeDeeper? : (limit : Nat) → Json → Option Nat
  | 0, arr _ | 0, obj _ => some 0
  | limit + 1, arr items => (beforeDeeperItem? limit items).map (· + 1)
  | limit + 1, obj fields => (beforeDeeperField? limit fields).map (· + 1)
  | _, _ => none

def beforeDeeperItem? (limit : Nat) : List Json → Option Nat
  | [] => none
  | j :: rest => (j.beforeDeeper? limit).orElse fun _ => (beforeDeeperItem? limit rest).map (· + j.brackets)

def beforeDeeperField? (limit : Nat) : List (String × Json) → Option Nat
  | [] => none
  | (_, j) :: rest => (j.beforeDeeper? limit).orElse fun _ => (beforeDeeperField? limit rest).map (· + j.brackets)

end

end PegCompiler.Json
