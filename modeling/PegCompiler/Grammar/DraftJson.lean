/-
The JSON form of drafts. An expression is an object whose `type` tells its kind, by name or by number;
grammars, rules, spans and pieces of host code may also be arrays of their fields in order, and a bound
an array of its kind and its fields. Fields that are not known are ignored, a known one may not be
repeated, and a field that may be left out has a default. `Draft.ofJson?` reads the form,
`Draft.toJson` writes it with every field, and `Draft.ofText?` reads the text of one, which may not be
nested too deep.
-/
import PegCompiler.Grammar.Draft
import PegCompiler.Json.Nesting
import PegCompiler.Json.Reader

namespace PegCompiler

namespace Json

/-! ## Reading fields -/

/-- A natural number of 32 bits. -/
def word? : Json → Option Nat
  | int (.ofNat n) => if n < 4294967296 then some n else none
  | _ => none

def string? : Json → Option String
  | str s => some s
  | _ => none

def bool? : Json → Option Bool
  | bool b => some b
  | _ => none

/-- A character, which is a string of one. -/
def char? : Json → Option Char
  | str s => match s.toList with
    | [c] => some c
    | _ => none
  | _ => none

/-- Null is a missing value. -/
def nullable? {α : Type} (read : Json → Option α) : Json → Option (Option α)
  | null => some none
  | j => (read j).map some

def list? {α : Type} (read : Json → Option α) : Json → Option (List α)
  | arr items => items.mapM read
  | _ => none

/-- The values that a record is written with, each with its name. -/
def namedValues (names : List String) : Json → List (String × Json)
  | obj fields => fields
  | arr items => names.zip items
  | _ => []

/-- The fields of a record with these names, none where one is left out. An object has each of them
once at most; an array gives them in order and may end early, but not late. -/
def fields? (names : List String) : Json → Option (List (Option Json))
  | obj fields => names.mapM (obj fields).field?
  | arr items =>
    if items.length ≤ names.length then
      some (items.map some ++ List.replicate (names.length - items.length) none)
    else none
  | _ => none

/-- One of several kinds by its name, or by its number among them. -/
def kind? (kinds : List String) : Json → Option String
  | str s => some s
  | int n => if 0 ≤ n then kinds[n.toNat]? else none
  | _ => none

/-- A field that has to be there. -/
def required {α : Type} (read : Json → Option α) (field : Option Json) : Option α := field.bind read

/-- A field that may be left out. -/
def orElse {α : Type} (fallback : α) (read : Json → Option α) : Option Json → Option α
  | none => some fallback
  | some j => read j

end Json

open Json

namespace Span

def ofJson? (j : Json) : Option Span := do
  match ← fields? ["start", "end"] j with
  | [start, stop] => return ⟨← required word? start, ← required word? stop⟩
  | _ => none

def toJson (s : Span) : Json := .obj [("start", .nat s.start), ("end", .nat s.stop)]

end Span

namespace Located

def ofJson? (j : Json) : Option (Located String) := do
  match ← fields? ["inner", "span"] j with
  | [val, span] => return ⟨← required string? val, ← orElse .empty Span.ofJson? span⟩
  | _ => none

def toJson (c : Located String) : Json := .obj [("inner", .str c.val), ("span", c.span.toJson)]

end Located

namespace ClassPart

def ofJson? : Json → Option ClassPart
  | .arr [first, last] => return .range (← char? first) (← char? last)
  | j => (char? j).map .char

def toJson : ClassPart → Json
  | char c => .str c.toString
  | range first last => .arr [.str first.toString, .str last.toString]

end ClassPart

namespace Boundary

/-- The kinds of bounds in order. -/
def kinds : List String := ["constant", "variable", "function"]

/-- The bound of a kind with its fields. -/
def ofFields? (kind : String) (value location : Option Json) : Option Boundary :=
  match kind with
  | "constant" => return .constant (← orElse none (nullable? word?) value)
  | "variable" => return .label ⟨← required string? value, ← orElse .empty Span.ofJson? location⟩
  | "function" => return .computed ⟨← required string? value, ← orElse .empty Span.ofJson? location⟩
  | _ => none

/-- A bound as an array needs its value, and only a constant has no place. -/
def ofItems? (kind : String) : List Json → Option Boundary
  | [value] => ofFields? kind (some value) none
  | [value, location] => if kind = "constant" then none else ofFields? kind (some value) (some location)
  | _ => none

def ofJson? : Json → Option Boundary
  | .arr (kind :: items) => do ofItems? (← kind? kinds kind) items
  | j => do
    let kind ← required (kind? kinds) (← j.field? "type")
    let value ← j.field? "value"
    if kind = "constant" then ofFields? kind value none else ofFields? kind value (← j.field? "location")

def toJson : Boundary → Json
  | constant count =>
    .obj [("type", .str "constant"), ("value", match count with | some n => .nat n | none => .null)]
  | label name =>
    .obj [("type", .str "variable"), ("value", .str name.val), ("location", name.span.toJson)]
  | computed code =>
    .obj [("type", .str "function"), ("value", .str code.val), ("location", code.span.toJson)]

end Boundary

namespace Draft

namespace Expr

/-- The kinds of expressions in order. -/
def kinds : List String := [
  "choice", "sequence", "labeled", "action", "text", "simple_and", "simple_not", "semantic_and",
  "semantic_not", "optional", "zero_or_more", "one_or_more", "repeated", "group", "rule_ref", "literal",
  "class", "any", "named"]

/-- Host code in the fields `code` and `codeLocation`. -/
def codeOf? (j : Json) : Option HostCode :=
  return ⟨← required string? (← j.field? "code"), ← orElse .empty Span.ofJson? (← j.field? "codeLocation")⟩

/-- An expression nested at most `fuel` deep. -/
def read? : (fuel : Nat) → Json → Option Draft.Expr
  | 0, _ => none
  | fuel + 1, j => do
    let span ← orElse .empty Span.ofJson? (← j.field? "location")
    let body? := do required (read? fuel) (← j.field? "expression")
    match ← required (kind? kinds) (← j.field? "type") with
    | "choice" => return .choice span (← required (list? (read? fuel)) (← j.field? "alternatives"))
    | "sequence" => return .sequence span (← required (list? (read? fuel)) (← j.field? "elements"))
    | "labeled" =>
      return .labeled span (← orElse none (nullable? string?) (← j.field? "label"))
        (← orElse .empty Span.ofJson? (← j.field? "labelLocation"))
        (← orElse false bool? (← j.field? "pick")) (← body?)
    | "action" => return .action span (← body?) (← codeOf? j)
    | "text" => return .text span (← body?)
    | "simple_and" => return .simpleAnd span (← body?)
    | "simple_not" => return .simpleNot span (← body?)
    | "semantic_and" => return .semanticAnd span (← codeOf? j)
    | "semantic_not" => return .semanticNot span (← codeOf? j)
    | "optional" => return .optional span (← body?)
    | "zero_or_more" => return .zeroOrMore span (← body?)
    | "one_or_more" => return .oneOrMore span (← body?)
    | "repeated" =>
      return .repeated span (← body?) (← orElse none (nullable? Boundary.ofJson?) (← j.field? "min"))
        (← required Boundary.ofJson? (← j.field? "max"))
        (← orElse none (nullable? (read? fuel)) (← j.field? "delimiter"))
    | "group" => return .group span (← body?)
    | "rule_ref" => return .ruleRef span (← required string? (← j.field? "name"))
    | "literal" =>
      return .literal span (← required string? (← j.field? "value"))
        (← orElse false bool? (← j.field? "ignoreCase"))
    | "class" =>
      return .charClass span ⟨← required (list? ClassPart.ofJson?) (← j.field? "parts"),
        ← orElse false bool? (← j.field? "inverted"), ← orElse false bool? (← j.field? "ignoreCase")⟩
    | "any" => return .any span
    | "named" => return .named span (← required string? (← j.field? "name")) (← body?)
    | _ => none

def ofJson? (j : Json) : Option Draft.Expr := read? j.depth j

/-- How deep the fields of a rule's expression may be nested in a text. It may nest 127 arrays and
objects, and four are around them: the draft, its rules, the rule and the expression. -/
def maxDepth : Nat := 123

/-- The expression of a rule in a text that may nest its fields so deep. It is read as a whole before its
kind is known, all but its place, so nothing in it may be unreadable or nested too deep, whether it is
used or not. -/
def ofWritten? (limit : Nat) (j : Json) : Option Draft.Expr :=
  let whole : String × Json → Bool
    | (name, j) => name == "location" || (j.isReadable && j.depth ≤ limit)
  match j with
  | .obj fields => if fields.all whole then ofJson? j else none
  | _ => none

/-- How many arrays and objects begin in an expression before the first one that is nested too deep. -/
def beforeDeepest? : Json → Option Nat
  | .obj fields =>
    let inField : String × Json → Option Nat
      | (name, j) => if name == "location" then none else j.beforeDeeper? maxDepth
    (beforeIn inField (·.2.brackets) fields).map (· + 1)
  | _ => none

/-- An object with its `type` first and its span last. -/
def record (kind : String) (fields : List (String × Json)) (span : Span) : Json :=
  .obj ([("type", .str kind)] ++ fields ++ [("location", span.toJson)])

/-- The fields `code` and `codeLocation`. -/
def codeFields (code : HostCode) : List (String × Json) :=
  [("code", .str code.val), ("codeLocation", code.span.toJson)]

mutual

def toJson : Draft.Expr → Json
  | choice span alternatives => record "choice" [("alternatives", .arr (listToJson alternatives))] span
  | sequence span elements => record "sequence" [("elements", .arr (listToJson elements))] span
  | labeled span label labelSpan pick body =>
    record "labeled" [("label", .optional label), ("labelLocation", labelSpan.toJson),
      ("pick", .bool pick), ("expression", toJson body)] span
  | action span body code => record "action" ([("expression", toJson body)] ++ codeFields code) span
  | text span body => record "text" [("expression", toJson body)] span
  | simpleAnd span body => record "simple_and" [("expression", toJson body)] span
  | simpleNot span body => record "simple_not" [("expression", toJson body)] span
  | semanticAnd span code => record "semantic_and" (codeFields code) span
  | semanticNot span code => record "semantic_not" (codeFields code) span
  | optional span body => record "optional" [("expression", toJson body)] span
  | zeroOrMore span body => record "zero_or_more" [("expression", toJson body)] span
  | oneOrMore span body => record "one_or_more" [("expression", toJson body)] span
  | repeated span body min max none =>
    record "repeated" [("expression", toJson body), ("min", (min.map Boundary.toJson).getD .null),
      ("max", max.toJson), ("delimiter", .null)] span
  | repeated span body min max (some delimiter) =>
    record "repeated" [("expression", toJson body), ("min", (min.map Boundary.toJson).getD .null),
      ("max", max.toJson), ("delimiter", toJson delimiter)] span
  | group span body => record "group" [("expression", toJson body)] span
  | ruleRef span name => record "rule_ref" [("name", .str name)] span
  | literal span value ignoreCase =>
    record "literal" [("value", .str value), ("ignoreCase", .bool ignoreCase)] span
  | charClass span k =>
    record "class" [("parts", .arr (k.parts.map ClassPart.toJson)), ("inverted", .bool k.inverted),
      ("ignoreCase", .bool k.ignoreCase)] span
  | any span => record "any" [] span
  | named span name body => record "named" [("name", .str name), ("expression", toJson body)] span

def listToJson : List Draft.Expr → List Json
  | [] => []
  | e :: es => toJson e :: listToJson es

end

end Expr

namespace Rule

/-- The names of a rule's fields in order. -/
def fieldNames : List String := ["name", "nameLocation", "alias", "expression", "location"]

/-- A rule, given how its expression is read. -/
def readWith? (expr? : Json → Option Draft.Expr) (j : Json) : Option Draft.Rule := do
  match ← fields? fieldNames j with
  | [name, nameSpan, displayName, body, span] =>
    return ⟨← required string? name, ← orElse .empty Span.ofJson? nameSpan,
      ← orElse none (nullable? string?) displayName, ← required expr? body,
      ← orElse .empty Span.ofJson? span⟩
  | _ => none

def toJson (r : Draft.Rule) : Json :=
  .obj [("name", .str r.name), ("nameLocation", r.nameSpan.toJson), ("alias", .optional r.displayName),
    ("expression", r.body.toJson), ("location", r.span.toJson)]

end Rule

/-- The names of a draft's fields in order. -/
def fieldNames : List String := ["topLevelInitializer", "initializer", "rules"]

/-- A draft, given how the expressions of its rules are read. -/
def readWith? (expr? : Json → Option Draft.Expr) (j : Json) : Option Draft := do
  match ← fields? fieldNames j with
  | [top, init, rules] =>
    return ⟨← orElse none (nullable? Located.ofJson?) top, ← orElse none (nullable? Located.ofJson?) init,
      ← required (list? (Rule.readWith? expr?)) rules⟩
  | _ => none

def ofJson? (j : Json) : Option Draft := readWith? Expr.ofJson? j

/-- The draft whose JSON form a text is. -/
def ofText? (text : String) : Option Draft := do readWith? (Expr.ofWritten? Expr.maxDepth) (← Json.ofText? text)

/-- How many arrays and objects begin in a draft before the first one that is nested too deep. -/
def beforeDeepest? (j : Json) : Option Nat :=
  let inRule (j : Json) : Option Nat :=
    let inField : String × Json → Option Nat
      | (name, j) => if name == "expression" then Expr.beforeDeepest? j else none
    (beforeIn inField (·.2.brackets) (namedValues Rule.fieldNames j)).map (· + 1)
  let inRules (name : String) (j : Json) : Option Nat :=
    match name, j with
    | "rules", .arr rules => (beforeIn inRule Json.brackets rules).map (· + 1)
    | _, _ => none
  (beforeIn (fun (name, j) => inRules name j) (·.2.brackets) (namedValues fieldNames j)).map (· + 1)

/-- Where a text is nested too deep that would be the text of a draft otherwise. -/
def tooDeepAt? (text : String) : Option Json.Place := do
  let j ← Json.ofText? text
  let _ ← readWith? (Expr.ofWritten? j.depth) j
  (Json.beginnings false ⟨1, 1⟩ text.toList)[← beforeDeepest? j]?

/-- Host code, or null. -/
def codeToJson (code : Option HostCode) : Json := (code.map Located.toJson).getD .null

def toJson (d : Draft) : Json :=
  .obj [("topLevelInitializer", codeToJson d.topLevelInitializer),
    ("initializer", codeToJson d.initializer), ("rules", .arr (d.rules.map Rule.toJson))]

end Draft

end PegCompiler
