/-
Reading JSON text. Every value begins with a character of its own, so nesting is bounded by the
length of the text, which serves as fuel.
-/
import PegCompiler.Json.Basic
import PegCompiler.Json.Magnitude

namespace PegCompiler.Json.Reader

/-- The text without leading blanks. -/
def skipBlanks (cs : List Char) : List Char :=
  cs.dropWhile fun c => c = ' ' || c = '\n' || c = '\t' || c = '\r'

/-- The value of a digit in base sixteen. -/
def hexDigit? (c : Char) : Option Nat :=
  if '0' ≤ c && c ≤ '9' then some (c.toNat - '0'.toNat)
  else if 'a' ≤ c && c ≤ 'f' then some (c.toNat - 'a'.toNat + 10)
  else if 'A' ≤ c && c ≤ 'F' then some (c.toNat - 'A'.toNat + 10)
  else none

/-- The value of four digits in base sixteen. -/
def hexWord? (a b c d : Char) : Option Nat := do
  return (← hexDigit? a) * 4096 + (← hexDigit? b) * 256 + (← hexDigit? c) * 16 + (← hexDigit? d)

/-- The character after a backslash, if it stands for one by itself. -/
def shortEscape? (c : Char) : Option Char :=
  match c with
  | '"' => some '"'
  | '\\' => some '\\'
  | '/' => some '/'
  | 'b' => some '\x08'
  | 'f' => some '\x0c'
  | 'n' => some '\n'
  | 'r' => some '\r'
  | 't' => some '\t'
  | _ => none

/-- The rest of a string after its opening quote, and what follows it. `done` is read already, last
character first; it is lost with half a pair of surrogates, which can be skipped but is no text. -/
def stringBody (done : Option (List Char)) : List Char → Option (Option String × List Char)
  | [] => none
  | '"' :: rest => some (done.map fun cs => String.ofList cs.reverse, rest)
  | '\\' :: 'u' :: a :: b :: c :: d :: rest =>
    match hexWord? a b c d with
    | none => none
    | some n =>
      if 0xD800 ≤ n && n < 0xDC00 then
        match rest with
        | '\\' :: 'u' :: e :: f :: g :: h :: rest =>
          match hexWord? e f g h with
          | none => none
          | some m =>
            if 0xDC00 ≤ m && m < 0xE000 then
              let c := Char.ofNat (0x10000 + (n - 0xD800) * 1024 + (m - 0xDC00))
              stringBody (done.map (c :: ·)) rest
            else stringBody none rest
        | rest => stringBody none rest
      else if 0xDC00 ≤ n && n < 0xE000 then stringBody none rest
      else stringBody (done.map (Char.ofNat n :: ·)) rest
  | '\\' :: c :: rest =>
    match shortEscape? c with
    | some c => stringBody (done.map (c :: ·)) rest
    | none => none
  | c :: rest => if c.toNat < 0x20 then none else stringBody (done.map (c :: ·)) rest

/-- Digits, and what follows them. -/
def digits (cs : List Char) : List Char × List Char := cs.span Char.isDigit

/-- The value of decimal digits. -/
def digitsValue (ds : List Char) : Nat := ds.foldl (fun n d => n * 10 + Magnitude.digit d) 0

/-- The sign of a number, if it has one, and what follows it. -/
def sign : List Char → List Char × List Char
  | '-' :: rest => (['-'], rest)
  | cs => ([], cs)

/-- The point of a number and the digits after it, if it has them, and what follows. -/
def fraction? : List Char → Option (List Char × List Char)
  | '.' :: rest =>
    let (ds, rest) := digits rest
    if ds.isEmpty then none else some ('.' :: ds, rest)
  | rest => some ([], rest)

/-- The exponent of a number as it is written, if it has one, its value, and what follows it. -/
def exponent? : List Char → Option (List Char × Int × List Char)
  | [] => some ([], 0, [])
  | e :: more =>
    if e = 'e' || e = 'E' then
      let (mark, rest) := match more with
        | '+' :: rest => (['+'], rest)
        | '-' :: rest => (['-'], rest)
        | _ => ([], more)
      let (ds, rest) := digits rest
      let n : Int := digitsValue ds
      if ds.isEmpty then none else some (e :: mark ++ ds, if mark = ['-'] then -n else n, rest)
    else some ([], 0, e :: more)

/-- The number with these parts, the value of the last one being `power`. -/
def ofParts (sign whole fraction exponent : List Char) (power : Int) : Json :=
  let n := digitsValue whole
  let text := String.ofList (sign ++ whole ++ fraction ++ exponent)
  if Magnitude.isTooLarge whole (fraction.drop 1) power then .unreadable text
  else if fraction.isEmpty && exponent.isEmpty && !(n = 0 && !sign.isEmpty) then
    .int (if sign.isEmpty then n else -n)
  else .real text

/-- A number. -/
def number (cs : List Char) : Option (Json × List Char) := do
  let (sign, body) := sign cs
  let (whole, rest) := digits body
  if whole.isEmpty || (whole.length > 1 && whole.head? == some '0') then none
  else
    let (fraction, rest) ← fraction? rest
    let (exponent, power, rest) ← exponent? rest
    return (ofParts sign whole fraction exponent power, rest)

/-- The text after a given beginning. -/
def after? : List Char → List Char → Option (List Char)
  | [], rest => some rest
  | c :: cs, d :: rest => if c = d then after? cs rest else none
  | _ :: _, [] => none

/-- What was read up to the rest. -/
def written (cs rest : List Char) : String := String.ofList (cs.take (cs.length - rest.length))

mutual

/-- A value at the start of the text, and what follows it. -/
def value : (fuel : Nat) → List Char → Option (Json × List Char)
  | 0, _ => none
  | fuel + 1, cs =>
    match skipBlanks cs with
    | '"' :: body => (stringBody (some []) body).map fun
      | (some s, rest) => (.str s, rest)
      | (none, rest) => (.unreadable (written ('"' :: body) rest), rest)
    | '[' :: rest =>
      match skipBlanks rest with
      | ']' :: rest => some (.arr [], rest)
      | _ => (items fuel rest).map fun (js, rest) => (.arr js, rest)
    | '\x7b' :: body =>
      match skipBlanks body with
      | '\x7d' :: rest => some (.obj [], rest)
      | _ => (members fuel body).map fun
        | (some fields, rest) => (.obj fields, rest)
        | (none, rest) => (.unreadable (written ('\x7b' :: body) rest), rest)
    | 'n' :: rest => (after? "ull".toList rest).map (.null, ·)
    | 't' :: rest => (after? "rue".toList rest).map (.bool true, ·)
    | 'f' :: rest => (after? "alse".toList rest).map (.bool false, ·)
    | cs => number cs

/-- The items of an array that has some, up to its end. -/
def items : (fuel : Nat) → List Char → Option (List Json × List Char)
  | 0, _ => none
  | fuel + 1, cs =>
    match value fuel cs with
    | none => none
    | some (j, rest) =>
      match skipBlanks rest with
      | ',' :: rest => (items fuel rest).map fun (js, rest) => (j :: js, rest)
      | ']' :: rest => some ([j], rest)
      | _ => none

/-- The fields of an object that has some, up to its end; they are lost with a key that is no text. -/
def members : (fuel : Nat) → List Char → Option (Option (List (String × Json)) × List Char)
  | 0, _ => none
  | fuel + 1, cs =>
    match skipBlanks cs with
    | '"' :: rest =>
      match stringBody (some []) rest with
      | none => none
      | some (key, rest) =>
        match skipBlanks rest with
        | ':' :: rest =>
          match value fuel rest with
          | none => none
          | some (j, rest) =>
            let field := key.map (·, j)
            match skipBlanks rest with
            | ',' :: rest => (members fuel rest).map fun (fields, rest) =>
              (field.bind fun field => fields.map (field :: ·), rest)
            | '\x7d' :: rest => some (field.map ([·]), rest)
            | _ => none
        | _ => none
    | _ => none

end

end Reader

/-- The value that a text denotes, if it denotes one. -/
def ofText? (s : String) : Option Json :=
  let cs := s.toList
  match Reader.value (cs.length + 1) cs with
  | some (j, rest) => if (Reader.skipBlanks rest).isEmpty then some j else none
  | none => none

end PegCompiler.Json
