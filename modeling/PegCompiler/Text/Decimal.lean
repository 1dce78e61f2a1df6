/-
Reading whole numbers of 64 bits: an optional sign, then decimal digits, at least one. What does not
fit is no number.
-/
namespace PegCompiler.Decimal

/-- The value of decimal digits, of which there is at least one. -/
def natural? (cs : List Char) : Option Nat :=
  if cs.isEmpty || !cs.all Char.isDigit then none
  else some (cs.foldl (fun n c => n * 10 + (c.toNat - '0'.toNat)) 0)

/-- Whether a whole number fits into 64 bits with a sign. -/
def fits (n : Int) : Bool := -9223372036854775808 ≤ n && n < 9223372036854775808

/-- The value of digits with or without a sign. -/
def signed? : List Char → Option Int
  | '-' :: cs => (natural? cs).map fun n => -n
  | '+' :: cs => (natural? cs).map fun n => n
  | cs => (natural? cs).map fun n => n

/-- The number that a text stands for. -/
def int? (s : String) : Option Int := (signed? s.toList).filter fits

end PegCompiler.Decimal
