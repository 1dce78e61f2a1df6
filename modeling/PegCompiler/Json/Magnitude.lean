/-
Which numbers are too large for double precision. A number is read in three steps that round each on
their own: as many of its digits as stay below two to the power 64 make a whole number, the power of
ten that is left is a second one, and their product is the result. Near the limit this can differ from
rounding the exact value once.
-/
namespace PegCompiler.Json.Magnitude

/-- The value of a digit. -/
def digit (c : Char) : Nat := c.toNat - '0'.toNat

/-- A whole number with more digits behind it, up to the first that leaves 64 bits, and the digits from
there on. -/
def append (n : Nat) : List Char → Nat × List Char
  | [] => (n, [])
  | c :: cs =>
    let next := n * 10 + digit c
    if next < 18446744073709551616 then append next cs else (n, c :: cs)

/-- The nearest number of 53 bits, of two the one with an even last bit. -/
def nearest (n : Nat) : Nat :=
  let unit := Nat.pow 2 (n.log2 - 52)
  let below := n / unit
  let past := 2 * (n % unit)
  (if unit < past || (past = unit && below % 2 = 1) then below + 1 else below) * unit

/-- The greatest power of ten below the limit. -/
def maxPower : Nat := 308

/-- Half way from the largest number of double precision to two to the power 1024: from here on a
number is rounded up and out of range. -/
def limit : Nat := Nat.pow 2 1024 - Nat.pow 2 970

/-- Whether a number is too large, given its digits before and after the point and its power of ten.
Of the digits that find no room, those before the point count as powers of ten. -/
def isTooLarge (whole fraction : List Char) (power : Int) : Bool :=
  let (n, left) := append 0 whole
  let (n, dropped) := append n fraction
  let power := power + left.length - (fraction.length - dropped.length)
  if n = 0 || power < 0 then false
  else if maxPower < power then true
  else limit ≤ nearest n * nearest (Nat.pow 10 power.toNat)

end PegCompiler.Json.Magnitude
