/-
Sets of code points written as inclusive ranges, the form in which the property tables of the
neighbouring modules are kept.
-/
namespace PegCompiler

/-- A set of code points, as inclusive ranges. -/
abbrev CodeRanges := List (Nat × Nat)

/-- Whether a range of the set covers the character. -/
def CodeRanges.has (ranges : CodeRanges) (c : Char) : Bool :=
  ranges.any fun (first, last) => first ≤ c.toNat && c.toNat ≤ last

end PegCompiler
