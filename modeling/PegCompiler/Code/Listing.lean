/-
Code as a listing: an instruction on a line, the blocks below it indented, constants written out.
Words that are no code have no listing.
-/
import PegCompiler.Code.Words

namespace PegCompiler

/-- Numbers between brackets. -/
def numberList (ns : List Nat) : String := "[" ++ String.intercalate ", " (ns.map toString) ++ "]"

namespace Constants

/-- A literal in quotes; a question mark stands for one that is not known. -/
def literalText (k : Constants) (i : Nat) : String := Quoted.string ((k.literals.get? i).getD "?")

/-- A class in brackets, or a question mark. -/
def classText (k : Constants) (i : Nat) : String := ((k.classes.get? i).map CharClass.text).getD "?"

/-- What was expected, or a question mark. -/
def expectationText (k : Constants) (i : Nat) : String :=
  ((k.expectations.get? i).map Expectation.text).getD "?"

end Constants

namespace Test

/-- The condition as a line. -/
def line (k : Constants) (t : Test Raw) : String :=
  t.opcode.name ++ match t with
    | isTrue | isError | isOk | anyChar => ""
    | fewer n | atLeast n | fewerThan n | atLeastThan n => s!" {n}"
    | string i | stringIc i => " " ++ k.literalText i
    | charClass i => " " ++ k.classText i

end Test

namespace Code

/-- A line at a level of nesting. -/
def line (level : Nat) (s : String) : String :=
  String.ofList (List.replicate (2 * level) ' ') ++ s ++ "\n"

mutual

/-- The lines of an instruction. -/
def instrLines (k : Constants) (level : Nat) : Instr Raw → Except DecodeError String
  | .pushEmptyString => .ok (line level Opcode.pushEmptyString.name)
  | .pushNull => .ok (line level Opcode.pushNull.name)
  | .pushFailed => .ok (line level Opcode.pushFailed.name)
  | .pushEmptyArray => .ok (line level Opcode.pushEmptyArray.name)
  | .pushPos => .ok (line level Opcode.pushCurrPos.name)
  | .pop => .ok (line level Opcode.pop.name)
  | .popPos => .ok (line level Opcode.popCurrPos.name)
  | .popN n => .ok (line level s!"POP_N {n}")
  | .nip => .ok (line level Opcode.nip.name)
  | .append => .ok (line level Opcode.append.name)
  | .wrap n => .ok (line level s!"WRAP {n}")
  | .text => .ok (line level Opcode.text.name)
  | .pluck n picks => .ok (line level s!"PLUCK {n} {numberList picks}")
  | .cond test yes no => do
    let yes ← lines k (level + 1) yes
    let no' ← lines k (level + 1) no
    return line level (test.line k) ++ yes ++ (if no.isEmpty then "" else line level "ELSE" ++ no')
  | .whileOk body => return line level "WHILE_NOT_ERROR" ++ (← lines k (level + 1) body)
  | .acceptN n => .ok (line level s!"ACCEPT_N {n}")
  | .acceptString i => .ok (line level s!"ACCEPT_STRING {k.literalText i}")
  | .acceptStringIc i => .ok (line level s!"ACCEPT_STRING_IC {k.literalText i}")
  | .fail i => .ok (line level s!"FAIL {k.expectationText i}")
  | .loadSavedPos d => .ok (line level s!"LOAD_SAVED_POS {d}")
  | .updateSavedPos => .ok (line level Opcode.updateSavedPos.name)
  | .call f n args =>
    let f : Nat := f
    .ok (line level s!"CALL f{f} {n} {numberList args}")
  | .rule r => .ok (line level s!"RULE {r}")
  | .silence => .ok (line level Opcode.silentFailsOn.name)
  | .unsilence => .ok (line level Opcode.silentFailsOff.name)
  | .mapPush i =>
    let i : Nat := i
    .ok (line level s!"SOURCE_MAP_PUSH {i}")
  | .mapPop => .ok (line level Opcode.sourceMapPop.name)
  | .defect e => .error e

/-- The lines of a block. -/
def lines (k : Constants) (level : Nat) : Code Raw → Except DecodeError String
  | [] => .ok ""
  | i :: code => do
    let first ← instrLines k level i
    let rest ← lines k level code
    return first ++ rest

end

end Code

end PegCompiler
