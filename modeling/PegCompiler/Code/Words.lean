/-
Code as a list of words: an opcode, then its operands. A block stands inside its instruction, its
length before it, so that one walk forward finds the nesting again. `encode` writes code, `decode`
reads any words, and ends a block with a defect where they are no code. Words are numbers of any size
here: those of 32 bits hold every length as long as no block has 2^32 words.
-/
import PegCompiler.Code.Instr

namespace PegCompiler

/-- The first words of instructions, in order of their numbers. -/
inductive Opcode
  | pushEmptyString | pushNull | pushFailed | pushEmptyArray | pushCurrPos
  | pop | popCurrPos | popN | nip | append | wrap | text | pluck
  | ifTrue | ifError | ifNotError | ifLt | ifGe | ifLtDynamic | ifGeDynamic | whileNotError
  | matchAny | matchString | matchStringIc | matchCharClass
  | acceptN | acceptString | acceptStringIc | fail | loadSavedPos | updateSavedPos
  | call | rule | silentFailsOn | silentFailsOff | sourceMapPush | sourceMapPop
  deriving DecidableEq

namespace Opcode

/-- The opcodes in order of their numbers. -/
def all : List Opcode := [
  pushEmptyString, pushNull, pushFailed, pushEmptyArray, pushCurrPos,
  pop, popCurrPos, popN, nip, append, wrap, text, pluck,
  ifTrue, ifError, ifNotError, ifLt, ifGe, ifLtDynamic, ifGeDynamic, whileNotError,
  matchAny, matchString, matchStringIc, matchCharClass,
  acceptN, acceptString, acceptStringIc, fail, loadSavedPos, updateSavedPos,
  call, rule, silentFailsOn, silentFailsOff, sourceMapPush, sourceMapPop]

/-- The opcode with a number. -/
def ofNat? (n : Nat) : Option Opcode := all[n]?

/-- The number of an opcode. -/
def toNat (op : Opcode) : Nat := op.ctorIdx

/-- The opcode as listings write it. -/
def name : Opcode → String
  | pushEmptyString => "PUSH_EMPTY_STRING"
  | pushNull => "PUSH_NULL"
  | pushFailed => "PUSH_FAILED"
  | pushEmptyArray => "PUSH_EMPTY_ARRAY"
  | pushCurrPos => "PUSH_CURR_POS"
  | pop => "POP"
  | popCurrPos => "POP_CURR_POS"
  | popN => "POP_N"
  | nip => "NIP"
  | append => "APPEND"
  | wrap => "WRAP"
  | text => "TEXT"
  | pluck => "PLUCK"
  | ifTrue => "IF"
  | ifError => "IF_ERROR"
  | ifNotError => "IF_NOT_ERROR"
  | ifLt => "IF_LT"
  | ifGe => "IF_GE"
  | ifLtDynamic => "IF_LT_DYNAMIC"
  | ifGeDynamic => "IF_GE_DYNAMIC"
  | whileNotError => "WHILE_NOT_ERROR"
  | matchAny => "MATCH_ANY"
  | matchString => "MATCH_STRING"
  | matchStringIc => "MATCH_STRING_IC"
  | matchCharClass => "MATCH_CHAR_CLASS"
  | acceptN => "ACCEPT_N"
  | acceptString => "ACCEPT_STRING"
  | acceptStringIc => "ACCEPT_STRING_IC"
  | fail => "FAIL"
  | loadSavedPos => "LOAD_SAVED_POS"
  | updateSavedPos => "UPDATE_SAVED_POS"
  | call => "CALL"
  | rule => "RULE"
  | silentFailsOn => "SILENT_FAILS_ON"
  | silentFailsOff => "SILENT_FAILS_OFF"
  | sourceMapPush => "SOURCE_MAP_PUSH"
  | sourceMapPop => "SOURCE_MAP_POP"

/-- The opcode of a condition as error messages write it. -/
def title : Opcode → String
  | ifTrue => "If"
  | ifError => "IfError"
  | ifNotError => "IfNotError"
  | ifLt => "IfLt"
  | ifGe => "IfGe"
  | ifLtDynamic => "IfLtDynamic"
  | ifGeDynamic => "IfGeDynamic"
  | matchAny => "MatchAny"
  | matchString => "MatchString"
  | matchStringIc => "MatchStringIc"
  | matchCharClass => "MatchCharClass"
  | op => op.name

end Opcode

/-! ## Opcodes of instructions -/

namespace Test

variable {ν : Naming}

def opcode : Test ν → Opcode
  | isTrue => .ifTrue
  | isError => .ifError
  | isOk => .ifNotError
  | fewer _ => .ifLt
  | atLeast _ => .ifGe
  | fewerThan _ => .ifLtDynamic
  | atLeastThan _ => .ifGeDynamic
  | anyChar => .matchAny
  | string _ => .matchString
  | stringIc _ => .matchStringIc
  | charClass _ => .matchCharClass

end Test

/-! ## Writing words -/

namespace Test

/-- The condition's own words. -/
def encode (t : Test Pooled) : List Nat :=
  t.opcode.toNat :: match t with
    | fewer n | atLeast n | fewerThan n | atLeastThan n => [n]
    | string i | stringIc i | charClass i => [i]
    | isTrue | isError | isOk | anyChar => []

end Test

mutual

def Instr.encode : Instr Pooled → List Nat
  | .pushEmptyString => [Opcode.pushEmptyString.toNat]
  | .pushNull => [Opcode.pushNull.toNat]
  | .pushFailed => [Opcode.pushFailed.toNat]
  | .pushEmptyArray => [Opcode.pushEmptyArray.toNat]
  | .pushPos => [Opcode.pushCurrPos.toNat]
  | .pop => [Opcode.pop.toNat]
  | .popPos => [Opcode.popCurrPos.toNat]
  | .popN n => [Opcode.popN.toNat, n]
  | .nip => [Opcode.nip.toNat]
  | .append => [Opcode.append.toNat]
  | .wrap n => [Opcode.wrap.toNat, n]
  | .text => [Opcode.text.toNat]
  | .pluck pop picks => [Opcode.pluck.toNat, pop, picks.length] ++ picks
  | .cond test yes no =>
    let yes := Code.encode yes
    let no := Code.encode no
    test.encode ++ [yes.length, no.length] ++ yes ++ no
  | .whileOk body =>
    let body := Code.encode body
    [Opcode.whileNotError.toNat, body.length] ++ body
  | .acceptN n => [Opcode.acceptN.toNat, n]
  | .acceptString i => [Opcode.acceptString.toNat, i]
  | .acceptStringIc i => [Opcode.acceptStringIc.toNat, i]
  | .fail i => [Opcode.fail.toNat, i]
  | .loadSavedPos d => [Opcode.loadSavedPos.toNat, d]
  | .updateSavedPos => [Opcode.updateSavedPos.toNat]
  | .call f pop args => [Opcode.call.toNat, f, pop, args.length] ++ args
  | .rule r => [Opcode.rule.toNat, r]
  | .silence => [Opcode.silentFailsOn.toNat]
  | .unsilence => [Opcode.silentFailsOff.toNat]
  | .mapPush i => [Opcode.sourceMapPush.toNat, i]
  | .mapPop => [Opcode.sourceMapPop.toNat]
  | .defect why => nomatch why

def Code.encode : Code Pooled → List Nat
  | [] => []
  | i :: code => i.encode ++ Code.encode code

end

/-! ## Reading words -/

/-- A place in a block of words. -/
structure Cursor where
  offset : Nat
  rest : List Nat

namespace Cursor

/-- The next word. -/
def next (c : Cursor) : Except DecodeError (Nat × Cursor) :=
  match c.rest with
  | [] => .error (.truncated c.offset)
  | w :: rest => .ok (w, ⟨c.offset + 1, rest⟩)

/-- The next words, as many as asked for. -/
def take (c : Cursor) (n : Nat) : Except DecodeError (List Nat × Cursor) :=
  if n ≤ c.rest.length then .ok (c.rest.take n, ⟨c.offset + n, c.rest.drop n⟩)
  else .error (.overrun c.offset)

/-- A number of words and then these words. -/
def list (c : Cursor) : Except DecodeError (List Nat × Cursor) := do
  let (n, c) ← c.next
  c.take n

end Cursor

namespace Instr

/-- An instruction that is a word and a number. -/
def ofNumber (make : Nat → Instr Raw) (c : Cursor) : Except DecodeError (Instr Raw × Cursor) := do
  let (n, c) ← c.next
  return (make n, c)

/-- A condition's two blocks. -/
def ofTest (block : List Nat → Code Raw) (test : Test Raw) (c : Cursor) :
    Except DecodeError (Instr Raw × Cursor) := do
  let (m, c) ← c.next
  let (n, c) ← c.next
  let (yes, c) ← c.take m
  let (no, c) ← c.take n
  return (cond test (block yes) (block no), c)

/-- A condition's number and its two blocks. -/
def ofTestNumber (block : List Nat → Code Raw) (test : Nat → Test Raw) (c : Cursor) :
    Except DecodeError (Instr Raw × Cursor) := do
  let (n, c) ← c.next
  ofTest block (test n) c

/-- What follows an opcode. -/
def ofOpcode (block : List Nat → Code Raw) (op : Opcode) (c : Cursor) :
    Except DecodeError (Instr Raw × Cursor) :=
  match op with
  | .pushEmptyString => .ok (pushEmptyString, c)
  | .pushNull => .ok (pushNull, c)
  | .pushFailed => .ok (pushFailed, c)
  | .pushEmptyArray => .ok (pushEmptyArray, c)
  | .pushCurrPos => .ok (pushPos, c)
  | .pop => .ok (pop, c)
  | .popCurrPos => .ok (popPos, c)
  | .popN => ofNumber popN c
  | .nip => .ok (nip, c)
  | .append => .ok (append, c)
  | .wrap => ofNumber wrap c
  | .text => .ok (text, c)
  | .pluck => do
    let (count, c) ← c.next
    let (picks, c) ← c.list
    return (pluck count picks, c)
  | .ifTrue => ofTest block .isTrue c
  | .ifError => ofTest block .isError c
  | .ifNotError => ofTest block .isOk c
  | .ifLt => ofTestNumber block .fewer c
  | .ifGe => ofTestNumber block .atLeast c
  | .ifLtDynamic => ofTestNumber block .fewerThan c
  | .ifGeDynamic => ofTestNumber block .atLeastThan c
  | .whileNotError => do
    let (body, c) ← c.list
    return (whileOk (block body), c)
  | .matchAny => ofTest block .anyChar c
  | .matchString => ofTestNumber block (fun i => .string i) c
  | .matchStringIc => ofTestNumber block (fun i => .stringIc i) c
  | .matchCharClass => ofTestNumber block (fun i => .charClass i) c
  | .acceptN => ofNumber acceptN c
  | .acceptString => ofNumber (fun i => acceptString i) c
  | .acceptStringIc => ofNumber (fun i => acceptStringIc i) c
  | .fail => ofNumber (fun i => fail i) c
  | .loadSavedPos => ofNumber loadSavedPos c
  | .updateSavedPos => .ok (updateSavedPos, c)
  | .call => do
    let (f, c) ← c.next
    let (count, c) ← c.next
    let (args, c) ← c.list
    return (call f count args, c)
  | .rule => ofNumber rule c
  | .silentFailsOn => .ok (silence, c)
  | .silentFailsOff => .ok (unsilence, c)
  | .sourceMapPush => ofNumber (fun i => mapPush i) c
  | .sourceMapPop => .ok (mapPop, c)

/-- The instruction at a cursor, whose blocks are read by `block`, and the cursor after it. -/
def read (block : List Nat → Code Raw) (c : Cursor) : Except DecodeError (Instr Raw × Cursor) := do
  let (word, next) ← c.next
  match Opcode.ofNat? word with
  | some op => ofOpcode block op next
  | none => throw (.unknownOpcode word c.offset)

end Instr

namespace Code

/-- The code from a cursor to the end of its block; an instruction takes a word at least, so no more
than `fuel` words can be read. -/
def readFrom : (fuel : Nat) → Cursor → Code Raw
  | 0, _ => []
  | fuel + 1, c =>
    if c.rest.isEmpty then []
    else
      match Instr.read (fun words => readFrom fuel ⟨0, words⟩) c with
      | .ok (i, c) => i :: readFrom fuel c
      | .error e => [.defect e]

/-- The code that words stand for. -/
def decode (words : List Nat) : Code Raw := readFrom (words.length + 1) ⟨0, words⟩

/-- The instruction at an offset, and how many words it takes. -/
def decodeAt (words : List Nat) (offset : Nat) : Except DecodeError (Instr Raw × Nat) := do
  let (i, c) ← Instr.read decode ⟨offset, words.drop offset⟩
  return (i, c.offset - offset)

end Code

end PegCompiler
