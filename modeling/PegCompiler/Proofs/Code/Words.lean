/-
Reading words finds the code that was written: `decode` is a left inverse of `encode`. The induction is
on the fuel of the reader; a block inside an instruction has fewer words than the instruction, so the
fuel for the words around it is enough for it too.
-/
import PegCompiler.Code.Words

namespace PegCompiler

/-- The condition with indexes that may be unknown. -/
def Test.raw : Test Pooled → Test Raw
  | .isTrue => .isTrue
  | .isError => .isError
  | .isOk => .isOk
  | .fewer n => .fewer n
  | .atLeast n => .atLeast n
  | .fewerThan d => .fewerThan d
  | .atLeastThan d => .atLeastThan d
  | .anyChar => .anyChar
  | .string i => .string i
  | .stringIc i => .stringIc i
  | .charClass i => .charClass i

mutual

/-- The instruction with indexes that may be unknown. -/
def Instr.raw : Instr Pooled → Instr Raw
  | .pushEmptyString => .pushEmptyString
  | .pushNull => .pushNull
  | .pushFailed => .pushFailed
  | .pushEmptyArray => .pushEmptyArray
  | .pushPos => .pushPos
  | .pop => .pop
  | .popPos => .popPos
  | .popN n => .popN n
  | .nip => .nip
  | .append => .append
  | .wrap n => .wrap n
  | .text => .text
  | .pluck n picks => .pluck n picks
  | .cond test yes no => .cond test.raw (Code.raw yes) (Code.raw no)
  | .whileOk body => .whileOk (Code.raw body)
  | .acceptN n => .acceptN n
  | .acceptString i => .acceptString i
  | .acceptStringIc i => .acceptStringIc i
  | .fail i => .fail i
  | .loadSavedPos d => .loadSavedPos d
  | .updateSavedPos => .updateSavedPos
  | .call f n args => .call f n args
  | .rule r => .rule r
  | .silence => .silence
  | .unsilence => .unsilence
  | .mapPush i => .mapPush i
  | .mapPop => .mapPop

/-- The code with indexes that may be unknown. -/
def Code.raw : Code Pooled → Code Raw
  | [] => []
  | i :: code => i.raw :: Code.raw code

end

namespace Cursor

theorem take_append (o : Nat) (ws rest : List Nat) :
    take ⟨o, ws ++ rest⟩ ws.length = .ok (ws, ⟨o + ws.length, rest⟩) := by
  unfold take
  rw [if_pos (by simp), List.take_left, List.drop_left]

end Cursor

/-- The blocks of an instruction. -/
def Instr.blocks {ν : Naming} : Instr ν → List (Code ν)
  | .cond _ yes no => [yes, no]
  | .whileOk body => [body]
  | _ => []

theorem Instr.encode_pos (i : Instr Pooled) : 0 < i.encode.length := by
  cases i with
  | defect why => nomatch why
  | _ => simp [Instr.encode, Test.encode]

theorem Instr.blocks_encode_lt (i : Instr Pooled) (b : Code Pooled) (hb : b ∈ i.blocks) :
    (Code.encode b).length < i.encode.length := by
  cases i with
  | cond test yes no =>
    simp only [blocks, List.mem_cons, List.not_mem_nil, or_false] at hb
    rcases hb with rfl | rfl <;> simp [Instr.encode, Test.encode] <;> omega
  | whileOk body =>
    simp only [blocks, List.mem_singleton] at hb
    subst hb
    simp only [Instr.encode, List.length_append, List.length_cons, List.length_nil]
    omega
  | _ => cases hb

theorem ofTest_encode {block : List Nat → Code Raw} {yes no : Code Pooled} (hyes : block (Code.encode yes) = Code.raw yes)
    (hno : block (Code.encode no) = Code.raw no) (test : Test Raw) (o : Nat) (rest : List Nat) :
    Instr.ofTest block test ⟨o, (Code.encode yes).length :: (Code.encode no).length ::
        (Code.encode yes ++ (Code.encode no ++ rest))⟩ =
      .ok (.cond test (Code.raw yes) (Code.raw no),
        ⟨o + 1 + 1 + (Code.encode yes).length + (Code.encode no).length, rest⟩) := by
  simp only [Instr.ofTest, Cursor.next, bind, Except.bind, Cursor.take_append, hyes, hno]
  rfl

/-- An instruction is read from its words, if its blocks are. -/
theorem Instr.read_encode {block : List Nat → Code Raw} (i : Instr Pooled)
    (h : ∀ b ∈ i.blocks, block (Code.encode b) = Code.raw b) (o : Nat) (rest : List Nat) :
    Instr.read block ⟨o, i.encode ++ rest⟩ = .ok (i.raw, ⟨o + i.encode.length, rest⟩) := by
  cases i with
  | defect why => nomatch why
  | cond test yes no =>
    have hyes := h yes List.mem_cons_self
    have hno := h no (List.mem_cons_of_mem _ List.mem_cons_self)
    cases test <;>
      simp only [Instr.encode, Test.encode, List.cons_append, List.nil_append, List.append_assoc, Instr.raw, Test.raw]
    all_goals
      refine (ofTest_encode hyes hno _ _ _).trans ?_
      simp only [List.length_append, List.length_cons, Except.ok.injEq, Prod.mk.injEq, Cursor.mk.injEq, true_and, and_true]
      omega
  | whileOk body =>
    have hbody := h body List.mem_cons_self
    show (do let p ← Cursor.take ⟨o + 1 + 1, Code.encode body ++ rest⟩ (Code.encode body).length
             return (.whileOk (block p.1), p.2) : Except DecodeError (Instr Raw × Cursor)) = _
    rw [Cursor.take_append]
    show Except.ok (Instr.whileOk (block (Code.encode body)), _) = _
    rw [hbody]
    simp only [Instr.encode, Instr.raw, List.length_append, List.length_cons, List.length_nil, Except.ok.injEq,
      Prod.mk.injEq, Cursor.mk.injEq, true_and, and_true]
    omega
  | pluck n picks =>
    show (do let p ← Cursor.take ⟨o + 1 + 1 + 1, picks ++ rest⟩ picks.length
             return (.pluck n p.1, p.2) : Except DecodeError (Instr Raw × Cursor)) = _
    rw [Cursor.take_append]
    show (Except.ok ((.pluck n picks : Instr Raw), _) : Except DecodeError _) = _
    simp only [Instr.encode, Instr.raw, List.length_append, List.length_cons, List.length_nil, Except.ok.injEq,
      Prod.mk.injEq, Cursor.mk.injEq, true_and, and_true]
    omega
  | call f n args =>
    show (do let p ← Cursor.take ⟨o + 1 + 1 + 1 + 1, args ++ rest⟩ args.length
             return (.call f n p.1, p.2) : Except DecodeError (Instr Raw × Cursor)) = _
    rw [Cursor.take_append]
    show (Except.ok ((.call f n args : Instr Raw), _) : Except DecodeError _) = _
    simp only [Instr.encode, Instr.raw, List.length_append, List.length_cons, List.length_nil, Except.ok.injEq,
      Prod.mk.injEq, Cursor.mk.injEq, true_and, and_true]
    omega
  | _ => rfl

namespace Code

/-- Code is read from its words, if there is fuel for them. -/
theorem readFrom_encode (fuel : Nat) : ∀ (code : Code Pooled) (o : Nat), (encode code).length < fuel →
    readFrom fuel ⟨o, encode code⟩ = raw code := by
  induction fuel with
  | zero => intro code o h; omega
  | succ fuel ih =>
    intro code o h
    cases code with
    | nil => rfl
    | cons i code =>
      have hpos := i.encode_pos
      simp only [encode, List.length_append] at h
      have hread : Instr.read (fun words => readFrom fuel ⟨0, words⟩) ⟨o, i.encode ++ encode code⟩ =
          .ok (i.raw, ⟨o + i.encode.length, encode code⟩) :=
        i.read_encode (fun b hb => ih b 0 (by have := i.blocks_encode_lt b hb; omega)) o (encode code)
      unfold readFrom
      rw [if_neg (by simp only [encode, List.isEmpty_iff, List.append_eq_nil_iff]; rintro ⟨hi, -⟩; simp [hi] at hpos)]
      simp only [encode, hread, raw]
      rw [ih code _ (by omega)]

/-- The code that was written is read. -/
theorem decode_encode (code : Code Pooled) : decode (encode code) = raw code :=
  readFrom_encode _ code 0 (Nat.lt_succ_self _)

end Code

end PegCompiler
