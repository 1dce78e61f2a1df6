/-
Reading any words at all. An instruction is read from some words in front (`ReadAs`), which hold those of its
blocks, so reading goes forward and inward and comes to an end. Where nothing is wrong with what was read, writing
it gives the same words; with `decode_encode`, reading and writing are inverse to each other.
-/
import Mathlib.Algebra.GroupWithZero.Nat
import PegCompiler.Proofs.Code.Words
import PegCompiler.Proofs.Stateful

namespace PegCompiler

/-! ## Words in front of a place -/

namespace Cursor

variable {c c' c₁ : Cursor} {ws ws' : List Nat} {w n : Nat}

/-- Some words stand between two places. -/
structure Takes (c : Cursor) (ws : List Nat) (c' : Cursor) : Prop where
  rest : c.rest = ws ++ c'.rest
  offset : c'.offset = c.offset + ws.length

theorem Takes.refl (c : Cursor) : c.Takes [] c := ⟨rfl, rfl⟩

theorem Takes.append (h : c.Takes ws c₁) (h' : c₁.Takes ws' c') : c.Takes (ws ++ ws') c' where
  rest := by rw [h.rest, h'.rest, List.append_assoc]
  offset := by rw [h'.offset, h.offset, List.length_append, Nat.add_assoc]

theorem Takes.cons (h : c.Takes [w] c₁) (h' : c₁.Takes ws c') : c.Takes (w :: ws) c' := h.append h'

theorem Takes.length (h : c.Takes ws c') : c.rest.length = ws.length + c'.rest.length := by
  rw [h.rest, List.length_append]

theorem takes_of_next (h : c.next = .ok (w, c')) : c.Takes [w] c' := by
  obtain ⟨offset, rest⟩ := c
  cases rest with
  | nil => cases h
  | cons v rest => cases h; exact ⟨rfl, rfl⟩

theorem takes_of_take (h : c.take n = .ok (ws, c')) : ws.length = n ∧ c.Takes ws c' := by
  unfold take at h
  split at h
  · cases h
    have length : (c.rest.take n).length = n := by rw [List.length_take]; omega
    exact ⟨length, (List.take_append_drop n c.rest).symm, by rw [length]⟩
  · cases h

theorem takes_of_list (h : c.list = .ok (ws, c')) : c.Takes (ws.length :: ws) c' := by
  obtain ⟨⟨n, c₁⟩, h₁, h₂⟩ := except_bind_ok_iff.1 h
  obtain ⟨rfl, taken⟩ := takes_of_take h₂
  exact (takes_of_next h₁).cons taken

end Cursor

/-! ## The words of an instruction -/

theorem Opcode.toNat_all : ∀ k : Fin Opcode.all.length, (Opcode.all[k]).toNat = k := by decide

theorem Opcode.toNat_of_ofNat? {n : Nat} {op : Opcode} (h : Opcode.ofNat? n = some op) : n = op.toNat := by
  obtain ⟨hn, rfl⟩ := List.getElem?_eq_some_iff.1 h
  exact (Opcode.toNat_all ⟨n, hn⟩).symm

namespace Instr

variable {block block' : List Nat → Code Raw} {i : Instr Raw} {c c' : Cursor} {ws : List Nat}

/-- What the words of an instruction are read as, where `block` reads those of a block. -/
inductive ReadAs (block : List Nat → Code Raw) : Instr Raw → List Nat → Prop
  | plain (p : Instr Pooled) : p.blocks = [] → ReadAs block p.raw p.encode
  | cond (test : Test Pooled) (yes no : List Nat) :
    ReadAs block (.cond test.raw (block yes) (block no)) (test.encode ++ [yes.length, no.length] ++ yes ++ no)
  | whileOk (body : List Nat) :
    ReadAs block (.whileOk (block body)) ([Opcode.whileNotError.toNat, body.length] ++ body)

namespace ReadAs

theorem pos (h : ReadAs block i ws) : 0 < ws.length := by
  cases h with
  | plain p => exact p.encode_pos
  | cond | whileOk => simp only [List.length_append, List.length_cons]; omega

/-- The words of a block stand together inside those of its instruction. -/
theorem blocks (h : ReadAs block i ws) {b : Code Raw} (hb : b ∈ i.blocks) :
    ∃ part, b = block part ∧ part <:+: ws ∧ part.length < ws.length := by
  cases h with
  | plain p hp =>
    have none : p.raw.blocks = [] := by
      cases p with
      | cond | whileOk => cases hp
      | defect why => nomatch why
      | _ => rfl
    rw [none] at hb; cases hb
  | cond test yes no =>
    rcases List.mem_cons.1 hb with rfl | hb
    · refine ⟨yes, rfl, ⟨test.encode ++ [yes.length, no.length], no, rfl⟩, ?_⟩
      simp only [List.length_append, List.length_cons]; omega
    · rw [List.mem_singleton.1 hb]
      refine ⟨no, rfl, ⟨test.encode ++ [yes.length, no.length] ++ yes, [], List.append_nil _⟩, ?_⟩
      simp only [List.length_append, List.length_cons]; omega
  | whileOk body =>
    rw [List.mem_singleton.1 hb]
    refine ⟨body, rfl, ⟨[Opcode.whileNotError.toNat, body.length], [], List.append_nil _⟩, ?_⟩
    simp only [List.length_append, List.length_cons]; omega

end ReadAs

/-! ### One lemma for each layout of operands -/

/-- What follows an opcode is read as an instruction. -/
def Follows (block : List Nat → Code Raw) (op : Opcode) (i : Instr Raw) (c c' : Cursor) : Prop :=
  ∃ ws, c.Takes ws c' ∧ ReadAs block i (op.toNat :: ws)

theorem follows_alone {op : Opcode} (p : Instr Pooled) (hb : p.blocks = []) (hp : p.encode = [op.toNat])
    (h : (.ok (p.raw, c) : Except DecodeError _) = .ok (i, c')) : Follows block op i c c' := by
  cases h
  exact ⟨[], .refl c, hp ▸ .plain p hb⟩

theorem follows_number {op : Opcode} {make : Nat → Instr Raw} (p : Nat → Instr Pooled) (hb : ∀ n, (p n).blocks = [])
    (hraw : ∀ n, (p n).raw = make n) (hp : ∀ n, (p n).encode = [op.toNat, n])
    (h : ofNumber make c = .ok (i, c')) : Follows block op i c c' := by
  obtain ⟨⟨n, c₁⟩, h₁, h₂⟩ := except_bind_ok_iff.1 h
  cases h₂
  exact ⟨[n], Cursor.takes_of_next h₁, hp n ▸ hraw n ▸ .plain (p n) (hb n)⟩

theorem takes_of_ofTest {test : Test Raw} (h : ofTest block test c = .ok (i, c')) :
    ∃ yes no, i = .cond test (block yes) (block no) ∧ c.Takes ([yes.length, no.length] ++ yes ++ no) c' := by
  obtain ⟨⟨m, c₁⟩, h₁, h⟩ := except_bind_ok_iff.1 h
  obtain ⟨⟨n, c₂⟩, h₂, h⟩ := except_bind_ok_iff.1 h
  obtain ⟨⟨yes, c₃⟩, h₃, h⟩ := except_bind_ok_iff.1 h
  obtain ⟨⟨no, c₄⟩, h₄, h⟩ := except_bind_ok_iff.1 h
  cases h
  obtain ⟨rfl, t₃⟩ := Cursor.takes_of_take h₃
  obtain ⟨rfl, t₄⟩ := Cursor.takes_of_take h₄
  exact ⟨yes, no, rfl, (((Cursor.takes_of_next h₁).cons (Cursor.takes_of_next h₂)).append t₃).append t₄⟩

theorem follows_test {op : Opcode} (test : Test Pooled) (ht : test.encode = [op.toNat])
    (h : ofTest block test.raw c = .ok (i, c')) : Follows block op i c c' := by
  obtain ⟨yes, no, rfl, taken⟩ := takes_of_ofTest h
  have read : ReadAs block _ _ := .cond test yes no
  rw [ht] at read
  exact ⟨_, taken, read⟩

theorem follows_testNumber {op : Opcode} {make : Nat → Test Raw} (test : Nat → Test Pooled)
    (hraw : ∀ n, (test n).raw = make n) (ht : ∀ n, (test n).encode = [op.toNat, n])
    (h : ofTestNumber block make c = .ok (i, c')) : Follows block op i c c' := by
  obtain ⟨⟨n, c₁⟩, h₁, h⟩ := except_bind_ok_iff.1 h
  obtain ⟨yes, no, rfl, taken⟩ := takes_of_ofTest h
  have read : ReadAs block _ _ := .cond (test n) yes no
  rw [ht, hraw] at read
  exact ⟨_, (Cursor.takes_of_next h₁).cons taken, read⟩

theorem follows_opcode {op : Opcode} (h : ofOpcode block op c = .ok (i, c')) : Follows block op i c c' := by
  cases op with
  | pushEmptyString => exact follows_alone .pushEmptyString rfl rfl h
  | pushNull => exact follows_alone .pushNull rfl rfl h
  | pushFailed => exact follows_alone .pushFailed rfl rfl h
  | pushEmptyArray => exact follows_alone .pushEmptyArray rfl rfl h
  | pushCurrPos => exact follows_alone .pushPos rfl rfl h
  | pop => exact follows_alone .pop rfl rfl h
  | popCurrPos => exact follows_alone .popPos rfl rfl h
  | popN => exact follows_number .popN (fun _ => rfl) (fun _ => rfl) (fun _ => rfl) h
  | nip => exact follows_alone .nip rfl rfl h
  | append => exact follows_alone .append rfl rfl h
  | wrap => exact follows_number .wrap (fun _ => rfl) (fun _ => rfl) (fun _ => rfl) h
  | text => exact follows_alone .text rfl rfl h
  | pluck =>
    obtain ⟨⟨n, c₁⟩, h₁, h⟩ := except_bind_ok_iff.1 h
    obtain ⟨⟨picks, c₂⟩, h₂, h⟩ := except_bind_ok_iff.1 h
    cases h
    exact ⟨_, (Cursor.takes_of_next h₁).cons (Cursor.takes_of_list h₂), .plain (.pluck n picks) rfl⟩
  | ifTrue => exact follows_test .isTrue rfl h
  | ifError => exact follows_test .isError rfl h
  | ifNotError => exact follows_test .isOk rfl h
  | ifLt => exact follows_testNumber .fewer (fun _ => rfl) (fun _ => rfl) h
  | ifGe => exact follows_testNumber .atLeast (fun _ => rfl) (fun _ => rfl) h
  | ifLtDynamic => exact follows_testNumber .fewerThan (fun _ => rfl) (fun _ => rfl) h
  | ifGeDynamic => exact follows_testNumber .atLeastThan (fun _ => rfl) (fun _ => rfl) h
  | whileNotError =>
    obtain ⟨⟨body, c₁⟩, h₁, h⟩ := except_bind_ok_iff.1 h
    cases h
    exact ⟨_, Cursor.takes_of_list h₁, .whileOk body⟩
  | matchAny => exact follows_test .anyChar rfl h
  | matchString => exact follows_testNumber (fun n => .string n) (fun _ => rfl) (fun _ => rfl) h
  | matchStringIc => exact follows_testNumber (fun n => .stringIc n) (fun _ => rfl) (fun _ => rfl) h
  | matchCharClass => exact follows_testNumber (fun n => .charClass n) (fun _ => rfl) (fun _ => rfl) h
  | acceptN => exact follows_number .acceptN (fun _ => rfl) (fun _ => rfl) (fun _ => rfl) h
  | acceptString => exact follows_number (fun n => .acceptString n) (fun _ => rfl) (fun _ => rfl) (fun _ => rfl) h
  | acceptStringIc => exact follows_number (fun n => .acceptStringIc n) (fun _ => rfl) (fun _ => rfl) (fun _ => rfl) h
  | fail => exact follows_number (fun n => .fail n) (fun _ => rfl) (fun _ => rfl) (fun _ => rfl) h
  | loadSavedPos => exact follows_number .loadSavedPos (fun _ => rfl) (fun _ => rfl) (fun _ => rfl) h
  | updateSavedPos => exact follows_alone .updateSavedPos rfl rfl h
  | call =>
    obtain ⟨⟨f, c₁⟩, h₁, h⟩ := except_bind_ok_iff.1 h
    obtain ⟨⟨n, c₂⟩, h₂, h⟩ := except_bind_ok_iff.1 h
    obtain ⟨⟨args, c₃⟩, h₃, h⟩ := except_bind_ok_iff.1 h
    cases h
    exact ⟨_, (Cursor.takes_of_next h₁).cons ((Cursor.takes_of_next h₂).cons (Cursor.takes_of_list h₃)),
      .plain (.call f n args) rfl⟩
  | rule => exact follows_number .rule (fun _ => rfl) (fun _ => rfl) (fun _ => rfl) h
  | silentFailsOn => exact follows_alone .silence rfl rfl h
  | silentFailsOff => exact follows_alone .unsilence rfl rfl h
  | sourceMapPush => exact follows_number (fun n => .mapPush n) (fun _ => rfl) (fun _ => rfl) (fun _ => rfl) h
  | sourceMapPop => exact follows_alone .mapPop rfl rfl h

/-- An instruction is read from some words in front. -/
theorem readAs_of_read (h : read block c = .ok (i, c')) : ∃ ws, c.Takes ws c' ∧ ReadAs block i ws := by
  obtain ⟨⟨word, c₁⟩, h₁, h⟩ := except_bind_ok_iff.1 h
  cases hop : Opcode.ofNat? word with
  | none => simp only [hop] at h; cases h
  | some op =>
    simp only [hop] at h
    obtain ⟨ws, taken, read⟩ := follows_opcode h
    rw [← Opcode.toNat_of_ofNat? hop] at read
    exact ⟨_, (Cursor.takes_of_next h₁).cons taken, read⟩

/-! ### Shorter blocks -/

theorem ofTest_congr (h : ∀ ws, ws.length ≤ c.rest.length → block ws = block' ws) (test : Test Raw) :
    ofTest block test c = ofTest block' test c := by
  refine except_bind_congr fun p₁ h₁ => except_bind_congr fun p₂ h₂ => except_bind_congr fun p₃ h₃ =>
    except_bind_congr fun p₄ h₄ => ?_
  have l₁ := (Cursor.takes_of_next h₁).length
  have l₂ := (Cursor.takes_of_next h₂).length
  have l₃ := (Cursor.takes_of_take h₃).2.length
  have l₄ := (Cursor.takes_of_take h₄).2.length
  obtain ⟨yes, c₃⟩ := p₃
  obtain ⟨no, c₄⟩ := p₄
  have hyes : block yes = block' yes := h yes (by simp only at l₃; omega)
  have hno : block no = block' no := h no (by simp only at l₃ l₄; omega)
  show (Except.ok (Instr.cond test (block yes) (block no), c₄) : Except DecodeError _) = _
  rw [hyes, hno]
  rfl

theorem ofTestNumber_congr (h : ∀ ws, ws.length ≤ c.rest.length → block ws = block' ws) (test : Nat → Test Raw) :
    ofTestNumber block test c = ofTestNumber block' test c := by
  refine except_bind_congr fun p h₁ => ofTest_congr (fun ws hws => h ws ?_) _
  have := (Cursor.takes_of_next h₁).length
  omega

/-- The reader of blocks is asked for shorter blocks only. -/
theorem read_congr (h : ∀ ws, ws.length < c.rest.length → block ws = block' ws) : read block c = read block' c := by
  refine except_bind_congr fun p h₁ => ?_
  have length := (Cursor.takes_of_next h₁).length
  rw [List.length_singleton] at length
  have shorter : ∀ ws, ws.length ≤ p.2.rest.length → block ws = block' ws := fun ws hws => h ws (by omega)
  cases hop : Opcode.ofNat? p.1 with
  | none => simp only [hop]
  | some op =>
    simp only [hop]
    cases op with
    | ifTrue | ifError | ifNotError | matchAny => exact ofTest_congr shorter _
    | ifLt | ifGe | ifLtDynamic | ifGeDynamic | matchString | matchStringIc | matchCharClass =>
      exact ofTestNumber_congr shorter _
    | whileNotError =>
      refine except_bind_congr fun q h₂ => ?_
      have := (Cursor.takes_of_list h₂).length
      obtain ⟨body, c₂⟩ := q
      have hbody : block body = block' body := shorter body (by rw [List.length_cons] at this; simp only at this; omega)
      show (Except.ok (Instr.whileOk (block body), c₂) : Except DecodeError _) = _
      rw [hbody]
      rfl
    | _ => rfl

end Instr

/-! ## Blocks -/

mutual

/-- Nothing was wrong with the words of an instruction. -/
def Instr.sound : Instr Raw → Bool
  | .cond _ yes no => Code.sound yes && Code.sound no
  | .whileOk body => Code.sound body
  | .defect _ => false
  | _ => true

/-- Nothing was wrong with the words. -/
def Code.sound : Code Raw → Bool
  | [] => true
  | i :: code => i.sound && Code.sound code

end

namespace Code

variable {fuel : Nat} {c c' : Cursor} {i : Instr Raw} {e : DecodeError}

theorem readFrom_nil (h : c.rest = []) : readFrom fuel c = [] := by
  cases fuel with
  | zero => rfl
  | succ fuel => unfold readFrom; rw [h]; rfl

theorem readFrom_ok (h : Instr.read (fun words => readFrom fuel ⟨0, words⟩) c = .ok (i, c')) :
    readFrom (fuel + 1) c = i :: readFrom fuel c' := by
  obtain ⟨ws, taken, read⟩ := Instr.readAs_of_read h
  have := read.pos
  have := taken.length
  rw [readFrom, if_neg (by rw [List.isEmpty_iff_length_eq_zero]; omega), h]

theorem readFrom_error (hc : c.rest ≠ [])
    (h : Instr.read (fun words => readFrom fuel ⟨0, words⟩) c = .error e) : readFrom (fuel + 1) c = [.defect e] := by
  rw [readFrom, if_neg (by rwa [List.isEmpty_iff]), h]

/-- With fuel for all its words a block is read to the end, and so are the blocks inside. -/
theorem readFrom_fuel {fuel' : Nat} (h : c.rest.length < fuel) (h' : c.rest.length < fuel') :
    readFrom fuel c = readFrom fuel' c := by
  induction fuel generalizing fuel' c with
  | zero => omega
  | succ fuel ih =>
    cases fuel' with
    | zero => omega
    | succ fuel' =>
      have blocks : Instr.read (fun words => readFrom fuel ⟨0, words⟩) c =
          Instr.read (fun words => readFrom fuel' ⟨0, words⟩) c :=
        Instr.read_congr fun ws hws =>
          ih (c := ⟨0, ws⟩) (by show ws.length < fuel; omega) (by show ws.length < fuel'; omega)
      by_cases hc : c.rest = []
      · rw [readFrom_nil hc, readFrom_nil hc]
      · cases hread : Instr.read (fun words => readFrom fuel ⟨0, words⟩) c with
        | error e => rw [readFrom_error hc hread, readFrom_error hc (blocks ▸ hread)]
        | ok p =>
          obtain ⟨i, next⟩ := p
          obtain ⟨ws, taken, read⟩ := Instr.readAs_of_read hread
          have := read.pos
          have := taken.length
          have rest : readFrom fuel next = readFrom fuel' next := ih (by omega) (by omega)
          rw [readFrom_ok hread, readFrom_ok (blocks ▸ hread), rest]

/-- Reading from a place goes on after each instruction, whose blocks are shorter, and stops at the end or where there
is none. -/
theorem reading_induction {P : Cursor → Code Raw → Prop} (done : ∀ c, c.rest = [] → P c [])
    (stuck : ∀ c e, c.rest ≠ [] → Instr.read decode c = .error e → P c [.defect e])
    (step : ∀ c i c' ws code, Instr.read decode c = .ok (i, c') → c.Takes ws c' → Instr.ReadAs decode i ws →
      (∀ part, part.length < c.rest.length → P ⟨0, part⟩ (decode part)) → P c' code → P c (i :: code))
    (fuel : Nat) (c : Cursor) (h : c.rest.length < fuel) : P c (readFrom fuel c) := by
  induction fuel generalizing c with
  | zero => omega
  | succ fuel ih =>
    have blocks : Instr.read (fun words => readFrom fuel ⟨0, words⟩) c = Instr.read decode c :=
      Instr.read_congr fun ws hws => readFrom_fuel (c := ⟨0, ws⟩) (by show ws.length < fuel; omega) (Nat.lt_succ_self _)
    by_cases hc : c.rest = []
    · rw [readFrom_nil hc]; exact done c hc
    · cases hread : Instr.read decode c with
      | error e => rw [readFrom_error hc (blocks.trans hread)]; exact stuck c e hc hread
      | ok p =>
        obtain ⟨i, next⟩ := p
        obtain ⟨ws, taken, read⟩ := Instr.readAs_of_read hread
        have := read.pos
        have := taken.length
        rw [readFrom_ok (blocks.trans hread)]
        -- the fuel that is left is enough for what follows, and for a block, which is shorter
        refine step c i next ws _ hread taken read (fun part hpart => ?_) (ih next (by omega))
        rw [show decode part = readFrom fuel ⟨0, part⟩ from
          readFrom_fuel (c := ⟨0, part⟩) (Nat.lt_succ_self _) (by show part.length < fuel; omega)]
        exact ih ⟨0, part⟩ (by show part.length < fuel; omega)

/-! ## What is read is written -/

/-- What was read without a defect is code whose words are those that were read. -/
theorem encode_of_sound (fuel : Nat) (c : Cursor) (h : c.rest.length < fuel) (hs : (readFrom fuel c).sound = true) :
    ∃ code, readFrom fuel c = raw code ∧ encode code = c.rest := by
  refine reading_induction (P := fun c code => code.sound = true → ∃ p, code = raw p ∧ encode p = c.rest) ?_ ?_ ?_
    fuel c h hs
  case refine_1 => exact fun c hc _ => ⟨[], rfl, hc.symm⟩
  case refine_2 => exact fun c e _ _ hs => nomatch hs
  case refine_3 =>
    intro c i c' ws code _ taken read inside rest hs
    obtain ⟨hi, hcode⟩ := Bool.and_eq_true_iff.1 hs
    obtain ⟨tail, rfl, htail⟩ := rest hcode
    have length := taken.length
    suffices ∃ p : Instr Pooled, i = p.raw ∧ p.encode = ws by
      obtain ⟨p, rfl, rfl⟩ := this
      exact ⟨p :: tail, rfl, by rw [taken.rest, ← htail]; rfl⟩
    cases read with
    | plain p => exact ⟨p, rfl, rfl⟩
    | cond test yes no =>
      obtain ⟨hyes, hno⟩ := Bool.and_eq_true_iff.1 hi
      simp only [List.length_append, List.length_cons] at length
      obtain ⟨y, hy, rfl⟩ := inside yes (by omega) hyes
      obtain ⟨n, hn, rfl⟩ := inside no (by omega) hno
      exact ⟨.cond test y n, by rw [hy, hn]; rfl, rfl⟩
    | whileOk body =>
      simp only [List.length_append, List.length_cons] at length
      obtain ⟨b, hb, rfl⟩ := inside body (by omega) hi
      exact ⟨.whileOk b, by rw [hb]; rfl, rfl⟩

/-! ## Walks -/

/-- Going over words from an offset on: the instructions that `decodeAt` finds, and how many words it says that each
takes. Where it finds none the walk ends with the reason. -/
inductive Walk (words : List Nat) : Nat → Code Raw → List Nat → Prop
  | done : Walk words words.length [] []
  | step {offset n : Nat} {i : Instr Raw} {code : Code Raw} {ns : List Nat} :
    offset < words.length → decodeAt words offset = .ok (i, n) → Walk words (offset + n) code ns →
    Walk words offset (i :: code) (n :: ns)
  | stuck {offset : Nat} {e : DecodeError} :
    offset < words.length → decodeAt words offset = .error e → Walk words offset [.defect e] []

theorem decodeAt_eq (words : List Nat) {c : Cursor} (hc : c.rest = words.drop c.offset) :
    decodeAt words c.offset = (Instr.read decode c).map fun p => (p.1, p.2.offset - c.offset) := by
  unfold decodeAt
  rw [← hc]
  rfl

/-- The walk over words finds what `decode` does. -/
theorem walk_readFrom (words : List Nat) (fuel : Nat) (c : Cursor) (h : c.rest.length < fuel)
    (hc : c.rest = words.drop c.offset) (ho : c.offset ≤ words.length) : ∃ ns, Walk words c.offset (readFrom fuel c) ns := by
  refine reading_induction
    (P := fun c code => c.rest = words.drop c.offset → c.offset ≤ words.length → ∃ ns, Walk words c.offset code ns)
    ?_ ?_ ?_ fuel c h hc ho
  case refine_1 =>
    intro c hnil hc ho
    rw [hnil] at hc
    rw [Nat.le_antisymm ho (List.drop_eq_nil_iff.1 hc.symm)]
    exact ⟨[], .done⟩
  case refine_2 =>
    intro c e hne hread hc ho
    refine ⟨[], .stuck (Nat.lt_of_not_le fun hle => hne ?_) ?_⟩
    · rw [hc, List.drop_eq_nil_of_le hle]
    · rw [decodeAt_eq words hc, hread]; rfl
  case refine_3 =>
    intro c i c' ws code hread taken read _ rest hc ho
    have pos := read.pos
    have length := congrArg List.length hc
    rw [taken.length, List.length_drop] at length
    have hc' : c'.rest = words.drop c'.offset := by
      rw [taken.offset, ← List.drop_drop, ← hc, taken.rest, List.drop_left]
    obtain ⟨ns, walk⟩ := rest hc' (by rw [taken.offset]; omega)
    refine ⟨ws.length :: ns, .step (by omega) ?_ (taken.offset ▸ walk)⟩
    rw [decodeAt_eq words hc, hread]
    show Except.ok (i, c'.offset - c.offset) = _
    rw [taken.offset, Nat.add_sub_cancel_left]

theorem walk_decode (words : List Nat) : ∃ ns, Walk words 0 (decode words) ns :=
  walk_readFrom words _ ⟨0, words⟩ (Nat.lt_succ_self _) rfl (Nat.zero_le _)

namespace Walk

variable {words : List Nat} {offset : Nat} {code : Code Raw} {ns : List Nat}

/-- A walk that is not stuck goes over all words. -/
theorem sum (h : Walk words offset code ns) (hs : code.sound = true) : offset + ns.sum = words.length := by
  induction h with
  | done => rfl
  | step _ _ _ ih =>
    rw [List.sum_cons, ← Nat.add_assoc]
    exact ih (Bool.and_eq_true_iff.1 hs).2
  | stuck => cases hs

end Walk

mutual

theorem sound_instr (i : Instr Pooled) : i.raw.sound = true := by
  cases i with
  | cond test yes no => exact Bool.and_eq_true_iff.2 ⟨sound_raw yes, sound_raw no⟩
  | whileOk body => exact sound_raw body
  | defect why => nomatch why
  | _ => rfl

theorem sound_raw (code : Code Pooled) : sound (raw code) = true := by
  cases code with
  | nil => rfl
  | cons i code => exact Bool.and_eq_true_iff.2 ⟨sound_instr i, sound_raw code⟩

end

/-- Blocks of what is read are read from parts of the words. -/
theorem blocks_of_decode (words : List Nat) {i : Instr Raw} (hi : i ∈ decode words) {b : Code Raw} (hb : b ∈ i.blocks) :
    ∃ part, b = decode part ∧ part <:+: words ∧ part.length < words.length := by
  refine reading_induction (P := fun c code => ∀ i ∈ code, ∀ b ∈ i.blocks,
    ∃ part, b = decode part ∧ part <:+: c.rest ∧ part.length < c.rest.length) ?_ ?_ ?_
    _ ⟨0, words⟩ (Nat.lt_succ_self _) i hi b hb
  case refine_1 => exact fun c _ i hi => nomatch hi
  case refine_2 =>
    intro c e _ _ i hi b hb
    rw [List.mem_singleton.1 hi] at hb
    cases hb
  case refine_3 =>
    intro c i c' ws code _ taken read _ rest j hj b hb
    have length := taken.length
    rcases List.mem_cons.1 hj with rfl | hj
    · obtain ⟨part, hpart, inside, shorter⟩ := read.blocks hb
      refine ⟨part, hpart, inside.trans ⟨[], c'.rest, taken.rest.symm⟩, by omega⟩
    · obtain ⟨part, hpart, inside, shorter⟩ := rest j hj b hb
      refine ⟨part, hpart, inside.trans ⟨ws, [], ?_⟩, by omega⟩
      rw [List.append_nil, taken.rest]

/-- Code and its words are the same thing: the words of code are read as this code, one instruction after another, and
the lengths that are told for them add up to that of all words; words that are read without a defect are those of the
code that was found. Reading comes to an end on any words: no more fuel is needed than there are words, one walk goes
over them, and the blocks of what it finds are read from shorter parts of the words. -/
theorem code_and_words_are_inverse :
    (∀ code : Code Pooled, decode (encode code) = raw code ∧
      ∃ ns, Walk (encode code) 0 (raw code) ns ∧ ns.sum = (encode code).length) ∧
    (∀ words, (decode words).sound = true → ∃ code, decode words = raw code ∧ encode code = words) ∧
    ∀ words, (∀ fuel, words.length < fuel → readFrom fuel ⟨0, words⟩ = decode words) ∧
      (∃ ns, Walk words 0 (decode words) ns) ∧
      ∀ i ∈ decode words, ∀ b ∈ i.blocks, ∃ part, b = decode part ∧ part <:+: words ∧ part.length < words.length := by
  refine ⟨fun code => ⟨decode_encode code, ?_⟩, fun words => ?_, fun words => ⟨fun fuel h => ?_, ?_, ?_⟩⟩
  · obtain ⟨ns, walk⟩ := walk_decode (encode code)
    rw [decode_encode] at walk
    exact ⟨ns, walk, (Nat.zero_add _).symm.trans (walk.sum (sound_raw code))⟩
  · exact encode_of_sound _ ⟨0, words⟩ (Nat.lt_succ_self _)
  · exact readFrom_fuel (c := ⟨0, words⟩) h (Nat.lt_succ_self _)
  · exact walk_decode words
  · exact fun i hi b hb => blocks_of_decode words hi hb

end Code

end PegCompiler
