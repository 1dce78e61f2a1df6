/-
Look-ups in an index of positions tell what counting from the start of the text would tell, whatever was looked up
before. All that an index knows are positions after some beginning of its text (`Knows`), so a walk that goes on from
one of them ends where the walk from the start ends; and that is where counting in 32 bits ends
(`ofOffset_eq_counted`). In a text whose bytes 32 bits can number from one on, this is plain counting
(`inWords_counted`); a single line that is one byte longer ends in the column zero.
-/
import Mathlib.Data.List.Induction
import Mathlib.Data.Nat.Find
import PegCompiler.Proofs.Text.Input
import PegCompiler.Text.LineIndex

namespace PegCompiler

open Input

instance (s : String) : DecidablePred (Input.Boundary s) := fun pos =>
  inferInstanceAs (Decidable (String.Pos.Raw.IsValid s ⟨pos⟩))

namespace Position

/-- The position past more characters. -/
def past (p : Position) (cs : List Char) : Position := cs.foldl next p

/-- The position of an offset by counting. The offset is brought back to the end of the text and then to the start of
its character; the line is one more than there are ends of lines before it, the column one more than there are
characters since the last of them. -/
def counted (s : String) (offset : Nat) : Position :=
  let offset := Nat.findGreatest (Input.Boundary s) (min offset s.utf8ByteSize)
  let before := takeBytes s.toList offset
  ⟨offset, 1 + before.count '\n', 1 + (before.reverse.takeWhile (· ≠ '\n')).length⟩

/-- The position with its line and its column in 32 bits. -/
def inWords (p : Position) : Position := ⟨p.offset, p.line % 4294967296, p.column % 4294967296⟩

variable {p : Position} {a b cs : List Char} {bytes : Nat}

theorem past_append (p : Position) (a b : List Char) : p.past (a ++ b) = (p.past a).past b := List.foldl_append ..

theorem offset_past (p : Position) (cs : List Char) : (p.past cs).offset = p.offset + byteLength cs := by
  induction cs generalizing p with
  | nil => rfl
  | cons c cs ih =>
    have step : (p.next c).offset = p.offset + c.utf8Size := by
      unfold next
      split <;> rfl
    show ((p.next c).past cs).offset = _
    rw [ih, step, byteLength_cons, Nat.add_assoc]

/-! ## Walks -/

/-- A walk goes over the characters that lie within its bytes, and stops before one that does not. -/
theorem exists_walk (p : Position) (cs : List Char) (bytes : Nat) : ∃ a b, cs = a ++ b ∧ p.walk cs bytes = p.past a ∧
    byteLength a ≤ bytes ∧ ∀ c ∈ b.head?, bytes < byteLength a + c.utf8Size := by
  induction cs generalizing p bytes with
  | nil => exact ⟨[], [], rfl, rfl, Nat.zero_le _, nofun⟩
  | cons c cs ih =>
    unfold walk
    split
    · rename_i hc
      obtain ⟨a, b, rfl, hw, ha, hb⟩ := ih (p.next c) (bytes - c.utf8Size)
      refine ⟨c :: a, b, rfl, hw, ?_, fun d hd => ?_⟩
      · rw [byteLength_cons]; omega
      · have := hb d hd
        rw [byteLength_cons]; omega
    · rename_i hc
      refine ⟨[], c :: cs, rfl, rfl, Nat.zero_le _, fun d hd => ?_⟩
      cases hd
      show bytes < 0 + _
      omega

/-- A walk may be interrupted. -/
theorem walk_append (p : Position) (a b : List Char) (bytes : Nat) :
    p.walk (a ++ b) (byteLength a + bytes) = (p.past a).walk b bytes := by
  induction a generalizing p with
  | nil => show p.walk b (0 + bytes) = _; rw [Nat.zero_add]; rfl
  | cons c a ih =>
    rw [List.cons_append, walk, byteLength_cons, if_pos (by omega)]
    show _ = ((p.next c).past a).walk b bytes
    rw [← ih, Nat.add_assoc, Nat.add_sub_cancel_left]

/-! ## Counting -/

theorem first_past (cs : List Char) : first.past cs =
    inWords ⟨byteLength cs, 1 + cs.count '\n', 1 + (cs.reverse.takeWhile (· ≠ '\n')).length⟩ := by
  induction cs using List.reverseRecOn with
  | nil => rfl
  | append_singleton cs c ih =>
    have size : byteLength (cs ++ [c]) = byteLength cs + c.utf8Size := by
      rw [byteLength_append, byteLength_cons]; rfl
    rw [past_append, ih, size, List.reverse_append]
    show next _ c = _
    by_cases hc : c = '\n'
    · simp [next, nextWord, inWords, hc, Nat.add_assoc]
    · simp [next, nextWord, inWords, hc, List.count_append]
      omega

theorem ofOffset_eq_counted (s : String) (offset : Nat) : ofOffset s.toList offset = (counted s offset).inWords := by
  obtain ⟨a, b, hs, hw, ha, hb⟩ := exists_walk first s.toList offset
  have size : s.utf8ByteSize = byteLength a + byteLength b := by rw [← byteLength_toList, hs, byteLength_append]
  have greatest : Nat.findGreatest (Input.Boundary s) (min offset s.utf8ByteSize) = byteLength a := by
    refine Nat.findGreatest_eq_iff.2 ⟨by omega, fun _ => boundary_iff.2 ⟨a, b, hs, rfl⟩, fun n hlt hle hn => ?_⟩
    -- a later boundary is at least one character of `b` further on
    obtain ⟨before, after, hs', rfl⟩ := boundary_iff.1 hn
    rcases List.append_eq_append_iff.1 (hs.symm.trans hs') with ⟨more, rfl, hb'⟩ | ⟨more, rfl, -⟩
    · rw [byteLength_append] at hlt hle
      cases more with
      | nil => exact absurd hlt (by show ¬ _ < _ + 0; omega)
      | cons c more =>
        have := hb c (by rw [hb']; rfl)
        rw [byteLength_cons] at hle
        omega
    · rw [byteLength_append] at hlt
      omega
  unfold ofOffset counted
  rw [hw, greatest, first_past]
  simp only [hs, takeBytes_append]

theorem counted_of_boundary {s : String} {offset : Nat} (h : Input.Boundary s offset) :
    (counted s offset).offset = offset := by
  have inside : min offset s.utf8ByteSize = offset := Nat.min_eq_left h.le_size
  show Nat.findGreatest (Input.Boundary s) (min offset s.utf8ByteSize) = offset
  rw [inside]
  exact Nat.findGreatest_eq h

theorem length_le_byteLength (cs : List Char) : cs.length ≤ byteLength cs := by
  induction cs with
  | nil => exact Nat.zero_le _
  | cons c cs ih =>
    have := c.utf8Size_pos
    rw [List.length_cons, byteLength_cons]
    omega

theorem byteLength_takeBytes_le (cs : List Char) : byteLength (takeBytes cs bytes) ≤ byteLength cs := by
  induction cs generalizing bytes with
  | nil => exact Nat.le_refl _
  | cons c cs ih =>
    unfold takeBytes
    split
    · exact Nat.zero_le _
    · rw [byteLength_cons, byteLength_cons]
      exact Nat.add_le_add_left ih _

/-- Lines and columns count no further than bytes. -/
theorem counted_le (s : String) (offset : Nat) :
    (counted s offset).line ≤ s.utf8ByteSize + 1 ∧ (counted s offset).column ≤ s.utf8ByteSize + 1 := by
  have count (cs : List Char) (inside : byteLength cs ≤ s.utf8ByteSize) : 1 + cs.count '\n' ≤ s.utf8ByteSize + 1 ∧
      1 + (cs.reverse.takeWhile (· ≠ '\n')).length ≤ s.utf8ByteSize + 1 := by
    have bytes := length_le_byteLength cs
    have lines := List.count_le_length (a := '\n') (l := cs)
    have columns := (List.takeWhile_sublist (l := cs.reverse) (· ≠ '\n')).length_le
    rw [List.length_reverse] at columns
    omega
  exact count _ (byteLength_toList s ▸ byteLength_takeBytes_le s.toList)

/-- In a text of fewer bytes than the greatest number of 32 bits, these count lines and columns. -/
theorem inWords_counted {s : String} (short : s.utf8ByteSize < 4294967295) (offset : Nat) :
    (counted s offset).inWords = counted s offset := by
  obtain ⟨line, column⟩ := counted_le s offset
  unfold inWords
  rw [Nat.mod_eq_of_lt (by omega), Nat.mod_eq_of_lt (by omega)]

end Position

theorem dropBytes_append (a b : List Char) : dropBytes (a ++ b) (byteLength a) = b := by
  induction a with
  | nil => cases b <;> simp [dropBytes, byteLength]
  | cons c a ih =>
    have := c.utf8Size_pos
    rw [List.cons_append, byteLength_cons, dropBytes, if_neg (by omega), Nat.add_sub_cancel_left, ih]

namespace LineIndex

/-- All that the index knows are positions after a beginning of the text. -/
def Knows (i : LineIndex) (text : List Char) : Prop :=
  ∀ p ∈ i.known, ∃ a b, text = a ++ b ∧ p = Position.first.past a

/-- The positions of offsets, asked for one after the other. -/
def findAll (i : LineIndex) (text : List Char) : List Nat → List Position
  | [] => []
  | offset :: offsets => (i.find text offset).1 :: findAll (i.find text offset).2 text offsets

variable {i : LineIndex} {text : List Char}

theorem knows_empty (text : List Char) : empty.Knows text := fun p hp => by
  rw [List.mem_singleton.1 hp]
  exact ⟨[], text, rfl, rfl⟩

/-- The nearest position is one that is known, or the start, and not after the offset. -/
theorem nearest_spec (h : i.Knows text) (offset : Nat) :
    ∃ a b, text = a ++ b ∧ i.nearest offset = Position.first.past a ∧ byteLength a ≤ offset := by
  -- of all positions that are looked at, the best so far is such a one
  have best : ∀ (known : List Position) (best : Position), (∀ p ∈ known, ∃ a b, text = a ++ b ∧ p = Position.first.past a) →
      (∃ a b, text = a ++ b ∧ best = Position.first.past a ∧ byteLength a ≤ offset) →
      ∃ a b, text = a ++ b ∧ known.foldl (fun best p => if p.offset ≤ offset && best.offset ≤ p.offset then p else best)
        best = Position.first.past a ∧ byteLength a ≤ offset := by
    intro known
    induction known with
    | nil => exact fun _ _ h => h
    | cons p known ih =>
      intro best hknown hbest
      refine ih _ (fun q hq => hknown q (List.mem_cons_of_mem _ hq)) ?_
      beta_reduce
      split
      · rename_i hp
        obtain ⟨a, b, htext, rfl⟩ := hknown p List.mem_cons_self
        rw [Bool.and_eq_true, decide_eq_true_iff, Position.offset_past] at hp
        exact ⟨a, b, htext, rfl, Nat.zero_add (byteLength a) ▸ hp.1⟩
      · exact hbest
  exact best i.known .first h ⟨[], text, rfl, rfl, Nat.zero_le _⟩

/-- A look-up tells the position of the offset, and what the index knows then is still right. -/
theorem find_spec (h : i.Knows text) (offset : Nat) :
    (i.find text offset).1 = Position.ofOffset text offset ∧ (i.find text offset).2.Knows text := by
  obtain ⟨a, b, rfl, hnear, hle⟩ := nearest_spec h offset
  have near : (i.nearest offset).offset = byteLength a := by
    rw [hnear, Position.offset_past]
    exact Nat.zero_add _
  obtain ⟨more, after, rfl, hwalk, -, -⟩ := Position.exists_walk (Position.first.past a) b (offset - byteLength a)
  have whole : Position.ofOffset (a ++ (more ++ after)) offset = Position.first.past (a ++ more) := by
    unfold Position.ofOffset
    rw [← Nat.add_sub_cancel' hle, Position.walk_append, hwalk, Position.past_append]
  unfold find
  dsimp only
  rw [near, dropBytes_append, hnear, hwalk, ← Position.past_append, whole]
  split
  · rename_i hsame
    rw [Position.offset_past, byteLength_append] at hsame
    cases more with
    | nil => exact ⟨by rw [List.append_nil], h⟩
    | cons c more =>
      have := byteLength_pos (List.cons_ne_nil c more)
      exact absurd hsame (by show ¬ 0 + _ = _; omega)
  · refine ⟨rfl, fun p hp => ?_⟩
    rcases List.mem_cons.1 hp with rfl | hp
    · exact ⟨a ++ more, after, (List.append_assoc ..).symm, rfl⟩
    · exact h p hp

theorem findAll_eq (h : i.Knows text) (offsets : List Nat) :
    i.findAll text offsets = offsets.map (Position.ofOffset text) := by
  induction offsets generalizing i with
  | nil => rfl
  | cons offset offsets ih =>
    obtain ⟨same, knows⟩ := find_spec h offset
    rw [findAll, same, ih knows, List.map_cons]

theorem findAll_empty (s : String) (offsets : List Nat) :
    empty.findAll s.toList offsets = offsets.map fun offset => (Position.counted s offset).inWords := by
  rw [findAll_eq (knows_empty _)]
  exact List.map_congr_left fun offset _ => Position.ofOffset_eq_counted s offset

/-- Whatever offsets of a text are looked up, in whatever order and however often, each answer is what counting gives,
if the text is so short that no line and no column needs more than 32 bits. -/
theorem look_ups_count {s : String} (short : s.utf8ByteSize < 4294967295) (offsets : List Nat) :
    empty.findAll s.toList offsets = offsets.map (Position.counted s) := by
  rw [findAll_empty]
  exact List.map_congr_left fun offset _ => Position.inWords_counted short offset

/-- Look-ups out of order, past the end and inside of a character. -/
theorem look_ups_count_anywhere : "žl\nuť".utf8ByteSize < 4294967295 ∧
    empty.findAll "žl\nuť".toList [100, 4, 1, 4, 7] = [100, 4, 1, 4, 7].map (Position.counted "žl\nuť") ∧
    [100, 4, 1, 4, 7].map (Position.counted "žl\nuť") = [⟨7, 2, 3⟩, ⟨4, 2, 1⟩, ⟨0, 1, 1⟩, ⟨4, 2, 1⟩, ⟨7, 2, 3⟩] :=
  have short : "žl\nuť".utf8ByteSize < 4294967295 := by decide
  ⟨short, look_ups_count short _, by decide⟩

/-! ## A line that is too long -/

/-- A single line of some length. -/
def lineOf (length : Nat) : String := String.ofList (List.replicate length 'a')

theorem byteLength_replicate (n : Nat) : byteLength (List.replicate n 'a') = n := by
  induction n with
  | zero => rfl
  | succ n ih =>
    rw [List.replicate_succ, byteLength_cons, ih]
    exact Nat.add_comm 1 n

theorem utf8ByteSize_lineOf (n : Nat) : (lineOf n).utf8ByteSize = n := by
  rw [lineOf, ← byteLength_eq, byteLength_replicate]

/-- A line ends in the column after its last character. -/
theorem counted_lineOf (n : Nat) : Position.counted (lineOf n) n = ⟨n, 1, n + 1⟩ := by
  have whole : Input.Boundary (lineOf n) n :=
    boundary_iff.2 ⟨_, [], (List.append_nil _).symm, by rw [lineOf, String.toList_ofList, byteLength_replicate]⟩
  have greatest : Nat.findGreatest (Input.Boundary (lineOf n)) (min n (lineOf n).utf8ByteSize) = n := by
    rw [utf8ByteSize_lineOf, Nat.min_self]
    exact Nat.findGreatest_eq whole
  have before : takeBytes (lineOf n).toList n = List.replicate n 'a' := by
    have all := takeBytes_append (List.replicate n 'a') []
    rw [List.append_nil, byteLength_replicate] at all
    rw [lineOf, String.toList_ofList, all]
  unfold Position.counted
  dsimp only
  rw [greatest, before, List.reverse_replicate, List.takeWhile_replicate, List.count_replicate]
  simp [Nat.add_comm]

/-- A line of as many bytes as the greatest number of 32 bits has one column more, which is told as zero. -/
theorem last_column_of_longest_line : (lineOf 4294967295).utf8ByteSize < 4294967296 ∧
    empty.findAll (lineOf 4294967295).toList [4294967295] = [⟨4294967295, 1, 0⟩] ∧
    Position.counted (lineOf 4294967295) 4294967295 = ⟨4294967295, 1, 4294967296⟩ := by
  have counted := counted_lineOf 4294967295
  refine ⟨by rw [utf8ByteSize_lineOf]; decide, ?_, counted⟩
  rw [findAll_empty, List.map_cons, List.map_nil, counted]
  rfl

end LineIndex

end PegCompiler
