/-
What is written as JSON is read again. A value that holds only whole numbers of 64 bits, and nothing that stands for
none, is what the text denotes that it is written as, whatever characters are in its strings.
-/
import Mathlib.Data.List.TakeDrop
import PegCompiler.Json.Printer
import PegCompiler.Json.Reader

namespace PegCompiler.Json

open Reader

/-! ## Digits -/

theorem digitsValue_toDigits (n : Nat) : digitsValue (Nat.toDigits 10 n) = n := by
  have value := Nat.ofDigitChars_toDigits (b := 10) (n := n) (by decide) (by decide)
  unfold Nat.ofDigitChars at value
  unfold digitsValue Magnitude.digit
  simpa only [Nat.mul_comm] using value

theorem isDigit_of_mem_toDigits {n : Nat} {c : Char} (h : c ∈ Nat.toDigits 10 n) : c.isDigit = true :=
  Nat.isDigit_of_mem_toDigits (by decide) (by decide) h

/-- A number but zero begins with another digit. -/
theorem head_toDigits {n : Nat} (hn : 0 < n) : (Nat.toDigits 10 n).head? ≠ some '0' := by
  induction n using Nat.strongRecOn with
  | ind n ih =>
    rw [Nat.toDigits_eq_if (by decide)]
    split
    · rename_i small
      have each : ∀ m < 10, 0 < m → [m.digitChar].head? ≠ some '0' := by decide
      exact each n small hn
    · rw [List.head?_append]
      cases hds : Nat.toDigits 10 (n / 10) with
      | nil => exact absurd hds Nat.toDigits_ne_nil
      | cons d ds =>
        have first := ih (n / 10) (by omega) (by omega)
        rw [hds] at first
        exact first

/-- Text that cannot go on with a number. -/
def EndsNumber : List Char → Prop
  | [] => True
  | c :: _ => c.isDigit = false ∧ c ≠ '.' ∧ c ≠ 'e' ∧ c ≠ 'E'

theorem endsNumber_cons {c : Char} {cs : List Char} (h : c.isDigit = false ∧ c ≠ '.' ∧ c ≠ 'e' ∧ c ≠ 'E') :
    EndsNumber (c :: cs) := h

theorem digits_append {ds rest : List Char} (hds : ∀ c ∈ ds, c.isDigit = true) (hrest : EndsNumber rest) :
    digits (ds ++ rest) = (ds, rest) := by
  unfold digits
  rw [List.span_eq_takeWhile_dropWhile, List.takeWhile_append_of_pos hds, List.dropWhile_append_of_pos hds]
  cases rest with
  | nil => simp
  | cons c rest => simp [hrest.1]

/-! ## Numbers -/

theorem le_foldl_digits (ds : List Char) (n : Nat) : n ≤ ds.foldl (fun n d => n * 10 + Magnitude.digit d) n := by
  induction ds generalizing n with
  | nil => exact Nat.le_refl n
  | cons d ds ih => exact Nat.le_trans (by omega) (ih (n * 10 + Magnitude.digit d))

namespace Magnitude

/-- All digits of a number of 64 bits find room. -/
theorem append_of_lt {ds : List Char} {n : Nat}
    (h : ds.foldl (fun n d => n * 10 + digit d) n < 18446744073709551616) :
    append n ds = (ds.foldl (fun n d => n * 10 + digit d) n, []) := by
  induction ds generalizing n with
  | nil => rfl
  | cons d ds ih =>
    have next : n * 10 + digit d < 18446744073709551616 := Nat.lt_of_le_of_lt (le_foldl_digits ds _) h
    unfold append
    rw [if_pos next]
    exact ih h

theorem nearest_le {n : Nat} (hn : n ≠ 0) : nearest n ≤ 2 * n := by
  have unit_le : Nat.pow 2 (n.log2 - 52) ≤ n :=
    Nat.le_trans (Nat.pow_le_pow_right (by decide) (Nat.sub_le _ _)) (Nat.log2_self_le hn)
  have below_le : n / Nat.pow 2 (n.log2 - 52) * Nat.pow 2 (n.log2 - 52) ≤ n := Nat.div_mul_le_self _ _
  unfold nearest
  dsimp only
  generalize Nat.pow 2 (n.log2 - 52) = unit at unit_le below_le
  split
  · rw [Nat.add_mul]
    omega
  · omega

theorem isTooLarge_of_lt {ds : List Char} (h : digitsValue ds < 18446744073709551616) : isTooLarge ds [] 0 = false := by
  have room : append 0 ds = (digitsValue ds, []) := append_of_lt h
  have one : nearest (Nat.pow 10 (0 : Int).toNat) = 1 := by decide
  have large : 2 * 18446744073709551616 < limit := by decide +kernel
  unfold isTooLarge
  rw [room]
  show (if decide (digitsValue ds = 0) || decide ((0 : Int) < 0) then false
    else if (maxPower : Int) < 0 then true
    else decide (limit ≤ nearest (digitsValue ds) * nearest (Nat.pow 10 (0 : Int).toNat))) = false
  rw [one, Nat.mul_one]
  by_cases zero : digitsValue ds = 0
  · simp [zero]
  · have small := nearest_le zero
    have below : ¬ limit ≤ nearest (digitsValue ds) := by omega
    simp [zero, below]

end Magnitude

theorem fraction?_of_ends {rest : List Char} (h : EndsNumber rest) : fraction? rest = some ([], rest) := by
  cases rest with
  | nil => rfl
  | cons c rest =>
    unfold fraction?
    split
    · rename_i same
      cases same
      exact absurd rfl h.2.1
    · rfl

theorem exponent?_of_ends {rest : List Char} (h : EndsNumber rest) : exponent? rest = some ([], 0, rest) := by
  cases rest with
  | nil => rfl
  | cons c rest => simp [exponent?, h.2.2.1, h.2.2.2]

theorem sign_of_isDigit {ds rest : List Char} (hne : ds ≠ []) (hds : ∀ c ∈ ds, c.isDigit = true) :
    sign (ds ++ rest) = ([], ds ++ rest) := by
  cases ds with
  | nil => exact absurd rfl hne
  | cons d ds =>
    have digit := hds d List.mem_cons_self
    unfold sign
    split
    · rename_i same
      cases same
      cases digit
    · rfl

/-- A number is read after its sign, which zero has none of. -/
theorem number_of_sign {cs mark rest : List Char} {n : Nat} (hn : n < 18446744073709551616) (hrest : EndsNumber rest)
    (hsign : sign cs = (mark, Nat.toDigits 10 n ++ rest)) (hzero : n = 0 → mark = []) :
    number cs = some (.int (if mark.isEmpty then n else -n), rest) := by
  have whole : digits (Nat.toDigits 10 n ++ rest) = (Nat.toDigits 10 n, rest) :=
    digits_append (fun c => isDigit_of_mem_toDigits) hrest
  have small : Magnitude.isTooLarge (Nat.toDigits 10 n) [] 0 = false :=
    Magnitude.isTooLarge_of_lt (by rwa [digitsValue_toDigits])
  have well : ¬ ((Nat.toDigits 10 n).isEmpty ||
      ((Nat.toDigits 10 n).length > 1 && (Nat.toDigits 10 n).head? == some '0')) = true := by
    rcases Nat.eq_zero_or_pos n with rfl | hn
    · decide
    · simp [head_toDigits hn]
  have signed : (!(decide (n = 0) && !mark.isEmpty)) = true := by
    by_cases zero : n = 0
    · simp [hzero zero]
    · simp [zero]
  unfold number
  rw [hsign]
  dsimp only
  rw [whole]
  dsimp only
  rw [if_neg well, fraction?_of_ends hrest]
  simp [exponent?_of_ends hrest, ofParts, small, signed, digitsValue_toDigits]

/-- What a number is written as is read as that number. -/
theorem number_toString {n : Int} (hn : n.natAbs < 18446744073709551616) {rest : List Char} (hrest : EndsNumber rest) :
    number ((toString n).toList ++ rest) = some (.int n, rest) := by
  cases n with
  | ofNat n =>
    show number (n.repr.toList ++ rest) = _
    rw [Nat.toList_repr]
    exact number_of_sign hn hrest (sign_of_isDigit Nat.toDigits_ne_nil fun c => isDigit_of_mem_toDigits) fun _ => rfl
  | negSucc n =>
    show number (("-" ++ (n + 1).repr).toList ++ rest) = _
    rw [String.toList_append, Nat.toList_repr]
    have minus : sign ('-' :: (Nat.toDigits 10 (n + 1) ++ rest)) = (['-'], Nat.toDigits 10 (n + 1) ++ rest) := rfl
    exact number_of_sign hn hrest minus nofun

/-! ## Strings -/

theorem hexWord?_low (n : Nat) (h : n < 32) :
    hexWord? '0' '0' (Nat.digitChar (n / 16)) (Nat.digitChar (n % 16)) = some n := by
  revert n
  decide

theorem stringBody_plain {c : Char} (quote : c ≠ '"') (backslash : c ≠ '\\') (printed : ¬ c.toNat < 0x20)
    (done rest : List Char) : stringBody (some done) (c :: rest) = stringBody (some (c :: done)) rest := by
  rw [stringBody.eq_def]
  split
  · rename_i same; cases same
  · rename_i same; cases same; exact absurd rfl quote
  · rename_i same; cases same; exact absurd rfl backslash
  · rename_i same; cases same; exact absurd rfl backslash
  · rename_i same; cases same; exact if_neg printed

/-- What a character is written as is read as that character. -/
theorem stringBody_escapeChar (c : Char) (done rest : List Char) :
    stringBody (some done) ((escapeChar c).toList ++ rest) = stringBody (some (c :: done)) rest := by
  unfold escapeChar
  split
  · subst c; rfl
  split
  · subst c; rfl
  split
  · subst c; rfl
  split
  · subst c; rfl
  split
  · subst c; rfl
  split
  · subst c; rfl
  split
  · subst c; rfl
  rename_i quote backslash _ _ _ _ _
  split
  · -- Two digits in base sixteen tell such a character, and no half of a pair is that low.
    rename_i low
    have written : ("\\u00" ++ String.ofList [Nat.digitChar (c.toNat / 16), Nat.digitChar (c.toNat % 16)]).toList =
        ['\\', 'u', '0', '0', Nat.digitChar (c.toNat / 16), Nat.digitChar (c.toNat % 16)] := by
      simp
    have noSurrogate : ¬ ((0xD800 ≤ c.toNat && c.toNat < 0xDC00) = true) ∧
        ¬ ((0xDC00 ≤ c.toNat && c.toNat < 0xE000) = true) := by
      constructor <;> simp <;> omega
    rw [written]
    show stringBody (some done) ('\\' :: 'u' :: '0' :: '0' :: _ :: _ :: rest) = _
    rw [stringBody, hexWord?_low _ low]
    dsimp only
    rw [if_neg noSurrogate.1, if_neg noSurrogate.2, Char.ofNat_toNat]
    rfl
  · rename_i printed
    have written : c.toString.toList = [c] := by simp
    rw [written]
    exact stringBody_plain quote backslash printed done rest

theorem toList_foldl_escapeChar (cs : List Char) (text : String) :
    (cs.foldl (fun text c => text ++ escapeChar c) text).toList =
      text.toList ++ cs.flatMap fun c => (escapeChar c).toList := by
  induction cs generalizing text with
  | nil => simp
  | cons c cs ih => simp [ih]

theorem toList_quote (s : String) :
    (quote s).toList = '"' :: (s.toList.flatMap (fun c => (escapeChar c).toList) ++ ['"']) := by
  unfold quote
  rw [String.foldl_eq_foldl_toList, String.toList_append, String.toList_append, toList_foldl_escapeChar]
  rfl

theorem stringBody_escaped (cs done rest : List Char) :
    stringBody (some done) (cs.flatMap (fun c => (escapeChar c).toList) ++ '"' :: rest) =
      some (some (String.ofList (done.reverse ++ cs)), rest) := by
  induction cs generalizing done with
  | nil =>
    rw [List.append_nil]
    rfl
  | cons c cs ih =>
    rw [List.flatMap_cons, List.append_assoc, stringBody_escapeChar, ih]
    simp

theorem stringBody_quote (s : String) (rest : List Char) :
    ∃ body, (quote s).toList ++ rest = '"' :: body ∧ stringBody (some []) body = some (some s, rest) := by
  refine ⟨s.toList.flatMap (fun c => (escapeChar c).toList) ++ '"' :: rest, by simp [toList_quote], ?_⟩
  rw [stringBody_escaped]
  simp

/-! ## Values -/

mutual

/-- Whole numbers of 64 bits are all the numbers in a value, and it has no part that stands for nothing. -/
def Plain : Json → Prop
  | null | bool _ | str _ => True
  | int n => n.natAbs < 18446744073709551616
  | real _ | unreadable _ => False
  | arr items => PlainItems items
  | obj fields => PlainFields fields

def PlainItems : List Json → Prop
  | [] => True
  | j :: rest => j.Plain ∧ PlainItems rest

def PlainFields : List (String × Json) → Prop
  | [] => True
  | (_, j) :: rest => j.Plain ∧ PlainFields rest

end

@[simp]
theorem plainFields_append {fs gs : List (String × Json)} : PlainFields (fs ++ gs) ↔ PlainFields fs ∧ PlainFields gs := by
  induction fs with
  | nil => simp [PlainFields]
  | cons f fs ih =>
    obtain ⟨key, j⟩ := f
    simp [PlainFields, ih, and_assoc]

theorem plainItems_iff {items : List Json} : PlainItems items ↔ ∀ j ∈ items, j.Plain := by
  induction items with
  | nil => simp [PlainItems]
  | cons j items ih => simp [PlainItems, ih]

theorem plainFields_iff {fields : List (String × Json)} : PlainFields fields ↔ ∀ f ∈ fields, f.2.Plain := by
  induction fields with
  | nil => simp [PlainFields]
  | cons f fields ih => simp [PlainFields, ih]

mutual

theorem isReadable_of_plain : ∀ (j : Json), j.Plain → j.isReadable = true
  | null, _ | bool _, _ | str _, _ | int _, _ => rfl
  | real _, h => h.elim
  | unreadable _, h => h.elim
  | arr items, h => itemsReadable_of_plain items h
  | obj fields, h => fieldsReadable_of_plain fields h

theorem itemsReadable_of_plain : ∀ (items : List Json), PlainItems items → itemsReadable items = true
  | [], _ => rfl
  | j :: rest, h => by rw [itemsReadable, isReadable_of_plain j h.1, itemsReadable_of_plain rest h.2]; rfl

theorem fieldsReadable_of_plain : ∀ (fields : List (String × Json)), PlainFields fields → fieldsReadable fields = true
  | [], _ => rfl
  | (_, j) :: rest, h => by rw [fieldsReadable, isReadable_of_plain j h.1, fieldsReadable_of_plain rest h.2]; rfl

end

/-- What a value that is written can begin with. -/
def Opens (c : Char) : Prop := c ∉ [' ', '\n', '\t', '\r', ']', '\x7d']

instance (c : Char) : Decidable (Opens c) := inferInstanceAs (Decidable (c ∉ _))

/-- What a number that is written can begin with. -/
def Numeral (c : Char) : Prop := c.isDigit = true ∨ c = '-'

theorem exists_numeral (n : Int) : ∃ c cs, (toString n).toList = c :: cs ∧ Numeral c := by
  cases n with
  | ofNat n =>
    show ∃ c cs, n.repr.toList = c :: cs ∧ Numeral c
    rw [Nat.toList_repr]
    cases hds : Nat.toDigits 10 n with
    | nil => exact absurd hds Nat.toDigits_ne_nil
    | cons d ds => exact ⟨d, ds, rfl, .inl (isDigit_of_mem_toDigits (hds ▸ List.mem_cons_self))⟩
  | negSucc n => exact ⟨'-', _, String.toList_append, .inr rfl⟩

theorem opens_of_numeral {c : Char} (h : Numeral c) : Opens c := by
  intro hc
  simp only [List.mem_cons, List.not_mem_nil, or_false] at hc
  rcases hc with rfl | rfl | rfl | rfl | rfl | rfl <;> rcases h with h | h <;> cases h

theorem toList_compact_arr (items : List Json) :
    (arr items).compact.toList = '[' :: ((compactItems "" items).toList ++ [']']) := by
  simp [compact]

theorem toList_compact_obj (fields : List (String × Json)) :
    (obj fields).compact.toList = '\x7b' :: ((compactFields "" fields).toList ++ ['\x7d']) := by
  simp [compact]

theorem exists_opens {j : Json} (h : j.Plain) : ∃ c cs, j.compact.toList = c :: cs ∧ Opens c := by
  cases j with
  | null => exact ⟨'n', _, rfl, by decide⟩
  | bool b => cases b <;> exact ⟨_, _, rfl, by decide⟩
  | int n =>
    obtain ⟨c, cs, text, numeral⟩ := exists_numeral n
    exact ⟨c, cs, text, opens_of_numeral numeral⟩
  | str s => exact ⟨'"', _, toList_quote s, by decide⟩
  | arr items => exact ⟨'[', _, toList_compact_arr items, by decide⟩
  | obj fields => exact ⟨'\x7b', _, toList_compact_obj fields, by decide⟩
  | real => exact h.elim
  | unreadable => exact h.elim

theorem exists_opens_items {j : Json} (h : j.Plain) (js : List Json) :
    ∃ c cs, (compactItems "" (j :: js)).toList = c :: cs ∧ Opens c := by
  obtain ⟨c, cs, text, opens⟩ := exists_opens h
  exact ⟨c, cs ++ (compactItems "," js).toList, by simp [compactItems, text], opens⟩

theorem skipBlanks_of_opens {c : Char} (h : Opens c) (cs : List Char) : skipBlanks (c :: cs) = c :: cs := by
  simp only [Opens, List.mem_cons, List.not_mem_nil, or_false, not_or] at h
  simp [skipBlanks, h]

theorem toList_compactItems_cons (j : Json) (js : List Json) (hjs : js ≠ []) :
    (compactItems "" (j :: js)).toList = j.compact.toList ++ ',' :: (compactItems "" js).toList := by
  cases js with
  | nil => exact absurd rfl hjs
  | cons j' js => simp [compactItems, String.append_assoc]

theorem toList_compactFields_singleton (key : String) (j : Json) :
    (compactFields "" [(key, j)]).toList = (quote key).toList ++ ':' :: j.compact.toList := by
  simp [compactFields]

theorem toList_compactFields_cons (key : String) (j : Json) (fs : List (String × Json)) (hfs : fs ≠ []) :
    (compactFields "" ((key, j) :: fs)).toList =
      (quote key).toList ++ ':' :: (j.compact.toList ++ ',' :: (compactFields "" fs).toList) := by
  cases fs with
  | nil => exact absurd rfl hfs
  | cons f fs => obtain ⟨key', j'⟩ := f; simp [compactFields, String.append_assoc]

theorem exists_quote_fields (key : String) (j : Json) (fs : List (String × Json)) :
    ∃ cs, (compactFields "" ((key, j) :: fs)).toList = '"' :: cs := by
  have text : (compactFields "" ((key, j) :: fs)).toList =
      (quote key).toList ++ (":" ++ j.compact ++ compactFields "," fs).toList := by
    simp [compactFields, String.append_assoc]
  rw [text, toList_quote]
  exact ⟨_, rfl⟩

/-! ### Steps of reading -/

section Steps

variable {fuel : Nat} {cs more rest : List Char} {j : Json} {js : List Json} {fs : List (String × Json)}

theorem value_of_number {c : Char} (h : Numeral c) : value (fuel + 1) (c :: cs) = number (c :: cs) := by
  unfold value
  rw [skipBlanks_of_opens (opens_of_numeral h)]
  split
  all_goals first | rfl | skip
  all_goals
    rename_i same
    cases same
    rcases h with h | h <;> cases h

theorem value_of_string {s : String} (h : stringBody (some []) cs = some (some s, rest)) :
    value (fuel + 1) ('"' :: cs) = some (.str s, rest) := by
  show (stringBody (some []) cs).map _ = _
  rw [h]
  rfl

theorem value_bracket (fuel : Nat) (cs : List Char) : value (fuel + 1) ('[' :: cs) =
    match skipBlanks cs with
    | ']' :: rest => some (.arr [], rest)
    | _ => (items fuel cs).map fun (js, rest) => (.arr js, rest) := rfl

theorem value_of_items {c : Char} (opens : Opens c) (h : items fuel (c :: cs) = some (js, rest)) :
    value (fuel + 1) ('[' :: c :: cs) = some (.arr js, rest) := by
  rw [value_bracket, skipBlanks_of_opens opens, h]
  split
  · rename_i same
    cases same
    exact absurd opens (by decide)
  · rfl

theorem value_of_members (h : members fuel ('"' :: cs) = some (some fs, rest)) :
    value (fuel + 1) ('\x7b' :: '"' :: cs) = some (.obj fs, rest) := by
  show (members fuel ('"' :: cs)).map _ = _
  rw [h]
  rfl

theorem items_of_last (h : value fuel cs = some (j, ']' :: rest)) : items (fuel + 1) cs = some ([j], rest) := by
  unfold items
  rw [h]
  rfl

theorem items_of_more (h : value fuel cs = some (j, ',' :: more)) (hmore : items fuel more = some (js, rest)) :
    items (fuel + 1) cs = some (j :: js, rest) := by
  unfold items
  rw [h]
  show (items fuel more).map _ = _
  rw [hmore]
  rfl

theorem members_of_last {key : String} (h : value fuel cs = some (j, '\x7d' :: rest)) :
    members (fuel + 1) ((quote key).toList ++ ':' :: cs) = some (some [(key, j)], rest) := by
  obtain ⟨body, text, read⟩ := stringBody_quote key (':' :: cs)
  have colon : Opens ':' := by decide
  rw [text, members, skipBlanks_of_opens (by decide)]
  simp only [read, skipBlanks_of_opens colon, h]
  rfl

theorem members_of_more {key : String} (h : value fuel cs = some (j, ',' :: more))
    (hmore : members fuel more = some (some fs, rest)) :
    members (fuel + 1) ((quote key).toList ++ ':' :: cs) = some (some ((key, j) :: fs), rest) := by
  obtain ⟨body, text, read⟩ := stringBody_quote key (':' :: cs)
  have colon : Opens ':' := by decide
  rw [text, members, skipBlanks_of_opens (by decide)]
  simp only [read, skipBlanks_of_opens colon, h]
  show (members fuel more).map _ = _
  rw [hmore]
  rfl

end Steps

/-! ### Texts of values -/

theorem exists_fuel {n fuel : Nat} (h : n < fuel) : ∃ less, fuel = less + 1 :=
  Nat.exists_eq_add_one_of_ne_zero (Nat.ne_of_gt (Nat.zero_lt_of_lt h))

mutual

-- A bracket, a comma or a key stands before everything that is nested, so the length of the text bounds the fuel.

/-- What a value is written as is read as that value. -/
theorem value_compact : ∀ (j : Json), j.Plain → ∀ (fuel : Nat) (rest : List Char), j.compact.toList.length < fuel →
    EndsNumber rest → value fuel (j.compact.toList ++ rest) = some (j, rest)
  | .null, _ | .bool true, _ | .bool false, _ | .arr [], _ | .obj [], _ => by
    intro fuel rest hfuel _
    obtain ⟨fuel, rfl⟩ := exists_fuel hfuel
    rfl
  | .int n, hj => by
    intro fuel rest hfuel hrest
    obtain ⟨fuel, rfl⟩ := exists_fuel hfuel
    obtain ⟨c, cs, text, numeral⟩ := exists_numeral n
    have read := number_toString hj hrest
    show value (fuel + 1) ((toString n).toList ++ rest) = _
    rw [text] at read ⊢
    exact (value_of_number numeral).trans read
  | .str s, _ => by
    intro fuel rest hfuel _
    obtain ⟨fuel, rfl⟩ := exists_fuel hfuel
    obtain ⟨body, text, read⟩ := stringBody_quote s rest
    unfold compact
    rw [text]
    exact value_of_string read
  | .arr (j :: js), hj => by
    intro fuel rest hfuel _
    obtain ⟨fuel, rfl⟩ := exists_fuel hfuel
    rw [toList_compact_arr] at hfuel ⊢
    have read := items_compact (j :: js) hj (List.cons_ne_nil _ _) fuel rest (by simpa using hfuel)
    obtain ⟨c, cs, text, opens⟩ := exists_opens_items hj.1 js
    rw [text] at read ⊢
    rw [List.cons_append, List.append_assoc]
    exact value_of_items opens read
  | .obj ((key, j) :: fs), hj => by
    intro fuel rest hfuel _
    obtain ⟨fuel, rfl⟩ := exists_fuel hfuel
    rw [toList_compact_obj] at hfuel ⊢
    have read := members_compact ((key, j) :: fs) hj (List.cons_ne_nil _ _) fuel rest (by simpa using hfuel)
    obtain ⟨cs, text⟩ := exists_quote_fields key j fs
    rw [text] at read ⊢
    rw [List.cons_append, List.append_assoc]
    exact value_of_members read
  | .real _, hj | .unreadable _, hj => hj.elim

theorem items_compact : ∀ (js : List Json), PlainItems js → js ≠ [] → ∀ (fuel : Nat) (rest : List Char),
    (compactItems "" js).toList.length + 1 < fuel →
      items fuel ((compactItems "" js).toList ++ ']' :: rest) = some (js, rest)
  | [], _, hne => absurd rfl hne
  | [j], hjs, _ => by
    intro fuel rest hfuel
    obtain ⟨fuel, rfl⟩ := exists_fuel hfuel
    have text : (compactItems "" [j]).toList = j.compact.toList := by simp [compactItems]
    rw [text] at hfuel ⊢
    exact items_of_last (value_compact j hjs.1 fuel _ (by omega) (endsNumber_cons (by decide)))
  | j :: j' :: js, hjs, _ => by
    intro fuel rest hfuel
    obtain ⟨fuel, rfl⟩ := exists_fuel hfuel
    rw [toList_compactItems_cons j (j' :: js) (List.cons_ne_nil _ _)] at hfuel ⊢
    rw [List.length_append, List.length_cons] at hfuel
    rw [List.append_assoc, List.cons_append]
    exact items_of_more (value_compact j hjs.1 fuel _ (by omega) (endsNumber_cons (by decide)))
      (items_compact (j' :: js) hjs.2 (List.cons_ne_nil _ _) fuel rest (by omega))

theorem members_compact : ∀ (fs : List (String × Json)), PlainFields fs → fs ≠ [] → ∀ (fuel : Nat) (rest : List Char),
    (compactFields "" fs).toList.length + 1 < fuel →
      members fuel ((compactFields "" fs).toList ++ '\x7d' :: rest) = some (some fs, rest)
  | [], _, hne => absurd rfl hne
  | [(key, j)], hfs, _ => by
    intro fuel rest hfuel
    obtain ⟨fuel, rfl⟩ := exists_fuel hfuel
    rw [toList_compactFields_singleton] at hfuel ⊢
    rw [List.length_append, List.length_cons] at hfuel
    rw [List.append_assoc, List.cons_append]
    exact members_of_last (value_compact j hfs.1 fuel _ (by omega) (endsNumber_cons (by decide)))
  | (key, j) :: f :: fs, hfs, _ => by
    intro fuel rest hfuel
    obtain ⟨fuel, rfl⟩ := exists_fuel hfuel
    rw [toList_compactFields_cons key j (f :: fs) (List.cons_ne_nil _ _)] at hfuel ⊢
    simp only [List.length_append, List.length_cons] at hfuel
    rw [List.append_assoc, List.cons_append, List.append_assoc, List.cons_append]
    exact members_of_more (value_compact j hfs.1 fuel _ (by omega) (endsNumber_cons (by decide)))
      (members_compact (f :: fs) hfs.2 (List.cons_ne_nil _ _) fuel rest (by omega))

end

/-- The text that a plain value is written as denotes the value. -/
theorem ofText?_compact {j : Json} (h : j.Plain) : ofText? j.compact = some j := by
  have read := value_compact j h (j.compact.toList.length + 1) [] (Nat.lt_succ_self _) trivial
  rw [List.append_nil] at read
  unfold ofText?
  dsimp only
  rw [read]
  rfl

end PegCompiler.Json
