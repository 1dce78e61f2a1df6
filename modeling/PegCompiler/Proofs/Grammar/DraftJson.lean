/-
A draft survives its JSON form. Numbers of 32 bits are all that its places and bounds may hold; then the form that is
written is read as the same draft, however deep its expressions are nested and whatever its strings are. The text that
the form is written as is read as the same draft if no rule is nested too deep in it, and refused otherwise.
-/
import PegCompiler.Grammar.Build
import PegCompiler.Grammar.DraftJson
import PegCompiler.Proofs.Json.Reading

namespace PegCompiler

open Json

/-! ## The numbers of a draft -/

/-- The numbers of a place. -/
def Span.numbers (s : Span) : List Nat := [s.start, s.stop]

/-- The numbers of a bound. -/
def Boundary.numbers : Boundary → List Nat
  | constant count => count.toList
  | label name => name.span.numbers
  | computed code => code.span.numbers

mutual

/-- The numbers of an expression. -/
def Draft.Expr.numbers : Draft.Expr → List Nat
  | choice span alternatives => span.numbers ++ numbersOfAll alternatives
  | sequence span elements => span.numbers ++ numbersOfAll elements
  | labeled span _ labelSpan _ body => span.numbers ++ labelSpan.numbers ++ numbers body
  | action span body code => span.numbers ++ code.span.numbers ++ numbers body
  | semanticAnd span code | semanticNot span code => span.numbers ++ code.span.numbers
  | repeated span body min max none => span.numbers ++ min.toList.flatMap Boundary.numbers ++ max.numbers ++ numbers body
  | repeated span body min max (some delimiter) =>
    span.numbers ++ min.toList.flatMap Boundary.numbers ++ max.numbers ++ numbers body ++ numbers delimiter
  | text span body | simpleAnd span body | simpleNot span body | optional span body | zeroOrMore span body
  | oneOrMore span body | group span body | named span _ body => span.numbers ++ numbers body
  | ruleRef span _ | literal span _ _ | charClass span _ | any span => span.numbers

def Draft.Expr.numbersOfAll : List Draft.Expr → List Nat
  | [] => []
  | e :: es => numbers e ++ numbersOfAll es

end

/-- The numbers of a rule. -/
def Draft.Rule.numbers (r : Draft.Rule) : List Nat := r.nameSpan.numbers ++ r.body.numbers ++ r.span.numbers

/-- The numbers of a draft. -/
def Draft.numbers (d : Draft) : List Nat :=
  d.topLevelInitializer.toList.flatMap (·.span.numbers) ++ d.initializer.toList.flatMap (·.span.numbers) ++
    d.rules.flatMap Draft.Rule.numbers

/-- All numbers have 32 bits. -/
def Words (ns : List Nat) : Prop := ∀ n ∈ ns, n < 4294967296

instance (ns : List Nat) : Decidable (Words ns) := inferInstanceAs (Decidable (∀ n ∈ ns, n < 4294967296))

@[simp]
theorem words_append {ns ms : List Nat} : Words (ns ++ ms) ↔ Words ns ∧ Words ms := List.forall_mem_append

@[simp]
theorem words_flatMap {α : Type} {f : α → List Nat} {l : List α} : Words (l.flatMap f) ↔ ∀ a ∈ l, Words (f a) := by
  unfold Words
  simp only [List.mem_flatMap]
  exact ⟨fun h a ha n hn => h n ⟨a, ha, hn⟩, fun h n ⟨a, ha, hn⟩ => h a ha n hn⟩

/-! ## Parts of the form -/

theorem word?_nat {n : Nat} (h : n < 4294967296) : word? (.nat n) = some n := if_pos h

theorem Span.ofJson?_toJson {s : Span} (h : Words s.numbers) : Span.ofJson? s.toJson = some s := by
  have start := word?_nat (h s.start (by simp [numbers]))
  have stop := word?_nat (h s.stop (by simp [numbers]))
  simp [Span.ofJson?, Span.toJson, fields?, field?, required, start, stop]

theorem Located.ofJson?_toJson {c : Located String} (h : Words c.span.numbers) :
    Located.ofJson? c.toJson = some c := by
  simp [Located.ofJson?, Located.toJson, fields?, field?, required, orElse, string?, Span.ofJson?_toJson h]

theorem ClassPart.ofJson?_toJson (part : ClassPart) : ClassPart.ofJson? part.toJson = some part := by
  cases part with
  | char c => simp [ClassPart.ofJson?, ClassPart.toJson, char?]
  | range first last => simp [ClassPart.ofJson?, ClassPart.toJson, char?]

theorem Boundary.ofJson?_toJson {b : Boundary} (h : Words b.numbers) : Boundary.ofJson? b.toJson = some b := by
  cases b with
  | constant count =>
    cases count with
    | none => simp [Boundary.ofJson?, Boundary.toJson, field?, required, kind?, ofFields?, orElse, nullable?]
    | some n =>
      have value : nullable? word? (.nat n) = some (some n) := by
        show (word? (.nat n)).map some = _
        rw [word?_nat (h n (by simp [numbers]))]
        rfl
      simp [Boundary.ofJson?, Boundary.toJson, field?, required, kind?, ofFields?, orElse, value]
  | label name =>
    simp [Boundary.ofJson?, Boundary.toJson, field?, required, kind?, ofFields?, orElse, string?, Span.ofJson?_toJson h]
  | computed code =>
    simp [Boundary.ofJson?, Boundary.toJson, field?, required, kind?, ofFields?, orElse, string?, Span.ofJson?_toJson h]

theorem nullable?_optional (s : Option String) : nullable? string? (.optional s) = some s := by
  cases s <;> rfl

theorem nullable?_null {α : Type} {read : Json → Option α} : nullable? read .null = some none := rfl

theorem nullable?_some {α : Type} {read : Json → Option α} {j : Json} {a : α} (hj : j ≠ .null)
    (h : read j = some a) : nullable? read j = some (some a) := by
  unfold nullable?
  split
  · exact absurd rfl hj
  · rw [h]
    rfl

/-- A value that may be missing is null where it is. -/
theorem nullable?_getD {α : Type} {read : Json → Option α} {write : α → Json} {a : Option α}
    (h : ∀ b ∈ a, write b ≠ .null ∧ read (write b) = some b) : nullable? read ((a.map write).getD .null) = some a := by
  cases a with
  | none => rfl
  | some b => exact nullable?_some (h b rfl).1 (h b rfl).2

theorem Boundary.nullable?_toJson {min : Option Boundary} (h : ∀ b ∈ min, Words b.numbers) :
    nullable? Boundary.ofJson? ((min.map Boundary.toJson).getD .null) = some min :=
  nullable?_getD fun b hb => ⟨by cases b <;> nofun, Boundary.ofJson?_toJson (h b hb)⟩

theorem mapM_map {α β : Type} {f : β → α} {g : α → Option β} {l : List β} (h : ∀ b ∈ l, g (f b) = some b) :
    (l.map f).mapM g = some l := by
  induction l with
  | nil => rfl
  | cons b l ih =>
    have rest := ih fun b' hb => h b' (List.mem_cons_of_mem _ hb)
    simp [List.mapM_cons, h b List.mem_cons_self, rest]

theorem exists_of_mapM {α β : Type} {f : α → Option β} {l : List α} {bs : List β} (h : l.mapM f = some bs) :
    ∀ a ∈ l, ∃ b, f a = some b := by
  induction l generalizing bs with
  | nil => nofun
  | cons a l ih =>
    rw [List.mapM_cons] at h
    obtain ⟨b, hb, h⟩ := Option.bind_eq_some_iff.1 h
    obtain ⟨bs', hbs, -⟩ := Option.bind_eq_some_iff.1 h
    intro a' ha'
    rcases List.mem_cons.1 ha' with rfl | ha'
    · exact ⟨b, hb⟩
    · exact ih hbs a' ha'

/-! ## Expressions -/

namespace Draft.Expr

theorem depthOfFields_le_iff {fields : List (String × Json)} {n : Nat} :
    depthOfFields fields ≤ n ↔ ∀ f ∈ fields, f.2.depth ≤ n := by
  induction fields with
  | nil => exact iff_of_true (Nat.zero_le n) nofun
  | cons f fields ih => rw [depthOfFields, Nat.max_le, ih, List.forall_mem_cons]

theorem depth_of_mem_fields {fields : List (String × Json)} {f : String × Json} (h : f ∈ fields) :
    f.2.depth ≤ depthOfFields fields := depthOfFields_le_iff.1 (Nat.le_refl _) f h

/-- Fuel for a record is one more than for its fields. -/
theorem fuel_of_record {kind : String} {fields : List (String × Json)} {span : Span} {fuel : Nat}
    (h : (record kind fields span).depth ≤ fuel) : ∃ less, fuel = less + 1 ∧ ∀ f ∈ fields, f.2.depth ≤ less := by
  unfold record depth at h
  cases fuel with
  | zero => cases h
  | succ less =>
    refine ⟨less, rfl, fun f hf => ?_⟩
    have inside : f ∈ [("type", .str kind)] ++ fields ++ [("location", span.toJson)] := by simp [hf]
    exact Nat.le_trans (depth_of_mem_fields inside) (Nat.le_of_succ_le_succ h)

theorem exists_fields (e : Draft.Expr) : ∃ fields, e.toJson = .obj fields := by
  cases e with
  | repeated span body min max delimiter => cases delimiter <;> exact ⟨_, rfl⟩
  | _ => exact ⟨_, rfl⟩

theorem toJson_ne_null (e : Draft.Expr) : e.toJson ≠ .null := by
  obtain ⟨fields, h⟩ := e.exists_fields
  rw [h]
  nofun

mutual

-- Each kind of expression is found by its name, and each of its fields by its own, wherever the field stands.

/-- The form of an expression is read as the expression, with fuel for all that is nested in it. -/
theorem read?_toJson : ∀ (e : Draft.Expr) (fuel : Nat), Words e.numbers → e.toJson.depth ≤ fuel →
    read? fuel e.toJson = some e
  | choice span alternatives, fuel, words, deep | sequence span alternatives, fuel, words, deep => by
    unfold toJson at deep ⊢
    obtain ⟨less, rfl, parts⟩ := fuel_of_record deep
    simp only [numbers, words_append] at words
    have read := mapM_listToJson alternatives less words.2 (Nat.le_of_succ_le (by simpa [depth] using parts))
    simp [read?, record, field?, required, orElse, kind?, list?, Span.ofJson?_toJson words.1, read]
  | labeled span label labelSpan pick body, fuel, words, deep => by
    unfold toJson at deep ⊢
    obtain ⟨less, rfl, parts⟩ := fuel_of_record deep
    simp only [numbers, words_append] at words
    have read := read?_toJson body less words.2 (parts ("expression", body.toJson) (by simp))
    simp [read?, record, field?, required, orElse, kind?, bool?, nullable?_optional, Span.ofJson?_toJson words.1.1,
      Span.ofJson?_toJson words.1.2, read]
  | action span body code, fuel, words, deep => by
    unfold toJson at deep ⊢
    obtain ⟨less, rfl, parts⟩ := fuel_of_record deep
    simp only [numbers, words_append] at words
    have read := read?_toJson body less words.2 (parts ("expression", body.toJson) (by simp))
    simp [read?, record, field?, required, orElse, kind?, codeOf?, codeFields, string?, Span.ofJson?_toJson words.1.1,
      Span.ofJson?_toJson words.1.2, read]
  | semanticAnd span code, fuel, words, deep | semanticNot span code, fuel, words, deep => by
    unfold toJson at deep ⊢
    obtain ⟨less, rfl, -⟩ := fuel_of_record deep
    simp only [numbers, words_append] at words
    simp [read?, record, field?, required, orElse, kind?, codeOf?, codeFields, string?, Span.ofJson?_toJson words.1,
      Span.ofJson?_toJson words.2]
  | text span body, fuel, words, deep | simpleAnd span body, fuel, words, deep
  | simpleNot span body, fuel, words, deep | optional span body, fuel, words, deep
  | zeroOrMore span body, fuel, words, deep | oneOrMore span body, fuel, words, deep
  | group span body, fuel, words, deep => by
    unfold toJson at deep ⊢
    obtain ⟨less, rfl, parts⟩ := fuel_of_record deep
    simp only [numbers, words_append] at words
    have read := read?_toJson body less words.2 (parts ("expression", body.toJson) (by simp))
    simp [read?, record, field?, required, orElse, kind?, Span.ofJson?_toJson words.1, read]
  | repeated span body min max none, fuel, words, deep => by
    unfold toJson at deep ⊢
    obtain ⟨less, rfl, parts⟩ := fuel_of_record deep
    simp only [numbers, words_append, words_flatMap, Option.mem_toList] at words
    obtain ⟨⟨⟨place, least⟩, most⟩, inside⟩ := words
    have read := read?_toJson body less inside (parts ("expression", body.toJson) (by simp))
    simp [read?, record, field?, required, orElse, kind?, Span.ofJson?_toJson place, read,
      Boundary.nullable?_toJson least, Boundary.ofJson?_toJson most, nullable?_null]
  | repeated span body min max (some delimiter), fuel, words, deep => by
    unfold toJson at deep ⊢
    obtain ⟨less, rfl, parts⟩ := fuel_of_record deep
    simp only [numbers, words_append, words_flatMap, Option.mem_toList] at words
    obtain ⟨⟨⟨⟨place, least⟩, most⟩, inside⟩, between⟩ := words
    have read := read?_toJson body less inside (parts ("expression", body.toJson) (by simp))
    have readDelimiter := nullable?_some (toJson_ne_null delimiter)
      (read?_toJson delimiter less between (parts ("delimiter", delimiter.toJson) (by simp)))
    simp [read?, record, field?, required, orElse, kind?, Span.ofJson?_toJson place, read,
      Boundary.nullable?_toJson least, Boundary.ofJson?_toJson most, readDelimiter]
  | ruleRef span name, fuel, words, deep => by
    unfold toJson at deep ⊢
    obtain ⟨less, rfl, -⟩ := fuel_of_record deep
    simp only [numbers] at words
    simp [read?, record, field?, required, orElse, kind?, string?, Span.ofJson?_toJson words]
  | literal span value ignoreCase, fuel, words, deep => by
    unfold toJson at deep ⊢
    obtain ⟨less, rfl, -⟩ := fuel_of_record deep
    simp only [numbers] at words
    simp [read?, record, field?, required, orElse, kind?, string?, bool?, Span.ofJson?_toJson words]
  | charClass span k, fuel, words, deep => by
    unfold toJson at deep ⊢
    obtain ⟨less, rfl, -⟩ := fuel_of_record deep
    simp only [numbers] at words
    have parts := mapM_map (l := k.parts) fun part _ => ClassPart.ofJson?_toJson part
    simp [read?, record, field?, required, orElse, kind?, list?, bool?, Span.ofJson?_toJson words, parts]
  | any span, fuel, words, deep => by
    unfold toJson at deep ⊢
    obtain ⟨less, rfl, -⟩ := fuel_of_record deep
    simp only [numbers] at words
    simp [read?, record, field?, required, orElse, kind?, Span.ofJson?_toJson words]
  | named span name body, fuel, words, deep => by
    unfold toJson at deep ⊢
    obtain ⟨less, rfl, parts⟩ := fuel_of_record deep
    simp only [numbers, words_append] at words
    have read := read?_toJson body less words.2 (parts ("expression", body.toJson) (by simp))
    simp [read?, record, field?, required, orElse, kind?, string?, Span.ofJson?_toJson words.1, read]

theorem mapM_listToJson : ∀ (es : List Draft.Expr) (fuel : Nat), Words (numbersOfAll es) →
    depthOfItems (listToJson es) ≤ fuel → (listToJson es).mapM (read? fuel) = some es
  | [], _, _, _ => rfl
  | e :: es, fuel, words, deep => by
    unfold listToJson at deep ⊢
    unfold depthOfItems at deep
    simp only [numbersOfAll, words_append] at words
    have first := read?_toJson e fuel words.1 (by omega)
    have rest := mapM_listToJson es fuel words.2 (by omega)
    simp [List.mapM_cons, first, rest]

end

theorem ofJson?_toJson {e : Draft.Expr} (h : Words e.numbers) : Draft.Expr.ofJson? e.toJson = some e :=
  read?_toJson e _ h (Nat.le_refl _)

end Draft.Expr

/-! ## Drafts -/

namespace Draft

/-- What is read of a rule, given what is read of its expression. -/
theorem Rule.readWith?_eq {expr? : Json → Option Draft.Expr} {r : Draft.Rule} (h : Words r.numbers) :
    Rule.readWith? expr? r.toJson = (expr? r.body.toJson).map fun body => { r with body } := by
  simp only [numbers, words_append] at h
  cases hbody : expr? r.body.toJson <;>
    simp [Rule.readWith?, Rule.toJson, fieldNames, fields?, field?, required, orElse, string?, nullable?_optional, hbody,
      Span.ofJson?_toJson h.1.1, Span.ofJson?_toJson h.2]

theorem nullable?_codeToJson {code : Option HostCode} (h : ∀ c ∈ code, Words c.span.numbers) :
    nullable? Located.ofJson? (codeToJson code) = some code :=
  nullable?_getD fun c hc => ⟨nofun, Located.ofJson?_toJson (h c hc)⟩

/-- What is read of a draft, given what is read of its rules. -/
theorem readWith?_eq {expr? : Json → Option Draft.Expr} {d : Draft} (h : Words d.numbers) : readWith? expr? d.toJson =
    ((d.rules.map Rule.toJson).mapM (Rule.readWith? expr?)).map fun rules => { d with rules } := by
  simp only [numbers, words_append, words_flatMap, Option.mem_toList] at h
  cases hrules : (d.rules.map Rule.toJson).mapM (Rule.readWith? expr?) <;>
    simp [readWith?, toJson, fieldNames, fields?, field?, required, orElse, list?, nullable?_codeToJson h.1.1,
      nullable?_codeToJson h.1.2, hrules]

theorem words_rule {d : Draft} (h : Words d.numbers) {r : Draft.Rule} (hr : r ∈ d.rules) : Words r.numbers := by
  simp only [numbers, words_append, words_flatMap] at h
  exact h.2 r hr

theorem readWith?_toJson {expr? : Json → Option Draft.Expr} {d : Draft} (h : Words d.numbers)
    (bodies : ∀ r ∈ d.rules, expr? r.body.toJson = some r.body) : readWith? expr? d.toJson = some d := by
  have rules : ∀ r ∈ d.rules, Rule.readWith? expr? r.toJson = some r := fun r hr => by
    rw [Rule.readWith?_eq (words_rule h hr), bodies r hr]
    rfl
  rw [readWith?_eq h, mapM_map rules]
  rfl

theorem words_body {d : Draft} (h : Words d.numbers) {r : Draft.Rule} (hr : r ∈ d.rules) : Words r.body.numbers := by
  have words := words_rule h hr
  simp only [Rule.numbers, words_append] at words
  exact words.1.2

theorem ofJson?_toJson {d : Draft} (h : Words d.numbers) : Draft.ofJson? d.toJson = some d :=
  readWith?_toJson h fun _ hr => Expr.ofJson?_toJson (words_body h hr)

end Draft

/-! ## Texts -/

theorem Span.plain_toJson {s : Span} (h : Words s.numbers) : s.toJson.Plain := by
  have start := h s.start (by simp [numbers])
  have stop := h s.stop (by simp [numbers])
  simp [toJson, Json.nat, Plain, PlainFields]
  omega

theorem Located.plain_toJson {c : Located String} (h : Words c.span.numbers) : c.toJson.Plain := by
  simp [toJson, Plain, PlainFields, Span.plain_toJson h]

theorem ClassPart.plain_toJson (part : ClassPart) : part.toJson.Plain := by
  cases part <;> simp [toJson, Plain, PlainItems]

theorem Boundary.plain_toJson {b : Boundary} (h : Words b.numbers) : b.toJson.Plain := by
  cases b with
  | constant count =>
    cases count with
    | none => simp [toJson, Plain, PlainFields]
    | some n =>
      have small := h n (by simp [numbers])
      simp [toJson, Json.nat, Plain, PlainFields]
      omega
  | label name => simp [toJson, Plain, PlainFields, Span.plain_toJson h]
  | computed code => simp [toJson, Plain, PlainFields, Span.plain_toJson h]

theorem Json.plain_optional (s : Option String) : (Json.optional s).Plain := by
  cases s <;> trivial

theorem Json.plain_getD {α : Type} {write : α → Json} {a : Option α} (h : ∀ b ∈ a, (write b).Plain) :
    ((a.map write).getD .null).Plain := by
  cases a with
  | none => trivial
  | some b => exact h b rfl

namespace Draft

namespace Expr

theorem plain_record {kind : String} {fields : List (String × Json)} {span : Span} (hspan : Words span.numbers)
    (hfields : PlainFields fields) : (record kind fields span).Plain := by
  simp [record, Plain, PlainFields, hfields, Span.plain_toJson hspan]

mutual

theorem plain_toJson : ∀ (e : Draft.Expr), Words e.numbers → e.toJson.Plain
  | choice span alternatives, words | sequence span alternatives, words => by
    simp only [numbers, words_append] at words
    exact plain_record words.1 ⟨plainItems_listToJson alternatives words.2, trivial⟩
  | labeled span label labelSpan pick body, words => by
    simp only [numbers, words_append] at words
    exact plain_record words.1.1 ⟨plain_optional label, Span.plain_toJson words.1.2, trivial, plain_toJson body words.2,
      trivial⟩
  | action span body code, words => by
    simp only [numbers, words_append] at words
    exact plain_record words.1.1 ⟨plain_toJson body words.2, trivial, Span.plain_toJson words.1.2, trivial⟩
  | semanticAnd span code, words | semanticNot span code, words => by
    simp only [numbers, words_append] at words
    exact plain_record words.1 ⟨trivial, Span.plain_toJson words.2, trivial⟩
  | text span body, words | simpleAnd span body, words | simpleNot span body, words | optional span body, words
  | zeroOrMore span body, words | oneOrMore span body, words | group span body, words => by
    simp only [numbers, words_append] at words
    exact plain_record words.1 ⟨plain_toJson body words.2, trivial⟩
  | repeated span body min max none, words => by
    simp only [numbers, words_append, words_flatMap, Option.mem_toList] at words
    obtain ⟨⟨⟨place, least⟩, most⟩, inside⟩ := words
    exact plain_record place ⟨plain_toJson body inside, plain_getD fun b hb => Boundary.plain_toJson (least b hb),
      Boundary.plain_toJson most, trivial, trivial⟩
  | repeated span body min max (some delimiter), words => by
    simp only [numbers, words_append, words_flatMap, Option.mem_toList] at words
    obtain ⟨⟨⟨⟨place, least⟩, most⟩, inside⟩, between⟩ := words
    exact plain_record place ⟨plain_toJson body inside, plain_getD fun b hb => Boundary.plain_toJson (least b hb),
      Boundary.plain_toJson most, plain_toJson delimiter between, trivial⟩
  | ruleRef span name, words => plain_record words ⟨trivial, trivial⟩
  | literal span value ignoreCase, words => plain_record words ⟨trivial, trivial, trivial⟩
  | charClass span k, words => by
    have parts : PlainItems (k.parts.map ClassPart.toJson) := plainItems_iff.2 fun j hj => by
      obtain ⟨part, -, rfl⟩ := List.mem_map.1 hj
      exact part.plain_toJson
    exact plain_record words ⟨parts, trivial, trivial, trivial⟩
  | any span, words => plain_record words trivial
  | named span name body, words => by
    simp only [numbers, words_append] at words
    exact plain_record words.1 ⟨trivial, plain_toJson body words.2, trivial⟩

theorem plainItems_listToJson : ∀ (es : List Draft.Expr), Words (numbersOfAll es) → PlainItems (listToJson es)
  | [], _ => trivial
  | e :: es, words => by
    simp only [numbersOfAll, words_append] at words
    exact ⟨plain_toJson e words.1, plainItems_listToJson es words.2⟩

end

theorem ofWritten?_toJson {e : Draft.Expr} (h : Words e.numbers) (shallow : e.toJson.depth ≤ maxDepth + 1) :
    ofWritten? maxDepth e.toJson = some e := by
  have form := ofJson?_toJson h
  have plain := plain_toJson e h
  obtain ⟨fields, written⟩ := e.exists_fields
  rw [written] at form plain shallow ⊢
  have whole : ∀ f ∈ fields, f.2.isReadable = true ∧ f.2.depth ≤ maxDepth := fun f hf =>
    ⟨isReadable_of_plain f.2 (plainFields_iff.1 plain f hf),
      Nat.le_trans (depth_of_mem_fields hf) (Nat.le_of_succ_le_succ shallow)⟩
  unfold ofWritten?
  dsimp only
  rw [if_pos (List.all_eq_true.2 fun f hf => by simp [whole f hf]), form]

/-- The field for the place of an expression is the last one, and flat. -/
theorem depth_of_location {e : Draft.Expr} {fields : List (String × Json)} (h : e.toJson = .obj fields) :
    ∀ f ∈ fields, f.1 = "location" → f.2.depth ≤ maxDepth := by
  have flat (kind : String) (parts : List (String × Json)) (span : Span) (names : ∀ f ∈ parts, f.1 ≠ "location") :
      ∀ f ∈ [("type", Json.str kind)] ++ parts ++ [("location", span.toJson)], f.1 = "location" → f.2.depth ≤ maxDepth := by
    intro f hf hname
    simp only [List.mem_append, List.mem_singleton] at hf
    rcases hf with (rfl | hf) | rfl
    · exact Nat.zero_le _
    · exact absurd hname (names f hf)
    · simp [Span.toJson, Json.nat, depth, depthOfFields, maxDepth]
  cases e with
  | repeated span body min max delimiter => cases delimiter <;> (cases h; exact flat _ _ _ (by simp))
  | _ => cases h; exact flat _ _ _ (by simp [codeFields])

/-- A text may nest an expression so deep and no deeper. -/
theorem depth_of_ofWritten? {e e' : Draft.Expr} (h : ofWritten? maxDepth e.toJson = some e') :
    e.toJson.depth ≤ maxDepth + 1 := by
  obtain ⟨fields, written⟩ := e.exists_fields
  rw [written] at h ⊢
  unfold ofWritten? at h
  dsimp only at h
  split at h
  · rename_i whole
    refine Nat.succ_le_succ (depthOfFields_le_iff.2 fun f hf => ?_)
    have inside := List.all_eq_true.1 whole f hf
    simp only [Bool.or_eq_true, Bool.and_eq_true, beq_iff_eq, decide_eq_true_iff] at inside
    rcases inside with place | ⟨-, inside⟩
    · exact depth_of_location written f hf place
    · exact inside
  · cases h

end Expr

theorem plain_toJson {d : Draft} (h : Words d.numbers) : d.toJson.Plain := by
  simp only [numbers, words_append, words_flatMap, Option.mem_toList] at h
  obtain ⟨⟨top, init⟩, rules⟩ := h
  have rule (r : Draft.Rule) (hr : r ∈ d.rules) : r.toJson.Plain := by
    have words := rules r hr
    simp only [Rule.numbers, words_append] at words
    exact ⟨trivial, Span.plain_toJson words.1.1, plain_optional _, Expr.plain_toJson _ words.1.2,
      Span.plain_toJson words.2, trivial⟩
  refine ⟨plain_getD fun c hc => Located.plain_toJson (top c hc), plain_getD fun c hc => Located.plain_toJson (init c hc),
    plainItems_iff.2 fun j hj => ?_, trivial⟩
  obtain ⟨r, hr, rfl⟩ := List.mem_map.1 hj
  exact rule r hr

theorem ofText?_compact {d : Draft} (h : Words d.numbers) :
    ofText? d.toJson.compact = readWith? (Expr.ofWritten? Expr.maxDepth) d.toJson := by
  unfold ofText?
  rw [Json.ofText?_compact (plain_toJson h)]
  rfl

/-- A text that nests no rule too deep is read as the draft that it was written for. -/
theorem ofText?_of_shallow {d : Draft} (h : Words d.numbers)
    (shallow : ∀ r ∈ d.rules, r.body.toJson.depth ≤ Expr.maxDepth + 1) : ofText? d.toJson.compact = some d := by
  rw [ofText?_compact h]
  exact readWith?_toJson h fun r hr => Expr.ofWritten?_toJson (words_body h hr) (shallow r hr)

/-- A text that nests a rule too deep is not read. -/
theorem shallow_of_ofText? {d d' : Draft} (h : Words d.numbers) (read : ofText? d.toJson.compact = some d') :
    ∀ r ∈ d.rules, r.body.toJson.depth ≤ Expr.maxDepth + 1 := by
  intro r hr
  rw [ofText?_compact h, readWith?_eq h] at read
  obtain ⟨rules, hrules, -⟩ := Option.map_eq_some_iff.1 read
  obtain ⟨r', hr'⟩ := exists_of_mapM hrules _ (List.mem_map_of_mem hr)
  rw [Rule.readWith?_eq (words_rule h hr)] at hr'
  obtain ⟨e, he, -⟩ := Option.map_eq_some_iff.1 hr'
  exact Expr.depth_of_ofWritten? he

/-- The JSON form of a draft is read as the draft, so what is built of it is what is built of the draft; and so is the
text that the form is written as, if it nests no rule too deep. -/
theorem draft_survives_json {d : Draft} (h : Words d.numbers) : Draft.ofJson? d.toJson = some d ∧
    (Draft.ofJson? d.toJson).map Draft.build? = some d.build? ∧
    (Draft.ofText? d.toJson.compact = some d ↔ ∀ r ∈ d.rules, r.body.toJson.depth ≤ Expr.maxDepth + 1) := by
  have form := ofJson?_toJson h
  exact ⟨form, by rw [form]; rfl, shallow_of_ofText? h, ofText?_of_shallow h⟩

/-- Between two and `n` characters that are neither a quote nor a digit, each two with a tab and a backslash between. -/
def tokens : Draft :=
  ⟨none, some ⟨"use std::fmt;", ⟨0, 13⟩⟩, [
    ⟨"Tokens", ⟨14, 20⟩, some "tokens", .labeled ⟨23, 50⟩ none .empty true (.repeated ⟨24, 50⟩
      (.charClass ⟨24, 32⟩ ⟨[.char '"', .range '0' '9'], true, false⟩) (some (.constant (some 2)))
      (.label ⟨"n", ⟨36, 37⟩⟩) (some (.literal ⟨39, 45⟩ "\t\\" true))), ⟨14, 50⟩⟩]⟩

theorem draft_survives_json_tokens : Words tokens.numbers ∧ Draft.ofJson? tokens.toJson = some tokens ∧
    (Draft.ofJson? tokens.toJson).map Draft.build? = some tokens.build? ∧
    Draft.ofText? tokens.toJson.compact = some tokens :=
  have words : Words tokens.numbers := by decide
  have ⟨form, built, text⟩ := draft_survives_json words
  ⟨words, form, built, text.2 (by decide)⟩

/-! ## A draft that is nested too deep -/

/-- Any character, in groups in each other. -/
def grouped : (groups : Nat) → Draft.Expr
  | 0 => .any .empty
  | groups + 1 => .group .empty (grouped groups)

/-- One rule of groups in each other. -/
def ofGroups (groups : Nat) : Draft := ⟨none, none, [⟨"A", .empty, none, grouped groups, .empty⟩]⟩

theorem depth_grouped (groups : Nat) : (grouped groups).toJson.depth = groups + 2 := by
  induction groups with
  | zero => rfl
  | succ groups ih =>
    have place : Span.empty.toJson.depth = 1 := rfl
    simp [grouped, Expr.toJson, Expr.record, depth, depthOfFields, ih, place]

theorem words_grouped (groups : Nat) : Words (grouped groups).numbers := by
  induction groups with
  | zero => decide
  | succ groups ih => exact words_append.2 ⟨by decide, ih⟩

theorem words_ofGroups (groups : Nat) : Words (ofGroups groups).numbers := by
  have place : Words Span.empty.numbers := by decide
  have rule : Words (Rule.numbers ⟨"A", .empty, none, grouped groups, .empty⟩) :=
    words_append.2 ⟨words_append.2 ⟨place, words_grouped groups⟩, place⟩
  exact words_flatMap.2 fun r hr => List.mem_singleton.1 hr ▸ rule

/-- A text of 123 groups in each other is refused, though it is the text of a draft. -/
theorem text_of_deep_groups_is_refused :
    Words (ofGroups 123).numbers ∧ Draft.ofText? (ofGroups 123).toJson.compact = none := by
  have words := words_ofGroups 123
  refine ⟨words, Option.eq_none_iff_forall_ne_some.2 fun d read => ?_⟩
  have shallow := shallow_of_ofText? words read _ List.mem_cons_self
  rw [depth_grouped] at shallow
  exact absurd shallow (by decide)

end Draft

end PegCompiler
