/-
Arguments of the command line as items: flags, with their values if they take some, and files. A list of arguments that
is read without an error spells proper items, and what is read is a summary of them: whether a flag is among them, which
values it has, and which of them is the last. So only the order of the items of one flag matters.
-/
import Mathlib.Data.List.Basic
import PegCompiler.Cli.Arguments

namespace PegCompiler.Cli

/-- A flag, with its value if it takes one, or a file. -/
inductive Item
  | switch (flag : String)
  | setting (flag value : String)
  | file (name : String)
  deriving DecidableEq

namespace Item

/-- The arguments that spell an item. -/
def words : Item → List String
  | switch flag => [flag]
  | setting flag value => [flag, value]
  | file name => [name]

/-- The flag of an item; `-o` is another name for `--out-file`. -/
def flag? : Item → Option String
  | switch flag => some flag
  | setting flag _ => some (if flag = "-o" then "--out-file" else flag)
  | file _ => none

/-- The value of an item if it is one of a flag. -/
def value? (flag : String) (i : Item) : Option String :=
  match i with
  | setting _ value => if i.flag? = some flag then some value else none
  | _ => none

def file? : Item → Option String
  | file name => some name
  | _ => none

/-- The flag is known and its value is right, or the file looks like no flag. -/
def isProper : Item → Bool
  | switch flag => (Arguments.switch? flag).isSome
  | setting flag value =>
    (Arguments.setting? flag).isSome && (flag != "--output" || (OutputKind.ofName? value).isSome)
  | file name =>
    (Arguments.switch? name).isNone && (Arguments.setting? name).isNone && !name.startsWith "--"

end Item

/-- The items are proper, and the arguments spell them. -/
structure Spells (items : List Item) (args : List String) : Prop where
  proper : ∀ i ∈ items, i.isProper = true
  words : items.flatMap Item.words = args

namespace Spells

theorem nil : Spells [] [] := ⟨nofun, rfl⟩

theorem cons {i : Item} {items : List Item} {args : List String} (h : Spells items args) (hi : i.isProper = true) :
    Spells (i :: items) (i.words ++ args) :=
  ⟨List.forall_mem_cons.2 ⟨hi, h.proper⟩, by rw [List.flatMap_cons, h.words]⟩

end Spells

/-! ## Summaries -/

/-- Whether a flag is given. -/
def isGiven (flag : String) (items : List Item) : Bool := items.any (·.flag? == some flag)

/-- The values that a flag is given, in order. -/
def values (flag : String) (items : List Item) : List String := items.filterMap (·.value? flag)

def lastValue? (flag : String) (items : List Item) : Option String := (values flag items).getLast?

/-- What items ask for. -/
def Arguments.ofItems (items : List Item) : Arguments :=
  { files := items.filterMap Item.file?
    grammarText := lastValue? "--grammar-text" items
    options := lastValue? "--options" items
    startRules := values "--start-rule" items
    cache := isGiven "--cache" items
    trace := isGiven "--trace" items
    runtimePath := lastValue? "--runtime-path" items
    output := (lastValue? "--output" items).bind OutputKind.ofName?
    showGrammar := isGiven "--ast" items
    showCode := isGiven "--bytecode" items
    map := lastValue? "--map" items
    outFile := lastValue? "--out-file" items
    parse := lastValue? "--parse" items }

section Concat

variable {name flag value : String} {items : List Item} {i : Item}

@[simp] theorem isGiven_concat : isGiven name (items ++ [i]) = (isGiven name items || i.flag? == some name) := by
  simp [isGiven]

@[simp] theorem values_concat : values name (items ++ [i]) = values name items ++ (i.value? name).toList := by
  cases h : i.value? name <;> simp [values, h]

@[simp] theorem lastValue?_concat : lastValue? name (items ++ [i]) = (i.value? name).or (lastValue? name items) := by
  cases h : i.value? name <;> simp [lastValue?, h]

theorem ofItems_concat_switch {f : Arguments → Arguments} (h : Arguments.switch? flag = some f) :
    Arguments.ofItems (items ++ [.switch flag]) = f (Arguments.ofItems items) := by
  unfold Arguments.switch? at h
  split at h <;> cases h <;>
    simp [Arguments.ofItems, Item.flag?, Item.value?, Item.file?]

theorem ofItems_concat_setting {f : String → Arguments → Except ArgumentError Arguments}
    (h : Arguments.setting? flag = some f) (hproper : (Item.setting flag value).isProper = true) :
    f value (Arguments.ofItems items) = .ok (Arguments.ofItems (items ++ [.setting flag value])) := by
  unfold Arguments.setting? at h
  split at h <;> cases h
  case h_4 =>
    -- only the name of an output may be wrong
    rw [Item.isProper, Bool.and_eq_true] at hproper
    have named : (OutputKind.ofName? value).isSome = true := by simpa using hproper.2
    obtain ⟨kind, hkind⟩ := Option.isSome_iff_exists.1 named
    simp [Arguments.ofItems, Item.flag?, Item.value?, Item.file?, hkind]
  all_goals
    simp [Arguments.ofItems, Item.flag?, Item.value?, Item.file?]

theorem ofItems_concat_file :
    Arguments.ofItems (items ++ [.file name]) =
      { Arguments.ofItems items with files := (Arguments.ofItems items).files ++ [name] } := by
  simp [Arguments.ofItems, Item.flag?, Item.value?, Item.file?]

end Concat

/-! ## Reading -/

namespace Arguments

section

variable {flag value name : String} {args : List String} {a b : Arguments} {items : List Item}

attribute [simp] read

theorem read_switch {f : Arguments → Arguments} (h : switch? flag = some f) : a.read (flag :: args) = (f a).read args := by
  cases args <;> simp [h]

theorem read_setting {f : String → Arguments → Except ArgumentError Arguments} (hswitch : switch? flag = none)
    (h : setting? flag = some f) : a.read (flag :: value :: args) = f value a >>= fun b => b.read args := by
  simp [hswitch, h]

theorem read_file (hswitch : switch? name = none) (hsetting : setting? name = none) :
    a.read (name :: args) = a.file name >>= fun b => b.read args := by
  cases args with
  | nil =>
    simp only [read, hswitch, hsetting]
    exact (bind_pure _).symm
  | cons value args => simp [hswitch, hsetting]

/-- Flags take values or none. -/
theorem switch?_of_setting? (h : (setting? flag).isSome = true) : switch? flag = none := by
  unfold setting? at h
  split at h <;> first | rfl | cases h

theorem read_item {i : Item} (h : i.isProper = true) :
    (ofItems items).read (i.words ++ args) = (ofItems (items ++ [i])).read args := by
  cases i with
  | switch flag =>
    obtain ⟨f, hf⟩ := Option.isSome_iff_exists.1 h
    rw [ofItems_concat_switch hf]
    exact read_switch hf
  | setting flag value =>
    have known : (setting? flag).isSome = true := by
      rw [Item.isProper, Bool.and_eq_true] at h
      exact h.1
    obtain ⟨f, hf⟩ := Option.isSome_iff_exists.1 known
    have taken : f value (ofItems items) = .ok (ofItems (items ++ [.setting flag value])) := ofItems_concat_setting hf h
    simp only [Item.words, List.cons_append, List.nil_append]
    rw [read_setting (switch?_of_setting? known) hf, taken]
    rfl
  | file name =>
    simp only [Item.isProper, Bool.and_eq_true, Option.isNone_iff_eq_none, Bool.not_eq_true'] at h
    obtain ⟨⟨hswitch, hsetting⟩, hname⟩ := h
    simp only [Item.words, List.cons_append, List.nil_append]
    rw [read_file hswitch hsetting, file, if_neg (by simp [hname]), ofItems_concat_file]
    rfl

/-- Arguments that spell items are read as the summary of them, after that of the items before. -/
theorem read_of_spells (before : List Item) (h : Spells items args) :
    (ofItems before).read args = .ok (ofItems (before ++ items)) := by
  obtain ⟨hproper, rfl⟩ := h
  induction items generalizing before with
  | nil => simp
  | cons i items ih =>
    obtain ⟨hi, hitems⟩ := List.forall_mem_cons.1 hproper
    rw [List.flatMap_cons, read_item hi, ih _ hitems, List.append_assoc]
    rfl

theorem isProper_setting {f : String → Arguments → Except ArgumentError Arguments} (h : setting? flag = some f)
    (hf : f value a = .ok b) : (Item.setting flag value).isProper = true := by
  by_cases hflag : flag = "--output"
  · subst hflag
    cases h
    cases hname : OutputKind.ofName? value with
    | none => simp [hname] at hf
    | some kind => simp [Item.isProper, hname, setting?]
  · simp [Item.isProper, h, hflag]

/-- Arguments that are read begin with an item. -/
theorem exists_item_of_read (h : a.read (name :: args) = .ok b) :
    ∃ (i : Item) (rest : List String), i.isProper = true ∧ name :: args = i.words ++ rest := by
  cases hswitch : switch? name with
  | some f => exact ⟨.switch name, args, by simp [Item.isProper, hswitch], rfl⟩
  | none =>
    cases hsetting : setting? name with
    | some f =>
      cases args with
      | nil => simp [hswitch, hsetting] at h
      | cons value rest =>
        rw [read_setting hswitch hsetting] at h
        cases hf : f value a with
        | error why => simp [hf, bind, Except.bind] at h
        | ok a' => exact ⟨.setting name value, rest, isProper_setting hsetting hf, rfl⟩
    | none =>
      rw [read_file hswitch hsetting] at h
      by_cases hname : name.startsWith "--" = true
      · simp [file, hname, bind, Except.bind] at h
      · exact ⟨.file name, args, by simp [Item.isProper, hswitch, hsetting, hname], rfl⟩

/-- Arguments that are read spell items. -/
theorem spells_of_read (before : List Item) (h : (ofItems before).read args = .ok a) : ∃ items, Spells items args := by
  -- an item may have two words, so the induction is on the length
  induction hlength : args.length using Nat.strongRecOn generalizing args before with
  | ind n ih =>
    cases args with
    | nil => exact ⟨[], .nil⟩
    | cons name args =>
      obtain ⟨i, rest, hproper, hsplit⟩ := exists_item_of_read h
      rw [hsplit] at h hlength ⊢
      rw [read_item hproper] at h
      have shorter : rest.length < n := by
        rw [← hlength, List.length_append]
        cases i <;> simp [Item.words]
      obtain ⟨items, spelled⟩ := ih _ shorter _ h rfl
      exact ⟨i :: items, spelled.cons hproper⟩

theorem ofList_eq_ok_iff {grammar : String} (h : Spells items args) :
    ofList args = .ok (a, grammar) ↔ a = ofItems items ∧ items.filterMap Item.file? = [grammar] := by
  have files : (ofItems items).files = items.filterMap Item.file? := rfl
  have whole : empty.read args = .ok (ofItems items) := read_of_spells [] h
  unfold ofList
  rw [whole]
  simp only [bind, Except.bind, files]
  rcases items.filterMap Item.file? with _ | ⟨first, _ | ⟨second, rest⟩⟩
  · simp [throw, throwThe, MonadExceptOf.throw]
  · simp [pure, Except.pure, eq_comm]
  · simp [throw, throwThe, MonadExceptOf.throw]

theorem spells_of_ofList {grammar : String} (h : ofList args = .ok (a, grammar)) : ∃ items, Spells items args := by
  cases hread : empty.read args with
  | error why => simp [ofList, hread, bind, Except.bind] at h
  | ok b => exact spells_of_read [] hread

end

end Arguments

/-! ## Order -/

/-- The items of each flag, and those of none, come in the same order. -/
def SameByFlag (items items' : List Item) : Prop :=
  ∀ flag : Option String, items.filter (·.flag? == flag) = items'.filter (·.flag? == flag)

namespace SameByFlag

variable {items items' : List Item}

theorem mem_iff (h : SameByFlag items items') {i : Item} : i ∈ items ↔ i ∈ items' := by
  have found := congrArg (i ∈ ·) (h i.flag?)
  simpa using found

theorem filterMap_eq (h : SameByFlag items items') {α : Type} (f : Item → Option α) (flag : Option String)
    (hf : ∀ i : Item, i.flag? ≠ flag → f i = none) : items.filterMap f = items'.filterMap f := by
  have only (l : List Item) : (l.filter (·.flag? == flag)).filterMap f = l.filterMap f := by
    rw [List.filterMap_filter]
    refine List.filterMap_congr fun i _ => ?_
    by_cases hi : i.flag? = flag
    · simp [hi]
    · simp [hi, hf i hi]
  rw [← only items, ← only items', h flag]

theorem values_eq (h : SameByFlag items items') (flag : String) : values flag items = values flag items' := by
  refine h.filterMap_eq _ (some flag) fun i hi => ?_
  cases i with
  | setting name value => exact if_neg hi
  | switch name => rfl
  | file name => rfl

theorem isGiven_eq (h : SameByFlag items items') (flag : String) : isGiven flag items = isGiven flag items' := by
  rw [Bool.eq_iff_iff]
  simp only [isGiven, List.any_eq_true, h.mem_iff]

theorem files_eq (h : SameByFlag items items') : items.filterMap Item.file? = items'.filterMap Item.file? := by
  refine h.filterMap_eq _ none fun i hi => ?_
  cases i with
  | file name => exact absurd rfl hi
  | switch name => rfl
  | setting name value => rfl

theorem ofItems_eq (h : SameByFlag items items') : Arguments.ofItems items = Arguments.ofItems items' := by
  simp only [Arguments.ofItems, lastValue?, h.values_eq, h.isGiven_eq, h.files_eq]

/-- Two items of different flags may change places if there is none of either flag between them. -/
theorem swap (before between after : List Item) {i j : Item} (hij : i.flag? ≠ j.flag?)
    (hbetween : ∀ k ∈ between, k.flag? ≠ i.flag? ∧ k.flag? ≠ j.flag?) :
    SameByFlag (before ++ i :: between ++ j :: after) (before ++ j :: between ++ i :: after) := by
  intro flag
  by_cases hflag : i.flag? = flag ∨ j.flag? = flag
  · have none_between : between.filter (·.flag? == flag) = [] := by
      refine List.filter_eq_nil_iff.2 fun k hk => ?_
      obtain ⟨hi, hj⟩ := hbetween k hk
      rcases hflag with rfl | rfl <;> simpa
    rcases hflag with rfl | rfl <;> simp [none_between, hij, hij.symm]
  · obtain ⟨hi, hj⟩ := not_or.1 hflag
    simp [hi, hj]

end SameByFlag

end PegCompiler.Cli
