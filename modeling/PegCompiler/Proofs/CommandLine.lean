/-
The options that a command line stands for. A field that flags determine has what they say, whichever way they are mixed
with others, and any other field is as the file of options has it, but for the output: where no flag determines it, it is
source text whatever the file says.
-/
import PegCompiler.Cli.Run
import PegCompiler.Proofs.Cli.Items

namespace PegCompiler.Cli

/-- The options in a file of a directory, or those by default if there is no file for them. -/
def Directory.options? (d : Directory) : Option String → Option CompileOptions
  | none => some .default
  | some file =>
    match d.read file with
    | .ok text => (Json.ofText? text).bind CompileOptions.ofJson?
    | .error _ => none

/-- The output that flags determine: the kind that is named last, or what other flags need. -/
def outputAsked? (items : List Item) : Option OutputKind :=
  ((lastValue? "--output" items).bind OutputKind.ofName?).or
    (if (lastValue? "--parse" items).isSome then some .parser
    else if isGiven "--ast" items || isGiven "--bytecode" items then some .ast
    else if (lastValue? "--map" items).isSome then some .sourceAndMap
    else none)

/-- What the flags among items make of options. -/
structure Overridden (items : List Item) (o o' : CompileOptions) : Prop where
  cache : o'.cache = (o.cache || isGiven "--cache" items)
  trace : o'.trace = (o.trace || isGiven "--trace" items)
  startRules : o'.allowedStartRules =
    if values "--start-rule" items = [] then o.allowedStartRules else values "--start-rule" items
  runtimePath : o'.runtimePath = (lastValue? "--runtime-path" items).getD o.runtimePath
  reservedWords : o'.reservedWords = o.reservedWords
  /-- What the file says of the output is lost. -/
  output : o'.output = (outputAsked? items).getD .source

variable {items : List Item} {args : List String} {a : Arguments} {o : CompileOptions} {d : Directory}

theorem override_ofItems : Overridden items o ((Arguments.ofItems items).override o) where
  cache := rfl
  trace := rfl
  startRules := by simp [Arguments.override, Arguments.ofItems]
  runtimePath := rfl
  reservedWords := rfl
  output := by
    unfold Arguments.override Arguments.impliedOutput Arguments.ofItems outputAsked?
    cases (lastValue? "--output" items).bind OutputKind.ofName? with
    | some kind => rfl
    | none => simp only [Option.none_or]; split_ifs <;> rfl

/-- A file is read with nothing printed. -/
theorem run_readFile {m : Type → Type} [Monad m] [LawfulMonad m] (fs : FileAccess m) (file : String) (printed : Printed) :
    (readFile fs file).run.run printed =
      (fun r => (r.mapError (Failure.unreadable file), printed)) <$> fs.read file := by
  have lifted : (liftM (fs.read file) : Running m (Except FileError String)).run.run printed =
      (fun r => (.ok r, printed)) <$> fs.read file := by
    change StateT.map Except.ok (StateT.lift (fs.read file)) printed = _
    simp [StateT.map, StateT.lift]
  unfold readFile
  rw [ExceptT.run_bind, StateT.run_bind, lifted, bind_map_left, ← bind_pure_comp]
  congr 1
  funext r
  cases r <;> rfl

theorem readOptions_of_file {file text : String} (hfile : a.options = some file) (htext : d.read file = .ok text)
    (ho : (Json.ofText? text).bind CompileOptions.ofJson? = some o) (printed : Printed) :
    ((readOptions Directory.access a).run.run printed).run d = ((.ok (a.override o), printed), d) := by
  have found : (Directory.access.read file).run d = pure (.ok text, d) := congrArg (·, d) htext
  unfold readOptions
  rw [hfile]
  simp only
  rw [ExceptT.run_bind, StateT.run_bind, run_readFile, bind_map_left, StateT.run_bind, found, pure_bind]
  simp only [Except.mapError, ho]
  rfl

/-- Options that are valid are read with nothing printed and no file changed. -/
theorem readOptions_access (h : d.options? a.options = some o) (printed : Printed) :
    ((readOptions Directory.access a).run.run printed).run d = ((.ok (a.override o), printed), d) := by
  unfold Directory.options? at h
  split at h
  · rename_i hnone
    cases h
    unfold readOptions
    rw [hnone]
    rfl
  · rename_i file hfile
    split at h
    · rename_i text htext
      exact readOptions_of_file hfile htext h printed
    · cases h

/-- Arguments that are accepted spell items, and those alone say what the flags make of the options that are valid in
the file for them. Any other order of the items, in which those of each flag keep their order, is read the same. -/
theorem flags_override_options {grammar : String} (haccepted : Arguments.ofList args = .ok (a, grammar)) :
    (∃ items, Spells items args) ∧ ∀ items, Spells items args →
      (∀ (d : Directory) (o : CompileOptions) (printed : Printed),
        d.options? (lastValue? "--options" items) = some o →
          ∃ o', ((readOptions Directory.access a).run.run printed).run d = ((.ok o', printed), d) ∧
            Overridden items o o') ∧
      ∀ items', SameByFlag items items' → Arguments.ofList (items'.flatMap Item.words) = .ok (a, grammar) := by
  refine ⟨Arguments.spells_of_ofList haccepted, fun items spelled => ?_⟩
  obtain ⟨rfl, hfiles⟩ := (Arguments.ofList_eq_ok_iff spelled).1 haccepted
  refine ⟨fun d o printed hoptions => ⟨_, readOptions_access hoptions printed, override_ofItems⟩, fun items' hsame => ?_⟩
  have spelled' : Spells items' (items'.flatMap Item.words) := ⟨fun i hi => spelled.proper i (hsame.mem_iff.2 hi), rfl⟩
  exact (Arguments.ofList_eq_ok_iff spelled').2 ⟨hsame.ofItems_eq, hsame.files_eq ▸ hfiles⟩

theorem flags_override_options_mixed :
    let items := [Item.setting "--start-rule" "A", .switch "--trace", .file "g.json", .setting "--options" "o.json"]
    let d := Directory.ofList [("o.json", "\x7b\"cache\":true,\"allowedStartRules\":[\"B\"]\x7d")]
    Arguments.ofList ["--start-rule", "A", "--trace", "g.json", "--options", "o.json"] = .ok (.ofItems items, "g.json") ∧
      (∃ o', ((readOptions Directory.access (.ofItems items)).run.run default).run d = ((.ok o', default), d) ∧
        o'.cache = true ∧ o'.trace = true ∧ o'.allowedStartRules = ["A"]) ∧
      Arguments.ofList ["g.json", "--trace", "--start-rule", "A", "--options", "o.json"] = .ok (.ofItems items, "g.json") := by
  intro items d
  have accepted : Arguments.ofList ["--start-rule", "A", "--trace", "g.json", "--options", "o.json"] =
      .ok (.ofItems items, "g.json") := by decide +kernel
  have spelled : Spells items ["--start-rule", "A", "--trace", "g.json", "--options", "o.json"] :=
    ⟨by decide +kernel, rfl⟩
  have moved : SameByFlag items [.file "g.json", .switch "--trace", .setting "--start-rule" "A", .setting "--options" "o.json"] :=
    SameByFlag.swap [] [.switch "--trace"] [.setting "--options" "o.json"] (by decide) (by decide)
  obtain ⟨options, order⟩ := (flags_override_options accepted).2 items spelled
  obtain ⟨o', read, overridden⟩ := options d
    { CompileOptions.default with cache := true, allowedStartRules := ["B"] } default (by decide +kernel)
  exact ⟨accepted, ⟨o', read, overridden.cache, overridden.trace, overridden.startRules⟩, order _ moved⟩

/-- The kind of output that a file asks for is forgotten. -/
theorem output_of_file_forgotten : ¬ ∀ (args : List String) (a : Arguments) (grammar : String) (items : List Item)
    (d : Directory) (o o' : CompileOptions) (printed : Printed), Arguments.ofList args = .ok (a, grammar) →
      Spells items args → d.options? (lastValue? "--options" items) = some o →
      ((readOptions Directory.access a).run.run printed).run d = ((.ok o', printed), d) →
      o'.output = (outputAsked? items).getD o.output := by
  intro h
  let items : List Item := [.file "g.json", .setting "--options" "o.json"]
  let d := Directory.ofList [("o.json", "\x7b\"output\":\"ast\"\x7d")]
  let o : CompileOptions := { CompileOptions.default with output := .ast }
  have found : d.options? (lastValue? "--options" items) = some o := by decide +kernel
  have wrong := h ["g.json", "--options", "o.json"] (.ofItems items) "g.json" items d o _ default (by decide +kernel)
    ⟨by decide +kernel, rfl⟩ found (readOptions_access found default)
  exact absurd wrong (by decide)

end PegCompiler.Cli
