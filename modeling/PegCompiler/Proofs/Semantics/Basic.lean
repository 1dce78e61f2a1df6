/-
What grammars mean, told on their expressions and on nothing that they are compiled to. An expression at a
position of a text matches, with a value and up to a position, or it fails. Meanwhile host code is called:
a semantics that is right about those calls has to tell the place where the text of an action begins, which
only predicates and actions change and which a failure does not restore.
-/
import PegCompiler.Proofs.Grammar.Basic
import PegCompiler.Proofs.Semantics.Values

namespace PegCompiler.Semantics

/-! ## The world of a parse -/

/-- What a parse is about. -/
structure World where
  grammar : Grammar
  bindings : Bindings
  text : String
  /-- The name of the text in locations. -/
  source : Option String

abbrev Call := HostCall HostFunction

namespace World

variable (w : World)

def input : Input := .ofString w.text

/-- What host code sees. -/
def view (saved pos : Nat) : HostView := ⟨w.input, w.source, saved, pos⟩

/-- A call of host code with the labels in scope, in the order of their definitions. -/
def call (kind : FunctionKind) (code : HostCode) (ls : Labels) (saved pos : Nat) : Call :=
  ⟨⟨kind, ls.names, code.val, code.span⟩, ls.values, w.view saved pos⟩

/-- What host code answers, if something is bound to it. -/
def answer? (code : HostCode) (ls : Labels) (saved pos : Nat) : Option Value :=
  (w.bindings.find? code.val).map fun f => f (w.view saved pos) ls.values

end World

/-- How an attempt to match ends. -/
inductive Result (α : Type)
  /-- It matches up to a position. -/
  | found (a : α) (stop : Nat)
  | failed

/-! ## Terminals -/

/-- What a terminal accepts: the beginning of the rest of a text that it matches. -/
def terminal? : Expr → Option (List Char → Option (List Char))
  | .literal _ value false => some fun rest => if value.toList.isPrefixOf rest then some value.toList else none
  | .literal _ value true => some (ParseState.icStart? (Case.lower value).toList)
  | .charClass _ k => some fun rest => (rest.head?.filter k.has).map ([·])
  | .any _ => some fun rest => rest.head?.map ([·])
  | _ => none

/-- What a terminal that fails would have accepted. -/
def expectation? : Expr → Option Expectation
  | .literal _ value ignoreCase => some (.literal value ignoreCase)
  | .charClass _ k => some (.charClass k)
  | .any _ => some .any
  | _ => none

/-! ## Bounds of repetitions -/

/-- A bound is a count; it may take a call to find out. -/
inductive Bound (w : World) (ls : Labels) (pos saved : Nat) : Boundary → List Call → Count → Prop
  | constant : Bound w ls pos saved (.constant n) [] (.fixed n)
  | label (h : ls.lookup name.val = some v) : Bound w ls pos saved (.label name) [] (.given v)
  | computed (h : w.answer? code ls saved pos = some v) :
      Bound w ls pos saved (.computed code) [w.call .boundary code ls saved pos] (.given v)

/-- The least and the greatest number of items; without a least bound the greatest one is both. -/
inductive Bounds (w : World) (ls : Labels) (pos saved : Nat) :
    Option Boundary → Boundary → List Call → (least : Nat) → (most : Option Nat) → Prop
  | exactly {max : Boundary} (h : Bound w ls pos saved max cs n) : Bounds w ls pos saved none max cs n.least n.most
  | between {min max : Boundary} (h : Bound w ls pos saved min cs₁ m) (h' : Bound w ls pos saved max cs₂ n) :
      Bounds w ls pos saved (some min) max (cs₁ ++ cs₂) m.least n.most

/-! ## Expressions -/

mutual

/-- An expression, with these labels in scope, at a position and with a place where an action's text begins:
the calls of host code, how it ends, and that place afterwards. -/
inductive Eval (w : World) : Expr → Labels → (pos saved : Nat) → List Call → Result Value → (saved' : Nat) → Prop
  /-- The first alternative that matches is taken. -/
  | first (h : Eval w first ls pos saved cs (.found v stop) saved') :
      Eval w (.choice i first others) ls pos saved cs (.found v stop) saved'
  | others (h : Eval w first ls pos saved cs₁ .failed saved₁)
      (rest : Eval w (.choice i e es) ls pos saved₁ cs₂ r saved') :
      Eval w (.choice i first (e :: es)) ls pos saved (cs₁ ++ cs₂) r saved'
  | noneLeft (h : Eval w first ls pos saved cs .failed saved') :
      Eval w (.choice i first []) ls pos saved cs .failed saved'
  | sequence (h : EvalAll w es ls pos saved cs (.found vs stop) saved') :
      Eval w (.sequence i es) ls pos saved cs (.found (sequenceValue es vs) stop) saved'
  | sequenceFails (h : EvalAll w es ls pos saved cs .failed saved') :
      Eval w (.sequence i es) ls pos saved cs .failed saved'
  | labeled (h : Eval w body ls pos saved cs r saved') : Eval w (.labeled i label pick body) ls pos saved cs r saved'
  /-- An action on a sequence sees the labels of the elements; it is not called if elements are marked. -/
  | actionOnAll (h : EvalAll w es ls pos saved cs (.found vs stop) saved₁) (hp : pickedOf es vs = [])
      (hv : w.answer? code (ls.afterAll es vs) pos stop = some v) :
      Eval w (.action i (.sequence j es) code) ls pos saved
        (cs ++ [w.call .action code (ls.afterAll es vs) pos stop]) (.found v stop) pos
  | actionPicks (h : EvalAll w es ls pos saved cs (.found vs stop) saved') (hp : pickedOf es vs ≠ []) :
      Eval w (.action i (.sequence j es) code) ls pos saved cs (.found (sequenceValue es vs) stop) saved'
  | actionOnAllFails (h : EvalAll w es ls pos saved cs .failed saved') :
      Eval w (.action i (.sequence j es) code) ls pos saved cs .failed saved'
  /-- An action on anything else sees its label. -/
  | action (hb : ∀ j es, body = .sequence j es → False) (h : Eval w body ls pos saved cs (.found u stop) saved₁)
      (hv : w.answer? code (ls.after body u) pos stop = some v) :
      Eval w (.action i body code) ls pos saved (cs ++ [w.call .action code (ls.after body u) pos stop])
        (.found v stop) pos
  | actionFails (hb : ∀ j es, body = .sequence j es → False) (h : Eval w body ls pos saved cs .failed saved') :
      Eval w (.action i body code) ls pos saved cs .failed saved'
  | text (h : Eval w body ls pos saved cs (.found v stop) saved') :
      Eval w (.text i body) ls pos saved cs (.found (.str (w.input.slice pos stop)) stop) saved'
  | textFails (h : Eval w body ls pos saved cs .failed saved') : Eval w (.text i body) ls pos saved cs .failed saved'
  /-- A lookahead consumes nothing. -/
  | simpleAnd (h : Eval w body ls pos saved cs (.found v stop) saved') :
      Eval w (.simpleAnd i body) ls pos saved cs (.found .null pos) saved'
  | simpleAndFails (h : Eval w body ls pos saved cs .failed saved') :
      Eval w (.simpleAnd i body) ls pos saved cs .failed saved'
  | simpleNot (h : Eval w body ls pos saved cs .failed saved') :
      Eval w (.simpleNot i body) ls pos saved cs (.found .null pos) saved'
  | simpleNotFails (h : Eval w body ls pos saved cs (.found v stop) saved') :
      Eval w (.simpleNot i body) ls pos saved cs .failed saved'
  | semanticAnd (hv : w.answer? code ls pos pos = some v) :
      Eval w (.semanticAnd i code) ls pos saved [w.call .predicate code ls pos pos]
        (if v.truthy then .found .null pos else .failed) pos
  | semanticNot (hv : w.answer? code ls pos pos = some v) :
      Eval w (.semanticNot i code) ls pos saved [w.call .predicate code ls pos pos]
        (if v.truthy then .failed else .found .null pos) pos
  | optional (h : Eval w body ls pos saved cs (.found v stop) saved') :
      Eval w (.optional i body) ls pos saved cs (.found v stop) saved'
  | absent (h : Eval w body ls pos saved cs .failed saved') :
      Eval w (.optional i body) ls pos saved cs (.found .null pos) saved'
  | zeroOrMore (h : Items w body none none ls 0 pos saved cs vs stop saved') :
      Eval w (.zeroOrMore i body) ls pos saved cs (.found (.array vs) stop) saved'
  | oneOrMore (h : Items w body none none ls 0 pos saved cs vs stop saved') (hv : vs ≠ []) :
      Eval w (.oneOrMore i body) ls pos saved cs (.found (.array vs) stop) saved'
  | oneOrMoreFails (h : Items w body none none ls 0 pos saved cs [] stop saved') :
      Eval w (.oneOrMore i body) ls pos saved cs .failed saved'
  /-- A repetition takes as many items as it may, and fails if it needs more. -/
  | repeated {min : Option Boundary} {max : Boundary} (hb : Bounds w ls pos saved min max cs₁ least most)
      (h : Items w body delimiter most ls 0 pos saved cs₂ vs stop saved') (hv : least ≤ vs.length) :
      Eval w (.repeated i body min max delimiter) ls pos saved (cs₁ ++ cs₂) (.found (.array vs) stop) saved'
  | repeatedFails {min : Option Boundary} {max : Boundary} (hb : Bounds w ls pos saved min max cs₁ least most)
      (h : Items w body delimiter most ls 0 pos saved cs₂ vs stop saved') (hv : vs.length < least) :
      Eval w (.repeated i body min max delimiter) ls pos saved (cs₁ ++ cs₂) .failed saved'
  | group (h : Eval w body ls pos saved cs r saved') : Eval w (.group i body) ls pos saved cs r saved'
  /-- A reference does what the rule does, which sees no labels. -/
  | ruleRef (hr : w.grammar.live? target = some rule) (h : Eval w rule.body [] pos saved cs r saved') :
      Eval w (.ruleRef i name (some target)) ls pos saved cs r saved'
  | accepted (ht : terminal? e = some t) (h : t (w.input.rest pos) = some text) :
      Eval w e ls pos saved [] (.found (.str (String.ofList text)) (pos + Input.byteLength text)) saved
  | rejected (ht : terminal? e = some t) (h : t (w.input.rest pos) = none) : Eval w e ls pos saved [] .failed saved
  | named (h : Eval w body ls pos saved cs r saved') : Eval w (.named i name body) ls pos saved cs r saved'

/-- Expressions one after the other, each of which sees the labels of those before it. -/
inductive EvalAll (w : World) :
    List Expr → Labels → (pos saved : Nat) → List Call → Result (List Value) → (saved' : Nat) → Prop
  | nil : EvalAll w [] ls pos saved [] (.found [] pos) saved
  | cons (h : Eval w e ls pos saved cs₁ (.found v pos₁) saved₁)
      (rest : EvalAll w es (ls.after e v) pos₁ saved₁ cs₂ (.found vs stop) saved') :
      EvalAll w (e :: es) ls pos saved (cs₁ ++ cs₂) (.found (v :: vs) stop) saved'
  | here (h : Eval w e ls pos saved cs .failed saved') : EvalAll w (e :: es) ls pos saved cs .failed saved'
  | later (h : Eval w e ls pos saved cs₁ (.found v pos₁) saved₁)
      (rest : EvalAll w es (ls.after e v) pos₁ saved₁ cs₂ .failed saved') :
      EvalAll w (e :: es) ls pos saved (cs₁ ++ cs₂) .failed saved'

/-- An item of a repetition after `n` others: from the second one on with a delimiter before it, if there is one. -/
inductive Item (w : World) : Expr → Option Expr → Labels → (n : Nat) → (pos saved : Nat) → List Call →
    Result Value → (saved' : Nat) → Prop
  | alone (hn : n = 0 ∨ delimiter = none) (h : Eval w body ls pos saved cs r saved') :
      Item w body delimiter ls n pos saved cs r saved'
  | delimited (hd : Eval w d ls pos saved cs₁ (.found u pos₁) saved₁)
      (h : Eval w body ls pos₁ saved₁ cs₂ r saved') :
      Item w body (some d) ls (n + 1) pos saved (cs₁ ++ cs₂) r saved'
  | noDelimiter (hd : Eval w d ls pos saved cs .failed saved') :
      Item w body (some d) ls (n + 1) pos saved cs .failed saved'

/-- The items of a repetition after `n` others, as many as come one after the other and are allowed. -/
inductive Items (w : World) : Expr → Option Expr → (most : Option Nat) → Labels → (n : Nat) → (pos saved : Nat) →
    List Call → List Value → (stop saved' : Nat) → Prop
  | full (hm : most.any (· ≤ n) = true) : Items w body delimiter most ls n pos saved [] [] pos saved
  | last (hm : most.any (· ≤ n) = false) (h : Item w body delimiter ls n pos saved cs .failed saved') :
      Items w body delimiter most ls n pos saved cs [] pos saved'
  | more (hm : most.any (· ≤ n) = false) (h : Item w body delimiter ls n pos saved cs₁ (.found v pos₁) saved₁)
      (rest : Items w body delimiter most ls (n + 1) pos₁ saved₁ cs₂ vs stop saved') :
      Items w body delimiter most ls n pos saved (cs₁ ++ cs₂) (v :: vs) stop saved'

end

end PegCompiler.Semantics
