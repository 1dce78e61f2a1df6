/-
Source text does not show where in the grammar it comes from. The walk along the stack of code with places and the walk
along the code without them are parallel (`parallel_block`): they are refused for the same reasons, and their statements
have the same text. A second block without code is left out; that it has none does not depend on places, since there is
some code in every place.
-/
import PegCompiler.Proofs.Code.Unmapped
import PegCompiler.Proofs.Emit.Methods
import PegCompiler.Proofs.Emit.RuleBody

namespace PegCompiler

/-! ## Text -/

/-- Two writers with the same text, wherever their lines come from. -/
structure CodeWriter.Alike (w w' : CodeWriter) : Prop where
  lines : w.lines.toList.map Line.written = w'.lines.toList.map Line.written
  indent : w.indent = w'.indent

namespace CodeWriter.Alike

variable {w w' v v' : CodeWriter}

theorem refl (w : CodeWriter) : w.Alike w := ⟨rfl, rfl⟩

theorem symm (h : w.Alike w') : w'.Alike w := ⟨h.lines.symm, h.indent.symm⟩

theorem line (h : w.Alike w') (text : String) : (w.line text).Alike (w'.line text) where
  lines := by
    unfold CodeWriter.line
    simp only [Array.toList_push, List.map_append, List.map_cons, List.map_nil, h.lines]
    rw [Line.written, Line.written, h.indent]
  indent := h.indent

theorem lineEach (h : w.Alike w') (slots : List Nat) (text : Nat → String) :
    (slots.foldl (fun w i => w.line (text i)) w).Alike (slots.foldl (fun w i => w.line (text i)) w') := by
  induction slots generalizing w w' with
  | nil => exact h
  | cons i slots ih => exact ih (h.line (text i))

theorem openBlock (h : w.Alike w') (text : String) : (w.openBlock text).Alike (w'.openBlock text) :=
  ⟨(h.line text).lines, congrArg (· + 1) h.indent⟩

theorem closeBlock (h : w.Alike w') (text : String) : (w.closeBlock text).Alike (w'.closeBlock text) := by
  have outdented : Alike { w with indent := w.indent - 1 } { w' with indent := w'.indent - 1 } :=
    ⟨h.lines, congrArg (· - 1) h.indent⟩
  exact outdented.line text

theorem reopenBlock (h : w.Alike w') (text : String) : (w.reopenBlock text).Alike (w'.reopenBlock text) :=
  ⟨(h.closeBlock text).lines, congrArg (· + 1) (h.closeBlock text).indent⟩

theorem pushOrigin (h : w.Alike w') (s : Span) : (w.pushOrigin s).Alike w' := ⟨h.lines, h.indent⟩

theorem popOrigin (h : w.Alike w') : w.popOrigin.Alike w' := ⟨h.lines, h.indent⟩

theorem nested (h : w.Alike w') : w.nested.Alike w'.nested := ⟨rfl, h.indent⟩

theorem append (h : w.Alike w') (h' : v.Alike v') : (w.append v).Alike (w'.append v') where
  lines := by
    unfold CodeWriter.append
    simp only [Array.toList_append, List.map_append, h.lines, h'.lines]
  indent := h.indent

theorem source (h : w.Alike w') : w.source = w'.source := by
  have eq : ∀ w : CodeWriter, w.source = (w.lines.toList.map Line.written).foldl (· ++ ·) "" := fun w => by
    unfold CodeWriter.source
    rw [← Array.foldl_toList, List.foldl_map]
  rw [eq, eq, h.lines]

end CodeWriter.Alike

namespace Statement

mutual

theorem write_alike (s : Statement) {w w' : CodeWriter} (h : w.Alike w') : (s.write w).Alike (s.write w') := by
  cases s with
  | set | keepPos | copyPos | restorePos | append | savePos | saveCurrent | silence | unsilence => exact h.line _
  | origin span => exact ((h.pushOrigin span).symm.pushOrigin span).symm
  | endOrigin => exact h.popOrigin.symm.popOrigin.symm
  | when test yes => exact (writeAll_alike yes (h.openBlock _)).closeBlock _
  | ite test yes no => exact (writeAll_alike no ((writeAll_alike yes (h.openBlock _)).reopenBlock _)).closeBlock _
  | whileOk v body => exact (writeAll_alike body (h.openBlock _)).closeBlock _

theorem writeAll_alike (ss : List Statement) {w w' : CodeWriter} (h : w.Alike w') :
    (writeAll ss w).Alike (writeAll ss w') := by
  cases ss with
  | nil => exact h
  | cons s ss => exact writeAll_alike ss (write_alike s h)

end

variable {ss ss' ts ts' : List Statement}

theorem writeAll_append (ss ts : List Statement) (w : CodeWriter) : writeAll (ss ++ ts) w = writeAll ts (writeAll ss w) := by
  induction ss generalizing w with
  | nil => rfl
  | cons s ss ih => exact ih (s.write w)

/-- Statements with the same text. -/
def SameText (ss ss' : List Statement) : Prop := ∀ w w', w.Alike w' → (writeAll ss w).Alike (writeAll ss' w')

namespace SameText

theorem refl (ss : List Statement) : SameText ss ss := fun _ _ hw => writeAll_alike ss hw

theorem append (h : SameText ss ss') (h' : SameText ts ts') : SameText (ss ++ ts) (ss' ++ ts') := fun w w' hw => by
  rw [writeAll_append, writeAll_append]
  exact h' _ _ (h _ _ hw)

theorem when (h : SameText ss ss') (test : Condition) : SameText [.when test ss] [.when test ss'] :=
  fun _ _ hw => (h _ _ (hw.openBlock _)).closeBlock _

theorem ite (h : SameText ss ss') (h' : SameText ts ts') (test : Condition) :
    SameText [.ite test ss ts] [.ite test ss' ts'] :=
  fun _ _ hw => (h' _ _ ((h _ _ (hw.openBlock _)).reopenBlock _)).closeBlock _

theorem whileOk (h : SameText ss ss') (v : Nat) : SameText [.whileOk v ss] [.whileOk v ss'] :=
  fun _ _ hw => (h _ _ (hw.openBlock _)).closeBlock _

/-- A place around statements has no text. -/
theorem bracket (h : SameText ss ss') (s : Span) : SameText (.origin s :: (ss ++ [.endOrigin])) ss' := fun w w' hw => by
  show (writeAll (ss ++ [.endOrigin]) (w.pushOrigin s)).Alike _
  rw [writeAll_append]
  exact (h _ _ (hw.pushOrigin s)).popOrigin

end SameText

end Statement

/-! ## Walks along the stack -/

namespace RuleBody

open Statement Code

variable {c : Context} {α β α' β' : Type}

/-- The progress with another number of places open. -/
def Progress.opening (p : Progress) (n : Nat) : Progress := { p with opened := n }

/-- Two walks are refused for the same reason, or have results that are related, and neither depends on how many places
are open or leaves another number open. -/
def Parallel (R : α → β → Prop) (x : Following α) (y : Following β) : Prop :=
  ∀ (p : Progress) (n : Nat), (∃ why, x p = .error why ∧ y (p.opening n) = .error why) ∨
    ∃ (a : α) (b : β) (q : Progress), R a b ∧ x p = .ok (a, q.opening p.opened) ∧ y (p.opening n) = .ok (b, q.opening n)

section Parallel

variable {R : α → β → Prop} {S : α' → β' → Prop}

theorem parallel_pure {a : α} {b : β} (h : R a b) : Parallel R (pure a) (pure b) :=
  fun p _ => .inr ⟨a, b, p, h, rfl, rfl⟩

theorem parallel_throw (why : EmitError) : Parallel R (throw why) (throw why) := fun _ _ => .inl ⟨why, rfl, rfl⟩

theorem Parallel.bind {x : Following α} {y : Following β} {f : α → Following α'} {g : β → Following β'}
    (h : Parallel R x y) (hf : ∀ a b, R a b → Parallel S (f a) (g b)) : Parallel S (x >>= f) (y >>= g) := by
  intro p n
  show (∃ why, (do let r ← x p; f r.1 r.2 : Except EmitError _) = .error why ∧
      (do let r ← y (p.opening n); g r.1 r.2 : Except EmitError _) = .error why) ∨
    ∃ (a : α') (b : β') (q : Progress), S a b ∧ (do let r ← x p; f r.1 r.2 : Except EmitError _) = .ok (a, q.opening p.opened) ∧
      (do let r ← y (p.opening n); g r.1 r.2 : Except EmitError _) = .ok (b, q.opening n)
  rcases h p n with ⟨why, hx, hy⟩ | ⟨a, b, q, hr, hx, hy⟩
  · rw [hx, hy]
    exact .inl ⟨why, rfl, rfl⟩
  · rw [hx, hy]
    exact hf a b hr (q.opening p.opened) n

theorem Parallel.mono {R' : α → β → Prop} {x : Following α} {y : Following β} (h : Parallel R x y)
    (hR : ∀ a b, R a b → R' a b) : Parallel R' x y := fun p n =>
  (h p n).imp_right fun ⟨a, b, q, hr, hx, hy⟩ => ⟨a, b, q, hR a b hr, hx, hy⟩

theorem parallel_get {f : Progress → Following α} {g : Progress → Following β}
    (h : ∀ p n, Parallel R (f p) (g (p.opening n))) : Parallel R (get >>= f) (get >>= g) :=
  fun p n => h p n p n

theorem parallel_modify {f : Progress → Progress} (h : ∀ p n, f (p.opening n) = (f p).opening n) :
    Parallel Eq (modify f) (modify f) := by
  intro p n
  refine .inr ⟨⟨⟩, ⟨⟩, f p, rfl, ?_, ?_⟩
  · show (.ok (PUnit.unit, f p) : Except EmitError _) = .ok (PUnit.unit, (f p).opening p.opened)
    rw [← h]
    rfl
  · show (.ok (PUnit.unit, f (p.opening n)) : Except EmitError _) = _
    rw [h]

end Parallel

/-- The walk does not depend on how many places are open. -/
abbrev Blind (x : Following α) : Prop := Parallel Eq x x

theorem blind_pure (a : α) : Blind (pure a) := parallel_pure rfl

theorem Blind.bind {x : Following α} {f : α → Following β} (h : Blind x) (hf : ∀ a, Blind (f a)) : Blind (x >>= f) :=
  Parallel.bind h fun a _ hab => hab ▸ hf a

theorem blind_slot (kind : SlotKind) (d : Nat) : Blind (slot c kind d) := by
  refine parallel_get fun p n => ?_
  show Blind (if p.stack.isEmpty then refuse c .underflow else _)
  split
  · exact parallel_throw _
  · split
    · exact parallel_throw _
    · dsimp only
      split
      · exact blind_pure _
      · exact parallel_throw _

theorem blind_push (kind : SlotKind) : Blind (push c kind) := by
  refine parallel_get fun p n => ?_
  show Blind (if c.limit < p.stack.length then refuse c (.tooDeep p.stack.length c.limit) else _)
  split
  · exact parallel_throw _
  · refine Blind.bind (parallel_modify fun q m => ?_) fun _ => blind_pure _
    cases kind <;> rfl

theorem blind_pop (count : Nat) : Blind (pop c count) := by
  refine parallel_get fun p n => ?_
  show Blind (if p.stack.length < count then refuse c .underflow else _)
  split
  · exact parallel_throw _
  · exact parallel_modify fun _ _ => rfl

theorem blind_compute (what : Computation) : Blind (compute c what) := (blind_push .value).bind fun _ => blind_pure _

theorem blind_topValues (n : Nat) : Blind (topValues c n) := by
  induction n with
  | zero => exact blind_pure _
  | succ n ih => exact (blind_slot .value n).bind fun _ => ih.bind fun _ => blind_pure _

theorem blind_slots (ds : List Nat) : Blind (ds.mapM (slot c .value)) := by
  induction ds with
  | nil => exact blind_pure _
  | cons d ds ih =>
    rw [List.mapM_cons]
    exact (blind_slot .value d).bind fun _ => ih.bind fun _ => blind_pure _

theorem blind_condition (test : Test Raw) : Blind (condition c test) := by
  cases test with
  | isTrue | isError | isOk | fewer | atLeast => exact (blind_slot .value 0).bind fun _ => blind_pure _
  | fewerThan d | atLeastThan d => exact (blind_slot .value 0).bind fun _ => (blind_slot .value d).bind fun _ => blind_pure _
  | anyChar | string | stringIc | charClass => exact blind_pure _

theorem blind_nip : Blind (nip c) := by
  refine parallel_get fun p n => ?_
  rw [show (p.opening n).stack = p.stack from rfl]
  cases p.stack.head? with
  | none => exact parallel_throw _
  | some kind =>
    exact (blind_slot kind 0).bind fun _ => (blind_pop 2).bind fun _ => (blind_push kind).bind fun _ => blind_pure _

theorem blind_call (f n : Nat) (args : List Nat) : Blind (call c f n args) := by
  unfold call
  split
  · exact parallel_throw _
  · exact (blind_slots args).bind fun _ => (blind_pop n).bind fun _ => blind_compute _

/-- Whether an instruction has no blocks and ends no bracket. -/
def isBare : Instr Raw → Bool
  | .cond .. | .whileOk _ | .mapPush _ | .mapPop => false
  | _ => true

theorem blind_simple {i : Instr Raw} (hi : isBare i = true) : Blind (simple c i) := by
  cases i with
  | cond | whileOk | mapPush | mapPop => cases hi
  | pushEmptyString | pushNull | pushFailed | pushEmptyArray | acceptN | acceptString | acceptStringIc | fail =>
    exact blind_compute _
  | pushPos => exact (blind_push .pos).bind fun _ => blind_pure _
  | pop | popN => exact (blind_pop _).bind fun _ => blind_pure _
  | popPos => exact (blind_slot .pos 0).bind fun _ => (blind_pop 1).bind fun _ => blind_pure _
  | nip => exact blind_nip
  | append =>
    exact (blind_slot .value 0).bind fun _ => (blind_slot .value 1).bind fun _ => (blind_pop 1).bind fun _ => blind_pure _
  | wrap n => exact (blind_topValues n).bind fun _ => (blind_pop n).bind fun _ => blind_compute _
  | text => exact (blind_slot .pos 0).bind fun _ => (blind_pop 1).bind fun _ => blind_compute _
  | pluck n picks => exact (blind_slots picks).bind fun _ => (blind_pop n).bind fun _ => blind_compute _
  | loadSavedPos d => exact (blind_slot .pos d).bind fun _ => blind_pure _
  | updateSavedPos | silence | unsilence => exact blind_pure _
  | call f n args => exact blind_call f n args
  | rule r =>
    cases hr : c.ruleName? r <;> simp only [simple, hr]
    · exact parallel_throw _
    · exact blind_compute _
  | defect why => exact parallel_throw _

/-! ## Code and code without places -/

/-- What statements depend on, without places. -/
def Context.unmapped (c : Context) : Context := { c with constants := c.constants.unmapped }

theorem topValues_unmapped (n : Nat) : topValues c.unmapped n = topValues c n := by
  induction n with
  | zero => rfl
  | succ n ih =>
    unfold topValues
    rw [ih]
    rfl

theorem parallel_bare {i : Instr Raw} (hi : isBare i = true) :
    Parallel SameText (instr c i) (instr c.unmapped i) := by
  have same : instr c.unmapped i = simple c i := by
    cases i with
    | cond | whileOk | mapPush | mapPop => cases hi
    | wrap n =>
      show (do let items ← topValues c.unmapped n; _ : Following (List Statement)) = _
      rw [topValues_unmapped]
      rfl
    | _ => rfl
  have here : instr c i = simple c i := by
    cases i with
    | cond | whileOk => cases hi
    | _ => rfl
  rw [here, same]
  exact (blind_simple hi).mono fun _ _ same => same ▸ .refl _

theorem parallel_cons {i j : Instr Raw} {code code' : Code Raw}
    (hi : Parallel SameText (instr c i) (instr c.unmapped j))
    (h : Parallel SameText (block c code) (block c.unmapped code')) :
    Parallel SameText (block c (i :: code)) (block c.unmapped (j :: code')) :=
  hi.bind fun _ _ first => h.bind fun _ _ rest => parallel_pure (first.append rest)

theorem parallel_cond (test : Test Raw) {yes no yes' no' : Code Raw} (sides : no'.isEmpty = no.isEmpty)
    (hyes : Parallel SameText (block c yes) (block c.unmapped yes'))
    (hno : Parallel SameText (block c no) (block c.unmapped no')) :
    Parallel SameText (instr c (.cond test yes no)) (instr c.unmapped (.cond test yes' no')) := by
  have tested : Parallel Eq (condition c test) (condition c.unmapped test) := by
    have same : condition c.unmapped test = condition c test := by cases test <;> rfl
    rw [same]
    exact blind_condition test
  unfold instr
  refine tested.bind fun t t' ht => parallel_get fun p n => hyes.bind fun ss ss' hss => parallel_get fun q m => ?_
  subst ht
  refine (parallel_modify fun _ _ => rfl).bind fun _ _ _ => hno.bind fun ts ts' hts => parallel_get fun r l => ?_
  show Parallel SameText (if q.stack = r.stack then _ else _) (if q.stack = r.stack then _ else _)
  split
  · -- whether the second block is written depends on whether there is code in it
    rw [sides]
    refine parallel_pure ?_
    split
    · exact hss.when t
    · exact hss.ite hts t
  · exact parallel_throw _

theorem parallel_whileOk {body body' : Code Raw} (h : Parallel SameText (block c body) (block c.unmapped body')) :
    Parallel SameText (instr c (.whileOk body)) (instr c.unmapped (.whileOk body')) := by
  have array : Parallel Eq (slot c .value 0) (slot c.unmapped .value 0) := blind_slot .value 0
  unfold instr
  refine array.bind fun v v' hv => parallel_get fun p n => h.bind fun ss ss' hss => parallel_get fun q m => ?_
  subst hv
  show Parallel SameText (if p.stack = q.stack then _ else _) (if p.stack = q.stack then _ else _)
  split
  · exact parallel_pure (hss.whileOk v)
  · exact parallel_throw _

theorem parallel_bracket {inner : Code Raw} {y : Following (List Statement)} (h : Parallel SameText (block c inner) y)
    {i : Nat} {place : Span} (hi : c.constants.origins.get? i = some place) :
    Parallel SameText (block c ([.mapPush i] ++ inner ++ [.mapPop])) y := by
  intro p n
  rw [block_bracket hi]
  rcases h (p.opening (p.opened + 1)) n with ⟨why, hx, hy⟩ | ⟨ss, ss', q, hss, hx, hy⟩
  · refine .inl ⟨why, ?_, hy⟩
    rw [show block c inner { p with opened := p.opened + 1 } = _ from hx]
    rfl
  · refine .inr ⟨.origin place :: (ss ++ [.endOrigin]), ss', q, hss.bracket place, ?_, hy⟩
    rw [show block c inner { p with opened := p.opened + 1 } = _ from hx]
    rfl

/-- The walks along known code and along the same code without its places are parallel. -/
theorem parallel_block {code : Code Inline} (h : Bracketed code) (known : Known c.constants code) :
    Parallel SameText (block c (raw (link c.constants code)))
      (block c.unmapped (Code.unmapped (raw (link c.constants code)))) := by
  induction h with
  | nil => exact parallel_pure (.refl [])
  | @alone i code hi _ ih =>
    cases i with
    | cond | whileOk | mapPush | mapPop | defect | call => cases hi
    | _ => exact parallel_cons (parallel_bare rfl) (ih known.2)
  | call _ ih => exact parallel_cons (parallel_bare rfl) (ih known.2)
  | defect => exact known.1.elim
  | cond _ hno _ ihYes ihNo ih =>
    obtain ⟨⟨-, knownYes, knownNo⟩, known⟩ := known
    exact parallel_cons (parallel_cond _ (hno.isEmpty_unmapped knownNo) (ihYes knownYes) (ihNo knownNo)) (ih known)
  | whileOk _ _ ihBody ih => exact parallel_cons (parallel_whileOk (ihBody known.1)) (ih known.2)
  | @bracket s inner code _ _ _ ihInner ih =>
    obtain ⟨knownPlace, known⟩ := known
    obtain ⟨knownInner, -, knownCode⟩ := known_append.1 known
    -- linked code keeps the bracket around what is in it, and nothing of it is left without places
    have linked : raw (link c.constants (.mapPush s :: (inner ++ .mapPop :: code))) =
        [.mapPush (c.constants.origins.indexOf s)] ++ raw (link c.constants inner) ++ [.mapPop] ++
          raw (link c.constants code) := by
      show raw (.mapPush _ :: link c.constants (inner ++ .mapPop :: code)) = _
      rw [link_append, raw, raw_append]
      simp only [List.append_assoc, List.cons_append]
      rfl
    have left : Code.unmapped (raw (link c.constants (.mapPush s :: (inner ++ .mapPop :: code)))) =
        Code.unmapped (raw (link c.constants inner)) ++ Code.unmapped (raw (link c.constants code)) := by
      rw [linked, unmapped_append, unmapped_append, unmapped_append]
      simp only [Code.unmapped, Instr.unmapped, List.nil_append, List.append_nil]
    rw [left, linked, block_append (c := c), block_append (c := c.unmapped)]
    exact (parallel_bracket (ihInner knownInner) (Pool.get?_indexOf knownPlace)).bind fun _ _ first =>
      (ih knownCode).bind fun _ _ rest => parallel_pure (first.append rest)

end RuleBody

/-! ## Results -/

section Equivalent

variable {ε α β α' β' : Type} {R : α → β → Prop} {S : α' → β' → Prop}

/-- Two computations fail for the same reason, or have results that are related. -/
def Equivalent (R : α → β → Prop) (x : Except ε α) (y : Except ε β) : Prop :=
  (∃ why, x = .error why ∧ y = .error why) ∨ ∃ a b, R a b ∧ x = .ok a ∧ y = .ok b

theorem equivalent_ok {a : α} {b : β} (h : R a b) : Equivalent R (.ok a : Except ε α) (.ok b) :=
  .inr ⟨a, b, h, rfl, rfl⟩

theorem Equivalent.bind {x : Except ε α} {y : Except ε β} {f : α → Except ε α'} {g : β → Except ε β'}
    (h : Equivalent R x y) (hf : ∀ a b, R a b → Equivalent S (f a) (g b)) : Equivalent S (x >>= f) (y >>= g) := by
  rcases h with ⟨why, rfl, rfl⟩ | ⟨a, b, hr, rfl, rfl⟩
  · exact .inl ⟨why, rfl, rfl⟩
  · exact hf a b hr

theorem equivalent_refl (x : Except ε α) : Equivalent Eq x x := by
  cases x with
  | error why => exact .inl ⟨why, rfl, rfl⟩
  | ok a => exact .inr ⟨a, a, rfl, rfl, rfl⟩

end Equivalent

/-! ## Rules -/

namespace RuleBody

open Statement Code

/-- Bodies with the same variables and the same text. -/
structure Alike (b b' : RuleBody) : Prop where
  positions : b.positions = b'.positions
  values : b.values = b'.values
  statements : SameText b.statements b'.statements

theorem Alike.write {b b' : RuleBody} (h : b.Alike b') {w w' : CodeWriter} (hw : w.Alike w') :
    (b.write w).Alike (b'.write w') := by
  unfold RuleBody.write
  rw [h.positions, h.values]
  exact ((hw.lineEach _ _).lineEach _ _).append (h.statements _ _ hw.nested)

/-- With or without its places, code makes bodies of rules that are alike, or is refused for the same reason. -/
theorem ofCode_unmapped {c : Context} {code : Code Inline} (h : Bracketed code) (known : Known c.constants code) :
    Equivalent Alike (ofCode c (raw (link c.constants code)))
      (ofCode c.unmapped (Code.unmapped (raw (link c.constants code)))) := by
  unfold ofCode
  simp only [StateT.run]
  rcases parallel_block h known ⟨[], [], [], 1⟩ 1 with ⟨why, hx, hy⟩ | ⟨ss, ss', q, hss, hx, hy⟩
  · rw [hx, show block c.unmapped _ ⟨[], [], [], 1⟩ = _ from hy]
    exact .inl ⟨why, rfl, rfl⟩
  · rw [hx, show block c.unmapped _ ⟨[], [], [], 1⟩ = _ from hy]
    show Equivalent Alike (if q.stack = [.value] then _ else _) (if q.stack = [.value] then _ else _)
    split
    · exact equivalent_ok ⟨rfl, rfl, hss⟩
    · exact .inl ⟨_, rfl, rfl⟩

end RuleBody

/-- Methods that differ in where their text comes from. -/
structure Method.Alike (m m' : Method) : Prop where
  name : m.name = m'.name
  rule : m.rule = m'.rule
  span : m.span = m'.span
  body : m.body.Alike m'.body

namespace Source

variable {p p' : Parts}

theorem traced_alike (o : CompileOptions) (statement : String) {w w' : CodeWriter} (h : w.Alike w') :
    (traced o statement w).Alike (traced o statement w') := by
  unfold traced
  split
  · exact ((h.openBlock _).line _).closeBlock _
  · exact h

/-- What is written is not asked for in the text of a method. -/
theorem write_alike {m m' : Method} (hm : m.Alike m') (o : CompileOptions) (output : OutputKind) {w w' : CodeWriter}
    (h : w.Alike w') : (m.write o w).Alike (m'.write { o with output } w') := by
  obtain ⟨name, r, span, body⟩ := m
  obtain ⟨name', r', span', body'⟩ := m'
  obtain ⟨rfl, rfl, rfl, hbody⟩ := hm
  have opened := ((h.pushOrigin span).symm.pushOrigin span).symm.openBlock
    (s!"fn parse_{name}(&mut self) -> Value " ++ "\x7b")
  have entered := traced_alike o s!"self.st.trace_enter({Quoted.string name}, start);" (opened.line "let start = self.st.pos;")
  unfold Method.write
  dsimp only
  cases o.cache with
  | false => exact (((traced_alike o _ (hbody.write entered)).line _).closeBlock _).popOrigin.symm.popOrigin.symm
  | true =>
    have looked := ((traced_alike o s!"self.st.trace_exit({Quoted.string name}, start, &cached, true);"
      (entered.openBlock (s!"if let Some(cached) = self.st.cache_lookup({r}) " ++ "\x7b"))).line
      "return cached;").closeBlock "\x7d"
    exact (((traced_alike o _ ((hbody.write looked).line _)).line _).closeBlock _).popOrigin.symm.popOrigin.symm

/-- Parts of a parser with places in the grammar, and the same parts without. -/
structure Parts.Unmaps (p p' : Parts) : Prop where
  grammar : p'.grammar = p.grammar
  options : p'.options = { p.options with output := p'.options.output }
  startRules : p'.startRules = p.startRules
  constants : p'.constants = p.constants.unmapped
  code : ∀ r rule, p.grammar.live? r = some rule → ∃ (code : Code Inline) (slot : Nat), code.Bracketed ∧
    code.Known p.constants ∧ p.bytecode r = ⟨(code.link p.constants).encode, slot⟩ ∧
    p'.bytecode r = ⟨(code.link p.constants).unmapped.encode, slot⟩

/-- The methods of rules are alike. -/
theorem Parts.Unmaps.method (h : p.Unmaps p') {r : RuleId} {rule : Rule} (hr : p.grammar.live? r = some rule) :
    Equivalent Method.Alike (method p r rule) (method p' r rule) := by
  obtain ⟨code, slot, bracketed, known, hcode, hcode'⟩ := h.code r rule hr
  unfold Source.method
  rw [h.grammar, h.constants, hcode, hcode']
  dsimp only
  rw [Code.decode_encode, Code.decode_encode, Code.raw_unmapped]
  refine Equivalent.bind (RuleBody.ofCode_unmapped (c := ⟨rule.name, slot, p.constants, _⟩) bracketed known)
    fun b b' hb => equivalent_ok ⟨rfl, rfl, rfl, hb⟩

/-- So is the text of all of them. -/
theorem Parts.Unmaps.rules (h : p.Unmaps p') {rs : List (RuleId × Rule)}
    (hrs : ∀ x ∈ rs, p.grammar.live? x.1 = some x.2) {w w' : CodeWriter} (hw : w.Alike w') :
    Equivalent CodeWriter.Alike (rules p rs w) (rules p' rs w') := by
  induction rs generalizing w w' with
  | nil => exact equivalent_ok hw
  | cons head rs ih =>
    unfold Source.rules
    rw [rule_eq, rule_eq]
    refine Equivalent.bind (Equivalent.bind (h.method (hrs head List.mem_cons_self)) fun m m' hm => equivalent_ok ?_)
      fun v v' hv => ih (fun x hx => hrs x (List.mem_cons_of_mem _ hx)) hv
    rw [h.options]
    exact write_alike hm p.options _ hw

/-- Source text is written alike, or refused for the same reason. -/
theorem Parts.Unmaps.write (h : p.Unmaps p') : Equivalent CodeWriter.Alike (write p) (write p') := by
  have each (w w' : CodeWriter) (hw : w.Alike w') :
      Equivalent CodeWriter.Alike (Source.rules p p.grammar.live w) (Source.rules p' p.grammar.live w') :=
    h.rules (fun x hx => Grammar.mem_live.1 hx) hw
  obtain ⟨g, o, s, k, b⟩ := p
  obtain ⟨g', o', s', k', b'⟩ := p'
  obtain rfl : g' = g := h.grammar
  obtain rfl : s' = s := h.startRules
  obtain rfl : k' = k.unmapped := h.constants
  have options : o' = { o with output := o'.output } := h.options
  unfold Source.write
  dsimp only
  rw [show header o' g'.topLevelInitializer = header o g'.topLevelInitializer by rw [options]; rfl]
  refine Equivalent.bind (equivalent_refl _) fun w w' same => ?_
  subst same
  exact (each _ _ (.refl _)).bind fun v v' hv => equivalent_ok (hv.closeBlock _)

end Source

end PegCompiler
