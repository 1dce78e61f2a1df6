/-
What it says about code that the second walk along the stack accepted it. `Takes` lists the instructions
with the kinds of the slots that they need, the statements that they become and the kinds that they
leave; `Walk` puts them together into code. Every walk that ends without a fault is such a one
(`walk_of_block`).
-/
import PegCompiler.Emit.RuleBody
import PegCompiler.Proofs.Machine.Exec

namespace PegCompiler

/-- The number of the slot at a distance from the top. -/
def StackKinds.index (s : StackKinds) (distance : Nat) : Nat := s.length - 1 - distance

namespace StackKinds

@[simp]
theorem index_zero (kind : SlotKind) (s : StackKinds) : index (kind :: s) 0 = s.length := by simp [index]

@[simp]
theorem index_succ (kind : SlotKind) (s : StackKinds) (d : Nat) : index (kind :: s) (d + 1) = index s d := by
  simp only [index, List.length_cons]
  omega

theorem index_lt {s : StackKinds} {d : Nat} {kind : SlotKind} (h : s[d]? = some kind) : s.index d < s.length := by
  obtain ⟨hd, -⟩ := List.getElem?_eq_some_iff.1 h
  simp only [index]
  omega

end StackKinds

namespace RuleBody

/-- What the value is that an instruction pushes without looking at the stack. -/
def produced : Instr Raw → Option Computation
  | .pushEmptyString => some .emptyString
  | .pushNull => some .null
  | .pushFailed => some .failed
  | .pushEmptyArray => some .emptyArray
  | .acceptN n => some (.acceptN n)
  | .acceptString i => some (.acceptString i)
  | .acceptStringIc i => some (.acceptStringIc i)
  | .fail i => some (.fail i)
  | _ => none

/-- The statement that copies a slot to another one of its kind. -/
def copied : SlotKind → (target source : Nat) → Statement
  | .pos, target, source => .copyPos target source
  | .value, target, source => .set target (.take source)

/-- An instruction without blocks that calls no rule takes a stack of these kinds, becomes these statements, and
leaves a stack of those kinds. -/
inductive Takes (c : Context) : Instr Raw → StackKinds → List Statement → StackKinds → Prop
  | produce {i : Instr Raw} {what : Computation} {s : StackKinds} (h : produced i = some what)
      (room : s.length ≤ c.limit) : Takes c i s [.set s.length what] (.value :: s)
  | pushPos {s : StackKinds} (room : s.length ≤ c.limit) : Takes c .pushPos s [.keepPos s.length] (.pos :: s)
  | pop {kind : SlotKind} {s : StackKinds} : Takes c .pop (kind :: s) [] s
  | popPos {s : StackKinds} : Takes c .popPos (.pos :: s) [.restorePos s.length] s
  | popN {n : Nat} {s : StackKinds} (h : n ≤ s.length) : Takes c (.popN n) s [] (s.drop n)
  | nip {kind below : SlotKind} {s : StackKinds} (room : s.length ≤ c.limit) :
      Takes c .nip (kind :: below :: s) [copied kind s.length (s.length + 1)] (kind :: s)
  | append {s : StackKinds} :
      Takes c .append (.value :: .value :: s) [.append s.length (s.length + 1)] (.value :: s)
  | wrap {n : Nat} {s : StackKinds} (hn : n ≤ s.length) (values : ∀ d < n, s[d]? = some .value)
      (room : s.length - n ≤ c.limit) :
      Takes c (.wrap n) s [.set (s.length - n) (.array ((List.range n).reverse.map s.index))] (.value :: s.drop n)
  | text {s : StackKinds} (room : s.length ≤ c.limit) :
      Takes c .text (.pos :: s) [.set s.length (.textFrom s.length)] (.value :: s)
  | pluck {n : Nat} {picks : List Nat} {s : StackKinds} (hn : n ≤ s.length)
      (values : ∀ d ∈ picks, s[d]? = some .value) (room : s.length - n ≤ c.limit) :
      Takes c (.pluck n picks) s [.set (s.length - n) (pickedFrom (picks.map s.index))] (.value :: s.drop n)
  | loadSavedPos {d : Nat} {s : StackKinds} (h : s[d]? = some .pos) :
      Takes c (.loadSavedPos d) s [.savePos (s.index d)] s
  | updateSavedPos {s : StackKinds} : Takes c .updateSavedPos s [.saveCurrent] s
  | call {f n : Nat} {args : List Nat} {function : HostFunction} {s : StackKinds}
      (hf : c.constants.functions.get? f = some function) (hn : n ≤ s.length)
      (values : ∀ d ∈ args, s[d]? = some .value) (room : s.length - n ≤ c.limit) :
      Takes c (.call f n args) s [.set (s.length - n) (.call function.kind f (args.map s.index))] (.value :: s.drop n)
  | silence {s : StackKinds} : Takes c .silence s [.silence] s
  | unsilence {s : StackKinds} : Takes c .unsilence s [.unsilence] s
  | mapPush {i : Nat} {span : Span} {s : StackKinds} : Takes c (.mapPush i) s [.origin span] s
  | mapPop {s : StackKinds} : Takes c .mapPop s [.endOrigin] s

/-- Instructions with blocks and calls of rules are not among them. -/
theorem Takes.isPlain {c : Context} {i : Instr Raw} {s s' : StackKinds} {ss : List Statement} (h : Takes c i s ss s') :
    Machine.isPlain i = true := by
  cases h with
  | produce h room => cases i <;> first | rfl | cases h
  | _ => rfl

theorem takes_unsilence {c : Context} {s s' : StackKinds} {ss : List Statement} (h : Takes c .unsilence s ss s') :
    ss = [.unsilence] ∧ s' = s := by
  cases h with
  | produce h => cases h
  | unsilence => exact ⟨rfl, rfl⟩

/-- What a test becomes, and the kinds it needs. -/
inductive Tests : Test Raw → StackKinds → Condition → Prop
  | isTrue {s : StackKinds} (h : s[0]? = some .value) : Tests .isTrue s (.truthy (s.index 0))
  | isError {s : StackKinds} (h : s[0]? = some .value) : Tests .isError s (.failed (s.index 0))
  | isOk {s : StackKinds} (h : s[0]? = some .value) : Tests .isOk s (.succeeded (s.index 0))
  | fewer {n : Nat} {s : StackKinds} (h : s[0]? = some .value) : Tests (.fewer n) s (.fewer (s.index 0) n)
  | atLeast {n : Nat} {s : StackKinds} (h : s[0]? = some .value) : Tests (.atLeast n) s (.atLeast (s.index 0) n)
  | fewerThan {d : Nat} {s : StackKinds} (h : s[0]? = some .value) (hd : s[d]? = some .value) :
      Tests (.fewerThan d) s (.fewerThan (s.index 0) (s.index d))
  | atLeastThan {d : Nat} {s : StackKinds} (h : s[0]? = some .value) (hd : s[d]? = some .value) :
      Tests (.atLeastThan d) s (.atLeastThan (s.index 0) (s.index d))
  | anyChar {s : StackKinds} : Tests .anyChar s .anyChar
  | string {i : Nat} {s : StackKinds} : Tests (.string i) s (.string i)
  | stringIc {i : Nat} {s : StackKinds} : Tests (.stringIc i) s (.stringIc i)
  | charClass {i : Nat} {s : StackKinds} : Tests (.charClass i) s (.charClass i)

/-- Code takes a stack of these kinds, becomes these statements, and leaves a stack of those kinds. -/
inductive Walk (c : Context) : Code Raw → StackKinds → List Statement → StackKinds → Prop
  | nil {s : StackKinds} : Walk c [] s [] s
  | plain {i : Instr Raw} {code : Code Raw} {s s₁ s' : StackKinds} {first rest : List Statement}
      (h : Takes c i s first s₁) (after : Walk c code s₁ rest s') : Walk c (i :: code) s (first ++ rest) s'
  | rule {r : Nat} {name : String} {code : Code Raw} {s s' : StackKinds} {rest : List Statement}
      (h : c.ruleName? r = some name) (room : s.length ≤ c.limit) (after : Walk c code (.value :: s) rest s') :
      Walk c (.rule r :: code) s (.set s.length (.rule name) :: rest) s'
  | cond {test : Test Raw} {yes no code : Code Raw} {test' : Condition} {s s₁ s' : StackKinds}
      {yes' no' rest : List Statement} (h : Tests test s test') (hyes : Walk c yes s yes' s₁)
      (hno : Walk c no s no' s₁) (after : Walk c code s₁ rest s') :
      Walk c (.cond test yes no :: code) s
        ((if no.isEmpty then .when test' yes' else .ite test' yes' no') :: rest) s'
  | whileOk {body code : Code Raw} {s s' : StackKinds} {body' rest : List Statement} (h : s[0]? = some .value)
      (hbody : Walk c body s body' s) (after : Walk c code s rest s') :
      Walk c (.whileOk body :: code) s (.whileOk (s.index 0) body' :: rest) s'

/-! ## Steps of the walk -/

section Steps

variable {c : Context} {p p' : Progress} {α β : Type}

theorem following_bind {m : Following α} {f : α → Following β} {b : β} :
    (m >>= f) p = .ok (b, p') ↔ ∃ a p₁, m p = .ok (a, p₁) ∧ f a p₁ = .ok (b, p') := by
  show (do let x ← m p; f x.1 x.2 : Except EmitError (β × Progress)) = _ ↔ _
  cases m p with
  | error why => simp [bind, Except.bind]
  | ok x =>
    show f x.1 x.2 = _ ↔ _
    constructor
    · intro h
      exact ⟨x.1, x.2, rfl, h⟩
    · rintro ⟨a, p₁, e, h⟩
      cases e
      exact h

theorem following_pure {a b : α} : (pure a : Following α) p = .ok (b, p') ↔ a = b ∧ p = p' := by
  show Except.ok (a, p) = _ ↔ _
  simp

theorem following_get {f : Progress → Following α} : (get >>= f) p = f p p := rfl

theorem following_modify {f : Progress → Progress} {u : PUnit} :
    (modify f : Following PUnit) p = .ok (u, p') ↔ f p = p' := by
  show Except.ok (PUnit.unit, f p) = _ ↔ _
  simp

theorem not_refused {fault : BodyFault} {a : α} : ¬ (refuse c fault : Following α) p = .ok (a, p') := nofun

theorem slot_ok {kind : SlotKind} {d i : Nat} (h : slot c kind d p = .ok (i, p')) :
    p.stack[d]? = some kind ∧ i = p.stack.index d ∧ p' = p := by
  unfold slot at h
  rw [following_get] at h
  split at h
  · exact absurd h not_refused
  · cases hfound : p.stack[d]? with
    | none =>
      simp only [hfound] at h
      exact absurd h not_refused
    | some found =>
      simp only [hfound] at h
      split at h
      · rename_i hkind
        obtain ⟨rfl, rfl⟩ := following_pure.1 h
        exact ⟨congrArg some hkind, rfl, rfl⟩
      · exact absurd h not_refused

theorem push_ok {kind : SlotKind} {i : Nat} (h : push c kind p = .ok (i, p')) :
    i = p.stack.length ∧ p.stack.length ≤ c.limit ∧ p'.stack = kind :: p.stack := by
  unfold push at h
  rw [following_get] at h
  split at h
  · exact absurd h not_refused
  · rename_i room
    obtain ⟨u, p₂, h₂, h⟩ := following_bind.1 h
    obtain rfl := following_modify.1 h₂
    obtain ⟨rfl, rfl⟩ := following_pure.1 h
    refine ⟨rfl, by omega, ?_⟩
    cases kind <;> rfl

theorem pop_ok {n : Nat} {u : Unit} (h : pop c n p = .ok (u, p')) :
    n ≤ p.stack.length ∧ p'.stack = p.stack.drop n := by
  unfold pop at h
  rw [following_get] at h
  split at h
  · exact absurd h not_refused
  · rename_i enough
    obtain rfl := following_modify.1 h
    exact ⟨by omega, rfl⟩

theorem compute_ok {what : Computation} {ss : List Statement} (h : compute c what p = .ok (ss, p')) :
    ss = [.set p.stack.length what] ∧ p.stack.length ≤ c.limit ∧ p'.stack = .value :: p.stack := by
  obtain ⟨i, p₁, hpush, h⟩ := following_bind.1 h
  obtain ⟨rfl, rfl⟩ := following_pure.1 h
  obtain ⟨rfl, room, stack⟩ := push_ok hpush
  exact ⟨rfl, room, stack⟩

theorem slots_ok {ds is : List Nat} (h : ds.mapM (slot c .value) p = .ok (is, p')) :
    (∀ d ∈ ds, p.stack[d]? = some .value) ∧ is = ds.map p.stack.index ∧ p' = p := by
  induction ds generalizing is with
  | nil =>
    obtain ⟨rfl, rfl⟩ := following_pure.1 (List.mapM_nil (f := slot c .value) ▸ h)
    simp
  | cons d ds ih =>
    rw [List.mapM_cons] at h
    obtain ⟨i, p₁, hd, h⟩ := following_bind.1 h
    obtain ⟨kind, rfl, rfl⟩ := slot_ok hd
    obtain ⟨is', p₂, hds, h⟩ := following_bind.1 h
    obtain ⟨rfl, rfl⟩ := following_pure.1 h
    obtain ⟨kinds, rfl, rfl⟩ := ih hds
    exact ⟨List.forall_mem_cons.2 ⟨kind, kinds⟩, rfl, rfl⟩

theorem topValues_ok {n : Nat} {is : List Nat} (h : topValues c n p = .ok (is, p')) :
    (∀ d < n, p.stack[d]? = some .value) ∧ is = (List.range n).reverse.map p.stack.index ∧ p' = p := by
  induction n generalizing is with
  | zero =>
    obtain ⟨rfl, rfl⟩ := following_pure.1 h
    simp
  | succ n ih =>
    obtain ⟨i, p₁, hd, h⟩ := following_bind.1 h
    obtain ⟨kind, rfl, rfl⟩ := slot_ok hd
    obtain ⟨is', p₂, hds, h⟩ := following_bind.1 h
    obtain ⟨rfl, rfl⟩ := following_pure.1 h
    obtain ⟨kinds, rfl, rfl⟩ := ih hds
    refine ⟨fun d hd => ?_, by simp [List.range_succ], rfl⟩
    by_cases e : d = n
    · exact e ▸ kind
    · exact kinds d (by omega)

/-- What is on top of the stack. -/
theorem exists_of_top {s : StackKinds} {kind : SlotKind} (h : s[0]? = some kind) : ∃ below, s = kind :: below := by
  rw [← List.head?_eq_getElem?] at h
  exact List.head?_eq_some_iff.1 h

/-- A value is computed after slots were popped. -/
theorem computed_after_pop {n : Nat} {what : Computation} {ss : List Statement}
    (h : (do pop c n; compute c what : Following (List Statement)) p = .ok (ss, p')) :
    ss = [.set (p.stack.length - n) what] ∧ n ≤ p.stack.length ∧ p.stack.length - n ≤ c.limit ∧
      p'.stack = .value :: p.stack.drop n := by
  obtain ⟨u, p₁, hpop, h⟩ := following_bind.1 h
  obtain ⟨enough, stack⟩ := pop_ok hpop
  obtain ⟨rfl, room, stack'⟩ := compute_ok h
  rw [stack, List.length_drop] at room
  rw [stack, List.length_drop]
  exact ⟨rfl, enough, room, by rw [stack', stack]⟩

/-! ## Instructions -/

theorem takes_nip {ss : List Statement} (h : nip c p = .ok (ss, p')) : Takes c .nip p.stack ss p'.stack := by
  unfold nip at h
  rw [following_get] at h
  cases hs : p.stack with
  | nil =>
    simp only [hs, List.head?_nil] at h
    exact absurd h not_refused
  | cons kind s =>
    simp only [hs, List.head?_cons] at h
    obtain ⟨source, p₁, hsource, h⟩ := following_bind.1 h
    obtain ⟨-, rfl, rfl⟩ := slot_ok hsource
    obtain ⟨u, p₂, hpop, h⟩ := following_bind.1 h
    obtain ⟨enough, stack⟩ := pop_ok hpop
    obtain ⟨target, p₃, hpush, h⟩ := following_bind.1 h
    obtain ⟨rfl, room, stack'⟩ := push_ok hpush
    obtain ⟨rfl, rfl⟩ := following_pure.1 h
    rw [hs] at enough stack
    cases s with
    | nil =>
      simp at enough
    | cons below s =>
      simp only [List.drop_succ_cons, List.drop_zero] at stack
      rw [stack', stack]
      have source : StackKinds.index p₁.stack 0 = s.length + 1 := by
        simp [StackKinds.index, hs]
      rw [source]
      rw [stack] at room
      have taken : Takes c .nip (kind :: below :: s) [copied kind s.length (s.length + 1)] (kind :: s) := .nip room
      cases kind <;> exact taken

theorem takes_call {f n : Nat} {args : List Nat} {ss : List Statement} (h : call c f n args p = .ok (ss, p')) :
    Takes c (.call f n args) p.stack ss p'.stack := by
  unfold call at h
  cases hf : c.constants.functions.get? f with
  | none =>
    simp only [hf] at h
    exact absurd h not_refused
  | some function =>
    simp only [hf] at h
    obtain ⟨is, p₁, hargs, h⟩ := following_bind.1 h
    obtain ⟨values, rfl, rfl⟩ := slots_ok hargs
    obtain ⟨rfl, enough, room, stack⟩ := computed_after_pop h
    exact stack ▸ .call hf enough values room

/-- An instruction without blocks that is accepted takes what is there. -/
theorem takes_simple {i : Instr Raw} {ss : List Statement} (hi : Machine.isPlain i = true)
    (h : simple c i p = .ok (ss, p')) : Takes c i p.stack ss p'.stack := by
  have produces {what : Computation} (hwhat : produced i = some what) (h : compute c what p = .ok (ss, p')) :
      Takes c i p.stack ss p'.stack := by
    obtain ⟨rfl, room, stack⟩ := compute_ok h
    exact stack ▸ .produce hwhat room
  cases i with
  | pushEmptyString | pushNull | pushFailed | pushEmptyArray | acceptN | acceptString | acceptStringIc | fail =>
    exact produces rfl h
  | pushPos =>
    obtain ⟨i, p₁, hpush, h⟩ := following_bind.1 h
    obtain ⟨rfl, room, stack⟩ := push_ok hpush
    obtain ⟨rfl, rfl⟩ := following_pure.1 h
    exact stack ▸ .pushPos room
  | pop =>
    obtain ⟨u, p₁, hpop, h⟩ := following_bind.1 h
    obtain ⟨enough, stack⟩ := pop_ok hpop
    obtain ⟨rfl, rfl⟩ := following_pure.1 h
    cases hs : p.stack with
    | nil => simp [hs] at enough
    | cons kind s =>
      rw [stack, hs]
      exact .pop
  | popPos =>
    obtain ⟨i, p₁, hslot, h⟩ := following_bind.1 h
    obtain ⟨kind, rfl, rfl⟩ := slot_ok hslot
    obtain ⟨u, p₂, hpop, h⟩ := following_bind.1 h
    obtain ⟨enough, stack⟩ := pop_ok hpop
    obtain ⟨rfl, rfl⟩ := following_pure.1 h
    obtain ⟨s, hs⟩ := exists_of_top kind
    rw [stack, hs]
    exact .popPos
  | popN n =>
    obtain ⟨u, p₁, hpop, h⟩ := following_bind.1 h
    obtain ⟨enough, stack⟩ := pop_ok hpop
    obtain ⟨rfl, rfl⟩ := following_pure.1 h
    exact stack ▸ .popN enough
  | nip => exact takes_nip h
  | append =>
    obtain ⟨item, p₁, hitem, h⟩ := following_bind.1 h
    obtain ⟨kind, rfl, rfl⟩ := slot_ok hitem
    obtain ⟨array, p₂, harray, h⟩ := following_bind.1 h
    obtain ⟨kind', rfl, rfl⟩ := slot_ok harray
    obtain ⟨u, p₃, hpop, h⟩ := following_bind.1 h
    obtain ⟨enough, stack⟩ := pop_ok hpop
    obtain ⟨rfl, rfl⟩ := following_pure.1 h
    -- the item is on top, and the array right below it
    obtain ⟨s, hs⟩ := exists_of_top kind
    rw [hs, List.getElem?_cons_succ] at kind'
    obtain ⟨s, rfl⟩ := exists_of_top kind'
    rw [stack, hs]
    exact .append
  | wrap n =>
    obtain ⟨is, p₁, hitems, h⟩ := following_bind.1 h
    obtain ⟨values, rfl, rfl⟩ := topValues_ok hitems
    obtain ⟨rfl, enough, room, stack⟩ := computed_after_pop h
    exact stack ▸ .wrap enough values room
  | text =>
    obtain ⟨i, p₁, hslot, h⟩ := following_bind.1 h
    obtain ⟨kind, rfl, rfl⟩ := slot_ok hslot
    obtain ⟨rfl, enough, room, stack⟩ := computed_after_pop h
    obtain ⟨s, hs⟩ := exists_of_top kind
    rw [hs] at room
    rw [stack, hs]
    exact .text room
  | pluck n picks =>
    obtain ⟨is, p₁, hpicks, h⟩ := following_bind.1 h
    obtain ⟨values, rfl, rfl⟩ := slots_ok hpicks
    obtain ⟨rfl, enough, room, stack⟩ := computed_after_pop h
    exact stack ▸ .pluck enough values room
  | loadSavedPos d =>
    obtain ⟨i, p₁, hslot, h⟩ := following_bind.1 h
    obtain ⟨kind, rfl, rfl⟩ := slot_ok hslot
    obtain ⟨rfl, rfl⟩ := following_pure.1 h
    exact .loadSavedPos kind
  | updateSavedPos =>
    obtain ⟨rfl, rfl⟩ := following_pure.1 h
    exact .updateSavedPos
  | call f n args => exact takes_call h
  | silence =>
    obtain ⟨rfl, rfl⟩ := following_pure.1 h
    exact .silence
  | unsilence =>
    obtain ⟨rfl, rfl⟩ := following_pure.1 h
    exact .unsilence
  | mapPush i =>
    simp only [simple] at h
    cases hi : c.constants.origins.get? i with
    | none =>
      simp only [hi] at h
      exact absurd h not_refused
    | some span =>
      simp only [hi] at h
      obtain ⟨u, p₁, hopen, h⟩ := following_bind.1 h
      obtain rfl := following_modify.1 hopen
      obtain ⟨rfl, rfl⟩ := following_pure.1 h
      exact .mapPush
  | mapPop =>
    simp only [simple] at h
    rw [following_get] at h
    split at h
    · exact absurd h not_refused
    · obtain ⟨u, p₁, hclose, h⟩ := following_bind.1 h
      obtain rfl := following_modify.1 hclose
      obtain ⟨rfl, rfl⟩ := following_pure.1 h
      exact .mapPop
  | defect why => cases h
  | cond | whileOk | rule => cases hi

theorem tests_condition {test : Test Raw} {test' : Condition} (h : condition c test p = .ok (test', p')) :
    Tests test p.stack test' ∧ p' = p := by
  cases test with
  | isTrue | isError | isOk | fewer | atLeast =>
    obtain ⟨i, p₁, hslot, h⟩ := following_bind.1 h
    obtain ⟨kind, rfl, rfl⟩ := slot_ok hslot
    obtain ⟨rfl, rfl⟩ := following_pure.1 h
    exact ⟨by constructor; exact kind, rfl⟩
  | fewerThan d | atLeastThan d =>
    obtain ⟨i, p₁, hslot, h⟩ := following_bind.1 h
    obtain ⟨kind, rfl, rfl⟩ := slot_ok hslot
    obtain ⟨j, p₂, hbound, h⟩ := following_bind.1 h
    obtain ⟨kind', rfl, rfl⟩ := slot_ok hbound
    obtain ⟨rfl, rfl⟩ := following_pure.1 h
    exact ⟨by constructor <;> assumption, rfl⟩
  | anyChar | string | stringIc | charClass =>
    obtain ⟨rfl, rfl⟩ := following_pure.1 h
    exact ⟨by constructor, rfl⟩

end Steps

/-! ## Code -/

variable {c : Context}

mutual

/-- An instruction that is accepted, before code that is. -/
theorem walk_of_instr {i : Instr Raw} {code : Code Raw} {p p₁ : Progress} {first rest : List Statement} {s' : StackKinds}
    (h : instr c i p = .ok (first, p₁)) (after : Walk c code p₁.stack rest s') :
    Walk c (i :: code) p.stack (first ++ rest) s' := by
  cases i with
  | cond test yes no =>
    simp only [instr] at h
    obtain ⟨test', p₂, htest, h₂⟩ := following_bind.1 h
    obtain ⟨tests, rfl⟩ := tests_condition htest
    rw [following_get] at h₂
    obtain ⟨yes', p₃, hyes, h⟩ := following_bind.1 h₂
    rw [following_get] at h
    obtain ⟨u, p₄, hback, h⟩ := following_bind.1 h
    obtain rfl := following_modify.1 hback
    obtain ⟨no', p₅, hno, h⟩ := following_bind.1 h
    rw [following_get] at h
    split at h
    · -- both branches leave slots of the same kinds
      rename_i same
      obtain ⟨rfl, rfl⟩ := following_pure.1 h
      have walkNo := walk_of_block hno
      rw [← same] at walkNo after
      exact .cond tests (walk_of_block hyes) walkNo after
    · exact absurd h not_refused
  | whileOk body =>
    simp only [instr] at h
    obtain ⟨i, p₂, hslot, h₂⟩ := following_bind.1 h
    obtain ⟨kind, rfl, rfl⟩ := slot_ok hslot
    rw [following_get] at h₂
    obtain ⟨body', p₃, hbody, h⟩ := following_bind.1 h₂
    rw [following_get] at h
    split at h
    · rename_i same
      obtain ⟨rfl, rfl⟩ := following_pure.1 h
      have walkBody := walk_of_block hbody
      rw [← same] at walkBody after
      exact .whileOk kind walkBody after
    · exact absurd h not_refused
  | rule r =>
    have h : (match c.ruleName? r with
      | none => refuse c (.unknownRule r)
      | some name => compute c (.rule name) : Following (List Statement)) p = .ok (first, p₁) := h
    cases hr : c.ruleName? r with
    | none =>
      rw [hr] at h
      exact absurd h not_refused
    | some name =>
      rw [hr] at h
      obtain ⟨rfl, room, stack⟩ := compute_ok h
      exact .rule hr room (stack ▸ after)
  | _ => exact .plain (takes_simple rfl h) after

/-- Code that is accepted is walked. -/
theorem walk_of_block {code : Code Raw} {p p' : Progress} {ss : List Statement} (h : block c code p = .ok (ss, p')) :
    Walk c code p.stack ss p'.stack := by
  cases code with
  | nil =>
    obtain ⟨rfl, rfl⟩ := following_pure.1 h
    exact .nil
  | cons i code =>
    simp only [block] at h
    obtain ⟨first, p₁, hfirst, h⟩ := following_bind.1 h
    obtain ⟨rest, p₂, hrest, h⟩ := following_bind.1 h
    obtain ⟨rfl, rfl⟩ := following_pure.1 h
    exact walk_of_instr hfirst (walk_of_block hrest)

end

/-- The code of a rule that has a body of statements is walked from no slots to one value. -/
theorem walk_of_ofCode {code : Code Raw} {body : RuleBody} (h : ofCode c code = .ok body) :
    Walk c code [] body.statements [.value] := by
  unfold ofCode at h
  cases hblock : (block c code).run ⟨[], [], [], 1⟩ with
  | error why => rw [hblock] at h; cases h
  | ok x =>
    obtain ⟨ss, p⟩ := x
    rw [hblock] at h
    have walk := walk_of_block (p := ⟨[], [], [], 1⟩) hblock
    have h : (if p.stack = [.value] then pure ⟨p.positions, p.values, ss⟩
      else throw (.inRule c.rule (.noSingleResult p.stack)) : Except EmitError RuleBody) = .ok body := h
    split at h
    · rename_i single
      cases h
      exact single ▸ walk
    · cases h

theorem Walk.append {a b : Code Raw} {s s₁ s' : StackKinds} {ss ss' : List Statement} (ha : Walk c a s ss s₁)
    (hb : Walk c b s₁ ss' s') : Walk c (a ++ b) s (ss ++ ss') s' := by
  induction ha with
  | nil => exact hb
  | plain h _ ih => rw [List.append_assoc]; exact .plain h (ih hb)
  | rule h room _ ih => exact .rule h room (ih hb)
  | cond h hyes hno _ _ _ ih => exact .cond h hyes hno (ih hb)
  | whileOk h hbody _ _ ih => exact .whileOk h hbody (ih hb)

end RuleBody

end PegCompiler
