/-
Local variables of a generated method, and the stack that they stand for. Kinds of slots say which variables count:
the slot with a number is the variable with this number of its kind. What the machine does to a stack is
then an assignment, as long as the kinds are those that it needs.
-/
import PegCompiler.Proofs.Emit.Walk
import PegCompiler.Proofs.Machine.Yields

namespace PegCompiler

/-- The variables of a method by number. -/
structure Locals where
  positions : Nat → Nat
  values : Nat → Value

namespace Locals

/-- The variables as they are declared. -/
def fresh : Locals := ⟨fun _ => 0, fun _ => .null⟩

def setPos (l : Locals) (i pos : Nat) : Locals := { l with positions := Function.update l.positions i pos }

def setValue (l : Locals) (i : Nat) (v : Value) : Locals := { l with values := Function.update l.values i v }

/-- The value of a variable, in which null is left. -/
def take (l : Locals) (i : Nat) : Value × Locals := (l.values i, l.setValue i .null)

/-- The values of variables, taken one after the other. -/
def takeAll (l : Locals) : List Nat → List Value × Locals
  | [] => ([], l)
  | i :: is => ((l.take i).1 :: ((l.take i).2.takeAll is).1, ((l.take i).2.takeAll is).2)

/-! ## The stack of slots -/

/-- What a variable holds. -/
def slot (l : Locals) : SlotKind → (i : Nat) → Slot
  | .pos, i => .pos (l.positions i)
  | .value, i => .value (l.values i)

/-- The stack whose slots are of these kinds. -/
def stack (l : Locals) : StackKinds → Stack
  | [] => []
  | kind :: s => l.slot kind s.length :: l.stack s

variable {l : Locals} {s : StackKinds} {d : Nat}

@[simp]
theorem length_stack (l : Locals) (s : StackKinds) : (l.stack s).length = s.length := by
  induction s with
  | nil => rfl
  | cons kind s ih => simp [stack, ih]

theorem getElem?_stack (l : Locals) (s : StackKinds) (d : Nat) :
    (l.stack s)[d]? = s[d]?.map fun kind => l.slot kind (s.index d) := by
  induction s generalizing d with
  | nil => simp [stack]
  | cons kind s ih =>
    cases d with
    | zero => simp [stack]
    | succ d => simp [stack, ih]

theorem drop_stack (l : Locals) (s : StackKinds) (n : Nat) : (l.stack s).drop n = l.stack (s.drop n) := by
  induction n generalizing s with
  | zero => rfl
  | succ n ih =>
    cases s with
    | nil => rfl
    | cons kind s => simpa [stack] using ih s

/-- Variables above a stack do not count. -/
theorem stack_setValue_of_le {i : Nat} {v : Value} (h : s.length ≤ i) : (l.setValue i v).stack s = l.stack s := by
  induction s with
  | nil => rfl
  | cons kind s ih =>
    have below : s.length ≠ i := by
      simp only [List.length_cons] at h
      omega
    simp only [stack, ih (by simp only [List.length_cons] at h; omega)]
    congr 1
    cases kind <;> simp [slot, setValue, Function.update_of_ne below]

theorem stack_setPos_of_le {i pos : Nat} (h : s.length ≤ i) : (l.setPos i pos).stack s = l.stack s := by
  induction s with
  | nil => rfl
  | cons kind s ih =>
    have below : s.length ≠ i := by
      simp only [List.length_cons] at h
      omega
    simp only [stack, ih (by simp only [List.length_cons] at h; omega)]
    congr 1
    cases kind <;> simp [slot, setPos, Function.update_of_ne below]

@[simp]
theorem stack_push_value (l : Locals) (s : StackKinds) (v : Value) :
    (l.setValue s.length v).stack (.value :: s) = .value v :: l.stack s := by
  simp only [stack, stack_setValue_of_le (Nat.le_refl _)]
  simp [slot, setValue]

@[simp]
theorem stack_push_pos (l : Locals) (s : StackKinds) (pos : Nat) :
    (l.setPos s.length pos).stack (.pos :: s) = .pos pos :: l.stack s := by
  simp only [stack, stack_setPos_of_le (Nat.le_refl _)]
  simp [slot, setPos]

/-- A value is put in its slot. -/
theorem set_stack {v : Value} (h : s[d]? = some .value) :
    (l.stack s).set d (.value v) = (l.setValue (s.index d) v).stack s := by
  induction s generalizing d with
  | nil => cases h
  | cons kind s ih =>
    cases d with
    | zero =>
      simp only [List.getElem?_cons_zero, Option.some.injEq] at h
      subst h
      rw [StackKinds.index_zero, stack_push_value]
      rfl
    | succ d =>
      have h : s[d]? = some .value := h
      have below : s.length ≠ StackKinds.index s d := by
        have := StackKinds.index_lt h
        omega
      rw [StackKinds.index_succ]
      simp only [stack, List.set_cons_succ, ih h]
      congr 1
      cases kind <;> simp [slot, setValue, Function.update_of_ne below]

/-! ## What the machine does to it -/

theorem value_stack (h : s[d]? = some .value) : (l.stack s).value d = .ok (l.values (s.index d)) :=
  Machine.value_of_getElem (by rw [getElem?_stack, h]; rfl)

theorem pos_stack (h : s[d]? = some .pos) : (l.stack s).pos d = .ok (l.positions (s.index d)) := by
  have found : (l.stack s)[d]? = some (.pos (l.positions (s.index d))) := by
    rw [getElem?_stack, h]
    rfl
  unfold Stack.pos Stack.slot
  rw [found]
  rfl

theorem pop_stack {n : Nat} (h : n ≤ s.length) : (l.stack s).pop n = .ok (l.stack (s.drop n)) := by
  unfold Stack.pop
  rw [if_pos (by simpa using h), drop_stack]

theorem move_stack (h : s[d]? = some .value) :
    (l.stack s).move d = .ok (l.values (s.index d), (l.take (s.index d)).2.stack s) := by
  unfold Stack.move
  rw [value_stack h, set_stack h]
  rfl

theorem moveAll_stack {ds : List Nat} (h : ∀ d ∈ ds, s[d]? = some .value) :
    (l.stack s).moveAll ds = .ok ((l.takeAll (ds.map s.index)).1, (l.takeAll (ds.map s.index)).2.stack s) := by
  induction ds generalizing l with
  | nil => rfl
  | cons d ds ih =>
    obtain ⟨hd, hds⟩ := List.forall_mem_cons.1 h
    unfold Stack.moveAll
    rw [move_stack hd]
    simp only [bind, Except.bind, ih hds]
    rfl

theorem values_stack {ds : List Nat} (h : ∀ d ∈ ds, s[d]? = some .value) :
    (l.stack s).values ds = .ok (ds.map fun d => l.values (s.index d)) := by
  unfold Stack.values
  induction ds with
  | nil => rfl
  | cons d ds ih =>
    obtain ⟨hd, hds⟩ := List.forall_mem_cons.1 h
    rw [List.mapM_cons, value_stack hd]
    show (do let vs ← ds.mapM (l.stack s).value; _ : Except Fault (List Value)) = _
    rw [ih hds]
    rfl

theorem nip_stack (l : Locals) (kind below : SlotKind) (s : StackKinds) :
    (l.stack (kind :: below :: s)).nip = .ok (l.slot kind (s.length + 1) :: l.stack s) := by
  simp [stack, Stack.nip, Stack.pop, bind, Except.bind, pure, Except.pure]

theorem append_stack (l : Locals) (s : StackKinds) : (l.stack (.value :: .value :: s)).append =
    .ok (((l.take (s.length + 1)).2.setValue s.length ((l.values s.length).push (l.values (s.length + 1)))).stack
      (.value :: s)) := by
  have item : (l.stack (.value :: .value :: s)).move 0 =
      .ok (l.values (s.length + 1), (l.take (s.length + 1)).2.stack (.value :: .value :: s)) := by
    simpa using move_stack (l := l) (s := .value :: .value :: s) (d := 0) rfl
  have popped (l : Locals) : (l.stack (.value :: .value :: s)).pop 1 = .ok (l.stack (.value :: s)) := pop_stack (by simp)
  -- taking the item leaves the array alone
  have kept : (l.take (s.length + 1)).2.values s.length = l.values s.length := by simp [take, setValue]
  have array : ((l.take (s.length + 1)).2.stack (.value :: s)).value 0 = .ok (l.values s.length) := by
    rw [value_stack rfl, StackKinds.index_zero, kept]
  unfold Stack.append
  rw [item]
  show (do let s ← ((l.take (s.length + 1)).2.stack (.value :: .value :: s)).pop 1; _ : Except Fault Stack) = _
  rw [popped]
  show (do let array ← ((l.take (s.length + 1)).2.stack (.value :: s)).value 0; _ : Except Fault Stack) = _
  rw [array]
  show Except.ok (List.set ((l.take (s.length + 1)).2.stack (.value :: s)) 0 _) = _
  rw [set_stack rfl, StackKinds.index_zero, kept]

/-- Slots are popped, and one is pushed with what was picked of them. -/
theorem pop_push_stack {n : Nat} (h : n ≤ s.length) (v : Value) :
    (do return .value v :: (← (l.stack s).pop n) : Except Fault Stack) =
      .ok ((l.setValue (s.length - n) v).stack (.value :: s.drop n)) := by
  have top : (s.drop n).length = s.length - n := List.length_drop
  rw [pop_stack h, ← top, stack_push_value]
  rfl

theorem wrap_stack {n : Nat} (hn : n ≤ s.length) (values : ∀ d < n, s[d]? = some .value) :
    (l.stack s).wrap n = .ok
      (((l.takeAll ((List.range n).reverse.map s.index)).2.setValue (s.length - n)
        (.array (l.takeAll ((List.range n).reverse.map s.index)).1)).stack (.value :: s.drop n)) := by
  unfold Stack.wrap
  rw [Machine.moveTop_eq_moveAll, moveAll_stack fun d hd => values d (by simpa using hd), ← pop_push_stack hn]
  rfl

theorem pluck_stack {n : Nat} {picks : List Nat} (hn : n ≤ s.length) (values : ∀ d ∈ picks, s[d]? = some .value) :
    (l.stack s).pluck n picks = .ok
      (((l.takeAll (picks.map s.index)).2.setValue (s.length - n)
        (Stack.pickedValue (l.takeAll (picks.map s.index)).1)).stack (.value :: s.drop n)) := by
  unfold Stack.pluck
  rw [moveAll_stack values, ← pop_push_stack hn]
  rfl

end Locals

end PegCompiler
