/-
The labels that the code of expressions is made with. Where the check of labels has nothing to say, the environment of
every visit has the names that the check sees at the same place, each with a slot of its own (`models_visits`): what one
step from an expression to a direct subexpression keeps is `models_passes`.
-/
import PegCompiler.Proofs.Analysis.Scopes
import PegCompiler.Proofs.Code.Visits

namespace PegCompiler

open Analysis

/-! ## Environments and scopes -/

/-- An environment on a stack of a size has the labels of a scope, of which none is reserved, and each in a slot of its
own. -/
structure Env.Models (reserved : List String) (scope : Scope) (size : Nat) (env : Env) : Prop where
  names : env.params = scope.names
  distinct : env.params.Nodup
  allowed : ∀ name ∈ env.params, name ∉ reserved
  slots : (env.map (·.2)).Pairwise (· < ·)
  below : ∀ b ∈ env, b.2 < size

/-- A name that is new is bound at the end. -/
theorem Env.bind_of_new {env : Env} {label : String} (h : label ∉ env.params) (slot : Nat) :
    env.bind label slot = env ++ [(label, slot)] := by
  unfold Env.bind
  refine if_neg fun bound => h ?_
  obtain ⟨b, hb, same⟩ := List.any_eq_true.1 bound
  exact List.mem_map.2 ⟨b, hb, beq_iff_eq.1 same⟩

/-- A label that nothing is wrong with is not reserved and not visible yet. -/
theorem Analysis.new_of_labelProblems {reserved : List String} {scope : Scope} {label : Located String}
    (h : labelProblems reserved scope label = []) : label.val ∉ reserved ∧ label.val ∉ scope.names := by
  unfold labelProblems at h
  obtain ⟨hreserved, hscope⟩ := List.append_eq_nil_iff.1 h
  constructor
  · intro hmem
    rw [if_pos (List.contains_iff_mem.2 hmem)] at hreserved
    cases hreserved
  · intro hmem
    obtain ⟨first, hfirst⟩ := Option.isSome_iff_exists.1 (lookup_isSome_iff.2 hmem)
    rw [hfirst] at hscope
    cases hscope

namespace Env.Models

variable {reserved : List String} {scope : Scope} {size : Nat} {env : Env} {e : Expr} {es : List Expr}

theorem start (reserved : List String) (size : Nat) : Models reserved [] size [] :=
  ⟨rfl, List.nodup_nil, nofun, .nil, nofun⟩

theorem mono {size' : Nat} (h : Models reserved scope size env) (hs : size ≤ size') : Models reserved scope size' env :=
  ⟨h.names, h.distinct, h.allowed, h.slots, fun b hb => Nat.lt_of_lt_of_le (h.below b hb) hs⟩

/-- An expression with a label that is new adds its slot. -/
theorem after (h : Models reserved scope size env) (hl : labelsIn reserved scope e = []) :
    Models reserved (scope.after e) (size + 1) (env.after e size) := by
  cases e with
  | labeled i label pick body =>
    cases label with
    | none => exact h.mono (Nat.le_succ size)
    | some label =>
      rw [labelsIn] at hl
      obtain ⟨allowed, new⟩ := new_of_labelProblems (List.append_eq_nil_iff.1 hl).2
      -- the label is in none of the slots so far, and its own slot is above them
      have newHere : label.val ∉ env.params := h.names ▸ new
      have env' : env.after (.labeled i (some label) pick body) size = env ++ [(label.val, size)] :=
        Env.bind_of_new newHere size
      have params : (env ++ [(label.val, size)]).params = env.params ++ [label.val] := by
        unfold Env.params
        rw [List.map_append]
        rfl
      refine ⟨?_, ?_, ?_, ?_, ?_⟩
      · exact (Scope.map_fst_after (show scope.map (·.1) = env.map (·.1) from h.names.symm) _ size).symm
      · rw [env', params, List.nodup_append]
        refine ⟨h.distinct, List.nodup_singleton _, fun a ha b hb same => newHere ?_⟩
        rw [← List.mem_singleton.1 hb, ← same]
        exact ha
      · rw [env', params]
        intro name hname
        rcases List.mem_append.1 hname with hname | hname
        · exact h.allowed name hname
        · rw [List.mem_singleton.1 hname]
          exact allowed
      · rw [env', List.map_append, List.pairwise_append]
        refine ⟨h.slots, List.pairwise_singleton .., fun a ha b hb => ?_⟩
        obtain ⟨x, hx, rfl⟩ := List.mem_map.1 ha
        rw [List.mem_singleton.1 hb]
        exact h.below x hx
      · rw [env']
        intro b hb
        rcases List.mem_append.1 hb with hb | hb
        · exact Nat.lt_succ_of_lt (h.below b hb)
        · rw [List.mem_singleton.1 hb]
          exact Nat.lt_succ_self size
  | _ => exact h.mono (Nat.le_succ size)

theorem through (h : Models reserved scope size env) (hl : labelsInOrder reserved scope es = []) :
    Models reserved (scope.through es) (size + es.length) (env.through size es) := by
  induction es generalizing scope env size with
  | nil => exact h
  | cons e es ih =>
    rw [labelsInOrder, List.append_eq_nil_iff] at hl
    have later := ih (h.after hl.1) hl.2
    rw [Nat.add_right_comm, Nat.add_assoc] at later
    exact later

theorem closing (h : Models reserved scope size env) (hl : labelsIn reserved scope e = []) :
    ∃ size', Models reserved (scope.closing e) size' (env.closing size e) := by
  cases e with
  | action i body code =>
    have inBody : labelsIn reserved scope body = [] := by rwa [labelsIn] at hl
    have above := h.mono (Nat.le_succ size)
    show ∃ size', Models reserved ((scope.through body.elements).after body) size'
      ((env.through (size + 1) body.elements).after body (size + 1))
    cases body with
    | sequence j es => exact ⟨_, above.through (by rwa [labelsIn] at inBody)⟩
    | _ => exact ⟨_, above.after inBody⟩
  | _ => exact ⟨size, h⟩

end Env.Models

/-! ## Visits and scopes -/

namespace Code

variable {p : Plan} {v w : Visit} {child : Nat} {path : List Nat} {reserved : List String} {scope : Scope}

/-- From an expression to a direct subexpression both sides come to the same labels. -/
theorem models_passes (h : Passes p v child w) (hm : v.env.Models reserved scope v.size)
    (hl : labelsIn reserved scope v.expr = []) :
    w.env.Models reserved (scope.inside v.expr child) w.size := by
  have array (min : Option Boundary) (max : Boundary) (size : Nat) : size ≤ arraySlot min max size := by
    unfold arraySlot
    omega
  cases h with
  | @element i elements child e env size action h _ =>
    have parts : labelsInOrder reserved scope (elements.take child ++ elements.drop child) = [] := by
      rw [List.take_append_drop]
      exact hl
    rw [labelsInOrder_append] at parts
    have through := (hm.mono (Nat.le_succ size)).through (List.append_eq_nil_iff.1 parts).1
    rw [List.length_take, Nat.min_eq_left (Nat.le_of_lt (List.getElem?_eq_some_iff.1 h).1)] at through
    exact through
  | first => exact hm.mono (Nat.le_succ_of_le (array _ _ _))
  | delimiter | further => exact hm.mono (Nat.le_add_right_of_le (array _ _ _))
  | alternative | labeled | acted | optional | group | named => exact hm
  | action | text | simpleAnd | simpleNot | zeroOrMore | oneOrMore => exact hm.mono (Nat.le_succ _)

/-- So they do along a path. -/
theorem models_visits (h : Visits p v path w) (hm : v.env.Models reserved scope v.size)
    (hl : labelsIn reserved scope v.expr = []) : ∃ scope', scope.follow? v.expr path = some (w.expr, scope') ∧
      w.env.Models reserved scope' w.size ∧ labelsIn reserved scope' w.expr = [] := by
  induction h generalizing scope with
  | here v => exact ⟨scope, rfl, hm, hl⟩
  | inside h _ ih =>
    have hchild := child_of_passes h
    have nothing : labelsIn reserved _ _ = [] := List.eq_nil_iff_forall_not_mem.2 fun d hd =>
      List.not_mem_nil (hl ▸ mem_labelsIn.2 (.inr ⟨_, _, hchild, hd⟩))
    obtain ⟨scope', hfollow, there⟩ := ih (models_passes h hm hl) nothing
    exact ⟨scope', Scope.follow?_cons.2 ⟨_, hchild, hfollow⟩, there⟩

end Code

end PegCompiler
