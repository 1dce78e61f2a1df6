/-
Source maps. Halving counts the items that satisfy a condition, if it holds of some and then of none, so a look-up finds
the mapping that a line lies in, as long as the mappings come in the order of their lines. Adding line after line keeps
them in that order, keeps mappings of one span apart, and lets them tell for every line so far the span that it comes
from (`Tells`).
-/
import Mathlib.Data.List.Basic
import PegCompiler.Emit.SourceMap

namespace PegCompiler

/-! ## Halving -/

/-- Of the indexes that are halved, the condition holds up to the one that is left and of none after it. -/
theorem bisect_spec {p : Nat → Bool} (hp : ∀ i j, i ≤ j → p j = true → p i = true) (base size : Nat) :
    (bisect p base size = base ∨ p (bisect p base size) = true) ∧
      ∀ i, bisect p base size < i → i < base + size → p i = false := by
  fun_induction bisect p base size with
  | case1 base size hsize => exact ⟨.inl rfl, fun i hlt hi => by omega⟩
  | case2 base size hsize ih =>
    obtain ⟨hlast, hafter⟩ := ih
    by_cases hmid : p (base + size / 2) = true
    · rw [dif_pos hmid] at hlast hafter
      rw [if_pos hmid]
      refine ⟨.inr ?_, fun i hlt hi => hafter i hlt (by omega)⟩
      rcases hlast with hlast | hlast
      · rw [hlast]
        exact hmid
      · exact hlast
    · rw [dif_neg hmid] at hlast hafter
      rw [if_neg hmid]
      refine ⟨hlast, fun i hlt hi => ?_⟩
      by_cases hhalf : i < base + (size - size / 2)
      · exact hafter i hlt hhalf
      · -- the condition fails in the middle, so it fails of all that is given up
        exact Bool.eq_false_iff.2 fun hi => hmid (hp _ i (by omega) hi)

/-- The items that are counted are those that satisfy the condition. -/
theorem lt_countFirst_iff {α : Type} {p : α → Bool} {a : Array α}
    (hp : ∀ i j : Nat, i ≤ j → a[j]?.any p = true → a[i]?.any p = true) (i : Nat) :
    i < countFirst p a ↔ a[i]?.any p = true := by
  obtain ⟨hlast, hafter⟩ := bisect_spec (p := fun i => a[i]?.any p) hp 0 a.size
  unfold countFirst
  dsimp only
  generalize bisect (fun i => a[i]?.any p) 0 a.size = last at hlast hafter
  have fails (hlt : last < i) : ¬ a[i]?.any p = true := by
    by_cases hi : i < a.size
    · rw [hafter i hlt (by omega)]
      exact Bool.false_ne_true
    · rw [Array.getElem?_eq_none (by omega)]
      exact Bool.false_ne_true
  split
  · rename_i hholds
    refine ⟨fun hi => hp i last (by omega) hholds, fun hi => ?_⟩
    by_contra hlt
    exact fails (by omega) hi
  · rename_i hholds
    -- not even the first item satisfies the condition
    have first : last = 0 := hlast.resolve_right hholds
    refine ⟨fun hi => by omega, fun hi => absurd hi ?_⟩
    rcases Nat.eq_zero_or_pos i with rfl | hpos
    · rwa [first] at hholds
    · exact fails (by omega)

namespace SourceMap

/-! ## Looking up -/

/-- A map that says no more than it has to. -/
structure Minimal (m : SourceMap) : Prop where
  /-- Every mapping is of some line. -/
  nonempty : ∀ a ∈ m.mappings, a.first < a.stop
  /-- The lines of a mapping come before those of the mappings after it. -/
  ordered : m.mappings.Pairwise fun a b => a.stop ≤ b.first
  /-- Where one mapping ends and another one begins the span changes. -/
  apart : m.mappings.Pairwise fun a b => a.stop = b.first → a.origin ≠ b.origin

/-- One of the mappings has the line, and is of the span. -/
def Says (mappings : List Mapping) (line : Nat) (origin : Span) : Prop :=
  ∃ a ∈ mappings, a.first ≤ line ∧ line < a.stop ∧ a.origin = origin

theorem says_cons {a : Mapping} {mappings : List Mapping} {line : Nat} {origin : Span} :
    Says (a :: mappings) line origin ↔
      (a.first ≤ line ∧ line < a.stop) ∧ a.origin = origin ∨ Says mappings line origin := by
  simp only [Says, List.mem_cons, or_and_right, exists_or, exists_eq_left, and_assoc]

theorem says_reverse {mappings : List Mapping} {line : Nat} {origin : Span} :
    Says mappings.reverse line origin ↔ Says mappings line origin := by
  simp only [Says, List.mem_reverse]

theorem lookup_eq_some_iff {m : SourceMap} (hm : m.Minimal) {line : Nat} {origin : Span} :
    m.lookup line = some origin ↔ Says m.mappings line origin := by
  have ordered := List.pairwise_iff_getElem.1 hm.ordered
  have before {i j : Nat} {a b : Mapping} (hij : i < j) (ha : m.mappings[i]? = some a) (hb : m.mappings[j]? = some b) :
      a.stop ≤ b.first := by
    obtain ⟨hi, rfl⟩ := List.getElem?_eq_some_iff.1 ha
    obtain ⟨hj, rfl⟩ := List.getElem?_eq_some_iff.1 hb
    exact ordered i j hi hj hij
  -- the mappings that end at the line or before it come first
  have count := lt_countFirst_iff (p := fun a : Mapping => a.stop ≤ line) (a := m.mappings.toArray) <| by
    intro i j hij hj
    rw [List.getElem?_toArray, Option.any_eq_true] at hj ⊢
    obtain ⟨b, hb, hstop⟩ := hj
    rcases Nat.eq_or_lt_of_le hij with rfl | hlt
    · exact ⟨b, hb, hstop⟩
    · have hlength := (List.getElem?_eq_some_iff.1 hb).1
      have ha := List.getElem?_eq_getElem (l := m.mappings) (i := i) (by omega)
      have := before hlt ha hb
      have := hm.nonempty b (List.mem_of_getElem? hb)
      exact ⟨_, ha, decide_eq_true (by have := of_decide_eq_true hstop; omega)⟩
  unfold lookup
  dsimp only
  generalize countFirst (fun a : Mapping => decide (a.stop ≤ line)) m.mappings.toArray = n at count
  have hn := mt (count n).2 (Nat.lt_irrefl n)
  rw [List.getElem?_toArray] at hn ⊢
  constructor
  · intro h
    split at h
    · rename_i a ha
      split at h
      · rename_i hline
        rw [Bool.and_eq_true, decide_eq_true_iff, decide_eq_true_iff] at hline
        exact ⟨a, List.mem_of_getElem? ha, hline.1, hline.2, Option.some.inj h⟩
      · cases h
    · cases h
  · rintro ⟨a, ha, hfirst, hstop, rfl⟩
    obtain ⟨i, hi⟩ := List.mem_iff_getElem?.1 ha
    have hni : n ≤ i := by
      by_contra hlt
      have := (count i).1 (by omega)
      rw [List.getElem?_toArray, hi] at this
      exact absurd (of_decide_eq_true this) (by omega)
    rcases Nat.eq_or_lt_of_le hni with rfl | hlt
    · rw [hi]
      simp [hfirst, hstop]
    · -- the mapping at `n` would end before this one, so before the line
      have hlength := (List.getElem?_eq_some_iff.1 hi).1
      have hb := List.getElem?_eq_getElem (l := m.mappings) (i := n) (by omega)
      have := before hlt hb hi
      rw [hb] at hn
      exact absurd (decide_eq_true (by omega)) hn

/-! ## Adding lines -/

/-- What mappings, the last one first, tell of the lines that were added, of which the origins are these. -/
structure Tells (mappings : List Mapping) (origins : List (Option Span)) : Prop where
  nonempty : ∀ a ∈ mappings, a.first < a.stop
  ordered : mappings.Pairwise fun b a => a.stop ≤ b.first
  apart : mappings.Pairwise fun b a => a.stop = b.first → a.origin ≠ b.origin
  stop_le : ∀ a ∈ mappings, a.stop ≤ origins.length
  origin : ∀ line origin, origins[line]? = some (some origin) ↔ Says mappings line origin

namespace Tells

variable {mappings : List Mapping} {origins : List (Option Span)} {o : Span}

theorem nil : Tells [] [] where
  nonempty := nofun
  ordered := .nil
  apart := .nil
  stop_le := nofun
  origin _ _ := ⟨nofun, nofun⟩

/-- The origins with one more: a line has an origin if it had it or is the new one. -/
theorem getElem?_concat_iff {x : Option Span} {line : Nat} {origin : Span} :
    (origins ++ [x])[line]? = some (some origin) ↔
      origins[line]? = some (some origin) ∨ line = origins.length ∧ x = some origin := by
  rcases Nat.lt_trichotomy line origins.length with hlt | rfl | hlt
  · rw [List.getElem?_append_left hlt]
    exact ⟨.inl, fun h => h.resolve_right fun h => by omega⟩
  · rw [List.getElem?_concat_length, List.getElem?_eq_none (Nat.le_refl _), Option.some.injEq]
    exact ⟨fun h => .inr ⟨rfl, h⟩, fun h => (h.resolve_left nofun).2⟩
  · rw [List.getElem?_eq_none (by rw [List.length_append]; exact hlt), List.getElem?_eq_none (Nat.le_of_lt hlt)]
    exact ⟨nofun, fun h => absurd (h.resolve_left nofun).1 (by omega)⟩

/-- A line without an origin changes nothing. -/
theorem skip (h : Tells mappings origins) : Tells mappings (origins ++ [none]) where
  nonempty := h.nonempty
  ordered := h.ordered
  apart := h.apart
  stop_le a ha := by
    have := h.stop_le a ha
    rw [List.length_append]
    omega
  origin line origin := by
    rw [getElem?_concat_iff, ← h.origin]
    exact ⟨fun h => h.resolve_right fun h => (nomatch h.2), .inl⟩

/-- A mapping that ends with the last line grows by one more of its span. -/
theorem grow {last : Mapping} (h : Tells (last :: mappings) origins) (hstop : last.stop = origins.length) :
    Tells ({ last with stop := origins.length + 1 } :: mappings) (origins ++ [some last.origin]) where
  nonempty := by
    have := h.nonempty last List.mem_cons_self
    refine List.forall_mem_cons.2 ⟨?_, fun a ha => h.nonempty a (List.mem_cons_of_mem _ ha)⟩
    show last.first < origins.length + 1
    omega
  ordered := List.pairwise_cons.2 (List.pairwise_cons.1 h.ordered)
  apart := List.pairwise_cons.2 (List.pairwise_cons.1 h.apart)
  stop_le := by
    rw [List.length_append]
    refine List.forall_mem_cons.2 ⟨Nat.le_refl _, fun a ha => ?_⟩
    exact Nat.le_succ_of_le (h.stop_le a (List.mem_cons_of_mem _ ha))
  origin line origin := by
    have hfirst := h.nonempty last List.mem_cons_self
    have here : (last.first ≤ line ∧ line < origins.length + 1) ↔
        (last.first ≤ line ∧ line < last.stop) ∨ line = origins.length := by omega
    rw [getElem?_concat_iff, h.origin, says_cons, says_cons, here, Option.some_inj, or_and_right, or_right_comm]

/-- A line that the last mapping does not end with, or that is of another span, begins a mapping. -/
theorem begin (h : Tells mappings origins)
    (hlast : ∀ last ∈ mappings.head?, ¬ (last.origin = o ∧ last.stop = origins.length)) :
    Tells (⟨origins.length, origins.length + 1, o⟩ :: mappings) (origins ++ [some o]) where
  nonempty := List.forall_mem_cons.2 ⟨Nat.lt_succ_self _, h.nonempty⟩
  ordered := List.pairwise_cons.2 ⟨h.stop_le, h.ordered⟩
  apart := by
    refine List.pairwise_cons.2 ⟨fun a ha hstop => ?_, h.apart⟩
    cases mappings with
    | nil => cases ha
    | cons last mappings =>
      rcases List.mem_cons.1 ha with rfl | ha
      · exact fun horigin => hlast a rfl ⟨horigin, hstop⟩
      · -- the last mapping lies between the two
        have := (List.pairwise_cons.1 h.ordered).1 a ha
        have := h.nonempty last List.mem_cons_self
        have := h.stop_le last List.mem_cons_self
        have : a.stop = origins.length := hstop
        omega
  stop_le := by
    rw [List.length_append]
    exact List.forall_mem_cons.2 ⟨Nat.le_refl _, fun a ha => Nat.le_succ_of_le (h.stop_le a ha)⟩
  origin line origin := by
    have here : (origins.length ≤ line ∧ line < origins.length + 1) ↔ line = origins.length := by omega
    rw [getElem?_concat_iff, h.origin, says_cons, here, Option.some_inj, or_comm]

theorem add (h : Tells mappings origins) : Tells (SourceMap.add mappings origins.length o) (origins ++ [some o]) := by
  unfold SourceMap.add
  split
  · exact h.begin nofun
  · rename_i last mappings
    split
    · rename_i hlast
      rw [Bool.and_eq_true, decide_eq_true_iff, decide_eq_true_iff] at hlast
      rw [← hlast.1]
      exact h.grow hlast.2
    · rename_i hlast
      rw [Bool.and_eq_true, decide_eq_true_iff, decide_eq_true_iff] at hlast
      exact h.begin fun last' h' => by cases h'; exact hlast

theorem ofOrigins (h : Tells mappings origins) (rest : List (Option Span)) :
    Tells (SourceMap.ofOrigins mappings origins.length rest).reverse (origins ++ rest) := by
  induction rest generalizing mappings origins with
  | nil =>
    rw [SourceMap.ofOrigins, List.reverse_reverse, List.append_nil]
    exact h
  | cons x rest ih =>
    have length : origins.length + 1 = (origins ++ [x]).length := by rw [List.length_append]; rfl
    rw [List.append_cons]
    cases x with
    | none =>
      rw [SourceMap.ofOrigins, length]
      exact ih h.skip
    | some o =>
      rw [SourceMap.ofOrigins, length]
      exact ih h.add

end Tells

/-- The map of lines is minimal and tells where each of them comes from. -/
theorem ofOrigins_spec (origins : List (Option Span)) : (SourceMap.mk (ofOrigins [] 0 origins)).Minimal ∧
    ∀ line, (SourceMap.mk (ofOrigins [] 0 origins)).lookup line = origins[line]?.join := by
  have tells := Tells.nil.ofOrigins origins
  have minimal : (SourceMap.mk (ofOrigins [] 0 origins)).Minimal := {
    nonempty := fun a ha => tells.nonempty a (List.mem_reverse.2 ha)
    ordered := List.pairwise_reverse.1 tells.ordered
    apart := List.pairwise_reverse.1 tells.apart }
  refine ⟨minimal, fun line => Option.ext fun origin => ?_⟩
  rw [lookup_eq_some_iff minimal, Option.join_eq_some_iff]
  exact says_reverse.symm.trans (tells.origin line origin).symm

end SourceMap

end PegCompiler
