import Mathlib.Data.Set.Basic
import Mathlib.Order.Bounds.Defs
import NixScope.Proofs.Resolution

namespace NixScope

open Syntax

namespace Symbol

theorem resolve_ne_nil (root : Node) (a : Attribute) (s : Symbol) : s.resolve root a ≠ [] := by
  rw [resolve]
  split
  · exact List.cons_ne_nil _ _
  · assumption

theorem resolve_of_isAdHoc {s : Symbol} (h : s.isAdHoc = true) (root : Node) (a : Attribute) :
    s.resolve root a = [.member s a] := by
  cases s with
  | declared host path => cases h
  | builtin b => cases h
  | adHoc b => rfl
  | member t b => rfl

end Symbol

namespace Scope

/-- Candidates for the segment of number `k` behind `current`, whatever those before it are. -/
def level (root : Node) (current : List Symbol) (as : List Attribute) : Nat → List Symbol
  | 0 => current
  | k + 1 =>
    match as[k]? with
    | none => []
    | some a => (level root current as k).flatMap (·.resolve root a)

/-- The descent does not go on from these candidates: they are none, several, or a single one that
only evaluation can find. -/
def Ends (symbols : List Symbol) : Prop :=
  symbols.length ≠ 1 ∨ ∃ s, symbols = [s] ∧ s.isAdHoc = true

variable {root : Node} {current : List Symbol} {as : List Attribute} {k : Nat}

theorem level_succ (hk : k < as.length) : level root current as (k + 1) =
    (level root current as k).flatMap (·.resolve root as[k]) := by
  rw [level, List.getElem?_eq_getElem hk]

/-- The levels behind the first attribute are those of its candidates. -/
theorem level_cons (root : Node) (current : List Symbol) (a : Attribute) (as : List Attribute)
    (k : Nat) : level root current (a :: as) (k + 1) =
      level root (current.flatMap (·.resolve root a)) as k := by
  induction k with
  | zero => rfl
  | succ k ih => rw [level, List.getElem?_cons_succ, ih, level]

/-- Levels are never lost on the way: one is empty only if the first one is. -/
theorem level_eq_nil_iff (hk : k ≤ as.length) :
    level root current as k = [] ↔ current = [] := by
  induction k with
  | zero => rfl
  | succ k ih =>
    rw [level_succ hk, List.flatMap_eq_nil_iff, ← ih (Nat.le_of_lt hk)]
    constructor
    · intro h
      rw [List.eq_nil_iff_forall_not_mem]
      exact fun s hs => Symbol.resolve_ne_nil _ _ s (h s hs)
    · intro h
      simp [h]

/-- Behind a single candidate that only evaluation can find, each level is a member of the one
before. -/
theorem level_of_isAdHoc {m : Nat} {s : Symbol} (hm : level root current as m = [s])
    (hs : s.isAdHoc = true) (hmk : m ≤ k) (hk : k ≤ as.length) :
    ∃ t, level root current as k = [t] ∧ t.isAdHoc = true := by
  induction hmk with
  | refl => exact ⟨s, hm, hs⟩
  | @step k hmk ih =>
    obtain ⟨t, ht, hta⟩ := ih (Nat.le_of_lt hk)
    refine ⟨.member t as[k], ?_, rfl⟩
    rw [level_succ hk, ht, List.flatMap_singleton, Symbol.resolve_of_isAdHoc hta]

/-- The descent gives the levels up to the first one that it does not go on from. -/
theorem follow_eq_levels (root : Node) (current : List Symbol) (as : List Attribute) :
    ∃ m, IsLeast {k | k = as.length ∨ Ends (level root current as k)} m ∧
      follow root current as = (List.range (m + 1)).map (level root current as) := by
  fun_induction follow root current as with
  | case1 current => exact ⟨0, ⟨.inl rfl, fun _ _ => Nat.zero_le _⟩, rfl⟩
  | case2 s a as hs => exact ⟨0, ⟨.inr (.inr ⟨s, rfl, hs⟩), fun _ _ => Nat.zero_le _⟩, rfl⟩
  | case3 s a as hs ih =>
    obtain ⟨m, ⟨hm, hleast⟩, hf⟩ := ih
    have hlevel : ∀ k, level root [s] (a :: as) (k + 1) = level root (s.resolve root a) as k := by
      intro k
      rw [level_cons, List.flatMap_singleton]
    refine ⟨m + 1, ⟨?_, ?_⟩, ?_⟩
    · rw [Set.mem_ofPred_eq, hlevel, List.length_cons, Nat.add_right_cancel_iff]
      exact hm
    · intro k hk
      cases k with
      | zero =>
        obtain hk | hk | ⟨t, ht, hta⟩ := hk
        · simp at hk
        · exact absurd rfl hk
        · cases ht
          exact absurd hta hs
      | succ k =>
        rw [Set.mem_ofPred_eq, hlevel, List.length_cons, Nat.add_right_cancel_iff] at hk
        exact Nat.succ_le_succ (hleast hk)
    · rw [List.range_succ_eq_map, List.map_cons, List.map_map, hf]
      refine congrArg ([s] :: ·) (List.map_congr_left fun k _ => ?_)
      exact (hlevel k).symm
  | case4 as current hnil hne =>
    refine ⟨0, ⟨.inr (.inl ?_), fun _ _ => Nat.zero_le _⟩, rfl⟩
    intro hl
    obtain ⟨s, hs⟩ := List.length_eq_one_iff.mp hl
    obtain ⟨a, as, rfl⟩ := List.exists_cons_of_ne_nil hnil
    exact hne s a as hs rfl

end Scope

namespace Resolution

def level (root : Node) (u : Usage) : Nat → List Symbol :=
  Scope.level root (Scope.resolveName u.element u.path.first) u.path.rest

/-- Nothing is lost where the descent along the path of a usage stops. It gives the levels up to the
first one that is not a single candidate, or a single one that only evaluation can find, or the
last. Behind one that only evaluation can find, every level would be a member of the one before; and
none would be empty but for the first one being empty. -/
theorem segments_eq_levels (root : Node) (u : Usage) :
    ∃ m, IsLeast {k | k + 1 = u.path.length ∨ Scope.Ends (level root u k)} m ∧
      (Resolution.of root u).segments = (List.range (m + 1)).map (level root u) ∧
      (∀ k < u.path.length, level root u k = [] ↔ level root u 0 = []) ∧
      (∀ s, level root u m = [s] → s.isAdHoc = true → ∀ k, m < k → k < u.path.length →
        ∃ t a, level root u (k - 1) = [t] ∧ u.path.toList[k]? = some a ∧
          level root u k = [.member t a]) ∧
      ((Resolution.of root u).isUnresolved = true ↔ level root u 0 = []) ∧
      ((Resolution.of root u).isComplete = true ↔ m + 1 = u.path.length ∧ level root u m ≠ []) := by
  obtain ⟨m, hm, hs⟩ := Scope.follow_eq_levels root (Scope.resolveName u.element u.path.first)
    u.path.rest
  have hsegments : (Resolution.of root u).segments = (List.range (m + 1)).map (level root u) := hs
  refine ⟨m, ?_, hsegments, ?_, ?_, ?_, ?_⟩
  · simpa only [AttributePath.length, Nat.add_right_cancel_iff, level] using hm
  · intro k hk
    exact Scope.level_eq_nil_iff (Nat.le_of_lt_succ hk)
  · intro s hms hsa k hmk hk
    obtain ⟨j, rfl⟩ : ∃ j, k = j + 1 := Nat.exists_eq_add_of_le' (Nat.one_le_of_lt hmk)
    have hj : j < u.path.rest.length := Nat.lt_of_succ_lt_succ hk
    obtain ⟨t, ht, hta⟩ := Scope.level_of_isAdHoc hms hsa (Nat.le_of_lt_succ hmk) (Nat.le_of_lt hj)
    refine ⟨t, u.path.rest[j], ht, List.getElem?_eq_getElem hj, ?_⟩
    rw [level, Scope.level_succ hj, ht, List.flatMap_singleton, Symbol.resolve_of_isAdHoc hta]
  · rw [isUnresolved, symbols_zero, List.isEmpty_iff]
    rfl
  · rw [isComplete, hsegments, List.range_succ, List.map_append, List.map_singleton,
      List.getLast?_concat, Option.any_some]
    simp only [List.length_append, List.length_map, List.length_range, List.length_singleton,
      Bool.and_eq_true, beq_iff_eq, Bool.not_eq_true', List.isEmpty_eq_false_iff]
    rfl

end Resolution

end NixScope
