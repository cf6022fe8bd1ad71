import NixScope.Names.Scope

namespace NixScope.Resolution

open Syntax

theorem getD_follow (root : Node) (current : List Symbol) (as : List Attribute) :
    (Scope.follow root current as).getD 0 [] = current := by
  fun_cases Scope.follow <;> rfl

theorem symbols_zero (root : Node) (u : Usage) :
    (Resolution.of root u).symbols 0 = Scope.resolveName u.element u.path.first :=
  getD_follow ..

section

variable {root : Node} {P : Symbol → Prop}
  (step : ∀ s a t, P s → t ∈ s.resolve root a → P t)

include step

theorem forall_follow {current : List Symbol} (as : List Attribute) (hc : ∀ s ∈ current, P s) :
    ∀ l ∈ Scope.follow root current as, ∀ s ∈ l, P s := by
  fun_induction Scope.follow root current as with
  | case1 current => simpa using hc
  | case2 s a as hs => simpa using hc
  | case3 s a as hs ih =>
    have hx := hc s List.mem_cons_self
    exact List.forall_mem_cons.mpr ⟨hc, ih fun t ht => step s a t hx ht⟩
  | case4 current a as => simpa using hc

/-- What holds of the candidates for the first segment, and goes over from a symbol to its members,
holds of the candidates for every segment. -/
theorem forall_symbols {u : Usage} (hc : ∀ s ∈ Scope.resolveName u.element u.path.first, P s)
    {i : Nat} {s : Symbol} (hs : s ∈ (Resolution.of root u).symbols i) : P s := by
  rw [symbols, List.getD_eq_getElem?_getD] at hs
  cases hl : (Resolution.of root u).segments[i]? with
  | none => simp [hl] at hs
  | some l =>
    rw [hl, Option.getD_some] at hs
    exact forall_follow step u.path.rest hc l (List.mem_of_getElem? hl) s hs

end

end NixScope.Resolution
