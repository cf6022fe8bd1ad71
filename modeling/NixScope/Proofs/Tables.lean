import NixScope.Workspace.Table

namespace NixScope.Table

variable {α β : Type} [BEq α]

def Distinct (t : Table α β) : Prop := t.entries.Pairwise fun a b => (a.1 == b.1) = false

/-- The entry `e` is the one under the key, with the other entries around it. -/
structure Split (t : Table α β) (key : α) (before : List (α × β)) (e : α × β)
    (after : List (α × β)) : Prop where
  entries : t.entries = before ++ e :: after
  here : (e.1 == key) = true
  before : ∀ x ∈ before, (x.1 == key) = false
  after : ∀ x ∈ after, (x.1 == key) = false

theorem distinct_empty : (empty : Table α β).Distinct := .nil

section

variable [EquivBEq α] {t : Table α β} {key : α}

theorem contains_iff : t.contains key = true ↔ ∃ e ∈ t.entries, (e.1 == key) = true := by
  rw [contains, get?, List.lookup_isSome_iff]
  simp only [BEq.comm (a := key)]

theorem not_contains_iff : t.contains key = false ↔ ∀ e ∈ t.entries, (e.1 == key) = false := by
  rw [← Bool.not_eq_true, contains_iff]
  simp

theorem split_of_entries (hd : t.Distinct) {before after : List (α × β)} {e : α × β}
    (hentries : t.entries = before ++ e :: after) (hk : (e.1 == key) = true) :
    t.Split key before e after := by
  rw [Distinct, hentries, List.pairwise_append, List.pairwise_cons] at hd
  obtain ⟨-, ⟨hafter, -⟩, hbefore⟩ := hd
  refine ⟨hentries, hk, fun x hx => ?_, fun x hx => ?_⟩
  · rw [← BEq.congr_right hk]
    exact hbefore x hx e List.mem_cons_self
  · rw [← BEq.congr_right hk, BEq.comm]
    exact hafter x hx

theorem exists_split (hd : t.Distinct) (hc : t.contains key = true) :
    ∃ before e after, t.Split key before e after := by
  obtain ⟨e, he, hk⟩ := contains_iff.mp hc
  obtain ⟨before, after, hentries⟩ := List.append_of_mem he
  exact ⟨before, e, after, split_of_entries hd hentries hk⟩

end

section

variable {t : Table α β} {key : α} {before after : List (α × β)} {e : α × β}

theorem replace_append (hb : ∀ x ∈ before, (x.1 == key) = false) (he : (e.1 == key) = true)
    (v : β) : replace key v (before ++ e :: after) = before ++ (e.1, v) :: after := by
  induction before with
  | nil => simp [replace, he]
  | cons x before ih =>
    have hx := hb x List.mem_cons_self
    rw [List.cons_append, replace, if_neg (by simp [hx]),
      ih fun y hy => hb y (List.mem_cons_of_mem _ hy), List.cons_append]

theorem fill_append (hb : ∀ x ∈ before, (x.1 == key) = false) (he : (e.1 == key) = true)
    (last : α × β) : fill key last (before ++ e :: after) = before ++ last :: after := by
  induction before with
  | nil => simp [fill, he]
  | cons x before ih =>
    have hx := hb x List.mem_cons_self
    rw [List.cons_append, fill, if_neg (by simp [hx]),
      ih fun y hy => hb y (List.mem_cons_of_mem _ hy), List.cons_append]

theorem Split.erase_eq (hs : t.Split key before e after) :
    (t.erase key).entries = before ++ after := by
  have hb : ∀ x ∈ before, ¬ (x.1 == key) = true := fun x hx => by simp [hs.before x hx]
  have he : (e :: after).eraseP (·.1 == key) = after := List.eraseP_cons_of_pos hs.here
  rw [erase, hs.entries, List.eraseP_append_right _ hb, he]

variable [EquivBEq α] (hs : t.Split key before e after)

include hs

theorem Split.get?_eq : t.get? key = some e.2 := by
  have hbefore : before.lookup key = none := by
    rw [List.lookup_eq_none_iff]
    intro x hx
    rw [bne, BEq.comm, hs.before x hx]
    rfl
  rw [get?, hs.entries, List.lookup_append, hbefore, Option.none_or, List.lookup_cons, BEq.comm,
    hs.here]

theorem Split.contains_eq : t.contains key = true := by
  rw [contains, hs.get?_eq]
  rfl

theorem Split.insert_eq (v : β) : (t.insert key v).entries = before ++ (e.1, v) :: after := by
  rw [insert, if_pos hs.contains_eq, hs.entries, replace_append hs.before hs.here]

theorem Split.swapErase_eq :
    (t.swapErase key).entries = before ++ (after.getLast?.toList ++ after.dropLast) := by
  have hc := hs.contains_eq
  rw [swapErase, hs.entries]
  obtain rfl | ⟨bs, last, hafter⟩ := List.eq_nil_or_concat after
  · simp [hc, hs.here]
  · rw [List.concat_eq_append] at hafter
    subst hafter
    have hl : (last.1 == key) = false := hs.after last (by simp)
    have hlist : before ++ e :: (bs ++ [last]) = (before ++ e :: bs) ++ [last] := by simp
    rw [hlist, List.getLast?_concat, List.dropLast_concat]
    simp [hc, hl, fill_append hs.before hs.here]

end

section

variable {t : Table α β} {key : α}

theorem contains_of_get?_none (hg : t.get? key = none) : t.contains key = false := by
  rw [contains, hg]
  rfl

theorem insert_of_not_contains (hc : t.contains key = false) (v : β) :
    t.insert key v = ⟨t.entries ++ [(key, v)]⟩ := by
  simp [insert, hc]

theorem swapErase_of_not_contains (hc : t.contains key = false) : t.swapErase key = t := by
  rw [swapErase]
  split
  · rfl
  · simp [hc]

theorem distinct_erase (hd : t.Distinct) (key : α) : (t.erase key).Distinct :=
  hd.sublist (List.eraseP_sublist)

variable [EquivBEq α]

theorem erase_of_not_contains (hc : t.contains key = false) : t.erase key = t := by
  have hn : ∀ x ∈ t.entries, ¬ (x.1 == key) = true := by simpa using not_contains_iff.mp hc
  rw [erase, List.eraseP_of_forall_not hn]

theorem get?_eq_some_iff (hd : t.Distinct) {v : β} :
    t.get? key = some v ↔ ∃ e ∈ t.entries, (e.1 == key) = true ∧ e.2 = v := by
  cases hc : t.contains key with
  | false =>
    have hnone : t.get? key = none := by simpa [contains] using hc
    have hall := not_contains_iff.mp hc
    rw [hnone]
    constructor
    · intro hv
      cases hv
    · rintro ⟨e, he, hk, -⟩
      rw [hall e he] at hk
      cases hk
  | true =>
    obtain ⟨before, e, after, hs⟩ := exists_split hd hc
    rw [hs.get?_eq, Option.some.injEq]
    constructor
    · rintro rfl
      exact ⟨e, by simp [hs.entries], hs.here, rfl⟩
    · rintro ⟨x, hx, hk, rfl⟩
      rw [hs.entries, List.mem_append, List.mem_cons] at hx
      obtain hx | rfl | hx := hx
      · rw [hs.before x hx] at hk
        cases hk
      · rfl
      · rw [hs.after x hx] at hk
        cases hk

theorem swapErase_perm (hd : t.Distinct) :
    (t.swapErase key).entries.Perm (t.erase key).entries := by
  cases hc : t.contains key with
  | false => rw [swapErase_of_not_contains hc, erase_of_not_contains hc]
  | true =>
    obtain ⟨before, e, after, hs⟩ := exists_split hd hc
    rw [hs.swapErase_eq, hs.erase_eq]
    apply List.Perm.append_left
    obtain rfl | ⟨bs, last, rfl⟩ := List.eq_nil_or_concat after
    · exact .nil
    · rw [List.concat_eq_append, List.getLast?_concat, List.dropLast_concat]
      exact (List.perm_append_singleton last bs).symm

theorem mem_erase (hd : t.Distinct) {x : α × β} :
    x ∈ (t.erase key).entries ↔ x ∈ t.entries ∧ (x.1 == key) = false := by
  cases hc : t.contains key with
  | false =>
    rw [erase_of_not_contains hc]
    exact (and_iff_left_of_imp (not_contains_iff.mp hc x)).symm
  | true =>
    obtain ⟨before, e, after, hs⟩ := exists_split hd hc
    rw [hs.erase_eq, hs.entries, List.mem_append, List.mem_append, List.mem_cons]
    constructor
    · rintro (hx | hx)
      · exact ⟨.inl hx, hs.before x hx⟩
      · exact ⟨.inr (.inr hx), hs.after x hx⟩
    · rintro ⟨hx | rfl | hx, hk⟩
      · exact .inl hx
      · rw [hs.here] at hk
        cases hk
      · exact .inr hx

theorem distinct_swapErase (hd : t.Distinct) (key : α) : (t.swapErase key).Distinct := by
  apply (swapErase_perm hd).symm.pairwise (distinct_erase hd key)
  intro x y hxy
  rwa [BEq.comm]

theorem distinct_insert (hd : t.Distinct) (key : α) (v : β) : (t.insert key v).Distinct := by
  rw [Distinct] at hd ⊢
  cases hc : t.contains key with
  | false =>
    rw [insert_of_not_contains hc, List.pairwise_append]
    refine ⟨hd, List.pairwise_singleton _ _, fun x hx y hy => ?_⟩
    cases List.mem_singleton.mp hy
    exact not_contains_iff.mp hc x hx
  | true =>
    obtain ⟨before, e, after, hs⟩ := exists_split hd hc
    rw [hs.entries] at hd
    rw [hs.insert_eq]
    rw [List.pairwise_append, List.pairwise_cons] at hd ⊢
    simpa using hd

theorem keys_insert (hd : t.Distinct) (key : α) (v : β) :
    (t.insert key v).keys = if t.contains key then t.keys else t.keys ++ [key] := by
  rw [keys, keys]
  cases hc : t.contains key with
  | false => simp [insert_of_not_contains hc]
  | true =>
    obtain ⟨before, e, after, hs⟩ := exists_split hd hc
    simp [hs.insert_eq, hs.entries]

end

section

variable [LawfulBEq α] {t : Table α β} {k : α}

theorem mem_keys : k ∈ t.keys ↔ t.contains k = true := by
  simp [keys, contains_iff]

theorem exists_get? : k ∈ t.keys ↔ ∃ v, t.get? k = some v := by
  rw [mem_keys, contains, Option.isSome_iff_exists]

variable (hd : t.Distinct) (key : α)

include hd

theorem get?_iff_mem {v : β} : t.get? k = some v ↔ (k, v) ∈ t.entries := by
  rw [get?_eq_some_iff hd]
  constructor
  · rintro ⟨⟨k', v'⟩, he, hk, rfl⟩
    cases eq_of_beq hk
    exact he
  · exact fun he => ⟨_, he, beq_self_eq_true k, rfl⟩

theorem mem_keys_insert (v : β) : k ∈ (t.insert key v).keys ↔ k = key ∨ k ∈ t.keys := by
  rw [keys_insert hd]
  split
  · rename_i hc
    constructor
    · exact .inr
    · rintro (rfl | hk)
      · exact mem_keys.mpr hc
      · exact hk
  · simp [or_comm]

theorem mem_insert {v : β} {x : α × β} : x ∈ (t.insert key v).entries ↔
    x = (key, v) ∨ x ∈ t.entries ∧ (x.1 == key) = false := by
  cases hc : t.contains key with
  | false =>
    rw [insert_of_not_contains hc, List.mem_append, List.mem_singleton, or_comm,
      and_iff_left_of_imp (not_contains_iff.mp hc x)]
  | true =>
    obtain ⟨before, e, after, hs⟩ := exists_split hd hc
    cases eq_of_beq hs.here
    rw [hs.insert_eq, hs.entries, List.mem_append, List.mem_cons, List.mem_append, List.mem_cons]
    constructor
    · rintro (hx | rfl | hx)
      · exact .inr ⟨.inl hx, hs.before x hx⟩
      · exact .inl rfl
      · exact .inr ⟨.inr (.inr hx), hs.after x hx⟩
    · rintro (rfl | ⟨hx | rfl | hx, hk⟩)
      · exact .inr (.inl rfl)
      · exact .inl hx
      · rw [hs.here] at hk
        cases hk
      · exact .inr (.inr hx)

theorem get?_insert (v : β) :
    (t.insert key v).get? k = if k == key then some v else t.get? k := by
  apply Option.ext
  intro u
  rw [get?_iff_mem (distinct_insert hd key v), mem_insert hd]
  by_cases hk : k = key
  · simp [hk, eq_comm]
  · simp [hk, get?_iff_mem hd]

theorem get?_erase : (t.erase key).get? k = if k == key then none else t.get? k := by
  apply Option.ext
  intro u
  rw [get?_iff_mem (distinct_erase hd key), mem_erase hd]
  by_cases hk : k = key
  · simp [hk]
  · simp [hk, get?_iff_mem hd]

theorem mem_keys_erase : k ∈ (t.erase key).keys ↔ k ∈ t.keys ∧ k ≠ key := by
  rw [exists_get?, exists_get?, get?_erase hd]
  by_cases hk : k = key <;> simp [hk]

theorem get?_swapErase : (t.swapErase key).get? k = if k == key then none else t.get? k := by
  apply Option.ext
  intro u
  rw [← get?_erase hd key, get?_iff_mem (distinct_swapErase hd key),
    get?_iff_mem (distinct_erase hd key), (swapErase_perm hd).mem_iff]

theorem mem_keys_swapErase : k ∈ (t.swapErase key).keys ↔ k ∈ t.keys ∧ k ≠ key := by
  rw [← mem_keys_erase hd key]
  exact ((swapErase_perm hd).map _).mem_iff

end

end NixScope.Table
