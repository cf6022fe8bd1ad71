import NixScope.Proofs.Runs
import NixScope.Proofs.Tree

namespace NixScope.Syntax

namespace Place

theorem Leads.clean {p q : Place} (h : p.Leads q) (hq : q.errors = []) : p.errors = [] := by
  obtain ⟨ts, ht⟩ := h
  exact List.suffix_nil.mp (hq ▸ ht.errors_suffix)

theorem consistent_of_clean {p : Place} (h : p.errors = []) : p.Consistent := by
  simp [Consistent, gaveUp_of_clean h]

end Place

namespace Rule

open Syntax.Tree (solid)

theorem recover_not_clean (problem : Problem) (p : Place) :
    (recover problem p).2.errors ≠ [] := by
  intro h
  have hr : (seq [onlyIf (fun p => p.peek.any (!·.closes)) (node .error token)]).Reads :=
    reads_seq (by simp [reads_onlyIf, reads_node])
  exact p.report_not_clean problem (Place.Leads.clean (hr.moves _) h)

theorem giveUp_not_clean (p : Place) : (giveUp p).2.errors ≠ [] := by
  intro h
  have hp : p.errors = [] := Place.Leads.clean (reads_giveUp.moves p) h
  have hr : (node .error remaining).Reads := reads_node (by simp) reads_remaining
  rw [giveUp_eq (Place.gaveUp_of_clean hp)] at h
  exact p.report_not_clean .nestedTooDeeply (Place.Leads.clean (hr.moves _) h)

@[simp] theorem solid_trivia (p : Place) : solid (trivia p).1 = [] := by
  rw [trivia_eq, solid, List.filter_eq_nil_iff]
  intro t ht
  obtain ⟨u, hu, rfl⟩ := List.mem_map.mp ht
  have hu : u.isTrivia = true := List.all_eq_true.mp List.all_takeWhile u hu
  simp [Tree.isSolid, hu]

theorem solid_token {p : Place} {k : Kind} (h : p.peek = some k) :
    ∃ t, solid (token p).1 = [.leaf t] ∧ t.kind = k := by
  obtain ⟨t, ts, hr, ht⟩ := Place.peek_eq_some.mp h
  have hk := Place.not_isTrivia_of_peek h
  refine ⟨t, ?_, ht⟩
  simp only [token, seq_cons_apply, seq_nil_apply, List.append_nil, Tree.solid_append,
    solid_trivia, List.nil_append]
  simp [trivia_eq, leaf, hr, solid, Tree.isSolid, Token.isTrivia, ht, hk]

@[simp] theorem solid_node (kind : Kind) (r : Rule) (p : Place) :
    solid (node kind r p).1 = [.branch kind (r p.skipTrivia).1] := by
  simp only [node, Tree.solid_append, solid_trivia, List.nil_append]
  rw [trivia_eq]
  rfl

end Rule

end NixScope.Syntax
