import NixScope.Proofs.Elements
import NixScope.Proofs.Tight

namespace NixScope.Syntax

namespace Tree

def AllWide (kind : Kind) (ts : List Tree) : Prop :=
  ∀ us, .branch kind us ∈ ts → 0 < widthOf us

theorem allWide_append {kind : Kind} {ts us : List Tree} (h : AllWide kind ts)
    (h' : AllWide kind us) : AllWide kind (ts ++ us) := by
  intro vs hv
  obtain hv | hv := List.mem_append.mp hv
  · exact h vs hv
  · exact h' vs hv

/-- The attributes that name bindings have a width. -/
inductive WideNames : Kind → List Tree → Prop
  | inheritedName {ts : List Tree} (h : AllWide .attr ts) : WideNames .inheritedName ts
  | attrPathValue {before after us : List Tree} (hb : ∀ t ∈ before, ∃ l, t = .leaf l)
      (h : AllWide .attr us) :
      WideNames .attrPathValue (before ++ .branch .attrPath us :: after)
  | other {k : Kind} {ts : List Tree} (hi : k ≠ .inheritedName) (ha : k ≠ .attrPathValue) :
      WideNames k ts

end Tree

namespace Rule

open Syntax.Tree

theorem allWide_of_flat {kind : Kind} {r : Rule} (h : r.Flat) (p : Place) :
    AllWide kind (r p).1 := by
  intro us hu
  obtain ⟨l, hl⟩ := h p _ hu
  cases hl

theorem allWide_node {kind : Kind} {r : Rule} {p : Place} (hr : (node kind r).Reads)
    (ht : (node kind r).TakesAt p.skipTrivia) (hw : p.Positive) :
    AllWide kind (node kind r p).1 := by
  have hpos := (hr p.skipTrivia).widthOf_pos (p.leads_skipTrivia.positive hw) ht
  simp only [node, trivia_skipTrivia, List.nil_append] at hpos
  rw [widthOf_cons, width_branch] at hpos
  refine allWide_append (allWide_of_flat flat_trivia p) ?_
  intro us hu
  rw [List.mem_singleton, Rose.branch.injEq] at hu
  rw [hu.2, trivia_eq]
  exact hpos

end Rule

namespace Grammar

open Rule Syntax.Tree

section

variable {inner : Phrase → Rule} (h : ∀ phrase, (inner phrase).Reads) {p : Place}

include h

theorem allWide_attr (hw : p.Positive) (hp : p.peek.any Kind.startsAttr = true) :
    AllWide .attr (attr inner p).1 := by
  obtain ⟨k, hp, hk⟩ := (Option.any_eq_true _ _).mp hp
  exact allWide_node (reads_attr h) (takesAt_attr h (by simpa using hp) hk) hw

theorem allWide_dotAttrs (hw : p.Positive) : AllWide .attr
    (many (fun p => if dotAttrAhead p then some (seq [token, attr inner]) else none) p).1 := by
  suffices hm : ∀ clock p, p.Positive → AllWide .attr (manyFrom
      (fun p => if dotAttrAhead p then some (seq [token, attr inner]) else none) clock p).1 from
    hm p.rest p hw
  intro clock
  induction clock with
  | nil =>
    intro p _ us hu
    cases hu
  | cons c clock ih =>
    intro p hw
    rw [manyFrom]
    by_cases hd : dotAttrAhead p = true
    · have hr : (seq [token, attr inner]).Reads := reads_seq (by simp [reads_attr h])
      have ha : (token p).2.peek.any Kind.startsAttr = true := by
        rw [Place.peek, ahead_token (peek_of_dotAttrAhead hd)]
        simp only [dotAttrAhead, Bool.and_eq_true] at hd
        exact hd.2
      simp only [if_pos hd, seq_cons_apply, seq_nil_apply, List.append_nil]
      have htoken := (reads_token.leads_apply p).positive hw
      have hattr := ((reads_attr h).leads_apply _).positive htoken
      exact allWide_append (allWide_append (allWide_of_flat flat_token p) (allWide_attr h htoken ha))
        (ih _ hattr)
    · rw [if_neg hd]
      intro us hu
      cases hu

theorem Body.wideNames {kind : Kind} {r : Rule} (hb : Body inner kind p r) (hw : p.Positive) :
    WideNames kind (r p).1 := by
  cases hb with
  | inheritedName hp => exact .inheritedName (allWide_attr h hw hp)
  | attrPathValue hp =>
    have hs := p.leads_skipTrivia.positive hw
    have ha := allWide_attr h hs (by simpa using hp)
    have hd := allWide_dotAttrs h (((reads_attr h).leads_apply _).positive hs)
    have hb := flat_trivia p
    simp only [seq_cons_apply, seq_nil_apply, Grammar.attrPath, node, trivia_eq, List.append_assoc,
      List.singleton_append, List.append_nil] at hb ⊢
    exact .attrPathValue hb (allWide_append ha hd)
  | hole hk hp => obtain rfl | rfl := hk <;> exact .other (by decide) (by decide)
  | _ => exact .other (by decide) (by decide)

theorem Production.wideNames {kind : Kind} {q : Place} {ts : List Tree}
    (hp : Production inner kind p ts q) (hw : p.Positive) : WideNames kind ts := by
  cases hp with
  | body hb hr =>
    have ht := hb.wideNames h hw
    rwa [hr] at ht
  | _ => exact .other (by decide) (by decide)

end

end Grammar

theorem Parse.everywhere_wideNames (text : String) :
    (parse text).root.tree.Everywhere Tree.WideNames := by
  apply Parse.everywhere_root (Token.lex text) (.other (by decide) (by decide))
  rintro k ts ⟨levels, p, q, ⟨hp, -⟩, hprod, -⟩
  have hw : (Place.start (Token.lex text)).Positive := fun t ht => Token.width_pos_of_mem_lex ht
  exact hprod.wideNames (Grammar.reads_nested levels) (hp.positive hw)

end NixScope.Syntax
