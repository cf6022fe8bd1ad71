import NixScope.Proofs.Lossless
import NixScope.Proofs.Productions

namespace NixScope.Syntax

/-- The order in which nodes of one width may stand around each other. -/
def Kind.rank : Kind → Nat
  | attr | paramName => 1
  | attrPath | inheritedName | patternEntry | patternBind => 2
  | attrPathValue | pattern => 3
  | lambda => 4
  | root => 5
  | _ => 0

theorem Kind.rank_lt_root {k : Kind} (h : k ≠ root) : k.rank < root.rank := by
  cases k <;> first | decide | exact absurd rfl h

namespace Tree

theorem widthOf_append (ts us : List Tree) : widthOf (ts ++ us) = widthOf ts + widthOf us := by
  simp [widthOf, Rose.leavesOf_append, Token.widthOf_append]

theorem width_le_widthOf {t : Tree} {ts : List Tree} (h : t ∈ ts) : t.width ≤ widthOf ts := by
  obtain ⟨as, bs, rfl⟩ := List.append_of_mem h
  rw [widthOf_append, widthOf_cons]
  omega

/-- A child with the width of the whole node, if that is not empty, has a lower rank. -/
def Tight (kind : Kind) (ts : List Tree) : Prop :=
  ∀ k us, .branch k us ∈ ts → 0 < widthOf us → widthOf us = widthOf ts → k.rank < kind.rank

variable {kind : Kind} {ts us : List Tree}

theorem tight_of_rank (h : ∀ k us, .branch k us ∈ ts → k.rank < kind.rank) : Tight kind ts :=
  fun k us hm _ _ => h k us hm

theorem tight_append (h : ∀ k vs, .branch k vs ∈ ts → k.rank < kind.rank) (hw : 0 < widthOf ts) :
    Tight kind (ts ++ us) := by
  intro k vs hm _ he
  obtain hm | hm := List.mem_append.mp hm
  · exact h k vs hm
  · have hle := width_le_widthOf hm
    rw [width_branch] at hle
    rw [widthOf_append] at he
    omega

theorem tight_of_leaf {t : Token} (h : .leaf t ∈ ts) (hw : 0 < t.width) : Tight kind ts := by
  intro k vs hm _ he
  obtain ⟨as, bs, rfl⟩ := List.append_of_mem h
  have hm : .branch k vs ∈ as ++ bs := by simpa using hm
  have hle := width_le_widthOf hm
  rw [width_branch, widthOf_append] at hle
  rw [widthOf_append, widthOf_cons, width_leaf] at he
  omega

end Tree

namespace Place

def Positive (p : Place) : Prop := ∀ t ∈ p.rest, 0 < t.width

theorem Reads.positive {p q : Place} {ts : List Tree} (h : Reads p ts q) (hp : p.Positive) :
    q.Positive := by
  intro t ht
  apply hp
  rw [← h.leaves]
  exact List.mem_append_right _ ht

theorem Leads.positive {p q : Place} (h : p.Leads q) (hp : p.Positive) : q.Positive := by
  obtain ⟨ts, ht⟩ := h
  exact ht.positive hp

theorem Reads.widthOf_pos {p q : Place} {ts : List Tree} (h : Reads p ts q) (hp : p.Positive)
    (ht : q.rest.length < p.rest.length) : 0 < Tree.widthOf ts := by
  have hl := h.leaves
  rw [Tree.widthOf]
  cases hs : Rose.leavesOf ts with
  | nil =>
    rw [hs, List.nil_append] at hl
    rw [hl] at ht
    omega
  | cons t us =>
    have hw : 0 < t.width := hp t (by simp [← hl, hs])
    rw [Token.widthOf]
    omega

end Place

namespace Rule

theorem leaf_mem_token {p : Place} {k : Kind} (hw : p.Positive) (h : p.peek = some k) :
    ∃ t, .leaf t ∈ (token p).1 ∧ 0 < t.width := by
  obtain ⟨t, ts, hr, -⟩ := Place.peek_eq_some.mp h
  have hs : t ∈ p.skipTrivia.rest := by simp [hr]
  refine ⟨t, ?_, hw t ((List.dropWhile_sublist _).subset hs)⟩
  simp [token, seq_cons_apply, trivia_eq, leaf, hr]

/-- All nodes that the rule gives have kinds that satisfy `P`, not counting what is in them. -/
def Gives (P : Kind → Prop) (r : Rule) : Prop := ∀ p k ts, .branch k ts ∈ (r p).1 → P k

theorem gives_of_flat {P : Kind → Prop} {r : Rule} (h : r.Flat) : r.Gives P := by
  intro p k ts hm
  obtain ⟨l, hl⟩ := h p _ hm
  cases hl

theorem gives_node {P : Kind → Prop} {kind : Kind} {r : Rule} (h : P kind) :
    (node kind r).Gives P := by
  intro p k ts hm
  rw [node, List.mem_append] at hm
  obtain hm | hm := hm
  · exact gives_of_flat flat_trivia p k ts hm
  · simp only [List.mem_singleton, Rose.branch.injEq] at hm
    exact hm.1 ▸ h

theorem gives_seq {P : Kind → Prop} {rs : List Rule} (h : ∀ r ∈ rs, r.Gives P) :
    (seq rs).Gives P := by
  induction rs with
  | nil => simp [Gives, seq_nil_apply]
  | cons r rs ih =>
    intro p k ts hm
    rw [seq_cons_apply, List.mem_append] at hm
    obtain hm | hm := hm
    · exact h r (by simp) p k ts hm
    · exact ih (fun r hr => h r (by simp [hr])) _ k ts hm

theorem gives_many {P : Kind → Prop} {element : Place → Option Rule}
    (h : ∀ p r, element p = some r → r.Gives P) : (many element).Gives P := by
  suffices hm : ∀ clock, (manyFrom element clock).Gives P from fun p => hm p.rest p
  intro clock
  induction clock with
  | nil => simp [Gives, manyFrom]
  | cons c clock ih =>
    intro p k ts hm
    rw [manyFrom] at hm
    split at hm
    · simp at hm
    · rename_i r hr
      obtain hm | hm := List.mem_append.mp hm
      · exact h p r hr p k ts hm
      · exact ih _ k ts hm

end Rule

namespace Grammar

open Rule Syntax.Tree

section

variable {kind k : Kind} {r : Rule} {rs : List Rule} {p : Place} (hw : p.Positive)

include hw

theorem tight_token (hk : p.peek = some k) : Tight kind (seq (token :: rs) p).1 := by
  obtain ⟨t, hm, ht⟩ := leaf_mem_token hw hk
  exact tight_of_leaf (List.mem_append_left _ hm) ht

theorem tight_first (hr : r.Reads) (ht : r.TakesAt p) (hg : r.Gives fun k => k.rank < kind.rank) :
    Tight kind (seq (r :: rs) p).1 :=
  tight_append (hg p) ((hr p).widthOf_pos hw ht)

end

theorem tight_flat {kind : Kind} {r : Rule} (h : r.Flat) (p : Place) : Tight kind (r p).1 :=
  tight_of_rank (gives_of_flat h p)

theorem tight_gives {kind : Kind} {r : Rule} (h : r.Gives fun k => k.rank < kind.rank) (p : Place) :
    Tight kind (r p).1 :=
  tight_of_rank (h p)

section

variable {inner : Phrase → Rule}

theorem leaf_mem_dotPath {p q : Place} {k : Kind} {ts : List Tree} (hw : p.Positive)
    (hk : p.peek = some k) (hs : seq [token, attrPath inner] p = (ts, q)) :
    ∃ t, .leaf t ∈ ts ∧ 0 < t.width := by
  obtain ⟨t, hm, ht⟩ := leaf_mem_token hw hk
  have he : ts = (seq [token, attrPath inner] p).1 := by rw [hs]
  exact ⟨t, he ▸ List.mem_append_left _ hm, ht⟩

theorem gives_attrPath_parts {P : Kind → Prop} (hP : P .attr) : (seq [attr inner,
    many fun p => if dotAttrAhead p then some (seq [token, attr inner]) else none]).Gives P := by
  have ha : (attr inner).Gives P := gives_node hP
  have ht : token.Gives P := gives_of_flat flat_token
  have hd :
      (many fun p => if dotAttrAhead p then some (seq [token, attr inner]) else none).Gives P := by
    apply gives_many
    intro p r hr
    obtain ⟨-, hr⟩ := Option.ite_none_right_eq_some.mp hr
    cases hr
    exact gives_seq (by simp [ha, ht])
  exact gives_seq (by simp [ha, hd])

variable (h : ∀ phrase, (inner phrase).Reads)

include h

theorem Body.tight {kind : Kind} {p : Place} {r : Rule} (hb : Body inner kind p r)
    (hw : p.Positive) : Tight kind (r p).1 := by
  cases hb with
  | attrName hp => exact tight_flat flat_token p
  | attrString hp => exact tight_gives (gives_node (by decide)) p
  | attrDynamic hp => exact tight_gives (gives_node (by decide)) p
  | noAttr hp => exact fun _ _ hm => nomatch hm
  | attrPath => exact tight_gives (gives_attrPath_parts (by decide)) p
  | inheritedName hp => exact tight_gives (gives_node (by decide)) p
  | attrPathValue hp =>
    obtain ⟨k, hp, hk⟩ := (Option.any_eq_true _ _).mp hp
    exact tight_first hw (reads_attrPath h) (takesAt_attrPath h hp hk) (gives_node (by decide))
  | attrSet hp =>
    obtain hp | hp := hp
    · rw [seq_cons_of_nil (when_neg (by simp [hp])), seq_congr (expect_pos hp) rfl]
      exact tight_token hw hp
    · rw [seq_congr (when_pos hp) rfl]
      exact tight_token hw hp
  | error hp => exact tight_flat flat_token p
  | remaining => exact tight_flat flat_remaining p
  | paramName hp => exact tight_flat flat_token p
  | patternEntry hp =>
    exact tight_first hw reads_paramName (takesAt_paramName hp) (gives_node (by decide))
  | bindBefore hp =>
    exact tight_first hw reads_paramName (takesAt_paramName hp) (gives_node (by decide))
  | pattern hp =>
    obtain hp | hp := hp
    · rw [seq_cons_of_nil (when_neg (by simp [hp])), seq_congr (expect_pos hp) rfl]
      exact tight_token hw hp
    · have hr : (seq [Grammar.paramName, expect .atSign]).Reads := reads_seq (by simp)
      have ht : (seq [Grammar.paramName, expect .atSign]).TakesAt p.skipTrivia :=
        takesAt_seq (takesAt_paramName (by simpa using hp)) (by simp)
      rw [seq_congr (when_pos hp) rfl]
      exact tight_first hw (reads_node (by simp) hr) (takesAt_node ht) (gives_node (by decide))
  | patternLambda hp =>
    have ht : (Grammar.pattern inner).TakesAt p := by
      obtain hp | hp := hp
      · exact takesAt_pattern h hp (.inl rfl)
      · exact takesAt_pattern h hp (.inr rfl)
    exact tight_first hw (reads_pattern h) ht (gives_node (by decide))
  | nameLambda hp hc =>
    exact tight_first hw reads_paramName (takesAt_paramName hp) (gives_node (by decide))
  | var hp => exact tight_flat flat_token p
  | literal hk hp => exact tight_flat flat_token p
  | unaryOp hp =>
    obtain ⟨k, hp, -⟩ := Option.bind_eq_some_iff.mp hp
    exact tight_token hw hp
  | hole _ hp | string _ hp | interpolatedPath hp | inheritFrom hp | inherit hp | list hp
  | bindAfter hp | withIn hp | assert hp | ifElse hp | letIn hp | paren hp =>
    exact tight_token hw hp

variable (hs : ∀ phrase, Starts (inner phrase))

include hs

theorem Selection.takes {p q : Place} {ts : List Tree} (hsel : Selection inner p ts q)
    (hc : p.Consistent) (hp : p.peek.any Kind.startsArgument = true) :
    q.rest.length < p.rest.length := by
  obtain ⟨k, hp, hk⟩ := (Option.any_eq_true _ _).mp hp
  have ht : (inner .atom p).2.rest.length < p.rest.length :=
    hs .atom hc hp (by simp [Kind.stays, hk])
  cases hsel with
  | atom ha hd =>
    rw [ha] at ht
    exact ht
  | path ha hd hs ho =>
    have hle := ((reads_dotPath h).reads hs).rest_length_le
    rw [ha] at ht
    exact Nat.lt_of_le_of_lt hle ht
  | @fallback _ q s _ _ _ _ ha hd hs ho hf =>
    have hle := ((reads_dotPath h).reads hs).rest_length_le
    have hle' := (reads_token s).rest_length_le
    have hle'' := (hf.reads h).rest_length_le
    have hskip := (token s).2.rest_skipTrivia_length_le
    rw [ha] at ht
    dsimp only at ht
    omega
  | broken ha hs hd =>
    have hle := (reads_brokenDot.reads hs).rest_length_le
    rw [ha] at ht
    exact Nat.lt_of_le_of_lt hle ht

/-- A function with an argument ahead has taken a token: otherwise the argument would have been
ahead of the function, which would have taken it. -/
theorem Application.takes {p q : Place} {ts : List Tree} (ha : Application inner p ts q)
    (hc : p.Consistent) (hq : q.peek.any Kind.startsArgument = true) :
    q.rest.length < p.rest.length := by
  have htakes : p.peek.any Kind.startsArgument = true → q.rest.length < p.rest.length := by
    clear hq
    intro hp
    induction ha with
    | selection hsel => exact hsel.takes h hs hc hp
    | @apply q s ts us hf ha hsel ih =>
      have hle := (hsel.reads h).rest_length_le
      have hskip := q.rest_skipTrivia_length_le
      omega
  obtain he | ht := (ha.reads h).rest_eq_or_lt
  · apply htakes
    rwa [Place.peek, Place.ahead, ← he]
  · exact ht

theorem Production.tight {kind : Kind} {p q : Place} {ts : List Tree}
    (hp : Production inner kind p ts q) (hc : p.Consistent) (hw : p.Positive) : Tight kind ts := by
  cases hp with
  | body hb hr =>
    have ht := hb.tight h hw
    rwa [hr] at ht
  | giveUp hp hr =>
    have ht : Tight .error (remaining (p.report .nestedTooDeeply).skipTrivia).1 :=
      tight_flat flat_remaining _
    rwa [hr] at ht
  | @select _ q _ ts us ha hd hs ho =>
    have hq := ((h .atom).leads ha).positive hw
    obtain ⟨t, hm, ht⟩ := leaf_mem_dotPath hq (peek_of_dotAttrAhead hd) hs
    exact tight_of_leaf (List.mem_append_right _ hm) ht
  | @selectOr _ q s _ ts us vs ha hd hs ho hf =>
    have hq := ((h .atom).leads ha).positive hw
    obtain ⟨t, hm, ht⟩ := leaf_mem_dotPath hq (peek_of_dotAttrAhead hd) hs
    exact tight_of_leaf (by simp [hm]) ht
  | @apply _ q _ ts us hf ha hsel =>
    have hq := (hf.reads h).positive hw
    have hcq := (hf.reads h).consistent hc
    have hpos := (hf.reads h).widthOf_pos hw (hf.takes h hs hc ha)
    have htakes := hsel.takes h hs hcq.skipTrivia (by simpa using ha)
    have hpos' := (hsel.reads h).widthOf_pos (q.leads_skipTrivia.positive hq) htakes
    intro k vs hm _ he
    rw [widthOf_append, widthOf_append] at he
    obtain hm | hm := List.mem_append.mp hm
    · have hle := width_le_widthOf hm
      rw [width_branch, widthOf_append] at hle
      omega
    · have hle := width_le_widthOf hm
      rw [width_branch] at hle
      omega
  | @hasAttr power _ q _ ts us hl hk hs =>
    obtain ⟨t, hm, ht⟩ := leaf_mem_dotPath ((hl.reads h).positive hw) hk hs
    exact tight_of_leaf (List.mem_append_right _ hm) ht
  | @binaryOp power l r k _ q _ ts us hl hk hb hr hs =>
    obtain ⟨t, hm, ht⟩ := leaf_mem_token ((hl.reads h).positive hw) hk
    exact tight_of_leaf (by simp [hm]) ht

end

end Grammar

theorem Parse.everywhere_tight (text : String) :
    (parse text).root.tree.Everywhere Tree.Tight := by
  apply Parse.everywhere_root (Token.lex text)
  · intro k us hm _ _
    have hn := (Grammar.reads_file (.start (Token.lex text))).everywhere_not_root _ hm
    cases hn with
    | branch hk hs => exact Kind.rank_lt_root hk
  · rintro k ts ⟨levels, p, q, ⟨hp, -⟩, hprod, -⟩
    have hw : (Place.start (Token.lex text)).Positive := fun t ht => Token.width_pos_of_mem_lex ht
    exact hprod.tight (Grammar.reads_nested levels) (Grammar.starts_nested levels)
      (hp.consistent (Place.consistent_start _)) (hp.positive hw)

end NixScope.Syntax
