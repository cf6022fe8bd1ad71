import NixScope.Proofs.Precedence
import NixScope.Proofs.Spelling

namespace NixScope.Syntax

namespace Tree

def Trimmed (ts : List Tree) : Prop := ∃ t, ts.getLast? = some t ∧ t.isSolid = true

theorem Trimmed.append {us : List Tree} (h : Trimmed us) (ts : List Tree) : Trimmed (ts ++ us) := by
  obtain ⟨t, ht, hs⟩ := h
  exact ⟨t, by rw [List.getLast?_append, ht, Option.some_or], hs⟩

theorem trimmed_branch (k : Kind) (ts : List Tree) : Trimmed [.branch k ts] := ⟨_, rfl, rfl⟩

theorem Trimmed.getLast? {ts : List Tree} (h : Trimmed ts)
    (hl : ∀ t ∈ ts, t.isSolid = true → ∃ l, t.leaves.getLast? = some l ∧ l.isTrivia = false) :
    ∃ l, (Rose.leavesOf ts).getLast? = some l ∧ l.isTrivia = false := by
  obtain ⟨t, ht, hs⟩ := h
  obtain ⟨us, rfl⟩ := List.getLast?_eq_some_iff.mp ht
  obtain ⟨l, hlast, hl⟩ := hl t (by simp) hs
  refine ⟨l, ?_, hl⟩
  rw [Rose.leavesOf_append, List.getLast?_append]
  simp [Rose.leavesOf, hlast]

theorem getLast?_leaves {t : Tree} (h : t.Everywhere fun _ us => Trimmed us)
    (hs : t.isSolid = true) : ∃ l, t.leaves.getLast? = some l ∧ l.isTrivia = false := by
  induction t using Rose.induct with
  | leaf l => exact ⟨l, rfl, by simpa [isSolid] using hs⟩
  | branch k us ih =>
    cases h with
    | branch hu hus => exact hu.getLast? fun u hm => ih u hm (hus u hm)

end Tree

namespace Rule

open Syntax.Tree

def TrimmedAt (r : Rule) (p : Place) : Prop := (r p).2.errors = [] → Trimmed (r p).1

/-- If the rule builds anything where it meets no problem, that has an end. -/
structure Trims (r : Rule) : Prop where
  reads : r.Reads
  trims : ∀ p, (r p).2.errors = [] → (r p).1 = [] ∨ Trimmed (r p).1

variable {r s : Rule} {rs : List Rule} {p : Place}

theorem trimmedAt_congr (he : r p = s p) (h : s.TrimmedAt p) : r.TrimmedAt p := by
  rwa [TrimmedAt, he]

theorem trimmedAt_token {k : Kind} (hp : p.peek = some k) : token.TrimmedAt p := by
  intro _
  obtain ⟨t, ts, hr, rfl⟩ := Place.peek_eq_some.mp hp
  have ht := Place.not_isTrivia_of_peek hp
  refine ⟨.leaf t, ?_, by simpa [isSolid, Token.isTrivia] using ht⟩
  simp [token, seq_cons_apply, seq_nil_apply, trivia_eq, leaf, hr]

theorem trimmedAt_node (kind : Kind) (r : Rule) (p : Place) : (node kind r).TrimmedAt p :=
  fun _ => (trimmed_branch _ _).append _

theorem trimmedAt_report (problem : Problem) (p : Place) : (report problem).TrimmedAt p :=
  fun hq => absurd hq (p.report_not_clean problem)

theorem trimmedAt_recover (problem : Problem) (p : Place) : (recover problem).TrimmedAt p :=
  fun hq => absurd hq (recover_not_clean problem p)

theorem trimmedAt_ifPeek {kind : Kind} {problem : Problem}
    (h : p.peek = some kind → r.TrimmedAt p) :
    TrimmedAt (fun p => if p.peek = some kind then r p else report problem p) p := by
  by_cases hp : p.peek = some kind
  · exact trimmedAt_congr (if_pos hp) (h hp)
  · exact trimmedAt_congr (if_neg hp) (trimmedAt_report problem p)

theorem trimmedAt_expect (kind : Kind) (p : Place) : (expect kind).TrimmedAt p :=
  trimmedAt_ifPeek trimmedAt_token

theorem trimmedAt_seq_cons (h : (seq rs).TrimmedAt (r p).2) : (seq (r :: rs)).TrimmedAt p :=
  fun hq => (h hq).append _

/-- A sequence ends as its last rule does. -/
theorem trimmedAt_seq_last (h : rs.getLast? = some r) (hr : ∀ p, r.TrimmedAt p) (p : Place) :
    (seq rs).TrimmedAt p := by
  obtain ⟨ss, rfl⟩ := List.getLast?_eq_some_iff.mp h
  clear h
  induction ss generalizing p with
  | nil =>
    apply trimmedAt_congr _ (hr p)
    rw [List.nil_append, seq_cons_apply, seq_nil_apply, List.append_nil]
  | cons s ss ih => exact trimmedAt_seq_cons (ih _)

theorem trimmedAt_seq_first (h : r.TrimmedAt p) (hs : s.Trims) : (seq [r, s]).TrimmedAt p := by
  intro hq
  rw [seq_cons_apply, seq_cons_apply, seq_nil_apply, List.append_nil] at hq ⊢
  obtain he | he := hs.trims (r p).2 hq
  · rw [he, List.append_nil]
    exact h (Place.Leads.clean (hs.reads.moves _) hq)
  · exact he.append _

theorem trims_when {kind : Kind} (hr : r.Reads) (h : ∀ p, p.peek = some kind → r.TrimmedAt p) :
    («when» kind r).Trims where
  reads := reads_when _ hr
  trims p hq := by
    by_cases hp : p.peek = some kind
    · rw [when_pos hp] at hq ⊢
      exact .inr (h p hp hq)
    · rw [when_neg hp]
      exact .inl rfl

theorem trims_many {element : Place → Option Rule} (hr : ∀ p r, element p = some r → r.Reads)
    (h : ∀ p r, element p = some r → r.TrimmedAt p) : (many element).Trims := by
  refine ⟨reads_many hr, ?_⟩
  suffices hm : ∀ clock, (manyFrom element clock).Trims from fun p => (hm p.rest).trims p
  intro clock
  induction clock with
  | nil => exact ⟨reads_manyFrom hr [], fun p _ => .inl rfl⟩
  | cons c clock ih =>
    refine ⟨reads_manyFrom hr _, fun p hq => ?_⟩
    cases he : element p with
    | none => simp [manyFrom, he]
    | some r =>
      have hs := trimmedAt_seq_first (h p r he) ih
      simp only [TrimmedAt, seq_cons_apply, seq_nil_apply, List.append_nil] at hs
      simp only [manyFrom, he] at hq ⊢
      exact .inr (hs hq)

end Rule

namespace Grammar

open Rule Syntax.Tree

section

variable {inner : Phrase → Rule} {p q : Place} {ts : List Tree}

theorem Selection.trimmed (h : ∀ p, (inner .atom).TrimmedAt p) (hs : Selection inner p ts q)
    (hq : q.errors = []) : Trimmed ts := by
  cases hs with
  | atom ha hd =>
    have he := h p
    rw [TrimmedAt, ha] at he
    exact he hq
  | broken ha hs hd => exact absurd (by rwa [hs]) (brokenDot_not_clean _)
  | _ => exact trimmed_branch _ _

theorem Application.trimmed (h : ∀ p, (inner .atom).TrimmedAt p)
    (ha : Application inner p ts q) (hq : q.errors = []) : Trimmed ts := by
  cases ha with
  | selection hs => exact hs.trimmed h hq
  | _ => exact trimmed_branch _ _

theorem Operation.trimmed {power : Nat} (h : ∀ p, (inner .atom).TrimmedAt p)
    (ho : Operation inner power p ts q) (hq : q.errors = []) : Trimmed ts := by
  cases ho with
  | application ha => exact ha.trimmed h hq
  | _ => exact trimmed_branch _ _

end

theorem trimmed_nested (levels : Nat) (phrase : Phrase) (p : Place) :
    (nested levels phrase).TrimmedAt p := by
  induction levels generalizing phrase p with
  | zero => exact fun hq => absurd hq (giveUp_not_clean p)
  | succ levels ih =>
    have hoperand : ∀ power, (operand (nested levels) power).TrimmedAt p := by
      intro power hq
      have hp : p.Consistent := Place.consistent_of_clean
        (Place.Leads.clean ((reads_operand (reads_nested levels) power).moves p) hq)
      obtain ⟨ts, q, he, ho, -⟩ : ∃ ts q,
          operand (nested levels) power p = ((trivia p).1 ++ ts, q) ∧
          Operation (nested levels) power p.skipTrivia ts q ∧ Stops power q :=
        operation_operand (reads_nested levels) (starts_nested levels) hp
      rw [he] at hq ⊢
      exact (ho.trimmed (ih .atom) hq).append _
    have hexpr : (expr (nested levels)).TrimmedAt p := by
      obtain ⟨r, hr, he⟩ := expr_choice (nested levels) p
      apply trimmedAt_congr he
      cases hr with
      | operand hk hn => exact hoperand 0
      | _ => exact trimmedAt_node _ _ p
    have hatom : (atom (nested levels)).TrimmedAt p := by
      obtain ⟨r, hr, he⟩ := atom_choice (nested levels) p
      apply trimmedAt_congr he
      generalize p.peek = o at hr
      cases hr with
      | keyword hk => exact ih .expr p
      | broken hs ha => exact trimmedAt_recover _ p
      | _ => exact trimmedAt_node _ _ p
    cases phrase with
    | expr => exact hexpr
    | atom => exact hatom
    | operand power => exact hoperand power

section

variable {levels : Nat} {p q : Place} {ts : List Tree}

theorem trimmedAt_dotPath (p : Place) : (seq [token, attrPath (nested levels)]).TrimmedAt p :=
  trimmedAt_seq_last rfl (trimmedAt_node _ _) p

theorem trims_pathParts : (many (pathPart (nested levels))).Trims := by
  refine trims_many (fun p r => reads_pathPart (reads_nested levels)) fun p r hr => ?_
  simp only [pathPart] at hr
  split at hr <;> cases hr
  · exact trimmedAt_token (Place.peek_of_head (by assumption) rfl)
  · exact trimmedAt_node _ _ p

theorem trims_dotAttrs : (many fun p =>
    if dotAttrAhead p then some (seq [token, attr (nested levels)]) else none).Trims := by
  refine trims_many (fun p r => reads_dotAttr (reads_nested levels)) fun p r hr => ?_
  obtain ⟨-, hr⟩ := Option.ite_none_right_eq_some.mp hr
  cases hr
  exact trimmedAt_seq_last (r := attr (nested levels)) rfl (trimmedAt_node _ _) p

theorem Body.trimmedAt {kind : Kind} {r : Rule} (hb : Body (nested levels) kind p r)
    (hs : p.errors = []) : r.TrimmedAt p := by
  have hn := trimmed_nested levels
  cases hb with
  | attrName hp =>
    obtain hp | hp := hp
    · exact trimmedAt_token hp
    · exact trimmedAt_token hp
  | attrString hp | attrDynamic hp | inheritedName hp => exact trimmedAt_node _ _ p
  | noAttr hp => exact trimmedAt_report _ p
  | error hp he | remaining he => exact absurd hs he
  | paramName hp | var hp | literal hk hp => exact trimmedAt_token hp
  | interpolatedPath hp => exact trimmedAt_seq_first (trimmedAt_token hp) trims_pathParts
  | attrPath => exact trimmedAt_seq_first (trimmedAt_node _ _ p) trims_dotAttrs
  | patternEntry hp =>
    refine trimmedAt_seq_first (trimmedAt_node _ _ p) (trims_when ?_ fun p _ => ?_)
    · exact reads_seq (by simp [reads_nested])
    · exact trimmedAt_seq_last rfl (hn .expr) p
  | bindAfter hp =>
    apply trimmedAt_seq_last rfl
    exact fun p => trimmedAt_ifPeek fun _ => trimmedAt_node _ _ p
  | pattern hp =>
    have hn : («when» .atSign patternName).Trims :=
      trims_when reads_patternName fun p _ => trimmedAt_node _ _ p
    exact trimmedAt_seq_cons (trimmedAt_seq_cons (trimmedAt_seq_cons
      (trimmedAt_seq_first (trimmedAt_expect _ _) hn)))
  | string ho hp =>
    exact trimmedAt_seq_last rfl (fun p => trimmedAt_ifPeek trimmedAt_token) p
  | hole | inheritFrom | inherit | attrPathValue | attrSet | list | bindBefore | paren =>
    exact trimmedAt_seq_last rfl (trimmedAt_expect _) p
  | patternLambda | nameLambda | withIn | assert | ifElse | letIn | unaryOp =>
    exact trimmedAt_seq_last rfl (hn _) p

theorem Body.reads {inner : Phrase → Rule} (h : ∀ phrase, (inner phrase).Reads) {kind : Kind}
    {r : Rule} (hb : Body inner kind p r) : r.Reads := by
  cases hb with
  | attrName | error | paramName | var | literal => exact reads_token
  | attrString => exact reads_string h _
  | attrDynamic => exact reads_hole h (by simp)
  | noAttr => exact reads_report (by simp)
  | remaining => exact reads_remaining
  | inheritedName => exact reads_attr h
  | string => exact reads_seq (by simp [reads_stringParts h, reads_ifPeek])
  | bindAfter => exact reads_seq (by simp [reads_ifPeek])
  | interpolatedPath => exact reads_seq (by simp [reads_pathParts h])
  | attrPath => exact reads_seq (by simp [reads_attr h, reads_dotAttrs h])
  | inherit => exact reads_seq (by simp [reads_inheritFrom h, reads_inheritedNames h])
  | attrPathValue => exact reads_seq (by simp [h, reads_attrPath h])
  | attrSet => exact reads_seq (by simp [reads_when, reads_bindings h])
  | list => exact reads_seq (by simp [reads_listElements h])
  | patternEntry =>
    have hd : (seq [token, inner .expr]).Reads := reads_seq (by simp [h])
    exact reads_seq (by simp [reads_when _ hd])
  | pattern =>
    have hb : (node .patternBind (seq [Grammar.paramName, expect .atSign])).Reads :=
      reads_node (by simp) (reads_seq (by simp))
    exact reads_seq (by simp [reads_when _ hb, reads_when _ reads_patternName, reads_formals h])
  | patternLambda => exact reads_seq (by simp [h, reads_pattern h])
  | letIn => exact reads_seq (by simp [h, reads_bindings h])
  | _ => exact reads_seq (by simp [h])

theorem Production.leaves {inner : Phrase → Rule} (h : ∀ phrase, (inner phrase).Reads)
    {kind : Kind} (hp : Production inner kind p ts q) (hs : p.skipTrivia = p) :
    Rose.leavesOf ts ++ q.rest = p.rest := by
  have hd := reads_dotPath h
  cases hp with
  | body hb hr => exact ((hb.reads h).reads hr).leaves
  | giveUp hg hr =>
    have hl := (reads_remaining.reads hr).leaves
    rwa [← Place.report_skipTrivia, hs, Place.rest_report] at hl
  | select ha _ hs _ => exact (((h .atom).reads ha).append (hd.reads hs)).leaves
  | selectOr ha _ hs _ hf =>
    have ht := ((h .atom).reads ha).append (hd.reads hs)
    have hu := (ht.append (reads_token _)).append (Place.reads_skipTrivia _)
    exact (hu.append (hf.reads h)).leaves
  | apply hf _ hs =>
    exact (((hf.reads h).append (Place.reads_skipTrivia _)).append (hs.reads h)).leaves
  | hasAttr hl _ hs => exact ((hl.reads h).append (hd.reads hs)).leaves
  | binaryOp hl _ _ hr _ =>
    have ht := ((hl.reads h).append (reads_token _)).append (Place.reads_skipTrivia _)
    exact (ht.append (hr.reads h)).leaves

theorem Production.trimmed {kind : Kind} (h : Production (nested levels) kind p ts q)
    (hq : q.errors = []) : Trimmed ts := by
  have ha := trimmed_nested levels .atom
  have hd : ∀ {p us s}, seq [token, attrPath (nested levels)] p = (us, s) → s.errors = [] →
      Trimmed us := by
    intro p us s hs hq
    have ht : (seq [token, attrPath (nested levels)]).TrimmedAt p := trimmedAt_dotPath p
    rw [TrimmedAt, hs] at ht
    exact ht hq
  cases h with
  | body hb hr =>
    have hr' := (hb.reads (reads_nested levels)).leads hr
    have ht := hb.trimmedAt (hr'.clean hq)
    rw [TrimmedAt, hr] at ht
    exact ht hq
  | giveUp hg hr =>
    have hc : (remaining (p.report .nestedTooDeeply).skipTrivia).2.errors = [] := by rwa [hr]
    exact absurd (Place.Leads.clean (reads_remaining.moves _) hc) (p.report_not_clean _)
  | select _ _ hs ho => exact (hd hs hq).append _
  | selectOr _ _ _ _ hf => exact (hf.trimmed ha hq).append _
  | apply _ _ hs => exact (hs.trimmed ha hq).append _
  | hasAttr _ _ hs => exact (hd hs hq).append _
  | binaryOp _ _ _ hr _ => exact (hr.trimmed ha hq).append _

end

end Grammar

theorem Place.not_isTrivia_of_head {p : Place} (hs : p.skipTrivia = p) {t : Token}
    (ht : p.rest.head? = some t) : t.isTrivia = false := by
  have hd := List.head?_dropWhile_not Token.isTrivia p.rest
  have he : p.rest.dropWhile Token.isTrivia = p.rest := congrArg Place.rest hs
  rw [he, ht] at hd
  simpa using hd

theorem Grammar.Built.head {first last : Place} {kind : Kind} {ts : List Tree}
    (h : Built first last kind ts) {t : Token} (ht : (Rose.leavesOf ts).head? = some t) :
    t.isTrivia = false := by
  obtain ⟨levels, p, q, ⟨-, hs⟩, hp, -⟩ := h
  apply Place.not_isTrivia_of_head hs
  rw [← hp.leaves (reads_nested levels) hs, List.head?_append, ht, Option.some_or]

theorem Grammar.Built.trimmed {first last : Place} {kind : Kind} {ts : List Tree}
    (h : Built first last kind ts) (hc : last.errors = []) : Tree.Trimmed ts := by
  obtain ⟨levels, p, q, -, hp, hl⟩ := h
  exact hp.trimmed (hl.clean hc)

theorem ne_root_of_kind (text : String) {n : Node} (hk : n.kind ≠ .root) :
    n ≠ (parse text).root := by
  rintro rfl
  exact hk rfl

/-- A node below the root begins with no blank or comment, a variable or parameter name is its
identifier, and where the text has no problems no node below the root ends with a blank or
comment. -/
theorem Parse.edges (text : String) :
    (∀ n ∈ (parse text).root.descendants, n ≠ (parse text).root →
      ∀ t, n.tree.leaves.head? = some t → t.isTrivia = false) ∧
    (∀ n ∈ (parse text).root.descendants, n.kind = .var ∨ n.kind = .paramName →
      ∃ t, n.trees = [.leaf t] ∧ t.kind = .ident) ∧
    ((parse text).errors = [] →
      ∀ n ∈ (parse text).root.descendants, n ≠ (parse text).root →
        ∃ t, n.tree.leaves.getLast? = some t ∧ t.isTrivia = false) := by
  refine ⟨fun n hn hr t ht => ?_, fun n hn hk => ?_, fun hc n hn hr => ?_⟩
  · have he := Parse.everywhere_of_ne_root (Token.lex text)
      (P := fun _ ts => ∀ t, (Rose.leavesOf ts).head? = some t → t.isTrivia = false)
      (fun _ _ hb _ => hb.head) hn hr
    rw [Spot.tree_eq] at ht
    exact Node.of_everywhere he t ht
  · have hs := Node.everywhere_of_mem_descendants (Parse.everywhere_spelled text) hn
    obtain hk | hk := hk
    · rw [hk] at hs
      generalize n.trees = ts at hs ⊢
      cases hs with
      | var ht => exact ⟨_, rfl, ht⟩
      | other hk => simp at hk
    · rw [hk] at hs
      generalize n.trees = ts at hs ⊢
      cases hs with
      | paramName ht => exact ⟨_, rfl, ht⟩
      | other hk => simp at hk
  · have hlast : (Grammar.file (.start (Token.lex text))).2.errors = [] :=
      List.reverse_eq_nil_iff.mp hc
    have he := Parse.everywhere_of_ne_root (Token.lex text) (P := fun _ ts => Tree.Trimmed ts)
      (fun _ _ hb => hb.trimmed hlast) hn hr
    exact Tree.getLast?_leaves he rfl

theorem Parse.edges_commented :
    (parse "x: f # c\n y # d\n").errors = [] ∧
    (∃ n ∈ (parse "x: f # c\n y # d\n").root.descendants, n.kind = .lambda ∧
      (∃ t, n.tree.leaves.head? = some t ∧ t.isTrivia = false) ∧
      ∃ t, n.tree.leaves.getLast? = some t ∧ t.isTrivia = false) ∧
    ∃ n ∈ (parse "x: f # c\n y # d\n").root.descendants, n.kind = .var ∧
      ∃ t, n.trees = [.leaf t] ∧ t.kind = .ident := by
  have hclean : (parse "x: f # c\n y # d\n").errors = [] := by decide +kernel
  obtain ⟨hhead, hname, hlast⟩ := Parse.edges "x: f # c\n y # d\n"
  obtain ⟨n, hn, hk, hsome⟩ : ∃ n ∈ (parse "x: f # c\n y # d\n").root.descendants,
      n.kind = .lambda ∧ n.tree.leaves.head?.isSome = true := by
    decide +kernel
  obtain ⟨m, hm, hkm⟩ : ∃ m ∈ (parse "x: f # c\n y # d\n").root.descendants, m.kind = .var := by
    decide +kernel
  obtain ⟨t, ht⟩ := Option.isSome_iff_exists.mp hsome
  have hne := ne_root_of_kind "x: f # c\n y # d\n" (n := n) (by simp [hk])
  exact ⟨hclean, ⟨n, hn, hk, ⟨t, ht, hhead n hn hne t ht⟩, hlast hclean n hn hne⟩, m, hm, hkm,
    hname m hm (.inl hkm)⟩

end NixScope.Syntax
