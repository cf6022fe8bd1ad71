import NixScope.Proofs.Lookahead
import NixScope.Proofs.Tight

namespace NixScope.Syntax

namespace Tree

/-- A node that is not there for a problem alone. -/
def isSound : Tree → Bool
  | .leaf _ => false
  | .branch k _ => k != .error

def sound (ts : List Tree) : List Tree := ts.filter isSound

@[simp] theorem sound_nil : sound [] = [] := rfl

@[simp] theorem sound_append (ts us : List Tree) : sound (ts ++ us) = sound ts ++ sound us :=
  List.filter_append ..

@[simp] theorem sound_branch (k : Kind) (ts : List Tree) :
    sound [.branch k ts] = if k = .error then [] else [.branch k ts] := by
  by_cases hk : k = .error <;> simp [sound, isSound, hk]

theorem sound_of_leaves {ts : List Tree} (h : ∀ t ∈ ts, ∃ l, t = .leaf l) : sound ts = [] := by
  rw [sound, List.filter_eq_nil_iff]
  intro t ht
  obtain ⟨l, rfl⟩ := h t ht
  simp [isSound]

def Lone (ts : List Tree) : Prop := (sound ts).length ≤ 1

theorem lone_append {ts us : List Tree} (h : sound us = []) : Lone (ts ++ us) ↔ Lone ts := by
  rw [Lone, Lone, sound_append, h, List.append_nil]

inductive Dotted : List Tree → Prop
  | one (us : List Tree) : Dotted [.branch .attr us]
  | cons (us : List Tree) {ls ts : List Tree} (hl : ∀ t ∈ ls, ∃ l, t = .leaf l) (hne : ls ≠ [])
      (h : Dotted ts) : Dotted (.branch .attr us :: ls ++ ts)

/-- What stands in a node, as far as it matters for the names in it. -/
inductive Spelled : Kind → List Tree → Prop
  | var {t : Token} (ht : t.kind = .ident) : Spelled .var [.leaf t]
  | paramName {t : Token} (ht : t.kind = .ident) : Spelled .paramName [.leaf t]
  | attrName {t : Token} (ht : t.kind = .ident ∨ t.kind = .orKw) : Spelled .attr [.leaf t]
  | attrString {t : Token} {us : List Tree} (ht : t.kind = .quote) :
      Spelled .attr [.branch .string (.leaf t :: us)]
  | attrDynamic {t : Token} {us : List Tree} (ht : t.kind = .dollarBrace) :
      Spelled .attr [.branch .dynamic (.leaf t :: us)]
  | noAttr : Spelled .attr []
  | string {ts : List Tree} (hs : ∀ k us, .branch k us ∈ ts → k = .interpolation) :
      Spelled .string ts
  | dynamic {ts : List Tree} (hs : Lone ts) : Spelled .dynamic ts
  | paren {ts : List Tree} (hs : Lone ts) : Spelled .paren ts
  | attrPath {ts : List Tree} (h : Dotted ts) : Spelled .attrPath ts
  | inheritedName (us : List Tree) : Spelled .inheritedName [.branch .attr us]
  | select {base ls us rest : List Tree} (hb : Lone base) (hl : ∀ t ∈ ls, ∃ l, t = .leaf l)
      (hd : ∃ t ∈ ls, t.kind = .dot) (hr : ∀ t ∈ rest.head?, ∃ l, t = .leaf l) :
      Spelled .select (base ++ ls ++ .branch .attrPath us :: rest)
  | error {ts : List Tree} (h : ∀ t ∈ ts, ∃ l, t = .leaf l) : Spelled .error ts
  | other {k : Kind} {ts : List Tree} (hk : k ∉ [.var, .paramName, .attr, .string, .dynamic, .paren,
      .attrPath, .inheritedName, .select, .error]) : Spelled k ts

end Tree

namespace Rule

open Syntax.Tree

theorem sound_flat {r : Rule} (h : r.Flat) (p : Place) : sound (r p).1 = [] := sound_of_leaves (h p)

@[simp] theorem sound_trivia (p : Place) : sound (trivia p).1 = [] := sound_flat flat_trivia p

@[simp] theorem sound_token (p : Place) : sound (token p).1 = [] := sound_flat flat_token p

@[simp] theorem sound_node (kind : Kind) (r : Rule) (p : Place) :
    sound (node kind r p).1 = sound [.branch kind (r p.skipTrivia).1] := by
  simp only [node, sound_append, sound_trivia, List.nil_append]
  rw [trivia_eq]

theorem sound_ifPeek (kind : Kind) (problem : Problem) (p : Place) :
    sound (if p.peek = some kind then token p else report problem p).1 = [] := by
  split
  · exact sound_token p
  · rfl

@[simp] theorem sound_expect (kind : Kind) (p : Place) : sound (expect kind p).1 = [] :=
  sound_ifPeek kind _ p

@[simp] theorem sound_recover (problem : Problem) (p : Place) :
    sound (recover problem p).1 = [] := by
  simp only [recover, seq_cons_apply, seq_nil_apply, report_apply, List.nil_append, List.append_nil,
    onlyIf]
  split <;> simp

@[simp] theorem sound_giveUp (p : Place) : sound (giveUp p).1 = [] := by
  simp only [giveUp]
  split
  · rfl
  · simp [seq_cons_apply, seq_nil_apply, report_apply]

theorem token_of_skipTrivia {p : Place} {k : Kind} (hk : p.peek = some k) (hs : p.skipTrivia = p) :
    ∃ t, (token p).1 = [.leaf t] ∧ t.kind = k := by
  obtain ⟨t, ts, hr, ht⟩ := Place.peek_eq_some.mp hk
  rw [hs] at hr
  refine ⟨t, ?_, ht⟩
  have htr : trivia p = ([], p) := by
    rw [← hs]
    exact trivia_skipTrivia p
  simp [token, seq_cons_apply, seq_nil_apply, htr, leaf, hr]

theorem node_of_skipTrivia {kind : Kind} {r : Rule} {p : Place} (hs : p.skipTrivia = p) :
    (node kind r p).1 = [.branch kind (r p).1] := by
  have htr : trivia p = ([], p) := by
    rw [← hs]
    exact trivia_skipTrivia p
  simp only [node, htr, List.nil_append]

theorem exists_mem_token {p : Place} {k : Kind} (hk : p.peek = some k) :
    ∃ t ∈ (token p).1, t.kind = k := by
  obtain ⟨t, ht, hkind⟩ := solid_token hk
  have hm : .leaf t ∈ solid (token p).1 := by
    rw [ht]
    exact List.mem_singleton.mpr rfl
  exact ⟨.leaf t, (List.mem_filter.mp hm).1, hkind⟩

end Rule

namespace Grammar

open Rule Syntax.Tree

section

variable {inner : Phrase → Rule} {p q : Place} {ts : List Tree}

theorem Selection.lone (hi : ∀ p, p.Consistent → Lone (inner .atom p).1) (hp : p.Consistent)
    (hs : Selection inner p ts q) : Lone ts := by
  cases hs with
  | atom ha hd =>
    have hl := hi p hp
    rwa [ha] at hl
  | path => simp [Lone]
  | fallback => simp [Lone]
  | @broken _ q s ts us ha hs hd =>
    have hl := hi p hp
    rw [ha] at hl
    have hu : sound us = [] := by
      have he : us = (seq [report .noAttrAfterDot, node .error token] q).1 := by rw [hs]
      simp [he, seq_cons_apply, seq_nil_apply, report_apply]
    exact (lone_append hu).mpr hl

theorem Application.lone (hi : ∀ p, p.Consistent → Lone (inner .atom p).1) (hp : p.Consistent)
    (ha : Application inner p ts q) : Lone ts := by
  cases ha with
  | selection hs => exact hs.lone hi hp
  | apply => simp [Lone]

theorem Operation.lone {power : Nat} (hi : ∀ p, p.Consistent → Lone (inner .atom p).1)
    (hp : p.Consistent) (ho : Operation inner power p ts q) : Lone ts := by
  cases ho with
  | application ha => exact ha.lone hi hp
  | _ => simp [Lone]

theorem lone_node {kind : Kind} {r : Rule} (p : Place) : Lone (node kind r p).1 := by
  rw [Lone, sound_node, sound_branch]
  split <;> simp

end

theorem lone_nested (levels : Nat) (phrase : Phrase) {p : Place} (hp : p.Consistent) :
    Lone (nested levels phrase p).1 := by
  induction levels generalizing phrase p with
  | zero => simp [nested, Lone]
  | succ levels ih =>
    have hatom : ∀ p : Place, p.Consistent → Lone (nested levels .atom p).1 := fun p => ih .atom
    have hoperand : ∀ power, Lone (operand (nested levels) power p).1 := by
      intro power
      obtain ⟨ts, q, he, ho, -⟩ : ∃ ts q, operand (nested levels) power p = ((trivia p).1 ++ ts, q) ∧
          Operation (nested levels) power p.skipTrivia ts q ∧ Stops power q :=
        operation_operand (reads_nested levels) (starts_nested levels) hp
      have hl := ho.lone hatom hp.skipTrivia
      rw [he]
      rwa [Lone, sound_append, sound_trivia, List.nil_append]
    have hexpr : Lone (expr (nested levels) p).1 := by
      obtain ⟨r, hr, he⟩ := expr_choice (nested levels) p
      rw [he]
      cases hr with
      | operand hk hn => exact hoperand 0
      | _ => exact lone_node p
    have hatoms : Lone (atom (nested levels) p).1 := by
      obtain ⟨r, hr, he⟩ := atom_choice (nested levels) p
      rw [he]
      generalize p.peek = o at hr
      cases hr with
      | keyword hk => exact ih .expr hp
      | broken hs ha => simp [Lone]
      | _ => exact lone_node p
    cases phrase with
    | expr => exact hexpr
    | atom => exact hatoms
    | operand power => exact hoperand power

section

variable {inner : Phrase → Rule} {p q : Place}

variable (inner) in
theorem attr_of_skipTrivia (hs : p.skipTrivia = p) :
    ∃ us, (attr inner p).1 = [.branch .attr us] := by
  obtain ⟨r, -, he⟩ := attr_eq inner p
  exact ⟨_, by rw [he, node_of_skipTrivia hs]⟩

theorem dotted_dotAttrs (us : List Tree) (p : Place) : Dotted (.branch .attr us ::
    (many (fun p => if dotAttrAhead p then some (seq [token, attr inner]) else none) p).1) := by
  suffices hm : ∀ clock p us, Dotted (.branch .attr us :: (manyFrom
      (fun p => if dotAttrAhead p then some (seq [token, attr inner]) else none) clock p).1) from
    hm p.rest p us
  intro clock
  induction clock with
  | nil => exact fun _ us => .one us
  | cons c clock ih =>
    intro p us
    rw [manyFrom]
    by_cases hd : dotAttrAhead p = true
    · obtain ⟨r, -, he⟩ := attr_eq inner (token p).2
      have hl : ∀ t ∈ (token p).1 ++ (trivia (token p).2).1, ∃ l, t = .leaf l := by
        intro t ht
        obtain ht | ht := List.mem_append.mp ht
        · exact flat_token p t ht
        · exact flat_trivia _ t ht
      have hne : (token p).1 ++ (trivia (token p).2).1 ≠ [] := by
        obtain ⟨t, ht, -⟩ := exists_mem_token (peek_of_dotAttrAhead hd)
        exact List.ne_nil_of_mem (List.mem_append_left _ ht)
      have hc := Dotted.cons us hl hne (ih (attr inner (token p).2).2 (r (trivia (token p).2).2).1)
      simp only [if_pos hd, seq_cons_apply, seq_nil_apply, List.append_nil]
      rw [he] at hc ⊢
      simpa [node] using hc
    · rw [if_neg hd]
      exact .one us

theorem spelled_attrPath (hs : p.skipTrivia = p) : Dotted (seq [attr inner,
    many fun p => if dotAttrAhead p then some (seq [token, attr inner]) else none] p).1 := by
  obtain ⟨us, hu⟩ := attr_of_skipTrivia inner hs
  simp only [seq_cons_apply, seq_nil_apply, hu, List.append_nil, List.singleton_append]
  exact dotted_dotAttrs us _

variable (inner) in
theorem dotPath_eq {k : Kind} (hk : p.peek = some k) :
    ∃ ls us, (seq [token, attrPath inner] p).1 = ls ++ [.branch .attrPath us] ∧
      (∀ t ∈ ls, ∃ l, t = .leaf l) ∧ ∃ t ∈ ls, t.kind = k := by
  refine ⟨(token p).1 ++ (trivia (token p).2).1, (seq [attr inner,
    many fun p => if dotAttrAhead p then some (seq [token, attr inner]) else none]
      (trivia (token p).2).2).1, ?_, ?_, ?_⟩
  · simp only [seq_cons_apply, seq_nil_apply, attrPath, node, List.append_nil, List.append_assoc]
  · intro t ht
    obtain ht | ht := List.mem_append.mp ht
    · exact flat_token p t ht
    · exact flat_trivia _ t ht
  · obtain ⟨t, ht, hkind⟩ := exists_mem_token hk
    exact ⟨t, List.mem_append_left _ ht, hkind⟩

theorem gives_string (opening : Kind) : (seq [token, many (stringPart inner),
    fun p => if p.peek = some opening then token p else report .unterminatedString p]).Gives
      (· = .interpolation) := by
  have hparts : (many (stringPart inner)).Gives (· = .interpolation) := by
    apply gives_many
    intro p r hr
    simp only [stringPart] at hr
    split at hr <;> cases hr
    · exact gives_of_flat flat_token
    · exact gives_node rfl
  have hlast : Rule.Gives (· = .interpolation) fun p =>
      if p.peek = some opening then token p else report .unterminatedString p := by
    intro p k us hm
    dsimp only at hm
    split at hm
    · exact gives_of_flat (P := (· = .interpolation)) flat_token p k us hm
    · cases hm
  exact gives_seq (by simp [hparts, hlast, gives_of_flat flat_token])

end

section

variable {levels : Nat} {p q : Place}

/-- In front of an expression and behind it, rules that give no nodes change nothing. -/
theorem lone_enclosed {phrase : Phrase} (hp : p.Consistent) (k : Kind) :
    Lone (seq [token, nested levels phrase, expect k] p).1 := by
  have hl := lone_nested levels phrase (consistent reads_token hp)
  simp only [Lone, seq_cons_apply, seq_nil_apply, sound_append, sound_token, sound_expect,
    List.nil_append, List.append_nil]
  exact hl

theorem Body.spelled {kind : Kind} {r : Rule} (hb : Body (nested levels) kind p r)
    (hs : p.skipTrivia = p) (hp : p.Consistent) : Spelled kind (r p).1 := by
  cases hb with
  | hole hk hd =>
    obtain rfl | rfl := hk
    · exact .other (by decide)
    · exact .dynamic (lone_enclosed hp _)
  | string ho hk => exact .string (gives_string _ p)
  | attrName hk =>
    obtain hk | hk := hk
    · obtain ⟨t, he, ht⟩ := token_of_skipTrivia hk hs
      exact he ▸ .attrName (.inl ht)
    · obtain ⟨t, he, ht⟩ := token_of_skipTrivia hk hs
      exact he ▸ .attrName (.inr ht)
  | attrString hk =>
    obtain ⟨t, he, ht⟩ := token_of_skipTrivia hk hs
    rw [Grammar.string, node_of_skipTrivia hs, seq_cons_apply, he]
    exact .attrString ht
  | attrDynamic hk =>
    obtain ⟨t, he, ht⟩ := token_of_skipTrivia hk hs
    rw [Grammar.hole, node_of_skipTrivia hs, seq_cons_apply, he]
    exact .attrDynamic ht
  | noAttr hk => exact .noAttr
  | attrPath => exact .attrPath (spelled_attrPath hs)
  | inheritedName hk =>
    obtain ⟨us, he⟩ := attr_of_skipTrivia (nested levels) hs
    exact he ▸ .inheritedName us
  | error hk he => exact .error (flat_token p)
  | remaining he => exact .error (flat_remaining p)
  | paramName hk =>
    obtain ⟨t, he, ht⟩ := token_of_skipTrivia hk hs
    exact he ▸ .paramName ht
  | var hk =>
    obtain ⟨t, he, ht⟩ := token_of_skipTrivia hk hs
    exact he ▸ .var ht
  | paren hk => exact .paren (lone_enclosed hp _)
  | _ => exact .other (by decide)

theorem Production.spelled {kind : Kind} {ts : List Tree}
    (h : Production (nested levels) kind p ts q) (hs : p.skipTrivia = p) (hp : p.Consistent) :
    Spelled kind ts := by
  cases h with
  | body hb hr =>
    have ht := hb.spelled hs hp
    rwa [hr] at ht
  | giveUp hg hr =>
    have hf := flat_remaining (p.report .nestedTooDeeply).skipTrivia
    rw [hr] at hf
    exact .error hf
  | @select _ q s ts us ha hd hu ho =>
    have hl := lone_nested levels .atom hp
    rw [ha] at hl
    obtain ⟨ls, vs, he, hls, hdot⟩ :=
      dotPath_eq (nested levels) (peek_of_dotAttrAhead hd)
    rw [hu] at he
    dsimp only at he
    rw [he, ← List.append_assoc]
    exact .select hl hls hdot nofun
  | @selectOr _ q s u ts us vs ha hd hu ho hf =>
    have hl := lone_nested levels .atom hp
    rw [ha] at hl
    obtain ⟨ls, ws, he, hls, hdot⟩ :=
      dotPath_eq (nested levels) (peek_of_dotAttrAhead hd)
    rw [hu] at he
    dsimp only at he
    have hor : ∀ t ∈ ((token s).1 ++ (trivia (token s).2).1 ++ vs).head?, ∃ l, t = .leaf l := by
      intro t ht
      obtain ⟨o, hm, -⟩ := exists_mem_token ho
      obtain ⟨first, others, hfirst⟩ := List.exists_cons_of_ne_nil (List.ne_nil_of_mem hm)
      rw [hfirst, List.append_assoc, List.cons_append, List.head?_cons] at ht
      cases ht
      exact flat_token s t (hfirst ▸ List.mem_cons_self)
    have hsel : Spelled .select (ts ++ ls ++ .branch .attrPath ws ::
        ((token s).1 ++ (trivia (token s).2).1 ++ vs)) := .select hl hls hdot hor
    simpa [he] using hsel
  | _ => exact .other (by decide)

end

end Grammar

theorem Parse.everywhere_spelled (text : String) :
    (parse text).root.tree.Everywhere Tree.Spelled := by
  apply Parse.everywhere_root (Token.lex text) (.other (by decide))
  rintro k ts ⟨levels, p, q, ⟨hp, hs⟩, hprod, -⟩
  exact hprod.spelled hs (hp.consistent (Place.consistent_start _))

end NixScope.Syntax
