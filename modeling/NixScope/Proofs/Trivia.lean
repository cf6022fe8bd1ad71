import Mathlib.Data.List.Forall2
import NixScope.Proofs.Lookahead

/-!
Blanks and comments make no difference to a parse. Two texts with the same tokens otherwise are read
in step: at places with the same tokens ahead a rule makes the same choices, builds trees that differ
in trivia only, reports the same problems at the same tokens, and leads to such places again. A path
with interpolations is the exception, since it ends at the first blank; so neither text may have
one.
-/

namespace NixScope.Syntax

namespace Tree

mutual

/-- The tree without the blanks and comments in it. -/
def bare : Tree → Tree
  | .leaf t => .leaf t
  | .branch k ts => .branch k (bareAll ts)

def bareAll : List Tree → List Tree
  | [] => []
  | t :: ts => if t.isSolid then bare t :: bareAll ts else bareAll ts

end

theorem bareAll_eq (ts : List Tree) : bareAll ts = (solid ts).map bare := by
  induction ts with
  | nil => rfl
  | cons t ts ih => cases h : t.isSolid <;> simp_all [bareAll, solid]

theorem bareAll_append (ts us : List Tree) : bareAll (ts ++ us) = bareAll ts ++ bareAll us := by
  rw [bareAll_eq, bareAll_eq, bareAll_eq, solid_append, List.map_append]

theorem bareAll_branch (k : Kind) (ts : List Tree) :
    bareAll [.branch k ts] = [.branch k (bareAll ts)] := rfl

end Tree

namespace Token

def targetsFrom : (offset : Nat) → List Token → List Range
  | offset, [] => [⟨offset, offset⟩]
  | offset, t :: ts =>
    if t.isTrivia then targetsFrom (offset + t.width) ts
    else ⟨offset, offset + t.width⟩ :: targetsFrom (offset + t.width) ts

/-- What a problem in a text may point at: each token that is neither blank nor comment, and behind
these the end of the text. -/
def targets (tokens : List Token) : List Range := targetsFrom 0 tokens

end Token

/-- Two problems point at the tokens of the same number in their texts, or both at the ends. -/
def Error.SameTarget (ranges ranges' : List Range) (e e' : Error) : Prop :=
  ∃ i : Nat, ranges[i]? = some e.range ∧ ranges'[i]? = some e'.range

namespace Place

def targets (p : Place) : List Range := Token.targetsFrom p.offset p.rest

theorem head?_targets (p : Place) : p.targets.head? = some p.nextRange := by
  rw [targets, nextRange]
  fun_induction nextRangeIn p.rest p.offset <;> simp_all [Token.targetsFrom]

theorem targets_skipTrivia (p : Place) : p.skipTrivia.targets = p.targets := by
  obtain ⟨rest, offset, errors⟩ := p
  simp only [targets, skipTrivia]
  induction rest generalizing offset with
  | nil => rfl
  | cons t ts ih =>
    cases h : t.isTrivia with
    | false => simp [h, Token.widthOf]
    | true => simp [h, Token.widthOf, Token.targetsFrom, ← ih (offset + t.width), Nat.add_assoc]

theorem targets_report (p : Place) (e : Problem) : (p.report e).targets = p.targets := by
  rw [report]
  split <;> rfl

theorem solid_report (p : Place) (e : Problem) : (p.report e).solid = p.solid := by
  rw [solid, rest_report, solid]

theorem consistent_of_solid {p : Place} (h : p.solid = []) : p.Consistent := by
  intro _
  rw [peek, ahead_eq, h]
  rfl

theorem Consistent.report {p : Place} {e : Problem} (h : p.Consistent)
    (he : e ≠ .nestedTooDeeply) : (p.report e).Consistent := by
  intro hg
  rw [gaveUp_report p e he] at hg
  rw [peek_report, h hg]

end Place

section

variable (ranges ranges' : List Range)

structure Error.Mirrors (e e' : Error) : Prop where
  problem : e.problem = e'.problem
  target : e.SameTarget ranges ranges' e'

namespace Place

/-- Places in two texts that have the same tokens ahead apart from trivia, and the same problems
behind them. No part of a path with interpolations is ahead. -/
structure Mirrors (p p' : Place) : Prop where
  solid : p.solid = p'.solid
  targets : ∃ i, p.targets = ranges.drop i ∧ p'.targets = ranges'.drop i
  errors : List.Forall₂ (Error.Mirrors ranges ranges') p.errors p'.errors
  pathFree : ∀ t ∈ p.solid, t.kind ≠ .pathFragment
  consistent : p.Consistent

end Place

structure Rule.Alike (x x' : List Tree × Place) : Prop where
  trees : Tree.bareAll x.1 = Tree.bareAll x'.1
  places : x.2.Mirrors ranges ranges' x'.2

/-- At places that mirror each other the rule has results that differ in trivia only. -/
def Rule.Steady (r : Rule) : Prop :=
  ∀ p p' : Place, p.Mirrors ranges ranges' p' → Alike ranges ranges' (r p) (r p')

/-- The same for a rule that goes on from trees already built. -/
def Rule.SteadyOn (r : List Tree → Rule) : Prop :=
  ∀ {ts ts' : List Tree} {p p' : Place}, Tree.bareAll ts = Tree.bareAll ts' →
    p.Mirrors ranges ranges' p' → Alike ranges ranges' (r ts p) (r ts' p')

end

variable {ranges ranges' : List Range}

namespace Place.Mirrors

variable {p p' : Place} (h : p.Mirrors ranges ranges' p')

include h

theorem ahead_eq (n : Nat) : p.ahead n = p'.ahead n := by
  rw [Place.ahead_eq, Place.ahead_eq, h.solid]

theorem peek_eq : p.peek = p'.peek := h.ahead_eq 0

theorem gaveUp_eq : p.gaveUp = p'.gaveUp := by
  have he := h.errors
  simp only [gaveUp]
  cases hp : p.errors with
  | nil =>
    rw [hp, List.forall₂_nil_left_iff] at he
    rw [he]
  | cons e es =>
    rw [hp, List.forall₂_cons_left_iff] at he
    obtain ⟨e', es', hee, -, hp'⟩ := he
    simp [hp', hee.problem]

theorem consistent' : p'.Consistent := by
  intro hg
  rw [← h.peek_eq]
  exact h.consistent (h.gaveUp_eq.trans hg)

theorem skipTrivia : p.skipTrivia.Mirrors ranges ranges' p'.skipTrivia where
  solid := by rw [solid_skipTrivia, solid_skipTrivia, h.solid]
  targets := by
    rw [targets_skipTrivia, targets_skipTrivia]
    exact h.targets
  errors := h.errors
  pathFree := by
    rw [solid_skipTrivia]
    exact h.pathFree
  consistent := h.consistent.skipTrivia

theorem errors_report (e : Problem) :
    List.Forall₂ (Error.Mirrors ranges ranges') (p.report e).errors (p'.report e).errors := by
  rw [Place.report, Place.report, ← h.gaveUp_eq]
  split
  · exact h.errors
  · refine .cons ⟨rfl, ?_⟩ h.errors
    obtain ⟨i, hi, hi'⟩ := h.targets
    exact ⟨i, by rw [← List.head?_drop, ← hi, head?_targets],
      by rw [← List.head?_drop, ← hi', head?_targets]⟩

theorem report {e : Problem} (he : e ≠ .nestedTooDeeply) :
    (p.report e).Mirrors ranges ranges' (p'.report e) where
  solid := by rw [solid_report, solid_report, h.solid]
  targets := by
    rw [targets_report, targets_report]
    exact h.targets
  errors := h.errors_report e
  pathFree := by
    rw [solid_report]
    exact h.pathFree
  consistent := h.consistent.report he

end Place.Mirrors

namespace Rule

open Place

theorem bareAll_trivia (p : Place) : Tree.bareAll (trivia p).1 = [] := by
  rw [Tree.bareAll_eq, solid_trivia]
  rfl

theorem token_cons {p : Place} {t : Token} {ts : List Token} (h : p.solid = t :: ts) :
    Tree.bareAll (token p).1 = [.leaf t] ∧ (token p).2.solid = ts ∧
      (token p).2.targets = p.targets.tail ∧ (token p).2.errors = p.errors := by
  have hne : p.skipTrivia.rest ≠ [] := by
    intro hn
    rw [← solid_skipTrivia, solid, hn] at h
    cases h
  obtain ⟨u, us, hr⟩ := List.exists_cons_of_ne_nil hne
  have hs := solid_of_rest_skipTrivia hr
  rw [h, List.cons.injEq] at hs
  obtain ⟨rfl, rfl⟩ := hs
  have ht : t.isTrivia = false := by
    have hm : t ∈ p.solid := by simp [h]
    simpa [solid] using (List.mem_filter.mp hm).2
  have htoken : token p = ((trivia p).1 ++ [.leaf t],
      ⟨us, p.skipTrivia.offset + t.width, p.errors⟩) := by
    simp only [token, seq_cons_apply, seq_nil_apply, trivia_eq, leaf, hr, List.append_nil]
    rfl
  rw [htoken]
  refine ⟨?_, rfl, ?_, rfl⟩
  · rw [Tree.bareAll_append, bareAll_trivia]
    simp [Tree.bareAll, Tree.isSolid, Tree.bare, ht]
  · rw [← targets_skipTrivia p]
    simp [Place.targets, hr, Token.targetsFrom, ht]

theorem token_nil {p : Place} (h : p.solid = []) : token p = ((trivia p).1, p.skipTrivia) := by
  have hr : p.skipTrivia.rest = [] := by
    rw [← peek_eq_none, peek, Place.ahead_eq, h]
    rfl
  simp only [token, seq_cons_apply, seq_nil_apply, trivia_eq, leaf, hr, List.append_nil]

section

variable {r : Rule} {rs : List Rule} {p p' : Place}

theorem steady_trivia : Steady ranges ranges' trivia := by
  intro p p' h
  refine ⟨by rw [bareAll_trivia, bareAll_trivia], ?_⟩
  rw [trivia_eq, trivia_eq]
  exact h.skipTrivia

theorem steady_token : Steady ranges ranges' token := by
  intro p p' h
  cases hs : p.solid with
  | nil =>
    rw [token_nil hs, token_nil (h.solid ▸ hs)]
    exact ⟨by rw [bareAll_trivia, bareAll_trivia], h.skipTrivia⟩
  | cons t ts =>
    obtain ⟨htree, hsolid, htargets, herrors⟩ := token_cons hs
    obtain ⟨htree', hsolid', htargets', herrors'⟩ := token_cons (h.solid ▸ hs)
    refine ⟨htree.trans htree'.symm, ⟨hsolid.trans hsolid'.symm, ?_, ?_, ?_, ?_⟩⟩
    · obtain ⟨i, hi, hi'⟩ := h.targets
      exact ⟨i + 1, by rw [htargets, hi, List.tail_drop], by rw [htargets', hi', List.tail_drop]⟩
    · rw [herrors, herrors']
      exact h.errors
    · rw [hsolid]
      exact fun u hu => h.pathFree u (hs ▸ List.mem_cons_of_mem t hu)
    · exact Rule.consistent reads_token h.consistent

theorem steady_report {e : Problem} (he : e ≠ .nestedTooDeeply) :
    Steady ranges ranges' (report e) :=
  fun _ _ h => ⟨rfl, h.report he⟩

theorem alike_nil (h : p.Mirrors ranges ranges' p') :
    Alike ranges ranges' ([], p) ([], p') := ⟨rfl, h⟩

theorem steady_seq (h : ∀ r ∈ rs, Steady ranges ranges' r) : Steady ranges ranges' (seq rs) := by
  induction rs with
  | nil => exact fun _ _ => alike_nil
  | cons r rs ih =>
    intro p p' hp
    have hr := h r (by simp) p p' hp
    have hs := ih (fun r hm => h r (by simp [hm])) _ _ hr.places
    rw [seq_cons_apply, seq_cons_apply]
    refine ⟨?_, hs.places⟩
    rw [Tree.bareAll_append, Tree.bareAll_append, hr.trees, hs.trees]

theorem steady_node (kind : Kind) (h : Steady ranges ranges' r) :
    Steady ranges ranges' (node kind r) := by
  intro p p' hp
  have hr := h _ _ hp.skipTrivia
  simp only [node, trivia_eq p, trivia_eq p']
  refine ⟨?_, hr.places⟩
  have ht := bareAll_trivia p
  have ht' := bareAll_trivia p'
  rw [trivia_eq] at ht ht'
  rw [Tree.bareAll_append, Tree.bareAll_append, ht, ht', Tree.bareAll_branch, Tree.bareAll_branch,
    hr.trees]

theorem alike_wrap (kind : Kind) {left left' : List Tree}
    (hl : Tree.bareAll left = Tree.bareAll left') (h : Steady ranges ranges' r)
    (hp : p.Mirrors ranges ranges' p') :
    Alike ranges ranges' (wrap kind left r p) (wrap kind left' r p') := by
  have hr := h p p' hp
  refine ⟨?_, hr.places⟩
  simp only [wrap, Tree.bareAll_branch, Tree.bareAll_append, hl, hr.trees]

theorem Alike.andThen {first first' : Rule} {second : List Tree → Rule}
    (h : Alike ranges ranges' (first p) (first' p')) (h' : SteadyOn ranges ranges' second) :
    Alike ranges ranges' (first.andThen second p) (first'.andThen second p') :=
  h' h.trees h.places

theorem steady_onlyIf {condition : Place → Bool}
    (hc : ∀ {p p' : Place}, p.Mirrors ranges ranges' p' → condition p = condition p')
    (h : Steady ranges ranges' r) : Steady ranges ranges' (onlyIf condition r) := by
  intro p p' hp
  rw [onlyIf, onlyIf, ← hc hp]
  split
  · exact h p p' hp
  · exact alike_nil hp

theorem steady_when (kind : Kind) (h : Steady ranges ranges' r) :
    Steady ranges ranges' («when» kind r) :=
  steady_onlyIf (fun hp => by rw [hp.peek_eq]) h

theorem steady_ifPeek {kind : Kind} {problem : Problem} (hn : problem ≠ .nestedTooDeeply)
    (h : Steady ranges ranges' r) :
    Steady ranges ranges' fun p => if p.peek = some kind then r p else report problem p := by
  intro p p' hp
  dsimp only
  rw [← hp.peek_eq]
  split
  · exact h p p' hp
  · exact steady_report hn p p' hp

theorem steady_expect (kind : Kind) : Steady ranges ranges' (expect kind) :=
  steady_ifPeek (by simp) steady_token

/-- The two texts may be of different lengths, but any count of rounds that covers both is as good
as their own. -/
theorem Loop.alike {α : Type} {round : (α → Rule) → α → Rule} {counted : List Token → α → Rule}
    (hl : Loop round counted) (a a' : α) (hp : p.Mirrors ranges ranges' p')
    (h : ∀ clock, Alike ranges ranges' (counted clock a p) (counted clock a' p')) :
    Alike ranges ranges' (counted p.rest a p) (counted p'.rest a' p') := by
  have hc : counted p.rest a p = counted (p.rest ++ p'.rest) a p :=
    hl.counted_eq hp.consistent (Nat.le_refl _) (by simp)
  have hc' : counted p'.rest a' p' = counted (p.rest ++ p'.rest) a' p' :=
    hl.counted_eq hp.consistent' (Nat.le_refl _) (by simp)
  rw [hc, hc']
  exact h _

theorem steady_many {element : Place → Option Rule} (ha : Advances element)
    (he : ∀ {p p' : Place}, p.Mirrors ranges ranges' p' → element p = element p')
    (h : ∀ {p : Place} {r : Rule}, element p = some r → Steady ranges ranges' r) :
    Steady ranges ranges' (many element) := by
  intro p p' hp
  refine (loop_many ha).alike () () hp fun clock => ?_
  induction clock generalizing p p' with
  | nil => exact alike_nil hp
  | cons c clock ih =>
    rw [manyFrom, manyFrom, ← he hp]
    split
    · exact alike_nil hp
    · rename_i r hr
      have hr := h hr p p' hp
      have hs := ih _ _ hr.places
      exact ⟨by rw [Tree.bareAll_append, Tree.bareAll_append, hr.trees, hs.trees], hs.places⟩

/-- All tokens ahead are taken, and trivia only as far as a token follows. -/
theorem remaining_spec (p : Place) :
    Tree.bareAll (remaining p).1 = p.solid.map .leaf ∧ (remaining p).2.solid = [] ∧
      (remaining p).2.targets = p.targets.drop p.solid.length ∧
      (remaining p).2.errors = p.errors := by
  suffices h : ∀ (clock : List Token) (p : Place), p.rest.length ≤ clock.length →
      let last := manyFrom (fun p => p.peek.map fun _ => token) clock p
      Tree.bareAll last.1 = p.solid.map .leaf ∧ last.2.solid = [] ∧
        last.2.targets = p.targets.drop p.solid.length ∧ last.2.errors = p.errors from
    h p.rest p (Nat.le_refl _)
  intro clock
  induction clock with
  | nil =>
    intro p hl
    have hr : p.rest = [] := List.length_eq_zero_iff.mp (Nat.le_zero.mp hl)
    have hs : p.solid = [] := by rw [solid, hr]; rfl
    simp [manyFrom, hs, Tree.bareAll]
  | cons c clock ih =>
    intro p hl
    cases hs : p.solid with
    | nil =>
      have hp : p.peek = none := by rw [peek, Place.ahead_eq, hs]; rfl
      simp [manyFrom, hp, hs, Tree.bareAll]
    | cons t ts =>
      have hp : p.peek = some t.kind := by rw [peek, Place.ahead_eq, hs]; rfl
      have hlt : (token p).2.rest.length < p.rest.length := takesAt_token hp
      obtain ⟨htree, hsolid, htargets, herrors⟩ := token_cons hs
      obtain ⟨ihtree, ihsolid, ihtargets, iherrors⟩ :=
        ih (token p).2 (by rw [List.length_cons] at hl; omega)
      simp only [manyFrom, hp, Option.map_some]
      refine ⟨?_, ihsolid, ?_, iherrors.trans herrors⟩
      · rw [Tree.bareAll_append, htree, ihtree, hsolid]
        rfl
      · rw [ihtargets, htargets, hsolid, List.length_cons, List.drop_tail]

/-- The rest of both texts goes under one node, whatever was reported in front of it. -/
theorem alike_remaining (hs : p.solid = p'.solid)
    (ht : ∃ i, p.targets = ranges.drop i ∧ p'.targets = ranges'.drop i)
    (he : List.Forall₂ (Error.Mirrors ranges ranges') p.errors p'.errors) :
    Alike ranges ranges' (remaining p) (remaining p') := by
  obtain ⟨htree, hsolid, htargets, herrors⟩ := remaining_spec p
  obtain ⟨htree', hsolid', htargets', herrors'⟩ := remaining_spec p'
  refine ⟨by rw [htree, htree', hs], ⟨hsolid.trans hsolid'.symm, ?_, ?_, ?_, ?_⟩⟩
  · obtain ⟨i, hi, hi'⟩ := ht
    refine ⟨i + p.solid.length, ?_, ?_⟩
    · rw [htargets, hi, List.drop_drop]
    · rw [htargets', hi', ← hs, List.drop_drop]
  · rwa [herrors, herrors']
  · simp [hsolid]
  · exact consistent_of_solid hsolid

theorem steady_errorRest : Steady ranges ranges' (node .error remaining) := by
  apply steady_node
  exact fun _ _ hp => alike_remaining hp.solid hp.targets hp.errors

theorem steady_recover {problem : Problem} (h : problem ≠ .nestedTooDeeply) :
    Steady ranges ranges' (recover problem) := by
  have hn : Steady ranges ranges' (onlyIf (fun p => p.peek.any (!·.closes)) (node .error token)) :=
    steady_onlyIf (fun hp => by rw [hp.peek_eq]) (steady_node .error steady_token)
  exact steady_seq (by simp [steady_report h, hn])

/-- Between the report and the end of the text nothing is consistent, so the two steps go
together. -/
theorem steady_giveUp : Steady ranges ranges' giveUp := by
  intro p p' hp
  cases hg : p.gaveUp with
  | true =>
    simp only [giveUp, hg, ← hp.gaveUp_eq, if_true]
    exact alike_nil hp
  | false =>
    rw [giveUp_eq hg, giveUp_eq (hp.gaveUp_eq ▸ hg)]
    have hr : Alike ranges ranges' (remaining (p.report .nestedTooDeeply).skipTrivia)
        (remaining (p'.report .nestedTooDeeply).skipTrivia) := by
      apply alike_remaining
      · rw [solid_skipTrivia, solid_skipTrivia, solid_report, solid_report, hp.solid]
      · rw [targets_skipTrivia, targets_skipTrivia, targets_report, targets_report]
        exact hp.targets
      · exact hp.errors_report _
    refine ⟨?_, ?_⟩
    · rw [Tree.bareAll_eq, Tree.bareAll_eq, solid_node, solid_node]
      simp only [List.map_cons, Tree.bare, hr.trees, List.map_nil]
    · simpa only [node, trivia_eq] using hr.places

end

end Rule

namespace Grammar

open Rule Place

section

variable {inner : Phrase → Rule} (h : ∀ phrase, (inner phrase).Reads)
  (hs : ∀ phrase, Steady ranges ranges' (inner phrase))

include hs in
theorem steady_hole (kind : Kind) : Steady ranges ranges' (hole inner kind) :=
  steady_node kind (steady_seq (by simp [steady_token, hs, steady_expect]))

include h hs

theorem steady_string (opening : Kind) : Steady ranges ranges' (string inner opening) := by
  have hparts : Steady ranges ranges' (many (stringPart inner)) := by
    refine steady_many (advances_stringPart h) (fun hp => by simp only [stringPart, hp.peek_eq]) ?_
    intro p r hr
    simp only [stringPart] at hr
    split at hr <;> cases hr
    · exact steady_token
    · exact steady_hole hs _
  have hclose : Steady ranges ranges'
      fun p => if p.peek = some opening then token p else report .unterminatedString p :=
    steady_ifPeek (by simp) steady_token
  exact steady_node _ (steady_seq (by simp [steady_token, hparts, hclose]))

theorem steady_attr : Steady ranges ranges' (attr inner) := by
  apply steady_node
  intro p p' hp
  dsimp only
  rw [← hp.peek_eq]
  split
  · exact steady_token p p' hp
  · exact steady_token p p' hp
  · exact steady_string h hs .quote p p' hp
  · exact steady_hole hs .dynamic p p' hp
  · exact steady_report (by simp) p p' hp

omit h hs in
theorem dotAttrAhead_mirrors {p p' : Place} (hp : p.Mirrors ranges ranges' p') :
    dotAttrAhead p = dotAttrAhead p' := by
  rw [dotAttrAhead, dotAttrAhead, hp.peek_eq, hp.ahead_eq]

theorem steady_attrPath : Steady ranges ranges' (attrPath inner) := by
  have hattr := steady_attr h hs
  have hmany : Steady ranges ranges'
      (many fun p => if dotAttrAhead p then some (seq [token, attr inner]) else none) := by
    refine steady_many (advances_dotAttr h) (fun hp => by rw [dotAttrAhead_mirrors hp]) ?_
    intro p r hr
    obtain ⟨-, hr⟩ := Option.ite_none_right_eq_some.mp hr
    cases hr
    exact steady_seq (by simp [steady_token, hattr])
  exact steady_node _ (steady_seq (by simp [hattr, hmany]))

theorem steady_inherit : Steady ranges ranges' (inherit inner) := by
  have hnames : Steady ranges ranges' (many (inheritedName inner)) := by
    refine steady_many (advances_inheritedName h)
      (fun hp => by rw [inheritedName, inheritedName, hp.peek_eq]) ?_
    intro p r hr
    obtain ⟨-, hr⟩ := Option.ite_none_right_eq_some.mp hr
    cases hr
    exact steady_node _ (steady_attr h hs)
  have hfrom : Steady ranges ranges'
      («when» .leftParen (node .inheritFrom (seq [token, inner .expr, expect .rightParen]))) :=
    steady_when _ (steady_node _ (steady_seq (by simp [steady_token, hs, steady_expect])))
  exact steady_node _ (steady_seq (by simp [steady_token, hnames, hfrom, steady_expect]))

theorem steady_bindings (terminator : Kind) :
    Steady ranges ranges' (many (binding inner terminator)) := by
  refine steady_many (advances_binding h terminator)
    (fun hp => by rw [binding, binding, hp.peek_eq]) ?_
  intro p r hr
  obtain ⟨k, -, hr⟩ := Option.bind_eq_some_iff.mp hr
  split at hr
  · cases hr
  split at hr
  · cases hr
    exact steady_inherit h hs
  split at hr
  · cases hr
    exact steady_node _ (steady_seq (by simp [steady_attrPath h hs, hs, steady_expect]))
  split at hr
  · cases hr
  · cases hr
    exact steady_seq (by simp [steady_report, steady_node, steady_token])

theorem steady_attrSet : Steady ranges ranges' (attrSet inner) :=
  steady_node _ (steady_seq (by
    simp [steady_when, steady_token, steady_expect, steady_bindings h hs]))

theorem steadyOn_selectTail {fallback : Rule} (hf : Steady ranges ranges' fallback) :
    SteadyOn ranges ranges' (selectTail inner fallback) := by
  intro base base' p p' hb hp
  rw [selectTail, selectTail, ← hp.peek_eq, ← dotAttrAhead_mirrors hp]
  split
  · exact ⟨hb, hp⟩
  split
  · refine alike_wrap .select hb (steady_seq ?_) hp
    simp [steady_token, steady_attrPath h hs, steady_when, steady_seq, hf]
  · have hr : Steady ranges ranges' (seq [report .noAttrAfterDot, node .error token]) :=
      steady_seq (by simp [steady_report, steady_node, steady_token])
    have hx := hr p p' hp
    rw [seq_cons_apply, seq_cons_apply (fun p => (base', p))]
    exact ⟨by rw [Tree.bareAll_append, Tree.bareAll_append, hb, hx.trees], hx.places⟩

theorem steady_select : Steady ranges ranges' (select inner) := by
  intro p p' hp
  refine (loop_select h).alike () () hp fun clock => ?_
  have hc : Steady ranges ranges' (selectFrom inner clock) := by
    induction clock with
    | nil => exact steady_seq (by simp [steady_trivia, hs])
    | cons c clock ih =>
      have ht : Steady ranges ranges'
          ((inner .atom).andThen (selectTail inner (selectFrom inner clock))) :=
        fun p p' hp => (hs .atom p p' hp).andThen (steadyOn_selectTail h hs ih)
      exact steady_seq (by simp [steady_trivia, ht])
  exact hc p p' hp

variable (hstarts : ∀ phrase, Starts (inner phrase))

include hstarts in
theorem steadyOn_arguments : SteadyOn ranges ranges' (arguments inner) := by
  intro function function' p p' hf hp
  refine (loop_arguments h hstarts).alike function function' hp fun clock => ?_
  induction clock generalizing function function' p p' with
  | nil => exact ⟨hf, hp⟩
  | cons c clock ih =>
    rw [applyFrom, applyFrom, ← hp.peek_eq]
    split
    · have hw := alike_wrap .apply hf (steady_select h hs) hp
      exact hw.andThen fun ht hq => ih ht hq
    · exact ⟨hf, hp⟩

include hstarts in
theorem steady_application : Steady ranges ranges' (application inner) := by
  have ha : Steady ranges ranges'
      ((select inner).andThen fun function p => applyFrom inner p.rest function p) :=
    fun p p' hp => (steady_select h hs p p' hp).andThen (steadyOn_arguments h hs hstarts)
  exact steady_seq (by simp [steady_trivia, ha])

include hstarts in
theorem steady_list : Steady ranges ranges' (list inner) := by
  have hm : Steady ranges ranges' (many (listElement inner)) := by
    refine steady_many (advances_listElement h hstarts)
      (fun hp => by rw [listElement, listElement, hp.peek_eq]) ?_
    intro p r hr
    obtain ⟨k, -, hr⟩ := Option.bind_eq_some_iff.mp hr
    split at hr
    · cases hr
      exact steady_select h hs
    split at hr
    · cases hr
    · cases hr
      exact steady_recover (by simp)
  exact steady_node _ (steady_seq (by simp [steady_token, hm, steady_expect]))

include hstarts in
theorem steady_leftmost : Steady ranges ranges' (leftmost inner) := by
  intro p p' hp
  rw [leftmost, leftmost, ← hp.peek_eq]
  split
  · exact steady_node _ (steady_seq (by simp [steady_token, hs])) p p' hp
  · exact steady_application h hs hstarts p p' hp

include hstarts in
theorem steadyOn_operators (power : Nat) :
    SteadyOn ranges ranges' (operators inner power) := by
  intro left left' p p' hl hp
  refine (loop_operators h).alike (power, left) (power, left') hp fun clock => ?_
  dsimp only
  induction clock generalizing power left left' p p' with
  | nil => exact ⟨hl, hp⟩
  | cons c clock ih =>
    rw [operatorsFrom, operatorsFrom, ← hp.peek_eq]
    have hnext : ∀ power, SteadyOn ranges ranges' (operatorsFrom inner clock power) :=
      fun power => fun ht hq => ih power ht hq
    split
    · split
      · exact ⟨hl, hp⟩
      · have hd : Steady ranges ranges' (seq [token, attrPath inner]) :=
          steady_seq (by simp [steady_token, steady_attrPath h hs])
        exact (alike_wrap .hasAttr hl hd hp).andThen (hnext power)
    · split
      · exact ⟨hl, hp⟩
      · rename_i leftPower rightPower _
        split
        · exact ⟨hl, hp⟩
        · have hr : Steady ranges ranges'
              ((leftmost inner).andThen (operatorsFrom inner clock rightPower)) :=
            fun p p' hp => (steady_leftmost h hs hstarts p p' hp).andThen (hnext rightPower)
          have hd : Steady ranges ranges' (seq [token, trivia,
              (leftmost inner).andThen (operatorsFrom inner clock rightPower)]) :=
            steady_seq (by simp [steady_token, steady_trivia, hr])
          exact (alike_wrap .binaryOp hl hd hp).andThen (hnext power)

include hstarts in
theorem steady_operand (power : Nat) : Steady ranges ranges' (operand inner power) := by
  have ho : Steady ranges ranges'
      ((leftmost inner).andThen fun left p => operatorsFrom inner p.rest power left p) :=
    fun p p' hp => (steady_leftmost h hs hstarts p p' hp).andThen
      (steadyOn_operators h hs hstarts power)
  exact steady_seq (by simp [steady_trivia, ho])

omit h hs in
theorem steady_paramName : Steady ranges ranges' paramName := steady_node _ steady_token

omit h in
theorem steady_formal (kind : Kind) : Steady ranges ranges' (formal inner kind) := by
  rw [formal.eq_def]
  split
  · exact steady_token
  · have hd : Steady ranges ranges' («when» .question (seq [token, inner .expr])) :=
      steady_when _ (steady_seq (by simp [steady_token, hs]))
    exact steady_node _ (steady_seq (by simp [steady_paramName, hd]))
  · exact steady_recover (by simp)

theorem steady_formals : Steady ranges ranges' (formals inner) := by
  intro p p' hp
  refine (loop_formals h).alike () () hp fun clock => ?_
  have hc : Steady ranges ranges' (formalsFrom inner clock) := by
    induction clock with
    | nil => exact fun _ _ => alike_nil
    | cons c clock ih =>
      intro p p' hp
      simp only [formalsFrom, ← hp.peek_eq]
      split
      · exact alike_nil hp
      · exact alike_nil hp
      · have hcomma : Steady ranges ranges' («when» .comma (seq [token, formalsFrom inner clock])) :=
          steady_when _ (steady_seq (by simp [steady_token, ih]))
        exact steady_seq (by simp [steady_formal hs, hcomma]) p p' hp
  exact hc p p' hp

theorem steady_pattern : Steady ranges ranges' (pattern inner) := by
  have hbefore : Steady ranges ranges'
      («when» .ident (node .patternBind (seq [paramName, expect .atSign]))) :=
    steady_when _ (steady_node _ (steady_seq (by simp [steady_paramName, steady_expect])))
  have hname : Steady ranges ranges'
      fun p => if p.peek = some .ident then paramName p else report .noBindName p :=
    steady_ifPeek (by simp) steady_paramName
  have hafter : Steady ranges ranges' («when» .atSign patternName) :=
    steady_when _ (steady_node _ (steady_seq (by simp [steady_token, hname])))
  exact steady_node _ (steady_seq (by
    simp [hbefore, steady_expect, steady_formals h hs, hafter]))

omit h hs in
theorem patternAhead_mirrors {p p' : Place} (hp : p.Mirrors ranges ranges' p') :
    patternAhead p = patternAhead p' := by
  simp only [patternAhead, hp.ahead_eq]

include hstarts in
theorem steady_expr : Steady ranges ranges' (expr inner) := by
  have hpattern : Steady ranges ranges' (patternLambda inner) :=
    steady_node _ (steady_seq (by simp [steady_pattern h hs, steady_expect, hs]))
  have hname : Steady ranges ranges' (nameLambda inner) :=
    steady_node _ (steady_seq (by simp [steady_paramName, steady_token, hs]))
  have hstatement : ∀ kind, Steady ranges ranges' (statement inner kind) := fun kind =>
    steady_node _ (steady_seq (by simp [steady_token, steady_expect, hs]))
  have hop := steady_operand h hs hstarts 0
  intro p p' hp
  rw [expr, expr, ← hp.peek_eq, ← hp.ahead_eq, ← patternAhead_mirrors hp]
  split
  · exact steady_node _ (steady_seq (by
      simp [steady_token, steady_bindings h hs, steady_expect, hs])) p p' hp
  · exact hstatement .withIn p p' hp
  · exact hstatement .assert p p' hp
  · exact steady_node _ (steady_seq (by simp [steady_token, steady_expect, hs])) p p' hp
  · split
    · exact hname p p' hp
    split
    · exact hpattern p p' hp
    · exact hop p p' hp
  · split
    · exact hpattern p p' hp
    · exact hop p p' hp
  · exact hop p p' hp

include hstarts in
theorem steady_atom : Steady ranges ranges' (atom inner) := by
  intro p p' hp
  have hleaf : ∀ kind, Steady ranges ranges' (node kind token) := fun kind =>
    steady_node _ steady_token
  rw [atom, atom, ← hp.peek_eq]
  split
  iterate 6 · exact hleaf _ p p' hp
  · exact steady_string h hs _ p p' hp
  · exact steady_string h hs _ p p' hp
  · rename_i hk
    obtain ⟨t, ts, hr, ht⟩ := peek_eq_some.mp hk
    exact absurd ht (hp.pathFree t (by simp [solid_of_rest_skipTrivia hr]))
  · exact steady_node _ (steady_seq (by simp [steady_token, hs, steady_expect])) p p' hp
  · exact steady_list h hs hstarts p p' hp
  · exact steady_attrSet h hs p p' hp
  · exact steady_attrSet h hs p p' hp
  iterate 4 · exact hs .expr p p' hp
  · exact steady_recover (by simp) p p' hp

end

theorem steady_nested (levels : Nat) (phrase : Phrase) :
    Steady ranges ranges' (nested levels phrase) := by
  induction levels generalizing phrase with
  | zero => exact steady_giveUp
  | succ levels ih =>
    have h := reads_nested levels
    have hstarts := starts_nested levels
    cases phrase with
    | expr => exact steady_expr h ih hstarts
    | atom => exact steady_atom h ih hstarts
    | operand power => exact steady_operand h ih hstarts power

theorem steady_file : Steady ranges ranges' file := by
  have hahead : ∀ {r : Rule}, Steady ranges ranges' r →
      Steady ranges ranges' (onlyIf (fun p => p.peek.isSome) r) :=
    steady_onlyIf fun hp => by rw [hp.peek_eq]
  have hexpr := hahead (steady_nested maxDepth .expr)
  have hrest := hahead (r := seq [report .trailingInput, node .error remaining])
    (steady_seq (by simp [steady_report, steady_errorRest]))
  exact steady_seq (by simp [hexpr, hrest, steady_trivia])

end Grammar

/-- If two texts have the same tokens apart from blanks and comments, and no part of a path with
interpolations, then their trees are the same apart from blanks and comments, and so are their
problems: these have the same messages, in the same order, and point at the same tokens. -/
theorem parse_of_same_solid (text text' : String)
    (h : (Token.lex text).filter (fun t => !t.isTrivia) =
      (Token.lex text').filter fun t => !t.isTrivia)
    (hp : ∀ t ∈ Token.lex text, t.kind ≠ .pathFragment) :
    (parse text).tree.bare = (parse text').tree.bare ∧
      (parse text).errors.map Error.message = (parse text').errors.map Error.message ∧
      List.Forall₂ (Error.SameTarget (Token.targets (Token.lex text))
        (Token.targets (Token.lex text'))) (parse text).errors (parse text').errors := by
  have hstart : (Place.start (Token.lex text)).Mirrors (Token.targets (Token.lex text))
      (Token.targets (Token.lex text')) (Place.start (Token.lex text')) :=
    { solid := h
      targets := ⟨0, rfl, rfl⟩
      errors := .nil
      pathFree := fun t ht => hp t (List.mem_filter.mp ht).1
      consistent := Place.consistent_start _ }
  obtain ⟨htrees, hplaces⟩ := Grammar.steady_file _ _ hstart
  have herrors := List.rel_reverse hplaces.errors
  have hmessages : List.Forall₂ Eq ((parse text).errors.map Error.message)
      ((parse text').errors.map Error.message) := by
    rw [List.forall₂_map_left_iff, List.forall₂_map_right_iff]
    exact herrors.imp fun _ _ he => congrArg Problem.message he.problem
  rw [List.forall₂_eq_eq_eq] at hmessages
  exact ⟨congrArg (Rose.branch Kind.root) htrees, hmessages, herrors.imp fun _ _ he => he.target⟩

theorem parse_of_same_solid_unclosed :
    Token.lex "[a;" ≠ Token.lex "[ a # first\n ;" ∧ (parse "[a;").errors ≠ [] ∧
      (parse "[a;").tree.bare = (parse "[ a # first\n ;").tree.bare ∧
      (parse "[a;").errors.map Error.message = (parse "[ a # first\n ;").errors.map Error.message ∧
      List.Forall₂ (Error.SameTarget (Token.targets (Token.lex "[a;"))
        (Token.targets (Token.lex "[ a # first\n ;"))) (parse "[a;").errors
        (parse "[ a # first\n ;").errors :=
  ⟨by decide +kernel, by decide +kernel,
    parse_of_same_solid "[a;" "[ a # first\n ;" (by decide +kernel) (by decide +kernel)⟩

end NixScope.Syntax
