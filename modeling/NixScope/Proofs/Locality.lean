import NixScope.Proofs.Lookahead

/-!
The grammar looks ahead, but what it builds without a problem does not depend on what it only looked
at. If a text ends where a rule stops, or further on, the rule builds the same trees there: a token
that was ahead and decided something has been taken, and one that was not taken made no difference.
-/

namespace NixScope.Syntax

namespace Rule

open Place

/-- Where the first rule meets no problem and stops before the tokens `after`, the second builds the
same in the text that ends there. -/
def LocalAt (after : List Token) (r r' : Rule) (p : Place) : Prop :=
  ∀ p', p.Cut after p' → (r p).2.errors = [] → after.length ≤ (r p).2.rest.length →
    (r' p').1 = (r p).1 ∧ (r p).2.Cut after (r' p').2

/-- The rule reads, and is local wherever it is run. -/
structure Local (after : List Token) (r r' : Rule) : Prop where
  reads : r.Reads
  localAt : ∀ p, LocalAt after r r' p

section

variable {after : List Token} {r r' : Rule} {rs rs' : List Rule} {p p' : Place}

theorem LocalAt.congr {s s' : Rule} (h : LocalAt after r r' p) (he : s p = r p)
    (he' : ∀ p', p.Cut after p' → (r p).2.errors = [] → after.length ≤ (r p).2.rest.length →
      s' p' = r' p') : LocalAt after s s' p := by
  intro p' hc hq hl
  rw [he] at hq hl ⊢
  rw [he' p' hc hq hl]
  exact h p' hc hq hl

theorem localAt_of_consistent (hm : r.Moves) (h : p.Consistent → LocalAt after r r' p) :
    LocalAt after r r' p :=
  fun p' hc hq => h (consistent_of_clean (Leads.clean (hm p) hq)) p' hc hq

theorem localAt_stop (ts : List Tree) :
    LocalAt after (fun p => (ts, p)) (fun p => (ts, p)) p :=
  fun _ hc _ _ => ⟨rfl, hc⟩

theorem Local.nil : Local after (seq []) (seq []) := ⟨reads_skip, fun _ => localAt_stop []⟩

theorem LocalAt.cons (h : LocalAt after r r' p) (hr : (seq rs).Reads)
    (hs : LocalAt after (seq rs) (seq rs') (r p).2) :
    LocalAt after (seq (r :: rs)) (seq (r' :: rs')) p := by
  intro p' hc hq hl
  have hm := hr.moves
  rw [seq_cons_apply] at hq hl
  obtain ⟨ht, hc'⟩ := h p' hc (Leads.clean (hm _) hq) (Nat.le_trans hl (hm.rest_length_le _))
  obtain ⟨ht', hc''⟩ := hs _ hc' hq hl
  rw [seq_cons_apply, seq_cons_apply, ht, ht']
  exact ⟨rfl, hc''⟩

theorem Local.cons (h : Local after r r') (hs : Local after (seq rs) (seq rs')) :
    Local after (seq (r :: rs)) (seq (r' :: rs')) where
  reads p := (h.reads p).append (hs.reads _)
  localAt p := (h.localAt p).cons hs.reads (hs.localAt _)

theorem local_leaf : Local after leaf leaf := by
  refine ⟨reads_leaf, fun p p' hc hq hl => ?_⟩
  have hr := hc.rest
  simp only [leaf] at hq hl ⊢
  cases hp' : p'.rest with
  | nil =>
    rw [hp', List.nil_append] at hr
    cases ha : after with
    | nil =>
      rw [ha] at hr
      simp only [hr]
      exact ⟨trivial, by rw [hr, hp']; rfl, hc.clean⟩
    | cons t ts =>
      rw [ha] at hr
      simp only [hr, ha, List.length_cons] at hl
      omega
  | cons t ts =>
    rw [hp', List.cons_append] at hr
    simp only [hr]
    exact ⟨trivial, rfl, hc.clean⟩

theorem dropWhile_append_of_le {α : Type} {f : α → Bool} {xs ys : List α}
    (h : ys.length ≤ ((xs ++ ys).dropWhile f).length) :
    (xs ++ ys).takeWhile f = xs.takeWhile f ∧ (xs ++ ys).dropWhile f = xs.dropWhile f ++ ys := by
  induction xs with
  | nil =>
    have he : ys.dropWhile f = ys := (List.dropWhile_suffix f).eq_of_length_le h
    have ht := List.takeWhile_append_dropWhile (p := f) (l := ys)
    rw [he, List.append_left_eq_self] at ht
    exact ⟨by simpa using ht, by simpa using he⟩
  | cons x xs ih =>
    cases hx : f x with
    | false => simp [hx]
    | true =>
      simp only [List.cons_append, hx, List.dropWhile_cons_of_pos, List.takeWhile_cons_of_pos] at h ⊢
      obtain ⟨ht, hd⟩ := ih h
      exact ⟨by rw [ht], hd⟩

theorem local_trivia : Local after trivia trivia := by
  refine ⟨reads_trivia, fun p p' hc hq hl => ?_⟩
  rw [trivia_eq, skipTrivia, hc.rest] at hl
  obtain ⟨ht, hd⟩ := dropWhile_append_of_le hl
  simp only [trivia_eq, hc.rest, ht]
  exact ⟨trivial, by simpa only [skipTrivia, hc.rest] using hd, hc.clean⟩

theorem local_token : Local after token token := local_trivia.cons (local_leaf.cons .nil)

theorem localAt_node {kind : Kind} (hm : r.Moves) (h : LocalAt after r r' p.skipTrivia) :
    LocalAt after (node kind r) (node kind r') p := by
  intro p' hc hq hl
  simp only [node, trivia_eq p] at hq hl
  have hle := hm.rest_length_le p.skipTrivia
  obtain ⟨ht, hc'⟩ := local_trivia.localAt p p' hc (by rw [trivia_eq]; exact Leads.clean (hm _) hq)
    (by rw [trivia_eq]; exact Nat.le_trans hl hle)
  rw [trivia_eq p] at ht hc'
  obtain ⟨hu, hc''⟩ := h _ hc' hq hl
  simp only [node, trivia_eq p, ht, hu]
  exact ⟨trivial, hc''⟩

theorem Local.node (h : Local after r r') (kind : Kind) (hk : kind ≠ .root) :
    Local after (node kind r) (node kind r') :=
  ⟨reads_node hk h.reads, fun p => localAt_node h.reads.moves (h.localAt p.skipTrivia)⟩

theorem LocalAt.wrap (h : LocalAt after r r' p) (kind : Kind) (left : List Tree) :
    LocalAt after (wrap kind left r) (wrap kind left r') p := by
  intro p' hc hq hl
  obtain ⟨ht, hc'⟩ := h p' hc hq hl
  simp only [Rule.wrap, ht]
  exact ⟨trivial, hc'⟩

theorem LocalAt.andThen {second second' : List Tree → Rule} (h : LocalAt after r r' p)
    (hm : (second (r p).1).Moves)
    (h' : LocalAt after (second (r p).1) (second' (r p).1) (r p).2) :
    LocalAt after (r.andThen second) (r'.andThen second') p := by
  intro p' hc hq hl
  simp only [Rule.andThen] at hq hl ⊢
  obtain ⟨ht, hc'⟩ := h p' hc (Leads.clean (hm _) hq) (Nat.le_trans hl (hm.rest_length_le _))
  rw [ht]
  exact h' _ hc' hq hl

theorem peek_eq_of_eatsAt (hr : r.Reads) (hc : p.Cut after p')
    (hl : after.length ≤ (r p).2.rest.length) (he : r.EatsAt 1 p) : p'.peek = p.peek :=
  hc.ahead_eq (hr.moves p) hl (by rw [EatsAt] at he; omega)

theorem LocalAt.of_peek {s s' : Rule} {k : Kind} (h : LocalAt after r r' p) (hs : s.Reads)
    (heat : (s p).2.errors = [] → s.EatsAt 1 p) (hp : p.peek = some k) (he : s p = r p)
    (he' : ∀ p', p'.peek = some k → s' p' = r' p') : LocalAt after s s' p := by
  refine h.congr he fun p' hc hq hl => he' p' ?_
  rw [← he] at hq hl
  rw [peek_eq_of_eatsAt hs hc hl (heat hq), hp]

theorem localAt_when {kind : Kind} (hr : r.Reads)
    (h : p.peek = some kind → LocalAt after r r' p)
    (heat : p.peek = some kind → (r p).2.errors = [] → r.EatsAt 1 p) :
    LocalAt after («when» kind r) («when» kind r') p := by
  by_cases hp : p.peek = some kind
  · refine (h hp).of_peek (reads_when _ hr) ?_ hp (when_pos hp) fun p' => when_pos
    simpa only [EatsAt, when_pos hp] using heat hp
  · refine (localAt_stop []).congr (when_neg hp) fun p' hc _ _ => when_neg ?_
    obtain hn | hn := hc.peek_eq_none_or
    · simp [hn]
    · rwa [hn]

theorem Local.when (h : Local after r r') (kind : Kind)
    (heat : ∀ p, p.peek = some kind → (r p).2.errors = [] → r.EatsAt 1 p) :
    Local after («when» kind r) («when» kind r') :=
  ⟨reads_when _ h.reads, fun p => localAt_when h.reads (fun _ => h.localAt p) (heat p)⟩

theorem Local.ifPeek {kind : Kind} {problem : Problem} (h : Local after r r')
    (hp : problem ≠ .nestedTooDeeply) (heat : ∀ p, p.peek = some kind → r.EatsAt 1 p) :
    Local after (fun p => if p.peek = some kind then r p else report problem p)
      (fun p => if p.peek = some kind then r' p else report problem p) := by
  refine ⟨reads_ifPeek h.reads hp, fun p => ?_⟩
  by_cases hk : p.peek = some kind
  · refine (h.localAt p).of_peek (reads_ifPeek h.reads hp) (fun _ => ?_) hk (if_pos hk)
      fun p' hk' => if_pos hk'
    simpa only [EatsAt, if_pos hk] using heat p hk
  · intro p' hc hq
    dsimp only at hq
    rw [if_neg hk] at hq
    exact absurd hq (p.report_not_clean problem)

theorem local_expect (kind : Kind) : Local after (expect kind) (expect kind) :=
  local_token.ifPeek (by simp) fun _ hp => eatsAt_token hp

/-- A loop goes on in the shorter text exactly as long as its elements stop before the cut. -/
structure LocalElement (after : List Token) (element element' : Place → Option Rule) : Prop where
  advances : Advances element
  advances' : Advances element'
  none : ∀ {p p'}, p.Cut after p' → element p = none → element' p' = none
  some : ∀ {p p' r}, p.Cut after p' → element p = some r → (r p).2.errors = [] →
    after.length ≤ (r p).2.rest.length → ∃ r', element' p' = some r' ∧ LocalAt after r r' p

theorem LocalElement.many {element element' : Place → Option Rule}
    (h : LocalElement after element element') : Local after (many element) (many element') := by
  have hm : (Rule.many element).Reads := reads_many fun _ _ => h.advances.reads
  refine ⟨hm, fun p => ?_⟩
  induction p using Place.induct_rest with
  | step p ih =>
    intro p' hc hq hl
    have hp := consistent_of_clean (Leads.clean (hm.moves p) hq)
    rw [many_eq h.advances hp, elementThen] at hq hl ⊢
    rw [many_eq h.advances' hc.consistent, elementThen]
    cases he : element p with
    | none =>
      rw [h.none hc he]
      exact ⟨rfl, hc⟩
    | some r =>
      simp only [he, seq_cons_apply, seq_nil_apply, List.append_nil] at hq hl ⊢
      obtain ⟨r', he', hr⟩ := h.some hc he (Leads.clean (hm.moves _) hq)
        (Nat.le_trans hl (hm.moves.rest_length_le _))
      obtain ⟨ht, hc'⟩ := hr p' hc (Leads.clean (hm.moves _) hq)
        (Nat.le_trans hl (hm.moves.rest_length_le _))
      obtain ⟨ht', hc''⟩ := ih _ (h.advances.takes hp he) _ hc' hq hl
      simp only [he', ht, ht']
      exact ⟨trivial, hc''⟩

theorem localElement_of_peek {element element' : Place → Option Rule} (ha : Advances element)
    (ha' : Advances element')
    (hn : ∀ {p p'}, p'.peek = none ∨ p'.peek = p.peek → element p = none → element' p' = none)
    (hs : ∀ {p r}, element p = some r → (r p).2.errors = [] → r.EatsAt 1 p ∧
      ∃ r', LocalAt after r r' p ∧ ∀ p', p'.peek = p.peek → element' p' = some r') :
    LocalElement after element element' where
  advances := ha
  advances' := ha'
  none hc he := hn hc.peek_eq_none_or he
  some hc he hq hl := by
    obtain ⟨heat, r', hr, he'⟩ := hs he hq
    exact ⟨r', he' _ (peek_eq_of_eatsAt (ha.reads he) hc hl heat), hr⟩

end

end Rule

namespace Grammar

open Rule Place

section

variable {after : List Token} {l l' : Nat}
  (hl : ∀ phrase, Local after (nested l phrase) (nested l' phrase))

include hl

theorem local_hole (kind : Kind) (hk : kind ≠ .root) :
    Local after (hole (nested l) kind) (hole (nested l') kind) :=
  (local_token.cons ((hl .expr).cons ((local_expect _).cons .nil))).node kind hk

theorem local_stringParts :
    Local after (many (stringPart (nested l))) (many (stringPart (nested l'))) := by
  refine (localElement_of_peek (advances_stringPart (reads_nested l))
    (advances_stringPart (reads_nested l')) ?_ ?_).many
  · intro p p' hp he
    simp only [stringPart] at he ⊢
    obtain hp | hp := hp <;> rw [hp]
    split at he <;> simp_all
  · intro p r he _
    simp only [stringPart] at he ⊢
    split at he <;> rename_i hp <;> cases he
    · exact ⟨eatsAt_token hp, _, local_token.localAt p, fun p' hp' => by rw [hp', hp]⟩
    · exact ⟨eatsAt_node_token hp (by simp [reads_nested]), _, (local_hole hl .interpolation (by simp)).localAt p,
        fun p' hp' => by rw [hp', hp]⟩

theorem local_string (opening : Kind) :
    Local after (string (nested l) opening) (string (nested l') opening) := by
  have hq : Local after
      (fun p => if p.peek = some opening then token p else report .unterminatedString p)
      (fun p => if p.peek = some opening then token p else report .unterminatedString p) :=
    local_token.ifPeek (by simp) fun _ hp => eatsAt_token hp
  exact (local_token.cons ((local_stringParts hl).cons (hq.cons .nil))).node .string (by simp)

theorem local_pathParts :
    Local after (many (pathPart (nested l))) (many (pathPart (nested l'))) := by
  refine LocalElement.many ⟨advances_pathPart (reads_nested l),
    advances_pathPart (reads_nested l'), ?_, ?_⟩
  · intro p p' hc he
    simp only [pathPart, hc.rest] at he ⊢
    cases hp : p'.rest with
    | nil => rfl
    | cons t ts =>
      rw [hp, List.cons_append, List.head?_cons] at he
      split at he <;> simp_all
  · intro p p' r hc he hq hle
    have hhead : p'.rest.head? = p.rest.head? := by
      have ht := (advances_pathPart (reads_nested l)).takes (consistent_of_clean (Leads.clean
        (((advances_pathPart (reads_nested l)).reads he).moves p) hq)) he
      rw [TakesAt, hc.rest, List.length_append] at ht
      rw [hc.rest]
      cases hp : p'.rest with
      | nil =>
        rw [hp, List.length_nil] at ht
        omega
      | cons t ts => rfl
    simp only [pathPart] at he ⊢
    rw [hhead]
    split at he <;> cases he
    · exact ⟨_, rfl, local_token.localAt p⟩
    · exact ⟨_, rfl, (local_hole hl .interpolation (by simp)).localAt p⟩

theorem local_interpolatedPath :
    Local after (interpolatedPath (nested l)) (interpolatedPath (nested l')) :=
  (local_token.cons ((local_pathParts hl).cons .nil)).node _ (by simp)

theorem local_attr : Local after (attr (nested l)) (attr (nested l')) := by
  have h := reads_nested l
  refine ⟨reads_attr h, fun p => ?_⟩
  obtain ⟨r, hb, he⟩ := attr_eq (nested l) p
  cases hb with
  | hole hk hp => simp at hk
  | attrName hp =>
    have hloc : Local after (node .attr token) (node .attr token) := local_token.node _ (by simp)
    rw [peek_skipTrivia] at hp
    obtain hp | hp := hp
    · exact (hloc.localAt p).of_peek (reads_attr h) (fun _ => eatsAt_attr hp rfl) hp he
        fun p' hp' => by simp [attr, node, trivia_eq, hp']
    · exact (hloc.localAt p).of_peek (reads_attr h) (fun _ => eatsAt_attr hp rfl) hp he
        fun p' hp' => by simp [attr, node, trivia_eq, hp']
  | attrString hp =>
    rw [peek_skipTrivia] at hp
    have hloc := (local_string hl .quote).node .attr (by simp)
    exact (hloc.localAt p).of_peek (reads_attr h) (fun _ => eatsAt_attr hp rfl) hp he
      fun p' hp' => by simp [attr, node, trivia_eq, hp']
  | attrDynamic hp =>
    rw [peek_skipTrivia] at hp
    have hloc := (local_hole hl .dynamic (by simp)).node .attr (by simp)
    exact (hloc.localAt p).of_peek (reads_attr h) (fun _ => eatsAt_attr hp rfl) hp he
      fun p' hp' => by simp [attr, node, trivia_eq, hp']
  | noAttr hp =>
    intro p' hc hq
    rw [he] at hq
    exact absurd hq (Place.report_not_clean _ _)

theorem local_dotAttrs : Local after
    (many fun p => if dotAttrAhead p then some (seq [token, attr (nested l)]) else none)
    (many fun p => if dotAttrAhead p then some (seq [token, attr (nested l')]) else none) := by
  have h := reads_nested l
  refine LocalElement.many ⟨advances_dotAttr h, advances_dotAttr (reads_nested l'), ?_, ?_⟩
  · intro p p' hc he
    have hd : dotAttrAhead p = false := by simpa using he
    simp [dotAttrAhead_eq_false hc hd]
  · intro p p' r hc he hq hle
    obtain ⟨hd, he⟩ := Option.ite_none_right_eq_some.mp he
    cases he
    have heat : (seq [token, attr (nested l)]).EatsAt 2 p := eatsAt_dotAttr hd eatsAt_attr (by simp)
    have hd' := dotAttrAhead_eq hc (reads_seq (by simp [reads_attr h])) hle heat
    exact ⟨_, if_pos (hd'.trans hd), (local_token.cons ((local_attr hl).cons .nil)).localAt p⟩

theorem local_attrPath : Local after (attrPath (nested l)) (attrPath (nested l')) :=
  ((local_attr hl).cons ((local_dotAttrs hl).cons .nil)).node _ (by simp)

theorem local_dotPath :
    Local after (seq [token, attrPath (nested l)]) (seq [token, attrPath (nested l')]) :=
  local_token.cons ((local_attrPath hl).cons .nil)

theorem local_inheritedNames :
    Local after (many (inheritedName (nested l))) (many (inheritedName (nested l'))) := by
  have h := reads_nested l
  refine (localElement_of_peek (advances_inheritedName h)
    (advances_inheritedName (reads_nested l')) ?_ ?_).many
  · intro p p' hp he
    simp only [inheritedName] at he ⊢
    obtain hp | hp := hp <;> rw [hp]
    · rfl
    · exact if_neg (by simpa using he)
  · intro p r he _
    obtain ⟨hp, he⟩ := Option.ite_none_right_eq_some.mp he
    cases he
    obtain ⟨k, hk, hs⟩ := (Option.any_eq_true _ _).mp hp
    refine ⟨eatsAt_node (eatsAt_attr (by simpa using hk) hs), _,
      ((local_attr hl).node _ (by simp)).localAt p, fun p' hp' => ?_⟩
    exact if_pos (by rwa [hp'])

theorem local_inherit : Local after (inherit (nested l)) (inherit (nested l')) := by
  have h := reads_nested l
  have hf : Local after
      (node .inheritFrom (seq [token, nested l .expr, expect .rightParen]))
      (node .inheritFrom (seq [token, nested l' .expr, expect .rightParen])) :=
    (local_token.cons ((hl .expr).cons ((local_expect _).cons .nil))).node _ (by simp)
  have hw := hf.when .leftParen fun p hp _ => eatsAt_node_token hp (by simp [h])
  exact (local_token.cons (hw.cons ((local_inheritedNames hl).cons
    ((local_expect _).cons .nil)))).node _ (by simp)

theorem local_attrPathValue :
    Local after (attrPathValue (nested l)) (attrPathValue (nested l')) :=
  ((local_attrPath hl).cons ((local_expect _).cons ((hl .expr).cons
    ((local_expect _).cons .nil)))).node _ (by simp)

theorem local_bindings (terminator : Kind) :
    Local after (many (binding (nested l) terminator)) (many (binding (nested l') terminator)) := by
  have h := reads_nested l
  refine (localElement_of_peek (advances_binding h terminator)
    (advances_binding (reads_nested l') terminator) ?_ ?_).many
  · intro p p' hp he
    simp only [binding] at he ⊢
    obtain hp | hp := hp <;> rw [hp]
    · rfl
    · cases hk : p.peek with
      | none => rfl
      | some k =>
        simp only [hk, Option.bind_some] at he ⊢
        grind
  · intro p r he hq
    obtain ⟨k, hp, he⟩ := Option.bind_eq_some_iff.mp he
    split at he
    · cases he
    split at he
    · rename_i ht hk
      cases he
      refine ⟨eatsAt_node_token hp (by simp [reads_inheritFrom h, reads_inheritedNames h]), _,
        (local_inherit hl).localAt p, fun p' hp' => ?_⟩
      rw [hk] at hp ht
      simp [binding, hp', hp, ht]
    split at he
    · rename_i ht hk hs
      cases he
      refine ⟨eatsAt_node (eatsAt_seq_first (eatsAt_attrPath (by simpa using hp) hs)
        (by simp [h])), _, (local_attrPathValue hl).localAt p, fun p' hp' => ?_⟩
      simp [binding, hp', hp, ht, hk, hs]
    split at he
    · cases he
    · cases he
      have hr : (seq [node .error token]).Reads := reads_seq (by simp [reads_node])
      exact absurd (Leads.clean (hr.moves _) hq) (p.report_not_clean _)

theorem local_attrSet : Local after (attrSet (nested l)) (attrSet (nested l')) :=
  ((local_token.when .recKw fun _ hp _ => eatsAt_token hp).cons ((local_expect _).cons
    ((local_bindings hl .rightBrace).cons ((local_expect _).cons .nil)))).node _ (by simp)

theorem localAt_selectTail {fallback fallback' : Rule} {p : Place} (hf : fallback.Reads)
    (h : ∀ q, q.rest.length < p.rest.length → LocalAt after fallback fallback' q)
    (base : List Tree) :
    LocalAt after (selectTail (nested l) fallback base) (selectTail (nested l') fallback' base)
      p := by
  have hr := reads_nested l
  have ho : («when» .orKw (seq [token, fallback])).Reads :=
    reads_when _ (reads_seq (by simp [hf]))
  by_cases hd : p.peek = some .dot
  · by_cases hda : dotAttrAhead p = true
    · have ht : (token p).2.rest.length < p.rest.length := takesAt_token hd
      have hle := (reads_attrPath hr (token p).2).rest_length_le
      have hseq : (seq [attrPath (nested l), «when» .orKw (seq [token, fallback])]).Reads :=
        reads_seq (by simp [ho, reads_attrPath hr])
      have hs : LocalAt after
          (seq [token, attrPath (nested l), «when» .orKw (seq [token, fallback])])
          (seq [token, attrPath (nested l'), «when» .orKw (seq [token, fallback'])]) p := by
        apply (local_token.localAt p).cons hseq
        apply ((local_attrPath hl).localAt _).cons (reads_seq (by simp [ho]))
        refine (localAt_when (reads_seq (by simp [hf])) (fun hp => ?_) fun hp _ => ?_).cons
          reads_skip (Local.nil.localAt _)
        · have hle' := (reads_token (attrPath (nested l) (token p).2).2).rest_length_le
          exact (local_token.localAt _).cons (reads_seq (by simp [hf]))
            ((h _ (by omega)).cons reads_skip (Local.nil.localAt _))
        · exact eatsAt_seq_first (eatsAt_token hp) (by simp [hf])
      have heat : (seq [token, attrPath (nested l), «when» .orKw (seq [token, fallback])]).EatsAt 2
          p := eatsAt_dotAttr hda eatsAt_attrPath (by simp [ho])
      refine (hs.wrap .select base).congr ?_ fun p' hc _ hle => ?_
      · rw [selectTail, if_neg (not_not_intro hd), if_pos hda]
      · have hda' := (dotAttrAhead_eq hc (reads_seq (by simp [ho, reads_attrPath hr])) hle
          heat).trans hda
        rw [selectTail, if_neg (not_not_intro (peek_of_dotAttrAhead hda')), if_pos hda']
    · intro p' hc hq
      rw [selectTail, if_neg (not_not_intro hd), if_neg hda] at hq
      exact absurd hq (brokenDot_not_clean p)
  · refine (localAt_stop base).congr (if_pos hd) fun p' hc _ _ => if_pos ?_
    obtain hn | hn := hc.peek_eq_none_or
    · simp [hn]
    · rwa [hn]

theorem local_select : Local after (select (nested l)) (select (nested l')) := by
  have h := reads_nested l
  refine ⟨reads_select h, fun p => ?_⟩
  induction p using Place.induct_rest with
  | step p ih =>
    apply localAt_of_consistent (reads_select h).moves
    intro hp
    have hle := p.rest_skipTrivia_length_le
    have hle' := (h .atom p.skipTrivia).rest_length_le
    have ht := readsOn_selectTail h (reads_select h)
    have hs : LocalAt after ((nested l .atom).andThen (selectTail (nested l) (select (nested l))))
        ((nested l' .atom).andThen (selectTail (nested l') (select (nested l')))) p.skipTrivia :=
      ((hl .atom).localAt _).andThen (ht.moves _)
        (localAt_selectTail hl (reads_select h) (fun q hq => ih q (by omega)) _)
    have hr : (seq [(nested l .atom).andThen
        (selectTail (nested l) (select (nested l)))]).Reads :=
      reads_seq (by simp [reads_andThen (h .atom) ht])
    refine LocalAt.congr ?_ (select_eq h hp) fun p' hc _ _ =>
      select_eq (reads_nested l') hc.consistent
    apply (local_trivia.localAt p).cons hr
    rw [trivia_eq]
    exact hs.cons reads_skip (Local.nil.localAt _)

theorem localAt_arguments (function : List Tree) (p : Place) :
    LocalAt after (arguments (nested l) function) (arguments (nested l') function) p := by
  have h := reads_nested l
  have hm : ∀ ts, (arguments (nested l) ts).Moves := (readsOn_counted (readsOn_applyFrom h)).moves
  induction p using Place.induct_rest generalizing function with
  | step p ih =>
    apply localAt_of_consistent (hm function)
    intro hp
    have he : arguments (nested l) function p =
        argumentThen (nested l) (arguments (nested l)) function p :=
      arguments_eq h (starts_nested l) hp
    have he' : ∀ {p' : Place}, p.Cut after p' → arguments (nested l') function p' =
        argumentThen (nested l') (arguments (nested l')) function p' :=
      fun hc => arguments_eq (reads_nested l') (starts_nested l') hc.consistent
    by_cases ha : p.peek.any Kind.startsArgument = true
    · obtain ⟨k, hk, hk'⟩ := (Option.any_eq_true _ _).mp ha
      have hstay : k.stays = false := by simp [Kind.stays, hk']
      have ht : (select (nested l) p).2.rest.length < p.rest.length :=
        starts_select h (starts_nested l) hp hk hstay
      have hw : LocalAt after
          ((wrap .apply function (select (nested l))).andThen (arguments (nested l)))
          ((wrap .apply function (select (nested l'))).andThen (arguments (nested l'))) p :=
        (((local_select hl).localAt p).wrap .apply function).andThen (hm _) (ih _ ht _)
      refine hw.congr (by rw [he, argumentThen, if_pos ha]) fun p' hc hq hle => ?_
      have hq' : (select (nested l) p).2.errors = [] := Leads.clean (hm _ _) hq
      have hle' : after.length ≤ (select (nested l) p).2.rest.length :=
        Nat.le_trans hle ((hm _).rest_length_le _)
      have hp' := peek_eq_of_eatsAt (reads_select h) hc hle' (eatsAt_select hk hstay hq')
      rw [he' hc, argumentThen, if_pos (by rwa [hp'])]
    · refine (localAt_stop function).congr (by rw [he, argumentThen, if_neg ha]) fun p' hc _ _ => ?_
      rw [he' hc, argumentThen, if_neg (not_startsArgument_of_cut hc ha)]

theorem local_application : Local after (application (nested l)) (application (nested l')) := by
  have h := reads_nested l
  have ha := readsOn_counted (readsOn_applyFrom h)
  have hs : Local after ((select (nested l)).andThen (arguments (nested l)))
      ((select (nested l')).andThen (arguments (nested l'))) :=
    ⟨reads_andThen (reads_select h) ha, fun p =>
      ((local_select hl).localAt p).andThen (ha.moves _) (localAt_arguments hl _ _)⟩
  exact local_trivia.cons (hs.cons .nil)

theorem local_listElements :
    Local after (many (listElement (nested l))) (many (listElement (nested l'))) := by
  have h := reads_nested l
  refine (localElement_of_peek (advances_listElement h (starts_nested l))
    (advances_listElement (reads_nested l') (starts_nested l')) ?_ ?_).many
  · intro p p' hp he
    simp only [listElement] at he ⊢
    obtain hp | hp := hp <;> rw [hp]
    · rfl
    · cases hk : p.peek with
      | none => rfl
      | some k =>
        simp only [hk, Option.bind_some] at he ⊢
        grind
  · intro p r he hq
    obtain ⟨k, hp, he⟩ := Option.bind_eq_some_iff.mp he
    split at he
    · rename_i hk
      cases he
      have hstay : k.stays = false := by simp [Kind.stays, hk]
      refine ⟨eatsAt_select hp hstay hq, _, (local_select hl).localAt p, fun p' hp' => ?_⟩
      simp [listElement, hp', hp, hk]
    split at he
    · cases he
    · cases he
      exact absurd hq (recover_not_clean _ p)

theorem local_list : Local after (list (nested l)) (list (nested l')) :=
  (local_token.cons ((local_listElements hl).cons ((local_expect _).cons .nil))).node _ (by simp)

theorem local_leftmost : Local after (leftmost (nested l)) (leftmost (nested l')) := by
  have h := reads_nested l
  refine ⟨reads_leftmost h, fun p => ?_⟩
  cases hu : p.peek.bind Kind.unaryPower with
  | none =>
    refine ((local_application hl).localAt p).congr (by simp only [leftmost, hu])
      fun p' hc _ _ => ?_
    have hu' : p'.peek.bind Kind.unaryPower = none := by
      obtain hn | hn := hc.peek_eq_none_or <;> rw [hn]
      · rfl
      · exact hu
    simp only [leftmost, hu']
  | some power =>
    obtain ⟨k, hk, -⟩ := Option.bind_eq_some_iff.mp hu
    have hloc := (local_token.cons ((hl (.operand power)).cons .nil)).node .unaryOp (by simp)
    have he : leftmost (nested l) p = node .unaryOp (seq [token, nested l (.operand power)]) p := by
      simp only [leftmost, hu]
    refine (hloc.localAt p).of_peek (reads_leftmost h) (fun _ => ?_) hk he fun p' hk' => ?_
    · rw [EatsAt, he]
      exact eatsAt_node_token hk (by simp [h])
    · have hu' : p'.peek.bind Kind.unaryPower = some power := by rwa [hk', ← hk]
      simp only [leftmost, hu']

theorem localAt_operators (power : Nat) (left : List Tree) (p : Place) :
    LocalAt after (operators (nested l) power left) (operators (nested l') power left) p := by
  have h := reads_nested l
  have h' := reads_nested l'
  have hon : ∀ power, ReadsOn (operators (nested l) power) := fun power =>
    readsOn_counted fun clock => readsOn_operatorsFrom h clock power
  induction p using Place.induct_rest generalizing power left with
  | step p ih =>
    apply localAt_of_consistent ((hon power).moves left)
    intro hp
    obtain hs | ⟨hk, hpow⟩ | ⟨k, lp, rp, hk, hb, hpow⟩ := stops_or power p
    · exact (localAt_stop left).congr (operators_stop h hp hs) fun p' hc _ _ =>
        operators_stop h' hc.consistent (stops_of_cut hc hs)
    · have ht : (seq [token, attrPath (nested l)] p).2.rest.length < p.rest.length :=
        takesAt_dotPath h hk
      have hw := (((local_dotPath hl).localAt p).wrap .hasAttr left).andThen
        ((hon power).moves _) (ih _ ht power _)
      refine hw.congr (operators_question h hp hk hpow) fun p' hc hq hle => ?_
      have hle' := Nat.le_trans hle (((hon power).moves _).rest_length_le _)
      have hp' : p'.peek = p.peek := peek_eq_of_eatsAt (reads_dotPath h) hc hle'
        (eatsAt_seq_first (eatsAt_token hk) (by simp [reads_attrPath h]))
      exact operators_question h' hc.consistent (hp'.trans hk) hpow
    · have ht : (token p).2.rest.length < p.rest.length := takesAt_token hk
      have hlm := reads_andThen (reads_leftmost h) (hon rp)
      have hle := (reads_trivia (token p).2).rest_length_le
      have hle' := (reads_leftmost h (trivia (token p).2).2).rest_length_le
      have hseq : (seq [trivia, (leftmost (nested l)).andThen (operators (nested l) rp)]).Reads :=
        reads_seq (by simp [hlm])
      have hseq' : (seq [token, trivia,
          (leftmost (nested l)).andThen (operators (nested l) rp)]).Reads :=
        reads_seq (by simp [hlm])
      have hright : LocalAt after ((leftmost (nested l)).andThen (operators (nested l) rp))
          ((leftmost (nested l')).andThen (operators (nested l') rp)) (trivia (token p).2).2 :=
        ((local_leftmost hl).localAt _).andThen ((hon rp).moves _) (ih _ (by omega) rp _)
      have hs : LocalAt after
          (seq [token, trivia, (leftmost (nested l)).andThen (operators (nested l) rp)])
          (seq [token, trivia, (leftmost (nested l')).andThen (operators (nested l') rp)]) p :=
        (local_token.localAt p).cons hseq ((local_trivia.localAt _).cons
          (reads_seq (by simp [hlm])) (hright.cons reads_skip (Local.nil.localAt _)))
      have hlt : (seq [token, trivia, (leftmost (nested l)).andThen (operators (nested l) rp)]
          p).2.rest.length < p.rest.length := takesAt_seq (takesAt_token hk) (by simp [hlm])
      have hw := (hs.wrap .binaryOp left).andThen ((hon power).moves _) (ih _ hlt power _)
      refine hw.congr (operators_binary h hp hk hb hpow) fun p' hc hq hle => ?_
      have hle' := Nat.le_trans hle (((hon power).moves _).rest_length_le _)
      have hp' : p'.peek = p.peek := peek_eq_of_eatsAt hseq' hc hle'
        (eatsAt_seq_first (eatsAt_token hk) (by simp [hlm]))
      exact operators_binary h' hc.consistent (hp'.trans hk) hb hpow

theorem local_operand (power : Nat) :
    Local after (operand (nested l) power) (operand (nested l') power) := by
  have h := reads_nested l
  have ho := readsOn_counted fun clock => readsOn_operatorsFrom h clock power
  have hs : Local after ((leftmost (nested l)).andThen (operators (nested l) power))
      ((leftmost (nested l')).andThen (operators (nested l') power)) :=
    ⟨reads_andThen (reads_leftmost h) ho, fun p =>
      ((local_leftmost hl).localAt p).andThen (ho.moves _) (localAt_operators hl power _ _)⟩
  exact local_trivia.cons (hs.cons .nil)

omit hl in
theorem local_paramName : Local after paramName paramName := local_token.node _ (by simp)

theorem local_formal (kind : Kind) :
    Local after (formal (nested l) kind) (formal (nested l') kind) := by
  simp only [formal]
  split
  · exact local_token
  · have hd := (local_token.cons ((hl .expr).cons .nil)).when .question fun p hp _ =>
      eatsAt_seq_first (eatsAt_token hp) (by simp [reads_nested])
    exact (local_paramName.cons (hd.cons .nil)).node _ (by simp)
  · exact ⟨reads_recover (by simp), fun p p' _ hq => absurd hq (recover_not_clean _ p)⟩

theorem local_formals : Local after (formals (nested l)) (formals (nested l')) := by
  have h := reads_nested l
  have hf := reads_formals h
  refine ⟨hf, fun p => ?_⟩
  induction p using Place.induct_rest with
  | step p ih =>
    apply localAt_of_consistent hf.moves
    intro hp
    by_cases hstop : p.peek = none ∨ p.peek = some .rightBrace
    · refine (localAt_stop []).congr (formals_stop hp hstop) fun p' hc _ _ => ?_
      apply formals_stop hc.consistent
      obtain hn | hn := hc.peek_eq_none_or <;> rw [hn]
      · exact .inl rfl
      · exact hstop
    · rw [not_or] at hstop
      obtain ⟨k, hk⟩ := Option.ne_none_iff_exists'.mp hstop.1
      have hne : k ≠ .rightBrace := fun he => hstop.2 (he ▸ hk)
      have hcomma : («when» .comma (seq [token, formals (nested l)])).Reads :=
        reads_when _ (reads_seq (by simp [hf]))
      have hseq : (seq [formal (nested l) k, «when» .comma (seq [token, formals (nested l)])]).Reads :=
        reads_seq (by simp [reads_formal h, hcomma])
      have hle := (reads_formal h k p).rest_length_le
      have hs : LocalAt after
          (seq [formal (nested l) k, «when» .comma (seq [token, formals (nested l)])])
          (seq [formal (nested l') k, «when» .comma (seq [token, formals (nested l')])]) p := by
        apply ((local_formal hl k).localAt p).cons (reads_seq (by simp [hcomma]))
        refine (localAt_when (reads_seq (by simp [hf])) (fun hp => ?_) fun hp _ => ?_).cons
          reads_skip (Local.nil.localAt _)
        · have ht : (token (formal (nested l) k p).2).2.rest.length < _ := takesAt_token hp
          exact (local_token.localAt _).cons (reads_seq (by simp [hf]))
            ((ih _ (by omega)).cons reads_skip (Local.nil.localAt _))
        · exact eatsAt_seq_first (eatsAt_token hp) (by simp [hf])
      refine hs.congr (formals_more hp hk hne) fun p' hc hq hle => ?_
      have hclean : (formal (nested l) k p).2.errors = [] :=
        Leads.clean ((reads_seq (by simp [hcomma])).moves _) hq
      have heat : (seq [formal (nested l) k,
          «when» .comma (seq [token, formals (nested l)])]).EatsAt 1 p :=
        eatsAt_seq_first (eatsAt_formal hk hclean) (by simp [hcomma])
      exact formals_more hc.consistent ((peek_eq_of_eatsAt hseq hc hle heat).trans hk) hne

theorem local_pattern : Local after (pattern (nested l)) (pattern (nested l')) := by
  have hb : Local after (node .patternBind (seq [paramName, expect .atSign]))
      (node .patternBind (seq [paramName, expect .atSign])) :=
    (local_paramName.cons ((local_expect _).cons .nil)).node _ (by simp)
  have hn : Local after patternName patternName :=
    (local_token.cons ((local_paramName.ifPeek (by simp) fun _ hp => eatsAt_paramName hp).cons
      .nil)).node _ (by simp)
  have hbefore := hb.when .ident fun p hp _ =>
    eatsAt_node (eatsAt_seq_first (eatsAt_paramName (by simpa using hp)) (by simp))
  have hafter := hn.when .atSign fun p hp _ =>
    eatsAt_node_token hp (by simp [reads_ifPeek])
  exact (hbefore.cons ((local_expect _).cons ((local_formals hl).cons ((local_expect _).cons
    (hafter.cons .nil))))).node _ (by simp)

theorem local_patternLambda :
    Local after (patternLambda (nested l)) (patternLambda (nested l')) :=
  ((local_pattern hl).cons ((local_expect _).cons ((hl .expr).cons .nil))).node _ (by simp)

theorem local_nameLambda : Local after (nameLambda (nested l)) (nameLambda (nested l')) :=
  (local_paramName.cons (local_token.cons ((hl .expr).cons .nil))).node _ (by simp)

theorem local_statement (kind : Kind) (hk : kind ≠ .root) :
    Local after (statement (nested l) kind) (statement (nested l') kind) :=
  (local_token.cons ((hl .expr).cons ((local_expect _).cons ((hl .expr).cons .nil)))).node _ hk

theorem local_ifElse : Local after (ifElse (nested l)) (ifElse (nested l')) :=
  (local_token.cons ((hl .expr).cons ((local_expect _).cons ((hl .expr).cons
    ((local_expect _).cons ((hl .expr).cons .nil)))))).node _ (by simp)

theorem local_letIn : Local after (letIn (nested l)) (letIn (nested l')) :=
  (local_token.cons ((local_bindings hl .inKw).cons ((local_expect _).cons
    ((hl .expr).cons .nil)))).node _ (by simp)

theorem local_expr : Local after (expr (nested l)) (expr (nested l')) := by
  have h := reads_nested l
  refine ⟨reads_expr h, fun p => ?_⟩
  have heat : ∀ {k : Kind}, p.peek = some k → k.stays = false →
      (expr (nested l) p).2.errors = [] → (expr (nested l)).EatsAt 1 p := by
    intro k hp hk hq
    have he : (nested (l + 1) .expr).EatsAt 1 p := eatsAt_nested hp hk hq
    exact he
  obtain ⟨r, hr, he⟩ := expr_choice (nested l) p
  cases hr with
  | letIn hp =>
    exact ((local_letIn hl).localAt p).of_peek (reads_expr h) (heat hp rfl) hp he
      fun p' hp' => (ExprChoice.letIn hp').eq
  | withIn hp =>
    exact ((local_statement hl .withIn (by simp)).localAt p).of_peek (reads_expr h) (heat hp rfl)
      hp he fun p' hp' => (ExprChoice.withIn hp').eq
  | assert hp =>
    exact ((local_statement hl .assert (by simp)).localAt p).of_peek (reads_expr h) (heat hp rfl)
      hp he fun p' hp' => (ExprChoice.assert hp').eq
  | ifElse hp =>
    exact ((local_ifElse hl).localAt p).of_peek (reads_expr h) (heat hp rfl) hp he
      fun p' hp' => (ExprChoice.ifElse hp').eq
  | nameLambda hp hk =>
    refine ((local_nameLambda hl).localAt p).congr he fun p' hc hq hle => ?_
    have hcolon : (paramName p.skipTrivia).2.peek = some .colon := by
      have ht := ahead_token (p := p.skipTrivia) (by simpa using hp) 0
      rw [ahead_skipTrivia, hk] at ht
      simp only [paramName, node, trivia_eq, skipTrivia_skipTrivia]
      exact ht
    have heat2 : (nameLambda (nested l)).EatsAt 2 p :=
      eatsAt_node (eatsAt_seq (eatsAt_paramName (by simpa using hp))
        (eatsAt_seq_first (eatsAt_token hcolon) (by simp [h])))
    have h0 : p'.peek = p.peek :=
      hc.ahead_eq ((reads_nameLambda h).moves p) hle (by rw [EatsAt] at heat2; omega)
    have h1 : p'.ahead 1 = p.ahead 1 :=
      hc.ahead_eq ((reads_nameLambda h).moves p) hle (by rw [EatsAt] at heat2; omega)
    exact (ExprChoice.nameLambda (h0.trans hp) (h1.trans hk)).eq
  | namedPattern hp hk =>
    refine ((local_patternLambda hl).localAt p).congr he fun p' hc hq hle => ?_
    have heat2 : (patternLambda (nested l)).EatsAt 3 p :=
      eatsAt_patternLambda hq (eatsAt_namedPattern (by simpa using hp))
    have h0 : p'.peek = p.peek :=
      hc.ahead_eq ((reads_patternLambda h).moves p) hle (by rw [EatsAt] at heat2; omega)
    have h1 : p'.ahead 1 = p.ahead 1 :=
      hc.ahead_eq ((reads_patternLambda h).moves p) hle (by rw [EatsAt] at heat2; omega)
    exact (ExprChoice.namedPattern (h0.trans hp) (h1.trans hk)).eq
  | pattern hp ha =>
    refine ((local_patternLambda hl).localAt p).congr he fun p' hc hq hle => ?_
    have heat1 := heat hp rfl (he ▸ hq)
    rw [EatsAt, he] at heat1
    have h0 : p'.peek = p.peek :=
      hc.ahead_eq ((reads_patternLambda h).moves p) hle (by omega)
    exact (ExprChoice.pattern (h0.trans hp) (patternAhead_of_cut hc hp ha hq hle)).eq
  | operand hk hn =>
    refine ((local_operand hl 0).localAt p).congr he fun p' hc hq hle => ?_
    refine (ExprChoice.operand ?_ ?_).eq
    · obtain hn | hn := hc.peek_eq_none_or <;> rw [hn]
      · rfl
      · exact hk
    · rw [← Bool.not_eq_true]
      exact fun ht => by simp [lambdaAhead_of_cut hc ht] at hn

theorem local_atom : Local after (atom (nested l)) (atom (nested l')) := by
  have h := reads_nested l
  refine ⟨reads_atom h, fun p => ?_⟩
  have heat : ∀ {k : Kind}, p.peek = some k → k.stays = false →
      (atom (nested l) p).2.errors = [] → (atom (nested l)).EatsAt 1 p := by
    intro k hp hk hq
    have he : (nested (l + 1) .atom).EatsAt 1 p := eatsAt_nested hp hk hq
    exact he
  obtain ⟨r, hr, he⟩ := atom_choice (nested l) p
  have hloc : ∀ {k : Kind} {r' : Rule}, p.peek = some k → k.stays = false → Local after r r' →
      AtomChoice (nested l') (some k) r' → LocalAt after (atom (nested l)) (atom (nested l')) p :=
    fun hp hk hloc hr' => (hloc.localAt p).of_peek (reads_atom h) (heat hp hk) hp he
      fun p' hp' => hr'.eq hp'
  generalize ho : p.peek = o at hr
  cases hr with
  | var => exact hloc ho rfl (local_token.node _ (by simp)) .var
  | literal hk =>
    refine hloc ho (Kind.stays_of_startsArgument ?_) (local_token.node _ (by simp)) (.literal hk)
    simp only [List.mem_cons, List.not_mem_nil, or_false] at hk
    obtain rfl | rfl | rfl | rfl | rfl := hk <;> rfl
  | string hk =>
    refine hloc ho (Kind.stays_of_startsArgument ?_) (local_string hl _) (.string hk)
    obtain rfl | rfl := hk <;> rfl
  | interpolatedPath => exact hloc ho rfl (local_interpolatedPath hl) .interpolatedPath
  | paren =>
    exact hloc ho rfl ((local_token.cons ((hl .expr).cons ((local_expect _).cons .nil))).node _
      (by simp)) .paren
  | list => exact hloc ho rfl (local_list hl) .list
  | attrSet hk =>
    refine hloc ho (Kind.stays_of_startsArgument ?_) (local_attrSet hl) (.attrSet hk)
    obtain rfl | rfl := hk <;> rfl
  | keyword hk => exact hloc ho (Kind.stays_of_startsStatement hk) (hl .expr) (.keyword hk)
  | broken hs ha => exact fun p' _ hq => absurd (he ▸ hq) (recover_not_clean _ p)

end

/-- What a phrase builds without problems does not depend on what stands behind it, nor on how much
deeper phrases might nest. -/
theorem local_nested (after : List Token) {l l' : Nat} (hle : l ≤ l') (phrase : Phrase) :
    Local after (nested l phrase) (nested l' phrase) := by
  induction l generalizing l' phrase with
  | zero => exact ⟨reads_giveUp, fun p p' _ hq => absurd hq (giveUp_not_clean p)⟩
  | succ l ih =>
    obtain ⟨m, rfl⟩ : ∃ m, l' = m + 1 := ⟨l' - 1, by omega⟩
    have hl : ∀ phrase, Local after (nested l phrase) (nested m phrase) := ih (by omega)
    cases phrase with
    | expr => exact local_expr hl
    | atom => exact local_atom hl
    | operand power => exact local_operand hl power

end Grammar

end NixScope.Syntax
