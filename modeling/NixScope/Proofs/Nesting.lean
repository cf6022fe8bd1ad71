import NixScope.Proofs.Forms
import NixScope.Proofs.Levels
import NixScope.Proofs.Lossless
import NixScope.Proofs.Origins

namespace NixScope.Syntax

namespace Level

/-- The level behind a part. Between the parts of a path there are no blanks, so it is not read off
a form. -/
def part? (l : Level) (p : Part) : Option Level :=
  if l = literal .path then none
  else
    match p with
    | .token k => l.token? k
    | .node k => if l.holds k then some l else none
    | .expr => if l.isCode then some l else none

def choice? (l : Level) : List Part → Option Level
  | [] => none
  | p :: ps => if ps.all fun q => l.part? q = l.part? p then l.part? p else none

def form? : Form → Level → Option Level
  | [], l => some l
  | .one parts :: form, l => (l.choice? parts).bind (form? form)
  | .many parts :: form, l => if parts.all fun p => l.part? p = some l then form? form l else none

theorem part?_of_choice? {l l' : Level} {parts : List Part} {p : Part}
    (h : l.choice? parts = some l') (hp : p ∈ parts) : l.part? p = some l' := by
  cases parts with
  | nil => cases hp
  | cons q parts =>
    obtain ⟨ha, hq⟩ := Option.ite_none_right_eq_some.mp h
    obtain rfl | hp := List.mem_cons.mp hp
    · exact hq
    · rw [← hq]
      exact of_decide_eq_true (List.all_eq_true.mp ha p hp)

theorem form?_cons {form : Form} {t : Tree} {ts : List Tree} {l l' : Level}
    (hf : Form.Fits form (t :: ts)) (h : form? form l = some l') :
    ∃ part form' m, part.fits t = true ∧ l.part? part = some m ∧ Form.Fits form' ts ∧
      form? form' m = some l' := by
  generalize hc : t :: ts = us at hf
  induction hf with
  | nil => cases hc
  | @one parts form u us ht hs ih =>
    obtain ⟨rfl, rfl⟩ := List.cons.inj hc
    obtain ⟨m, hm, h⟩ := Option.bind_eq_some_iff.mp h
    obtain ⟨p, hp, hfit⟩ := List.any_eq_true.mp ht
    exact ⟨p, form, m, hfit, part?_of_choice? hm hp, hs, h⟩
  | stop hs ih => exact ih (Option.ite_none_right_eq_some.mp h).2 hc
  | @more parts form u us ht hs ih =>
    obtain ⟨rfl, rfl⟩ := List.cons.inj hc
    obtain ⟨p, hp, hfit⟩ := List.any_eq_true.mp ht
    have ha := List.all_eq_true.mp (Option.ite_none_right_eq_some.mp h).1 p hp
    exact ⟨p, .many parts :: form, l, hfit, of_decide_eq_true ha, hs, h⟩

theorem form?_nil {form : Form} {l l' : Level} (hf : Form.Fits form [])
    (h : form? form l = some l') : l' = l := by
  generalize hc : ([] : List Tree) = us at hf
  induction hf with
  | nil => exact (Option.some.inj h).symm
  | one ht hs ih => cases hc
  | stop hs ih => exact ih (Option.ite_none_right_eq_some.mp h).2 hc
  | more ht hs ih => cases hc

theorem form?_path {form : Form} {l' : Level} (h : form? form (literal .path) = some l') :
    l' = literal .path := by
  induction form with
  | nil => exact (Option.some.inj h).symm
  | cons slot form ih =>
    cases slot with
    | one parts =>
      obtain ⟨m, hm, -⟩ := Option.bind_eq_some_iff.mp h
      cases parts with
      | nil => cases hm
      | cons p parts => cases (Option.ite_none_right_eq_some.mp hm).2
    | many parts => exact ih (Option.ite_none_right_eq_some.mp h).2

theorem token?_blank {l : Level} (hl : l ≠ literal .path) {k : Kind} (hk : k.isTrivia = true) :
    l.token? k = some l := by
  have hk : k = .whitespace ∨ k = .comment := by
    cases k <;> simp_all [Kind.isTrivia]
  match l with
  | literal .path => exact absurd rfl hl
  | literal .string => obtain rfl | rfl := hk <;> rfl
  | literal .indentedString => obtain rfl | rfl := hk <;> rfl
  | code => obtain rfl | rfl := hk <;> rfl
  | opened => obtain rfl | rfl := hk <;> rfl
  | hole o => obtain rfl | rfl := hk <;> rfl

theorem follows_leaf {l m : Level} {part : Part} {o : Token} (hf : part.fits (.leaf o) = true)
    (h : l.part? part = some m) : l.token? o.kind = some m := by
  obtain ⟨-, h⟩ := Option.ite_none_left_eq_some.mp h
  cases part with
  | token k =>
    obtain rfl := beq_iff_eq.mp hf
    exact h
  | node k => cases hf
  | expr => cases hf

theorem follows_branch {l m : Level} {part : Part} {k : Kind} {us : List Tree}
    (hf : part.fits (.branch k us) = true) (h : l.part? part = some m) :
    l.holds k = true ∧ m = l := by
  obtain ⟨-, h⟩ := Option.ite_none_left_eq_some.mp h
  cases part with
  | token k => cases hf
  | node k =>
    obtain rfl := beq_iff_eq.mp hf
    obtain ⟨hl, h⟩ := Option.ite_none_right_eq_some.mp h
    exact ⟨hl, (Option.some.inj h).symm⟩
  | expr =>
    obtain ⟨hl, h⟩ := Option.ite_none_right_eq_some.mp h
    have hk : k ≠ .interpolation := by
      rintro rfl
      cases hf
    exact ⟨by rw [holds, hl, bne_iff_ne.mpr hk]; rfl, (Option.some.inj h).symm⟩

/-- Trees that have a form lead where the form does. -/
theorem follows_of_fits {form : Form} {ts : List Tree} {l l' : Level}
    (hf : Form.Fits form (Tree.solid ts)) (h : form? form l = some l') (hl : l' ≠ literal .path) :
    Follows l ts l' := by
  induction ts generalizing form l with
  | nil =>
    obtain rfl := form?_nil hf h
    exact .nil _
  | cons t ts ih =>
    cases t with
    | leaf o =>
      cases ho : o.isTrivia with
      | true =>
        have hp : l ≠ literal .path := by
          rintro rfl
          exact hl (form?_path h)
        rw [Tree.solid, List.filter_cons_of_neg (by simp [Tree.isSolid, ho])] at hf
        exact .leaf (token?_blank hp ho) (ih hf h)
      | false =>
        rw [Tree.solid, List.filter_cons_of_pos (by simp [Tree.isSolid, ho])] at hf
        obtain ⟨part, form', m, hfit, hm, hf, h⟩ := form?_cons hf h
        exact .leaf (follows_leaf hfit hm) (ih hf h)
    | branch k us =>
      rw [Tree.solid, List.filter_cons_of_pos (by simp [Tree.isSolid])] at hf
      obtain ⟨part, form', m, hfit, hm, hf, h'⟩ := form?_cons hf h
      obtain ⟨hk, rfl⟩ := follows_branch hfit hm
      exact .branch hk (ih hf h')

/-- The forms of nodes other than paths and interpolations lead back to the code around them. -/
theorem form?_forms {k : Kind} (hk : k ≠ .interpolation) (hk' : k ≠ .interpolatedPath) :
    ∀ form ∈ k.forms, form? form .code = some .code := by
  cases k <;> first
    | exact absurd rfl hk
    | exact absurd rfl hk'
    | decide

end Level

open Level

theorem Tree.Formed.follows {k : Kind} {ts : List Tree} (h : Tree.Formed k ts)
    (hk : k ≠ .interpolation) (hk' : k ≠ .interpolatedPath) : Follows .code ts .code := by
  obtain ⟨form, hm, hf⟩ := h
  exact follows_of_fits hf (form?_forms hk hk' form hm) (by decide)

namespace Rule

open Place

theorem many_stops {element : Place → Option Rule} (h : Advances element) {p : Place}
    (hp : p.Consistent) : element (many element p).2 = none := by
  induction hn : p.rest.length using Nat.strongRecOn generalizing p with
  | ind n ih =>
    rw [many_eq h hp, elementThen]
    cases he : element p with
    | none => exact he
    | some r =>
      have ht := h.takes hp he
      have hs := ih _ (hn ▸ ht) (consistent (h.reads he) hp) rfl
      simpa only [seq_cons_apply, seq_nil_apply] using hs

end Rule

namespace Grammar

open Rule Place

theorem token_eq {p : Place} {k : Kind} (hp : p.skipTrivia = p) (hk : p.peek = some k) :
    ∃ o, (token p).1 = [.leaf o] ∧ o.kind = k := by
  obtain ⟨o, os, hr, ho⟩ := peek_eq_some.mp hk
  rw [hp] at hr
  refine ⟨o, ?_, ho⟩
  simp [token, seq_cons_apply, seq_nil_apply, trivia_of_skipTrivia_eq hp, leaf, hr]

theorem token_trivia (p : Place) : (token p).1 = (trivia p).1 ++ (token p.skipTrivia).1 := by
  simp only [token, seq_cons_apply, seq_nil_apply, trivia_skipTrivia, List.append_nil,
    List.nil_append]
  rw [trivia_eq]

theorem skipTrivia_of_head {p : Place} {k : Kind} (h : p.rest.head?.map Token.kind = some k)
    (hk : k.isTrivia = false) : p.skipTrivia = p := by
  obtain ⟨rest, offset, errors⟩ := p
  cases rest with
  | nil => rfl
  | cons o rest =>
    have ho : o.isTrivia = false := by
      rw [List.head?_cons, Option.map_some, Option.some.injEq] at h
      rw [Token.isTrivia, h, hk]
    simp [skipTrivia, ho, Token.widthOf]

section

variable {inner : Phrase → Rule}

theorem follows_pathParts (p : Place) :
    Follows (.literal .path) (many (pathPart inner) p).1 (.literal .path) := by
  suffices h : ∀ clock p, Follows (.literal .path) (manyFrom (pathPart inner) clock p).1
      (.literal .path) from h p.rest p
  intro clock
  induction clock with
  | nil => exact fun p => .nil _
  | cons c clock ih =>
    intro p
    rw [manyFrom]
    cases he : pathPart inner p with
    | none => exact .nil _
    | some r =>
      refine Follows.append ?_ (ih _)
      simp only [pathPart] at he
      split at he
      · rename_i hh
        cases he
        obtain ⟨o, ho, hk⟩ := token_eq (skipTrivia_of_head hh rfl) (peek_of_head hh rfl)
        rw [ho]
        exact .leaf (by rw [hk]; rfl) (.nil _)
      · rename_i hh
        cases he
        rw [hole, node, trivia_of_skipTrivia_eq (skipTrivia_of_head hh rfl)]
        exact .branch rfl (.nil _)
      · cases he

theorem pathEnds_of_pathPart {p : Place} (h : pathPart inner p = none) :
    pathEnds p.rest = true := by
  rw [pathEnds]
  cases hr : p.rest with
  | nil => rfl
  | cons o rest =>
    rw [pathPart, hr, List.head?_cons, Option.map_some] at h
    cases hk : o.kind <;> simp_all [Kind.continuesPath]

end

section

variable {l : Nat} {p q : Place} {ts : List Tree}

theorem follows_trivia {m : Level} (hm : m ≠ .literal .path) (p : Place) :
    Follows m (trivia p).1 m := by
  have hf : Form.Fits [] (Tree.solid (trivia p).1) := by
    rw [solid_trivia]
    exact .nil
  exact follows_of_fits hf rfl hm

theorem nests_hole (hp : p.skipTrivia = p) (hk : p.peek = some .dollarBrace)
    (h : seq [token, nested l .expr, expect .rightBrace] p = (ts, q)) (hq : q.errors = [])
    (o : Literal) : Follows (.literal o) ts (.literal o) := by
  simp only [seq_cons_apply, seq_nil_apply, List.append_nil, Prod.mk.injEq] at h
  obtain ⟨rfl, rfl⟩ := h
  have hx : (nested l .expr (token p).2).2.errors = [] := Leads.clean ((reads_expect _).moves _) hq
  have hexpr := (builds_expr (reads_nested l) (precise_nested l)).fits _ hx
  have hend := peek_of_expect_clean hq
  generalize (nested l .expr (token p).2).2 = r at hend
  obtain ⟨a, ha, hka⟩ := token_eq hp hk
  obtain ⟨b, hb, hkb⟩ := token_eq (skipTrivia_skipTrivia r) (by simpa using hend)
  rw [expect_pos hend, token_trivia r, ha, hb]
  have hexpr : Follows (.hole o) (nested l .expr (token p).2).1 (.hole o) :=
    follows_of_fits hexpr rfl (by simp)
  refine .leaf (by rw [hka]; rfl) (hexpr.append ?_)
  exact (follows_trivia (by simp) r).append (.leaf (by rw [hkb]; rfl) (.nil _))

theorem nests_path (hp : p.skipTrivia = p) (hk : p.peek = some .pathFragment)
    (h : seq [token, many (pathPart (nested l))] p = (ts, q)) (hq : q.errors = []) :
    Follows .code ts (.literal .path) ∧ pathEnds q.rest = true := by
  have hr := reads_nested l
  have hq' : (seq [token, many (pathPart (nested l))] p).2.errors = [] := by rwa [h]
  obtain ⟨ht, -⟩ := clean_of_seq (reads_seq (by simp [reads_pathParts hr])) hq'
  obtain ⟨a, ha, hka⟩ := token_eq hp hk
  simp only [seq_cons_apply, seq_nil_apply, List.append_nil, Prod.mk.injEq] at h
  obtain ⟨rfl, rfl⟩ := h
  constructor
  · rw [ha]
    exact .leaf (by rw [hka]; rfl) (follows_pathParts _)
  · exact pathEnds_of_pathPart (many_stops (advances_pathPart hr) (consistent_of_clean ht))

/-- Every production of a clean run closes what it opens. -/
theorem Production.nests {kind : Kind} (h : Production (nested l) kind p ts q)
    (hp : p.skipTrivia = p) (hq : q.errors = []) : Tree.Nests kind ts q.rest := by
  have hf := h.formed hq
  by_cases hk : kind = .interpolation
  · subst hk
    cases h with
    | body hb hr =>
      cases hb with
      | hole hk hpeek => exact nests_hole hp hpeek hr hq
  by_cases hk' : kind = .interpolatedPath
  · subst hk'
    cases h with
    | body hb hr =>
      cases hb with
      | hole hk hpeek => simp at hk
      | interpolatedPath hpeek => exact nests_path hp hpeek hr hq
  · unfold Tree.Nests
    split
    · exact absurd rfl hk
    · exact absurd rfl hk'
    · exact hf.follows hk hk'

end

end Grammar

namespace Parse

/-- All nodes of a text without problems close what they open. -/
theorem within_nests (tokens : List Token) (h : (ofTokens tokens).errors = []) :
    (ofTokens tokens).tree.Within Tree.Nests [] := by
  have hclean : (Grammar.file (.start tokens)).2.errors = [] := List.reverse_eq_nil_iff.mp h
  refine .branch ((Grammar.file_formed _ hclean).follows (by decide) (by decide)) ?_
  have ha := allWithin_content tokens
  rw [rest_file] at ha
  intro us t vs he
  refine (ha us t vs he).mono ?_
  rintro k ts after ⟨levels, p, q, -, hp, hq, rfl, hs⟩
  exact hp.nests hs (hq.clean hclean)

end Parse

end NixScope.Syntax
