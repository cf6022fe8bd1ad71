import NixScope.Syntax.Grammar.Rule

namespace NixScope.Syntax

namespace Place

def solid (p : Place) : List Token := p.rest.filter fun t => !t.isTrivia

def skipTrivia (p : Place) : Place :=
  ⟨p.rest.dropWhile Token.isTrivia,
    p.offset + Token.widthOf (p.rest.takeWhile Token.isTrivia), p.errors⟩

theorem aheadIn_eq (ts : List Token) (n : Nat) :
    aheadIn ts n = ((ts.filter fun t => !t.isTrivia)[n]?).map Token.kind := by
  fun_induction aheadIn ts n <;> simp_all

theorem ahead_eq (p : Place) (n : Nat) : p.ahead n = (p.solid[n]?).map Token.kind :=
  aheadIn_eq p.rest n

theorem solid_skipTrivia (p : Place) : p.skipTrivia.solid = p.solid := by
  simp only [solid, skipTrivia]
  induction p.rest with
  | nil => rfl
  | cons t ts ih => cases h : t.isTrivia <;> simp [h, ih]

@[simp] theorem ahead_skipTrivia (p : Place) (n : Nat) : p.skipTrivia.ahead n = p.ahead n := by
  rw [ahead_eq, ahead_eq, solid_skipTrivia]

@[simp] theorem peek_skipTrivia (p : Place) : p.skipTrivia.peek = p.peek := ahead_skipTrivia p 0

theorem takeWhile_rest_skipTrivia (p : Place) :
    p.skipTrivia.rest.takeWhile Token.isTrivia = [] := by
  simp only [skipTrivia]
  induction p.rest with
  | nil => rfl
  | cons t ts ih => cases h : t.isTrivia <;> simp [h, ih]

theorem skipTrivia_skipTrivia (p : Place) : p.skipTrivia.skipTrivia = p.skipTrivia := by
  have ht := takeWhile_rest_skipTrivia p
  have hd := List.takeWhile_append_dropWhile (p := Token.isTrivia) (l := p.skipTrivia.rest)
  rw [ht, List.nil_append] at hd
  rw [skipTrivia, ht, hd]
  rfl

theorem solid_of_rest_skipTrivia {p : Place} {t : Token} {ts : List Token}
    (h : p.skipTrivia.rest = t :: ts) : p.solid = t :: ts.filter fun t => !t.isTrivia := by
  have ht := List.head?_dropWhile_not Token.isTrivia p.rest
  simp only [skipTrivia] at h
  rw [h] at ht
  rw [← solid_skipTrivia, solid, skipTrivia, h]
  simp_all

theorem peek_eq_head (p : Place) : p.peek = p.skipTrivia.rest.head?.map Token.kind := by
  rw [peek, ahead_eq]
  cases h : p.skipTrivia.rest with
  | nil =>
    rw [← solid_skipTrivia, solid, h]
    rfl
  | cons t ts => simp [solid_of_rest_skipTrivia h]

theorem peek_eq_some {p : Place} {k : Kind} :
    p.peek = some k ↔ ∃ t ts, p.skipTrivia.rest = t :: ts ∧ t.kind = k := by
  rw [peek_eq_head]
  cases p.skipTrivia.rest <;> simp

theorem peek_eq_none {p : Place} : p.peek = none ↔ p.skipTrivia.rest = [] := by
  rw [peek_eq_head]
  cases p.skipTrivia.rest <;> simp

theorem peek_nil {p : Place} (h : p.rest = []) : p.peek = none := by
  rw [peek_eq_none, skipTrivia, h]
  rfl

theorem peek_of_head {p : Place} {k : Kind} (h : p.rest.head?.map Token.kind = some k)
    (hk : k.isTrivia = false) : p.peek = some k := by
  obtain ⟨t, ht, rfl⟩ := Option.map_eq_some_iff.mp h
  obtain ⟨ts, hr⟩ := List.head?_eq_some_iff.mp ht
  rw [peek, ahead_eq, solid, hr]
  simp [Token.isTrivia, hk]

theorem not_isTrivia_of_peek {p : Place} {k : Kind} (h : p.peek = some k) : k.isTrivia = false := by
  obtain ⟨t, ts, hr, rfl⟩ := peek_eq_some.mp h
  have ht := List.head?_dropWhile_not Token.isTrivia p.rest
  simp only [skipTrivia] at hr
  simpa [hr, Token.isTrivia] using ht

@[simp] theorem rest_report (p : Place) (e : Problem) : (p.report e).rest = p.rest := by
  rw [report]
  split <;> rfl

@[simp] theorem offset_report (p : Place) (problem : Problem) :
    (p.report problem).offset = p.offset := by
  rw [report]
  split <;> rfl

@[simp] theorem ahead_report (p : Place) (e : Problem) (n : Nat) :
    (p.report e).ahead n = p.ahead n := by
  simp [ahead]

@[simp] theorem peek_report (p : Place) (e : Problem) : (p.report e).peek = p.peek :=
  ahead_report p e 0

theorem nextRange_skipTrivia (p : Place) : p.skipTrivia.nextRange = p.nextRange := by
  obtain ⟨rest, offset, errors⟩ := p
  simp only [nextRange, skipTrivia]
  induction rest generalizing offset with
  | nil => rfl
  | cons t ts ih =>
    cases h : t.isTrivia with
    | false => simp [h, Token.widthOf]
    | true => simp [h, Token.widthOf, nextRangeIn, ← ih (offset + t.width), Nat.add_assoc]

theorem nextRange_start (p : Place) : p.nextRange.start = p.skipTrivia.offset := by
  rw [← nextRange_skipTrivia]
  have ht := p.takeWhile_rest_skipTrivia
  simp only [nextRange]
  cases h : p.skipTrivia.rest with
  | nil => rfl
  | cons t rest =>
    rw [h, List.takeWhile_cons] at ht
    cases hk : t.isTrivia with
    | false => simp [nextRangeIn, hk]
    | true => simp [hk] at ht

/-- A problem is reported at the token ahead, so it may be reported before or behind the trivia. -/
theorem report_skipTrivia (p : Place) (e : Problem) :
    p.skipTrivia.report e = (p.report e).skipTrivia := by
  have hg : p.skipTrivia.gaveUp = p.gaveUp := rfl
  rw [report, report, hg, nextRange_skipTrivia]
  split <;> rfl

theorem errors_report (p : Place) (e : Problem) : p.errors <:+ (p.report e).errors := by
  rw [report]
  split
  · exact List.suffix_refl _
  · exact List.suffix_cons _ _

theorem gaveUp_of_clean {p : Place} (h : p.errors = []) : p.gaveUp = false := by
  simp [gaveUp, h]

theorem report_not_clean (p : Place) (e : Problem) : (p.report e).errors ≠ [] := by
  intro h
  have hp : p.errors = [] := List.suffix_nil.mp (h ▸ p.errors_report e)
  simp [report, gaveUp_of_clean hp] at h

theorem gaveUp_report (p : Place) (e : Problem) (he : e ≠ .nestedTooDeeply) :
    (p.report e).gaveUp = p.gaveUp := by
  rw [report]
  split
  · rfl
  · rename_i h
    rw [Bool.not_eq_true] at h
    rw [h]
    simpa [gaveUp] using he

end Place

namespace Rule

theorem triviaIn_eq (ts : List Token) (offset : Nat) (errors : List Error) :
    triviaIn ts offset errors =
      ((ts.takeWhile Token.isTrivia).map .leaf, Place.skipTrivia ⟨ts, offset, errors⟩) := by
  induction ts generalizing offset with
  | nil => rfl
  | cons t ts ih =>
    cases h : t.isTrivia with
    | false => simp [triviaIn, Place.skipTrivia, Token.widthOf, h]
    | true => simp [triviaIn, Place.skipTrivia, Token.widthOf, h, ih, Nat.add_assoc]

theorem trivia_eq (p : Place) :
    trivia p = ((p.rest.takeWhile Token.isTrivia).map .leaf, p.skipTrivia) :=
  triviaIn_eq p.rest p.offset p.errors

theorem trivia_skipTrivia (p : Place) : trivia p.skipTrivia = ([], p.skipTrivia) := by
  rw [trivia_eq, Place.skipTrivia_skipTrivia, Place.takeWhile_rest_skipTrivia, List.map_nil]

theorem ahead_token {p : Place} {k : Kind} (h : p.peek = some k) (n : Nat) :
    (token p).2.ahead n = p.ahead (n + 1) := by
  obtain ⟨t, ts, hr, -⟩ := Place.peek_eq_some.mp h
  have ht : (token p).2.rest = ts := by simp [token, seq, skip, trivia_eq, leaf, hr]
  rw [Place.ahead_eq, Place.ahead_eq, Place.solid_of_rest_skipTrivia hr, Place.solid, ht,
    List.getElem?_cons_succ]

theorem report_apply (e : Problem) (p : Place) : report e p = ([], p.report e) := rfl

theorem seq_nil_apply (p : Place) : seq [] p = ([], p) := rfl

theorem seq_cons_apply (r : Rule) (rs : List Rule) (p : Place) :
    seq (r :: rs) p = ((r p).1 ++ (seq rs (r p).2).1, (seq rs (r p).2).2) := rfl

theorem seq_append_apply (rs rs' : List Rule) (p : Place) :
    seq (rs ++ rs') p =
      ((seq rs p).1 ++ (seq rs' (seq rs p).2).1, (seq rs' (seq rs p).2).2) := by
  induction rs generalizing p with
  | nil => rfl
  | cons r rs ih => simp only [List.cons_append, seq_cons_apply, ih, List.append_assoc]

theorem seq_cons_of_nil {r : Rule} {rs : List Rule} {p : Place} (h : r p = ([], p)) :
    seq (r :: rs) p = seq rs p := by
  rw [seq_cons_apply, h, List.nil_append]

theorem seq_congr {r r' : Rule} {rs rs' : List Rule} {p : Place} (h : r p = r' p)
    (h' : seq rs (r p).2 = seq rs' (r p).2) : seq (r :: rs) p = seq (r' :: rs') p := by
  rw [seq_cons_apply, seq_cons_apply, ← h, h']

theorem wrap_congr {r r' : Rule} {p : Place} (kind : Kind) (left : List Tree) (h : r p = r' p) :
    wrap kind left r p = wrap kind left r' p := by
  simp only [wrap, h]

theorem andThen_congr {first first' : Rule} {second second' : List Tree → Rule} {p : Place}
    (h : first p = first' p)
    (h' : second (first p).1 (first p).2 = second' (first p).1 (first p).2) :
    first.andThen second p = first'.andThen second' p := by
  simp only [andThen, ← h, h']

theorem when_pos {kind : Kind} {r : Rule} {p : Place} (h : p.peek = some kind) :
    «when» kind r p = r p := by
  simp [«when», onlyIf, h]

theorem when_neg {kind : Kind} {r : Rule} {p : Place} (h : p.peek ≠ some kind) :
    «when» kind r p = ([], p) := by
  simp [«when», onlyIf, h]

theorem expect_pos {kind : Kind} {p : Place} (h : p.peek = some kind) : expect kind p = token p :=
  if_pos h

end Rule

end NixScope.Syntax
