import NixScope.Proofs.Lossless

namespace NixScope.Syntax

/-- The range of a token that is neither blank nor comment, or the empty range at the end. -/
def Token.Located (tokens : List Token) (range : Range) : Prop :=
  (∃ before t after, tokens = before ++ t :: after ∧ t.isTrivia = false ∧
    range = ⟨widthOf before, widthOf before + t.width⟩) ∨
  range = ⟨widthOf tokens, widthOf tokens⟩

namespace Place

variable {tokens : List Token} {p q : Place} {ts : List Tree}

/-- The place is one among the tokens, and the problems met so far were met at places before it, one
after the other. -/
structure Reported (tokens : List Token) (p : Place) : Prop where
  place : ∃ before, tokens = before ++ p.rest ∧ p.offset = Token.widthOf before
  located : ∀ e ∈ p.errors, Token.Located tokens e.range
  passed : ∀ e ∈ p.errors, e.range.start ≤ p.nextRange.start
  ordered : p.errors.Pairwise fun e e' => e'.range.start ≤ e.range.start

theorem located_nextRangeIn (before rest : List Token) :
    Token.Located (before ++ rest) (nextRangeIn rest (Token.widthOf before)) := by
  induction rest generalizing before with
  | nil =>
    right
    rw [List.append_nil]
    rfl
  | cons t rest ih =>
    rw [nextRangeIn]
    split
    · have h := ih (before ++ [t])
      rwa [List.append_assoc, Token.widthOf_append, Token.widthOf, Token.widthOf,
        Nat.add_zero] at h
    · rename_i ht
      exact .inl ⟨before, t, rest, rfl, by simpa using ht, rfl⟩

theorem offset_le_nextRange (p : Place) : p.offset ≤ p.nextRange.start := by
  rw [nextRange_start]
  exact Nat.le_add_right _ _

theorem nextRange_leaf {t : Token} {rest : List Token} (h : p.rest = t :: rest) :
    p.nextRange.start ≤
      ({ p with rest, offset := p.offset + t.width } : Place).nextRange.start := by
  by_cases ht : t.isTrivia = true
  · rw [nextRange, h, nextRangeIn, if_pos ht]
    exact Nat.le_refl _
  · rw [nextRange, h, nextRangeIn, if_neg ht]
    apply Nat.le_trans (Nat.le_add_right p.offset t.width)
    exact offset_le_nextRange { p with rest, offset := p.offset + t.width }

theorem Reported.start (tokens : List Token) : Reported tokens (start tokens) where
  place := ⟨[], rfl, rfl⟩
  located := nofun
  passed := nofun
  ordered := .nil

theorem Reported.report (h : p.Reported tokens) (problem : Problem) :
    (p.report problem).Reported tokens := by
  obtain ⟨before, htokens, hoffset⟩ := h.place
  have hnext : (p.report problem).nextRange = p.nextRange := by
    rw [nextRange, rest_report, offset_report, nextRange]
  have hlocated : Token.Located tokens p.nextRange := by
    rw [htokens, nextRange, hoffset]
    exact located_nextRangeIn before p.rest
  refine ⟨⟨before, by rwa [rest_report], by rwa [offset_report]⟩, ?_, ?_, ?_⟩
  · rw [Place.report]
    split
    · exact h.located
    · exact List.forall_mem_cons.mpr ⟨hlocated, h.located⟩
  · rw [hnext, Place.report]
    split
    · exact h.passed
    · exact List.forall_mem_cons.mpr ⟨Nat.le_refl _, h.passed⟩
  · rw [Place.report]
    split
    · exact h.ordered
    · exact h.ordered.cons h.passed

theorem Reported.leaf (h : p.Reported tokens) {t : Token} {rest : List Token}
    (hr : p.rest = t :: rest) :
    Reported tokens { p with rest, offset := p.offset + t.width } := by
  obtain ⟨before, htokens, hoffset⟩ := h.place
  refine ⟨⟨before ++ [t], ?_, ?_⟩, h.located, fun e he => ?_, h.ordered⟩
  · rw [htokens, hr, List.append_assoc, List.singleton_append]
  · rw [Token.widthOf_append, hoffset]
    rfl
  · exact Nat.le_trans (h.passed e he) (nextRange_leaf hr)

theorem Reads.reported (h : Reads p ts q) (hp : p.Reported tokens) : q.Reported tokens := by
  induction h with
  | skip p => exact hp
  | report p h => exact hp.report _
  | leaf h => exact hp.leaf h
  | node hk h ih => exact ih hp
  | append h h' ih ih' => exact ih' (ih hp)
  | giveUp hg h ih => exact ih (hp.report _)

end Place

/-- Each error stands at the whole of a token that is neither blank nor comment, or at the end of the
text, and the errors come in the order of the text. -/
theorem Parse.errors_located_in_order (text : String) :
    (∀ e ∈ (parse text).errors,
      (∃ before t after, Token.lex text = before ++ t :: after ∧ t.isTrivia = false ∧
        e.range = ⟨Token.widthOf before, Token.widthOf before + t.width⟩) ∨
      e.range = ⟨text.utf8ByteSize, text.utf8ByteSize⟩) ∧
    (parse text).errors.Pairwise fun e e' => e.range.start ≤ e'.range.start := by
  have h := (Grammar.reads_file (.start (Token.lex text))).reported (.start _)
  have hwidth : Token.widthOf (Token.lex text) = text.utf8ByteSize := by
    rw [Token.widthOf_eq, Token.join_lex]
  rw [← hwidth]
  refine ⟨fun e he => ?_, List.pairwise_reverse.mpr h.ordered⟩
  exact h.located e (List.mem_reverse.mp he)

end NixScope.Syntax
