import NixScope.Proofs.Layout
import NixScope.Proofs.Phrases

namespace NixScope.Syntax

namespace Quoted

/-- How a character is written between pairs of quotes. -/
def encodeIndentedChar (c : Char) : List Char :=
  if c = '\'' ∨ c = '$' then ['\'', '\'', '\\', c] else [c]

def encodeIndented (cs : List Char) : List Char := cs.flatMap encodeIndentedChar

def indented (text : String) : String :=
  "''" ++ String.ofList (encodeIndented text.toList) ++ "''"

variable {c : Char} (cs : List Char)

theorem encodeIndented_cons (c : Char) :
    encodeIndented (c :: cs) = encodeIndentedChar c ++ encodeIndented cs := List.flatMap_cons

theorem decodeIndented_cons (h : ¬(c = '\'' ∨ c = '$')) :
    decodeIndented (c :: cs) = c :: decodeIndented cs := by
  rw [not_or] at h
  rw [decodeIndented] <;> simp [h.1]

theorem decodeIndented_encodeChar (c : Char) :
    decodeIndented (encodeIndentedChar c ++ cs) = c :: decodeIndented cs := by
  by_cases hc : c = '\'' ∨ c = '$'
  · rw [encodeIndentedChar, if_pos hc]
    obtain rfl | rfl := hc <;> rfl
  · rw [encodeIndentedChar, if_neg hc]
    exact decodeIndented_cons cs hc

theorem decodeIndented_encode : decodeIndented (encodeIndented cs) = cs := by
  induction cs with
  | nil => rfl
  | cons c cs ih => rw [encodeIndented_cons, decodeIndented_encodeChar, ih]

theorem encodeIndented_eq_nil {cs : List Char} (h : encodeIndented cs = []) : cs = [] := by
  rw [← decodeIndented_encode cs, h]
  rfl

end Quoted

namespace Scan

open Quoted

variable {c : Char} (cs : List Char)

theorem indentedContent_cons (h : ¬(c = '\'' ∨ c = '$')) :
    indentedContent (c :: cs) = indentedContent cs + 1 := by
  rw [not_or] at h
  rw [indentedContent] <;> simp [h.1, h.2]

theorem indentedContent_encodeChar (c : Char) :
    indentedContent (encodeIndentedChar c ++ cs) =
      (encodeIndentedChar c).length + indentedContent cs := by
  by_cases hc : c = '\'' ∨ c = '$'
  · rw [encodeIndentedChar, if_pos hc]
    exact Nat.add_comm ..
  · rw [encodeIndentedChar, if_neg hc]
    exact (indentedContent_cons cs hc).trans (Nat.add_comm ..)

/-- The content of a literal ends where the text behind it goes on with none. -/
theorem indentedContent_encode {rest : List Char} (h : indentedContent rest = 0) :
    indentedContent (encodeIndented cs ++ rest) = (encodeIndented cs).length := by
  induction cs with
  | nil => exact h
  | cons c cs ih =>
    rw [encodeIndented_cons, List.append_assoc, indentedContent_encodeChar, ih, List.length_append]

end Scan

namespace Token

open Mode Quoted

def pairedQuote : Token := ⟨.indentedQuote, "''"⟩

def indentedContents (cs : List Char) : List Token :=
  if cs = [] then [] else [⟨.stringContent, String.ofList (encodeIndented cs)⟩]

def indented (cs : List Char) : List Token := pairedQuote :: (indentedContents cs ++ [pairedQuote])

variable (cs : List Char)

theorem chars_indented :
    chars (indented cs) = '\'' :: '\'' :: (encodeIndented cs ++ ['\'', '\'']) := by
  by_cases h : cs = []
  · rw [h]
    rfl
  · simp [indented, indentedContents, h, chars, pairedQuote]

theorem lexFrom_pairedQuote (rest : List Char) :
    lexFrom ('\'' :: '\'' :: rest) 0 [] = pairedQuote :: lexFrom rest 0 [.indentedString] := by
  have hc : Scan.code '\'' ('\'' :: rest) = (.indentedQuote, 2) :=
    Scan.code_of_calm (Scan.calm_of_stop (by decide) (by decide) (by decide)) (by decide)
      (by decide)
  have hn : next '\'' ('\'' :: rest) [] = (.indentedQuote, 2, [.indentedString]) := by
    rw [next_code rfl, hc]
    rfl
  rw [lexFrom_cons, hn]
  rfl

theorem lexFrom_endPairedQuote :
    lexFrom ['\'', '\''] 0 [.indentedString] = [pairedQuote] := rfl

theorem lexFrom_indentedContent (hne : cs ≠ []) :
    lexFrom (encodeIndented cs ++ ['\'', '\'']) 0 [.indentedString] =
      ⟨.stringContent, String.ofList (encodeIndented cs)⟩ ::
        lexFrom ['\'', '\''] 0 [.indentedString] := by
  have hlen := @Scan.indentedContent_encode cs ['\'', '\''] rfl
  cases he : encodeIndented cs with
  | nil => exact absurd (encodeIndented_eq_nil he) hne
  | cons c w =>
    rw [he, List.cons_append, List.length_cons] at hlen
    have hd : ¬['$', '{'].isPrefixOf (c :: (w ++ ['\'', '\''])) = true := by
      intro hd
      obtain ⟨us, hu⟩ := List.isPrefixOf_iff_prefix.mp hd
      rw [← hu] at hlen
      cases hlen
    have hn : next c (w ++ ['\'', '\'']) [.indentedString] =
        (.stringContent, w.length + 1, [.indentedString]) := by
      simp only [next, if_neg hd, hlen]
    have hl := lexFrom_of_next (t := ⟨.stringContent, String.ofList (c :: w)⟩)
      (String.toList_ofList) (congrArg Prod.fst hn) (congrArg (·.2.1) hn)
    rw [hn] at hl
    exact hl

theorem lexes_indented : Lexes (indented cs) [] := by
  rw [Lexes, List.append_nil, chars_indented, lexFrom_pairedQuote, indented, indentedContents]
  split
  · rename_i hnil
    rw [hnil]
    rfl
  · rename_i hne
    rw [lexFrom_indentedContent cs hne, lexFrom_endPairedQuote]
    rfl

end Token

namespace StringLiteral

open Node

variable (above : List Spot) (start index : Nat) (cs : List Char)

theorem isIndented_indented :
    isIndented (laid above start index .string ((Token.indented cs).map .leaf)) = true := by
  rw [isIndented, token?, leaves, elements_laid]
  rfl

theorem value?_indented :
    value? (laid above start index .string ((Token.indented cs).map .leaf)) =
      some (String.ofList cs) := by
  rw [value?, isIndented_indented, parts, elements_laid, Token.indented, Token.indentedContents]
  split
  · rename_i hnil
    rw [hnil]
    rfl
  · simp [laidAll, decodePart, Leaf.kind, Leaf.text, Token.pairedQuote,
      Quoted.decodeIndented_encode]

end StringLiteral

section

open Grammar

def Tree.indented (cs : List Char) : Tree := .branch .string ((Token.indented cs).map .leaf)

theorem Grammar.rebuilds_indented {l : Nat} {ws : List Token} (hw : Token.Blank ws)
    (cs : List Char) :
    (nested (l + 1) .atom).Rebuilds (ws.map .leaf ++ [Tree.indented cs]) fun _ => True := by
  have hc : ∀ t ∈ Token.indentedContents cs, t.kind = .stringContent := by
    rw [Token.indentedContents]
    split <;> simp
  have hs := @rebuilds_literal l ws hw Token.pairedQuote (.inr rfl) _ hc
  exact Rebuilds.atom hs hw rfl rfl (.string (.inr rfl))

theorem Grammar.rebuilds_expr_indented (l : Nat) (cs : List Char) :
    (nested (l + 2) .expr).Rebuilds [Tree.indented cs] Ended := by
  have ho : Tree.opening [Tree.indented cs] = some .indentedQuote := rfl
  have hatom : (nested (l + 1) .atom).Rebuilds [Tree.indented cs] fun _ => True :=
    rebuilds_indented Token.blank_nil cs
  have h := rebuilds_expr_atom Token.blank_nil ho rfl hatom fun rest offset _ =>
    lambdaAhead_of_opening ho rfl (by decide) (by decide) rest offset
  rwa [List.map_nil, List.nil_append] at h

theorem Quoted.toList_indented (text : String) :
    (Quoted.indented text).toList = Token.chars (Tree.indented text.toList).leaves := by
  rw [Tree.indented, Rose.leaves, Tree.leavesOf_map_leaf, Token.chars_indented, Quoted.indented]
  simp

theorem Parse.parse_indented (text : String) :
    parse (Quoted.indented text) = ⟨[Tree.indented text.toList], []⟩ := by
  have hr := rebuilds_expr_indented 510 text.toList
  refine parse_of_rebuilds ?_ (Quoted.toList_indented text) hr
  rw [Tree.indented, Rose.leaves, Tree.leavesOf_map_leaf]
  exact Token.lexes_indented _

/-- Every text is the value of a literal between pairs of quotes: with its quotes and dollars
escaped it is read without a problem, as this literal and nothing else. -/
theorem Parse.value?_of_indented (text : String) :
    (parse (Quoted.indented text)).errors = [] ∧
      ∃ n, (parse (Quoted.indented text)).root.elements = [.node n] ∧ n.kind = .string ∧
        StringLiteral.isIndented n = true ∧ StringLiteral.value? n = some text := by
  rw [parse_indented]
  have hv := StringLiteral.value?_indented
    [(Parse.root ⟨[Tree.indented text.toList], []⟩).toSpot] 0 0 text.toList
  rw [String.ofList_toList] at hv
  exact ⟨rfl, _, Node.elements_laid [] 0 0 .root [Tree.indented text.toList], rfl,
    StringLiteral.isIndented_indented .., hv⟩

end

end NixScope.Syntax
