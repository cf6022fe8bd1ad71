import NixScope.Text.Lines

namespace NixScope.Lines

theorem line_le_of_le (l : Lines) {o o' : Nat} (h : o ≤ o') :
    (l.position o).line ≤ (l.position o').line := by
  have hp : l.starts.takeWhile (· ≤ min o l.length) <+:
      l.starts.takeWhile (· ≤ min o' l.length) := by
    rw [List.takeWhile_eq_take_findIdx_not, List.takeWhile_eq_take_findIdx_not]
    apply List.take_prefix_take_left
    apply List.findIdx_le_findIdx
    intro start _ hs
    simp only [Bool.not_eq_true', decide_eq_false_iff_not] at hs ⊢
    omega
  exact Nat.sub_le_sub_right hp.length_le 1

theorem start_le (text : String) (o : Nat) :
    (of text).starts.getD ((of text).position o).line 0 ≤ min o (of text).length := by
  have hline : ((of text).position o).line <
      ((of text).starts.takeWhile (· ≤ min o (of text).length)).length := by
    rw [position, of]
    simp
  have hget := (List.takeWhile_prefix (· ≤ min o (of text).length)).getElem hline
  have hmem := List.getElem_mem hline
  have hle := List.all_eq_true.mp List.all_takeWhile _ hmem
  rw [hget, decide_eq_true_eq] at hle
  rwa [List.getD_eq_getElem?_getD, List.getElem?_eq_getElem, Option.getD_some]

theorem start_add_col (text : String) (o : Nat) :
    (of text).starts.getD ((of text).position o).line 0 + ((of text).position o).col =
      min o (of text).length :=
  Nat.add_sub_of_le (start_le text o)

theorem col_of_line_eq {text : String} {o o' : Nat} (h : o ≤ o') (ho : o' ≤ text.utf8ByteSize)
    (hl : ((of text).position o).line = ((of text).position o').line) :
    ((of text).position o').col = ((of text).position o).col + (o' - o) := by
  have hs := start_add_col text o
  have hs' := start_add_col text o'
  have hlength : (of text).length = text.utf8ByteSize := rfl
  rw [hl] at hs
  omega

end NixScope.Lines
