import Mathlib.Data.List.DropRight
import NixScope.Proofs.Lines

namespace NixScope

theorem Position.compare_eq_lt {p q : Position} :
    p.compare q = .lt ↔ p.line < q.line ∨ p.line = q.line ∧ p.col < q.col := by
  rw [compare, Ordering.then_eq_lt, Nat.compare_eq_lt, Nat.compare_eq_eq, Nat.compare_eq_lt]

namespace Lines

def bytes (text : String) : List UInt8 := text.toByteArray.data.toList

/-- The byte of a newline character; it is in no other character. -/
def newline : UInt8 := '\n'.toUInt8

def contents (text : String) : List (List UInt8) := (bytes text).splitOn newline

end Lines

/-- The position is in the text: its line is there, and its column is not behind the end of the
line. -/
def Position.IsIn (p : Position) (text : String) : Prop :=
  ∃ content ∈ (Lines.contents text)[p.line]?, p.col ≤ content.length

instance (p : Position) (text : String) : Decidable (p.IsIn text) :=
  inferInstanceAs (Decidable (∃ content ∈ (Lines.contents text)[p.line]?, p.col ≤ content.length))

namespace Lines

theorem bytes_eq (text : String) : bytes text = text.toList.flatMap String.utf8EncodeChar := by
  rw [bytes, ← String.utf8Encode_toList, List.utf8Encode]
  simp

theorem length_bytes (text : String) : (bytes text).length = text.utf8ByteSize := rfl

theorem length_take {text : String} {o : Nat} (h : o ≤ text.utf8ByteSize) :
    ((bytes text).take o).length = o := List.length_take_of_le h

theorem newline_mem_utf8EncodeChar {c : Char} : newline ∈ String.utf8EncodeChar c ↔ c = '\n' := by
  have hc : c = '\n' ↔ c.val.toNat = 10 := by
    rw [← Char.val_inj, ← UInt32.toNat_inj]
    rfl
  have hb (n : Nat) : newline = UInt8.ofNat n ↔ n % 256 = 10 := by
    rw [← UInt8.toNat_inj, UInt8.toNat_ofNat']
    exact eq_comm
  rw [String.utf8EncodeChar, hc]
  -- All bytes of a longer character are 128 or more.
  split
  · rw [List.mem_singleton, hb]
    omega
  · split
    · simp only [List.mem_cons, List.not_mem_nil, or_false, hb]
      omega
    · split
      · simp only [List.mem_cons, List.not_mem_nil, or_false, hb]
        omega
      · simp only [List.mem_cons, List.not_mem_nil, or_false, hb]
        omega

theorem newline_mem_bytes {text : String} : newline ∈ bytes text ↔ '\n' ∈ text.toList := by
  rw [bytes_eq, List.mem_flatMap]
  simp only [newline_mem_utf8EncodeChar, exists_eq_right]

theorem breaks_eq (offset : Nat) (cs : List Char) :
    breaks offset cs = (cs.flatMap String.utf8EncodeChar).idxsOf newline (offset + 1) := by
  induction cs generalizing offset with
  | nil => rfl
  | cons c cs ih =>
    rw [breaks, ih, List.flatMap_cons, List.idxsOf_append, String.length_utf8EncodeChar,
      Nat.add_right_comm]
    by_cases hc : c = '\n'
    · subst hc
      rfl
    · have hnone : (String.utf8EncodeChar c).idxsOf newline (offset + 1) = [] := by
        rw [List.idxsOf_eq_nil_iff]
        intro b hb
        rw [beq_eq_false_iff_ne]
        rintro rfl
        exact hc (newline_mem_utf8EncodeChar.mp hb)
      rw [if_neg hc, hnone, List.nil_append]

theorem starts_eq (text : String) : (of text).starts = 0 :: (bytes text).idxsOf newline 1 := by
  rw [of, breaks_eq, bytes_eq]

/-- The starts are in order, so any search for the last one that is not behind an offset finds the
same one. -/
theorem pairwise_starts (text : String) : (of text).starts.Pairwise (· < ·) := by
  rw [starts_eq, List.pairwise_cons]
  exact ⟨fun s hs => List.ge_of_mem_idxsOf s hs, List.pairwise_idxsOf⟩

theorem start_le_length {text : String} {s : Nat} (hs : s ∈ (of text).starts) :
    s ≤ text.utf8ByteSize := by
  rw [starts_eq] at hs
  obtain rfl | hs := List.mem_cons.mp hs
  · exact Nat.zero_le _
  · have hlt := List.lt_add_of_mem_idxsOf s hs
    rw [length_bytes] at hlt
    exact Nat.le_of_lt_succ hlt

theorem length_takeWhile_of_pairwise {starts : List Nat} (h : starts.Pairwise (· < ·)) {i s : Nat}
    (hs : starts[i]? = some s) : (starts.takeWhile (· ≤ s)).length = i + 1 := by
  induction i generalizing starts with
  | zero =>
    obtain ⟨rest, rfl⟩ := List.head?_eq_some_iff.mp (List.head?_eq_getElem?.trans hs)
    obtain ⟨hlt, -⟩ := List.pairwise_cons.mp h
    have hrest : rest.takeWhile (· ≤ s) = [] := by
      rw [List.takeWhile_eq_nil_iff]
      intro hpos
      simpa using hlt _ (List.get_mem rest ⟨0, hpos⟩)
    rw [List.takeWhile_cons_of_pos (by simp), hrest]
    rfl
  | succ i ih =>
    cases starts with
    | nil => cases hs
    | cons t rest =>
      obtain ⟨hlt, hrest⟩ := List.pairwise_cons.mp h
      rw [List.getElem?_cons_succ] at hs
      have hts := hlt s (List.mem_of_getElem? hs)
      rw [List.takeWhile_cons_of_pos (by simpa using Nat.le_of_lt hts), List.length_cons,
        ih hrest hs]

/-- An offset divides the starts into those of the bytes in front of it and the others. -/
theorem starts_eq_append {text : String} {o : Nat} (h : o ≤ text.utf8ByteSize) :
    (of text).starts = 0 :: ((bytes text).take o).idxsOf newline 1 ++
      ((bytes text).drop o).idxsOf newline (1 + o) := by
  conv_lhs =>
    rw [starts_eq, ← List.take_append_drop o (bytes text), List.idxsOf_append, length_take h]
  rfl

theorem takeWhile_starts {text : String} {o : Nat} (h : o ≤ text.utf8ByteSize) :
    (of text).starts.takeWhile (· ≤ o) = 0 :: ((bytes text).take o).idxsOf newline 1 := by
  have hfront : ∀ s ∈ 0 :: ((bytes text).take o).idxsOf newline 1, decide (s ≤ o) = true := by
    intro s hs
    rw [decide_eq_true_eq]
    obtain rfl | hs := List.mem_cons.mp hs
    · exact Nat.zero_le o
    · have hlt := List.lt_add_of_mem_idxsOf s hs
      rw [length_take h] at hlt
      exact Nat.le_of_lt_succ hlt
  have hbehind : (((bytes text).drop o).idxsOf newline (1 + o)).takeWhile (· ≤ o) = [] := by
    rw [List.takeWhile_eq_nil_iff]
    intro hpos
    have hle := List.ge_of_mem_idxsOf _ (List.get_mem _ ⟨0, hpos⟩)
    rw [decide_eq_true_eq]
    omega
  rw [starts_eq_append h, List.takeWhile_append_of_pos hfront, hbehind, List.append_nil]

/-- The last start in front of some bytes is as far from their end as their last newline. -/
theorem exists_last_start (xs : List UInt8) :
    ∃ s, (0 :: xs.idxsOf newline 1)[xs.count newline]? = some s ∧
      s + (xs.rtakeWhile (· != newline)).length = xs.length := by
  induction xs using List.reverseRecOn with
  | nil => exact ⟨0, rfl, rfl⟩
  | append_singleton xs b ih =>
    by_cases hb : b = newline
    · subst hb
      refine ⟨xs.length + 1, ?_, ?_⟩
      · rw [List.idxsOf_append, List.count_append, List.count_singleton_self,
          List.getElem?_cons_succ]
        simp [Nat.add_comm]
      · rw [List.rtakeWhile_concat_neg _ _ _ (by simp), List.length_append]
        rfl
    · obtain ⟨s, hs, hlength⟩ := ih
      refine ⟨s, ?_, ?_⟩
      · rw [List.idxsOf_append, List.count_append]
        simpa [hb] using hs
      · rw [List.rtakeWhile_concat_pos _ _ _ (by simpa using hb), List.length_append,
          List.length_append, ← Nat.add_assoc, hlength]

theorem length_splitOn (xs : List UInt8) :
    (xs.splitOn newline).length = xs.count newline + 1 := by
  induction xs with
  | nil => rfl
  | cons b xs ih =>
    rw [List.splitOn, List.splitOnP_cons_eq_if_modifyHead, List.count_cons]
    split
    · rw [List.length_cons, ← List.splitOn, ih]
    · rw [List.length_modifyHead, ← List.splitOn, ih]

theorem head?_splitOn (xs : List UInt8) :
    (xs.splitOn newline).head? = some (xs.takeWhile (· != newline)) := by
  induction xs with
  | nil => rfl
  | cons b xs ih =>
    rw [List.splitOn, List.splitOnP_cons_eq_if_modifyHead, ← List.splitOn]
    by_cases hb : b = newline
    · subst hb
      rw [if_pos (by simp), List.takeWhile_cons_of_neg (by simp)]
      rfl
    · rw [if_neg (by simpa using hb), List.head?_modifyHead, ih,
        List.takeWhile_cons_of_pos (by simpa using hb)]
      rfl

/-- The piece that two parts share runs from the last newline of the first part to the first one of
the second part. -/
theorem splitOn_append_at (xs ys : List UInt8) : ((xs ++ ys).splitOn newline)[xs.count newline]? =
    some (xs.rtakeWhile (· != newline) ++ ys.takeWhile (· != newline)) := by
  induction xs using List.reverseRecOn generalizing ys with
  | nil =>
    rw [List.nil_append, List.count_nil, ← List.head?_eq_getElem?, head?_splitOn]
    rfl
  | append_singleton xs b ih =>
    rw [List.append_assoc, List.singleton_append, List.count_append]
    by_cases hb : b = newline
    · subst hb
      rw [List.splitOn, List.splitOnP_append_cons xs ys (by simp), ← List.splitOn, ← List.splitOn,
        List.count_singleton_self, ← length_splitOn, List.getElem?_append_right (Nat.le_refl _),
        Nat.sub_self, ← List.head?_eq_getElem?, head?_splitOn,
        List.rtakeWhile_concat_neg _ _ _ (by simp)]
      rfl
    · have hother : (b != newline) = true := by simpa using hb
      have hnone : [b].count newline = 0 :=
        List.count_eq_zero_of_not_mem (by simpa using Ne.symm hb)
      rw [hnone, Nat.add_zero, ih, List.takeWhile_cons, if_pos hother,
        List.rtakeWhile_concat_pos (· != newline) _ _ hother, List.append_assoc,
        List.singleton_append]

theorem lt_modulus {l : Lines} {o : Nat} (h : o ≤ l.length) : o < l.modulus :=
  Nat.lt_of_lt_of_le (Nat.lt_succ_of_le h) (Nat.le_max_right _ _)

theorem modulus_eq {l : Lines} (h : l.length < UInt32.size) : l.modulus = UInt32.size :=
  Nat.max_eq_left h

theorem offset?_eq_some {l : Lines} {p : Position} {o : Nat} :
    l.offset? p = some o ↔
      ∃ s, l.starts[p.line]? = some s ∧ (s + p.col) % l.modulus = o ∧ o ≤ l.length := by
  rw [offset?, Option.filter_eq_some_iff, Option.map_eq_some_iff]
  simp only [decide_eq_true_eq]
  constructor
  · rintro ⟨⟨s, hs, rfl⟩, hle⟩
    exact ⟨s, hs, rfl, hle⟩
  · rintro ⟨s, hs, rfl, hle⟩
    exact ⟨⟨s, hs, rfl⟩, hle⟩

theorem offset?_of_le {l : Lines} {p : Position} {s : Nat} (hs : l.starts[p.line]? = some s)
    (hle : s + p.col ≤ l.length) : l.offset? p = some (s + p.col) :=
  offset?_eq_some.mpr ⟨s, hs, Nat.mod_eq_of_lt (lt_modulus hle), hle⟩

section

variable {text : String} {o : Nat} (h : o ≤ text.utf8ByteSize)

include h

theorem start_line : ∃ s, (of text).starts[((bytes text).take o).count newline]? = some s ∧
    s + (((bytes text).take o).rtakeWhile (· != newline)).length = o := by
  obtain ⟨s, hs, hlength⟩ := exists_last_start ((bytes text).take o)
  rw [length_take h] at hlength
  obtain ⟨hlt, -⟩ := List.getElem?_eq_some_iff.mp hs
  exact ⟨s, by rw [starts_eq_append h, List.getElem?_append_left hlt, hs], hlength⟩

theorem position_eq : (of text).position o =
    ⟨((bytes text).take o).count newline,
      (((bytes text).take o).rtakeWhile (· != newline)).length⟩ := by
  obtain ⟨s, hs, hlength⟩ := start_line h
  have hmin : min o (of text).length = o := Nat.min_eq_left h
  rw [position, hmin, takeWhile_starts h, List.length_cons, List.length_idxsOf, Nat.add_sub_cancel,
    List.getD_eq_getElem?_getD, hs, Option.getD_some, ← hlength, Nat.add_sub_cancel_left, hlength]

theorem offset?_position : (of text).offset? ((of text).position o) = some o := by
  obtain ⟨s, hs, hlength⟩ := start_line h
  rw [position_eq h]
  exact (offset?_of_le hs (by rw [hlength]; exact h)).trans (congrArg some hlength)

theorem contents_line : (contents text)[((of text).position o).line]? =
    some (((bytes text).take o).rtakeWhile (· != newline) ++
      ((bytes text).drop o).takeWhile (· != newline)) := by
  rw [contents, position_eq h, ← splitOn_append_at, List.take_append_drop]

theorem position_lt {o' : Nat} (ho : o' < o) :
    ((of text).position o').compare ((of text).position o) = .lt := by
  have hline := line_le_of_le (of text) (Nat.le_of_lt ho)
  rw [Position.compare_eq_lt]
  by_cases hl : ((of text).position o').line = ((of text).position o).line
  · have hcol := col_of_line_eq (Nat.le_of_lt ho) h hl
    exact .inr ⟨hl, by omega⟩
  · exact .inl (Nat.lt_of_le_of_ne hline hl)

end

theorem position_of_length_le {text : String} {o : Nat} (h : text.utf8ByteSize ≤ o) :
    (of text).position o = (of text).position text.utf8ByteSize := by
  have ho : min o (of text).length = text.utf8ByteSize := Nat.min_eq_right h
  have hend : min text.utf8ByteSize (of text).length = text.utf8ByteSize := Nat.min_self _
  rw [position, position, ho, hend]

/-- Every offset up to the length has a position of its own: the newlines in front of it, and the
bytes since the last of them. It leads back to the offset, and the positions of a text are in the
order of the offsets. All offsets behind the text have the position of its end. -/
theorem position_exact (text : String) :
    (∀ o ≤ text.utf8ByteSize,
      (of text).position o =
        ⟨((bytes text).take o).count newline,
          (((bytes text).take o).rtakeWhile (· != newline)).length⟩ ∧
      (of text).offset? ((of text).position o) = some o ∧
      ∀ o' < o, ((of text).position o').compare ((of text).position o) = .lt) ∧
    ∀ o > text.utf8ByteSize, (of text).position o = (of text).position text.utf8ByteSize :=
  ⟨fun _ h => ⟨position_eq h, offset?_position h, fun _ ho => position_lt h ho⟩,
    fun _ h => position_of_length_le (Nat.le_of_lt h)⟩

theorem position_exact_inside :
    1 < 4 ∧ 4 ≤ "é\nx".utf8ByteSize ∧ "é\nx".utf8ByteSize < 9 ∧
      (of "é\nx").position 4 = ⟨1, 1⟩ ∧ (of "é\nx").offset? ⟨1, 1⟩ = some 4 ∧
      ((of "é\nx").position 1).compare ((of "é\nx").position 4) = .lt ∧
      (of "é\nx").position 9 = (of "é\nx").position "é\nx".utf8ByteSize := by
  have h : 4 ≤ "é\nx".utf8ByteSize := by decide +kernel
  have hpast : "é\nx".utf8ByteSize < 9 := by decide +kernel
  obtain ⟨hposition, hoffset, hlt⟩ := (position_exact "é\nx").1 4 h
  have hat : (of "é\nx").position 4 = ⟨1, 1⟩ := hposition.trans (by decide +kernel)
  rw [hat] at hoffset
  exact ⟨by decide, h, hpast, hat, hoffset, hlt 1 (by decide),
    (position_exact "é\nx").2 9 hpast⟩

theorem length_starts (text : String) : (of text).starts.length = (contents text).length := by
  rw [starts_eq, List.length_cons, List.length_idxsOf, contents, length_splitOn]

theorem position_start {text : String} {i s : Nat} (hs : (of text).starts[i]? = some s) :
    (of text).position s = ⟨i, 0⟩ := by
  have hmin : min s (of text).length = s :=
    Nat.min_eq_left (start_le_length (List.mem_of_getElem? hs))
  rw [position, hmin, length_takeWhile_of_pairwise (pairwise_starts text) hs, Nat.add_sub_cancel,
    List.getD_eq_getElem?_getD, hs, Option.getD_some, Nat.sub_self]

theorem position_add {text : String} {p : Position} {s : Nat}
    (hs : (of text).starts[p.line]? = some s) (hle : s + p.col ≤ text.utf8ByteSize)
    (hline : ((of text).position (s + p.col)).line = p.line) :
    (of text).position (s + p.col) = p := by
  have hstart := position_start hs
  have hcol := col_of_line_eq (Nat.le_add_right s p.col) hle (by rw [hstart, hline])
  rw [hstart, Nat.zero_add, Nat.add_sub_cancel_left] at hcol
  cases p
  exact (Position.mk.injEq ..).mpr ⟨hline, hcol⟩

theorem isIn_position (text : String) (o : Nat) : ((of text).position o).IsIn text := by
  wlog h : o ≤ text.utf8ByteSize
  · rw [position_of_length_le (Nat.le_of_not_le h)]
    exact this text _ (Nat.le_refl _)
  · refine ⟨_, contents_line h, ?_⟩
    rw [position_eq h, List.length_append]
    exact Nat.le_add_right _ _

theorem line_add {text : String} {s col : Nat} (h : s ≤ text.utf8ByteSize)
    (hcol : col ≤ (((bytes text).drop s).takeWhile (· != newline)).length) :
    s + col ≤ text.utf8ByteSize ∧
      ((of text).position (s + col)).line = ((of text).position s).line := by
  have hprefix := List.takeWhile_prefix (· != newline) (l := (bytes text).drop s)
  have hle : s + col ≤ text.utf8ByteSize := by
    have hlength := hprefix.length_le
    rw [List.length_drop, length_bytes] at hlength
    omega
  have hnone : (((bytes text).drop s).take col).count newline = 0 := by
    rw [List.count_eq_zero]
    intro hmem
    have hin := (List.take_prefix_take_left hcol).subset hmem
    rw [← List.prefix_iff_eq_take.mp hprefix] at hin
    simpa using List.mem_takeWhile_imp hin
  refine ⟨hle, ?_⟩
  rw [position_eq hle, position_eq h, List.take_add, List.count_append, hnone, Nat.add_zero]

/-- A position in the text is the position of an offset, and is converted to this offset. -/
theorem exists_offset? {text : String} {p : Position} (hp : p.IsIn text) :
    ∃ o, (of text).offset? p = some o ∧ (of text).position o = p := by
  obtain ⟨content, hcontent, hcol⟩ := hp
  obtain ⟨hlt, -⟩ := List.getElem?_eq_some_iff.mp hcontent
  rw [← length_starts] at hlt
  obtain ⟨s, hs⟩ : ∃ s, (of text).starts[p.line]? = some s :=
    ⟨_, List.getElem?_eq_getElem hlt⟩
  have hsle := start_le_length (List.mem_of_getElem? hs)
  have hstart := position_start hs
  have hfront : (((bytes text).take s).rtakeWhile (· != newline)).length = 0 := by
    rw [position_eq hsle, Position.mk.injEq] at hstart
    exact hstart.2
  have hline := contents_line hsle
  rw [hstart, Option.mem_def.mp hcontent, Option.some.injEq] at hline
  rw [hline, List.length_append, hfront, Nat.zero_add] at hcol
  obtain ⟨hle, hsame⟩ := line_add hsle hcol
  rw [hstart] at hsame
  exact ⟨s + p.col, offset?_of_le hs hle, position_add hs hle hsame⟩

section

variable {text : String} {p : Position} {o : Nat} (h : (of text).offset? p = some o)

include h

theorem position_eq_iff_isIn : (of text).position o = p ↔ p.IsIn text := by
  constructor
  · rintro rfl
    exact isIn_position text o
  · intro hp
    obtain ⟨o', ho', hposition⟩ := exists_offset? hp
    rw [h, Option.some.injEq] at ho'
    rw [ho', hposition]

variable {s : Nat} (hs : (of text).starts[p.line]? = some s)

include hs

/-- A column behind the end of its line counts on into the lines below. -/
theorem line_lt_of_not_isIn (hfits : s + p.col < (of text).modulus) (hp : ¬p.IsIn text) :
    p.line < ((of text).position o).line := by
  obtain ⟨s', hs', ho, hle⟩ := offset?_eq_some.mp h
  obtain rfl := Option.some.inj (hs.symm.trans hs')
  rw [Nat.mod_eq_of_lt hfits] at ho
  subst ho
  have hstart := position_start hs
  have hline := line_le_of_le (of text) (Nat.le_add_right s p.col)
  rw [hstart] at hline
  refine Nat.lt_of_le_of_ne hline fun hsame => hp ?_
  exact (position_eq_iff_isIn h).mp (position_add hs hle hsame.symm)

/-- A sum beyond the last offset comes out in front of the line. -/
theorem line_lt_of_overflow (hcol : p.col < (of text).modulus)
    (hover : (of text).modulus ≤ s + p.col) :
    ((of text).position o).line < p.line := by
  obtain ⟨s', hs', ho, -⟩ := offset?_eq_some.mp h
  obtain rfl := Option.some.inj (hs.symm.trans hs')
  have hsle := start_le_length (List.mem_of_getElem? hs)
  have hslt : s < (of text).modulus := lt_modulus hsle
  rw [Nat.mod_eq_sub_mod hover, Nat.mod_eq_of_lt (by omega)] at ho
  have hos : o < s := by omega
  have hlt := position_lt hsle hos
  rw [position_start hs, Position.compare_eq_lt] at hlt
  obtain hlt | ⟨-, hlt⟩ := hlt
  · exact hlt
  · exact absurd hlt (Nat.not_lt_zero _)

end

theorem exists_position_ne {text : String} (h : newline ∈ bytes text) :
    ∃ p o, p.col < (of text).modulus ∧ (of text).offset? p = some o ∧
      (of text).position o ≠ p := by
  obtain ⟨front, behind, hsplit⟩ := List.append_of_mem h
  have hle : front.length + 1 ≤ text.utf8ByteSize := by
    rw [← length_bytes, hsplit, List.length_append, List.length_cons]
    omega
  have hstart : (of text).starts[0]? = some 0 := by
    rw [starts_eq]
    rfl
  have hoffset : (of text).offset? ⟨0, front.length + 1⟩ = some (0 + (front.length + 1)) :=
    offset?_of_le hstart (by rw [Nat.zero_add]; exact hle)
  rw [Nat.zero_add] at hoffset
  refine ⟨⟨0, front.length + 1⟩, front.length + 1, lt_modulus hle, hoffset, ?_⟩
  intro heq
  have hline := congrArg Position.line heq
  rw [position_eq hle, hsplit] at hline
  simp [List.take_append] at hline

/-- An offset that a position is converted to has this position exactly if the position is in the
text, and all positions in the text are converted. Another position that is converted comes out on a
later line, or on an earlier one if its sum is too large for an offset. In every text of more than
one line there are such positions. -/
theorem position_offset?_iff (text : String) :
    (text.utf8ByteSize < UInt32.size → (of text).modulus = UInt32.size) ∧
    (∀ p o, (of text).offset? p = some o → ((of text).position o = p ↔ p.IsIn text)) ∧
    (∀ p : Position, p.IsIn text → ∃ o, (of text).offset? p = some o) ∧
    (∀ p o s, p.col < (of text).modulus → (of text).offset? p = some o → ¬p.IsIn text →
      (of text).starts[p.line]? = some s →
      if s + p.col < (of text).modulus then p.line < ((of text).position o).line
      else ((of text).position o).line < p.line) ∧
    ((∀ p o, p.col < (of text).modulus → (of text).offset? p = some o →
      (of text).position o = p) ↔ '\n' ∉ text.toList) := by
  refine ⟨@modulus_eq (of text), fun p o h => position_eq_iff_isIn h, fun p hp => ?_,
    fun p o s hcol h hp hs => ?_, ?_⟩
  · obtain ⟨o, ho, -⟩ := exists_offset? hp
    exact ⟨o, ho⟩
  · split
    · rename_i hfits
      exact line_lt_of_not_isIn h hs hfits hp
    · rename_i hover
      exact line_lt_of_overflow h hs hcol (Nat.le_of_not_lt hover)
  · rw [← newline_mem_bytes]
    constructor
    · intro hall hmem
      obtain ⟨p, o, hcol, ho, hne⟩ := exists_position_ne hmem
      exact hne (hall p o hcol ho)
    · intro hnone p o hcol ho
      rw [position_eq_iff_isIn ho]
      by_contra hp
      obtain ⟨s, hs, -, hle⟩ := offset?_eq_some.mp ho
      have hlength : (of text).starts.length = 1 := by
        rw [starts_eq, List.length_cons, List.length_idxsOf, List.count_eq_zero.mpr hnone]
      have hline : p.line = 0 := by
        have hlt := (List.getElem?_eq_some_iff.mp hs).1
        omega
      have hstart : s = 0 := by
        rw [hline, starts_eq] at hs
        exact (Option.some.inj hs).symm
      have hlt := line_lt_of_not_isIn ho hs (by rwa [hstart, Nat.zero_add]) hp
      have hzero : ((bytes text).take o).count newline = 0 :=
        List.count_eq_zero.mpr fun hmem => hnone (List.mem_of_mem_take hmem)
      rw [position_eq hle, hzero] at hlt
      exact Nat.not_lt_zero _ hlt

theorem position_offset?_iff_at :
    (of "a\nbc\n").offset? ⟨1, 2⟩ = some 4 ∧ (⟨1, 2⟩ : Position).IsIn "a\nbc\n" ∧
      (of "a\nbc\n").position 4 = ⟨1, 2⟩ ∧
      (of "a\nbc\n").offset? ⟨0, 3⟩ = some 3 ∧ 0 < ((of "a\nbc\n").position 3).line ∧
      (of "a\nbc\n").offset? ⟨1, 4294967295⟩ = some 1 ∧
      ((of "a\nbc\n").position 1).line < 1 := by
  have h : (of "a\nbc\n").offset? ⟨1, 2⟩ = some 4 := by decide +kernel
  have hp : (⟨1, 2⟩ : Position).IsIn "a\nbc\n" := by decide +kernel
  have hpast : (of "a\nbc\n").offset? ⟨0, 3⟩ = some 3 := by decide +kernel
  have hover : (of "a\nbc\n").offset? ⟨1, 4294967295⟩ = some 1 := by decide +kernel
  obtain ⟨-, hiff, -, hother, -⟩ := position_offset?_iff "a\nbc\n"
  have hlater := hother ⟨0, 3⟩ 3 0 (by decide +kernel) hpast (by decide +kernel) (by decide +kernel)
  have hearlier := hother ⟨1, 4294967295⟩ 1 2 (by decide +kernel) hover (by decide +kernel)
    (by decide +kernel)
  rw [if_pos (by decide +kernel)] at hlater
  rw [if_neg (by decide +kernel)] at hearlier
  exact ⟨h, hp, (hiff _ _ h).mpr hp, hpast, hlater, hover, hearlier⟩

/-- A column behind the end of the first line is converted to the same offset as a position on the
second line. -/
theorem exists_offset?_past_line :
    (of "a\nbc\n").offset? ⟨0, 3⟩ = some 3 ∧ (of "a\nbc\n").position 3 = ⟨1, 1⟩ ∧
      (of "a\nbc\n").offset? ⟨1, 1⟩ = some 3 := by
  decide +kernel

end Lines

end NixScope
