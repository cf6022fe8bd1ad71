import Mathlib.Data.List.Basic
import NixScope.Check.Checker
import NixScope.Editor.Highlight
import NixScope.Proofs.Lines
import NixScope.Proofs.References
import NixScope.Proofs.Resolution

namespace NixScope

open Syntax

namespace Usage

section

variable {root : Node} (h : root.Rooted) {u v : Usage} (hu : u ∈ under root) (hv : v ∈ under root)

include h hu hv

/-- A usage inside of another one does not overlap a segment of that which is known without
evaluation, and starts behind it if it is the first segment. -/
theorem apart_of_mem_inside (hi : .node v.element ∈ u.element.inside) {i : Nat} {s : Segment}
    (hs : u.segments[i]? = some s) {name : String} (hname : s.name = .static name) :
    s.node.range.stop ≤ v.element.range.start ∨
      0 < i ∧ v.element.range.stop ≤ s.node.range.start := by
  obtain ⟨k, a, ha, hak, hva⟩ | hbehind := mem_segment_or_behind h hv hu hi
  · have had := mem_root_of_mem_segments h hu (List.mem_of_getElem? ha)
    have hc := Node.contains_of_mem_inside (h.wellPlaced_of_mem had) hva
    have hc : a.range.start ≤ v.element.range.start ∧ v.element.range.stop ≤ a.range.stop := hc
    obtain hik | rfl | hik := Nat.lt_trichotomy i k
    · have hsa : s.node.range.stop < a.range.start := stop_lt_of_lt h hu hs ha hik
      omega
    · rw [hs, Option.some.injEq] at ha
      subst ha
      exact absurd hva (not_mem_inside_of_static h hv hu hs hak hname)
    · have has : a.range.stop < s.node.range.start := stop_lt_of_lt h hu ha hs hik
      omega
  · exact .inl (hbehind s (List.mem_of_getElem? hs))

/-- Segments of two usages do not overlap if that of the outer or earlier usage is known without
evaluation. -/
theorem segments_apart (huv : .node v.element ∈ u.element.inside ∨
      u.element.range.stop ≤ v.element.range.start) {i : Nat} {s t : Segment}
    (hs : u.segments[i]? = some s) {name : String} (hname : s.name = .static name)
    (ht : t ∈ v.segments) :
    s.node.range.stop ≤ t.node.range.start ∨
      0 < i ∧ t.node.range.stop ≤ s.node.range.start := by
  have hcs := contains_of_mem_segments h hu (List.mem_of_getElem? hs)
  have hct := contains_of_mem_segments h hv ht
  obtain hi | hb := huv
  · obtain hle | hle := apart_of_mem_inside h hu hv hi hs hname
    · omega
    · omega
  · omega

end

end Usage

namespace Highlight

def Before (a b : Highlight) : Prop :=
  a.line < b.line ∨ a.line = b.line ∧ a.col + a.length ≤ b.col

theorem Before.not_before {a b : Highlight} (h : a.Before b) (ha : 0 < a.length) :
    ¬ b.Before a := by
  simp only [Before] at h ⊢
  omega

theorem ofSegment?_eq_some {lines : Lines} {s : Segment} {style : Style} {a : Highlight} :
    ofSegment? lines s style = some a ↔ s.name.isDynamic = false ∧
      (lines.position s.node.range.start).line = (lines.position s.node.range.stop).line ∧
      a = ⟨(lines.position s.node.range.start).line, (lines.position s.node.range.start).col,
        s.node.range.stop - s.node.range.start, style⟩ := by
  rw [ofSegment?, Option.ite_none_left_eq_some]
  simp only [Lines.span, Bool.or_eq_true, bne_iff_ne, ne_eq, not_or, Bool.not_eq_true,
    Decidable.not_not, Option.some.injEq, and_assoc]
  exact and_congr_right fun _ => and_congr_right fun _ => eq_comm

theorem exists_static {lines : Lines} {s : Segment} {style : Style} {a : Highlight}
    (ha : ofSegment? lines s style = some a) : ∃ name, s.name = .static name := by
  obtain ⟨hd, -⟩ := ofSegment?_eq_some.mp ha
  cases hs : s.name with
  | static name => exact ⟨name, rfl⟩
  | dynamic p => simp [hs, Attribute.isDynamic] at hd

theorem before_of_le {text : String} {s t : Segment} {σ τ : Style} {a b : Highlight}
    (ha : ofSegment? (.of text) s σ = some a) (hb : ofSegment? (.of text) t τ = some b)
    (hs : s.node.range.start ≤ s.node.range.stop)
    (hle : s.node.range.stop ≤ t.node.range.start)
    (ht : t.node.range.start ≤ text.utf8ByteSize) : a.Before b := by
  obtain ⟨-, hls, rfl⟩ := ofSegment?_eq_some.mp ha
  obtain ⟨-, -, rfl⟩ := ofSegment?_eq_some.mp hb
  have hline := Lines.line_le_of_le (.of text) hle
  by_cases hl : ((Lines.of text).position s.node.range.stop).line =
      ((Lines.of text).position t.node.range.start).line
  · have hcs := Lines.col_of_line_eq hs (Nat.le_trans hle ht) hls
    have hct := Lines.col_of_line_eq hle ht hl
    exact .inr ⟨hls.trans hl, by dsimp only; omega⟩
  · exact .inl (by dsimp only; omega)

theorem mem_ofUsage {lines : Lines} {root : Node} {u : Usage} {a : Highlight} :
    a ∈ ofUsage lines root u ↔ ∃ i s, u.segments[i]? = some s ∧
      ofSegment? lines s (.of i ((Resolution.of root u).symbols i)) = some a := by
  rw [ofUsage, List.mem_filterMap]
  constructor
  · rintro ⟨⟨s, i⟩, hs, ha⟩
    exact ⟨i, s, List.mem_zipIdx_iff_getElem?.mp hs, ha⟩
  · rintro ⟨i, s, hs, ha⟩
    exact ⟨(s, i), List.mem_zipIdx_iff_getElem?.mpr hs, ha⟩

section

variable {text : String} {u v : Usage} (hu : u ∈ Usage.under (parse text).root)
  (hv : v ∈ Usage.under (parse text).root)

include hu

theorem range_of_static {s : Segment} (hs : s ∈ u.segments) {name : String}
    (hname : s.name = .static name) :
    s.node.range.start < s.node.range.stop ∧ s.node.range.stop ≤ text.utf8ByteSize := by
  have h := Parse.rooted text
  refine ⟨Usage.range_lt_of_static h hu hs hname, ?_⟩
  have hn := Usage.mem_root_of_mem_segments h hu hs
  have hc := Range.contains_iff.mp (h.wellPlaced.contains_of_mem hn)
  rw [← Parse.stop_root]
  exact hc.2

theorem length_pos_of_mem {a : Highlight} (ha : a ∈ ofUsage (.of text) (parse text).root u) :
    0 < a.length := by
  obtain ⟨i, s, hs, ha⟩ := mem_ofUsage.mp ha
  obtain ⟨name, hname⟩ := exists_static ha
  obtain ⟨-, -, rfl⟩ := ofSegment?_eq_some.mp ha
  exact Nat.sub_pos_of_lt (range_of_static hu (List.mem_of_getElem? hs) hname).1

theorem pairwise_ofUsage :
    (ofUsage (.of text) (parse text).root u).Pairwise Before := by
  have hp := Usage.pairwise_segments (Parse.rooted text) hu
  rw [← List.zipIdx_map_fst 0 u.segments, List.pairwise_map] at hp
  rw [ofUsage, List.pairwise_filterMap]
  refine (List.Pairwise.and_mem.mp hp).imp ?_
  rintro ⟨s, i⟩ ⟨t, k⟩ ⟨hs, ht, hlt⟩ a ha b hb
  obtain ⟨name, hname⟩ := exists_static ha
  obtain ⟨name', hname'⟩ := exists_static hb
  have hs := List.mem_of_getElem? (List.mem_zipIdx_iff_getElem?.mp hs)
  have ht := List.mem_of_getElem? (List.mem_zipIdx_iff_getElem?.mp ht)
  have hrs := range_of_static hu hs hname
  have hrt := range_of_static hu ht hname'
  exact before_of_le ha hb (by omega) (Nat.le_of_lt hlt) (by omega)

include hv

theorem apart_of_mem (huv : .node v.element ∈ u.element.inside ∨
      u.element.range.stop ≤ v.element.range.start) {i : Nat} {s t : Segment} {σ τ : Style}
    {a b : Highlight} (hs : u.segments[i]? = some s) (ha : ofSegment? (.of text) s σ = some a)
    (ht : t ∈ v.segments) (hb : ofSegment? (.of text) t τ = some b) :
    a.Before b ∨ 0 < i ∧ b.Before a := by
  obtain ⟨name, hname⟩ := exists_static ha
  obtain ⟨name', hname'⟩ := exists_static hb
  have hrs := range_of_static hu (List.mem_of_getElem? hs) hname
  have hrt := range_of_static hv ht hname'
  obtain hle | ⟨hi, hle⟩ := Usage.segments_apart (Parse.rooted text) hu hv huv hs hname ht
  · exact .inl (before_of_le ha hb (by omega) hle (by omega))
  · exact .inr ⟨hi, before_of_le hb ha (by omega) hle (by omega)⟩

end

theorem le_trans (a b c : Highlight) (hab : le a b = true) (hbc : le b c = true) :
    le a c = true := by
  simp only [le, Bool.or_eq_true, Bool.and_eq_true, decide_eq_true_eq, beq_iff_eq] at hab hbc ⊢
  omega

theorem le_total (a b : Highlight) : (le a b || le b a) = true := by
  simp only [le, Bool.or_eq_true, Bool.and_eq_true, decide_eq_true_eq, beq_iff_eq]
  omega

end Highlight

namespace Document

open Highlight

theorem highlights_perm (path : Path) (text : String) :
    (Document.of path text).highlights.Perm ((Usage.under (Syntax.parse text).root).flatMap
      (ofUsage (.of text) (Syntax.parse text).root)) :=
  List.mergeSort_perm _ le

theorem mem_highlights {path : Path} {text : String} {a : Highlight} :
    a ∈ (Document.of path text).highlights ↔ ∃ u ∈ Usage.under (Syntax.parse text).root,
      a ∈ ofUsage (.of text) (Syntax.parse text).root u := by
  rw [(highlights_perm path text).mem_iff, List.mem_flatMap]

theorem length_pos_of_mem_highlights {path : Path} {text : String} {a : Highlight}
    (ha : a ∈ (Document.of path text).highlights) : 0 < a.length := by
  obtain ⟨u, hu, ha⟩ := mem_highlights.mp ha
  exact Highlight.length_pos_of_mem hu ha

theorem pairwise_highlights (path : Path) (text : String) :
    (Document.of path text).highlights.Pairwise Before := by
  have hapart : ((Usage.under (Syntax.parse text).root).flatMap
      (ofUsage (.of text) (Syntax.parse text).root)).Pairwise
        fun a b => a.Before b ∨ b.Before a := by
    rw [List.pairwise_flatMap]
    refine ⟨fun u hu => (pairwise_ofUsage hu).imp .inl, ?_⟩
    refine (List.Pairwise.and_mem.mp (Usage.pairwise_under (Parse.rooted text))).imp ?_
    rintro u v ⟨hu, hv, huv⟩ a ha b hb
    obtain ⟨i, s, hs, ha⟩ := mem_ofUsage.mp ha
    obtain ⟨k, t, ht, hb⟩ := mem_ofUsage.mp hb
    exact (apart_of_mem hu hv huv hs ha (List.mem_of_getElem? ht) hb).imp_right And.right
  have hsorted : (Document.of path text).highlights.Pairwise fun a b => le a b = true :=
    List.pairwise_mergeSort le_trans le_total _
  have happ := (highlights_perm path text).symm.pairwise hapart Or.symm
  refine (List.Pairwise.and_mem.mp (hsorted.and happ)).imp ?_
  rintro a b ⟨-, hb, hle, hab | hba⟩
  · exact hab
  · have hpos := length_pos_of_mem_highlights hb
    simp only [le, Bool.or_eq_true, Bool.and_eq_true, decide_eq_true_eq, beq_iff_eq] at hle
    simp only [Before] at hba
    omega

/-- The highlights of every text stand in the order of their places, none is empty, and none reaches
into the next one. There is one for each segment on one line that is known without evaluation. -/
theorem highlights_apart (path : Path) (text : String) :
    let d := Document.of path text
    d.highlights.Pairwise (fun a b => a.line < b.line ∨ a.line = b.line ∧ a.col < b.col) ∧
      (∀ a ∈ d.highlights, 0 < a.length) ∧
      d.highlights.Pairwise (fun a b => a.line = b.line → a.col + a.length ≤ b.col) ∧
      ∀ u ∈ Usage.under d.root, ∀ s ∈ u.segments, s.name.isDynamic = false →
        (d.lines.span s.node.range).1.line = (d.lines.span s.node.range).2.line →
        ∃ a ∈ d.highlights, (⟨a.line, a.col⟩ : Position) = d.lines.position s.node.range.start ∧
          a.length = s.node.range.stop - s.node.range.start := by
  intro d
  have hp := pairwise_highlights path text
  refine ⟨?_, fun a ha => length_pos_of_mem_highlights ha, ?_, ?_⟩
  · refine (List.Pairwise.and_mem.mp hp).imp ?_
    rintro a b ⟨ha, -, hab⟩
    have hpos := length_pos_of_mem_highlights ha
    simp only [Before] at hab
    omega
  · refine hp.imp ?_
    intro a b hab hl
    simp only [Before] at hab
    omega
  · intro u hu s hs hname hline
    obtain ⟨i, hi, rfl⟩ := List.getElem_of_mem hs
    have ha : ofSegment? d.lines u.segments[i] (.of i ((Resolution.of d.root u).symbols i)) =
        some _ :=
      ofSegment?_eq_some.mpr ⟨hname, hline, rfl⟩
    exact ⟨_, mem_highlights.mpr ⟨u, hu, mem_ofUsage.mpr
      ⟨i, _, List.getElem?_eq_getElem hi, ha⟩⟩, rfl, rfl⟩

end Document

namespace Highlight

theorem Style.of_eq_unresolved {i : Nat} {symbols : List Symbol} :
    Style.of i symbols = .unresolved ↔ i = 0 ∧ symbols = [] := by
  have hindex : ∀ i, ofIndex i ≠ unresolved := by
    intro i
    rw [ofIndex]
    split <;> simp
  have hrole : ∀ role, ofRole i role ≠ unresolved := by
    intro role
    cases role with
    | attr => exact hindex i
    | parameter => simp [ofRole]
    | localVariable => simp [ofRole]
    | builtin => simp [ofRole]
  match symbols with
  | [] =>
    rw [Style.of]
    split <;> simp [*]
  | [.builtin b] => simp [Style.of]
  | [.declared p path] => simpa [Style.of] using hrole _
  | [.adHoc a] => simpa [Style.of] using hindex i
  | [.member s a] => simpa [Style.of] using hindex i
  | s :: t :: symbols => simpa [Style.of] using hindex i

def undefined? (lines : Lines) (u : Usage) : Option Highlight :=
  if Scope.resolveName u.element u.path.first = [] then ofSegment? lines u.first .unresolved
  else none

theorem filter_ofSegment? (lines : Lines) (s : Segment) (σ : Style) :
    (ofSegment? lines s σ).filter (·.style == .unresolved) =
      if σ = .unresolved then ofSegment? lines s .unresolved else none := by
  rw [ofSegment?, ofSegment?]
  by_cases hσ : σ = .unresolved
  · subst hσ
    split <;> simp
  · split <;> simp [hσ]

theorem filter_ofUsage (lines : Lines) (root : Node) (u : Usage) :
    (ofUsage lines root u).filter (·.style == .unresolved) = (undefined? lines u).toList := by
  have hrest : (u.rest.zipIdx 1).filterMap (fun s =>
      (ofSegment? lines s.1 (.of s.2 ((Resolution.of root u).symbols s.2))).filter
        (·.style == .unresolved)) = [] := by
    rw [List.filterMap_eq_nil_iff]
    rintro ⟨s, i⟩ hs
    have hi : 1 ≤ i := List.le_snd_of_mem_zipIdx hs
    rw [filter_ofSegment?, if_neg]
    rw [Style.of_eq_unresolved]
    omega
  rw [ofUsage, List.filter_filterMap, Usage.segments, List.zipIdx_cons, List.filterMap_cons,
    hrest, filter_ofSegment?, undefined?, Resolution.symbols_zero]
  simp only [Style.of_eq_unresolved, true_and]
  cases (if Scope.resolveName u.element u.path.first = [] then
    ofSegment? lines u.first .unresolved else none) <;> rfl

theorem pairwise_undefined? (text : String) :
    ((Usage.under (parse text).root).filterMap (undefined? (.of text))).Pairwise Before := by
  rw [List.pairwise_filterMap]
  refine (List.Pairwise.and_mem.mp (Usage.pairwise_under (Parse.rooted text))).imp ?_
  rintro u v ⟨hu, hv, huv⟩ a ha b hb
  obtain ⟨-, ha⟩ := Option.ite_none_right_eq_some.mp ha
  obtain ⟨-, hb⟩ := Option.ite_none_right_eq_some.mp hb
  obtain hab | ⟨hi, -⟩ := apart_of_mem hu hv huv (i := 0) rfl ha List.mem_cons_self hb
  · exact hab
  · exact absurd hi (Nat.lt_irrefl 0)

end Highlight

namespace Checks

theorem code_of_mem_repeated {seen names : List (String × Range)} {f : Range × Finding}
    (hf : f ∈ repeated seen names) : f.2.code = "E0004" := by
  fun_induction repeated seen names with
  | case1 seen => cases hf
  | case2 seen name range names previous hp ih =>
    obtain rfl | hf := List.mem_cons.mp hf
    · rfl
    · exact ih hf
  | case3 seen name range names hp ih => exact ih hf

theorem code_of_mem_duplicateBindings {root : Node} {f : Range × Finding}
    (hf : f ∈ duplicateBindings root) : f.2.code = "E0004" := by
  obtain ⟨host, -, hf⟩ := List.mem_flatMap.mp hf
  exact code_of_mem_repeated hf

theorem code_of_mem_undefinedNames {root : Node} {f : Range × Finding}
    (hf : f ∈ undefinedNames root) : f.2.code = "E0001" := by
  obtain ⟨u, -, hu⟩ := List.mem_filterMap.mp hf
  rw [undefinedUsage?] at hu
  split at hu
  · cases hu
  · obtain ⟨-, hu⟩ := Option.ite_none_right_eq_some.mp hu
    cases hu
    rfl

theorem filter_run (duplicate : Bool) (file : FileId) (lines : Lines) (root : Node) :
    (run ⟨true, duplicate⟩ file lines root).filter (·.code == some "E0001") =
      (undefinedNames root).map fun f => f.2.diagnostic file lines f.1 := by
  have hu : ∀ f ∈ undefinedNames root, (f.2.diagnostic file lines f.1).code = some "E0001" :=
    fun f hf => congrArg some (code_of_mem_undefinedNames hf)
  have hd : ∀ f ∈ if duplicate then duplicateBindings root else [],
      (f.2.diagnostic file lines f.1).code ≠ some "E0001" := by
    intro f hf
    have hc : f.2.code = "E0004" := by
      cases duplicate with
      | true => exact code_of_mem_duplicateBindings hf
      | false => cases hf
    simp [Finding.diagnostic, hc]
  rw [run, findings, if_pos rfl, List.map_append, List.filter_append, List.filter_eq_self.mpr,
    List.filter_eq_nil_iff.mpr, List.append_nil]
  · rw [List.forall_mem_map]
    simpa using hd
  · rw [List.forall_mem_map]
    simpa using hu

theorem place_undefined? {text : String} {u : Usage} (hu : u ∈ Usage.under (parse text).root)
    (file : FileId) :
    (((undefinedUsage? u).map fun f => f.2.diagnostic file (.of text) f.1).filter
        fun e => e.start.line == e.stop.line).map
          (fun e => (e.start.line, e.start.col, e.stop.col - e.start.col)) =
      (Highlight.undefined? (.of text) u).map fun a => (a.line, a.col, a.length) := by
  rw [Highlight.undefined?, Highlight.ofSegment?, undefinedUsage?, Usage.path]
  cases hname : u.first.name with
  | dynamic p => simp [Attribute.isDynamic]
  | static name =>
    have hr := Highlight.range_of_static hu List.mem_cons_self hname
    by_cases hs : Scope.resolveName u.element (.static name) = []
    · by_cases hl : ((Lines.of text).position u.first.node.range.start).line =
          ((Lines.of text).position u.first.node.range.stop).line
      · have hc := Lines.col_of_line_eq (Nat.le_of_lt hr.1) hr.2 hl
        simp [hs, hl, hc, Finding.diagnostic, Lines.span, Attribute.isDynamic]
      · simp [hs, hl, Finding.diagnostic, Lines.span, Attribute.isDynamic]
    · simp [hs]

end Checks

namespace Document

open Highlight

theorem filter_highlights (path : Path) (text : String) :
    (Document.of path text).highlights.filter (·.style == .unresolved) =
      (Usage.under (Syntax.parse text).root).filterMap (undefined? (.of text)) := by
  have hflat : ((Usage.under (Syntax.parse text).root).flatMap
      (ofUsage (.of text) (Syntax.parse text).root)).filter (·.style == .unresolved) =
      (Usage.under (Syntax.parse text).root).filterMap (undefined? (.of text)) := by
    rw [List.filter_flatMap, List.filterMap_eq_flatMap_toList]
    simp only [filter_ofUsage]
  have hperm := (highlights_perm path text).filter (·.style == .unresolved)
  rw [hflat] at hperm
  refine List.Perm.eq_of_pairwise ?_ ((pairwise_highlights path text).filter _)
    (pairwise_undefined? text) hperm
  intro a b ha _ hab hba
  exact absurd hba (hab.not_before (length_pos_of_mem_highlights (List.mem_filter.mp ha).1))

/-- The undefined names that the checks report on one line are the unresolved highlights, at the
same places and in the same order. -/
theorem undefined_eq_unresolved (path : Path) (text : String) (file : FileId) (duplicate : Bool) :
    let d := Document.of path text
    ((((Checks.mk true duplicate).run file d.lines d.root).filter (·.code == some "E0001")).filter
        fun e => e.start.line == e.stop.line).map
          (fun e => (e.start.line, e.start.col, e.stop.col - e.start.col)) =
      (d.highlights.filter (·.style == .unresolved)).map fun a => (a.line, a.col, a.length) := by
  intro d
  rw [filter_highlights, Checks.filter_run, Checks.undefinedNames, List.map_filterMap,
    List.filter_filterMap, List.map_filterMap, List.map_filterMap]
  exact List.filterMap_congr fun u hu => Checks.place_undefined? hu file

end Document

end NixScope
