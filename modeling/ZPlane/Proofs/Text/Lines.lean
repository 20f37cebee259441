import Mathlib
import ZPlane.Text.Lines

/-!
# What a Cut Is

`Text.cutAfter` is computed from the end of a list. Seen from the pieces, a cut is this: no
piece is empty, an element that ends pieces stands nowhere but at the end of one, and it
stands at the end of every piece but the last, where it may.

A list without such elements is one piece, so a text without line feeds is one line. Behind such
an element the cut starts anew, so two texts with a line feed between them have the lines of the
one and then those of the other. That line feed may become the end of a line, or it may leave a
blank line behind, which does not count. Only a carriage return before it would be lost.

A line is blank when nothing is left of it without the white space around it.

## Main definitions

* `Text.IsCut`: Pieces that are cut after each element of a kind.

## Theorems

* `Text.isCut_cutAfter`: `Text.cutAfter` cuts after each element of the kind.
* `Text.cutAfter_append_of_forall`, `Text.cutAfter_append_cons`: A cut by its parts.
* `Text.lines_of_not_mem`: A text without line feeds is one line.
* `Text.contentLines_append`, `Text.contentLines_feed`: The lines of a text by its parts.
* `Text.isEmpty_trim`: What is left of a blank text.
-/

namespace ZPlane

namespace Text

variable {α : Type} {ends : α → Bool}

/-- Pieces that are cut after each element that satisfies `ends`. -/
structure IsCut (ends : α → Bool) (pieces : List (List α)) : Prop where
  nonempty : ∀ piece ∈ pieces, piece ≠ []
  inside : ∀ piece ∈ pieces, ∀ a ∈ piece.dropLast, ends a = false
  ended : ∀ piece ∈ pieces.dropLast, ∃ a ∈ piece.getLast?, ends a = true

theorem isCut_singleton (a : α) : IsCut ends [[a]] :=
  ⟨by simp, by simp, by simp⟩

/-- An element in front of a cut is a piece of its own, or belongs to the first one. -/
theorem IsCut.extend {pieces : List (List α)} (h : IsCut ends pieces) (a : α) :
    IsCut ends (extendPieces ends a pieces) := by
  cases pieces with
  | nil => exact isCut_singleton a
  | cons piece pieces =>
    by_cases ha : ends a = true
    · rw [extendPieces, if_pos ha]
      refine ⟨?_, ?_, ?_⟩
      · exact List.forall_mem_cons.mpr ⟨by simp, h.nonempty⟩
      · exact List.forall_mem_cons.mpr ⟨by simp, h.inside⟩
      · rw [List.dropLast_cons_of_ne_nil (by simp)]
        exact List.forall_mem_cons.mpr ⟨⟨a, rfl, ha⟩, h.ended⟩
    · have hne := h.nonempty piece List.mem_cons_self
      rw [extendPieces, if_neg ha]
      refine ⟨?_, ?_, ?_⟩
      · exact List.forall_mem_cons.mpr ⟨by simp, (List.forall_mem_cons.mp h.nonempty).2⟩
      · refine List.forall_mem_cons.mpr ⟨?_, (List.forall_mem_cons.mp h.inside).2⟩
        rw [List.dropLast_cons_of_ne_nil hne]
        exact List.forall_mem_cons.mpr ⟨by simpa using ha, h.inside piece List.mem_cons_self⟩
      · have hended := h.ended
        cases pieces with
        | nil => simp
        | cons next pieces =>
          -- The first piece ends as it did before.
          rw [List.dropLast_cons_of_ne_nil (by simp)] at hended ⊢
          refine List.forall_mem_cons.mpr ⟨?_, (List.forall_mem_cons.mp hended).2⟩
          rw [List.getLast?_cons_of_ne_nil hne]
          exact (List.forall_mem_cons.mp hended).1

/-- `cutAfter` cuts after each element of the kind. -/
theorem isCut_cutAfter (ends : α → Bool) (l : List α) : IsCut ends (cutAfter ends l) := by
  induction l with
  | nil => exact ⟨by simp [cutAfter], by simp [cutAfter], by simp [cutAfter]⟩
  | cons a l ih => exact ih.extend a

/-- A list that ends no piece is put before the first piece of what follows. -/
theorem cutAfter_append_of_forall {l : List α} (hne : l ≠ []) (h : ∀ a ∈ l, ends a = false)
    (rest : List α) :
    cutAfter ends (l ++ rest) =
      (l ++ (cutAfter ends rest).headD []) :: (cutAfter ends rest).tail := by
  induction l with
  | nil => exact absurd rfl hne
  | cons a l ih =>
    have ha := h a List.mem_cons_self
    change extendPieces ends a (cutAfter ends (l ++ rest)) = _
    cases l with
    | nil =>
      rw [List.nil_append]
      cases cutAfter ends rest with
      | nil => rfl
      | cons piece pieces => rw [extendPieces, if_neg (by simp [ha])]; rfl
    | cons b l =>
      rw [ih (by simp) fun c hc => h c (List.mem_cons_of_mem _ hc), extendPieces,
        if_neg (by simp [ha])]
      rfl

/-- A list that ends no piece is one piece. -/
theorem cutAfter_of_forall {l : List α} (hne : l ≠ []) (h : ∀ a ∈ l, ends a = false) :
    cutAfter ends l = [l] := by
  have hcut := cutAfter_append_of_forall hne h []
  have hnil : cutAfter ends [] = [] := rfl
  rwa [hnil, List.append_nil, List.headD_nil, List.append_nil, List.tail_nil] at hcut

/-- Behind an element that ends a piece, the cut starts anew. -/
theorem cutAfter_append_cons {a : α} (ha : ends a = true) (l rest : List α) :
    cutAfter ends (l ++ a :: rest) = cutAfter ends (l ++ [a]) ++ cutAfter ends rest := by
  induction l with
  | nil =>
    change extendPieces ends a (cutAfter ends rest) = [[a]] ++ cutAfter ends rest
    cases cutAfter ends rest with
    | nil => rfl
    | cons piece pieces => rw [extendPieces, if_pos ha]; rfl
  | cons b l ih =>
    change extendPieces ends b (cutAfter ends (l ++ a :: rest)) =
      extendPieces ends b (cutAfter ends (l ++ [a])) ++ cutAfter ends rest
    rw [ih]
    -- There is a piece already, and what is put in front of it does not reach the others.
    rcases hcut : cutAfter ends (l ++ [a]) with - | ⟨piece, pieces⟩
    · have hflat := flatten_cutAfter ends (l ++ [a])
      rw [hcut] at hflat
      exact absurd hflat (by simp)
    · by_cases hb : ends b = true <;> simp [extendPieces, hb]

theorem dropLineEnd_of_not_mem {line : List Char} (h : '\n' ∉ line) : dropLineEnd line = line := by
  unfold dropLineEnd
  rw [← List.mem_reverse] at h
  split
  · next hline =>
    rw [hline] at h
    exact absurd List.mem_cons_self h
  · next hline =>
    rw [hline] at h
    exact absurd List.mem_cons_self h
  · rfl

/-- A text without line feeds is one line, if it is not empty. -/
theorem lines_of_not_mem {text : String} (hne : text.toList ≠ []) (h : '\n' ∉ text.toList) :
    lines text = [text] := by
  have hcut : cutAfter (· == '\n') text.toList = [text.toList] := by
    refine cutAfter_of_forall hne fun c hc => ?_
    rw [beq_eq_false_iff_ne]
    rintro rfl
    exact h hc
  unfold lines
  rw [hcut, List.map_singleton, dropLineEnd_of_not_mem h, String.ofList_toList]

theorem contentLines_of_not_mem {text : String} (hblank : isBlank text = false)
    (h : '\n' ∉ text.toList) : contentLines text = [text] := by
  have hne : text.toList ≠ [] := by
    intro hnil
    rw [isBlank, hnil] at hblank
    cases hblank
  unfold contentLines
  rw [lines_of_not_mem hne h, List.filter_singleton, hblank]
  rfl

/-- The lines of texts with a line feed between them. -/
theorem contentLines_append (a b : String) :
    contentLines (a ++ "\n" ++ b) = contentLines (a ++ "\n") ++ contentLines b := by
  have hcut := @cutAfter_append_cons Char (· == '\n') '\n' rfl a.toList b.toList
  have hfeed : "\n".toList = ['\n'] := rfl
  unfold contentLines lines
  rw [String.toList_append, String.toList_append, hfeed, List.append_assoc, List.singleton_append,
    hcut, List.map_append, List.filter_append]

/-- A line feed behind a line is its end, unless a carriage return stands before it. -/
theorem dropLineEnd_append_feed {line : List Char} (h : line.getLast? ≠ some '\r') :
    dropLineEnd (line ++ ['\n']) = line := by
  rw [List.getLast?_eq_head?_reverse] at h
  unfold dropLineEnd
  rw [List.reverse_append, List.reverse_singleton, List.singleton_append]
  split
  · next rest hline =>
    rw [(List.cons.inj hline).2] at h
    exact absurd rfl h
  · next rest _ hline => rw [← (List.cons.inj hline).2, List.reverse_reverse]
  · next hline => exact absurd rfl (hline _)

theorem contentLines_feed_of_not_mem {text : String} (hfeed : '\n' ∉ text.toList)
    (hreturn : text.toList.getLast? ≠ some '\r') :
    contentLines (text ++ "\n") = contentLines text := by
  by_cases hne : text.toList = []
  · rw [String.toList_eq_nil_iff.mp hne]
    rfl
  have hends : ∀ c ∈ text.toList, (c == '\n') = false := by
    intro c hc
    rw [beq_eq_false_iff_ne]
    rintro rfl
    exact hfeed hc
  have hlines : lines (text ++ "\n") = [text] := by
    unfold lines
    rw [String.toList_append, cutAfter_append_of_forall hne hends]
    change [String.ofList (dropLineEnd (text.toList ++ ['\n']))] = _
    rw [dropLineEnd_append_feed hreturn, String.ofList_toList]
  unfold contentLines
  rw [hlines, lines_of_not_mem hne hfeed]

/-- A line feed at the end of a text makes no difference to its lines, unless a carriage return
    stands before it. -/
theorem contentLines_feed {text : String} (hreturn : text.toList.getLast? ≠ some '\r') :
    contentLines (text ++ "\n") = contentLines text := by
  by_cases hfeed : '\n' ∈ text.toList
  · -- Only what stands behind the last line feed is affected.
    rcases List.eq_append_cons_of_mem (List.mem_reverse.mpr hfeed) with ⟨ls, rs, hsplit, hls⟩
    have htext : text = String.ofList rs.reverse ++ "\n" ++ String.ofList ls.reverse := by
      rw [← String.toList_inj, ← List.reverse_inj, hsplit]
      simp
    have hlast : (String.ofList ls.reverse).toList.getLast? ≠ some '\r' := by
      intro hlast
      apply hreturn
      rw [htext, String.toList_append, List.getLast?_append, hlast]
      rfl
    have hnone : '\n' ∉ (String.ofList ls.reverse).toList := by simpa using hls
    rw [htext, String.append_assoc, contentLines_append, contentLines_append,
      contentLines_feed_of_not_mem hnone hlast]
  · exact contentLines_feed_of_not_mem hfeed hreturn

/-- Nothing is left of a blank text without the white space around it, and of no other. -/
theorem isEmpty_trim (text : String) : (trim text).isEmpty = isBlank text := by
  have hiff : trimChars text.toList = [] ↔ ∀ c ∈ text.toList, isWhiteSpace c = true := by
    unfold trimChars
    rw [List.reverse_eq_nil_iff, List.dropWhile_eq_nil_iff]
    constructor
    · intro h
      -- What starts with no white space is white space only if it is empty.
      have hnil : text.toList.dropWhile isWhiteSpace = [] := by
        rw [← List.dropWhile_idempotent, List.dropWhile_eq_nil_iff]
        intro c hc
        exact h c (List.mem_reverse.mpr hc)
      exact List.dropWhile_eq_nil_iff.mp hnil
    · intro h c hc
      exact h c ((List.dropWhile_sublist _).subset (List.mem_reverse.mp hc))
  rw [Bool.eq_iff_iff, isBlank, List.all_eq_true, ← hiff, trim, String.isEmpty_iff]
  simp

end Text

end ZPlane
