import Mathlib.Data.List.Basic
import Esolang.Text.Lines

/-! Lines of a text, and the text that some lines make up. All but the characters that end lines is on the
lines, and lines that have none of these are read back from their text. Where two texts meet at a line
feed, the lines of the one go on with those of the other. -/

namespace Esolang

variable {p : Char → Bool}

theorem filter_intercalate {separator : Char} (h : p separator = false) (pieces : List (List Char)) :
    ([separator].intercalate pieces).filter p = (pieces.map (List.filter p)).flatten := by
  induction pieces with
  | nil => rfl
  | cons piece rest ih =>
    by_cases hrest : rest = []
    · simp [hrest]
    · rw [List.intercalate_cons_of_ne_nil hrest, List.filter_append, List.filter_append, ih,
        List.filter_cons_of_neg (by simp [h])]
      simp

/-- The pieces between separators, with one piece singled out. -/
theorem intercalate_append_cons (separator : Char) (before after : List (List Char))
    (piece : List Char) :
    [separator].intercalate (before ++ piece :: after) =
      before.flatMap (· ++ [separator]) ++ piece ++ after.flatMap (separator :: ·) := by
  induction before with
  | nil =>
    induction after generalizing piece with
    | nil => simp
    | cons next after ih => simpa [List.intercalate_cons_cons] using ih next
  | cons first before ih =>
    rw [List.cons_append, List.intercalate_cons_of_ne_nil (by simp), ih]
    simp

theorem mem_intercalate {α : Type} {separator : List α} {x : α} {xs : List (List α)}
    (h : x ∈ separator.intercalate xs) : x ∈ separator ∨ ∃ ys ∈ xs, x ∈ ys := by
  induction xs with
  | nil => simp at h
  | cons ys xs ih =>
    by_cases hxs : xs = []
    · rw [hxs, List.intercalate_singleton] at h
      exact .inr ⟨ys, by simp, h⟩
    · rw [List.intercalate_cons_of_ne_nil hxs, List.append_assoc] at h
      rcases List.mem_append.mp h with h | h
      · exact .inr ⟨ys, by simp, h⟩
      · rcases List.mem_append.mp h with h | h
        · exact .inl h
        · rcases ih h with h | ⟨zs, hzs, h⟩
          · exact .inl h
          · exact .inr ⟨zs, List.mem_cons_of_mem _ hzs, h⟩

/-- The pieces of a text have no separator in them. -/
theorem not_mem_of_mem_splitOn {separator : Char} {text piece : List Char}
    (h : piece ∈ text.splitOn separator) : separator ∉ piece := by
  induction text generalizing piece with
  | nil =>
    obtain rfl : piece = [] := by simpa using h
    exact List.not_mem_nil
  | cons c text ih =>
    rw [List.splitOn_cons_eq_if_modifyHead] at h
    by_cases hc : c = separator
    · rw [if_pos (by simpa using hc)] at h
      rcases List.mem_cons.mp h with rfl | h
      · exact List.not_mem_nil
      · exact ih h
    · rw [if_neg (by simpa using hc)] at h
      obtain ⟨first, others, hsplit⟩ :=
        List.exists_cons_of_ne_nil (List.splitOn_ne_nil separator text)
      rw [hsplit] at h ih
      rcases List.mem_cons.mp h with rfl | h
      · have hfirst : separator ∉ first := ih List.mem_cons_self
        simp [hfirst, Ne.symm hc]
      · exact ih (List.mem_cons_of_mem first h)

theorem filter_dropReturn (h : p '\r' = false) (line : List Char) :
    (dropReturn line).filter p = line.filter p := by
  unfold dropReturn
  by_cases hlast : line.getLast? = some '\r'
  · have hfilter := congrArg (List.filter p) (List.dropLast_append_getLast? _ hlast)
    rw [List.filter_append, List.filter_cons_of_neg (by simp [h]), List.filter_nil,
      List.append_nil] at hfilter
    rwa [if_pos hlast]
  · rw [if_neg hlast]

theorem flatten_lastLine (piece : List Char) : (lastLine piece).flatten = piece := by
  unfold lastLine
  by_cases hp : piece = []
  · rw [if_pos hp, hp, List.flatten_nil]
  · rw [if_neg hp, List.flatten_singleton]

theorem eq_concat_getLastD {pieces : List (List Char)} (h : pieces ≠ []) :
    pieces.dropLast ++ [pieces.getLastD []] = pieces := by
  rw [List.getLastD_eq_getLast?, List.getLast?_eq_some_getLast h]
  exact List.dropLast_concat_getLast h

/-- The pieces of a text, with the last one singled out. -/
theorem exists_last_piece (separator : Char) (text : List Char) :
    ∃ front last, text.splitOn separator = front ++ [last] ∧ last <:+ text := by
  have hsplit := eq_concat_getLastD (List.splitOn_ne_nil separator text)
  have htext : [separator].intercalate (text.splitOn separator) = text :=
    List.intercalate_splitOn separator
  refine ⟨_, _, hsplit.symm, ?_⟩
  rw [← hsplit, intercalate_append_cons, List.flatMap_nil, List.append_nil] at htext
  exact ⟨_, htext⟩

theorem lines_of_splitOn {text last : List Char} {front : List (List Char)}
    (h : text.splitOn '\n' = front ++ [last]) :
    lines text = front.map dropReturn ++ lastLine last := by
  simp [lines, h]

/-- Behind a line feed the lines of a text go on, after an empty line if nothing stands in front of this
line feed on its line. -/
theorem lines_append_cons {first : List Char} (h : first.getLast? ≠ some '\r')
    (second : List Char) : ∃ closed, (∀ line ∈ closed, line = []) ∧
      lines (first ++ '\n' :: second) = lines first ++ (closed ++ lines second) := by
  obtain ⟨front, last, hfirst, hsuffix⟩ := exists_last_piece '\n' first
  obtain ⟨front', last', hsecond, -⟩ := exists_last_piece '\n' second
  have hjoined : (first ++ '\n' :: second).splitOn '\n' = (front ++ last :: front') ++ [last'] := by
    rw [List.splitOn_append_cons_self, hfirst, hsecond]
    simp
  have hlast : dropReturn last = last := by
    refine if_neg fun hreturn => h ?_
    obtain ⟨before, rfl⟩ := hsuffix
    rw [List.getLast?_append, hreturn, Option.some_or]
  rw [lines_of_splitOn hjoined, lines_of_splitOn hfirst, lines_of_splitOn hsecond, List.map_append,
    List.map_cons, hlast]
  by_cases hempty : last = []
  · refine ⟨[[]], by simp, ?_⟩
    simp [lastLine, hempty]
  · refine ⟨[], by simp, ?_⟩
    simp [lastLine, hempty]

/-- Whatever does not end lines is on the lines, in the order of the text. -/
theorem filter_lines (hn : p '\n' = false) (hr : p '\r' = false) (text : List Char) :
    (lines text).flatten.filter p = text.filter p := by
  have hpieces := filter_intercalate hn (text.splitOn '\n')
  rw [List.intercalate_splitOn] at hpieces
  have hsplit := eq_concat_getLastD (List.splitOn_ne_nil '\n' text)
  unfold lines
  dsimp only
  generalize text.splitOn '\n' = pieces at hpieces hsplit
  have hflatten : (pieces.map (List.filter p)).flatten =
      (pieces.dropLast.map (List.filter p)).flatten ++ (pieces.getLastD []).filter p := by
    conv => lhs; rw [← hsplit]
    rw [List.map_append, List.flatten_append, List.map_singleton, List.flatten_singleton]
  rw [hpieces, hflatten, List.flatten_append, flatten_lastLine, List.filter_append,
    List.filter_flatten, List.map_map]
  congr 2
  exact List.map_congr_left fun line _ => filter_dropReturn hr line

/-- A text with no line feed is a single line, and none where it is empty. -/
theorem lines_of_not_mem {text : List Char} (h : '\n' ∉ text) : lines text = lastLine text := by
  rw [lines, List.splitOn_eq_singleton h]
  rfl

/-- Lines that are not empty and have no characters that end lines are those of the text that they make
up. -/
theorem lines_intercalate {rows : List (List Char)} (hrow : ∀ row ∈ rows, row ≠ [])
    (hn : ∀ row ∈ rows, '\n' ∉ row) (hr : ∀ row ∈ rows, '\r' ∉ row) :
    lines (['\n'].intercalate rows) = rows := by
  by_cases hrows : rows = []
  · rw [hrows]
    rfl
  · have hreturn : ∀ row ∈ rows.dropLast, dropReturn row = row := by
      intro row hmem
      exact if_neg fun hlast => hr row (List.dropLast_subset rows hmem) (List.mem_of_getLast? hlast)
    have hlast : rows.getLastD [] ∈ rows := by
      rw [List.getLastD_eq_getLast?, List.getLast?_eq_some_getLast hrows]
      exact List.getLast_mem hrows
    rw [lines, List.splitOn_intercalate _ hn hrows, List.map_congr_left hreturn, List.map_id',
      lastLine, if_neg (hrow _ hlast)]
    exact eq_concat_getLastD hrows

end Esolang
