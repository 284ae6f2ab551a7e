import Esolang.Proofs.Text.Lines
import Esolang.Proofs.Troop.Sound

/-! The boards that a run can start from. On the board that a text shows everything is in its place,
since the text shows each monkey once and a cell shows one character; so it is on the first board. -/

namespace Esolang

namespace Troop

namespace Board

variable {b : Board} {rows : List (List Char)}

theorem mem_cellsOf {cell : Cell} {c : Char} :
    (cell, c) ∈ cellsOf rows ↔ ∃ row, rows[cell.y]? = some row ∧ row[cell.x]? = some c := by
  obtain ⟨x, y⟩ := cell
  simp only [cellsOf, List.mem_flatMap, List.mem_map, Prod.exists, Prod.mk.injEq, Cell.mk.injEq,
    List.mk_mem_zipIdx_iff_getElem?]
  constructor
  · rintro ⟨row, _, hrow, d, _, hd, ⟨rfl, rfl⟩, rfl⟩
    exact ⟨row, hrow, hd⟩
  · rintro ⟨row, hrow, hc⟩
    exact ⟨row, y, hrow, c, x, hc, ⟨rfl, rfl⟩, rfl⟩

theorem eq_of_mem_cellsOf {cell : Cell} {c d : Char} (hc : (cell, c) ∈ cellsOf rows)
    (hd : (cell, d) ∈ cellsOf rows) : c = d := by
  obtain ⟨row, hrow, hc⟩ := mem_cellsOf.mp hc
  obtain ⟨row', hrow', hd⟩ := mem_cellsOf.mp hd
  obtain rfl := Option.some.inj (hrow.symm.trans hrow')
  exact Option.some.inj (hc.symm.trans hd)

theorem map_snd_cellsOf (rows : List (List Char)) :
    (cellsOf rows).map Prod.snd = rows.flatten := by
  have hrow : ∀ row ∈ rows.zipIdx,
      (row.1.zipIdx.map fun c => ((⟨c.2, row.2⟩ : Cell), c.1)).map Prod.snd = row.1 := by
    intro row _
    rw [List.map_map]
    exact List.zipIdx_map_fst 0 row.1
  unfold cellsOf
  rw [List.map_flatMap, List.flatMap_congr hrow, List.flatMap_def, List.zipIdx_map_fst]

theorem cellShowing_mem {cells : List (Cell × Char)} {cell : Cell} {c : Char}
    (h : (cell, c) ∈ cells) : (cellShowing cells c, c) ∈ cells := by
  cases hf : cells.find? (·.2 = c) with
  | none =>
    have hno := List.find?_eq_none.mp hf _ h
    simp at hno
  | some found =>
    have hc : found.2 = c := by simpa using List.find?_some hf
    have hmem := List.mem_of_find?_eq_some hf
    rw [cellShowing, hf]
    rwa [← hc]

theorem monkey_ofRows (rows : List (List Char)) (i : Fin 7) :
    (ofRows rows).monkey i = { cell := cellShowing (cellsOf rows) (digit i) } :=
  Vector.getElem_ofFn i.isLt

theorem digit_injective {i j : Fin 7} (h : digit i = digit j) : i = j := by
  revert i j
  decide

theorem ids_ofRows (rows : List (List Char)) :
    (ofRows rows).bananas.map Banana.id = List.range (ofRows rows).bananas.length := by
  have hids : ∀ (cells : List Cell) (f : Cell × Nat → Banana), (∀ r, (f r).id = r.2) →
      (cells.zipIdx.map f).map Banana.id = List.range cells.length := by
    intro cells f hf
    rw [List.map_map, List.range_eq_range', ← List.zipIdx_map_snd]
    exact List.map_congr_left fun r _ => hf r
  have hlength : ∀ (cells : List Cell) (f : Cell × Nat → Banana),
      (cells.zipIdx.map f).length = cells.length := by
    intro cells f
    rw [List.length_map, List.length_zipIdx]
  unfold ofRows
  rw [hids _ _ fun _ => rfl, hlength]

theorem mem_digits_iff {c : Char} :
    c ∈ ['1', '2', '3', '4', '5', '6', '7'] ↔ ∃ i, digit i = c := by
  have hdigits : ['1', '2', '3', '4', '5', '6', '7'] = (List.finRange 7).map digit := rfl
  simp only [hdigits, List.mem_map, List.mem_finRange, true_and]

/-- Rows that show a board: ten rows of ten characters, with the digits from one to seven once each and
no other digit. -/
structure Layout (rows : List (List Char)) : Prop where
  rows_length : rows.length = size
  row_length : ∀ row ∈ rows, row.length = size
  digits : ∀ c ∈ rows.flatten, c.isDigit = true → c ∈ ['1', '2', '3', '4', '5', '6', '7']
  once : ∀ i, rows.flatten.count (digit i) = 1

theorem isPerm_digits_iff {text : List Char} :
    (text.filter Char.isDigit).isPerm ['1', '2', '3', '4', '5', '6', '7'] ↔
      (∀ c ∈ text, c.isDigit = true → c ∈ ['1', '2', '3', '4', '5', '6', '7']) ∧
        ∀ i, text.count (digit i) = 1 := by
  have hdigit : ∀ i, (digit i).isDigit = true := by decide
  have hlisted : ∀ i, ['1', '2', '3', '4', '5', '6', '7'].count (digit i) = 1 := by decide
  rw [List.isPerm_iff]
  constructor
  · intro hp
    refine ⟨fun c hc hd => hp.mem_iff.mp (List.mem_filter.mpr ⟨hc, hd⟩), fun i => ?_⟩
    rw [← List.count_filter (hdigit i), hp.count_eq, hlisted]
  · rintro ⟨hdigits, honce⟩
    rw [List.perm_iff_count]
    intro c
    by_cases hc : c ∈ ['1', '2', '3', '4', '5', '6', '7']
    · obtain ⟨i, rfl⟩ := mem_digits_iff.mp hc
      rw [List.count_filter (hdigit i), honce, hlisted]
    · rw [List.count_eq_zero.mpr hc, List.count_eq_zero]
      intro hmem
      obtain ⟨htext, hd⟩ := List.mem_filter.mp hmem
      exact hc (hdigits c htext hd)

theorem layout_iff : Layout rows ↔ rows.length = size ∧ (∀ row ∈ rows, row.length = size) ∧
    (rows.flatten.filter Char.isDigit).isPerm ['1', '2', '3', '4', '5', '6', '7'] = true := by
  rw [isPerm_digits_iff]
  constructor
  · rintro ⟨hrows, hrow, hdigits, honce⟩
    exact ⟨hrows, hrow, hdigits, honce⟩
  · rintro ⟨hrows, hrow, hdigits, honce⟩
    exact ⟨hrows, hrow, hdigits, honce⟩

theorem ofText?_eq_some_iff {text : List Char} :
    ofText? text = some b ↔ Layout (lines text) ∧ ofRows (lines text) = b := by
  have hdigits := filter_lines (p := Char.isDigit) (by decide) (by decide) text
  simp only [ofText?, Option.ite_none_right_eq_some, Option.some.injEq, ← hdigits, layout_iff,
    List.all_eq_true, decide_eq_true_eq]

namespace Layout

theorem onBoard (h : Layout rows) {cell : Cell} {c : Char} (hc : (cell, c) ∈ cellsOf rows) :
    cell.OnBoard := by
  obtain ⟨row, hy, hx⟩ := mem_cellsOf.mp hc
  obtain ⟨hlt, rfl⟩ := List.getElem?_eq_some_iff.mp hy
  obtain ⟨hlt', -⟩ := List.getElem?_eq_some_iff.mp hx
  have hrows := h.rows_length
  have hrow := h.row_length _ (List.getElem_mem hlt)
  exact ⟨by omega, by omega⟩

theorem monkey_mem (h : Layout rows) (i : Fin 7) :
    (((ofRows rows).monkey i).cell, digit i) ∈ cellsOf rows := by
  have hmem : digit i ∈ (cellsOf rows).map Prod.snd := by
    rw [map_snd_cellsOf, ← List.count_pos_iff, h.once]
    exact Nat.one_pos
  obtain ⟨⟨cell, _⟩, hcell, rfl⟩ := List.mem_map.mp hmem
  rw [monkey_ofRows]
  exact cellShowing_mem hcell

/-- Only one cell shows the number of a monkey. -/
theorem mem_digit_iff (h : Layout rows) {cell : Cell} {i : Fin 7} :
    (cell, digit i) ∈ cellsOf rows ↔ ((ofRows rows).monkey i).cell = cell := by
  refine ⟨fun hc => ?_, fun hc => hc ▸ h.monkey_mem i⟩
  have honce := h.once i
  rw [← map_snd_cellsOf, List.count_eq_countP, List.countP_map, List.countP_eq_length_filter,
    List.length_eq_one_iff] at honce
  obtain ⟨shown, hshown⟩ := honce
  have hshows : ∀ other, (other, digit i) ∈ cellsOf rows → (other, digit i) = shown := by
    intro other hother
    rw [← List.mem_singleton, ← hshown, List.mem_filter]
    exact ⟨hother, beq_self_eq_true (digit i)⟩
  exact congrArg Prod.fst ((hshows _ (h.monkey_mem i)).trans (hshows _ hc).symm)

end Layout

theorem mem_bananas_ofRows {cell : Cell} :
    (∃ banana ∈ (ofRows rows).bananas, banana.cell = cell) ↔ (cell, '!') ∈ cellsOf rows := by
  constructor
  · rintro ⟨banana, hmem, rfl⟩
    obtain ⟨⟨cell, id⟩, hcell, rfl⟩ := List.mem_map.mp hmem
    obtain ⟨⟨_, c⟩, hfilter, rfl⟩ := List.mem_map.mp (List.fst_mem_of_mem_zipIdx hcell)
    obtain ⟨hshown, hc⟩ := List.mem_filter.mp hfilter
    rwa [← of_decide_eq_true hc]
  · intro hshown
    have hfruit : cell ∈ ((cellsOf rows).filter (·.2 = '!')).map (·.1) :=
      List.mem_map.mpr ⟨_, List.mem_filter.mpr ⟨hshown, rfl⟩, rfl⟩
    obtain ⟨id, hid⟩ := List.mem_iff_getElem?.mp hfruit
    exact ⟨⟨id, cell⟩,
      List.mem_map.mpr ⟨(cell, id), List.mk_mem_zipIdx_iff_getElem?.mpr hid, rfl⟩, rfl⟩

theorem sound_ofRows (h : Layout rows) : (ofRows rows).Sound where
  standing i := h.onBoard (h.monkey_mem i)
  apart i j hij := digit_injective (eq_of_mem_cellsOf (hij ▸ h.monkey_mem i) (h.monkey_mem j))
  numbered := by
    rw [ids_ofRows]
    exact List.nodup_range
  lying banana hmem := h.onBoard (mem_bananas_ofRows.mp ⟨banana, hmem, rfl⟩)
  carried i id hid := by
    rw [monkey_ofRows] at hid
    cases hid
  resting i _ := by rw [monkey_ofRows]

theorem sound_of_ofText? {text : List Char} (h : ofText? text = some b) : b.Sound := by
  obtain ⟨hlayout, rfl⟩ := ofText?_eq_some_iff.mp h
  exact sound_ofRows hlayout

theorem Sound.dropUnder (h : b.Sound) (i : Fin 7)
    (hids : b.bananas.map Banana.id = List.range b.bananas.length) :
    (b.dropUnder i).Sound ∧
      (b.dropUnder i).bananas.map Banana.id = List.range (b.dropUnder i).bananas.length := by
  have hids' : (b.dropUnder i).bananas.map Banana.id =
      List.range (b.dropUnder i).bananas.length := by
    simp [Board.dropUnder, hids, List.range_succ]
  refine ⟨⟨h.standing, h.apart, ?_, ?_, ?_, h.resting⟩, hids'⟩
  · rw [hids']
    exact List.nodup_range
  · intro banana hmem
    rcases List.mem_append.mp hmem with hmem | hmem
    · exact h.lying banana hmem
    · obtain rfl := List.mem_singleton.mp hmem
      exact h.standing i
  · intro k id hid
    exact List.mem_append_left _ (h.carried k id hid)

theorem sound_start : start.Sound := by
  have hrows : (ofRows (startRows.map String.toList)).Sound :=
    sound_ofRows (layout_iff.mpr ⟨rfl, by decide, by decide⟩)
  obtain ⟨hsix, hids⟩ := hrows.dropUnder 5 (ids_ofRows _)
  exact (hsix.dropUnder 6 hids).1

end Board

end Troop

end Esolang
