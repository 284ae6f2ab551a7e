import Esolang.Proofs.Troop.Reachable

/-! The text that shows a board, and the board that a text shows. A layout is shown as it is, but for what
it has on empty ground; and since monkeys stand apart, the text of a sound board is a layout, on which
they and the bananas beside them are where they were. -/

namespace Esolang.Troop

namespace Board

variable {b : Board} {rows : List (List Char)} {cell : Cell} {i : Fin 7} {c : Char}

/-- What is shown where a layout has a character: monkeys and bananas, and else the ground. -/
def shown (c : Char) : Char :=
  if c ∈ ['1', '2', '3', '4', '5', '6', '7', '!'] then c else '.'

def Free (b : Board) (cell : Cell) : Prop := ∀ i, (b.monkey i).cell ≠ cell

def HasBanana (b : Board) (cell : Cell) : Prop := ∃ banana ∈ b.bananas, banana.cell = cell

theorem bananaAt?_isSome_iff : (b.bananaAt? cell).isSome ↔ b.HasBanana cell := by
  simp [bananaAt?, HasBanana]

theorem symbolAt_cases (b : Board) (cell : Cell) :
    (∃ i, (b.monkey i).cell = cell ∧ b.symbolAt cell = digit i) ∨
      b.Free cell ∧ b.HasBanana cell ∧ b.symbolAt cell = '!' ∨
      b.Free cell ∧ ¬ b.HasBanana cell ∧ b.symbolAt cell = '.' := by
  unfold symbolAt
  cases hm : b.monkeyAt? cell with
  | some i => exact .inl ⟨i, Sound.monkeyAt?_eq_some hm, rfl⟩
  | none =>
    have hfree : b.Free cell := Sound.monkeyAt?_eq_none hm
    rw [← bananaAt?_isSome_iff]
    cases b.bananaAt? cell with
    | some id => exact .inr (.inl ⟨hfree, rfl, rfl⟩)
    | none => exact .inr (.inr ⟨hfree, Bool.false_ne_true, rfl⟩)

theorem digit_ne (i : Fin 7) :
    digit i ≠ '!' ∧ digit i ≠ '.' ∧ (digit i).isDigit = true ∧ shown (digit i) = digit i := by
  revert i
  decide

theorem symbolAt_eq_digit_iff (h : b.Sound) : b.symbolAt cell = digit i ↔ (b.monkey i).cell = cell := by
  obtain ⟨hbanana, hground, -, -⟩ := digit_ne i
  rcases b.symbolAt_cases cell with ⟨j, hj, hs⟩ | ⟨hfree, -, hs⟩ | ⟨hfree, -, hs⟩
  · rw [hs]
    constructor
    · intro hji
      rw [← digit_injective hji, hj]
    · intro hi
      rw [h.apart j i (hj.trans hi.symm)]
  · rw [hs]
    exact iff_of_false hbanana.symm (hfree i)
  · rw [hs]
    exact iff_of_false hground.symm (hfree i)

theorem symbolAt_eq_banana_iff :
    b.symbolAt cell = '!' ↔ b.HasBanana cell ∧ b.Free cell := by
  rcases b.symbolAt_cases cell with ⟨j, hj, hs⟩ | ⟨hfree, hbanana, hs⟩ | ⟨hfree, hbanana, hs⟩
  · rw [hs]
    exact iff_of_false (digit_ne j).1 fun hh => hh.2 j hj
  · exact iff_of_true hs ⟨hbanana, hfree⟩
  · rw [hs]
    exact iff_of_false (by decide) fun hh => hbanana hh.1

theorem symbolAt_ofRows (h : Layout rows) (hc : (cell, c) ∈ cellsOf rows) :
    (ofRows rows).symbolAt cell = shown c := by
  rcases (ofRows rows).symbolAt_cases cell with ⟨i, hi, hs⟩ | ⟨-, hbanana, hs⟩ | ⟨hfree, hbanana, hs⟩
  · rw [hs, ← eq_of_mem_cellsOf (h.mem_digit_iff.mpr hi) hc]
    exact (digit_ne i).2.2.2.symm
  · rw [hs, ← eq_of_mem_cellsOf (mem_bananas_ofRows.mp hbanana) hc]
    rfl
  · rw [hs, shown, if_neg]
    intro hmem
    have hparts : c ∈ ['1', '2', '3', '4', '5', '6', '7'] ++ ['!'] := hmem
    rcases List.mem_append.mp hparts with hd | hb
    · obtain ⟨i, rfl⟩ := mem_digits_iff.mp hd
      exact hfree i (h.mem_digit_iff.mp hc)
    · obtain rfl := List.mem_singleton.mp hb
      exact hbanana (mem_bananas_ofRows.mpr hc)

/-- Each character of a layout is shown where it is. -/
theorem rows_ofRows (h : Layout rows) : (ofRows rows).rows = rows.map (List.map shown) := by
  have hrows := h.rows_length
  apply List.ext_getElem
  · simp [Board.rows, hrows]
  · intro y hy hy'
    have hlt : y < rows.length := by simpa using hy'
    have hrow := h.row_length _ (List.getElem_mem hlt)
    apply List.ext_getElem
    · simp [Board.rows, hrow]
    · intro x hx hx'
      have hltx : x < rows[y].length := by simpa using hx'
      have hcell : ((⟨x, y⟩ : Cell), rows[y][x]) ∈ cellsOf rows :=
        mem_cellsOf.mpr ⟨_, List.getElem?_eq_getElem hlt, List.getElem?_eq_getElem hltx⟩
      simpa [Board.rows] using symbolAt_ofRows h hcell

theorem mem_cellsOf_rows : (cell, c) ∈ cellsOf b.rows ↔ cell.OnBoard ∧ b.symbolAt cell = c := by
  rw [mem_cellsOf, Board.rows]
  constructor
  · rintro ⟨row, hrow, hc⟩
    obtain ⟨hy, rfl⟩ := List.getElem?_eq_some_iff.mp hrow
    obtain ⟨hx, rfl⟩ := List.getElem?_eq_some_iff.mp hc
    exact ⟨⟨by simpa using hx, by simpa using hy⟩, by simp⟩
  · rintro ⟨⟨hx, hy⟩, rfl⟩
    refine ⟨(List.range size).map fun x => b.symbolAt ⟨x, cell.y⟩, ?_, ?_⟩
    · rw [List.getElem?_map, List.getElem?_range hy, Option.map_some]
    · rw [List.getElem?_map, List.getElem?_range hx, Option.map_some]

theorem length_of_mem_rows {row : List Char} (h : row ∈ b.rows) : row.length = size := by
  obtain ⟨y, -, rfl⟩ := List.mem_map.mp h
  rw [List.length_map, List.length_range]

/-- The cells of the board in reading order. -/
def cells : List Cell := (List.range size).flatMap fun y => (List.range size).map fun x => ⟨x, y⟩

theorem mem_cells : cell ∈ cells ↔ cell.OnBoard := by
  simp only [cells, List.mem_flatMap, List.mem_map, List.mem_range]
  constructor
  · rintro ⟨y, hy, x, hx, rfl⟩
    exact ⟨hx, hy⟩
  · rintro ⟨hx, hy⟩
    exact ⟨cell.y, hy, cell.x, hx, rfl⟩

theorem flatten_rows (b : Board) : b.rows.flatten = cells.map b.symbolAt := by
  rw [Board.rows, cells, List.map_flatMap, List.flatMap_def]
  simp only [List.map_map]
  rfl

theorem mem_flatten_rows : c ∈ b.rows.flatten ↔ ∃ cell, cell.OnBoard ∧ b.symbolAt cell = c := by
  simp only [flatten_rows, List.mem_map, mem_cells]

/-- A sound board is shown as a layout, since its monkeys stand apart. -/
theorem Sound.layout (h : b.Sound) : Layout b.rows where
  rows_length := by rw [Board.rows, List.length_map, List.length_range]
  row_length _ := length_of_mem_rows
  digits c hc hd := by
    obtain ⟨cell, -, rfl⟩ := mem_flatten_rows.mp hc
    rcases b.symbolAt_cases cell with ⟨i, -, hs⟩ | ⟨-, -, hs⟩ | ⟨-, -, hs⟩
    · exact mem_digits_iff.mpr ⟨i, hs.symm⟩
    · rw [hs] at hd
      exact absurd hd (by decide)
    · rw [hs] at hd
      exact absurd hd (by decide)
  once i := by
    have hnodup : cells.Nodup := by decide +kernel
    have hshows : ∀ cell ∈ cells, (b.symbolAt cell == digit i) = true ↔
        (cell == (b.monkey i).cell) = true := by
      intro cell _
      rw [beq_iff_eq, beq_iff_eq, symbolAt_eq_digit_iff h]
      exact eq_comm
    calc b.rows.flatten.count (digit i)
      _ = cells.countP (fun cell => b.symbolAt cell == digit i) := by
        rw [flatten_rows, List.count_eq_countP, List.countP_map]
        rfl
      _ = cells.count (b.monkey i).cell := List.countP_congr hshows
      _ = 1 := List.count_eq_one_of_mem hnodup (mem_cells.mpr (h.standing i))

theorem lines_text (b : Board) : lines b.text = b.rows := by
  have hplain : ∀ row ∈ b.rows, ∀ c ∈ row, c ≠ '\n' ∧ c ≠ '\r' := by
    intro row hrow c hc
    have hdigit : ∀ i, digit i ≠ '\n' ∧ digit i ≠ '\r' := by decide
    obtain ⟨cell, -, rfl⟩ := mem_flatten_rows.mp (List.mem_flatten.mpr ⟨row, hrow, hc⟩)
    rcases b.symbolAt_cases cell with ⟨i, -, hs⟩ | ⟨-, -, hs⟩ | ⟨-, -, hs⟩
    · rw [hs]
      exact hdigit i
    · rw [hs]
      decide
    · rw [hs]
      decide
  apply lines_intercalate
  · intro row hrow hnil
    have hlength := length_of_mem_rows hrow
    rw [hnil] at hlength
    exact absurd hlength (by decide)
  · intro row hrow hmem
    exact (hplain row hrow _ hmem).1 rfl
  · intro row hrow hmem
    exact (hplain row hrow _ hmem).2 rfl

/-- Where a sound board shows monkeys and bananas, the board that its text shows has them. -/
theorem Sound.reads_back (h : b.Sound) :
    ofText? b.text = some (ofRows b.rows) ∧
      (∀ i, ((ofRows b.rows).monkey i).cell = (b.monkey i).cell) ∧
      ∀ cell, (ofRows b.rows).HasBanana cell ↔ b.HasBanana cell ∧ b.Free cell := by
  have hlayout := h.layout
  refine ⟨?_, fun i => ?_, fun cell => ?_⟩
  · rw [ofText?_eq_some_iff, lines_text]
    exact ⟨hlayout, rfl⟩
  · rw [← hlayout.mem_digit_iff, mem_cellsOf_rows, symbolAt_eq_digit_iff h]
    exact ⟨h.standing i, rfl⟩
  · rw [HasBanana, mem_bananas_ofRows, mem_cellsOf_rows, symbolAt_eq_banana_iff, and_iff_right_iff_imp]
    rintro ⟨⟨banana, hmem, rfl⟩, -⟩
    exact h.lying banana hmem

end Board

namespace Machine

/-- A text shows a board exactly if its lines are a layout, and the board shows them but for what is on
empty ground. The text of every reachable board shows a board with the monkeys in the same places, and
with bananas where there are some that no monkey stands on. -/
theorem boards_read_back :
    (∀ text, (∃ b, Board.ofText? text = some b) ↔ Board.Layout (lines text)) ∧
    (∀ text b, Board.ofText? text = some b →
      b.text = ['\n'].intercalate ((lines text).map (List.map Board.shown))) ∧
    ∀ m : Machine, interpreter.Reachable Initial m → ∃ b, Board.ofText? m.board.text = some b ∧
      (∀ i, (b.monkey i).cell = (m.board.monkey i).cell) ∧
      ∀ cell, b.HasBanana cell ↔ m.board.HasBanana cell ∧ m.board.Free cell := by
  refine ⟨fun text => ⟨?_, fun h => ?_⟩, fun text b h => ?_, fun m h => ?_⟩
  · rintro ⟨b, hb⟩
    exact (Board.ofText?_eq_some_iff.mp hb).1
  · exact ⟨_, Board.ofText?_eq_some_iff.mpr ⟨h, rfl⟩⟩
  · obtain ⟨hlayout, rfl⟩ := Board.ofText?_eq_some_iff.mp h
    rw [Board.text, Board.rows_ofRows hlayout]
  · exact ⟨_, (sound_of_reachable h).reads_back⟩

def clearing : List Char :=
  ("1!2~......\r\n....é.....\n..........\n..........\n..........\n..........\n..........\n" ++
    "....!.....\n..........\n3.4.5.6.7 \n").toList

/-- In the second half the sixth monkey stands on a banana, which its board therefore does not show. -/
theorem clearing_reads_back :
    (∃ b, Board.ofText? clearing = some b ∧ b.text =
      ("1!2.......\n..........\n..........\n..........\n..........\n..........\n..........\n" ++
        "....!.....\n..........\n3.4.5.6.7.").toList) ∧
    interpreter.Reachable Initial afterGrab ∧ afterGrab.board.HasBanana ⟨4, 7⟩ ∧
    ∃ b, Board.ofText? afterGrab.board.text = some b ∧ (b.monkey 5).cell = ⟨4, 7⟩ ∧
      ¬ b.HasBanana ⟨4, 7⟩ := by
  obtain ⟨haccepts, hshows, hreads⟩ := boards_read_back
  have hlayout : Board.Layout (lines clearing) :=
    Board.layout_iff.mpr ⟨by decide +kernel, by decide +kernel, by decide +kernel⟩
  have h : interpreter.Reachable Initial afterGrab := .step (.initial (.inl rfl))
  have hsix : (afterGrab.board.monkey 5).cell = ⟨4, 7⟩ := by decide +kernel
  obtain ⟨b, hb⟩ := (haccepts clearing).mpr hlayout
  obtain ⟨c, hc, hmonkeys, hbananas⟩ := hreads afterGrab h
  refine ⟨⟨b, hb, ?_⟩, h, ⟨⟨12, ⟨4, 7⟩⟩, by decide +kernel, rfl⟩, c, hc, ?_, ?_⟩
  · rw [hshows clearing b hb]
    decide +kernel
  · rw [hmonkeys, hsix]
  · rw [hbananas]
    exact fun hh => hh.2 5 hsix

end Machine

end Esolang.Troop
