import Esolang.Proofs.Grid.Layout
import Esolang.Proofs.Grid.Strings
import Esolang.Proofs.Run
import Esolang.Proofs.Stream.Forward
import Esolang.Proofs.Text.Lines

/-! A program that prints a text. It pushes the text backwards in string mode, and then its loop
takes one character after the other off the stack and writes it. The cursor goes through the loop to
and fro: it turns back at the branch as long as it finds a character there, writes on its way back
and crosses the bridge in both directions, which jumps over the output on the way out and over the
copying on the way back. -/

namespace Esolang.Grid

namespace Playfield

variable {f : Playfield} {x y : Nat}

theorem neighbour_right (hx : x + 1 < f.width) (hy : y < f.height) :
    f.neighbour x y .right = (x + 1, y) := by
  have hcolumn : (x + 1 : Int) % f.width = (x + 1 : Nat) := Int.emod_eq_of_lt (by omega) (by omega)
  have hrow : (y + 0 : Int) % f.height = y := Int.emod_eq_of_lt (by omega) (by omega)
  simp only [neighbour, Direction.delta, hcolumn, hrow, Int.toNat_natCast]

theorem neighbour_left (hx : x + 1 < f.width) (hy : y < f.height) :
    f.neighbour (x + 1) y .left = (x, y) := by
  have hcolumn : ((x + 1 : Nat) + -1 : Int) % f.width = x := by
    rw [Nat.cast_succ, Int.add_neg_cancel_right]
    exact Int.emod_eq_of_lt (by omega) (by omega)
  have hrow : (y + 0 : Int) % f.height = y := Int.emod_eq_of_lt (by omega) (by omega)
  simp only [neighbour, Direction.delta, hcolumn, hrow, Int.toNat_natCast]

theorem ahead_right {k : Nat} (hk : x + k < f.width) (hy : y < f.height) :
    f.ahead .right k (x, y) = (x + k, y) := by
  induction k with
  | zero => rfl
  | succ k ih => rw [ahead_succ, ih (by omega), neighbour_right (by omega) hy, Nat.add_assoc]

end Playfield

namespace Machine

open Playfield

/-- The part of the program behind the text. -/
def printLoop : List Char := ['>', ':', '#', ',', '_', '@']

def printer (text : List Char) : String :=
  .ofList ('\x22' :: (text.reverse ++ '\x22' :: printLoop))

/-- The first row shows the loop from a column on. -/
structure ShowsLoop (field : Playfield) (p : Nat) : Prop where
  width : p + printLoop.length ≤ field.width
  height : 0 < field.height
  shows {i : Nat} {c : Char} (h : printLoop[i]? = some c) : field.get (p + i) 0 = c

/-- On its way through the first row. -/
def inRow (m : Machine) (x : Nat) (direction : Direction) (stack : List Int64) (output : Sink) :
    Machine :=
  { m with x, y := 0, direction, stack, output, stringMode := false }

variable {m t : Machine} {p x k : Nat} {direction : Direction} {a : Int64} {stack : List Int64}
  {output : Sink} {text : List Char} {c : Char} {result : Except Error Unit}

theorem toInt_wordOf (c : Char) : (wordOf c).toInt = c.toNat := toInt_ofInt_toNat c

theorem wordOf_ne_zero (hc : c ≠ '\x00') : wordOf c ≠ 0 := by
  intro h
  have hcode : (c.toNat : Int) = 0 := by
    rw [← toInt_wordOf, h]
    rfl
  exact hc (Char.toNat_inj.mp (Int.natCast_eq_zero.mp hcode))

namespace ShowsLoop

theorem advance_right (h : ShowsLoop m.field p) (i : Nat) (hi : i < 5) :
    (m.inRow (p + i) .right stack output).advance = m.inRow (p + i + 1) .right stack output := by
  have hwidth : p + 6 ≤ m.field.width := h.width
  have hlast : p + i + 1 < m.field.width := by omega
  have hnext := neighbour_right hlast h.height
  simp [advance, inRow, hnext]

theorem advance_left (h : ShowsLoop m.field p) (i : Nat) (hi : i < 5) :
    (m.inRow (p + i + 1) .left stack output).advance = m.inRow (p + i) .left stack output := by
  have hwidth : p + 6 ≤ m.field.width := h.width
  have hlast : p + i + 1 < m.field.width := by omega
  have hnext := neighbour_left hlast h.height
  simp [advance, inRow, hnext]

/-- An instruction of the loop, and the move behind it. -/
theorem proceeds (h : ShowsLoop m.field p) (i : Nat) {u v : Machine}
    (hc : printLoop[i]? = some c) (hat : c ≠ '@') (hmove : u.advance = v)
    (hx : (execute c).on (m.inRow (p + i) direction stack output) = (.ok (), u)) :
    interpreter.Proceeds (m.inRow (p + i) direction stack output) v := by
  have hhere : (m.inRow (p + i) direction stack output).here = c := h.shows hc
  have hstep := step_of_execute rfl (hhere ▸ hat) (hhere ▸ hx)
  rwa [hmove] at hstep

/-! What the instructions of the loop do, in the order in which the cursor comes to them. -/

theorem proceeds_arrow (h : ShowsLoop m.field p) :
    interpreter.Proceeds (m.inRow p direction stack output)
      (m.inRow (p + 1) .right stack output) :=
  h.proceeds 0 rfl (by decide) (h.advance_right 0 (by decide)) rfl

theorem proceeds_copy (h : ShowsLoop m.field p) :
    interpreter.Proceeds (m.inRow (p + 1) .right (a :: stack) output)
      (m.inRow (p + 2) .right (a :: a :: stack) output) :=
  h.proceeds 1 rfl (by decide) (h.advance_right 1 (by decide)) rfl

/-- Over the output. -/
theorem proceeds_bridge_right (h : ShowsLoop m.field p) :
    interpreter.Proceeds (m.inRow (p + 2) .right stack output)
      (m.inRow (p + 4) .right stack output) := by
  have hjump : (execute '#').on (m.inRow (p + 2) .right stack output) =
      (.ok (), m.inRow (p + 3) .right stack output) :=
    congrArg (Except.ok (), ·) (h.advance_right 2 (by decide))
  exact h.proceeds 2 rfl (by decide) (h.advance_right 3 (by decide)) hjump

theorem proceeds_branch_back (h : ShowsLoop m.field p) (ha : a ≠ 0) :
    interpreter.Proceeds (m.inRow (p + 4) .right (a :: stack) output)
      (m.inRow (p + 3) .left stack output) := by
  have hturn : (execute '_').on (m.inRow (p + 4) .right (a :: stack) output) =
      (.ok (), m.inRow (p + 4) .left stack output) := by
    simp [execute, branch, pop, inRow, turn, ha]
  exact h.proceeds 4 rfl (by decide) (h.advance_left 3 (by decide)) hturn

theorem proceeds_branch_out (h : ShowsLoop m.field p) :
    interpreter.Proceeds (m.inRow (p + 4) .right (0 :: stack) output)
      (m.inRow (p + 5) .right stack output) :=
  h.proceeds 4 rfl (by decide) (h.advance_right 4 (by decide)) rfl

theorem proceeds_output (h : ShowsLoop m.field p)
    (hroom : output.Accepts (String.utf8EncodeChar c)) :
    interpreter.Proceeds (m.inRow (p + 3) .left (wordOf c :: stack) output)
      (m.inRow (p + 2) .left stack (output.written (String.utf8EncodeChar c))) := by
  have hwrite : (execute ',').on (m.inRow (p + 3) .left (wordOf c :: stack) output) =
      (.ok (), m.inRow (p + 3) .left stack (output.written (String.utf8EncodeChar c))) := by
    simp [execute, pop, onOutput, inRow, toInt_wordOf, hroom.writeCode_on]
  exact h.proceeds 3 rfl (by decide) (h.advance_left 2 (by decide)) hwrite

/-- Over the copying. -/
theorem proceeds_bridge_left (h : ShowsLoop m.field p) :
    interpreter.Proceeds (m.inRow (p + 2) .left stack output) (m.inRow p .left stack output) := by
  have hjump : (execute '#').on (m.inRow (p + 2) .left stack output) =
      (.ok (), m.inRow (p + 1) .left stack output) :=
    congrArg (Except.ok (), ·) (h.advance_left 1 (by decide))
  exact h.proceeds 2 rfl (by decide) (h.advance_left 0 (by decide)) hjump

/-- A turn of the loop. -/
theorem endsIn_turn (h : ShowsLoop m.field p) (hc : c ≠ '\x00')
    (hroom : output.Accepts (String.utf8EncodeChar c))
    (rest : interpreter.EndsIn k
      (m.inRow (p + 1) .right stack (output.written (String.utf8EncodeChar c))) result t) :
    interpreter.EndsIn (k + 6) (m.inRow (p + 1) .right (wordOf c :: stack) output) result t := by
  refine .proceed h.proceeds_copy ?_
  refine .proceed h.proceeds_bridge_right ?_
  refine .proceed (h.proceeds_branch_back (wordOf_ne_zero hc)) ?_
  refine .proceed (h.proceeds_output hroom) ?_
  exact .proceed h.proceeds_bridge_left (.proceed h.proceeds_arrow rest)

/-- All turns of the loop. By induction on the text that is still on the stack. -/
theorem endsIn_turns (h : ShowsLoop m.field p) (hzero : '\x00' ∉ text)
    (hroom : output.Accepts (encodeText text))
    (rest : interpreter.EndsIn k
      (m.inRow (p + 1) .right stack (output.written (encodeText text))) result t) :
    interpreter.EndsIn (k + 6 * text.length)
      (m.inRow (p + 1) .right (text.map wordOf ++ stack) output) result t := by
  induction text generalizing output with
  | nil =>
    rw [encodeText_nil, Sink.written_nil] at rest
    exact rest
  | cons c text ih =>
    rw [encodeText_cons] at hroom rest
    rw [← Sink.written_written] at rest
    obtain ⟨hc, htext⟩ := not_or.mp (mt List.mem_cons.mpr hzero)
    have hrest := ih htext hroom.right rest
    exact h.endsIn_turn (Ne.symm hc) hroom.left hrest

theorem here_copy (h : ShowsLoop m.field p) :
    (m.inRow (p + 1) direction stack output).here = ':' :=
  h.shows rfl

theorem here_end (h : ShowsLoop m.field p) :
    (m.inRow (p + 5) direction stack output).here = '@' :=
  h.shows rfl

/-- With no character left, zeros are copied, and the branch lets the cursor out of the loop. -/
theorem endsIn_halt (h : ShowsLoop m.field p) (hu : m.underflow = .zero) :
    interpreter.EndsIn 3 (m.inRow (p + 1) .right [] output) (.ok ())
      (m.inRow (p + 5) .right [0] output) := by
  have hcopy : (execute ':').on (m.inRow (p + 1) .right [] output) =
      (.ok (), m.inRow (p + 1) .right [0, 0] output) := by
    simp [execute, pop, inRow, push, hu]
  have hhalt : step.on (m.inRow (p + 5) .right [0] output) =
      (.ok .halt, m.inRow (p + 5) .right [0] output) := by
    rw [step_on, if_neg (by simp [inRow]), if_pos h.here_end]
  refine .proceed (h.proceeds 1 rfl (by decide) (h.advance_right 1 (by decide)) hcopy) ?_
  refine .proceed h.proceeds_bridge_right ?_
  exact .proceed h.proceeds_branch_out (.halt hhalt)

theorem endsIn_fault (h : ShowsLoop m.field p) (hu : m.underflow = .fault) :
    interpreter.EndsIn 0 (m.inRow (p + 1) .right [] output)
      (.error (.fault (.stackUnderflow ':'))) (m.inRow (p + 1) .right [] output) := by
  have hcopy : (execute ':').on (m.inRow (p + 1) .right [] output) =
      (.error (.fault (.stackUnderflow ':')), m.inRow (p + 1) .right [] output) := by
    simp [execute, pop, inRow, hu]
  have hat : (m.inRow (p + 1) .right [] output).here ≠ '@' := by
    rw [h.here_copy]
    decide
  exact .fail (step_of_execute_error rfl hat (h.here_copy ▸ hcopy))

end ShowsLoop

/-- A text between quotes, in front of a run that ends. -/
theorem endsIn_of_text {n : Nat} (hs : m.stringMode = false) (hq : m.here = '\x22')
    (htext : ∀ i, 1 ≤ i → i ≤ n → m.charAhead i ≠ '\x22') (hclose : m.charAhead (n + 1) = '\x22')
    (rest : interpreter.EndsIn k (m.behindText (m.textAhead n) (n + 2)) result t) :
    interpreter.EndsIn (n + 2 + k) m result t := by
  have hm : ({ m with stringMode := false } : Machine) = m := by rw [← hs]
  have hreading (i : Nat) (hi : i ≤ n) : interpreter.after (i + 1) m = m.reading i :=
    after_eq_reading hs hq i fun j h1 hj => htext j h1 (hj.trans hi)
  have hclosing := step_on_closing hclose
  rw [hm] at hclosing
  have hbehind : interpreter.after (n + 2) m = m.behindText (m.textAhead n) (n + 2) := by
    rw [Interpreter.after, hreading n le_rfl]
    exact congrArg Prod.snd hclosing
  refine .of_after (fun j hj => ?_) (hbehind ▸ rest)
  cases j with
  | zero => exact congrArg Prod.fst (step_on_opening hs hq)
  | succ i =>
    rw [hreading i (by omega)]
    exact congrArg Prod.fst (step_on_reading i m)

/-! A source of one row. -/

theorem charIn?_lastLine (row : List Char) (x y : Nat) :
    charIn? (lastLine row) x y = if y = 0 then row[x]? else none := by
  unfold lastLine
  by_cases hr : row = []
  · simp [charIn?, hr]
  · cases y with
    | zero => simp [charIn?, hr]
    | succ y => simp [charIn?, hr]

theorem get_shownBy_row {source : String} (hline : '\n' ∉ source.toList) (hx : x < m.field.width)
    (hheight : 0 < m.field.height) :
    (m.shownBy source).get x 0 = source.toList[x]?.getD ' ' := by
  have hget := get_ofLines hx hheight (lines source.toList)
  rw [lines_of_not_mem hline, charIn?_lastLine, if_pos rfl] at hget
  rw [shownBy, lines_of_not_mem hline, hget]

theorem load_of_row {source : String} (hline : '\n' ∉ source.toList)
    (hwidth : source.toList.length ≤ m.field.width) (hheight : 0 < m.field.height) :
    (load source).on m = (.ok (), m.atStart (m.shownBy source)) := by
  refine load_of_fits (.inr (firstOutside?_eq_none_iff.mpr fun x y hout => ?_))
  obtain ⟨hchar, hplace⟩ := hout
  rw [lines_of_not_mem hline, charIn?_lastLine] at hchar
  by_cases hy : y = 0
  · obtain ⟨hx, -⟩ := List.getElem?_eq_some_iff.mp (Option.eq_some_of_isSome (if_pos hy ▸ hchar))
    omega
  · rw [if_neg hy] at hchar
    cases hchar

/-! The program that prints a text. -/

theorem toList_printer (text : List Char) :
    (printer text).toList = '\x22' :: (text.reverse ++ '\x22' :: printLoop) :=
  String.toList_ofList

theorem length_printer (text : List Char) : (printer text).toList.length = text.length + 8 := by
  simp [toList_printer, printLoop]

theorem printer_text {i : Nat} (hi : i < text.length) :
    (printer text).toList[i + 1]? = text.reverse[i]? := by
  rw [toList_printer, List.getElem?_cons_succ, List.getElem?_append_left (by simpa using hi)]

theorem printer_closing (text : List Char) :
    (printer text).toList[text.length + 1]? = some '\x22' := by
  simp [toList_printer]

theorem printer_loop (text : List Char) (i : Nat) :
    (printer text).toList[text.length + 2 + i]? = printLoop[i]? := by
  have hi : text.length + 2 + i = (text.reverse.length + (i + 1)) + 1 := by
    rw [List.length_reverse]
    omega
  rw [toList_printer, hi, List.getElem?_cons_succ, List.getElem?_append_right (by omega),
    Nat.add_sub_cancel_left, List.getElem?_cons_succ]

theorem newline_not_mem_printer (h : '\n' ∉ text) : '\n' ∉ (printer text).toList := by
  simp [toList_printer, printLoop, h]

/-- In front of the program that prints a text. -/
def printing (text : List Char) (m : Machine) : Machine := m.atStart (m.shownBy (printer text))

theorem placeAhead_printing (hx : x < m.field.width) (hheight : 0 < m.field.height) :
    (m.printing text).placeAhead x = (x, 0) := by
  have hx' : 0 + x < (m.printing text).field.width := (Nat.zero_add x).symm ▸ hx
  have hplace := ahead_right hx' hheight
  rwa [Nat.zero_add] at hplace

theorem finish_of_flush (h : t.output.flushFails = false) : finish.on t = (.ok (), t) := by
  simp [finish, Sink.flush, h, Except.mapError]

section Printing

variable (hline : '\n' ∉ text) (hwidth : text.length + 8 ≤ m.field.width)
  (hheight : 0 < m.field.height)

include hline hheight

theorem printing_get (hx : x < m.field.width) :
    (m.printing text).field.get x 0 = (printer text).toList[x]?.getD ' ' :=
  get_shownBy_row (newline_not_mem_printer hline) hx hheight

theorem charAhead_printing (hx : x < m.field.width) :
    (m.printing text).charAhead x = (printer text).toList[x]?.getD ' ' := by
  rw [charAhead, placeAhead_printing hx hheight]
  exact printing_get hline hheight hx

include hwidth

theorem charAhead_text {i : Nat} (hi : i < text.length) :
    text.reverse[i]? = some ((m.printing text).charAhead (i + 1)) := by
  have hlast : i < text.reverse.length := by rwa [List.length_reverse]
  rw [charAhead_printing hline hheight (by omega), printer_text hi,
    List.getElem?_eq_getElem hlast]
  rfl

theorem charAhead_closing : (m.printing text).charAhead (text.length + 1) = '\x22' := by
  rw [charAhead_printing hline hheight (by omega), printer_closing]
  rfl

theorem textAhead_printing : (m.printing text).textAhead text.length = text.reverse := by
  refine List.ext_getElem (by simp [textAhead]) fun i hi hi' => ?_
  have hchar := charAhead_text hline hwidth hheight (List.length_reverse ▸ hi')
  rw [List.getElem?_eq_getElem hi'] at hchar
  simpa [textAhead] using (Option.some.inj hchar).symm

theorem showsLoop_printing : ShowsLoop (m.printing text).field (text.length + 2) := by
  refine ⟨hwidth, hheight, fun {i c} hc => ?_⟩
  obtain ⟨hi, -⟩ := List.getElem?_eq_some_iff.mp hc
  have hi' : i < 6 := hi
  rw [printing_get hline hheight (by omega), printer_loop, hc]
  rfl

theorem behindText_printing :
    (m.printing text).behindText ((m.printing text).textAhead text.length) (text.length + 2) =
      (m.printing text).inRow (text.length + 2) .right (text.map wordOf) m.output := by
  rw [textAhead_printing hline hwidth hheight, behindText, placeAhead_printing (by omega) hheight,
    List.map_reverse, List.reverse_reverse]
  simp [inRow, printing, atStart]

theorem endsIn_printing (hquote : '\x22' ∉ text) (hzero : '\x00' ∉ text)
    (hroom : m.output.Accepts (encodeText text))
    (rest : interpreter.EndsIn k ((m.printing text).inRow (text.length + 3) .right []
      (m.output.written (encodeText text))) result t) :
    interpreter.EndsIn (7 * text.length + 3 + k) (m.printing text) result t := by
  have hloop := showsLoop_printing hline hwidth hheight
  have hopen : (m.printing text).here = '\x22' :=
    (printing_get hline hheight (Nat.zero_lt_of_lt hwidth)).trans (by rw [toList_printer]; rfl)
  have htext (i : Nat) (h1 : 1 ≤ i) (hi : i ≤ text.length) :
      (m.printing text).charAhead i ≠ '\x22' := by
    obtain ⟨j, rfl⟩ := Nat.exists_eq_add_of_le' h1
    have hchar := charAhead_text hline hwidth hheight hi
    intro hc
    rw [hc] at hchar
    exact hquote (List.mem_reverse.mp (List.mem_of_getElem? hchar))
  have hclose := charAhead_closing hline hwidth hheight
  have hturns := hloop.endsIn_turns hzero hroom rest
  rw [List.append_nil] at hturns
  have hbehind : interpreter.EndsIn (k + 6 * text.length + 1)
      ((m.printing text).inRow (text.length + 2) .right (text.map wordOf) m.output) result t :=
    .proceed hloop.proceeds_arrow hturns
  rw [← behindText_printing hline hwidth hheight] at hbehind
  have hread := endsIn_of_text rfl hopen htext hclose hbehind
  have hcount : text.length + 2 + (k + 6 * text.length + 1) = 7 * text.length + 3 + k := by omega
  rwa [hcount] at hread

theorem runWithin_printer {fuel : Nat} (hquote : '\x22' ∉ text) (hzero : '\x00' ∉ text)
    (hroom : m.output.Accepts (encodeText text))
    (rest : interpreter.EndsIn k ((m.printing text).inRow (text.length + 3) .right []
      (m.output.written (encodeText text))) result t)
    (hflush : t.output.flushFails = false) (hfuel : 7 * text.length + 3 + k < fuel) :
    interpreter.runWithin {} fuel (printer text) m =
      (some (result.map fun _ => ⟨7 * text.length + 3 + k, .halted⟩), t) := by
  have hload : (load (printer text)).on m = (.ok (), m.printing text) :=
    load_of_row (newline_not_mem_printer hline) (length_printer text ▸ hwidth) hheight
  have hends := endsIn_printing hline hwidth hheight hquote hzero hroom rest
  exact Interpreter.runWithin_unlimited hload rfl hends (finish_of_flush hflush) hfuel

end Printing

/-- The program writes its text and nothing else, on every playfield that has room for it in the
first row and to an output that has room for the text. In the end its loop finds no character any
more: where zeros stand in for missing operands it halts, and otherwise copying fails for want of an
operand. -/
theorem printer_prints (text : String) (m : Machine) (fuel : Nat)
    (hquote : '\x22' ∉ text.toList) (hzero : '\x00' ∉ text.toList) (hline : '\n' ∉ text.toList)
    (hwidth : text.length + 8 ≤ m.field.width) (hheight : 0 < m.field.height)
    (hroom : m.output.Accepts (encodeText text.toList)) (hfuel : 7 * text.length + 6 < fuel) :
    ∃ t, t.output.bytes = m.output.bytes ++ encodeText text.toList ∧
      (m.underflow = .zero → t.here = '@' ∧
        interpreter.runWithin {} fuel (printer text.toList) m =
          (some (.ok ⟨7 * text.length + 6, .halted⟩), t)) ∧
      (m.underflow = .fault → t.here = ':' ∧
        interpreter.runWithin {} fuel (printer text.toList) m =
          (some (.error (.fault (.stackUnderflow ':'))), t)) := by
  rw [← String.length_toList] at hwidth hfuel ⊢
  have hloop := showsLoop_printing hline hwidth hheight
  have hbytes := Sink.bytes_written (encodeText text.toList) m.output
  have hflush : (m.output.written (encodeText text.toList)).flushFails = false := hroom.flush
  cases hu : m.underflow with
  | zero =>
    have hrun := runWithin_printer hline hwidth hheight hquote hzero hroom
      (hloop.endsIn_halt hu) hflush hfuel
    exact ⟨_, hbytes, fun _ => ⟨hloop.here_end, hrun⟩, nofun⟩
  | fault =>
    have hfuel' : 7 * text.toList.length + 3 + 0 < fuel := by omega
    have hrun := runWithin_printer hline hwidth hheight hquote hzero hroom
      (hloop.endsIn_fault hu) hflush hfuel'
    exact ⟨_, hbytes, nofun, fun _ => ⟨hloop.here_copy, hrun⟩⟩

/-- On a playfield that has just the room for two characters. -/
def onRow (underflow : Underflow) : Machine :=
  { field := .blank 10 1, overflow := .reject, underflow, rng := .ofSeed 0, output := {} }

theorem hi_is_printed :
    ('\x22' ∉ "Hi".toList ∧ '\x00' ∉ "Hi".toList ∧ '\n' ∉ "Hi".toList) ∧
      (∃ t, interpreter.runWithin {} 21 "\x22iH\x22>:#,_@" (onRow .zero) =
        (some (.ok ⟨20, .halted⟩), t) ∧ t.output.bytes = [72, 105]) ∧
      ∃ t, interpreter.runWithin {} 21 "\x22iH\x22>:#,_@" (onRow .fault) =
        (some (.error (.fault (.stackUnderflow ':'))), t) ∧ t.output.bytes = [72, 105] := by
  have hquote : '\x22' ∉ "Hi".toList := by decide
  have hzero : '\x00' ∉ "Hi".toList := by decide
  have hline : '\n' ∉ "Hi".toList := by decide
  have hroom : ({} : Sink).Accepts (encodeText "Hi".toList) := ⟨nofun, rfl⟩
  obtain ⟨t, hbytes, hhalt, -⟩ := printer_prints "Hi" (onRow .zero) 21 hquote hzero hline
    (by decide) (by decide) hroom (by decide)
  obtain ⟨u, hbytes', -, hfault⟩ := printer_prints "Hi" (onRow .fault) 21 hquote hzero hline
    (by decide) (by decide) hroom (by decide)
  exact ⟨⟨hquote, hzero, hline⟩, ⟨t, (hhalt rfl).2, hbytes⟩, u, (hfault rfl).2, hbytes'⟩

end Machine

end Esolang.Grid
