import Esolang.Proofs.Troop.Grammar

/-! Listings of programs. An instruction is written on a row of its own, with a comment behind it or
without one, and rows from which nothing is read may stand anywhere. Reading a listing gives the program
back, and strict reading gives the instructions without a comment: what is read from a text is read from
its rows, one after the other. -/

namespace Esolang.Troop

variable {strict : Bool} {row line : List Char}

/-- No character of the text ends a line. -/
structure OnOneLine (text : List Char) : Prop where
  newline : '\n' ∉ text
  carriageReturn : '\r' ∉ text

/-- The number of the monkey, a space and the name of the action. -/
def Instruction.text (instruction : Instruction) : List Char :=
  Decimal.ofNat (numberOf instruction.monkey) ++ ' ' :: instruction.action.name.toList

inductive Row where
  | bare (instruction : Instruction)
  | commented (instruction : Instruction) (comment : List Char) (h : OnOneLine comment)
  /-- Nothing is read from the line on its own. -/
  | idle (line : List Char) (h : OnOneLine line) (hidle : parse false line = [])

namespace Row

def text : Row → List Char
  | bare instruction => instruction.text
  | commented instruction comment _ => instruction.text ++ ' ' :: comment
  | idle line _ _ => line

def instruction? : Row → Option Instruction
  | bare instruction => some instruction
  | commented instruction _ _ => some instruction
  | idle _ _ _ => none

/-- The instruction on a row that has no comment. -/
def bare? : Row → Option Instruction
  | bare instruction => some instruction
  | commented _ _ _ => none
  | idle _ _ _ => none

end Row

/-- The text of some rows, with a line feed between two of them. -/
def listing (rows : List Row) : List Char := ['\n'].intercalate (rows.map Row.text)

/-- Strict reading drops a line with more than one space, and reads any other line as it is. -/
theorem parseLine?_strict (line : List Char) : parseLine? true line =
    if (line.splitOn ' ').length ≤ 2 then parseLine? false line else none := by
  rw [parseLine?, parseLine?]
  rcases line.splitOn ' ' with _ | ⟨number, _ | ⟨name, _ | ⟨word, words⟩⟩⟩
  · rfl
  · rfl
  · rfl
  · rw [if_neg (by simp)]
    rfl

theorem parse_strict_sublist (source : List Char) :
    (parse true source).Sublist (parse false source) := by
  have hstrict : parse true source =
      ((lines source).filter fun line => (line.splitOn ' ').length ≤ 2).filterMap
        (parseLine? false) := by
    rw [List.filterMap_filter, parse]
    refine List.filterMap_congr fun line _ => ?_
    rw [parseLine?_strict]
    simp
  rw [hstrict]
  exact List.filter_sublist.filterMap _

theorem parseLine?_nil (strict : Bool) : parseLine? strict [] = none := rfl

/-- What is read from two texts with a line feed between them is read from the one and then from the
other, unless the line feed takes a carriage return to the end of a line. -/
theorem parse_append_cons {first : List Char} (h : first.getLast? ≠ some '\r') (strict : Bool)
    (second : List Char) :
    parse strict (first ++ '\n' :: second) = parse strict first ++ parse strict second := by
  obtain ⟨closed, hclosed, hlines⟩ := lines_append_cons h second
  have hnone : closed.filterMap (parseLine? strict) = [] := by
    refine List.filterMap_eq_nil_iff.mpr fun line hline => ?_
    rw [hclosed line hline, parseLine?_nil]
  rw [parse, hlines, List.filterMap_append, List.filterMap_append, hnone, List.nil_append]
  rfl

theorem parse_of_newline_not_mem (h : '\n' ∉ line) (strict : Bool) :
    parse strict line = (parseLine? strict line).toList := by
  rw [parse, lines_of_not_mem h, lastLine]
  by_cases hline : line = []
  · rw [if_pos hline, hline]
    rfl
  · rw [if_neg hline]
    cases hread : parseLine? strict line <;> simp [hread]

theorem parse_intercalate {rows : List (List Char)} (h : ∀ row ∈ rows, '\r' ∉ row) (strict : Bool) :
    parse strict (['\n'].intercalate rows) = rows.flatMap (parse strict) := by
  induction rows with
  | nil => rfl
  | cons row rows ih =>
    -- The row meets the next one at a line feed, with no carriage return in front of it.
    obtain ⟨hrow, hrows⟩ := List.forall_mem_cons.mp h
    by_cases hempty : rows = []
    · simp [hempty]
    · have hlast : row.getLast? ≠ some '\r' := fun hlast => hrow (List.mem_of_getLast? hlast)
      rw [List.intercalate_cons_of_ne_nil hempty, List.append_assoc, List.singleton_append,
        parse_append_cons hlast, ih hrows, List.flatMap_cons]

theorem ofNat_numberOf (monkey : Fin 7) :
    Decimal.ofNat (numberOf monkey) = [Board.digit monkey] := by
  revert monkey
  decide

theorem spells_text {instruction : Instruction} {tail : List Char}
    (h : tail = [] ∨ strict = false ∧ ∃ comment, tail = ' ' :: comment) :
    Spells SignedNumeral strict (instruction.text ++ tail) instruction := by
  refine ⟨[Board.digit instruction.monkey], tail, SingleDigit.signedNumeral rfl, ?_, h⟩
  simp [Instruction.text, ofNat_numberOf]

theorem parseLine?_text (strict : Bool) (instruction : Instruction) :
    parseLine? strict instruction.text = some instruction := by
  have hspells : Spells SignedNumeral strict (instruction.text ++ []) instruction :=
    spells_text (.inl rfl)
  rw [List.append_nil] at hspells
  exact parseLine?_eq_some_iff.mpr hspells

theorem parseLine?_commented (instruction : Instruction) (comment : List Char) :
    parseLine? false (instruction.text ++ ' ' :: comment) = some instruction :=
  parseLine?_eq_some_iff.mpr (spells_text (.inr ⟨rfl, comment, rfl⟩))

theorem parseLine?_strict_commented (instruction : Instruction) (comment : List Char) :
    parseLine? true (instruction.text ++ ' ' :: comment) = none := by
  have hcomment := List.length_pos_of_ne_nil (List.splitOn_ne_nil ' ' comment)
  have hname := List.length_pos_of_ne_nil
    (List.splitOn_ne_nil ' ' instruction.action.name.toList)
  have hnumber := List.length_pos_of_ne_nil
    (List.splitOn_ne_nil ' ' (Decimal.ofNat (numberOf instruction.monkey)))
  rw [parseLine?_strict, if_neg]
  rw [Instruction.text, List.splitOn_append_cons_self, List.splitOn_append_cons_self,
    List.length_append, List.length_append]
  omega

theorem onOneLine_text (instruction : Instruction) : OnOneLine instruction.text := by
  obtain ⟨monkey, action⟩ := instruction
  have hdigit : '\n' ≠ Board.digit monkey ∧ '\r' ≠ Board.digit monkey := by
    revert monkey
    decide
  have hname : ∀ action ∈ Action.all, '\n' ∉ action.name.toList ∧ '\r' ∉ action.name.toList := by
    decide +kernel
  obtain ⟨hn, hr⟩ := hname action (Action.mem_all action)
  constructor
  · simp [Instruction.text, ofNat_numberOf, hdigit.1, hn]
  · simp [Instruction.text, ofNat_numberOf, hdigit.2, hr]

theorem onOneLine_commented (instruction : Instruction) {comment : List Char}
    (h : OnOneLine comment) : OnOneLine (instruction.text ++ ' ' :: comment) := by
  obtain ⟨hn, hr⟩ := onOneLine_text instruction
  constructor
  · simp [hn, h.newline]
  · simp [hr, h.carriageReturn]

theorem parse_text (strict : Bool) (instruction : Instruction) :
    parse strict instruction.text = [instruction] := by
  rw [parse_of_newline_not_mem (onOneLine_text instruction).newline, parseLine?_text]
  rfl

theorem parse_commented (strict : Bool) (instruction : Instruction) {comment : List Char}
    (h : OnOneLine comment) :
    parse strict (instruction.text ++ ' ' :: comment) = if strict then [] else [instruction] := by
  rw [parse_of_newline_not_mem (onOneLine_commented instruction h).newline]
  cases strict with
  | false =>
    rw [parseLine?_commented]
    rfl
  | true =>
    rw [parseLine?_strict_commented]
    rfl

theorem parse_strict_of_nil (h : parse false line = []) : parse true line = [] := by
  have hsub := parse_strict_sublist line
  rw [h] at hsub
  exact List.sublist_nil.mp hsub

namespace Row

theorem onOneLine (row : Row) : OnOneLine row.text := by
  cases row with
  | bare instruction => exact onOneLine_text instruction
  | commented instruction comment h => exact onOneLine_commented instruction h
  | idle line h => exact h

theorem parse_text (row : Row) : parse false row.text = row.instruction?.toList ∧
    parse true row.text = row.bare?.toList := by
  cases row with
  | bare instruction => exact ⟨Troop.parse_text false instruction, Troop.parse_text true instruction⟩
  | commented instruction comment h =>
    exact ⟨parse_commented false instruction h, parse_commented true instruction h⟩
  | idle line h hidle => exact ⟨hidle, parse_strict_of_nil hidle⟩

end Row

theorem parse_listing (rows : List Row) : parse strict (listing rows) =
    rows.flatMap fun row => parse strict row.text := by
  have hrows : ∀ row ∈ rows.map Row.text, '\r' ∉ row := by
    rintro _ hmem
    obtain ⟨row, -, rfl⟩ := List.mem_map.mp hmem
    exact row.onOneLine.carriageReturn
  rw [listing, parse_intercalate hrows, List.flatMap_map]

theorem parse_listing_closed (rows : List Row) :
    parse strict (listing rows ++ ['\n']) = parse strict (listing rows) := by
  have hlast : (listing rows).getLast? ≠ some '\r' := by
    intro hlast
    rcases mem_intercalate (List.mem_of_getLast? hlast) with hmem | ⟨_, hrow, hmem⟩
    · exact absurd hmem (by decide)
    · obtain ⟨row, -, rfl⟩ := List.mem_map.mp hrow
      exact row.onOneLine.carriageReturn hmem
  rw [parse_append_cons hlast]
  exact List.append_nil _

/-- A listing is read as the instructions on its rows, whether or not its last row ends with a line feed,
and strictly as those on the rows without a comment. Strict reading never gives anything that reading does
not, and reading never looks beyond a line feed. -/
theorem listings_read_back :
    (∀ (rows : List Row) (ending : List Char), ending = [] ∨ ending = ['\n'] →
      parse false (listing rows ++ ending) = rows.filterMap Row.instruction? ∧
      parse true (listing rows ++ ending) = rows.filterMap Row.bare?) ∧
    (∀ source, (parse true source).Sublist (parse false source)) ∧
    ∀ (strict : Bool) (first second : List Char), first.getLast? ≠ some '\r' →
      parse strict (first ++ '\n' :: second) = parse strict first ++ parse strict second := by
  refine ⟨fun rows ending hending => ?_, parse_strict_sublist, fun strict first second h => ?_⟩
  · have hlisting : ∀ strict, parse strict (listing rows ++ ending) =
        rows.flatMap fun row => parse strict row.text := by
      intro strict
      rcases hending with rfl | rfl
      · rw [List.append_nil, parse_listing]
      · rw [parse_listing_closed, parse_listing]
    rw [hlisting, hlisting, List.filterMap_eq_flatMap_toList, List.filterMap_eq_flatMap_toList]
    exact ⟨List.flatMap_congr fun row _ => row.parse_text.1,
      List.flatMap_congr fun row _ => row.parse_text.2⟩
  · exact parse_append_cons h strict second

theorem onOneLine_nil : OnOneLine [] := ⟨List.not_mem_nil, List.not_mem_nil⟩

theorem onOneLine_tasty : OnOneLine "tasty".toList := by
  constructor <;> decide

theorem onOneLine_down : OnOneLine "0 DOWN".toList := by
  constructor <;> decide

theorem parse_down : parse false "0 DOWN".toList = [] := by
  decide +kernel

/-- Rows of every kind: a plan for one of the monkeys. -/
def plan (monkey : Fin 7) : List Row :=
  [.bare ⟨monkey, .up⟩, .idle "0 DOWN".toList onOneLine_down parse_down,
    .commented ⟨monkey, .eat⟩ "tasty".toList onOneLine_tasty,
    .idle [] onOneLine_nil rfl, .commented ⟨monkey, .left⟩ [] onOneLine_nil]

theorem plan_reads_back :
    listing (plan 6) ++ ['\n'] = "7 UP\n0 DOWN\n7 EAT tasty\n\n7 LEFT \n".toList ∧
      parse false (listing (plan 6) ++ ['\n']) = [⟨6, .up⟩, ⟨6, .eat⟩, ⟨6, .left⟩] ∧
      parse true (listing (plan 6) ++ ['\n']) = [⟨6, .up⟩] ∧
      (listing (plan 6)).getLast? ≠ some '\r' ∧
      parse true (listing (plan 6) ++ '\n' :: "4 EGO".toList) = [⟨6, .up⟩, ⟨3, .ego⟩] := by
  obtain ⟨hlistings, -, hjoined⟩ := listings_read_back
  obtain ⟨hread, hstrict⟩ := hlistings (plan 6) ['\n'] (.inr rfl)
  have hlast : (listing (plan 6)).getLast? ≠ some '\r' := by decide +kernel
  refine ⟨by decide +kernel, hread, hstrict, hlast, ?_⟩
  rw [hjoined true _ _ hlast]
  decide +kernel

end Esolang.Troop
