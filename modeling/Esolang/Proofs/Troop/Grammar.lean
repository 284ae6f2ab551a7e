import Esolang.Proofs.Text.Lines
import Esolang.Proofs.Text.Numeral
import Esolang.Troop.Board

/-! The lines that are read as instructions. A line names its monkey by a numeral, and after one space
its action; a line that goes on after another space is read unless reading is strict. The numeral may
have a plus sign and zeros in front of its digit, so that more lines are read than those that name
their monkey by a single digit. -/

namespace Esolang.Troop

/-- The numeral of a monkey is its digit. -/
def SingleDigit (monkey : Fin 7) (number : List Char) : Prop := number = [Board.digit monkey]

/-- The numeral of a monkey is its digit, with any zeros in front, and maybe a plus sign in front of
these. -/
def SignedNumeral (monkey : Fin 7) (number : List Char) : Prop :=
  ∃ sign zeros, (sign = [] ∨ sign = ['+']) ∧ (∀ d ∈ zeros, d = '0') ∧
    number = sign ++ (zeros ++ [Board.digit monkey])

/-- A line that spells an instruction, with the numerals that are admitted. -/
def Spells (Numeral : Fin 7 → List Char → Prop) (strict : Bool) (line : List Char)
    (instruction : Instruction) : Prop :=
  ∃ number tail, Numeral instruction.monkey number ∧
    line = number ++ ' ' :: (instruction.action.name.toList ++ tail) ∧
    (tail = [] ∨ strict = false ∧ ∃ comment, tail = ' ' :: comment)

/-- The instructions that some lines spell, in order. Lines that spell none are dropped. -/
inductive Lists (Line : List Char → Instruction → Prop) :
    List (List Char) → List Instruction → Prop where
  | nil : Lists Line [] []
  | spelled {line : List Char} {instruction : Instruction} {lines : List (List Char)}
      {program : List Instruction} (h : Line line instruction) (rest : Lists Line lines program) :
      Lists Line (line :: lines) (instruction :: program)
  | dropped {line : List Char} {lines : List (List Char)} {program : List Instruction}
      (h : ∀ instruction, ¬ Line line instruction) (rest : Lists Line lines program) :
      Lists Line (line :: lines) program

theorem ofName?_eq_some_iff {text : List Char} {action : Action} :
    Action.ofName? text = some action ↔ text = action.name.toList := by
  constructor
  · intro h
    have hname := List.find?_some h
    exact (of_decide_eq_true hname).symm
  · rintro rfl
    cases action <;> decide +kernel

theorem bind_monkeyOfNumber?_eq_some_iff {found : Option Nat} {monkey : Fin 7} :
    found.bind monkeyOfNumber? = some monkey ↔
      found = some (Decimal.digitValue (Board.digit monkey)) := by
  have hvalue : ∀ m : Fin 7, Decimal.digitValue (Board.digit m) = m + 1 := by decide
  rw [Option.bind_eq_some_iff, hvalue]
  constructor
  · rintro ⟨number, rfl, h⟩
    rw [monkeyOfNumber?, Option.dite_none_right_eq_some] at h
    obtain ⟨hrange, hm⟩ := h
    have hnumber := congrArg Fin.val (Option.some.inj hm)
    simp only at hnumber
    congr 1
    omega
  · rintro rfl
    refine ⟨_, rfl, ?_⟩
    revert monkey
    decide

theorem numeral_iff {number : List Char} {monkey : Fin 7} :
    (Decimal.natural? number).bind monkeyOfNumber? = some monkey ↔ SignedNumeral monkey number := by
  have hdigit : (Board.digit monkey).isDigit = true := by
    revert monkey
    decide
  rw [bind_monkeyOfNumber?_eq_some_iff, Decimal.natural?_eq_some_iff]
  constructor
  · rintro ⟨sign, digits, hsign, rfl, h⟩
    obtain ⟨zeros, hzeros, rfl⟩ := (Decimal.digits?_eq_some_digit_iff hdigit).mp h
    exact ⟨sign, zeros, hsign, hzeros, rfl⟩
  · rintro ⟨sign, zeros, hsign, hzeros, rfl⟩
    exact ⟨sign, _, hsign, rfl, (Decimal.digits?_eq_some_digit_iff hdigit).mpr ⟨zeros, hzeros, rfl⟩⟩

theorem space_not_mem_name (action : Action) : ' ' ∉ action.name.toList := by
  cases action <;> decide +kernel

theorem SignedNumeral.space_not_mem {monkey : Fin 7} {number : List Char}
    (h : SignedNumeral monkey number) : ' ' ∉ number := by
  obtain ⟨sign, zeros, hsign, hzeros, rfl⟩ := h
  have hdigit : ' ' ≠ Board.digit monkey := by
    revert monkey
    decide
  have hzero : ' ' ∉ zeros := fun hm => absurd (hzeros _ hm) (by decide)
  rcases hsign with rfl | rfl <;> simp [hdigit, hzero]

/-- A line is read exactly if it spells an instruction. -/
theorem parseLine?_eq_some_iff {strict : Bool} {line : List Char} {instruction : Instruction} :
    parseLine? strict line = some instruction ↔ Spells SignedNumeral strict line instruction := by
  constructor
  · intro h
    rw [parseLine?] at h
    split at h
    · rename_i number name comment hsplit
      have hline : [' '].intercalate (line.splitOn ' ') = line := List.intercalate_splitOn ' '
      rw [hsplit] at hline
      split at h
      · cases h
      · rename_i hstrict
        split at h
        · rename_i monkey action hmonkey haction
          obtain rfl := Option.some.inj h
          rw [ofName?_eq_some_iff] at haction
          cases comment with
          | nil =>
            refine ⟨number, [], numeral_iff.mp hmonkey, ?_, .inl rfl⟩
            simpa [List.intercalate_cons_cons, haction] using hline.symm
          | cons word words =>
            refine ⟨number, ' ' :: [' '].intercalate (word :: words), numeral_iff.mp hmonkey, ?_,
              .inr ⟨by simpa using hstrict, _, rfl⟩⟩
            simpa [List.intercalate_cons_cons, haction] using hline.symm
        · cases h
    · cases h
  · rintro ⟨number, tail, hnumber, rfl, htail⟩
    have hmonkey := numeral_iff.mpr hnumber
    have haction := ofName?_eq_some_iff.mpr (rfl : _ = instruction.action.name.toList)
    have hname := space_not_mem_name instruction.action
    rw [parseLine?, List.splitOn_append_cons_self_of_not_mem hnumber.space_not_mem]
    rcases htail with rfl | ⟨rfl, comment, rfl⟩
    · rw [List.append_nil, List.splitOn_eq_singleton hname]
      simp [hmonkey, haction]
    · rw [List.splitOn_append_cons_self_of_not_mem hname]
      simp [hmonkey, haction]

theorem filterMap_eq_iff_lists {read : List Char → Option Instruction}
    {Line : List Char → Instruction → Prop}
    (h : ∀ line instruction, read line = some instruction ↔ Line line instruction)
    {lines : List (List Char)} {program : List Instruction} :
    lines.filterMap read = program ↔ Lists Line lines program := by
  constructor
  · rintro rfl
    induction lines with
    | nil => exact .nil
    | cons line lines ih =>
      cases hline : read line with
      | none =>
        rw [List.filterMap_cons_none hline]
        exact .dropped (fun instruction hi => by simp [(h line instruction).mpr hi] at hline) ih
      | some instruction =>
        rw [List.filterMap_cons_some hline]
        exact .spelled ((h line instruction).mp hline) ih
  · intro hlists
    induction hlists with
    | nil => rfl
    | spelled hline _ ih => rw [List.filterMap_cons_some ((h _ _).mpr hline), ih]
    | @dropped line _ _ hline _ ih =>
      have hnone : read line = none :=
        Option.eq_none_iff_forall_ne_some.mpr fun i hi => hline i ((h _ _).mp hi)
      rw [List.filterMap_cons_none hnone, ih]

theorem lists_of_none {Line : List Char → Instruction → Prop} {lines : List (List Char)}
    (h : ∀ line ∈ lines, ∀ instruction, ¬ Line line instruction) {program : List Instruction} :
    Lists Line lines program ↔ program = [] := by
  constructor
  · intro hlists
    induction hlists with
    | nil => rfl
    | spelled hline _ _ => exact absurd hline (h _ List.mem_cons_self _)
    | dropped _ _ ih => exact ih fun line hmem => h line (List.mem_cons_of_mem _ hmem)
  · rintro rfl
    induction lines with
    | nil => exact .nil
    | cons line lines ih =>
      obtain ⟨hline, hrest⟩ := List.forall_mem_cons.mp h
      exact .dropped hline (ih hrest)

section

variable {Line More : List Char → Instruction → Prop} {lines : List (List Char)}
  {program longer : List Instruction}
  (hle : ∀ line instruction, Line line instruction → More line instruction)
include hle

theorem Lists.length_le (h : Lists Line lines program) (hmore : Lists More lines longer) :
    program.length ≤ longer.length := by
  induction h generalizing longer with
  | nil => exact Nat.zero_le _
  | @spelled line instruction _ _ hline _ ih =>
    cases hmore with
    | spelled _ rest => exact Nat.succ_le_succ (ih rest)
    | dropped hno _ => exact absurd (hle line instruction hline) (hno instruction)
  | dropped _ _ ih =>
    cases hmore with
    | spelled _ rest => exact Nat.le_succ_of_le (ih rest)
    | dropped _ rest => exact ih rest

/-- Of two ways to spell instructions the one that admits more lines lists the same program exactly if
none of the lines is admitted by it alone. -/
theorem lists_iff_of_le (hone : ∀ line i j, More line i → More line j → i = j)
    (hmore : Lists More lines program) : Lists Line lines program ↔
      ∀ line ∈ lines, ∀ instruction, More line instruction → Line line instruction := by
  induction hmore with
  | nil => exact iff_of_true .nil (by simp)
  | @spelled line instruction lines program hline rest ih =>
    rw [List.forall_mem_cons, ← ih]
    constructor
    · intro h
      cases h with
      | spelled hspelled hrest =>
        exact ⟨fun other hother => hone line _ _ hline hother ▸ hspelled, hrest⟩
      | dropped _ hrest =>
        have hlength := hrest.length_le hle rest
        rw [List.length_cons] at hlength
        omega
    · rintro ⟨hspelled, hrest⟩
      exact .spelled (hspelled instruction hline) hrest
  | @dropped line lines program hno rest ih =>
    rw [List.forall_mem_cons, ← ih]
    constructor
    · intro h
      cases h with
      | spelled hspelled _ => exact absurd (hle line _ hspelled) (hno _)
      | dropped _ hrest => exact ⟨fun i hi => absurd hi (hno i), hrest⟩
    · rintro ⟨-, hrest⟩
      exact .dropped (fun i hi => hno i (hle line i hi)) hrest

end

theorem SingleDigit.signedNumeral {monkey : Fin 7} {number : List Char}
    (h : SingleDigit monkey number) : SignedNumeral monkey number :=
  ⟨[], [], .inl rfl, by simp, h⟩

theorem Spells.mono {Numeral More : Fin 7 → List Char → Prop}
    (h : ∀ monkey number, Numeral monkey number → More monkey number) {strict : Bool}
    {line : List Char} {instruction : Instruction} (hs : Spells Numeral strict line instruction) :
    Spells More strict line instruction := by
  obtain ⟨number, tail, hnumber, hline, htail⟩ := hs
  exact ⟨number, tail, h _ _ hnumber, hline, htail⟩

/-- The program of a source is what its lines spell, with the digit of a monkey behind any zeros and
maybe a plus sign. So it is what they spell with a single digit exactly if no line that is read has
more than that digit in front of its first space. -/
theorem parse_lists_lines (strict : Bool) (source : List Char) :
    (∀ program, parse strict source = program ↔
      Lists (Spells SignedNumeral strict) (lines source) program) ∧
    (Lists (Spells SingleDigit strict) (lines source) (parse strict source) ↔
      ∀ line ∈ lines source, ∀ instruction,
        Spells SignedNumeral strict line instruction → Spells SingleDigit strict line instruction) := by
  have hlists : ∀ program, parse strict source = program ↔
      Lists (Spells SignedNumeral strict) (lines source) program := fun program =>
    filterMap_eq_iff_lists fun _ _ => parseLine?_eq_some_iff
  refine ⟨hlists, lists_iff_of_le ?_ ?_ ((hlists _).mp rfl)⟩
  · exact fun line instruction => Spells.mono fun _ _ => SingleDigit.signedNumeral
  · intro line i j hi hj
    rw [← parseLine?_eq_some_iff] at hi hj
    exact Option.some.inj (hi.symm.trans hj)

def signed : List Char := "+1 UP\n02 EAT".toList

theorem signed_numbers_are_read :
    (∀ strict, parse strict signed = [⟨0, .up⟩, ⟨1, .eat⟩]) ∧
      (∀ strict, Lists (Spells SingleDigit strict) (lines signed) []) ∧
      ¬ ∀ strict source,
        Lists (Spells SingleDigit strict) (lines source) (parse strict source) := by
  have hread : ∀ strict, parse strict signed = [⟨0, .up⟩, ⟨1, .eat⟩] := by decide +kernel
  have hlines : lines signed = ["+1 UP".toList, "02 EAT".toList] := by decide +kernel
  have hno : ∀ strict, ∀ line ∈ lines signed, ∀ instruction,
      ¬ Spells SingleDigit strict line instruction := by
    rintro strict line hmem instruction ⟨number, tail, rfl, rfl, -⟩
    rw [hlines] at hmem
    simp at hmem
  refine ⟨hread, fun strict => (lists_of_none (hno strict)).mpr rfl, fun h => ?_⟩
  have hlists := h true signed
  rw [hread, lists_of_none (hno true)] at hlists
  cases hlists

end Esolang.Troop
