import Mathlib.Algebra.Group.Int.Defs
import Esolang.Proofs.Queue.Structured
import Esolang.Proofs.Stream.Forward
import Esolang.Proofs.Stream.Pending
import Esolang.Proofs.Text.Numeral

/-! Numbers in the input of an ABCR program. Reading one takes all signs and digits in front of the
first other character, which is left for the next reading, and what has been printed is read back. -/

namespace Esolang.Queue

/-- The characters that may belong to a number. -/
def numeralCharacters : List Char := "-+0123456789".toList

theorem mem_numeralCharacters_iff {c : Char} :
    c ∈ numeralCharacters ↔ Machine.isNumeric c = true := by
  constructor
  · intro h
    have hall : numeralCharacters.all Machine.isNumeric = true := rfl
    exact List.all_eq_true.mp hall c h
  · intro h
    simp only [Machine.isNumeric, Bool.or_eq_true, decide_eq_true_eq] at h
    rcases h with (rfl | rfl) | h
    · decide
    · decide
    · have hall : ∀ n < 10, (numeralCharacters.any fun d =>
          d.isDigit && Decimal.digitValue d = n) = true := by decide
      obtain ⟨d, hd, hdn⟩ := List.any_eq_true.mp (hall _ (Decimal.digitValue_lt h))
      rw [Bool.and_eq_true, decide_eq_true_eq] at hdn
      exact Decimal.digitValue_injective hdn.1 h hdn.2 ▸ hd

theorem mem_numeralCharacters_of_mem_ofInt {z : Int} {c : Char} (h : c ∈ Decimal.ofInt z) :
    c ∈ numeralCharacters := by
  rw [mem_numeralCharacters_iff, Machine.isNumeric]
  rcases Decimal.mem_ofInt h with rfl | hdigit
  · rfl
  · simp [hdigit]

namespace Machine

/-- The next step reads a number, and this numeral is what the pending text has in front of its first
character that belongs to none. -/
structure BeforeNumeral (m : Machine) (numeral rest : List Char) : Prop where
  instruction : m.program[m.pc]? = some .readSigned
  pending : m.input.Pending (numeral ++ rest)
  numeric : ∀ c ∈ numeral, c ∈ numeralCharacters
  behind : ∀ c ∈ rest.head?, c ∉ numeralCharacters
  ending : rest = [] → m.input.failure = none

namespace BeforeNumeral

variable {m : Machine} {numeral rest : List Char}

theorem split_eq (h : m.BeforeNumeral numeral rest) :
    (numeral ++ rest).takeWhile isNumeric = numeral ∧
      (numeral ++ rest).dropWhile isNumeric = rest := by
  have hnumeral : ∀ c ∈ numeral, isNumeric c = true := fun c hc =>
    mem_numeralCharacters_iff.mp (h.numeric c hc)
  rw [List.takeWhile_append_of_pos hnumeral, List.dropWhile_append_of_pos hnumeral]
  cases rest with
  | nil => simp
  | cons c rest =>
    have hc : isNumeric c = false := by
      simpa [mem_numeralCharacters_iff] using h.behind c rfl
    simp [hc]

theorem step_on (h : m.BeforeNumeral numeral rest) :
    ∃ input,
      step.on m = (.ok .proceed,
        { m with pc := m.pc + 1, register := (Decimal.int64? numeral).getD 0, input }) ∧
      input.Pending rest ∧ (Source.next.on input).1 = .ok rest.head? := by
  obtain ⟨htake, hdrop⟩ := h.split_eq
  obtain ⟨hfront, hlast⟩ := h.pending.readWhile isNumeric
  have hok := h.pending.readWhile_ok fun hnil => h.ending (hdrop ▸ hnil)
  have hfailure := Source.failure_readWhile isNumeric m.input
  have hloop : ∀ test stop, Instruction.readSigned ≠ .loop test stop := nofun
  have hstep := step_other hloop nofun h.instruction
  rcases hread : m.input.readWhile isNumeric with ⟨text, result, input⟩
  rw [hread] at hfront hlast hok hfailure
  obtain rfl : text = numeral := hfront.trans htake
  obtain rfl : result = .ok () := hok
  have hrest : input.Pending rest := hdrop ▸ hlast
  refine ⟨input, ?_, hrest, hrest.next_ok fun hnil => hfailure.trans (h.ending hnil)⟩
  rw [hstep]
  simp [perform, readSigned, hread, setRegister, goTo]

end BeforeNumeral

theorem step_printNumber {m : Machine} {name : QueueName} {value : Int64} (hm : m.Standard)
    (hc : m.program[m.pc]? = some (.printNumber name)) (hvalue : m.contents.front name = value)
    (hroom : m.output.Accepts (encodeText (Decimal.ofInt value.toInt))) :
    (step.on m).1 = .ok .proceed ∧
      (step.on m).2.output.bytes = m.output.bytes ++ encodeText (Decimal.ofInt value.toInt) := by
  have hcarries := step_carries hm hc
  have hprint : (Contents.perform (.printNumber name)).on m.contents =
      (.ok (), { m.contents with
        output := m.output.written (encodeText (Decimal.ofInt value.toInt)) }) := by
    have hwrite := hroom.writeNumber_on
    have houtput : m.contents.output = m.output := rfl
    simp [Contents.perform, Contents.peek, Contents.onOutput, hvalue, houtput, hwrite]
  have hresult := hcarries.result_eq
  have hcontents := hcarries.contents_eq
  rw [hprint] at hresult hcontents
  have houtput := congrArg Contents.output hcontents
  exact ⟨hresult, (congrArg Sink.bytes houtput).trans (Sink.bytes_written _ _)⟩

theorem exists_beforeNumeral {m : Machine} {text : List Char}
    (hc : m.program[m.pc]? = some .readSigned) (hpending : m.input.Pending text)
    (hend : m.input.failure = none ∨ ∃ c ∈ text, c ∉ numeralCharacters) :
    ∃ numeral rest, text = numeral ++ rest ∧ m.BeforeNumeral numeral rest := by
  have htext : text = text.takeWhile isNumeric ++ text.dropWhile isNumeric :=
    List.takeWhile_append_dropWhile.symm
  refine ⟨_, _, htext, hc, htext ▸ hpending, fun c hmem => ?_, fun c hhead => ?_, fun hnil => ?_⟩
  · exact mem_numeralCharacters_iff.mpr (List.mem_takeWhile_imp hmem)
  · have hother := List.head?_dropWhile_not isNumeric text
    rw [Option.mem_def.mp hhead] at hother
    simpa [mem_numeralCharacters_iff] using hother
  · refine hend.resolve_right ?_
    rintro ⟨c, hmem, hother⟩
    exact hother (mem_numeralCharacters_iff.mpr (List.dropWhile_eq_nil_iff.mp hnil c hmem))

/-- In front of any text there is one numeral to be read. Reading it goes right behind it, and leaves
the integer that it denotes in the register if it denotes one that a word holds, and zero otherwise.
What is printed for a word denotes this word. -/
theorem numbers_are_read_whole :
    (∀ (m : Machine) (text : List Char), m.program[m.pc]? = some .readSigned →
      m.input.Pending text → (m.input.failure = none ∨ ∃ c ∈ text, c ∉ numeralCharacters) →
      ∃ numeral rest, text = numeral ++ rest ∧ m.BeforeNumeral numeral rest) ∧
    (∀ (m : Machine) (numeral rest : List Char), m.BeforeNumeral numeral rest →
      ∃ register input,
        step.on m = (.ok .proceed, { m with pc := m.pc + 1, register, input }) ∧
        input.Pending rest ∧ (Source.next.on input).1 = .ok rest.head? ∧
        (∀ z, Decimal.Denotes numeral z → -2 ^ 63 ≤ z → z < 2 ^ 63 → register.toInt = z) ∧
        ((∀ z, Decimal.Denotes numeral z → z < -2 ^ 63 ∨ 2 ^ 63 ≤ z) → register = 0)) ∧
    ∀ value : Int64,
      (∀ (m : Machine) (name : QueueName), m.Standard →
        m.program[m.pc]? = some (.printNumber name) → m.contents.front name = value →
        m.output.Accepts (encodeText (Decimal.ofInt value.toInt)) →
        (step.on m).1 = .ok .proceed ∧
          (step.on m).2.output.bytes = m.output.bytes ++ encodeText (Decimal.ofInt value.toInt)) ∧
      ∀ (m : Machine) (rest : List Char), m.program[m.pc]? = some .readSigned →
        m.input.Pending (Decimal.ofInt value.toInt ++ rest) →
        (∀ c ∈ rest.head?, c ∉ numeralCharacters) → (rest = [] → m.input.failure = none) →
        ∃ input, step.on m = (.ok .proceed, { m with pc := m.pc + 1, register := value, input }) ∧
          input.Pending rest := by
  refine ⟨fun m text => exists_beforeNumeral, fun m numeral rest h => ?_, fun value => ⟨?_, ?_⟩⟩
  · obtain ⟨input, hstep, hrest, hnext⟩ := h.step_on
    refine ⟨_, input, hstep, hrest, hnext, fun z hz hlow hhigh => ?_, fun hnone => ?_⟩
    · have hword := Int64.toInt_ofInt_of_le hlow hhigh
      rw [← hword] at hz
      rw [Decimal.int64?_eq_some_iff.mpr hz]
      exact hword
    · have hread : Decimal.int64? numeral = none := by
        rw [Option.eq_none_iff_forall_ne_some]
        intro word hword
        have hlow := word.le_toInt
        have hhigh := word.toInt_lt
        have hout := hnone _ (Decimal.int64?_eq_some_iff.mp hword)
        omega
      rw [hread]
      rfl
  · exact fun m name => step_printNumber
  · intro m rest hc hpending hbehind hend
    have h : m.BeforeNumeral (Decimal.ofInt value.toInt) rest :=
      ⟨hc, hpending, fun c => mem_numeralCharacters_of_mem_ofInt, hbehind, hend⟩
    obtain ⟨input, hstep, hrest, -⟩ := h.step_on
    rw [Decimal.int64?_ofInt] at hstep
    exact ⟨input, hstep, hrest⟩

/-- The lowest word is in front, and its sign has been pushed back. -/
def beforeLowest : Machine :=
  { program := #[.readSigned]
    input := { bytes := encodeText "9223372036854775808é".toList, pushed := ['-'] }
    output := {} }

def beforeDifference : Machine :=
  { program := #[.readSigned], register := 5, input := .ofText "1-2".toList, output := {} }

/-- B is empty, and so its front is made up. -/
def printsFallback : Machine :=
  { program := #[.printNumber .b], input := .ofText [], output := {} }

theorem lowest_word_is_read_whole :
    (∃ input, step.on beforeLowest =
        (.ok .proceed, { beforeLowest with pc := 1, register := Int64.minValue, input }) ∧
      input.Pending ['é']) ∧
    (∃ input, step.on beforeDifference =
        (.ok .proceed, { beforeDifference with pc := 1, register := 0, input }) ∧
      (Source.next.on input).1 = .ok none) ∧
    (step.on printsFallback).2.output.bytes = [49] ∧
    ∃ numeral rest, "1-2".toList = numeral ++ rest ∧ beforeDifference.BeforeNumeral numeral rest := by
  obtain ⟨hsplit, hread, hprinted⟩ := numbers_are_read_whole
  refine ⟨?_, ?_, ?_, hsplit beforeDifference _ rfl ⟨_, rfl, rfl⟩ (.inl rfl)⟩
  · have hbehind : 'é' ∉ numeralCharacters := by decide
    exact (hprinted Int64.minValue).2 beforeLowest ['é'] rfl ⟨_, rfl, rfl⟩
      (fun c hc => Option.mem_some.mp hc ▸ hbehind) nofun
  · have hnone : ∀ z, ¬ Decimal.Denotes "1-2".toList z := by
      intro z hz
      have hinteger := Decimal.integer?_eq_some_iff.mpr hz
      rw [show Decimal.integer? "1-2".toList = none by decide] at hinteger
      cases hinteger
    have hall : "1-2".toList.all isNumeric = true := rfl
    have hnumeric : ∀ c ∈ "1-2".toList, c ∈ numeralCharacters := fun c hc =>
      mem_numeralCharacters_iff.mpr (List.all_eq_true.mp hall c hc)
    obtain ⟨register, input, hstep, -, hnext, -, hzero⟩ := hread beforeDifference "1-2".toList []
      ⟨rfl, ⟨_, rfl, rfl⟩, hnumeric, nofun, fun _ => rfl⟩
    obtain rfl : register = 0 := hzero fun z hz => absurd hz (hnone z)
    exact ⟨input, hstep, hnext⟩
  · have hstandard : printsFallback.Standard := ⟨⟨rfl, rfl⟩, ⟨rfl, rfl⟩, rfl, rfl⟩
    exact ((hprinted 1).1 printsFallback .b hstandard rfl rfl ⟨nofun, rfl⟩).2

end Machine

end Esolang.Queue
