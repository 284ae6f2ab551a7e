import Esolang.Proofs.Text.Brackets
import Esolang.Queue.Instruction

/-! Decoding a source: it succeeds only for texts that show a tree of loops, and the positions that
loop tests and loop ends hold are read off the tree. -/

namespace Esolang.Queue

def brackets : Brackets :=
  { opens := fun c => (Instruction.loopTest? c).isSome, closer := 'x', opens_closer := rfl }

abbrev Program := brackets.Tree

def testOf (c : brackets.Opener) : LoopTest := (Instruction.loopTest? c).get c.property

/-- The instructions of a program that stands at a position. -/
def instructions : Nat → Program → List Instruction
  | _, .done => []
  | k, .command c rest => .simple c :: instructions (k + 1) rest
  | k, .loop test body rest =>
    .loop (testOf test) (k + body.size + 1) :: (instructions (k + 1) body ++
      .endLoop k :: instructions (k + body.size + 2) rest)

theorem length_instructions (k : Nat) (program : Program) :
    (instructions k program).length = program.size := by
  induction program generalizing k with
  | done => rfl
  | command c rest ih => simp [instructions, Block.size, ih]
  | loop test body rest ihbody ihrest =>
    simp only [instructions, Block.size, List.length_cons, List.length_append, ihbody, ihrest]
    omega

namespace Decoding

theorem read_plain (d : Decoding) (c : brackets.Plain) :
    d.read c = .ok { d with program := d.program.push (.simple c) } := by
  obtain ⟨c, ho, hc⟩ := c
  have ho' : Instruction.loopTest? c = none := by simpa [brackets] using ho
  have hc' : c ≠ 'x' := hc
  simp [read, ho', hc']

theorem read_opener (d : Decoding) (c : brackets.Opener) :
    d.read c =
      .ok { program := d.program.push .nop, opened := (d.program.size, testOf c) :: d.opened } := by
  have ht : Instruction.loopTest? c = some (testOf c) := (Option.some_get c.property).symm
  simp [read, ht]

theorem read_closer (program : Array Instruction) (inside : List Instruction)
    (opened : List (Nat × LoopTest)) (test : LoopTest) :
    read
        { program := program.push .nop ++ inside.toArray
          opened := (program.size, test) :: opened } 'x' =
      .ok
        { program := program ++ (.loop test (program.size + inside.length + 1) ::
            (inside ++ [.endLoop program.size])).toArray
          opened } := by
  have hsize : program.size + 1 + inside.length = program.size + inside.length + 1 := by omega
  have ht : Instruction.loopTest? 'x' = none := rfl
  simp only [read, ht, if_true, Array.size_append, Array.size_push, List.size_toArray, hsize]
  congr 2
  apply Array.ext'
  simp

/-- Decoding a whole program links its own loops and leaves those that are open before it. -/
theorem foldlM_read_text (program : Program) (d : Decoding) :
    (brackets.text program).foldlM read d =
      .ok { d with program := d.program ++ (instructions d.program.size program).toArray } := by
  induction program generalizing d with
  | done => simp [Brackets.text, instructions]; rfl
  | command c rest ih => simp [Brackets.text, instructions, read_plain, ih]
  | loop test body rest ihbody ihrest =>
    have hclose := read_closer d.program (instructions (d.program.size + 1) body) d.opened
      (testOf test)
    rw [length_instructions] at hclose
    rw [Brackets.text, List.foldlM_cons, read_opener, ok_bind, List.foldlM_append, ihbody, ok_bind,
      List.foldlM_cons, show brackets.closer = 'x' from rfl]
    simp only [Array.size_push]
    rw [hclose, ok_bind, ihrest]
    simp [instructions, length_instructions, ← Nat.add_assoc]

/-- What can be read to an end without open loops closes those that are open in front of it. -/
theorem closes_of_foldlM {source : List Char} {d last : Decoding}
    (h : source.foldlM read d = .ok last) (hl : last.opened = []) :
    brackets.Closes d.opened.length source := by
  induction source generalizing d with
  | nil =>
    obtain rfl : d = last := Except.ok.inj h
    simp [Brackets.Closes, hl]
  | cons c rest ih =>
    rw [List.foldlM_cons] at h
    by_cases ho : brackets.opens c = true
    · rw [show d.read c = _ from read_opener d ⟨c, ho⟩, ok_bind] at h
      simpa [Brackets.Closes, ho] using ih h
    · by_cases hc : c = 'x'
      · subst hc
        obtain ⟨program, opened⟩ := d
        cases opened with
        | nil => cases h
        | cons _ opened =>
          have ht : Instruction.loopTest? 'x' = none := rfl
          simp only [read, ht, if_true, ok_bind] at h
          simpa [Brackets.Closes, brackets, ht] using ih h
      · have hplain : brackets.opens c = false ∧ c ≠ brackets.closer := ⟨by simpa using ho, hc⟩
        rw [show d.read c = _ from read_plain d ⟨c, hplain⟩, ok_bind] at h
        simpa [Brackets.Closes, hplain] using ih h

end Decoding

theorem decode_text (program : Program) :
    decode (brackets.text program) = .ok (instructions 0 program).toArray := by
  simp [decode, Decoding.foldlM_read_text, Decoding.finish]

theorem exists_text_of_decode {source : List Char} {code : Array Instruction}
    (h : decode source = .ok code) : ∃ program, brackets.text program = source := by
  rw [← Brackets.closes_iff_exists]
  rcases hf : source.foldlM Decoding.read {} with e | last
  · simp [decode, hf] at h
  · rw [decode, hf, ok_bind] at h
    apply Decoding.closes_of_foldlM hf
    cases ho : last.opened with
    | nil => rfl
    | cons _ _ => simp [Decoding.finish, ho] at h

end Esolang.Queue
