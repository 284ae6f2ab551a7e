import Esolang.Proofs.Text.Brackets
import Esolang.Tape.Jumps

/-! The jump table of a text that shows a tree: the partners of its brackets, read off the tree. -/

namespace Esolang.Tape

def brackets : Brackets := { opens := (· == '['), closer := ']', opens_closer := rfl }

abbrev Program := brackets.Tree

def partners : Nat → Program → List (Option Nat)
  | _, .done => []
  | k, .command _ rest => none :: partners (k + 1) rest
  | k, .loop _ body rest =>
    some (k + body.size + 1) :: (partners (k + 1) body ++
      some k :: partners (k + body.size + 2) rest)

theorem length_partners (k : Nat) (program : Program) :
    (partners k program).length = program.size := by
  induction program generalizing k with
  | done => rfl
  | command c rest ih => simp [partners, Block.size, ih]
  | loop test body rest ihbody ihrest =>
    simp only [partners, Block.size, List.length_cons, List.length_append, ihbody, ihrest]
    omega

theorem Pairing.read_plain (p : Pairing) (c : brackets.Plain) :
    p.read c = .ok { p with table := p.table.push none } := by
  obtain ⟨c, ho, hc⟩ := c
  have ho' : c ≠ '[' := by simpa [brackets] using ho
  have hc' : c ≠ ']' := hc
  simp [Pairing.read]

theorem Pairing.read_opener (p : Pairing) (c : brackets.Opener) :
    p.read c = .ok { table := p.table.push none, opened := p.table.size :: p.opened } := by
  obtain ⟨c, ho⟩ := c
  obtain rfl : c = '[' := by simpa [brackets] using ho
  rfl

/-- A closing bracket behind the inside of a loop gets its partner, and becomes that of it. -/
theorem Pairing.read_closer (table : Array (Option Nat)) (inside : List (Option Nat))
    (opened : List Nat) :
    Pairing.read { table := table.push none ++ inside.toArray, opened := table.size :: opened } ']' =
      .ok
        { table := table ++ (some (table.size + inside.length + 1) ::
            (inside ++ [some table.size])).toArray
          opened } := by
  have hsize : table.size + 1 + inside.length = table.size + inside.length + 1 := by omega
  simp only [read, Array.size_append, Array.size_push, List.size_toArray, hsize]
  congr 2
  apply Array.ext'
  simp

/-- Reading a whole program pairs its own brackets and leaves those that are open before it. -/
theorem Pairing.foldlM_read_text (program : Program) (p : Pairing) :
    (brackets.text program).foldlM Pairing.read p =
      .ok { p with table := p.table ++ (partners p.table.size program).toArray } := by
  induction program generalizing p with
  | done => simp [Brackets.text, partners]; rfl
  | command c rest ih => simp [Brackets.text, partners, read_plain, ih]
  | loop test body rest ihbody ihrest =>
    have hclose := read_closer p.table (partners (p.table.size + 1) body) p.opened
    rw [length_partners] at hclose
    rw [Brackets.text, List.foldlM_cons, read_opener, ok_bind, List.foldlM_append, ihbody, ok_bind,
      List.foldlM_cons, show brackets.closer = ']' from rfl]
    simp only [Array.size_push]
    rw [hclose, ok_bind, ihrest]
    simp [partners, length_partners, ← Nat.add_assoc]

theorem jumpTable_text (program : Program) :
    jumpTable (brackets.text program) = .ok (partners 0 program).toArray := by
  simp [jumpTable, Pairing.foldlM_read_text, Pairing.finish]

end Esolang.Tape
