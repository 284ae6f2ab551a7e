import Esolang.Proofs.Queue.Decoding
import Esolang.Proofs.Tape.Matching

/-! Loops of ABCR and brackets of Brainfuck. A source with its loop markers written as brackets has a
jump table if the source can be decoded, and the other way round. The table then is what the program
shows of it: each loop test and each loop end holds the position of the other one. -/

namespace Esolang.Queue

/-- The position that an instruction holds, which is that of the other end of its loop. -/
def Instruction.partner? : Instruction → Option Nat
  | .loop _ stop => some stop
  | .endLoop start => some start
  | _ => none

theorem Instruction.partner?_simple (c : Char) : (Instruction.simple c).partner? = none := by
  unfold Instruction.simple
  split <;> rfl

theorem loopTest?_isSome_iff (c : Char) :
    (Instruction.loopTest? c).isSome ↔ c ∈ ['4', '5', '6', '7'] := by
  constructor
  · intro h
    unfold Instruction.loopTest? at h
    split at h <;> simp at h ⊢
  · intro h
    simp only [List.mem_cons, List.not_mem_nil, or_false] at h
    rcases h with rfl | rfl | rfl | rfl <;> rfl

/-- A way to write loop markers as brackets. Any other character becomes one that is no bracket. -/
structure Transcription where
  write : Char → Char
  write_test : ∀ c ∈ ['4', '5', '6', '7'], write c = '['
  write_end : write 'x' = ']'
  write_other : ∀ c ∉ ['4', '5', '6', '7', 'x'], write c ≠ '[' ∧ write c ≠ ']'

/-- Two passes both succeed, with results that are related, or both fail at the same position. -/
inductive Alike {α β : Type} (related : α → β → Prop) :
    Except SourceError α → Except SourceError β → Prop where
  | ok {a : α} {b : β} (h : related a b) : Alike related (.ok a) (.ok b)
  | error (index : Nat) (side : BracketSide) :
      Alike related (.error (.unmatchedLoop index)) (.error (.unmatchedBracket index side))

theorem Alike.bind {α β γ δ : Type} {related : α → β → Prop} {related' : γ → δ → Prop}
    {x : Except SourceError α} {y : Except SourceError β} {f : α → Except SourceError γ}
    {g : β → Except SourceError δ} (h : Alike related x y)
    (hrest : ∀ a b, related a b → Alike related' (f a) (g b)) :
    Alike related' (x >>= f) (y >>= g) := by
  cases h with
  | ok h => exact hrest _ _ h
  | error index side => exact .error index side

namespace Decoding

/-- What a pass over the brackets knows after the same text. -/
def pairing (d : Decoding) : Tape.Pairing :=
  { table := d.program.map Instruction.partner?, opened := d.opened.map Prod.fst }

/-- A loop ends behind its test, and the tests without an end are already in the program. -/
structure Forward (d : Decoding) : Prop where
  opened : ∀ start test, (start, test) ∈ d.opened → start < d.program.size
  loop : ∀ (i : Nat) test stop, d.program[i]? = some (.loop test stop) → i < stop
  endLoop : ∀ (i : Nat) start, d.program[i]? = some (.endLoop start) → start < i

variable {d : Decoding} {instruction : Instruction}

theorem Forward.push (hd : d.Forward) (h : instruction.partner? = none)
    {opened : List (Nat × LoopTest)}
    (hopened : ∀ start test, (start, test) ∈ opened → start < d.program.size + 1) :
    Forward { program := d.program.push instruction, opened } := by
  have hone : ∀ (i : Nat) held, (d.program.push instruction)[i]? = some held →
      held.partner? ≠ none → d.program[i]? = some held := by
    intro i held hi hheld
    rw [Array.getElem?_push] at hi
    split at hi
    · cases hi
      exact absurd h hheld
    · exact hi
  refine ⟨?_, fun i test stop hi => hd.loop i test stop (hone i _ hi (by simp [Instruction.partner?])),
    fun i start hi => hd.endLoop i start (hone i _ hi (by simp [Instruction.partner?]))⟩
  intro start test hmem
  rw [Array.size_push]
  exact hopened start test hmem

theorem Forward.close (hd : d.Forward) {start : Nat} {test : LoopTest}
    {opened : List (Nat × LoopTest)} (ho : d.opened = (start, test) :: opened) :
    Forward
      { program := (d.program.push (.endLoop start)).setIfInBounds start (.loop test d.program.size)
        opened } := by
  have hstart : start < d.program.size := hd.opened start test (by simp [ho])
  have hloop := hd.loop
  have hend := hd.endLoop
  refine ⟨fun other t hmem => ?_, fun i t stop hi => ?_, fun i other hi => ?_⟩
  · have hother := hd.opened other t (by simp [ho, hmem])
    rw [Array.size_setIfInBounds, Array.size_push]
    omega
  · rw [Array.getElem?_setIfInBounds, Array.size_push, Array.getElem?_push] at hi
    grind
  · rw [Array.getElem?_setIfInBounds, Array.size_push, Array.getElem?_push] at hi
    grind

/-- The second pass knows what the first one does. -/
structure Mirrors (d : Decoding) (p : Tape.Pairing) : Prop where
  pairing_eq : p = d.pairing
  forward : d.Forward

theorem read_test_alike (hd : d.Forward) {c : Char} (hc : brackets.opens c = true) :
    Alike Mirrors (d.read c) (d.pairing.read '[') := by
  rw [show d.read c = _ from read_opener d ⟨c, hc⟩]
  refine .ok ⟨by simp [pairing, Instruction.partner?], hd.push rfl fun start test hmem => ?_⟩
  rcases List.mem_cons.mp hmem with hnew | hmem
  · cases hnew
    exact Nat.lt_succ_self _
  · exact Nat.lt_succ_of_lt (hd.opened start test hmem)

theorem read_end_alike (hd : d.Forward) : Alike Mirrors (d.read 'x') (d.pairing.read ']') := by
  cases hopened : d.opened with
  | nil =>
    have hread : d.read 'x' = .error (.unmatchedLoop d.program.size) := by
      simp [read, Instruction.loopTest?, hopened]
    have hpair : d.pairing.read ']' = .error (.unmatchedBracket d.program.size .closing) := by
      simp [pairing, Tape.Pairing.read, hopened]
    rw [hread, hpair]
    exact .error _ _
  | cons top opened =>
    obtain ⟨start, test⟩ := top
    have hread : d.read 'x' = .ok
        { program := (d.program.push (.endLoop start)).setIfInBounds start
            (.loop test d.program.size)
          opened } := by
      simp [read, Instruction.loopTest?, hopened]
    rw [hread]
    have hpair : d.pairing.read ']' = .ok (pairing
        { program := (d.program.push (.endLoop start)).setIfInBounds start
            (.loop test d.program.size)
          opened }) := by
      simp [pairing, Tape.Pairing.read, hopened, Instruction.partner?]
    rw [hpair]
    exact .ok ⟨rfl, hd.close hopened⟩

theorem read_other_alike (hd : d.Forward) (c : brackets.Plain) (other : Tape.brackets.Plain) :
    Alike Mirrors (d.read c) (d.pairing.read other) := by
  rw [read_plain, Tape.Pairing.read_plain]
  have hnone := Instruction.partner?_simple c
  refine .ok ⟨by simp [pairing, hnone], hd.push hnone fun start test hmem => ?_⟩
  exact Nat.lt_succ_of_lt (hd.opened start test hmem)

/-- One character is read alike by both passes. -/
theorem read_alike (t : Transcription) (hd : d.Forward) (c : Char) :
    Alike Mirrors (d.read c) (d.pairing.read (t.write c)) := by
  by_cases ho : brackets.opens c = true
  · rw [t.write_test c ((loopTest?_isSome_iff c).mp ho)]
    exact read_test_alike hd ho
  · by_cases hc : c = 'x'
    · rw [hc, t.write_end]
      exact read_end_alike hd
    · have hno : c ∉ ['4', '5', '6', '7'] := fun hmem => ho ((loopTest?_isSome_iff c).mpr hmem)
      obtain ⟨hopening, hclosing⟩ := t.write_other c (by simpa [hc] using hno)
      exact read_other_alike hd ⟨c, by simpa using ho, hc⟩
        ⟨t.write c, by simpa [Tape.brackets] using hopening, hclosing⟩

theorem foldlM_alike (t : Transcription) (hd : d.Forward) (source : List Char) :
    Alike Mirrors (source.foldlM read d)
      ((source.map t.write).foldlM Tape.Pairing.read d.pairing) := by
  induction source generalizing d with
  | nil => exact .ok ⟨rfl, hd⟩
  | cons c rest ih =>
    rw [List.map_cons, List.foldlM_cons, List.foldlM_cons]
    refine (read_alike t hd c).bind fun next p hnext => ?_
    obtain ⟨rfl, hforward⟩ := hnext
    exact ih hforward

theorem finish_alike {p : Tape.Pairing} (h : Mirrors d p) :
    Alike (fun program table => Mirrors { program } { table }) d.finish p.finish := by
  obtain ⟨rfl, hd⟩ := h
  obtain ⟨program, opened⟩ := d
  cases opened with
  | nil => exact .ok ⟨rfl, hd⟩
  | cons top opened => exact .error _ _

end Decoding

/-- A jump table has two positions for each other's partners, the first of them in front. -/
def Pairs (table : Array (Option Nat)) (i j : Nat) : Prop :=
  i < j ∧ table[i]? = some (some j) ∧ table[j]? = some (some i)

variable {program : Array Instruction} {table : Array (Option Nat)}

theorem getElem?_of_mirrors (h : Decoding.Mirrors { program } { table }) {i j : Nat} :
    table[i]? = some (some j) ↔
      (∃ test, program[i]? = some (.loop test j)) ∨ program[i]? = some (.endLoop j) := by
  obtain rfl : table = program.map Instruction.partner? :=
    congrArg Tape.Pairing.table h.pairing_eq
  rw [Array.getElem?_map, Option.map_eq_some_iff]
  constructor
  · rintro ⟨instruction, hi, hj⟩
    cases instruction <;> simp_all [Instruction.partner?]
  · rintro (⟨test, hi⟩ | hi)
    · exact ⟨_, hi, rfl⟩
    · exact ⟨_, hi, rfl⟩

theorem pairs_iff {code : List Char} (h : Decoding.Mirrors { program } { table })
    (hreads : Tape.Pairing.Reads code { table }) (i j : Nat) :
    ((∃ test, program[i]? = some (.loop test j)) ↔ Pairs table i j) ∧
      (program[j]? = some (.endLoop i) ↔ Pairs table i j) := by
  refine ⟨⟨?_, ?_⟩, ⟨?_, ?_⟩⟩
  · rintro ⟨test, hi⟩
    have htable := (getElem?_of_mirrors h).mpr (.inl ⟨test, hi⟩)
    exact ⟨h.forward.loop i test j hi, htable, hreads.paired i j htable⟩
  · rintro ⟨hlt, hi, -⟩
    refine ((getElem?_of_mirrors h).mp hi).resolve_right fun hend => ?_
    have hback := h.forward.endLoop i j hend
    omega
  · intro hj
    have htable := (getElem?_of_mirrors h).mpr (.inr hj)
    exact ⟨h.forward.endLoop j i hj, hreads.paired j i htable, htable⟩
  · rintro ⟨hlt, -, hj⟩
    refine ((getElem?_of_mirrors h).mp hj).resolve_left ?_
    rintro ⟨test, hloop⟩
    have hback := h.forward.loop j test i hloop
    omega

theorem decode_mirrors (t : Transcription) (source : List Char) :
    Alike (fun program table => Decoding.Mirrors { program } { table }) (decode source)
      (Tape.jumpTable (source.map t.write)) := by
  have hstart : Decoding.Forward {} := ⟨by simp, by simp, by simp⟩
  have hnew : Decoding.pairing {} = {} := by simp [Decoding.pairing]
  have hpass := Decoding.foldlM_alike t hstart source
  rw [hnew] at hpass
  exact hpass.bind fun _ _ => Decoding.finish_alike

/-- A source can be decoded exactly if its brackets have a jump table. It then has one instruction for
each character, and for each two positions that the table pairs a loop test and a loop end that hold
each other's positions, and no other ones. If it cannot be decoded, both fail at the same position. -/
theorem decode_alike_jumpTable (t : Transcription) (source : List Char) :
    Alike
      (fun program table => program.size = source.length ∧ ∀ i j : Nat,
        ((∃ test, program[i]? = some (.loop test j)) ↔ Pairs table i j) ∧
        (program[j]? = some (.endLoop i) ↔ Pairs table i j))
      (decode source) (Tape.jumpTable (source.map t.write)) := by
  have halike := decode_mirrors t source
  generalize hdecode : decode source = decoded at halike ⊢
  generalize htable : Tape.jumpTable (source.map t.write) = paired at halike ⊢
  cases halike with
  | error index side => exact .error index side
  | @ok program table h =>
    have hreads := Tape.reads_of_jumpTable htable
    have hsize : table.size = program.size := by
      have hmap := congrArg (fun p => p.table.size) h.pairing_eq
      simpa [Decoding.pairing] using hmap
    exact .ok ⟨by simpa [hsize] using hreads.size, pairs_iff h hreads⟩

/-- Dots stand for all that is no loop marker. -/
def Transcription.dotted : Transcription where
  write c := if c ∈ ['4', '5', '6', '7'] then '[' else if c = 'x' then ']' else '.'
  write_test c hc := by rw [if_pos hc]
  write_end := rfl
  write_other c hc := by
    have hno : c ∉ ['4', '5', '6', '7'] ∧ c ≠ 'x' := by simpa [not_or, and_assoc] using hc
    rw [if_neg hno.1, if_neg hno.2]
    decide

def looping : List Char := "7(6[xx".toList

theorem looping_alike :
    looping.map Transcription.dotted.write = "[.[.]]".toList ∧
      decode looping = .ok
        #[.loop .register 5, .decrement, .loop (.peek .c) 4, .nop, .endLoop 2, .endLoop 0] ∧
      ∃ table, Tape.jumpTable (looping.map Transcription.dotted.write) = .ok table ∧
        Pairs table 0 5 ∧ Pairs table 2 4 ∧ ¬ Pairs table 0 4 := by
  have hdecode : decode looping = .ok
      #[.loop .register 5, .decrement, .loop (.peek .c) 4, .nop, .endLoop 2, .endLoop 0] := by
    decide +kernel
  have halike := decode_alike_jumpTable .dotted looping
  rw [hdecode] at halike
  refine ⟨by decide +kernel, hdecode, ?_⟩
  generalize Tape.jumpTable (looping.map Transcription.dotted.write) = paired at halike ⊢
  cases halike with
  | @ok _ table h =>
    exact ⟨table, rfl, (h.2 0 5).2.mp rfl, (h.2 2 4).2.mp rfl, fun hp => by
      have hend := (h.2 0 4).2.mpr hp
      simp at hend⟩

end Esolang.Queue
