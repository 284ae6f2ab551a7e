import Esolang.Proofs.Control.Layout
import Esolang.Proofs.Tape.Pairing
import Esolang.Tape.Machine

/-! The structured meaning of a Brainfuck program, and its agreement with the machine that runs the
text of the program by position. Commands work on what a program can see: pointer, memory and
streams. -/

namespace Esolang.Tape

structure Data where
  pointer : Int
  memory : Std.TreeMap Int Int
  input : Source
  output : Sink

namespace Data

def current (d : Data) : Int := d.memory.getD d.pointer 0

def put (value : Int) (d : Data) : Data := { d with memory := d.memory.insert d.pointer value }

def move (delta : Int) (d : Data) : Data := { d with pointer := d.pointer + delta }

def adjust (width : CellWidth) (delta : Int) : Call Data Error Unit :=
  .ofFunction fun d =>
    match width.add d.current delta with
    | some value => (.ok (), d.put value)
    | none => (.error (.fault .cellOverflow), d)

def write : Call Data Error Unit :=
  .ofFunction fun d =>
    let (result, output) := (Sink.writeCode d.current).on d.output
    (result, { d with output })

def read (width : CellWidth) : Call Data Error Unit :=
  .ofFunction fun d =>
    match Source.require.on d.input with
    | (.ok c, input) => (.ok (), { d with input }.put (width.wrap c.toNat))
    | (.error e, input) => (.error e, { d with input })

end Data

/-- What commands do on cells of a width; a loop goes on as long as the current cell is not zero. -/
def meaning (width : CellWidth) : Meaning brackets.Plain brackets.Opener Data where
  perform c :=
    match c.val with
    | '>' => modify (Data.move 1)
    | '<' => modify (Data.move (-1))
    | '+' => Data.adjust width 1
    | '-' => Data.adjust width (-1)
    | '.' => Data.write
    | ',' => Data.read width
    | _ => pure ()
  passes _ d := d.current ≠ 0

namespace Machine

def data (m : Machine) : Data := ⟨m.pointer, m.memory, m.input, m.output⟩

def withData (d : Data) (m : Machine) : Machine :=
  { m with pointer := d.pointer, memory := d.memory, input := d.input, output := d.output }

@[simp] theorem withData_data (m : Machine) : m.withData m.data = m := rfl

theorem adjust_on (delta : Int) (m : Machine) :
    (adjust delta).on m = (((Data.adjust m.width delta).on m.data).1,
      m.withData ((Data.adjust m.width delta).on m.data).2) := by
  have hc : m.data.current = m.current := rfl
  cases h : m.width.add m.current delta with
  | none => simp [adjust, Data.adjust, hc, h]
  | some value => simp [adjust, Data.adjust, hc, h]; rfl

theorem execute_plain (c : brackets.Plain) (m : Machine) :
    (execute c).on m = ((((meaning m.width).perform c).on m.data).1,
      m.withData (((meaning m.width).perform c).on m.data).2) := by
  obtain ⟨c, ho, hc⟩ := c
  simp only [execute, meaning]
  split
  · rfl
  · rfl
  · exact adjust_on 1 m
  · exact adjust_on (-1) m
  · simp only [writeCode, Data.write, Call.on_bind, Call.on_get, Call.on_onPart, Call.on_ofFunction]
    rfl
  · rcases h : Source.require.on m.input with ⟨_ | c, input⟩
    · simp [readCharacter, Data.read, data, h]; rfl
    · simp [readCharacter, Data.read, data, h]; rfl
  · simp [brackets] at ho
  · simp [brackets] at hc
  · split <;> simp_all

theorem step_plain {m : Machine} {c : brackets.Plain} {d : Data} (hc : m.code[m.ip]? = some c.val)
    (hd : ((meaning m.width).perform c).on m.data = (.ok (), d)) :
    step.on m = (.ok .proceed, (m.withData d).advance) := by
  have he := execute_plain c m
  rw [hd] at he
  simp [step, hc, he]

theorem step_plain_error {m : Machine} {c : brackets.Plain} {d : Data} {e : Error}
    (hc : m.code[m.ip]? = some c.val)
    (hd : ((meaning m.width).perform c).on m.data = (.error e, d)) :
    step.on m = (.error e, m.withData d) := by
  have he := execute_plain c m
  rw [hd] at he
  simp [step, hc, he]

theorem step_opening {m : Machine} {partner : Nat} (hc : m.code[m.ip]? = some '[')
    (hj : m.jumps[m.ip]? = some (some partner)) :
    step.on m =
      (.ok .proceed, { m with ip := if m.data.current = 0 then partner + 1 else m.ip + 1 }) := by
  have hd : m.data.current = m.current := rfl
  by_cases hz : m.current = 0 <;> simp [step, execute, hc, hj, hd, hz, jump, advance]

theorem step_closing {m : Machine} {partner : Nat} (hc : m.code[m.ip]? = some ']')
    (hj : m.jumps[m.ip]? = some (some partner)) :
    step.on m =
      (.ok .proceed, { m with ip := if m.data.current = 0 then m.ip + 1 else partner + 1 }) := by
  have hd : m.data.current = m.current := rfl
  by_cases hz : m.current = 0 <;> simp [step, execute, hc, hj, hd, hz, jump, advance]

def view (code : Array Char) (jumps : Array (Option Nat)) (width : CellWidth) :
    View Machine Data where
  fits m := m.code = code ∧ m.jumps = jumps ∧ m.width = width
  position := Machine.ip
  data := Machine.data

variable {code : Array Char} {jumps : Array (Option Nat)} {width : CellWidth}

theorem view_performs {k : Nat} {c : brackets.Plain} (hc : code[k]? = some c.val) :
    (view code jumps width).Performs interpreter (meaning width) k c := by
  constructor
  · rintro d d' hd m ⟨⟨rfl, rfl, rfl⟩, rfl, rfl⟩
    exact ⟨_, step_plain hc hd, ⟨rfl, rfl, rfl⟩, rfl, rfl⟩
  · rintro d e d' hd m ⟨⟨rfl, rfl, rfl⟩, rfl, rfl⟩
    exact ⟨_, step_plain_error hc hd, rfl⟩

theorem view_lays (program : Program) {k : Nat}
    (hcode : brackets.text program <+: code.toList.drop k)
    (hjumps : partners k program <+: jumps.toList.drop k) :
    (view code jumps width).Lays interpreter (meaning width) k program := by
  induction program generalizing k with
  | done => trivial
  | command c rest ih =>
    rw [Brackets.text, cons_prefix_drop_iff, Array.getElem?_toList] at hcode
    rw [partners, cons_prefix_drop_iff] at hjumps
    exact ⟨view_performs hcode.1, ih hcode.2 hjumps.2⟩
  | loop test body rest ihbody ihrest =>
    obtain ⟨test, ht⟩ := test
    obtain rfl : test = '[' := by simpa [brackets] using ht
    have hk : k + 1 + body.size = k + body.size + 1 := by omega
    rw [Brackets.text, cons_prefix_drop_iff, append_prefix_drop_iff, cons_prefix_drop_iff,
      Brackets.length_text, hk, Array.getElem?_toList, Array.getElem?_toList] at hcode
    rw [partners, cons_prefix_drop_iff, append_prefix_drop_iff, cons_prefix_drop_iff,
      length_partners, hk, Array.getElem?_toList, Array.getElem?_toList] at hjumps
    obtain ⟨hopen, hbody, hclose, hrest⟩ := hcode
    obtain ⟨jopen, jbody, jclose, jrest⟩ := hjumps
    refine ⟨?_, ihbody hbody jbody, .inl ?_, ihrest hrest jrest⟩
    · rintro d m ⟨⟨rfl, rfl, rfl⟩, rfl, rfl⟩
      refine ⟨_, step_opening hopen jopen, ⟨rfl, rfl, rfl⟩, ?_, rfl⟩
      by_cases hz : m.data.current = 0 <;> simp [view, meaning, hz]
    · rintro d m ⟨⟨rfl, rfl, rfl⟩, hp, rfl⟩
      change m.ip = _ at hp
      rw [← hp] at hclose jclose
      refine ⟨_, step_closing hclose jclose, ⟨rfl, rfl, rfl⟩, ?_, rfl⟩
      by_cases hz : m.data.current = 0 <;> simp [view, meaning, hz, hp]

theorem view_halts {k : Nat} (hk : code.size ≤ k) (d : Data) :
    (view code jumps width).Halts interpreter k d := by
  rintro m ⟨⟨rfl, rfl, rfl⟩, rfl, rfl⟩
  have hc : m.code[m.ip]? = none := Array.getElem?_eq_none hk
  exact ⟨m, by simp [interpreter, step, hc], rfl⟩

def atStart (code : List Char) (jumps : Array (Option Nat)) (m : Machine) : Machine :=
  { m with code := code.toArray, jumps, ip := 0 }

/-- A balanced source is the text of one program. It loads with a jump table, and from the first
instruction on the machine ends like the program, in a halt or in an error, whatever the tape and
the streams hold. -/
theorem tape_ends_iff_program_runs (source : String) (h : brackets.Balanced source.toList) :
    ∃ program : Program, brackets.text program = source.toList ∧
      (∀ other, brackets.text other = source.toList → other = program) ∧
      ∃ jumps, jumpTable source.toList = .ok jumps ∧ ∀ m : Machine,
        (interpreter.load source).on m =
          (.ok (), { m.atStart source.toList jumps with pointer := 0, memory := ∅ }) ∧
        ∀ (result : Except Error Unit) (d : Data),
          (∃ t, interpreter.Ends (m.atStart source.toList jumps) result t ∧ t.data = d) ↔
            program.Runs (meaning m.width) m.data result d := by
  obtain ⟨program, hp⟩ := (brackets.closes_iff_exists source.toList).mp
    ((brackets.balanced_iff_closes source.toList).mp h)
  have hj : jumpTable source.toList = .ok (partners 0 program).toArray := by
    rw [← hp, jumpTable_text]
  refine ⟨program, hp, fun other ho => brackets.text_injective (ho.trans hp.symm), _, hj, ?_⟩
  intro m
  refine ⟨by simp [interpreter, load, hj]; rfl, fun result d => ?_⟩
  have hl : (view source.toList.toArray (partners 0 program).toArray m.width).Lays
      interpreter (meaning m.width) 0 program :=
    view_lays program (by simp [hp]) (by simp)
  refine hl.ends_iff (fun d => view_halts ?_ d) ⟨⟨rfl, rfl, rfl⟩, rfl, rfl⟩
  simp [← hp, Brackets.length_text]

theorem tape_nested_loops_run :
    brackets.Balanced "+[>,[.-]<]".toList ∧
      ∃ program : Program, brackets.text program = "+[>,[.-]<]".toList ∧
        ∃ jumps, jumpTable "+[>,[.-]<]".toList = .ok jumps ∧
          ∀ (m : Machine) (result : Except Error Unit) (d : Data),
            (∃ t, interpreter.Ends (m.atStart "+[>,[.-]<]".toList jumps) result t ∧ t.data = d) ↔
              program.Runs (meaning m.width) m.data result d := by
  have h : brackets.Balanced "+[>,[.-]<]".toList := by
    rw [Brackets.balanced_iff_closes]
    simp [Brackets.Closes, brackets]
  obtain ⟨program, hp, -, jumps, hj, hm⟩ := tape_ends_iff_program_runs "+[>,[.-]<]" h
  exact ⟨h, program, hp, jumps, hj, fun m => (hm m).2⟩

end Machine

end Esolang.Tape
