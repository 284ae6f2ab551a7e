import Esolang.Proofs.Invariant
import Esolang.Tape.Machine

/-! Calls of the Brainfuck machine, case by case: what a load puts into it, and what comes of a step
and of the instructions that write to the tape. The width of the cells never changes. -/

namespace Esolang.Tape

theorem CellWidth.add_bits {count : Nat} (pos : 0 < count) (le : count ≤ 64) (value delta : Int) :
    (bits count pos le).add value delta = some ((bits count pos le).wrap (value + delta)) := by
  obtain ⟨hlow, hhigh⟩ := wrap_bits_lt pos le (value + delta)
  have hpow : (1 <<< count : Nat) ≤ 2 ^ 64 := by
    rw [Nat.one_shiftLeft]
    exact Nat.pow_le_pow_right (by omega) le
  have hfits : -carrierBound ≤ (bits count pos le).wrap (value + delta) ∧
      (bits count pos le).wrap (value + delta) < carrierBound := by
    unfold carrierBound
    omega
  rw [add, if_pos hfits]

theorem CellWidth.eq_of_add {width : CellWidth} {value delta sum : Int}
    (h : width.add value delta = some sum) : width.wrap (value + delta) = sum := by
  simp only [add, Option.ite_none_right_eq_some, Option.some.injEq] at h
  exact h.2

namespace Machine

variable {width : CellWidth}

theorem load_on (source : String) (m : Machine) :
    (load source).on m =
      match jumpTable source.toList with
      | .error e => (.error e, m)
      | .ok jumps =>
        (.ok (),
          { m with code := source.toList.toArray, jumps, ip := 0, pointer := 0, memory := ∅ }) := by
  rcases hr : jumpTable source.toList with e | jumps
  · simp [load, hr, Call.on_liftM]
  · simp [load, hr, Call.on_liftM]

theorem step_on (m : Machine) :
    step.on m =
      match m.code[m.ip]? with
      | none => (.ok .halt, m)
      | some instruction =>
        match (execute instruction).on m with
        | (.error e, t) => (.error e, t)
        | (.ok _, t) => (.ok .proceed, t.advance) := by
  rcases hc : m.code[m.ip]? with _ | instruction
  · simp [step, hc]
  · rcases hx : (execute instruction).on m with ⟨_ | _, t⟩
    · simp [step, hc, hx]
    · simp [step, hc, hx]

theorem adjust_eq (delta : Int) (m : Machine) :
    (adjust delta).on m =
      match m.width.add m.current delta with
      | none => (.error (.fault .cellOverflow), m)
      | some value => (.ok (), m.store value) := by
  rcases hv : m.width.add m.current delta with _ | value
  · simp [adjust, hv]
  · simp [adjust, hv]

theorem execute_read (m : Machine) :
    (execute ',').on m =
      match Source.require.on m.input with
      | (.error e, input) => (.error e, { m with input })
      | (.ok c, input) => (.ok (), ({ m with input } : Machine).store (m.width.wrap c.toNat)) := by
  rcases hr : Source.require.on m.input with ⟨_ | c, input⟩
  · simp [execute, readCharacter, hr]
  · simp [execute, readCharacter, hr]

theorem adjust_keeps_width (delta : Int) : (adjust delta).Keeps (·.width = width) := by
  refine .get_bind fun m hm => ?_
  split
  · exact hm
  · exact hm

theorem width_jump (m : Machine) : m.jump.width = m.width := by
  unfold jump
  split <;> rfl

theorem execute_keeps_width (instruction : Char) :
    (execute instruction).Keeps (·.width = width) := by
  unfold execute
  split
  · exact .modify fun _ hm => hm
  · exact .modify fun _ hm => hm
  · exact adjust_keeps_width 1
  · exact adjust_keeps_width (-1)
  · exact .get_bind fun _ hm => hm
  · have hread : readCharacter.Keeps (·.width = width) := fun _ hm => hm
    exact hread.bind fun _ => .modify fun _ hm => hm
  · refine .modify fun m hm => ?_
    split
    · rwa [width_jump]
    · exact hm
  · refine .modify fun m hm => ?_
    split
    · exact hm
    · rwa [width_jump]
  · exact .pure _

theorem step_keeps_width : step.Keeps (·.width = width) := by
  refine .get_bind fun m hm => ?_
  split
  · exact hm
  · next instruction _ =>
    apply (execute_keeps_width instruction).bind _ m hm
    intro _ t ht
    exact ht

/-- An overflow is reported only where an addition leaves the carrier. -/
def Overflows (m : Machine) (e : Error) (_ : Machine) : Prop :=
  e = .fault .cellOverflow → ∃ delta, m.width.add m.current delta = none

theorem adjust_overflows (delta : Int) : (adjust delta).FailsAs Overflows := by
  intro m e t h _
  rw [adjust_eq] at h
  rcases hv : m.width.add m.current delta with _ | value
  · exact ⟨delta, hv⟩
  · simp [hv] at h

theorem writeCode_overflows (code : Int) : (writeCode code).FailsAs Overflows := by
  have hsink : (Sink.writeCode code).FailsOnly (· ≠ .fault .cellOverflow) := by
    unfold Sink.writeCode
    split
    · exact .mapError _ fun _ => by simp
    · exact .throw (by simp)
  intro m e t h he
  exact absurd he (hsink m.output e (congrArg Prod.fst h))

theorem readCharacter_overflows : readCharacter.FailsAs Overflows := by
  have hsource : Source.require.FailsOnly (· ≠ .fault .cellOverflow) := by
    rintro s _ h rfl
    rcases hn : Source.next.on s with ⟨_ | _ | _, t⟩
    · simp [Source.require, hn] at h
    · simp [Source.require, hn] at h
    · simp [Source.require, hn] at h
  intro m e t h he
  exact absurd he (hsource m.input e (congrArg Prod.fst h))

theorem execute_overflows (instruction : Char) : (execute instruction).FailsAs Overflows := by
  unfold execute
  split
  · exact .modify _
  · exact .modify _
  · exact adjust_overflows 1
  · exact adjust_overflows (-1)
  · exact .get_bind fun m => writeCode_overflows m.current m
  · exact readCharacter_overflows.bind_modify _
  · exact .modify _
  · exact .modify _
  · exact .pure _

theorem step_overflows {m : Machine} (h : (step.on m).1 = .error (.fault .cellOverflow)) :
    ∃ delta, m.width.add m.current delta = none := by
  rw [step_on] at h
  rcases hc : m.code[m.ip]? with _ | instruction
  · simp [hc] at h
  · rcases hx : (execute instruction).on m with ⟨e | _, t⟩
    · obtain rfl : e = .fault .cellOverflow := by simpa [hc, hx] using h
      exact execute_overflows instruction m _ t hx rfl
    · simp [hc, hx] at h

/-- Cells of a bounded width never overflow. -/
theorem step_bits_ne_overflow {m : Machine} {count : Nat} {pos : 0 < count} {le : count ≤ 64}
    (hw : m.width = .bits count pos le) : (step.on m).1 ≠ .error (.fault .cellOverflow) := by
  intro h
  obtain ⟨delta, hd⟩ := step_overflows h
  rw [hw, CellWidth.add_bits] at hd
  cases hd

end Machine

end Esolang.Tape
