import Esolang.Grid.Machine
import Esolang.Proofs.Invariant

/-! How the instructions of Befunge are put together: each takes some operands, and then does one thing
with them. What holds of these parts holds of every instruction. -/

namespace Esolang.Grid.Machine

/-- What instructions do once they have their operands. -/
inductive Deed : Call Machine Error Unit → Prop where
  | nothing : Deed (pure ())
  | push (value : Int64) : Deed (modify (push value))
  | pushBoth (a b : Int64) : Deed (modify fun m => (m.push a).push b)
  | load (x y : Int64) : Deed (modify fun m => m.push (m.load? x y))
  | store (x y value : Int64) : Deed (storeAt x y value)
  | turn (direction : Direction) : Deed (modify (turn direction))
  | turnAround : Deed (modify randomDirection)
  | openText : Deed (modify fun m => { m with stringMode := true })
  | advance : Deed (modify advance)
  | writeNumber (value : Int64) : Deed (onOutput (Sink.writeNumber value))
  | writeCode (value : Int64) : Deed (onOutput (Sink.writeCode value.toInt))
  | refuse (instruction : Char) : Deed (throw (.fault (.unsupported instruction)))

/-- A deed of an instruction behind so many operands. A division also looks at the stack before it
takes its own. -/
inductive Composed (instruction : Char) : Nat → Call Machine Error Unit → Prop where
  | deed {call : Call Machine Error Unit} (h : Deed call) : Composed instruction 0 call
  | divide (h : instruction = '/' ∨ instruction = '%') (f : Int64 → Int64 → Int64) :
    Composed instruction 2 (divide instruction f)
  | take {n : Nat} {rest : Int64 → Call Machine Error Unit}
    (h : ∀ value, Composed instruction n (rest value)) :
    Composed instruction (n + 1) (pop instruction >>= rest)

theorem combine_composed (instruction : Char) (f : Int64 → Int64 → Int64) :
    Composed instruction 2 (combine instruction f) :=
  .take fun a => .take fun b => .deed (.push (f b a))

theorem branch_composed (instruction : Char) (zero other : Direction) :
    Composed instruction 1 (branch instruction zero other) :=
  .take fun _ => .deed (.turn _)

theorem execute_composed (instruction : Char) :
    ∃ n, n ≤ 3 ∧ Composed instruction n (execute instruction) := by
  -- One case for each instruction, in the order of the definition.
  unfold execute
  split
  · exact ⟨2, by omega, combine_composed _ _⟩
  · exact ⟨2, by omega, combine_composed _ _⟩
  · exact ⟨2, by omega, combine_composed _ _⟩
  · exact ⟨2, by omega, .divide (.inl rfl) _⟩
  · exact ⟨2, by omega, .divide (.inr rfl) _⟩
  · exact ⟨1, by omega, .take fun _ => .deed (.push _)⟩
  · exact ⟨2, by omega, combine_composed _ _⟩
  · exact ⟨0, by omega, .deed (.turn _)⟩
  · exact ⟨0, by omega, .deed (.turn _)⟩
  · exact ⟨0, by omega, .deed (.turn _)⟩
  · exact ⟨0, by omega, .deed (.turn _)⟩
  · exact ⟨0, by omega, .deed .turnAround⟩
  · exact ⟨1, by omega, branch_composed _ _ _⟩
  · exact ⟨1, by omega, branch_composed _ _ _⟩
  · exact ⟨0, by omega, .deed .openText⟩
  · exact ⟨1, by omega, .take fun a => .deed (.pushBoth a a)⟩
  · exact ⟨2, by omega, .take fun a => .take fun b => .deed (.pushBoth a b)⟩
  · exact ⟨1, by omega, .take fun _ => .deed .nothing⟩
  · exact ⟨1, by omega, .take fun a => .deed (.writeNumber a)⟩
  · exact ⟨1, by omega, .take fun a => .deed (.writeCode a)⟩
  · exact ⟨0, by omega, .deed .advance⟩
  · exact ⟨2, by omega, .take fun y => .take fun x => .deed (.load x y)⟩
  · exact ⟨3, by omega, .take fun _ => .take fun _ => .take fun _ => .deed (.store _ _ _)⟩
  · exact ⟨0, by omega, .deed (.refuse _)⟩
  · exact ⟨0, by omega, .deed (.refuse _)⟩
  · split
    · exact ⟨0, by omega, .deed (.push _)⟩
    · exact ⟨0, by omega, .deed .nothing⟩

/-- What deeds fail with. -/
inductive Mishap : Error → Prop where
  | stream (cause : StreamError) : Mishap (.stream cause)
  | invalidCharacter (code : Int) : Mishap (.fault (.invalidCharacter code))
  | outOfBounds (x y : Int64) : Mishap (.fault (.outOfBounds x y))
  | unsupported (instruction : Char) : Mishap (.fault (.unsupported instruction))

theorem writeCode_failsOnly (code : Int) :
    (onOutput (Sink.writeCode code)).FailsOnly Mishap := by
  apply Call.FailsOnly.onPart
  unfold Sink.writeCode
  split
  · exact .mapError _ .stream
  · exact .throw (.invalidCharacter code)

theorem storeAt_failsOnly (x y value : Int64) : (storeAt x y value).FailsOnly Mishap := by
  refine .get_bind fun m => ?_
  split
  · exact .throw (.outOfBounds x y)
  · exact .throw (.invalidCharacter value.toInt)
  · exact .modify _

theorem Deed.failsOnly {call : Call Machine Error Unit} (h : Deed call) : call.FailsOnly Mishap := by
  cases h with
  | nothing => exact .pure _
  | push value => exact .modify _
  | pushBoth a b => exact .modify _
  | load x y => exact .modify _
  | store x y value => exact storeAt_failsOnly x y value
  | turn direction => exact .modify _
  | turnAround => exact .modify _
  | openText => exact .modify _
  | advance => exact .modify _
  | writeNumber value => exact .onPart (.mapError _ .stream)
  | writeCode value => exact writeCode_failsOnly value.toInt
  | refuse instruction => exact .throw (.unsupported instruction)

end Esolang.Grid.Machine
