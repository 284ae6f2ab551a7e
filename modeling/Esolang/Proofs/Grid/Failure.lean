import Esolang.Proofs.Grid.Division
import Esolang.Proofs.Stream.Forward

/-! What failing instructions of the Befunge machine leave. An instruction takes operands first, and
only then changes the machine, writes or stores, so that a failure costs no more than operands. -/

namespace Esolang.Grid.Machine

variable {m t : Machine}

/-- The machines have the same size of playfield and treat overflow and underflow alike. -/
structure SameSettings (m t : Machine) : Prop where
  width : t.field.width = m.field.width
  height : t.field.height = m.field.height
  overflow : t.overflow = m.overflow
  underflow : t.underflow = m.underflow

namespace SameSettings

theorem refl (m : Machine) : m.SameSettings m := ⟨rfl, rfl, rfl, rfl⟩

theorem trans {u : Machine} (h : m.SameSettings t) (h' : t.SameSettings u) : m.SameSettings u :=
  ⟨h'.width.trans h.width, h'.height.trans h.height, h'.overflow.trans h.overflow,
    h'.underflow.trans h.underflow⟩

end SameSettings

theorem pop_on (instruction : Char) (m : Machine) :
    (pop instruction).on m =
      if m.stack = [] ∧ m.underflow = .fault then
        (.error (.fault (.stackUnderflow instruction)), m)
      else (.ok (m.stack.headD 0), { m with stack := m.stack.drop 1 }) := by
  obtain ⟨field, x, y, direction, stack, stringMode, overflow, underflow, rng, output⟩ := m
  cases stack with
  | nil => cases underflow <;> simp [pop]
  | cons value stack => simp [pop]

/-- Instructions by how they are put together, with the number of operands that they take. -/
inductive Acts : Nat → Call Machine Error Unit → Prop where
  | change {f : Machine → Machine} (h : ∀ m : Machine, m.SameSettings (f m)) : Acts 0 (modify f)
  | nothing : Acts 0 (pure ())
  | fail (e : Error) : Acts 0 (throw e)
  | write {call : Call Sink Error Unit} (h : ∀ s : Sink, s.bytes <+: (call.on s).2.bytes) :
    Acts 0 (onOutput call)
  | store (x y value : Int64) : Acts 0 (storeAt x y value)
  | divide (instruction : Char) (f : Int64 → Int64 → Int64) : Acts 2 (divide instruction f)
  | take {n : Nat} (instruction : Char) {rest : Int64 → Call Machine Error Unit}
    (h : ∀ value, Acts n (rest value)) : Acts (n + 1) (pop instruction >>= rest)

theorem acts_push (value : Machine → Int64) : Acts 0 (modify fun m => m.push (value m)) :=
  .change fun _ => ⟨rfl, rfl, rfl, rfl⟩

theorem Deed.acts {call : Call Machine Error Unit} (h : Deed call) : Acts 0 call := by
  cases h with
  | nothing => exact .nothing
  | push value => exact acts_push fun _ => value
  | pushBoth a b => exact .change fun _ => ⟨rfl, rfl, rfl, rfl⟩
  | load x y => exact acts_push fun m => m.load? x y
  | store x y value => exact .store x y value
  | turn direction => exact .change fun _ => ⟨rfl, rfl, rfl, rfl⟩
  | turnAround => exact .change fun _ => ⟨rfl, rfl, rfl, rfl⟩
  | openText => exact .change fun _ => ⟨rfl, rfl, rfl, rfl⟩
  | advance => exact .change fun _ => ⟨rfl, rfl, rfl, rfl⟩
  | writeNumber value => exact .write (Sink.bytes_prefix_writeNumber value)
  | writeCode value => exact .write (Sink.bytes_prefix_writeCode value.toInt)
  | refuse instruction => exact .fail _

theorem Composed.acts {instruction : Char} {n : Nat} {call : Call Machine Error Unit}
    (h : Composed instruction n call) : Acts n call := by
  induction h with
  | deed h => exact h.acts
  | divide _ f => exact .divide instruction f
  | take _ ih => exact .take instruction ih

theorem execute_acts (instruction : Char) : ∃ n, n ≤ 3 ∧ Acts n (execute instruction) := by
  obtain ⟨n, hn, h⟩ := execute_composed instruction
  exact ⟨n, hn, h.acts⟩

/-- Only operands are lost, at most so many, and bytes may have been written. -/
def Loses (n : Nat) (m : Machine) (_ : Error) (t : Machine) : Prop :=
  ∃ k output, k ≤ n ∧ t = { m with stack := m.stack.drop k, output } ∧
    m.output.bytes <+: output.bytes

theorem Loses.nothing (n : Nat) (m : Machine) (e : Error) : m.Loses n e m :=
  ⟨0, m.output, Nat.zero_le n, rfl, List.prefix_rfl⟩

theorem pop_bind_failsAs {n : Nat} (instruction : Char) {rest : Int64 → Call Machine Error Unit}
    (h : ∀ value, (rest value).FailsAs (Loses n)) :
    (pop instruction >>= rest).FailsAs (Loses (n + 1)) := by
  intro m e t hf
  rw [Call.on_bind, pop_on] at hf
  by_cases hu : m.stack = [] ∧ m.underflow = .fault
  · rw [if_pos hu] at hf
    obtain ⟨-, rfl⟩ := Prod.mk.inj hf
    exact .nothing (n + 1) m e
  · rw [if_neg hu] at hf
    obtain ⟨k, output, hk, rfl, hp⟩ := h _ _ _ _ hf
    have hdrop : (m.stack.drop 1).drop k = m.stack.drop (k + 1) := by
      rw [List.drop_drop, Nat.add_comm]
    exact ⟨k + 1, output, Nat.succ_le_succ hk, by rw [hdrop], hp⟩

theorem divide_failsAs (instruction : Char) (f : Int64 → Int64 → Int64) :
    (divide instruction f).FailsAs (Loses 2) := by
  intro m e t hf
  by_cases ho : m.HasOperands
  · rw [divide_on instruction f ho] at hf
    by_cases hz : m.upper = 0
    · rw [if_pos hz] at hf
      obtain ⟨-, rfl⟩ := Prod.mk.inj hf
      exact .nothing 2 m e
    · rw [if_neg hz] at hf
      cases hf
  · rw [divide_on_missing instruction f ho] at hf
    obtain ⟨-, rfl⟩ := Prod.mk.inj hf
    have hl : m.stack.length < 2 := by
      simp only [HasOperands, not_or] at ho
      omega
    have hd : m.stack.drop 2 = [] := List.drop_eq_nil_of_le (by omega)
    exact ⟨2, m.output, Nat.le_refl 2, by rw [hd], List.prefix_rfl⟩

theorem storeAt_failsAs (x y value : Int64) : (storeAt x y value).FailsAs (Loses 0) := by
  refine .get_bind fun m e t hf => ?_
  split at hf
  · obtain ⟨-, rfl⟩ := Prod.mk.inj hf
    exact .nothing 0 m e
  · obtain ⟨-, rfl⟩ := Prod.mk.inj hf
    exact .nothing 0 m e
  · cases hf

theorem onOutput_failsAs {call : Call Sink Error Unit}
    (h : ∀ s : Sink, s.bytes <+: (call.on s).2.bytes) : (onOutput call).FailsAs (Loses 0) := by
  intro m e t hf
  obtain ⟨-, rfl⟩ := Prod.mk.inj hf
  exact ⟨0, _, Nat.le_refl 0, rfl, h m.output⟩

theorem Acts.failsAs {n : Nat} {call : Call Machine Error Unit} (h : Acts n call) :
    call.FailsAs (Loses n) := by
  induction h with
  | change h => exact .modify _
  | nothing => exact .pure _
  | fail e => exact .throw fun m => .nothing 0 m e
  | write h => exact onOutput_failsAs h
  | store x y value => exact storeAt_failsAs x y value
  | divide instruction f => exact divide_failsAs instruction f
  | take instruction _ ih => exact pop_bind_failsAs instruction ih

theorem Acts.sameSettings {n : Nat} {call : Call Machine Error Unit} (h : Acts n call)
    (m : Machine) : m.SameSettings (call.on m).2 := by
  induction h generalizing m with
  | change h => exact h m
  | nothing => exact .refl m
  | fail e => exact .refl m
  | write h => exact ⟨rfl, rfl, rfl, rfl⟩
  | store x y value =>
    rw [storeAt, Call.on_bind, Call.on_get]
    dsimp only
    split <;> exact ⟨rfl, rfl, rfl, rfl⟩
  | divide instruction f =>
    by_cases ho : m.HasOperands
    · rw [divide_on instruction f ho]
      split <;> exact ⟨rfl, rfl, rfl, rfl⟩
    · rw [divide_on_missing instruction f ho]
      exact ⟨rfl, rfl, rfl, rfl⟩
  | take instruction _ ih =>
    rw [Call.on_bind, pop_on]
    by_cases hu : m.stack = [] ∧ m.underflow = .fault
    · rw [if_pos hu]
      exact .refl m
    · rw [if_neg hu]
      have hpopped : m.SameSettings { m with stack := m.stack.drop 1 } := ⟨rfl, rfl, rfl, rfl⟩
      exact hpopped.trans (ih _ _)

/-- A step fails only in its instruction, and then it has not moved the cursor. -/
theorem step_error {e : Error} (h : step.on m = (.error e, t)) : m.Loses 3 e t := by
  rw [step_on] at h
  split at h
  · cases h
  · split at h
    · cases h
    · obtain ⟨n, hn, hacts⟩ := execute_acts m.here
      rcases hx : (execute m.here).on m with ⟨d | _, u⟩
      · rw [hx] at h
        obtain ⟨rfl, rfl⟩ : d = e ∧ u = t := by simpa using h
        obtain ⟨k, output, hk, hu, hp⟩ := hacts.failsAs m d u hx
        exact ⟨k, output, Nat.le_trans hk hn, hu, hp⟩
      · rw [hx] at h
        cases h

theorem step_sameSettings (m : Machine) : m.SameSettings (step.on m).2 := by
  rw [step_on]
  split
  · unfold readString
    split <;> exact ⟨rfl, rfl, rfl, rfl⟩
  · split
    · exact .refl m
    · obtain ⟨n, -, hacts⟩ := execute_acts m.here
      have hh := hacts.sameSettings m
      rcases hx : (execute m.here).on m with ⟨d | _, u⟩
      · rwa [hx] at hh
      · rw [hx] at hh
        exact hh.trans ⟨rfl, rfl, rfl, rfl⟩

theorem resolveDivision_sameSettings (value : Int64) (m : Machine) :
    m.SameSettings ((resolveDivision value).on m).2 := by
  by_cases hd : m.here = '/' ∨ m.here = '%'
  · by_cases ho : m.HasOperands
    · rw [resolveDivision_on value hd ho]
      exact ⟨rfl, rfl, rfl, rfl⟩
    · rw [resolveDivision_on_missing value hd ho]
      exact ⟨rfl, rfl, rfl, rfl⟩
  · rw [resolveDivision_on_elsewhere value hd]
    exact .refl m

end Esolang.Grid.Machine
