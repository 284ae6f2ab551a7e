import Mathlib.Data.List.GetD
import Esolang.Proofs.Course
import Esolang.Proofs.Grid.Failure
import Esolang.Proofs.Grid.Instructions

/-! What an empty stack yields. A machine that faults on an empty stack, but has some zeros at the
bottom of its stack, goes the same way as a machine that takes zeros from an empty stack, as long as
its own zeros last. -/

namespace Esolang.Grid.Machine

variable {zeros : Nat} {f z : Machine} {α β : Type}

/-- The first machine faults on an empty stack, the second one takes zeros. They are the same but for
so many zeros at the bottom of the first one's stack. -/
structure Padded (zeros : Nat) (f z : Machine) : Prop where
  field : f.field = z.field
  x : f.x = z.x
  y : f.y = z.y
  direction : f.direction = z.direction
  stringMode : f.stringMode = z.stringMode
  rng : f.rng = z.rng
  output : f.output = z.output
  stack : f.stack = z.stack ++ List.replicate zeros 0
  faults : f.underflow = .fault
  takes : z.underflow = .zero

def Underflows (result : Except Error α) : Prop :=
  ∃ instruction, result = .error (.fault (.stackUnderflow instruction))

theorem not_underflows_ok (a : α) : ¬ Underflows (.ok a) := by
  rintro ⟨instruction, h⟩
  cases h

/-- The results are the same, up to zeros at the bottom of the stack that a division reports. -/
inductive Alike : Except Error α → Except Error α → Prop where
  | same (result : Except Error α) : Alike result result
  | division (instruction : Char) (stack : List Int64) (zeros : Nat) :
    Alike (.error (.fault (.divisionByZero instruction (stack ++ List.replicate zeros 0))))
      (.error (.fault (.divisionByZero instruction stack)))

/-- A machine that faults on an empty stack, with zeros at the bottom of its stack. -/
def padded (zeros : Nat) (overflow : Overflow) (z : Machine) : Machine :=
  { z with stack := z.stack ++ List.replicate zeros 0, underflow := .fault, overflow }

theorem Padded.eq_padded (h : f.Padded zeros z) : f = z.padded zeros f.overflow := by
  obtain ⟨field, x, y, direction, stack, stringMode, overflow, underflow, rng, output⟩ := f
  obtain ⟨rfl, rfl, rfl, rfl, rfl, rfl, rfl, rfl, rfl, -⟩ := h
  rfl

theorem padded_padded (zeros : Nat) (overflow : Overflow) (h : z.underflow = .zero) :
    (z.padded zeros overflow).Padded zeros z :=
  ⟨rfl, rfl, rfl, rfl, rfl, rfl, rfl, rfl, rfl, h⟩

theorem getD_append_zeros (stack : List Int64) (zeros i : Nat) :
    (stack ++ List.replicate zeros 0).getD i 0 = stack.getD i 0 := by
  rcases Nat.lt_or_ge i stack.length with h | h
  · rw [List.getD_append stack _ 0 i h]
  · rw [List.getD_append_right stack _ 0 i h, List.getD_eq_default stack 0 h]
    exact List.getElem?_getD_replicate_default_eq 0 zeros _

theorem drop_append_zeros (stack : List Int64) (zeros k : Nat) :
    ∃ n, (stack ++ List.replicate zeros 0).drop k = stack.drop k ++ List.replicate n 0 :=
  ⟨zeros - (k - stack.length), by rw [List.drop_append, List.drop_replicate]⟩

/-- What a call does on a machine that takes zeros, and what it does where there are zeros at the
bottom of the stack instead. -/
structure Agrees (call : Call Machine Error α) : Prop where
  takes : ∀ z : Machine, z.underflow = .zero →
    ¬ Underflows (call.on z).1 ∧ (call.on z).2.underflow = .zero
  follows : ∀ (z : Machine) (zeros : Nat) (overflow : Overflow), z.underflow = .zero →
    Underflows (call.on (z.padded zeros overflow)).1 ∨
      Alike (call.on (z.padded zeros overflow)).1 (call.on z).1 ∧
        ∃ n, (call.on (z.padded zeros overflow)).2 = (call.on z).2.padded n overflow

namespace Agrees

theorem pure (a : α) : Agrees (pure a) where
  takes _ hz := ⟨not_underflows_ok a, hz⟩
  follows _ zeros _ _ := .inr ⟨.same _, zeros, rfl⟩

theorem throw {e : Error} (h : ∀ instruction, e ≠ .fault (.stackUnderflow instruction)) :
    Agrees (throw e : Call Machine Error α) where
  takes _ hz := ⟨fun ⟨i, he⟩ => h i (Except.error.inj he), hz⟩
  follows _ zeros _ _ := .inr ⟨.same _, zeros, rfl⟩

theorem modify {g : Machine → Machine} (hkeeps : ∀ m, (g m).underflow = m.underflow)
    (hpadded : ∀ z zeros overflow, g (z.padded zeros overflow) = (g z).padded zeros overflow) :
    Agrees (modify g) where
  takes z hz := ⟨not_underflows_ok _, (hkeeps z).trans hz⟩
  follows z zeros overflow _ := .inr ⟨.same _, zeros, hpadded z zeros overflow⟩

theorem bind {call : Call Machine Error α} {rest : α → Call Machine Error β} (h : Agrees call)
    (hrest : ∀ a, Agrees (rest a)) : Agrees (call >>= rest) where
  takes z hz := by
    obtain ⟨hnever, hkeeps⟩ := h.takes z hz
    rw [Call.on_bind]
    rcases hc : call.on z with ⟨e | a, t⟩
    · rw [hc] at hnever hkeeps
      refine ⟨?_, hkeeps⟩
      rintro ⟨i, hi⟩
      exact hnever ⟨i, congrArg Except.error (Except.error.inj hi)⟩
    · rw [hc] at hkeeps
      exact (hrest a).takes t hkeeps
  follows z zeros overflow hz := by
    have hkeeps := (h.takes z hz).2
    rw [Call.on_bind, Call.on_bind]
    rcases hf : call.on (z.padded zeros overflow) with ⟨result, u⟩
    rcases hc : call.on z with ⟨other, t⟩
    rw [hc] at hkeeps
    rcases h.follows z zeros overflow hz with ⟨i, hi⟩ | ⟨halike, n, hn⟩
    · rw [hf] at hi
      obtain rfl : result = .error (.fault (.stackUnderflow i)) := hi
      exact .inl ⟨i, rfl⟩
    · rw [hf, hc] at halike hn
      obtain rfl : u = t.padded n overflow := hn
      cases halike with
      | same =>
        cases result with
        | error e => exact .inr ⟨.same _, n, rfl⟩
        | ok a => exact (hrest a).follows t n overflow hkeeps
      | division i stack m => exact .inr ⟨.division i stack m, n, rfl⟩

theorem onOutput {call : Call Sink Error Unit}
    (h : ∀ m : Machine, ¬ Underflows ((onOutput call).on m).1) : Agrees (onOutput call) where
  takes z hz := ⟨h z, hz⟩
  follows _ zeros _ _ := .inr ⟨.same _, zeros, rfl⟩

end Agrees

theorem pop_agrees (instruction : Char) : Agrees (pop instruction) where
  takes z hz := by
    rw [pop_on, if_neg (by simp [hz])]
    refine ⟨?_, hz⟩
    rintro ⟨_, h⟩
    cases h
  follows z zeros overflow hz := by
    rw [pop_on, pop_on]
    by_cases hempty : (z.padded zeros overflow).stack = []
    · rw [if_pos ⟨hempty, rfl⟩]
      exact .inl ⟨instruction, rfl⟩
    · rw [if_neg (fun h => hempty h.1), if_neg (by simp [hz])]
      obtain ⟨n, hn⟩ := drop_append_zeros z.stack zeros 1
      have htop : (z.padded zeros overflow).stack.headD 0 = z.stack.headD 0 := by
        have h := getD_append_zeros z.stack zeros 0
        simpa [padded, List.headD_eq_head?_getD, List.head?_eq_getElem?] using h
      refine .inr ⟨?_, n, ?_⟩
      · rw [htop]
        exact .same _
      · simp [padded, hn]

theorem divide_agrees (instruction : Char) (g : Int64 → Int64 → Int64) :
    Agrees (divide instruction g) where
  takes z hz := by
    rw [divide_on instruction g (.inl hz)]
    split
    · refine ⟨?_, hz⟩
      rintro ⟨_, h⟩
      cases h
    · exact ⟨not_underflows_ok _, hz⟩
  follows z zeros overflow hz := by
    by_cases ho : (z.padded zeros overflow).HasOperands
    · have hupper : (z.padded zeros overflow).upper = z.upper := getD_append_zeros z.stack zeros 0
      have hlower : (z.padded zeros overflow).lower = z.lower := getD_append_zeros z.stack zeros 1
      rw [divide_on instruction g ho, divide_on instruction g (.inl hz), hupper, hlower]
      refine .inr ?_
      by_cases hzero : z.upper = 0
      · rw [if_pos hzero, if_pos hzero]
        exact ⟨.division instruction z.stack zeros, zeros, rfl⟩
      · rw [if_neg hzero, if_neg hzero]
        obtain ⟨n, hn⟩ := drop_append_zeros z.stack zeros 2
        exact ⟨.same _, n, by simp [padded, hn]⟩
    · rw [divide_on_missing instruction g ho]
      exact .inl ⟨instruction, rfl⟩

theorem Deed.not_underflows {call : Call Machine Error Unit} (h : Deed call) (m : Machine) :
    ¬ Underflows (call.on m).1 := by
  rintro ⟨instruction, he⟩
  cases h.failsOnly m _ he

theorem storeAt_agrees (x y value : Int64) : Agrees (storeAt x y value) where
  takes z hz := by
    have hnever := (Deed.store x y value).not_underflows z
    have hkept := (Acts.store x y value).sameSettings z
    exact ⟨hnever, hkept.underflow.trans hz⟩
  follows z zeros overflow _ := by
    have hfield : (z.padded zeros overflow).field = z.field := rfl
    rw [storeAt, Call.on_bind, Call.on_bind, Call.on_get, Call.on_get]
    dsimp only
    rw [hfield]
    split
    · exact .inr ⟨.same _, zeros, rfl⟩
    · exact .inr ⟨.same _, zeros, rfl⟩
    · exact .inr ⟨.same _, zeros, rfl⟩

theorem randomDirection_padded (z : Machine) (zeros : Nat) (overflow : Overflow) :
    (z.padded zeros overflow).randomDirection = z.randomDirection.padded zeros overflow := by
  have hrng : (z.padded zeros overflow).rng = z.rng := rfl
  unfold randomDirection
  rw [hrng]
  rcases z.rng.below 4 with ⟨choice, rng⟩
  rfl

theorem advance_padded (z : Machine) (zeros : Nat) (overflow : Overflow) :
    (z.padded zeros overflow).advance = z.advance.padded zeros overflow := by
  simp only [advance, padded]

theorem Deed.agrees {call : Call Machine Error Unit} (h : Deed call) : Agrees call := by
  have hd := h
  cases h with
  | nothing => exact .pure ()
  | push value => exact .modify (fun _ => rfl) fun _ _ _ => rfl
  | pushBoth a b => exact .modify (fun _ => rfl) fun _ _ _ => rfl
  | load x y => exact .modify (fun _ => rfl) fun _ _ _ => rfl
  | store x y value => exact storeAt_agrees x y value
  | turn direction => exact .modify (fun _ => rfl) fun _ _ _ => rfl
  | turnAround => exact .modify (fun _ => rfl) randomDirection_padded
  | openText => exact .modify (fun _ => rfl) fun _ _ _ => rfl
  | advance => exact .modify (fun _ => rfl) advance_padded
  | writeNumber value => exact .onOutput fun m => hd.not_underflows m
  | writeCode value => exact .onOutput fun m => hd.not_underflows m
  | refuse instruction => exact .throw fun _ h => by cases h

theorem Composed.agrees {instruction : Char} {n : Nat} {call : Call Machine Error Unit}
    (h : Composed instruction n call) : Agrees call := by
  induction h with
  | deed h => exact h.agrees
  | divide _ g => exact divide_agrees instruction g
  | take _ ih => exact .bind (pop_agrees instruction) ih

theorem readString_padded (c : Char) (z : Machine) (zeros : Nat) (overflow : Overflow) :
    (z.padded zeros overflow).readString c = (z.readString c).padded zeros overflow := by
  unfold readString
  split <;> rfl

theorem execute_agrees (instruction : Char) : Agrees (execute instruction) := by
  obtain ⟨n, -, h⟩ := execute_composed instruction
  exact h.agrees

/-- An instruction, and the move behind it. -/
def carryOut (instruction : Char) : Call Machine Error Progress := do
  execute instruction
  modify advance
  return .proceed

theorem carryOut_agrees (instruction : Char) : Agrees (carryOut instruction) :=
  .bind (execute_agrees instruction) fun _ =>
    .bind (.modify (fun _ => rfl) advance_padded) fun _ => .pure Progress.proceed

theorem step_on_carryOut {m : Machine} (hs : m.stringMode = false) (hat : m.here ≠ '@') :
    step.on m = (carryOut m.here).on m := by
  rw [step, Call.on_bind, Call.on_get]
  simp only [hs, hat, Bool.false_eq_true, if_false]
  rfl

theorem step_agrees : Agrees step where
  takes z hz := by
    have hkept := z.step_sameSettings.underflow.trans hz
    refine ⟨?_, hkept⟩
    by_cases hs : z.stringMode = true
    · rw [step_on, if_pos hs]
      exact not_underflows_ok _
    · by_cases hat : z.here = '@'
      · rw [step_on, if_neg hs, if_pos hat]
        exact not_underflows_ok _
      · rw [step_on_carryOut (by simpa using hs) hat]
        exact ((carryOut_agrees z.here).takes z hz).1
  follows z zeros overflow hz := by
    have hhere : (z.padded zeros overflow).here = z.here := rfl
    have hmode : (z.padded zeros overflow).stringMode = z.stringMode := rfl
    by_cases hs : z.stringMode = true
    · rw [step_on, step_on, hmode, hhere, if_pos hs, if_pos hs]
      rw [readString_padded, advance_padded]
      exact .inr ⟨.same _, zeros, rfl⟩
    · by_cases hat : z.here = '@'
      · rw [step_on, step_on, hmode, hhere, if_neg hs, if_neg hs, if_pos hat, if_pos hat]
        exact .inr ⟨.same _, zeros, rfl⟩
      · have hs' : z.stringMode = false := by simpa using hs
        rw [step_on_carryOut hs' hat, step_on_carryOut (hmode.trans hs') (hhere ▸ hat), hhere]
        exact (carryOut_agrees z.here).follows z zeros overflow hz

theorem after_settings (m : Machine) (k : Nat) : m.SameSettings (interpreter.after k m) := by
  induction k with
  | zero => exact .refl m
  | succ k ih => exact ih.trans (step_sameSettings _)

/-- As long as the zeros of a padded machine last, its steps have the results of the other machine's
steps. By induction on the number of steps, which keeps the machines padded. -/
theorem Padded.after (h : f.Padded zeros z) (steps : Nat)
    (hlast : ∀ k < steps, ¬ Underflows (step.on (interpreter.after k f)).1) :
    (∀ k < steps, Alike (step.on (interpreter.after k f)).1 (step.on (interpreter.after k z)).1) ∧
      ∃ n, (interpreter.after steps f).Padded n (interpreter.after steps z) := by
  induction steps with
  | zero => exact ⟨fun _ hk => absurd hk (Nat.not_lt_zero _), zeros, h⟩
  | succ steps ih =>
    obtain ⟨halike, n, hn⟩ := ih fun k hk => hlast k (Nat.lt_succ_of_lt hk)
    have hnow := hlast steps (Nat.lt_succ_self steps)
    have hkept := (step_agrees.takes _ hn.takes).2
    have hstep := step_agrees.follows _ n (interpreter.after steps f).overflow hn.takes
    rw [← hn.eq_padded] at hstep
    obtain ⟨hsame, n', hn'⟩ := hstep.resolve_left hnow
    refine ⟨fun k hk => ?_, n', ?_⟩
    · rcases Nat.lt_succ_iff_lt_or_eq.mp hk with hlt | rfl
      · exact halike k hlt
      · exact hsame
    · have hpadded := padded_padded n' (interpreter.after steps f).overflow hkept
      rw [← hn'] at hpadded
      exact hpadded

/-- Two machines that differ in what an empty stack yields, and in some zeros at the bottom of the
stack where it is a fault, make the same steps as long as no empty stack faults: with the same results,
but for zeros in the stack that a division by zero reports, and to machines that differ as before.
The machine that takes zeros never faults on an empty stack. -/
theorem underflow_policies_agree (f z : Machine) (zeros : Nat) (h : f.Padded zeros z) (steps : Nat)
    (hlast : ∀ k < steps, ¬ Underflows (step.on (interpreter.after k f)).1) :
    (∀ k < steps, Alike (step.on (interpreter.after k f)).1 (step.on (interpreter.after k z)).1) ∧
      (∃ n, (interpreter.after steps f).Padded n (interpreter.after steps z)) ∧
      (interpreter.after steps f).overflow = f.overflow ∧
      (interpreter.after steps z).overflow = z.overflow ∧
      ∀ k, ¬ Underflows (step.on (interpreter.after k z)).1 := by
  obtain ⟨halike, hpadded⟩ := h.after steps hlast
  refine ⟨halike, hpadded, (f.after_settings steps).overflow, (z.after_settings steps).overflow, ?_⟩
  intro k
  have htakes := (z.after_settings k).underflow.trans h.takes
  exact (step_agrees.takes _ htakes).1

/-- An empty stack that yields zeros, in front of a program that divides a zero by itself. -/
def emptyHanded : Machine := { running ":/" 0 with underflow := .zero }

theorem underflow_policies_agree_on_zero_by_zero :
    (emptyHanded.padded 3 .reject).Padded 3 emptyHanded ∧
      (∀ k < 2, ¬ Underflows (step.on (interpreter.after k (emptyHanded.padded 3 .reject))).1) ∧
      (step.on (interpreter.after 1 (emptyHanded.padded 3 .reject))).1 =
        .error (.fault (.divisionByZero '/' [0, 0, 0, 0])) ∧
      (step.on (interpreter.after 1 emptyHanded)).1 =
        .error (.fault (.divisionByZero '/' [0, 0])) ∧
      ∃ n, (interpreter.after 2 (emptyHanded.padded 3 .reject)).Padded n
        (interpreter.after 2 emptyHanded) := by
  have hpadded : (emptyHanded.padded 3 .reject).Padded 3 emptyHanded := padded_padded 3 .reject rfl
  have hfirst : (step.on (interpreter.after 0 (emptyHanded.padded 3 .reject))).1 = .ok .proceed := by
    rfl
  have hsecond : (step.on (interpreter.after 1 (emptyHanded.padded 3 .reject))).1 =
      .error (.fault (.divisionByZero '/' [0, 0, 0, 0])) := by rfl
  have hlast : ∀ k < 2,
      ¬ Underflows (step.on (interpreter.after k (emptyHanded.padded 3 .reject))).1 := by
    rintro k hk ⟨instruction, h⟩
    obtain rfl | rfl : k = 0 ∨ k = 1 := by omega
    · rw [hfirst] at h
      cases h
    · rw [hsecond] at h
      cases h
  obtain ⟨-, hn, -⟩ := underflow_policies_agree _ _ 3 hpadded 2 hlast
  exact ⟨hpadded, hlast, hsecond, by rfl, hn⟩

end Esolang.Grid.Machine
