import Esolang.Proofs.Grid.Bounds

/-! Division by zero on the Befunge machine. It leaves the machine as it was, so that the division can
be completed with any value, and then the machine is where an ordinary division with that result would
have taken it. Completing a division only looks at the character under the cursor, and so it also
succeeds where no division is pending. -/

namespace Esolang.Grid.Machine

variable {m : Machine}

/-- The operation of a character that divides; it takes the lower operand first. -/
def division? : Char → Option (Int64 → Int64 → Int64)
  | '/' => some floorDiv
  | '%' => some floorMod
  | _ => none

/-- Two operands can be taken from the stack, where zeros may stand in for missing ones. -/
def HasOperands (m : Machine) : Prop := m.underflow = .zero ∨ 2 ≤ m.stack.length

instance (m : Machine) : Decidable m.HasOperands := inferInstanceAs (Decidable (_ ∨ _))

def upper (m : Machine) : Int64 := m.stack.getD 0 0

def lower (m : Machine) : Int64 := m.stack.getD 1 0

/-- The machine behind a division, with a value in place of both operands. -/
def divided (value : Int64) (m : Machine) : Machine :=
  ({ m with stack := value :: m.stack.drop 2 }).advance

theorem division?_eq_some_iff {c : Char} :
    (∃ f, division? c = some f) ↔ c = '/' ∨ c = '%' := by
  constructor
  · rintro ⟨f, h⟩
    unfold division? at h
    split at h
    · exact .inl rfl
    · exact .inr rfl
    · cases h
  · rintro (rfl | rfl)
    · exact ⟨floorDiv, rfl⟩
    · exact ⟨floorMod, rfl⟩

theorem on_operands {α : Type} (instruction : Char) (rest : Int64 → Int64 → Call Machine Error α)
    (h : m.HasOperands) :
    (pop instruction >>= fun a => pop instruction >>= rest a).on m =
      (rest m.upper m.lower).on { m with stack := m.stack.drop 2 } := by
  obtain ⟨field, x, y, direction, stack, stringMode, overflow, underflow, rng, output⟩ := m
  rcases stack with _ | ⟨a, _ | ⟨b, stack⟩⟩
  · obtain rfl : underflow = .zero := by simpa [HasOperands] using h
    simp [pop, upper, lower]
  · obtain rfl : underflow = .zero := by simpa [HasOperands] using h
    simp [pop, upper, lower]
  · simp [pop, upper, lower]

/-- An operand that was there is lost when the other one is missing. -/
theorem on_missing_operand {α : Type} (instruction : Char)
    (rest : Int64 → Int64 → Call Machine Error α) (h : ¬ m.HasOperands) :
    (pop instruction >>= fun a => pop instruction >>= rest a).on m =
      (.error (.fault (.stackUnderflow instruction)), { m with stack := [] }) := by
  obtain ⟨field, x, y, direction, stack, stringMode, overflow, underflow, rng, output⟩ := m
  cases underflow with
  | zero => exact absurd (.inl rfl) h
  | fault =>
    rcases stack with _ | ⟨a, _ | ⟨b, stack⟩⟩
    · simp [pop]
    · simp [pop]
    · simp [HasOperands] at h

theorem divide_on (instruction : Char) (f : Int64 → Int64 → Int64) (h : m.HasOperands) :
    (divide instruction f).on m =
      if m.upper = 0 then (.error (.fault (.divisionByZero instruction m.stack)), m)
      else (.ok (), { m with stack := f m.lower m.upper :: m.stack.drop 2 }) := by
  rw [divide, Call.on_bind, Call.on_get]
  refine (on_operands instruction _ h).trans ?_
  by_cases hz : m.upper = 0
  · simp [hz]
  · simp [hz, push]

theorem divide_on_missing (instruction : Char) (f : Int64 → Int64 → Int64) (h : ¬ m.HasOperands) :
    (divide instruction f).on m =
      (.error (.fault (.stackUnderflow instruction)), { m with stack := [] }) := by
  rw [divide, Call.on_bind, Call.on_get]
  exact on_missing_operand instruction _ h

theorem execute_of_division {c : Char} {f : Int64 → Int64 → Int64} (h : division? c = some f) :
    execute c = divide c f := by
  unfold division? at h
  split at h
  · obtain rfl := Option.some.inj h
    rfl
  · obtain rfl := Option.some.inj h
    rfl
  · cases h

theorem step_on (m : Machine) :
    step.on m =
      if m.stringMode then (.ok .proceed, (m.readString m.here).advance)
      else if m.here = '@' then (.ok .halt, m)
      else
        match (execute m.here).on m with
        | (.ok (), t) => (.ok .proceed, t.advance)
        | (.error e, t) => (.error e, t) := by
  rw [step, Call.on_bind, Call.on_get]
  dsimp only
  split
  · rfl
  · split
    · rfl
    · rw [Call.on_bind]
      rcases (execute m.here).on m with ⟨_ | _, t⟩ <;> rfl

theorem step_of_execute {t : Machine} (hs : m.stringMode = false) (hat : m.here ≠ '@')
    (hx : (execute m.here).on m = (.ok (), t)) : step.on m = (.ok .proceed, t.advance) := by
  rw [step_on, hs, if_neg Bool.false_ne_true, if_neg hat, hx]

theorem step_of_execute_error {t : Machine} {e : Error} (hs : m.stringMode = false)
    (hat : m.here ≠ '@') (hx : (execute m.here).on m = (.error e, t)) :
    step.on m = (.error e, t) := by
  rw [step_on, hs, if_neg Bool.false_ne_true, if_neg hat, hx]

theorem step_on_division {f : Int64 → Int64 → Int64} (hs : m.stringMode = false)
    (hf : division? m.here = some f) :
    step.on m =
      match (divide m.here f).on m with
      | (.ok (), t) => (.ok .proceed, t.advance)
      | (.error e, t) => (.error e, t) := by
  have hat : m.here ≠ '@' := by
    intro hh
    rw [hh] at hf
    cases hf
  rw [step_on, hs, execute_of_division hf]
  simp only [Bool.false_eq_true, if_false, hat]

theorem resolveDivision_on (value : Int64) (hd : m.here = '/' ∨ m.here = '%')
    (ho : m.HasOperands) : (resolveDivision value).on m = (.ok (), m.divided value) := by
  rw [resolveDivision, Call.on_bind, Call.on_get]
  simp only [hd, if_true]
  exact on_operands m.here _ ho

theorem resolveDivision_on_missing (value : Int64) (hd : m.here = '/' ∨ m.here = '%')
    (ho : ¬ m.HasOperands) :
    (resolveDivision value).on m =
      (.error (.fault (.stackUnderflow m.here)), { m with stack := [] }) := by
  rw [resolveDivision, Call.on_bind, Call.on_get]
  simp only [hd, if_true]
  exact on_missing_operand m.here _ ho

theorem resolveDivision_on_elsewhere (value : Int64) (hd : ¬ (m.here = '/' ∨ m.here = '%')) :
    (resolveDivision value).on m = (.error (.config (.noPendingDivision m.here)), m) := by
  rw [resolveDivision, Call.on_bind, Call.on_get]
  simp only [hd, if_false]
  rfl

/-! No other instruction divides by zero. -/

def DividesByZero (e : Error) : Prop :=
  ∃ instruction stack, e = .fault (.divisionByZero instruction stack)

theorem pop_failsOnly (instruction : Char) : (pop instruction).FailsOnly (¬ DividesByZero ·) := by
  intro m e he
  rw [pop, Call.on_ofFunction] at he
  split at he
  · cases he
  · cases he
  · obtain rfl := Except.error.inj he
    rintro ⟨i, s, h⟩
    cases h

theorem Composed.failsOnly {instruction : Char} {n : Nat} {call : Call Machine Error Unit}
    (h : Composed instruction n call) (hd : division? instruction = none) :
    call.FailsOnly (¬ DividesByZero ·) := by
  induction h with
  | deed h =>
    refine h.failsOnly.mono fun e he => ?_
    rintro ⟨i, stack, rfl⟩
    cases he
  | divide hi f =>
    obtain ⟨g, hg⟩ := division?_eq_some_iff.mpr hi
    rw [hd] at hg
    cases hg
  | take _ ih => exact .bind (pop_failsOnly instruction) ih

theorem execute_failsOnly {c : Char} (h : division? c = none) :
    (execute c).FailsOnly (¬ DividesByZero ·) := by
  obtain ⟨n, -, hc⟩ := execute_composed c
  exact hc.failsOnly h

def NextDividesByZero (m : Machine) : Prop := ∃ e, (step.on m).1 = .error e ∧ DividesByZero e

structure PendingDivision (m : Machine) : Prop where
  stringMode : m.stringMode = false
  sign : m.here = '/' ∨ m.here = '%'
  operands : m.HasOperands
  upper_eq : m.upper = 0

theorem PendingDivision.step_on (h : m.PendingDivision) :
    step.on m = (.error (.fault (.divisionByZero m.here m.stack)), m) := by
  obtain ⟨f, hf⟩ := division?_eq_some_iff.mpr h.sign
  rw [step_on_division h.stringMode hf, divide_on m.here f h.operands, if_pos h.upper_eq]

theorem not_dividesByZero_of_step {e : Error} (hf : division? m.here = none)
    (h : (step.on m).1 = .error e) : ¬ DividesByZero e := by
  rw [Machine.step_on] at h
  split at h
  · cases h
  · split at h
    · cases h
    · rcases hx : (execute m.here).on m with ⟨d | _, t⟩
      · rw [hx] at h
        obtain rfl : d = e := by simpa using h
        exact execute_failsOnly hf m d (by rw [hx])
      · rw [hx] at h
        cases h

theorem pending_of_step {e : Error} (h : (step.on m).1 = .error e) (he : DividesByZero e) :
    m.PendingDivision := by
  rcases hf : division? m.here with _ | f
  · exact absurd he (not_dividesByZero_of_step hf h)
  · by_cases hs : m.stringMode = true
    · rw [Machine.step_on, if_pos hs] at h
      cases h
    · have hs' : m.stringMode = false := by simpa using hs
      rw [step_on_division hs' hf] at h
      by_cases ho : m.HasOperands
      · rw [divide_on m.here f ho] at h
        by_cases hz : m.upper = 0
        · exact ⟨hs', division?_eq_some_iff.mp ⟨f, hf⟩, ho, hz⟩
        · rw [if_neg hz] at h
          cases h
      · rw [divide_on_missing m.here f ho] at h
        obtain rfl := Except.error.inj h
        obtain ⟨i, s, hi⟩ := he
        cases hi

theorem pendingDivision_iff : m.PendingDivision ↔ m.NextDividesByZero := by
  constructor
  · intro h
    exact ⟨_, by rw [h.step_on], m.here, m.stack, rfl⟩
  · rintro ⟨e, h, he⟩
    exact pending_of_step h he

/-- The machine is about to divide by a number that is not zero. -/
structure Divides (value : Int64) (m : Machine) : Prop where
  stringMode : m.stringMode = false
  operands : m.HasOperands
  upper_ne : m.upper ≠ 0
  result : ∃ f, division? m.here = some f ∧ f m.lower m.upper = value

theorem Divides.step_on {value : Int64} (h : m.Divides value) :
    step.on m = (.ok .proceed, m.divided value) := by
  obtain ⟨f, hf, rfl⟩ := h.result
  rw [step_on_division h.stringMode hf, divide_on m.here f h.operands, if_neg h.upper_ne]
  rfl

/-- A step that divides by zero changes nothing and reports the stack, so it can be taken again. The
division can also be completed with any value: this replaces the operands by the value and moves the
cursor on, as a division of other operands does whose result is the value. -/
theorem division_by_zero_resumes (m t : Machine) (instruction : Char) (stack : List Int64)
    (h : step.on m = (.error (.fault (.divisionByZero instruction stack)), t)) :
    instruction = m.here ∧ stack = m.stack ∧ t = m ∧
      step.on t = (.error (.fault (.divisionByZero instruction stack)), t) ∧
      ∀ value, ∃ u, (resolveDivision value).on t = (.ok (), u) ∧
        u = { m with
          stack := value :: m.stack.drop 2
          x := ((m.x + m.direction.delta.1 : Int) % m.field.width).toNat
          y := ((m.y + m.direction.delta.2 : Int) % m.field.height).toNat } ∧
        ∀ operands, operands.drop 2 = m.stack.drop 2 →
          Divides value { m with stack := operands } →
          step.on { m with stack := operands } = (.ok .proceed, u) := by
  have hp : m.PendingDivision := pending_of_step (by rw [h]) ⟨instruction, stack, rfl⟩
  have hs := h.symm.trans hp.step_on
  simp only [Prod.mk.injEq, Except.error.injEq, Error.fault.injEq, Fault.divisionByZero.injEq] at hs
  obtain ⟨⟨rfl, rfl⟩, rfl⟩ := hs
  refine ⟨rfl, rfl, rfl, h, fun value => ?_⟩
  refine ⟨t.divided value, resolveDivision_on value hp.sign hp.operands, rfl, ?_⟩
  intro operands hdrop hd
  rw [hd.step_on, divided, divided]
  simp only [hdrop]

/-- On a playfield of one row, after so many steps. -/
def running (source : String) : Nat → Machine
  | 0 => ((load source).on
    { field := .blank 6 1, overflow := .reject, underflow := .fault, rng := .ofSeed 0,
      output := {} }).2
  | steps + 1 => (step.on (running source steps)).2

theorem running_reachable (source : String) (steps : Nat) :
    Reachable { width := 6, height := 1, seed := some 0 } (running source steps) := by
  induction steps with
  | zero => exact .load (.initial (show ofConfig _ 0 {} = .ok _ from rfl)) source
  | succ steps ih => exact .step ih

theorem five_divided_by_zero_resumes :
    step.on (running "750/" 3) =
        (.error (.fault (.divisionByZero '/' [0, 5, 7])), running "750/" 3) ∧
      (resolveDivision 42).on (running "750/" 3) =
        (.ok (), { running "750/" 3 with stack := [42, 7], x := 4 }) ∧
      step.on { running "750/" 3 with stack := [2, 84, 7] } =
        (.ok .proceed, { running "750/" 3 with stack := [42, 7], x := 4 }) := by
  have h : step.on (running "750/" 3) =
      (.error (.fault (.divisionByZero '/' [0, 5, 7])), running "750/" 3) := by rfl
  obtain ⟨-, -, -, -, hresolve⟩ := division_by_zero_resumes _ _ _ _ h
  obtain ⟨u, hu, rfl, hdivides⟩ := hresolve 42
  refine ⟨h, hu, hdivides [2, 84, 7] rfl ?_⟩
  exact ⟨rfl, .inr (by decide), by decide, floorDiv, rfl, by decide⟩

/-- Completing a division succeeds where one is pending and nowhere else, and changes nothing where it
fails. -/
def ResolvesOnlyPending (value : Int64) (m : Machine) : Prop :=
  (((resolveDivision value).on m).1 = .ok () ↔ m.NextDividesByZero) ∧
  (¬ m.NextDividesByZero → ∃ e, (resolveDivision value).on m = (.error e, m))

namespace ResolvesOnlyPending

variable {value : Int64}

theorem pending (h : m.ResolvesOnlyPending value) (hd : m.here = '/' ∨ m.here = '%')
    (ho : m.HasOperands) : m.PendingDivision := by
  have hok : ((resolveDivision value).on m).1 = .ok () := by rw [resolveDivision_on value hd ho]
  exact pendingDivision_iff.mpr (h.1.mp hok)

theorem stack_eq_nil (h : m.ResolvesOnlyPending value) (hd : m.here = '/' ∨ m.here = '%')
    (ho : ¬ m.HasOperands) : m.stack = [] := by
  have hp : ¬ m.PendingDivision := fun hp => ho hp.operands
  obtain ⟨e, he⟩ := h.2 (mt pendingDivision_iff.mpr hp)
  rw [resolveDivision_on_missing value hd ho] at he
  have hm : ({ m with stack := [] } : Machine) = m := (Prod.mk.inj he).2
  exact (congrArg Machine.stack hm).symm

end ResolvesOnlyPending

/-- At a character that divides, completing a division also succeeds in string mode and with a divisor
other than zero, and loses the operand that is there if only one is. -/
theorem resolves_only_pending_iff (value : Int64) (m : Machine) :
    m.ResolvesOnlyPending value ↔
      (m.here = '/' ∨ m.here = '%' →
        m.PendingDivision ∨ m.underflow = .fault ∧ m.stack = []) := by
  constructor
  · intro h hd
    by_cases ho : m.HasOperands
    · exact .inl (h.pending hd ho)
    · have hu : m.underflow = .fault := by
        cases hu : m.underflow with
        | fault => rfl
        | zero => exact absurd (.inl hu) ho
      exact .inr ⟨hu, h.stack_eq_nil hd ho⟩
  · intro h
    rw [ResolvesOnlyPending, ← pendingDivision_iff]
    by_cases hd : m.here = '/' ∨ m.here = '%'
    · obtain hp | ⟨hu, hs⟩ := h hd
      · rw [resolveDivision_on value hd hp.operands]
        exact ⟨iff_of_true rfl hp, fun hn => absurd hp hn⟩
      · have ho : ¬ m.HasOperands := by simp [HasOperands, hu, hs]
        have hp : ¬ m.PendingDivision := fun hp => ho hp.operands
        rw [resolveDivision_on_missing value hd ho]
        refine ⟨iff_of_false (by simp) hp, fun _ => ⟨.fault (.stackUnderflow m.here), ?_⟩⟩
        rw [← hs]
    · have hp : ¬ m.PendingDivision := fun hp => hd hp.sign
      rw [resolveDivision_on_elsewhere value hd]
      exact ⟨iff_of_false (by simp) hp, fun _ => ⟨_, rfl⟩⟩

/-- An ordinary division, a division sign in string mode, and a division that lacks an operand. -/
theorem resolves_without_pending_division :
    (Reachable { width := 6, height := 1, seed := some 0 } (running "62/" 2) ∧
      ¬ (running "62/" 2).ResolvesOnlyPending 9) ∧
    (Reachable { width := 6, height := 1, seed := some 0 } (running "11\x22/" 3) ∧
      ¬ (running "11\x22/" 3).ResolvesOnlyPending 9) ∧
    (Reachable { width := 6, height := 1, seed := some 0 } (running "5/" 1) ∧
      ¬ (running "5/" 1).ResolvesOnlyPending 9) := by
  refine ⟨⟨running_reachable _ _, fun h => ?_⟩, ⟨running_reachable _ _, fun h => ?_⟩,
    ⟨running_reachable _ _, fun h => ?_⟩⟩
  · have hp := h.pending (.inl (by decide)) (.inr (by decide))
    exact absurd hp.upper_eq (by decide)
  · have hp := h.pending (.inl (by decide)) (.inr (by decide))
    exact absurd hp.stringMode (by decide)
  · have hs := h.stack_eq_nil (.inl (by decide)) (by decide)
    exact absurd hs (by decide)

end Esolang.Grid.Machine
