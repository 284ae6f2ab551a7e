import Esolang.Interpreter

/-! The protocol of a run. A machine that keeps a log of the calls made on it runs like the machine
without the log, and the log shows which calls a run makes, in which order and in which states, and
how its result follows from theirs. -/

namespace Esolang

variable {σ ε α : Type}

/-- A step may be made after so many steps behind which the machine could go on. -/
def Limits.Permits (limits : Limits σ) (taken : Nat) (s : σ) : Prop :=
  limits.cancelled s = false ∧ ∀ limit, limits.stepLimit = some limit → taken < limit

theorem Limits.permits_iff {limits : Limits σ} {taken : Nat} {s : σ} :
    limits.Permits taken s ↔ limits.cancelled s = false ∧ limits.reached taken = false := by
  unfold Permits reached
  cases limits.stepLimit <;> simp

namespace Interpreter

/-- A call with its result. A step and the end of a run come with the state in which they were
called. -/
inductive Event (σ : Type) where
  | load (source : String) (result : Except SourceError Unit)
  | prepare (result : Except Error Unit)
  | step (before : σ) (result : Except Error Progress)
  | finish (before : σ) (result : Except Error Unit)

/-- Makes a call and puts it behind those in the log. -/
def noting (event : σ → Except ε α → Event σ) (call : Call σ ε α) :
    Call (σ × List (Event σ)) ε α :=
  .ofFunction fun (s, log) =>
    let (result, t) := call.on s
    (result, t, log ++ [event s result])

def logged (machine : Interpreter σ) : Interpreter (σ × List (Event σ)) where
  load source := noting (fun _ => .load source) (machine.load source)
  prepare := noting (fun _ => .prepare) machine.prepare
  step := noting .step machine.step
  finish := noting .finish machine.finish

@[simp] theorem on_logged_load (machine : Interpreter σ) (source : String) (s : σ)
    (log : List (Event σ)) :
    (machine.logged.load source).on (s, log) =
      (((machine.load source).on s).1, ((machine.load source).on s).2,
        log ++ [.load source ((machine.load source).on s).1]) := rfl

@[simp] theorem on_logged_prepare (machine : Interpreter σ) (s : σ) (log : List (Event σ)) :
    machine.logged.prepare.on (s, log) =
      ((machine.prepare.on s).1, (machine.prepare.on s).2,
        log ++ [.prepare (machine.prepare.on s).1]) := rfl

@[simp] theorem on_logged_step (machine : Interpreter σ) (s : σ) (log : List (Event σ)) :
    machine.logged.step.on (s, log) =
      ((machine.step.on s).1, (machine.step.on s).2,
        log ++ [.step s (machine.step.on s).1]) := rfl

@[simp] theorem on_logged_finish (machine : Interpreter σ) (s : σ) (log : List (Event σ)) :
    machine.logged.finish.on (s, log) =
      ((machine.finish.on s).1, (machine.finish.on s).2,
        log ++ [.finish s (machine.finish.on s).1]) := rfl

/-- The calls of a run in their order: it loads, may prepare, makes steps and may finish. -/
structure Transcript (σ : Type) where
  loaded : Except SourceError Unit
  prepared : Option (Except Error Unit) := none
  steps : List (σ × Except Error Progress) := []
  finished : Option (σ × Except Error Unit) := none

namespace Transcript

def events (source : String) (t : Transcript σ) : List (Event σ) :=
  .load source t.loaded :: (t.prepared.toList.map .prepare ++
    t.steps.map (fun call => .step call.1 call.2) ++
    t.finished.toList.map fun call => .finish call.1 call.2)

/-- The steps behind which the machine could go on. -/
def proceeded (t : Transcript σ) : Nat := t.steps.countP fun call => call.2 matches .ok .proceed

/-- The state in which the run last looked whether another step may be made: before a step that was
the last one, or before it finished without another step. -/
def tested (t : Transcript σ) : Option σ :=
  match t.steps.getLast? with
  | some (before, .ok .halt) => some before
  | some (before, .error _) => some before
  | _ => t.finished.map Prod.fst

/-- What the calls of a run have to do with each other, with its limits and with its result. There
is no result if the machine is still running when the fuel is used up. -/
structure Obeys (limits : Limits σ) (fuel : Nat) (t : Transcript σ)
    (result : Option (Except Error Summary)) : Prop where
  prepares : t.prepared.isSome ↔ t.loaded = .ok ()
  steps_prepared : t.steps ≠ [] → t.prepared = some (.ok ())
  finishes : t.finished.isSome ↔ t.prepared = some (.ok ()) ∧ result.isSome
  runs_on : result = none → t.prepared = some (.ok ()) ∧ t.steps.length = fuel
  /-- No step follows one that halts or fails. -/
  goes_on : ∀ call ∈ t.steps.dropLast, call.2 = .ok .proceed
  permitted : ∀ (i : Nat) before outcome, t.steps[i]? = some (before, outcome) →
    limits.Permits i before
  counts : ∀ summary, result = some (.ok summary) → summary.steps = t.proceeded ∧
    ∀ limit, limits.stepLimit = some limit → summary.steps ≤ limit
  stops : ∀ summary, result = some (.ok summary) → ∃ tested, t.tested = some tested ∧
    (summary.stop = .cancelled ↔ limits.cancelled tested = true) ∧
    (summary.stop = .stepLimit ↔
      limits.cancelled tested = false ∧ limits.stepLimit = some summary.steps) ∧
    (summary.stop = .halted ↔ limits.Permits summary.steps tested) ∧
    (summary.stop = .halted ↔ t.steps.getLast? = some (tested, .ok .halt))
  load_fails : ∀ e, t.loaded = .error e → result = some (.error (.source e))
  prepare_fails : ∀ e, t.prepared = some (.error e) → result = some (.error e)
  step_fails : ∀ before e, (before, .error e) ∈ t.steps → result = some (.error e)
  /-- An error of finishing shows only if no step has failed. -/
  finish_fails : ∀ before e, t.finished = some (before, .error e) →
    (∀ call ∈ t.steps, ∀ f, call.2 ≠ .error f) → result = some (.error e)
  succeeds : ∀ before, t.finished = some (before, .ok ()) →
    (∀ call ∈ t.steps, ∀ f, call.2 ≠ .error f) → ∃ summary, result = some (.ok summary)

end Transcript

def turn (s : σ) : σ × Except Error Progress := (s, .ok .proceed)

/-- The ways in which the steps of a run end, after so many steps behind which the machine could go
on: tested in one state and left in another, with no step more or a last one. -/
inductive Leaves (limits : Limits σ) (taken : Nat) :
    σ → σ → List (σ × Except Error Progress) → Except Error Summary → Prop where
  | cancelled {s : σ} (h : limits.cancelled s = true) :
    Leaves limits taken s s [] (.ok ⟨taken, .cancelled⟩)
  | stepLimit {s : σ} (h : limits.cancelled s = false) (hl : limits.reached taken = true) :
    Leaves limits taken s s [] (.ok ⟨taken, .stepLimit⟩)
  | halted {s t : σ} (h : limits.Permits taken s) :
    Leaves limits taken s t [(s, .ok .halt)] (.ok ⟨taken, .halted⟩)
  | failed {s t : σ} {e : Error} (h : limits.Permits taken s) :
    Leaves limits taken s t [(s, .error e)] (.error e)

/-- Steps made one after the other, each of them permitted, and each with the machine going on. -/
inductive Turns (limits : Limits σ) : Nat → List σ → Prop where
  | nil (taken : Nat) : Turns limits taken []
  | cons {taken : Nat} {s : σ} {turns : List σ} (h : limits.Permits taken s)
    (ht : Turns limits (taken + 1) turns) : Turns limits taken (s :: turns)

/-- The steps of a run with the state in which they leave the machine: permitted ones, behind which
the machine went on, until the fuel is used up or the steps end. -/
inductive Steps (limits : Limits σ) (fuel taken : Nat) :
    σ → List (σ × Except Error Progress) → Option (Except Error Summary) → Prop where
  | unended {t : σ} {turns : List σ} (h : Turns limits taken turns) (length : turns.length = fuel) :
    Steps limits fuel taken t (turns.map turn) none
  | ended {s t : σ} {turns : List σ} {last : List (σ × Except Error Progress)}
    {outcome : Except Error Summary} (h : Turns limits taken turns)
    (leaves : Leaves limits (taken + turns.length) s t last outcome) :
    Steps limits fuel taken t (turns.map turn ++ last) (some outcome)

theorem Turns.permits {limits : Limits σ} {taken : Nat} {turns : List σ}
    (h : Turns limits taken turns) (i : Nat) (before : σ) (result : Except Error Progress)
    (hi : (turns.map turn)[i]? = some (before, result)) : limits.Permits (taken + i) before := by
  induction h generalizing i with
  | nil => simp at hi
  | @cons taken s turns hs _ ih =>
    cases i with
    | zero =>
      obtain ⟨rfl, -⟩ : s = before ∧ _ := by simpa [turn] using hi
      exact hs
    | succ i =>
      have hp := ih i (by simpa using hi)
      rwa [Nat.add_assoc, Nat.add_comm 1 i] at hp

theorem proceed_of_mem_turns {turns : List σ} {call : σ × Except Error Progress}
    (h : call ∈ turns.map turn) : call.2 = .ok .proceed := by
  obtain ⟨s, -, rfl⟩ := List.mem_map.mp h
  rfl

/-- A limit is not passed while steps are permitted. -/
theorem Turns.add_length_le {limits : Limits σ} {taken limit : Nat} {turns : List σ}
    (h : Turns limits taken turns) (hl : limits.stepLimit = some limit) (ht : taken ≤ limit) :
    taken + turns.length ≤ limit := by
  induction h with
  | nil => simpa
  | cons hs _ ih =>
    have := ih (hs.2 limit hl)
    simp only [List.length_cons]
    omega

theorem Steps.cons {limits : Limits σ} {fuel taken : Nat} {s t : σ}
    {steps : List (σ × Except Error Progress)} {result : Option (Except Error Summary)}
    (hs : limits.Permits taken s) (h : Steps limits fuel (taken + 1) t steps result) :
    Steps limits (fuel + 1) taken t (turn s :: steps) result := by
  cases h with
  | unended ht length => exact .unended (.cons hs ht) (by simp [length])
  | @ended u _ turns last outcome ht leaves =>
    have hl : Leaves limits (taken + (s :: turns).length) u t last outcome := by
      rwa [List.length_cons, Nat.add_comm _ 1, ← Nat.add_assoc]
    exact .ended (.cons hs ht) hl

theorem Steps.leave {limits : Limits σ} {fuel taken : Nat} {s t : σ}
    {last : List (σ × Except Error Progress)} {outcome : Except Error Summary}
    (h : Leaves limits taken s t last outcome) : Steps limits fuel taken t last (some outcome) :=
  .ended (.nil taken) h

end Interpreter

def Limits.logged (limits : Limits σ) : Limits (σ × List (Interpreter.Event σ)) where
  stepLimit := limits.stepLimit
  cancelled s := limits.cancelled s.1

@[simp] theorem Limits.logged_cancelled (limits : Limits σ)
    (s : σ × List (Interpreter.Event σ)) :
    limits.logged.cancelled s = limits.cancelled s.1 := rfl

@[simp] theorem Limits.logged_reached (limits : Limits σ) (taken : Nat) :
    limits.logged.reached taken = limits.reached taken := rfl

namespace Interpreter

theorem drive_logged (machine : Interpreter σ) (limits : Limits σ) (fuel taken : Nat) (s : σ)
    (log : List (Event σ)) :
    ∃ steps,
      machine.logged.drive limits.logged fuel taken (s, log) =
        ((machine.drive limits fuel taken s).1, (machine.drive limits fuel taken s).2,
          log ++ steps.map fun call => .step call.1 call.2) ∧
      Steps limits fuel taken (machine.drive limits fuel taken s).2 steps
        (machine.drive limits fuel taken s).1 := by
  induction fuel generalizing taken s log with
  | zero => exact ⟨[], by simp [drive], .unended (.nil taken) rfl⟩
  | succ fuel ih =>
    by_cases hc : limits.cancelled s = true
    · exact ⟨[], by simp [drive, hc], by simpa [drive, hc] using .leave (.cancelled hc)⟩
    rw [Bool.not_eq_true] at hc
    by_cases hr : limits.reached taken = true
    · exact ⟨[], by simp [drive, hc, hr], by simpa [drive, hc, hr] using .leave (.stepLimit hc hr)⟩
    rw [Bool.not_eq_true] at hr
    have hp : limits.Permits taken s := Limits.permits_iff.mpr ⟨hc, hr⟩
    obtain ⟨outcome, t, hs⟩ : ∃ outcome t, machine.step.on s = (outcome, t) := ⟨_, _, rfl⟩
    match outcome with
    | .error e =>
      refine ⟨[(s, .error e)], by simp [drive, hc, hr, hs], ?_⟩
      simpa [drive, hc, hr, hs] using .leave (.failed hp)
    | .ok .halt =>
      refine ⟨[(s, .ok .halt)], by simp [drive, hc, hr, hs], ?_⟩
      simpa [drive, hc, hr, hs] using .leave (.halted hp)
    | .ok .proceed =>
      obtain ⟨steps, hd, hsteps⟩ := ih (taken + 1) t (log ++ [.step s (.ok .proceed)])
      refine ⟨turn s :: steps, ?_, ?_⟩
      · simpa [drive, hc, hr, hs, turn] using hd
      · simpa [drive, hc, hr, hs] using hsteps.cons hp

/-- An error of a step comes before one of finishing. -/
def verdict (driven : Except Error Summary) (finished : Except Error Unit) :
    Except Error Summary :=
  driven.bind fun summary => finished.map fun _ => summary

theorem conclude_eq (machine : Interpreter σ) (driven : Except Error Summary) (s : σ) :
    machine.conclude driven s =
      (verdict driven (machine.finish.on s).1, (machine.finish.on s).2) := by
  unfold conclude
  obtain ⟨finished, t, hf⟩ : ∃ finished t, machine.finish.on s = (finished, t) := ⟨_, _, rfl⟩
  rw [hf]
  rcases driven with _ | _ <;> rcases finished with _ | _ <;> rfl

theorem countP_turns (turns : List σ) :
    (turns.map turn).countP (fun call => call.2 matches .ok .proceed) = turns.length := by
  induction turns with
  | nil => rfl
  | cons s turns ih => simp [turn, ih]

namespace Leaves

variable {limits : Limits σ} {taken : Nat} {s t : σ} {last : List (σ × Except Error Progress)}
  {outcome : Except Error Summary}

theorem permits (h : Leaves limits taken s t last outcome) (i : Nat) (before : σ)
    (result : Except Error Progress) (hi : last[i]? = some (before, result)) :
    limits.Permits (taken + i) before := by
  cases h with
  | cancelled => simp at hi
  | stepLimit => simp at hi
  | halted hp =>
    obtain ⟨rfl, rfl, -⟩ : i = 0 ∧ s = before ∧ _ := by simpa [List.getElem?_singleton] using hi
    exact hp
  | failed hp =>
    obtain ⟨rfl, rfl, -⟩ : i = 0 ∧ s = before ∧ _ := by simpa [List.getElem?_singleton] using hi
    exact hp

theorem dropLast_eq (h : Leaves limits taken s t last outcome) : last.dropLast = [] := by
  cases h <;> rfl

theorem countP_eq (h : Leaves limits taken s t last outcome) :
    last.countP (fun call => call.2 matches .ok .proceed) = 0 := by
  cases h <;> rfl

theorem fails_iff (h : Leaves limits taken s t last outcome) (e : Error) :
    outcome = .error e ↔ ∃ before, (before, .error e) ∈ last := by
  cases h <;> simp [eq_comm]

theorem steps_eq {summary : Summary} (h : Leaves limits taken s t last (.ok summary)) :
    summary.steps = taken := by
  cases h <;> rfl

/-- Which of its reasons a run gives for its end follows from the last test, the token before the
limit. -/
theorem stop_eq {summary : Summary} (h : Leaves limits taken s t last (.ok summary))
    (hle : ∀ limit, limits.stepLimit = some limit → taken ≤ limit) :
    (summary.stop = .cancelled ↔ limits.cancelled s = true) ∧
    (summary.stop = .stepLimit ↔
      limits.cancelled s = false ∧ limits.stepLimit = some taken) ∧
    (summary.stop = .halted ↔ limits.Permits taken s) := by
  cases h with
  | cancelled hc => simp [hc, Limits.Permits]
  | stepLimit hc hr =>
    obtain ⟨limit, hl, hlt⟩ : ∃ limit, limits.stepLimit = some limit ∧ limit ≤ taken := by
      unfold Limits.reached at hr
      split at hr
      · exact ⟨_, ‹_›, of_decide_eq_true hr⟩
      · cases hr
    have : limit = taken := Nat.le_antisymm hlt (hle limit hl)
    simp [hc, hl, this, Limits.Permits]
  | halted hp =>
    have hne : limits.stepLimit ≠ some taken := fun hl => Nat.lt_irrefl _ (hp.2 taken hl)
    simp [hp, hp.1, hne]

end Leaves

namespace Steps

variable {limits : Limits σ} {fuel taken : Nat} {t : σ} {steps : List (σ × Except Error Progress)}
  {driven : Option (Except Error Summary)}

theorem goes_on (h : Steps limits fuel taken t steps driven) :
    ∀ call ∈ steps.dropLast, call.2 = .ok .proceed := by
  intro call hc
  cases h with
  | unended => exact proceed_of_mem_turns ((List.dropLast_sublist _).mem hc)
  | ended _ leaves =>
    rw [List.dropLast_append] at hc
    split at hc
    · exact proceed_of_mem_turns ((List.dropLast_sublist _).mem hc)
    · rw [leaves.dropLast_eq, List.append_nil] at hc
      exact proceed_of_mem_turns hc

theorem permits (h : Steps limits fuel taken t steps driven) (i : Nat) (before : σ)
    (result : Except Error Progress) (hi : steps[i]? = some (before, result)) :
    limits.Permits (taken + i) before := by
  cases h with
  | unended ht => exact ht.permits i before result hi
  | @ended _ _ turns _ _ ht leaves =>
    by_cases hlt : i < (turns.map turn).length
    · rw [List.getElem?_append_left hlt] at hi
      exact ht.permits i before result hi
    · rw [List.getElem?_append_right (Nat.le_of_not_lt hlt), List.length_map] at hi
      have hp := leaves.permits (i - turns.length) before result hi
      rw [List.length_map] at hlt
      rwa [Nat.add_assoc, Nat.add_sub_cancel' (Nat.le_of_not_lt hlt)] at hp

end Steps

/-- The calls of a run that has been prepared. -/
def Transcript.ofSteps (steps : List (σ × Except Error Progress))
    (finished : Option (σ × Except Error Unit)) : Transcript σ :=
  ⟨.ok (), some (.ok ()), steps, finished⟩

theorem Leaves.tested_eq {limits : Limits σ} {taken : Nat} {s t : σ}
    {last : List (σ × Except Error Progress)} {outcome : Except Error Summary}
    (h : Leaves limits taken s t last outcome) (turns : List σ) (finished : Except Error Unit) :
    (Transcript.ofSteps (turns.map turn ++ last) (some (t, finished))).tested = some s := by
  cases h with
  | cancelled | stepLimit =>
    -- The last step, if there is one, let the machine go on, so the test came behind it.
    simp only [Transcript.tested, Transcript.ofSteps, List.append_nil, List.getLast?_map]
    cases turns.getLast? <;> rfl
  | halted | failed => simp [Transcript.tested, Transcript.ofSteps]

theorem Leaves.halted_iff {limits : Limits σ} {taken : Nat} {s t : σ}
    {last : List (σ × Except Error Progress)} {summary : Summary}
    (h : Leaves limits taken s t last (.ok summary)) (turns : List σ) :
    summary.stop = .halted ↔ (turns.map turn ++ last).getLast? = some (s, .ok .halt) := by
  cases h with
  | cancelled | stepLimit => simp [List.getLast?_map, turn]
  | halted => simp

theorem verdict_eq_ok {driven : Except Error Summary} {finished : Except Error Unit}
    {summary : Summary} :
    verdict driven finished = .ok summary ↔ driven = .ok summary ∧ finished = .ok () := by
  rcases driven with e | summary' <;> rcases finished with f | ⟨⟩ <;>
    simp [verdict, Except.bind, Except.map]

theorem Steps.fails_iff {limits : Limits σ} {fuel taken : Nat} {t : σ}
    {steps : List (σ × Except Error Progress)} {driven : Except Error Summary}
    (h : Steps limits fuel taken t steps (some driven)) (e : Error) :
    driven = .error e ↔ ∃ before, (before, .error e) ∈ steps := by
  cases h with
  | ended _ leaves => simp [leaves.fails_iff, turn]

theorem Steps.ends_ok {limits : Limits σ} {fuel taken : Nat} {t : σ}
    {steps : List (σ × Except Error Progress)} {driven : Except Error Summary}
    (h : Steps limits fuel taken t steps (some driven))
    (hok : ∀ call ∈ steps, ∀ f, call.2 ≠ .error f) : ∃ summary, driven = .ok summary := by
  cases driven with
  | ok summary => exact ⟨summary, rfl⟩
  | error e =>
    obtain ⟨before, hb⟩ := (h.fails_iff e).mp rfl
    exact absurd rfl (hok _ hb e)

theorem Steps.obeys {limits : Limits σ} {fuel : Nat} {t : σ}
    {steps : List (σ × Except Error Progress)} {driven : Option (Except Error Summary)}
    (h : Steps limits fuel 0 t steps driven) (finished : Except Error Unit) :
    (Transcript.ofSteps steps (driven.map fun _ => (t, finished))).Obeys limits fuel
      (driven.map (verdict · finished)) where
  prepares := by simp [Transcript.ofSteps]
  steps_prepared _ := rfl
  finishes := by simp [Transcript.ofSteps]
  runs_on hr := by
    cases h with
    | unended _ length => simp [Transcript.ofSteps, length]
    | ended => simp at hr
  goes_on := h.goes_on
  permitted i before result hi := by simpa using h.permits i before result hi
  counts summary hr := by
    cases h with
    | unended => simp at hr
    | @ended _ _ turns last _ ht leaves =>
      obtain ⟨rfl, rfl⟩ := verdict_eq_ok.mp (Option.some.inj hr)
      rw [leaves.steps_eq]
      refine ⟨?_, fun limit hl => ht.add_length_le hl (Nat.zero_le limit)⟩
      show 0 + turns.length = (turns.map turn ++ last).countP _
      rw [List.countP_append, countP_turns, leaves.countP_eq, Nat.add_comm]
  stops summary hr := by
    cases h with
    | unended => simp at hr
    | @ended s _ turns last _ ht leaves =>
      obtain ⟨rfl, rfl⟩ := verdict_eq_ok.mp (Option.some.inj hr)
      have hstop := leaves.stop_eq fun limit hl => ht.add_length_le hl (Nat.zero_le limit)
      rw [← leaves.steps_eq] at hstop
      exact ⟨s, leaves.tested_eq turns _, hstop.1, hstop.2.1, hstop.2.2, leaves.halted_iff turns⟩
  load_fails e he := by simp [Transcript.ofSteps] at he
  prepare_fails e he := by simp [Transcript.ofSteps] at he
  step_fails before e he := by
    cases driven with
    | none =>
      cases h with
      | unended => simp [Transcript.ofSteps, turn] at he
    | some driven =>
      obtain rfl := (h.fails_iff e).mpr ⟨before, he⟩
      rfl
  finish_fails before e he hok := by
    cases driven with
    | none => simp [Transcript.ofSteps] at he
    | some driven =>
      obtain ⟨summary, rfl⟩ := h.ends_ok hok
      obtain ⟨rfl, rfl⟩ : t = before ∧ finished = .error e := by
        simpa [Transcript.ofSteps] using he
      rfl
  succeeds before he hok := by
    cases driven with
    | none => simp [Transcript.ofSteps] at he
    | some driven =>
      obtain ⟨summary, rfl⟩ := h.ends_ok hok
      obtain ⟨rfl, rfl⟩ : t = before ∧ finished = .ok () := by
        simpa [Transcript.ofSteps] using he
      exact ⟨summary, rfl⟩

/-- A run that fails before its first step does not finish. -/
theorem Transcript.obeys_unprepared (limits : Limits σ) (fuel : Nat) {e : Error}
    {loaded : Except SourceError Unit} {prepared : Option (Except Error Unit)}
    (hisSome : prepared.isSome ↔ loaded = .ok ()) (hne : prepared ≠ some (.ok ()))
    (hload : ∀ f, loaded = .error f → e = .source f)
    (hprepare : ∀ f, prepared = some (.error f) → e = f) :
    (⟨loaded, prepared, [], none⟩ : Transcript σ).Obeys limits fuel (some (.error e)) where
  prepares := hisSome
  steps_prepared h := absurd rfl h
  finishes := by simp [hne]
  runs_on h := by simp at h
  goes_on call h := by simp at h
  permitted i before result h := by simp at h
  counts summary h := by simp at h
  stops summary h := by simp at h
  load_fails f h := by rw [hload f h]
  prepare_fails f h := by rw [hprepare f h]
  step_fails before f h := by simp at h
  finish_fails before f h := by simp at h
  succeeds before h := by simp at h

theorem runWithin_logged (machine : Interpreter σ) (limits : Limits σ) (fuel : Nat)
    (source : String) (s : σ) :
    ∃ t : Transcript σ,
      machine.logged.runWithin limits.logged fuel source (s, []) =
        ((machine.runWithin limits fuel source s).1, (machine.runWithin limits fuel source s).2,
          t.events source) ∧
      t.Obeys limits fuel (machine.runWithin limits fuel source s).1 := by
  obtain ⟨loaded, s₁, hload⟩ : ∃ loaded s₁, (machine.load source).on s = (loaded, s₁) := ⟨_, _, rfl⟩
  match loaded with
  | .error e =>
    refine ⟨⟨.error e, none, [], none⟩, ?_, ?_⟩
    · simp [runWithin, hload, Transcript.events]
    · simpa [runWithin, hload] using Transcript.obeys_unprepared limits fuel
        (by simp) (by simp) (by simp) (by simp)
  | .ok () =>
  obtain ⟨prepared, s₂, hprepare⟩ : ∃ prepared s₂, machine.prepare.on s₁ = (prepared, s₂) :=
    ⟨_, _, rfl⟩
  match prepared with
  | .error e =>
    refine ⟨⟨.ok (), some (.error e), [], none⟩, ?_, ?_⟩
    · simp [runWithin, hload, hprepare, Transcript.events]
    · simpa [runWithin, hload, hprepare] using Transcript.obeys_unprepared limits fuel
        (by simp) (by simp) (by simp) (by simp)
  | .ok () =>
  obtain ⟨steps, hlogged, hsteps⟩ := machine.drive_logged limits fuel 0 s₂
    [.load source (.ok ()), .prepare (.ok ())]
  obtain ⟨driven, s₃, hdrive⟩ : ∃ driven s₃, machine.drive limits fuel 0 s₂ = (driven, s₃) :=
    ⟨_, _, rfl⟩
  rw [hdrive] at hlogged hsteps
  refine ⟨.ofSteps steps (driven.map fun _ => (s₃, (machine.finish.on s₃).1)), ?_, ?_⟩
  · cases driven with
    | none =>
      simp [runWithin, hload, hprepare, hdrive, hlogged, Transcript.events, Transcript.ofSteps]
    | some driven =>
      simp [runWithin, hload, hprepare, hdrive, hlogged, conclude_eq, Transcript.events,
        Transcript.ofSteps]
  · have hobeys := hsteps.obeys (machine.finish.on s₃).1
    cases driven with
    | none => simpa [runWithin, hload, hprepare, hdrive] using hobeys
    | some driven => simpa [runWithin, hload, hprepare, hdrive, conclude_eq] using hobeys

/-- Whatever the calls of a machine do, the log of a run obeys the protocol, and keeping it changes
nothing else about the run. Under a limit that a 64-bit counter can hold, every run ends. -/
theorem run_keeps_protocol (machine : Interpreter σ) (limits : Limits σ) (source : String) (s : σ) :
    (∀ fuel, ∃ t : Transcript σ,
      machine.logged.runWithin limits.logged fuel source (s, []) =
        ((machine.runWithin limits fuel source s).1, (machine.runWithin limits fuel source s).2,
          t.events source) ∧
      t.Obeys limits fuel (machine.runWithin limits fuel source s).1) ∧
    ∀ limit < UInt64.size, limits.stepLimit = some limit →
      ∃ result, (machine.run limits source s).1 = some result := by
  refine ⟨fun fuel => machine.runWithin_logged limits fuel source s, fun limit hlt hl => ?_⟩
  obtain ⟨t, -, ht⟩ := machine.runWithin_logged limits UInt64.size source s
  show ∃ result, (machine.runWithin limits UInt64.size source s).1 = some result
  rw [← Option.ne_none_iff_exists']
  intro hnone
  obtain ⟨-, hlength⟩ := ht.runs_on hnone
  -- Of all the steps that the fuel allows, one would have been made with the limit reached.
  have hi : limit < t.steps.length := by omega
  have hp := ht.permitted limit t.steps[limit].1 t.steps[limit].2 (List.getElem?_eq_getElem hi)
  exact Nat.lt_irrefl _ (hp.2 limit hl)

end Interpreter

end Esolang
