import Mathlib.Logic.Relation
import Esolang.Proofs.Course

/-! Runs of a machine step by step, with neither fuel nor limits. A run that ends has a number of
steps, and driving the machine without limits finds these runs and no others. -/

namespace Esolang.Interpreter

variable {σ : Type} {machine : Interpreter σ}

/-- The machine ends in a halt or an error, after so many steps behind which it can go on. -/
inductive EndsIn (machine : Interpreter σ) : Nat → σ → Except Error Unit → σ → Prop where
  | halt {s t : σ} (h : machine.step.on s = (.ok .halt, t)) : EndsIn machine 0 s (.ok ()) t
  | fail {s t : σ} {e : Error} (h : machine.step.on s = (.error e, t)) :
    EndsIn machine 0 s (.error e) t
  | proceed {n : Nat} {s u t : σ} {result : Except Error Unit}
    (h : machine.step.on s = (.ok .proceed, u)) (rest : EndsIn machine n u result t) :
    EndsIn machine (n + 1) s result t

def Ends (machine : Interpreter σ) (s : σ) (result : Except Error Unit) (t : σ) : Prop :=
  ∃ n, machine.EndsIn n s result t

def Proceeds (machine : Interpreter σ) (s t : σ) : Prop := machine.step.on s = (.ok .proceed, t)

abbrev Reaches (machine : Interpreter σ) := Relation.ReflTransGen machine.Proceeds

theorem EndsIn.of_proceeds {n : Nat} {s u t : σ} {result : Except Error Unit}
    (h : machine.EndsIn n s result t) (hs : machine.Proceeds s u) :
    ∃ m, n = m + 1 ∧ machine.EndsIn m u result t := by
  cases h with
  | halt h => simp [Proceeds, h] at hs
  | fail h => simp [Proceeds, h] at hs
  | @proceed m _ v _ _ h rest =>
    have hu : v = u := by simpa [Proceeds, h] using hs
    exact ⟨m, rfl, hu ▸ rest⟩

theorem EndsIn.of_transGen {n : Nat} {s u t : σ} {result : Except Error Unit}
    (h : machine.EndsIn n s result t) (hs : Relation.TransGen machine.Proceeds s u) :
    ∃ m, m < n ∧ machine.EndsIn m u result t := by
  induction hs with
  | single hstep =>
    obtain ⟨m, hm, hu⟩ := h.of_proceeds hstep
    exact ⟨m, by omega, hu⟩
  | tail _ hstep ih =>
    obtain ⟨m, hm, hu⟩ := ih
    obtain ⟨l, hl, hv⟩ := hu.of_proceeds hstep
    exact ⟨l, by omega, hv⟩

theorem EndsIn.of_fails {n : Nat} {s t v : σ} {e : Error} {result : Except Error Unit}
    (h : machine.EndsIn n s result t) (hs : machine.step.on s = (.error e, v)) :
    result = .error e ∧ t = v := by
  cases h with
  | halt h => simp [h] at hs
  | fail h => simpa [h] using hs
  | proceed h rest => simp [h] at hs

theorem EndsIn.of_halts {n : Nat} {s t v : σ} {result : Except Error Unit}
    (h : machine.EndsIn n s result t) (hs : machine.step.on s = (.ok .halt, v)) :
    n = 0 ∧ result = .ok () ∧ t = v := by
  cases h with
  | halt h => simpa [h] using hs
  | fail h => simp [h] at hs
  | proceed h rest => simp [h] at hs

/-- Steps behind which the machine can go on, in front of a run that ends. -/
theorem EndsIn.of_after {k n : Nat} {s t : σ} {result : Except Error Unit}
    (hs : ∀ j < k, (machine.step.on (machine.after j s)).1 = .ok .proceed)
    (h : machine.EndsIn n (machine.after k s) result t) :
    machine.EndsIn (k + n) s result t := by
  induction k generalizing n with
  | zero => rwa [Nat.zero_add]
  | succ k ih =>
    have hlast : machine.Proceeds (machine.after k s) (machine.after (k + 1) s) :=
      Prod.ext (hs k (Nat.lt_succ_self k)) rfl
    have hrest := ih (fun j hj => hs j (Nat.lt_succ_of_lt hj)) (.proceed hlast h)
    rwa [Nat.succ_add_eq_add_succ]

theorem Ends.of_proceeds {s u t : σ} {result : Except Error Unit} (hs : machine.Proceeds s u)
    (h : machine.Ends u result t) : machine.Ends s result t := by
  obtain ⟨n, hn⟩ := h
  exact ⟨n + 1, .proceed hs hn⟩

theorem Ends.of_reaches {s u t : σ} {result : Except Error Unit} (hs : machine.Reaches s u)
    (h : machine.Ends u result t) : machine.Ends s result t := by
  induction hs using Relation.ReflTransGen.head_induction_on with
  | refl => exact h
  | head hstep _ ih => exact .of_proceeds hstep ih

/-- The steps that a run without limits counts are those behind which the machine can go on. -/
theorem drive_unlimited_iff {fuel steps : Nat} {s t : σ} {result : Except Error Summary} :
    machine.drive {} fuel steps s = (some result, t) ↔
      ∃ n r, n < fuel ∧ machine.EndsIn n s r t ∧
        result = r.map fun _ => ⟨steps + n, .halted⟩ := by
  induction fuel generalizing steps s with
  | zero => simp [drive]
  | succ fuel ih =>
    simp only [drive, Limits.reached, Bool.false_eq_true, if_false]
    rcases hs : machine.step.on s with ⟨_ | ⟨_ | _⟩, u⟩
    case error e =>
      constructor
      · intro h
        obtain ⟨rfl, rfl⟩ : Except.error e = result ∧ u = t := by simpa using h
        exact ⟨0, .error e, by omega, .fail hs, rfl⟩
      · rintro ⟨n, r, _, hn, rfl⟩
        obtain ⟨rfl, rfl⟩ := hn.of_fails hs
        rfl
    case ok.proceed =>
      simp only [ih]
      constructor
      · rintro ⟨n, r, hlt, hn, rfl⟩
        exact ⟨n + 1, r, by omega, .proceed hs hn, by rw [Nat.add_right_comm, Nat.add_assoc]⟩
      · rintro ⟨n, r, hlt, hn, rfl⟩
        obtain ⟨m, rfl, hm⟩ := hn.of_proceeds hs
        exact ⟨m, r, by omega, hm, by rw [Nat.add_right_comm, Nat.add_assoc]⟩
    case ok.halt =>
      constructor
      · intro h
        obtain ⟨rfl, rfl⟩ : Except.ok ⟨steps, .halted⟩ = result ∧ u = t := by simpa using h
        exact ⟨0, .ok (), by omega, .halt hs, rfl⟩
      · rintro ⟨n, r, _, hn, rfl⟩
        obtain ⟨rfl, rfl, rfl⟩ := hn.of_halts hs
        rfl

/-- Finishing that succeeds and changes nothing leaves the result of the steps as it is. -/
theorem conclude_of_finish {t : σ} (h : machine.finish.on t = (.ok (), t))
    (result : Except Error Summary) : machine.conclude result t = (result, t) := by
  cases result <;> simp [conclude, h]

theorem runWithin_unlimited {fuel n : Nat} {source : String} {s u v t : σ}
    {result : Except Error Unit} (hload : (machine.load source).on s = (.ok (), u))
    (hprepare : machine.prepare.on u = (.ok (), v)) (hends : machine.EndsIn n v result t)
    (hfinish : machine.finish.on t = (.ok (), t)) (hfuel : n < fuel) :
    machine.runWithin {} fuel source s = (some (result.map fun _ => ⟨n, .halted⟩), t) := by
  have hdrive : machine.drive {} fuel 0 v = (some (result.map fun _ => ⟨n, .halted⟩), t) :=
    drive_unlimited_iff.mpr ⟨n, result, hfuel, hends, by rw [Nat.zero_add]⟩
  simp only [runWithin, hload, hprepare, hdrive, conclude_of_finish hfinish]

/-- The states that calls lead to from some initial states, in any order and whether they succeed or
fail. -/
inductive Reachable (machine : Interpreter σ) (initial : σ → Prop) : σ → Prop where
  | initial {s : σ} (h : initial s) : Reachable machine initial s
  | load {s : σ} (h : Reachable machine initial s) (source : String) :
    Reachable machine initial ((machine.load source).on s).2
  | prepare {s : σ} (h : Reachable machine initial s) :
    Reachable machine initial (machine.prepare.on s).2
  | step {s : σ} (h : Reachable machine initial s) :
    Reachable machine initial (machine.step.on s).2
  | finish {s : σ} (h : Reachable machine initial s) :
    Reachable machine initial (machine.finish.on s).2

end Esolang.Interpreter
