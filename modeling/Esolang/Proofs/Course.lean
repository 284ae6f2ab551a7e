import Esolang.Interpreter

/-! The course of a machine: the states that it comes to step by step, whatever becomes of the steps,
and what comes of driving it under a step limit. A drive can be cut after any number of steps: a
second drive goes on where the first one stopped, and both together do what one drive does under the
sum of the limits. -/

namespace Esolang

/-- A summary that counts so many earlier steps as well. -/
def Summary.behind (steps : Nat) (summary : Summary) : Summary :=
  { summary with steps := steps + summary.steps }

theorem map_behind_zero (result : Except Error Summary) :
    result.map (Summary.behind 0) = result := by
  cases result <;> simp [Except.map, Summary.behind]

theorem map_behind_behind (m n : Nat) (result : Except Error Summary) :
    (result.map (Summary.behind n)).map (Summary.behind m) =
      result.map (Summary.behind (m + n)) := by
  cases result <;> simp [Except.map, Summary.behind, Nat.add_assoc]

namespace Interpreter

variable {σ : Type} (machine : Interpreter σ)

/-- The state behind so many steps, each of them made whatever became of the one before. -/
def after : Nat → σ → σ
  | 0, s => s
  | k + 1, s => (machine.step.on (after k s)).2

/-- The states in which so many steps are made, in their order. -/
def visited (k : Nat) (s : σ) : List σ := (List.range k).map fun i => machine.after i s

theorem visited_succ (k : Nat) (s : σ) :
    machine.visited (k + 1) s = machine.visited k s ++ [machine.after k s] := by
  simp [visited, List.range_succ]

/-- What an observation finds in one more state stands behind what it has found. -/
theorem filterMap_visited_succ {α : Type} (f : σ → Option α) (k : Nat) (s : σ) :
    (machine.visited (k + 1) s).filterMap f =
      (machine.visited k s).filterMap f ++ (f (machine.after k s)).toList := by
  rw [visited_succ, List.filterMap_append]
  cases hf : f (machine.after k s) <;> simp [hf]

theorem after_of_fixed {s : σ} (h : (machine.step.on s).2 = s) (k : Nat) :
    machine.after k s = s := by
  induction k with
  | zero => rfl
  | succ k ih => rw [after, ih, h]

/-- What comes of driving a machine under a step limit and nothing else, with any fuel that lasts. -/
def Drives (limit : Nat) (s : σ) (result : Except Error Summary) (t : σ) : Prop :=
  ∀ fuel, limit < fuel → machine.drive { stepLimit := some limit } fuel 0 s = (some result, t)

/-- Steps that are taken already count like a limit that is lower by as many. -/
theorem drive_add_steps (earlier limit fuel steps : Nat) (s : σ) :
    machine.drive { stepLimit := some (earlier + limit) } fuel (earlier + steps) s =
      ((machine.drive { stepLimit := some limit } fuel steps s).1.map
          (·.map (Summary.behind earlier)),
        (machine.drive { stepLimit := some limit } fuel steps s).2) := by
  induction fuel generalizing steps s with
  | zero => rfl
  | succ fuel ih =>
    have hreached : ({ stepLimit := some (earlier + limit) } : Limits σ).reached (earlier + steps) =
        ({ stepLimit := some limit } : Limits σ).reached steps := by
      simp [Limits.reached]
    rw [drive, drive, hreached]
    simp only [Bool.false_eq_true, if_false]
    by_cases hr : ({ stepLimit := some limit } : Limits σ).reached steps = true
    · simp [hr, Summary.behind, Except.map]
    · rcases hs : machine.step.on s with ⟨_ | _ | _, t⟩
      · simp [hr, Except.map]
      · simpa [hr, Nat.add_assoc] using ih (steps + 1) t
      · simp [hr, Summary.behind, Except.map]

namespace Drives

variable {machine} {limit : Nat} {s t u : σ}

theorem zero (s : σ) : machine.Drives 0 s (.ok ⟨0, .stepLimit⟩) s := by
  intro fuel hfuel
  obtain ⟨fuel, rfl⟩ := Nat.exists_eq_add_of_lt hfuel
  simp [drive, Limits.reached]

theorem halt (h : machine.step.on s = (.ok .halt, t)) (limit : Nat) :
    machine.Drives (limit + 1) s (.ok ⟨0, .halted⟩) t := by
  intro fuel hfuel
  obtain ⟨fuel, rfl⟩ := Nat.exists_eq_add_of_lt hfuel
  simp [drive, Limits.reached, h]

theorem fail {e : Error} (h : machine.step.on s = (.error e, t)) (limit : Nat) :
    machine.Drives (limit + 1) s (.error e) t := by
  intro fuel hfuel
  obtain ⟨fuel, rfl⟩ := Nat.exists_eq_add_of_lt hfuel
  simp [drive, Limits.reached, h]

theorem proceed {result : Except Error Summary} (h : machine.step.on s = (.ok .proceed, t))
    (rest : machine.Drives limit t result u) :
    machine.Drives (limit + 1) s (result.map (Summary.behind 1)) u := by
  intro fuel hfuel
  cases fuel with
  | zero => omega
  | succ fuel =>
    have hrest := rest fuel (by omega)
    have hshift := machine.drive_add_steps 1 limit fuel 0 t
    rw [hrest, Nat.add_comm 1 limit] at hshift
    simpa [drive, Limits.reached, h] using hshift

end Drives

theorem exists_drives (machine : Interpreter σ) (limit : Nat) (s : σ) :
    ∃ result t, machine.Drives limit s result t := by
  induction limit generalizing s with
  | zero => exact ⟨_, _, .zero s⟩
  | succ limit ih =>
    rcases hs : machine.step.on s with ⟨_ | _ | _, t⟩
    · exact ⟨_, _, .fail hs limit⟩
    · obtain ⟨result, u, hu⟩ := ih t
      exact ⟨_, _, hu.proceed hs⟩
    · exact ⟨_, _, .halt hs limit⟩

/-- A drive under a first limit either stops at it, and then the machine can be driven on, or it halts
or fails, and then a higher limit changes nothing. By induction on the first limit: a step in front of
a drive stands in front of its first part. -/
theorem drives_cut (machine : Interpreter σ) (m n : Nat) (s : σ) :
    ∃ first t, machine.Drives m s first t ∧
      ((first = .ok ⟨m, .stepLimit⟩ ∧ ∃ second u, machine.Drives n t second u ∧
          machine.Drives (m + n) s (second.map (Summary.behind m)) u) ∨
        ((∃ steps, first = .ok ⟨steps, .halted⟩) ∨ ∃ e, first = .error e) ∧
          machine.Drives (m + n) s first t) := by
  induction m generalizing s with
  | zero =>
    obtain ⟨second, u, hu⟩ := machine.exists_drives n s
    refine ⟨_, s, .zero s, .inl ⟨rfl, second, u, hu, ?_⟩⟩
    rwa [Nat.zero_add, map_behind_zero]
  | succ m ih =>
    rw [Nat.succ_add]
    rcases hs : machine.step.on s with ⟨e | _ | _, t⟩
    · exact ⟨_, t, .fail hs m, .inr ⟨.inr ⟨e, rfl⟩, .fail hs (m + n)⟩⟩
    · obtain ⟨first, u, hfirst, hcut⟩ := ih t
      refine ⟨_, u, hfirst.proceed hs, ?_⟩
      rcases hcut with ⟨rfl, second, v, hsecond, hboth⟩ | ⟨hends, hboth⟩
      · refine .inl ⟨by rw [Nat.add_comm m 1]; rfl, second, v, hsecond, ?_⟩
        have hv := hboth.proceed hs
        rwa [map_behind_behind, Nat.add_comm 1 m] at hv
      · refine .inr ⟨?_, hboth.proceed hs⟩
        rcases hends with ⟨steps, rfl⟩ | ⟨e, rfl⟩
        · exact .inl ⟨1 + steps, rfl⟩
        · exact .inr ⟨e, rfl⟩
    · exact ⟨_, t, .halt hs m, .inr ⟨.inl ⟨0, rfl⟩, .halt hs (m + n)⟩⟩

end Interpreter

end Esolang
