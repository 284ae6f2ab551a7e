import Esolang.Call
import Esolang.Interpreter

/-! Calls that do not see a change of the state. Such a call returns the same and leaves what it would
have left, changed alike; beside that it is asked what it keeps where it succeeds, and which errors it
fails with. All of this passes from the calls of a machine to its runs. A run that has a result has the
same one with more fuel. -/

namespace Esolang

namespace Call

variable {σ τ ε δ α β : Type} {p : σ → Prop} {q : ε → Prop} {f : σ → σ}

/-- What is asked of the state behind a success, and of the error of a failure. -/
def Yields (p : σ → Prop) (q : ε → Prop) : Except ε α × σ → Prop
  | (.ok _, s) => p s
  | (.error e, _) => q e

/-- Where a property of the state holds, the call keeps it or fails with an error of some kind; and it
does not see a change of the state, which stays as it is. -/
structure Tame (p : σ → Prop) (q : ε → Prop) (f : σ → σ) (call : Call σ ε α) : Prop where
  yields : ∀ s, p s → Yields p q (call.on s)
  overlooks : ∀ s, call.on (f s) = ((call.on s).1, f (call.on s).2)

namespace Tame

theorem pure (a : α) : Tame p q f (pure a : Call σ ε α) where
  yields _ hs := hs
  overlooks _ := rfl

theorem throw {e : ε} (h : q e) : Tame p q f (throw e : Call σ ε α) where
  yields _ _ := h
  overlooks _ := rfl

theorem liftM {result : Except ε α} (h : ∀ e, result = .error e → q e) :
    Tame p q f (liftM result : Call σ ε α) where
  yields s hs := by
    rw [on_liftM]
    cases result with
    | error e => exact h e rfl
    | ok a => exact hs
  overlooks s := by rw [on_liftM, on_liftM]

theorem modify {g : σ → σ} (hp : ∀ s, p s → p (g s)) (hg : ∀ s, g (f s) = f (g s)) :
    Tame p q f (modify g : Call σ ε PUnit) where
  yields := hp
  overlooks s := by rw [on_modify, on_modify, hg]

theorem bind {call : Call σ ε α} {g : α → Call σ ε β} (hcall : Tame p q f call)
    (hg : ∀ a, Tame p q f (g a)) : Tame p q f (call >>= g) where
  yields s hs := by
    have hfirst := hcall.yields s hs
    rw [on_bind]
    rcases hc : call.on s with ⟨e | a, t⟩
    · rwa [hc] at hfirst
    · rw [hc] at hfirst
      exact (hg a).yields t hfirst
  overlooks s := by
    rw [on_bind, on_bind, hcall.overlooks]
    rcases call.on s with ⟨e | a, t⟩
    · rfl
    · exact (hg a).overlooks t

/-- A call that looks at the state first must not look at what is changed. -/
theorem get_bind {g : σ → Call σ ε β} (hg : ∀ s, g (f s) = g s) (h : ∀ s, Tame p q f (g s)) :
    Tame p q f (get >>= g) where
  yields s hs := by
    rw [on_bind]
    exact (h s).yields s hs
  overlooks s := by
    rw [on_bind, on_bind]
    dsimp only [on_get]
    rw [hg, (h s).overlooks]

theorem onPart {p' : τ → Prop} {f' : τ → τ} {part : σ → τ} {update : σ → τ → σ}
    {call : Call τ ε α} (hcall : Tame p' q f' call) (hpart : ∀ s, p s → p' (part s))
    (hupdate : ∀ s t, p s → p' t → p (update s t)) (hf : ∀ s, part (f s) = f' (part s))
    (hf' : ∀ s t, update (f s) (f' t) = f (update s t)) :
    Tame p q f (onPart part update call) where
  yields s hs := by
    have hpartial := hcall.yields (part s) (hpart s hs)
    rw [on_onPart]
    rcases hc : call.on (part s) with ⟨e | a, t⟩
    · rwa [hc] at hpartial
    · rw [hc] at hpartial
      exact hupdate s t hs hpartial
  overlooks s := by rw [on_onPart, on_onPart, hf, hcall.overlooks, hf']

theorem mapError {r : δ → Prop} {g : ε → δ} {call : Call σ ε α} (hcall : Tame p q f call)
    (hg : ∀ e, q e → r (g e)) : Tame p r f (mapError g call) where
  yields s hs := by
    have hmapped := hcall.yields s hs
    rw [on_mapError]
    rcases hc : call.on s with ⟨e | a, t⟩
    · rw [hc] at hmapped
      exact hg e hmapped
    · rwa [hc] at hmapped
  overlooks s := by rw [on_mapError, on_mapError, hcall.overlooks]

end Tame

end Call

namespace Interpreter

variable {σ : Type} {p : σ → Prop} {q : Error → Prop} {f : σ → σ} {machine : Interpreter σ}
  {limits : Limits σ}

structure Tame (p : σ → Prop) (q : Error → Prop) (f : σ → σ) (machine : Interpreter σ) : Prop where
  load : ∀ source, (machine.load source).Tame p (fun e => q (.source e)) f
  prepare : machine.prepare.Tame p q f
  step : machine.step.Tame p q f
  finish : machine.finish.Tame p q f

namespace Tame

/-- By induction on the fuel: a step keeps the property, so the steps behind it find it again. -/
theorem drive_yields (h : machine.Tame p q f) {fuel steps : Nat} {s t : σ}
    {result : Except Error Summary} (hs : p s)
    (hdrive : machine.drive limits fuel steps s = (some result, t)) :
    Call.Yields p q (result, t) := by
  induction fuel generalizing steps s with
  | zero => cases hdrive
  | succ fuel ih =>
    rw [drive] at hdrive
    split at hdrive
    · obtain ⟨rfl, rfl⟩ : Except.ok ⟨steps, .cancelled⟩ = result ∧ s = t := by simpa using hdrive
      exact hs
    · split at hdrive
      · obtain ⟨rfl, rfl⟩ : Except.ok ⟨steps, .stepLimit⟩ = result ∧ s = t := by simpa using hdrive
        exact hs
      · have hyields := h.step.yields s hs
        rcases hstep : machine.step.on s with ⟨e | ⟨_ | _⟩, u⟩
        · rw [hstep] at hdrive hyields
          obtain ⟨rfl, rfl⟩ : Except.error e = result ∧ u = t := by simpa using hdrive
          exact hyields
        · rw [hstep] at hdrive hyields
          exact ih hyields hdrive
        · rw [hstep] at hdrive hyields
          obtain ⟨rfl, rfl⟩ : Except.ok ⟨steps, .halted⟩ = result ∧ u = t := by simpa using hdrive
          exact hyields

theorem drive_overlooks (h : machine.Tame p q f)
    (hlimits : ∀ s, limits.cancelled (f s) = limits.cancelled s) (fuel steps : Nat) (s : σ) :
    machine.drive limits fuel steps (f s) =
      ((machine.drive limits fuel steps s).1, f (machine.drive limits fuel steps s).2) := by
  induction fuel generalizing steps s with
  | zero => rfl
  | succ fuel ih =>
    rw [drive, drive, hlimits, h.step.overlooks]
    by_cases hcancelled : limits.cancelled s = true
    · rw [if_pos hcancelled, if_pos hcancelled]
    · rw [if_neg hcancelled, if_neg hcancelled]
      by_cases hreached : limits.reached steps = true
      · rw [if_pos hreached, if_pos hreached]
      · rw [if_neg hreached, if_neg hreached]
        rcases machine.step.on s with ⟨_ | ⟨_ | _⟩, u⟩
        · rfl
        · exact ih (steps + 1) u
        · rfl

theorem conclude_yields (h : machine.Tame p q f) {result : Except Error Summary} {s : σ}
    (hs : Call.Yields p q (result, s)) : Call.Yields p q (machine.conclude result s) := by
  unfold conclude
  cases result with
  | error e => exact hs
  | ok summary =>
    have hfinish := h.finish.yields s hs
    rcases hf : machine.finish.on s with ⟨e | _, t⟩
    · rwa [hf] at hfinish
    · rwa [hf] at hfinish

theorem conclude_overlooks (h : machine.Tame p q f) (result : Except Error Summary) (s : σ) :
    machine.conclude result (f s) =
      ((machine.conclude result s).1, f (machine.conclude result s).2) := by
  unfold conclude
  rw [h.finish.overlooks]
  rcases machine.finish.on s with ⟨_ | _, t⟩
  · cases result <;> rfl
  · cases result <;> rfl

theorem runWithin_yields (h : machine.Tame p q f) {fuel : Nat} {source : String} {s t : σ}
    {result : Except Error Summary} (hs : p s)
    (hrun : machine.runWithin limits fuel source s = (some result, t)) :
    Call.Yields p q (result, t) := by
  have hload := (h.load source).yields s hs
  rw [runWithin] at hrun
  rcases hl : (machine.load source).on s with ⟨e | _, u⟩
  · rw [hl] at hload hrun
    obtain ⟨rfl, rfl⟩ : Except.error (.source e) = result ∧ u = t := by simpa using hrun
    exact hload
  · rw [hl] at hload hrun
    have hprepare := h.prepare.yields u hload
    dsimp only at hrun
    rcases hp : machine.prepare.on u with ⟨e | _, v⟩
    · rw [hp] at hprepare hrun
      obtain ⟨rfl, rfl⟩ : Except.error e = result ∧ v = t := by simpa using hrun
      exact hprepare
    · rw [hp] at hprepare hrun
      dsimp only at hrun
      rcases hd : machine.drive limits fuel 0 v with ⟨_ | first, w⟩
      · rw [hd] at hrun
        cases hrun
      · rw [hd] at hrun
        have hconclude := h.conclude_yields (h.drive_yields hprepare hd)
        obtain ⟨hresult, ht⟩ := Prod.mk.inj hrun
        rw [← Option.some.inj hresult, ← ht]
        exact hconclude

theorem runWithin_overlooks (h : machine.Tame p q f)
    (hlimits : ∀ s, limits.cancelled (f s) = limits.cancelled s) (fuel : Nat) (source : String)
    (s : σ) :
    machine.runWithin limits fuel source (f s) =
      ((machine.runWithin limits fuel source s).1, f (machine.runWithin limits fuel source s).2) := by
  rw [runWithin, runWithin, (h.load source).overlooks]
  rcases (machine.load source).on s with ⟨_ | _, t⟩
  · rfl
  · dsimp only
    rw [h.prepare.overlooks]
    rcases machine.prepare.on t with ⟨_ | _, u⟩
    · rfl
    · dsimp only
      rw [h.drive_overlooks hlimits]
      rcases machine.drive limits fuel 0 u with ⟨_ | result, v⟩
      · rfl
      · dsimp only
        rw [h.conclude_overlooks]

end Tame

theorem drive_mono {fuel more steps : Nat} {s t : σ} {result : Except Error Summary}
    (h : machine.drive limits fuel steps s = (some result, t)) (hle : fuel ≤ more) :
    machine.drive limits more steps s = (some result, t) := by
  induction fuel generalizing more steps s with
  | zero => cases h
  | succ fuel ih =>
    obtain ⟨more, rfl⟩ : ∃ k, more = k + 1 := ⟨more - 1, by omega⟩
    rw [drive] at h ⊢
    split at h
    · rwa [if_pos ‹_›]
    · rw [if_neg ‹_›]
      split at h
      · rwa [if_pos ‹_›]
      · rw [if_neg ‹_›]
        rcases hstep : machine.step.on s with ⟨_ | ⟨_ | _⟩, u⟩
        · rwa [hstep] at h
        · rw [hstep] at h
          exact ih h (by omega)
        · rwa [hstep] at h

theorem runWithin_mono {fuel more : Nat} {source : String} {s t : σ} {result : Except Error Summary}
    (h : machine.runWithin limits fuel source s = (some result, t)) (hle : fuel ≤ more) :
    machine.runWithin limits more source s = (some result, t) := by
  rw [runWithin] at h ⊢
  rcases hl : (machine.load source).on s with ⟨_ | _, u⟩
  · rwa [hl] at h
  · rw [hl] at h
    dsimp only at h ⊢
    rcases hp : machine.prepare.on u with ⟨_ | _, v⟩
    · rwa [hp] at h
    · rw [hp] at h
      dsimp only at h ⊢
      rcases hd : machine.drive limits fuel 0 v with ⟨_ | first, w⟩
      · rw [hd] at h
        cases h
      · rw [hd] at h
        rwa [drive_mono hd hle]

/-- Runs of one source that have a result have the same one. -/
theorem runWithin_unique {fuel other : Nat} {source : String} {s t u : σ}
    {result result' : Except Error Summary}
    (h : machine.runWithin limits fuel source s = (some result, t))
    (h' : machine.runWithin limits other source s = (some result', u)) :
    result = result' ∧ t = u := by
  have hmost := (runWithin_mono h (Nat.le_max_left fuel other)).symm.trans
    (runWithin_mono h' (Nat.le_max_right fuel other))
  simpa using hmost

end Interpreter

end Esolang
