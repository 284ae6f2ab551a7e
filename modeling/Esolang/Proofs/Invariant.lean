import Esolang.Call

/-! Properties of states that calls keep, whether they succeed or fail, properties of the errors that
they fail with, and relations between the states before and behind a call that fails. Each follows
from the calls that a call is made of. -/

namespace Esolang.Call

variable {σ τ ε δ α β : Type} {p : σ → Prop}

def Keeps (p : σ → Prop) (call : Call σ ε α) : Prop := ∀ s, p s → p (call.on s).2

namespace Keeps

theorem pure (a : α) : Keeps p (pure a : Call σ ε α) := fun _ h => h

theorem throw (e : ε) : Keeps p (throw e : Call σ ε α) := fun _ h => h

theorem modify {f : σ → σ} (h : ∀ s, p s → p (f s)) : Keeps p (modify f : Call σ ε PUnit) := h

theorem bind {call : Call σ ε α} {f : α → Call σ ε β} (hcall : Keeps p call)
    (hf : ∀ a, Keeps p (f a)) : Keeps p (call >>= f) := by
  intro s hs
  have hfirst := hcall s hs
  rw [on_bind]
  rcases hc : call.on s with ⟨e | a, t⟩
  · rwa [hc] at hfirst
  · rw [hc] at hfirst
    exact hf a t hfirst

/-- A call that looks at the state first may depend on what holds there. -/
theorem get_bind {f : σ → Call σ ε β} (h : ∀ s, p s → p ((f s).on s).2) :
    Keeps p (get >>= f) := by
  intro s hs
  rw [on_bind]
  exact h s hs

theorem onPart {part : σ → τ} {update : σ → τ → σ} (h : ∀ s t, p s → p (update s t))
    (call : Call τ ε α) : Keeps p (onPart part update call) :=
  fun s hs => h s _ hs

theorem mapError {call : Call σ ε α} (h : Keeps p call) (f : ε → δ) :
    Keeps p (mapError f call) := h

end Keeps

variable {q : ε → Prop}

def FailsOnly (q : ε → Prop) (call : Call σ ε α) : Prop := ∀ s e, (call.on s).1 = .error e → q e

namespace FailsOnly

theorem mono {r : ε → Prop} {call : Call σ ε α} (h : FailsOnly q call) (hr : ∀ e, q e → r e) :
    FailsOnly r call :=
  fun s e he => hr e (h s e he)

theorem pure (a : α) : FailsOnly q (pure a : Call σ ε α) := fun _ _ h => nomatch h

theorem throw {e : ε} (h : q e) : FailsOnly q (throw e : Call σ ε α) := by
  intro s d hd
  obtain rfl : e = d := by simpa using hd
  exact h

theorem modify (f : σ → σ) : FailsOnly q (modify f : Call σ ε PUnit) := fun _ _ h => nomatch h

theorem bind {call : Call σ ε α} {f : α → Call σ ε β} (hcall : FailsOnly q call)
    (hf : ∀ a, FailsOnly q (f a)) : FailsOnly q (call >>= f) := by
  intro s e he
  rw [on_bind] at he
  rcases hc : call.on s with ⟨d | a, t⟩
  · rw [hc] at he
    obtain rfl : d = e := by simpa using he
    exact hcall s d (by rw [hc])
  · rw [hc] at he
    exact hf a t e he

theorem get_bind {f : σ → Call σ ε β} (h : ∀ s, FailsOnly q (f s)) :
    FailsOnly q (get >>= f) := by
  intro s e he
  rw [on_bind] at he
  exact h s s e he

theorem onPart {part : σ → τ} {update : σ → τ → σ} {call : Call τ ε α} (h : FailsOnly q call) :
    FailsOnly q (onPart part update call) :=
  fun s e he => h (part s) e he

theorem mapError {f : δ → ε} (call : Call σ δ α) (h : ∀ d, q (f d)) :
    FailsOnly q (mapError f call) := by
  intro s e he
  rw [on_mapError] at he
  rcases hc : (call.on s).1 with d | a
  · rw [hc] at he
    obtain rfl : f d = e := Except.error.inj he
    exact h d
  · rw [hc] at he
    cases he

end FailsOnly

variable {r : σ → ε → σ → Prop}

/-- Wherever the call fails, a relation holds between the state before, the error and the state that
is left. -/
def FailsAs (r : σ → ε → σ → Prop) (call : Call σ ε α) : Prop :=
  ∀ s e t, call.on s = (.error e, t) → r s e t

namespace FailsAs

/-- A change of the state behind a call fails only if the call does. -/
theorem bind_modify {call : Call σ ε α} (h : FailsAs r call) (f : α → σ → σ) :
    FailsAs r (call >>= fun a => (modify (f a) : Call σ ε PUnit)) := by
  intro s e t hf
  rw [on_bind] at hf
  rcases hc : call.on s with ⟨d | a, u⟩
  · rw [hc] at hf
    obtain ⟨rfl, rfl⟩ : d = e ∧ u = t := by simpa using hf
    exact h s d u hc
  · rw [hc] at hf
    cases hf

theorem pure (a : α) : FailsAs r (pure a : Call σ ε α) := by
  intro s e t h
  cases h

theorem modify (f : σ → σ) : FailsAs r (modify f : Call σ ε PUnit) := by
  intro s e t h
  cases h

theorem throw {e : ε} (h : ∀ s, r s e s) : FailsAs r (throw e : Call σ ε α) := by
  intro s d t hd
  obtain ⟨rfl, rfl⟩ : e = d ∧ s = t := by simpa using hd
  exact h s

theorem get_bind {f : σ → Call σ ε β} (h : ∀ s e t, (f s).on s = (.error e, t) → r s e t) :
    FailsAs r (get >>= f) := by
  intro s e t hf
  rw [on_bind] at hf
  exact h s e t hf

end FailsAs

end Esolang.Call
