/-! Calls on a machine. A call succeeds with a value or fails with an error, and leaves a state in
either case, so that what a failed call has already done stays visible. -/

namespace Esolang

abbrev Call (σ ε α : Type) := ExceptT ε (StateM σ) α

namespace Call

variable {σ τ ε δ α β : Type}

/-- The result of a call made in a state, and the state that it leaves. -/
def on (call : Call σ ε α) (s : σ) : Except ε α × σ := call.run.run s

def ofFunction (f : σ → Except ε α × σ) : Call σ ε α := f

def onPart (part : σ → τ) (update : σ → τ → σ) (call : Call τ ε α) : Call σ ε α :=
  ofFunction fun s =>
    let (result, t) := call.on (part s)
    (result, update s t)

def mapError (f : ε → δ) (call : Call σ ε α) : Call σ δ α :=
  ofFunction fun s =>
    let (result, s) := call.on s
    (result.mapError f, s)

@[simp] theorem on_ofFunction (f : σ → Except ε α × σ) (s : σ) : (ofFunction f).on s = f s := rfl

@[simp] theorem on_pure (a : α) (s : σ) : (pure a : Call σ ε α).on s = (.ok a, s) := rfl

@[simp] theorem on_throw (e : ε) (s : σ) : (throw e : Call σ ε α).on s = (.error e, s) := rfl

@[simp] theorem on_get (s : σ) : (get : Call σ ε σ).on s = (.ok s, s) := rfl

@[simp] theorem on_modify (f : σ → σ) (s : σ) :
    (modify f : Call σ ε PUnit).on s = (.ok ⟨⟩, f s) := rfl

theorem on_liftM (result : Except ε α) (s : σ) :
    (liftM result : Call σ ε α).on s = (result, s) := by
  cases result <;> rfl

@[simp] theorem on_bind (call : Call σ ε α) (f : α → Call σ ε β) (s : σ) :
    (call >>= f).on s =
      match call.on s with
      | (.ok a, t) => (f a).on t
      | (.error e, t) => (.error e, t) := by
  show (ExceptT.bindCont f ((call.on s).1)) ((call.on s).2) = _
  rcases call.on s with ⟨_ | _, t⟩ <;> rfl

@[simp] theorem on_map (f : α → β) (call : Call σ ε α) (s : σ) :
    (f <$> call).on s =
      match call.on s with
      | (.ok a, t) => (.ok (f a), t)
      | (.error e, t) => (.error e, t) := by
  rw [← bind_pure_comp, on_bind]
  rfl

@[simp] theorem on_onPart (part : σ → τ) (update : σ → τ → σ) (call : Call τ ε α) (s : σ) :
    (onPart part update call).on s = ((call.on (part s)).1, update s (call.on (part s)).2) := rfl

@[simp] theorem on_mapError (f : ε → δ) (call : Call σ ε α) (s : σ) :
    (mapError f call).on s = ((call.on s).1.mapError f, (call.on s).2) := rfl

end Call

end Esolang
