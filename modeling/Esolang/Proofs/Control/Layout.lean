import Esolang.Proofs.Control.Block
import Esolang.Proofs.Run

/-! Structured programs laid out in a machine that runs by position. If each position of the layout
does its part of the structured program, the runs of the machine and of the program agree. -/

namespace Esolang

theorem cons_prefix_drop_iff {α : Type} {a : α} {l xs : List α} {k : Nat} :
    (a :: l) <+: xs.drop k ↔ xs[k]? = some a ∧ l <+: xs.drop (k + 1) := by
  by_cases hk : k < xs.length
  · rw [List.drop_eq_getElem_cons hk, List.cons_prefix_cons, List.getElem?_eq_getElem hk]
    simp [eq_comm]
  · rw [List.drop_eq_nil_of_le (by omega), List.getElem?_eq_none (by omega)]
    simp

theorem append_prefix_drop_iff {α : Type} {l l' xs : List α} {k : Nat} :
    (l ++ l') <+: xs.drop k ↔ l <+: xs.drop k ∧ l' <+: xs.drop (k + l.length) := by
  induction l generalizing k with
  | nil => simp
  | cons a l ih =>
    rw [List.cons_append, cons_prefix_drop_iff, cons_prefix_drop_iff, ih, and_assoc,
      List.length_cons, Nat.add_right_comm, Nat.add_assoc]

/-- What structured control sees of a machine: a position and the data that commands work on. Only
machines that satisfy a condition are in view, which their steps have to keep. -/
structure View (σ δ : Type) where
  fits : σ → Prop
  position : σ → Nat
  data : σ → δ

namespace View

variable {σ α β δ : Type} (view : View σ δ) (machine : Interpreter σ) (μ : Meaning α β δ)

def At (s : σ) (k : Nat) (d : δ) : Prop := view.fits s ∧ view.position s = k ∧ view.data s = d

def Goes (k : Nat) (d : δ) (k' : Nat) (d' : δ) : Prop :=
  ∀ s, view.At s k d → ∃ t, machine.Proceeds s t ∧ view.At t k' d'

def Fails (k : Nat) (d : δ) (e : Error) (d' : δ) : Prop :=
  ∀ s, view.At s k d → ∃ t, machine.step.on s = (.error e, t) ∧ view.data t = d'

def Halts (k : Nat) (d : δ) : Prop :=
  ∀ s, view.At s k d → ∃ t, machine.step.on s = (.ok .halt, t) ∧ view.data t = d

/-- The machine ends from a position and data after so many steps. -/
def EndsIn (n k : Nat) (d : δ) (result : Except Error Unit) (d' : δ) : Prop :=
  ∀ s, view.At s k d → ∃ t, machine.EndsIn n s result t ∧ view.data t = d'

def Performs (k : Nat) (c : α) : Prop :=
  (∀ d d', (μ.perform c).on d = (.ok (), d') → view.Goes machine k d (k + 1) d') ∧
  ∀ d e d', (μ.perform c).on d = (.error e, d') → view.Fails machine k d e d'

def Tests (k : Nat) (test : β) (inside outside : Nat) : Prop :=
  ∀ d, view.Goes machine k d (if μ.passes test d then inside else outside) d

/-- A program lies at a position and those behind it. The end of a loop either goes back to the test
or makes the test itself. -/
def Lays : Nat → Block α β → Prop
  | _, .done => True
  | k, .command c rest => view.Performs machine μ k c ∧ Lays (k + 1) rest
  | k, .loop test body rest =>
    view.Tests machine μ k test (k + 1) (k + body.size + 2) ∧ Lays (k + 1) body ∧
    (view.Tests machine μ (k + body.size + 1) test (k + 1) (k + body.size + 2) ∨
      ∀ d, view.Goes machine (k + body.size + 1) d k d) ∧
    Lays (k + body.size + 2) rest

/-- A state from which a program starts, or goes on with a loop at the end of a turn. -/
def Enters (s : σ) (k : Nat) (program : Block α β) (d : δ) : Prop :=
  view.At s k d ∨
    ∃ test body rest, program = .loop test body rest ∧ view.At s (k + body.size + 1) d

def Leads (s : σ) (k : Nat) (d : δ) : Except Error Unit → Prop
  | .ok () => ∃ t, machine.Reaches s t ∧ view.At t k d
  | .error e => ∃ t, machine.Ends s (.error e) t ∧ view.data t = d

variable {view machine μ}

theorem Halts.endsIn {k : Nat} {d : δ} (h : view.Halts machine k d) :
    view.EndsIn machine 0 k d (.ok ()) d := by
  intro s hs
  obtain ⟨t, ht, hd⟩ := h s hs
  exact ⟨t, .halt ht, hd⟩

theorem Goes.endsIn {n k k' : Nat} {d d' e : δ} {result : Except Error Unit}
    (h : view.Goes machine k d k' d') (rest : view.EndsIn machine n k' d' result e) :
    view.EndsIn machine (n + 1) k d result e := by
  intro s hs
  obtain ⟨u, hu, hat⟩ := h s hs
  obtain ⟨t, ht, hd⟩ := rest u hat
  exact ⟨t, .proceed hu ht, hd⟩

theorem Leads.of_reaches {s u : σ} {k : Nat} {d : δ} {result : Except Error Unit}
    (hs : machine.Reaches s u) (h : view.Leads machine u k d result) :
    view.Leads machine s k d result := by
  match result, h with
  | .ok (), ⟨t, ht, hat⟩ => exact ⟨t, hs.trans ht, hat⟩
  | .error e, ⟨t, ht, hd⟩ => exact ⟨t, .of_reaches hs ht, hd⟩

/-- A test sends the machine the same way in front of a loop and at the end of a turn. -/
theorem Lays.enter {k : Nat} {test : β} {body rest : Block α β}
    (h : view.Lays machine μ k (.loop test body rest)) {s : σ} {d : δ}
    (hs : view.Enters s k (.loop test body rest) d) :
    ∃ t, Relation.TransGen machine.Proceeds s t ∧
      view.At t (if μ.passes test d then k + 1 else k + body.size + 2) d := by
  obtain ⟨hfront, -, hend, -⟩ := h
  rcases hs with hs | ⟨_, _, _, heq, hs⟩
  · obtain ⟨t, ht, hat⟩ := hfront d s hs
    exact ⟨t, .single ht, hat⟩
  · cases heq
    rcases hend with hend | hend
    · obtain ⟨t, ht, hat⟩ := hend d s hs
      exact ⟨t, .single ht, hat⟩
    · obtain ⟨u, hu, hat⟩ := hend d s hs
      obtain ⟨t, ht, hat⟩ := hfront d u hat
      exact ⟨t, .head hu (.single ht), hat⟩

theorem Enters.at_command {s : σ} {k : Nat} {c : α} {rest : Block α β} {d : δ}
    (h : view.Enters s k (.command c rest) d) : view.At s k d := by
  rcases h with h | ⟨_, _, _, heq, _⟩
  · exact h
  · cases heq

theorem Enters.at_done {s : σ} {k : Nat} {d : δ}
    (h : view.Enters s k (.done : Block α β) d) : view.At s k d := by
  rcases h with h | ⟨_, _, _, heq, _⟩
  · exact h
  · cases heq

theorem Lays.leads {program : Block α β} {d d' : δ} {result : Except Error Unit}
    (hr : program.Runs μ d result d') {k : Nat} (hl : view.Lays machine μ k program) {s : σ}
    (hs : view.Enters s k program d) :
    view.Leads machine s (k + program.size) d' result := by
  induction hr generalizing k s with
  | done => exact ⟨s, .refl, hs.at_done⟩
  | command h _ ih =>
    obtain ⟨u, hu, hat⟩ := hl.1.1 _ _ h s hs.at_command
    have hh := ih hl.2 (.inl hat)
    rw [Nat.add_right_comm] at hh
    exact .of_reaches (.single hu) hh
  | fault h =>
    obtain ⟨t, ht, hd⟩ := hl.1.2 _ _ _ h s hs.at_command
    exact ⟨t, ⟨0, .fail ht⟩, hd⟩
  | @leave _ body rest _ _ _ h _ ih =>
    obtain ⟨u, hu, hat⟩ := hl.enter hs
    rw [h, if_neg Bool.false_ne_true] at hat
    have hh := ih hl.2.2.2 (.inl hat)
    have hk : k + body.size + 2 + rest.size = k + (body.size + rest.size + 2) := by omega
    rw [hk] at hh
    exact .of_reaches hu.to_reflTransGen hh
  | @turn test body rest _ _ _ _ h _ _ ihbody ihloop =>
    obtain ⟨u, hu, hat⟩ := hl.enter hs
    rw [h, if_pos rfl] at hat
    obtain ⟨v, hv, hend⟩ := ihbody hl.2.1 (.inl hat)
    rw [Nat.add_right_comm] at hend
    have hh := ihloop hl (.inr ⟨test, body, rest, rfl, hend⟩)
    exact .of_reaches (hu.to_reflTransGen.trans hv) hh
  | faultInside h _ ih =>
    obtain ⟨u, hu, hat⟩ := hl.enter hs
    rw [h, if_pos rfl] at hat
    obtain ⟨t, ht, hd⟩ := ih hl.2.1 (.inl hat)
    exact ⟨t, .of_reaches hu.to_reflTransGen ht, hd⟩

/-- The program accounts for a run of the machine that ends: either the run goes on behind the
program, with no more steps than before, or the program ends in the error. -/
theorem Lays.accounts {program : Block α β} {n k : Nat} {s t : σ} {d : δ}
    {result : Except Error Unit} (hl : view.Lays machine μ k program)
    (hs : view.Enters s k program d) (he : machine.EndsIn n s result t) :
    (∃ d' m u, program.Runs μ d (.ok ()) d' ∧ m ≤ n ∧ view.At u (k + program.size) d' ∧
      machine.EndsIn m u result t) ∨
    ∃ e, result = .error e ∧ program.Runs μ d (.error e) (view.data t) := by
  induction n using Nat.strongRecOn generalizing program k s d with
  | _ n ih =>
    cases program with
    | done => exact .inl ⟨d, n, s, .done, Nat.le_refl _, hs.at_done, he⟩
    | command c rest =>
      rcases hc : (μ.perform c).on d with ⟨e | _, d'⟩
      · obtain ⟨v, hv, hd⟩ := hl.1.2 _ _ _ hc s hs.at_command
        obtain ⟨rfl, rfl⟩ := he.of_fails hv
        exact .inr ⟨e, rfl, hd ▸ .fault hc⟩
      · obtain ⟨u, hu, hat⟩ := hl.1.1 _ _ hc s hs.at_command
        obtain ⟨m, rfl, hm⟩ := he.of_proceeds hu
        rcases ih m (by omega) hl.2 (.inl hat) hm with ⟨d'', l, v, hr, hle, hv, hend⟩ | ⟨e, rfl, hr⟩
        · rw [Nat.add_right_comm] at hv
          exact .inl ⟨d'', l, v, .command hc hr, by omega, hv, hend⟩
        · exact .inr ⟨e, rfl, .command hc hr⟩
    | loop test body rest =>
      obtain ⟨u, hu, hat⟩ := hl.enter hs
      obtain ⟨m, hlt, hm⟩ := he.of_transGen hu
      cases hp : μ.passes test d with
      | false =>
        rw [hp, if_neg Bool.false_ne_true] at hat
        rcases ih m hlt hl.2.2.2 (.inl hat) hm with ⟨d', l, v, hr, hle, hv, hend⟩ | ⟨e, rfl, hr⟩
        · have hk : k + body.size + 2 + rest.size = k + (body.size + rest.size + 2) := by omega
          exact .inl ⟨d', l, v, .leave hp hr, by omega, hk ▸ hv, hend⟩
        · exact .inr ⟨e, rfl, .leave hp hr⟩
      | true =>
        rw [hp, if_pos rfl] at hat
        rcases ih m hlt hl.2.1 (.inl hat) hm with ⟨d', l, v, hr, hle, hv, hend⟩ | ⟨e, rfl, hr⟩
        · rw [Nat.add_right_comm] at hv
          -- The next turn is of the same loop, but it has fewer steps left.
          rcases ih l (by omega) hl (.inr ⟨test, body, rest, rfl, hv⟩) hend with
            ⟨d'', l', v', hr', hle', hv', hend'⟩ | ⟨e, rfl, hr'⟩
          · exact .inl ⟨d'', l', v', .turn hp hr hr', by omega, hv', hend'⟩
          · exact .inr ⟨e, rfl, .turn hp hr hr'⟩
        · exact .inr ⟨e, rfl, .faultInside hp hr⟩

theorem Lays.ends_iff {program : Block α β} {k : Nat} {s : σ} {d d' : δ}
    {result : Except Error Unit} (hl : view.Lays machine μ k program)
    (hh : ∀ d, view.Halts machine (k + program.size) d) (hs : view.At s k d) :
    (∃ t, machine.Ends s result t ∧ view.data t = d') ↔ program.Runs μ d result d' := by
  constructor
  · rintro ⟨t, ⟨n, hn⟩, rfl⟩
    rcases hl.accounts (.inl hs) hn with ⟨d', m, u, hr, _, hat, hend⟩ | ⟨e, rfl, hr⟩
    · obtain ⟨v, hv, hd⟩ := hh d' u hat
      obtain ⟨_, rfl, rfl⟩ := hend.of_halts hv
      exact hd ▸ hr
    · exact hr
  · intro hr
    match result, hr, hl.leads hr (.inl hs) with
    | .ok (), _, ⟨u, hu, hat⟩ =>
      obtain ⟨t, ht, hd⟩ := hh d' u hat
      exact ⟨t, .of_reaches hu ⟨0, .halt ht⟩, hd⟩
    | .error e, _, hlead => exact hlead

end View

end Esolang
