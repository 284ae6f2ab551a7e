import Mathlib.Data.List.TakeWhile
import Esolang.Proofs.Stream.Decoding

/-! Text that is still to be read. Part of it has been pushed back and the rest is not yet decoded.
Reading takes it off from the front, whatever is reported at its end. -/

namespace Esolang.Source

theorem failure_next (s : Source) : (next.on s).2.failure = s.failure := by
  obtain ⟨bytes, failure, pushed⟩ := s
  cases pushed with
  | cons c pushed => rfl
  | nil =>
    cases bytes with
    | nil => rfl
    | cons lead rest => rfl

/-- By induction on what is left: reading changes nothing of what is reported at the end. -/
theorem failure_readWhile (p : Char → Bool) (s : Source) :
    (s.readWhile p).2.2.failure = s.failure := by
  induction hn : s.remaining using Nat.strongRecOn generalizing s with
  | _ n ih =>
    have hkept := failure_next s
    rcases hnext : next.on s with ⟨e | _ | c, t⟩
    · rw [hnext] at hkept
      rw [readWhile_of_error hnext]
      exact hkept
    · rw [hnext] at hkept
      rw [readWhile_of_end hnext]
      exact hkept
    · rw [hnext] at hkept
      cases hp : p c with
      | false =>
        rw [readWhile_of_refused hnext hp]
        exact hkept
      | true =>
        rw [readWhile_of_accepted hnext hp]
        exact (ih _ (hn ▸ remaining_next hnext) t rfl).trans hkept

/-- The characters that a source still has, those pushed back first. -/
def Pending (text : List Char) (s : Source) : Prop :=
  ∃ undecoded, s.bytes = encodeText undecoded ∧ text = s.pushed ++ undecoded

namespace Pending

variable {s : Source} {text : List Char} {c : Char}

theorem next_cons (h : s.Pending (c :: text)) :
    ∃ t, next.on s = (.ok (some c), t) ∧ t.Pending text := by
  obtain ⟨bytes, failure, pushed⟩ := s
  obtain ⟨undecoded, rfl, htext⟩ := h
  cases pushed with
  | cons d pushed =>
    obtain ⟨rfl, rfl⟩ := List.cons.inj htext
    exact ⟨_, rfl, undecoded, rfl, rfl⟩
  | nil =>
    obtain rfl : c :: text = undecoded := htext
    rw [encodeText_cons]
    exact ⟨_, next_encode c (encodeText text) failure, text, rfl, rfl⟩

theorem next_nil (h : s.Pending []) :
    (next.on s).2 = s ∧ ∀ c, (next.on s).1 ≠ .ok (some c) := by
  obtain ⟨bytes, failure, pushed⟩ := s
  obtain ⟨undecoded, rfl, htext⟩ := h
  obtain ⟨rfl, rfl⟩ := List.append_eq_nil_iff.mp htext.symm
  cases failure with
  | none => exact ⟨rfl, by rintro c ⟨⟩⟩
  | some e => exact ⟨rfl, by rintro c ⟨⟩⟩

theorem pushBack (h : s.Pending text) (c : Char) : (s.pushBack c).Pending (c :: text) := by
  obtain ⟨undecoded, hbytes, rfl⟩ := h
  exact ⟨undecoded, hbytes, rfl⟩

theorem readWhile_nil (h : s.Pending []) (p : Char → Bool) :
    (s.readWhile p).1 = [] ∧ (s.readWhile p).2.2 = s := by
  obtain ⟨hsame, hnone⟩ := h.next_nil
  rcases hn : next.on s with ⟨e | _ | c, t⟩
  · rw [hn] at hsame
    rw [readWhile_of_error hn]
    exact ⟨rfl, hsame⟩
  · rw [hn] at hsame
    rw [readWhile_of_end hn]
    exact ⟨rfl, hsame⟩
  · exact absurd (by rw [hn]) (hnone c)

/-- What is read is the front of the pending text, and the rest stays pending. -/
theorem readWhile (h : s.Pending text) (p : Char → Bool) :
    (s.readWhile p).1 = text.takeWhile p ∧ (s.readWhile p).2.2.Pending (text.dropWhile p) := by
  induction text generalizing s with
  | nil =>
    obtain ⟨hread, hlast⟩ := h.readWhile_nil p
    exact ⟨hread, by rwa [hlast]⟩
  | cons c text ih =>
    obtain ⟨t, hn, ht⟩ := h.next_cons
    cases hp : p c with
    | false =>
      rw [readWhile_of_refused hn hp, List.takeWhile_cons, List.dropWhile_cons, hp]
      exact ⟨rfl, ht.pushBack c⟩
    | true =>
      obtain ⟨hread, hlast⟩ := ih ht
      rw [readWhile_of_accepted hn hp, List.takeWhile_cons, List.dropWhile_cons, hp]
      exact ⟨congrArg (c :: ·) hread, hlast⟩

theorem next_ok (h : s.Pending text) (hend : text = [] → s.failure = none) :
    (next.on s).1 = .ok text.head? := by
  cases text with
  | nil =>
    obtain ⟨bytes, failure, pushed⟩ := s
    obtain ⟨undecoded, rfl, htext⟩ := h
    obtain ⟨rfl, rfl⟩ := List.append_eq_nil_iff.mp htext.symm
    obtain rfl : failure = none := hend rfl
    rfl
  | cons c text =>
    obtain ⟨t, hn, -⟩ := h.next_cons
    rw [hn]
    rfl

/-- Reading fails only where the end of the text is reached and a failure is reported there. -/
theorem readWhile_ok {p : Char → Bool} (h : s.Pending text)
    (hend : text.dropWhile p = [] → s.failure = none) : (s.readWhile p).2.1 = .ok () := by
  induction text generalizing s with
  | nil =>
    have hn := h.next_ok hend
    rcases hnext : next.on s with ⟨result, t⟩
    rw [hnext] at hn
    obtain rfl : result = .ok none := hn
    rw [readWhile_of_end hnext]
  | cons c text ih =>
    obtain ⟨t, hn, ht⟩ := h.next_cons
    cases hp : p c with
    | false => rw [readWhile_of_refused hn hp]
    | true =>
      have hkept := failure_next s
      rw [hn] at hkept
      rw [readWhile_of_accepted hn hp]
      refine ih ht fun hnil => hkept.trans (hend ?_)
      rw [List.dropWhile_cons, hp]
      exact hnil

theorem readAll (h : s.Pending text) : s.readAll.1 = text ∧ s.readAll.2.2.Pending [] := by
  have hh := h.readWhile fun _ => true
  rwa [List.takeWhile_eq_self_iff.mpr fun _ _ => rfl,
    List.dropWhile_eq_nil_iff.mpr fun _ _ => rfl] at hh

end Pending

end Esolang.Source
