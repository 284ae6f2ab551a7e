import Mathlib.Order.Bounds.Basic
import Esolang.Proofs.Tape.Matching

/-! The bracket for which unbalanced code is refused. A text that has been read is made of balanced
texts with an open bracket between each two of them. So a closing bracket is refused at the first
place up to which more brackets are closed than opened, and the bracket that is left open at the end
is the last one behind which the code never closes it. -/

namespace Esolang.Tape

/-- Up to this place, which it includes, the code closes more brackets than it opens. -/
def Overclosed (code : List Char) (i : Nat) : Prop :=
  i < code.length ∧ brackets.openers (code.take (i + 1)) < brackets.closers (code.take (i + 1))

/-- An opening bracket from which on, up to any later place, more brackets are opened than closed. -/
def Unclosed (code : List Char) (i : Nat) : Prop :=
  code[i]? = some '[' ∧ ∀ j, i ≤ j → j < code.length →
    brackets.closers ((code.take (j + 1)).drop i) < brackets.openers ((code.take (j + 1)).drop i)

theorem nested_iff_not_overclosed (code : List Char) :
    brackets.Nested code ↔ ∀ i, ¬ Overclosed code i := by
  constructor
  · rintro h i ⟨-, hi⟩
    exact absurd (h (i + 1)) (by omega)
  · intro h n
    by_contra hn
    have hle : code.take (min n code.length) = code.take n := List.take_eq_take_min.symm
    cases hm : min n code.length with
    | zero =>
      rw [← hle, hm] at hn
      exact hn (Nat.le_refl _)
    | succ i =>
      rw [← hle, hm] at hn
      exact h i ⟨by omega, by omega⟩

theorem unclosed_iff {code : List Char} {i : Nat} :
    Unclosed code i ↔ code[i]? = some '[' ∧ brackets.Nested (code.drop (i + 1)) := by
  refine and_congr_right fun hi => ?_
  obtain ⟨hlt, hget⟩ := List.getElem?_eq_some_iff.mp hi
  have hsegment : ∀ n, (code.take (i + n + 1)).drop i = '[' :: (code.drop (i + 1)).take n := by
    intro n
    rw [List.drop_take, List.drop_eq_getElem_cons hlt, hget, show i + n + 1 - i = n + 1 by omega,
      List.take_succ_cons]
  have hopener : ∀ n, brackets.closers ((code.take (i + n + 1)).drop i) <
        brackets.openers ((code.take (i + n + 1)).drop i) ↔
      brackets.closers ((code.drop (i + 1)).take n) ≤
        brackets.openers ((code.drop (i + 1)).take n) := by
    intro n
    rw [hsegment, Brackets.openers_cons, Brackets.closers_cons]
    exact Nat.lt_succ_iff
  constructor
  · intro h n
    rw [List.take_eq_take_min, List.length_drop, ← hopener]
    exact h _ (by omega) (by omega)
  · intro h j hij _
    obtain ⟨n, rfl⟩ := Nat.exists_eq_add_of_le hij
    exact (hopener n).mpr (h n)

/-- Nothing in a balanced text is unclosed. -/
theorem not_unclosed {text : List Char} (h : brackets.Balanced text) (i : Nat) :
    ¬ Unclosed text i := by
  rw [unclosed_iff]
  rintro ⟨hi, hrest⟩
  obtain ⟨hlt, hget⟩ := List.getElem?_eq_some_iff.mp hi
  have hsplit : text = text.take i ++ '[' :: text.drop (i + 1) := by
    rw [← hget, ← List.drop_eq_getElem_cons hlt, List.take_append_drop]
  have htotal := h.2
  have hfront := h.1 i
  have hback := hrest (text.drop (i + 1)).length
  rw [hsplit, Brackets.openers_append, Brackets.closers_append, Brackets.openers_cons,
    Brackets.closers_cons] at htotal
  rw [List.take_length] at hback
  simp [brackets] at htotal hfront hback
  omega

theorem unclosed_opening_iff {text inside : List Char} (h : brackets.Balanced inside) {i : Nat} :
    Unclosed (text ++ '[' :: inside) i ↔ i = text.length ∨ Unclosed text i := by
  rcases Nat.lt_trichotomy i text.length with hlt | rfl | hlt
  · have hopening : brackets.Nested ('[' :: inside) := Brackets.nested_cons_of_opens rfl h.nested
    rw [unclosed_iff, unclosed_iff, List.getElem?_append_left hlt,
      List.drop_append_of_le_length (by omega), or_iff_right (by omega)]
    exact and_congr_right fun _ => ⟨Brackets.Nested.of_append, fun hn => hn.append hopening⟩
  · have hrest : (text ++ '[' :: inside).drop (text.length + 1) = inside := by simp
    rw [unclosed_iff, hrest]
    simp [h.nested]
  · obtain ⟨k, rfl⟩ := Nat.exists_eq_add_of_le (show text.length + 1 ≤ i by omega)
    have hlength : text.length + 1 = (text ++ ['[']).length := by simp
    have hget : (text ++ '[' :: inside)[text.length + 1 + k]? = inside[k]? := by
      rw [List.append_cons, hlength, List.getElem?_append_right (by omega), Nat.add_sub_cancel_left]
    have hdrop : (text ++ '[' :: inside).drop (text.length + 1 + k + 1) = inside.drop (k + 1) := by
      rw [List.append_cons, hlength, Nat.add_assoc, List.drop_length_add_append]
    rw [unclosed_iff, hget, hdrop, ← unclosed_iff]
    refine iff_of_false (not_unclosed h k) ?_
    rintro (hi | hi)
    · omega
    · have hk := (List.getElem?_eq_some_iff.mp hi.1).1
      omega

/-- Balanced texts with an open bracket between each two of them, and the places of these brackets,
the last one first. -/
inductive Pending : (text : List Char) → (opened : List Nat) → Prop where
  | balanced {text : List Char} (h : brackets.Balanced text) : Pending text []
  | opening {text inside : List Char} {opened : List Nat} (front : Pending text opened)
      (h : brackets.Balanced inside) : Pending (text ++ '[' :: inside) (text.length :: opened)

namespace Pending

variable {text : List Char} {opened : List Nat} {i : Nat}

theorem append {block : List Char} (h : Pending text opened) (hb : brackets.Balanced block) :
    Pending (text ++ block) opened := by
  cases h with
  | balanced h => exact .balanced (h.append hb)
  | opening front h =>
    rw [List.append_assoc, List.cons_append]
    exact .opening front (h.append hb)

theorem opens (h : Pending text opened) : Pending (text ++ ['[']) (text.length :: opened) :=
  .opening h (brackets.balanced_text .done)

theorem closes (h : Pending text (i :: opened)) : Pending (text ++ [']']) opened := by
  cases h with
  | opening front h =>
    rw [List.append_assoc, List.cons_append]
    exact front.append (h.enclosed rfl)

theorem nested (h : Pending text opened) : brackets.Nested text := by
  induction h with
  | balanced h => exact h.nested
  | opening _ h ih => exact ih.append (Brackets.nested_cons_of_opens rfl h.nested)

theorem mem_iff (h : Pending text opened) : i ∈ opened ↔ Unclosed text i := by
  induction h with
  | balanced h => simp [not_unclosed h]
  | opening _ h ih => rw [List.mem_cons, ih, unclosed_opening_iff h]

theorem isGreatest (h : Pending text (i :: opened)) : IsGreatest {k | Unclosed text k} i := by
  refine ⟨h.mem_iff.mp List.mem_cons_self, fun k hk => ?_⟩
  cases h with
  | opening front h =>
    rcases (unclosed_opening_iff h).mp hk with rfl | hk
    · exact Nat.le_refl _
    · exact Nat.le_of_lt (List.getElem?_eq_some_iff.mp hk.1).1

end Pending

/-- What the pass knows of the brackets in the text that it has read. -/
structure Pairing.Leaves (text : List Char) (p : Pairing) : Prop where
  size : p.table.size = text.length
  pending : Pending text p.opened

namespace Pairing

variable {p q : Pairing} {text : List Char} {c : Char}

theorem Leaves.read (hp : p.Leaves text) (h : p.read c = .ok q) : q.Leaves (text ++ [c]) := by
  have hsize := hp.size
  have hpending := hp.pending
  rcases read_eq_ok h with ⟨rfl, rfl⟩ | ⟨partner, opened, rfl, ho, rfl⟩ | ⟨hopen, hclose, rfl⟩
  · refine ⟨by simp [hsize], ?_⟩
    rw [hsize]
    exact hpending.opens
  · rw [ho] at hpending
    exact ⟨by simp [hsize], hpending.closes⟩
  · have hplain : brackets.opens c = false ∧ c ≠ brackets.closer :=
      ⟨by simpa [brackets] using hopen, hclose⟩
    exact ⟨by simp [hsize], hpending.append (Brackets.balanced_plain hplain)⟩

/-- Only a closing bracket without an open one before it stops the pass. -/
theorem Leaves.read_error (hp : p.Leaves text) {e : SourceError} (h : p.read c = .error e) :
    c = ']' ∧ brackets.Balanced text ∧ e = .unmatchedBracket text.length .closing := by
  have hpending := hp.pending
  rw [← hp.size]
  obtain ⟨table, opened⟩ := p
  unfold Pairing.read at h
  split at h
  · cases h
  · cases opened with
    | nil =>
      cases hpending with
      | balanced hb => exact ⟨rfl, hb, (Except.error.inj h).symm⟩
    | cons partner opened => cases h
  · cases h

/-- The pass reads the whole text, or a closing bracket behind a balanced text stops it. -/
theorem Leaves.foldlM (hp : p.Leaves text) (rest : List Char) :
    (∃ q, rest.foldlM Pairing.read p = .ok q ∧ q.Leaves (text ++ rest)) ∨
    ∃ front back, text ++ rest = front ++ ']' :: back ∧ brackets.Balanced front ∧
      rest.foldlM Pairing.read p = .error (.unmatchedBracket front.length .closing) := by
  induction rest generalizing p text with
  | nil => exact .inl ⟨p, rfl, by simpa using hp⟩
  | cons c rest ih =>
    rw [List.foldlM_cons]
    cases hc : p.read c with
    | error e =>
      obtain ⟨rfl, hb, rfl⟩ := hp.read_error hc
      exact .inr ⟨text, rest, rfl, hb, rfl⟩
    | ok next =>
      have hh := ih (hp.read hc)
      rwa [List.append_assoc, List.singleton_append] at hh

end Pairing

theorem isLeast_overclosed {front back : List Char} (h : brackets.Balanced front) :
    IsLeast {i | Overclosed (front ++ ']' :: back) i} front.length := by
  constructor
  · have htake : (front ++ ']' :: back).take (front.length + 1) = front ++ [']'] := by
      rw [List.append_cons]
      exact List.take_left' (by simp)
    have htotal := h.2
    refine ⟨by simp, ?_⟩
    rw [htake, Brackets.openers_append, Brackets.closers_append, htotal]
    simp [Brackets.openers, Brackets.closers, brackets]
  · rintro i ⟨-, hi⟩
    by_contra hlt
    rw [List.take_append_of_le_length (by omega)] at hi
    exact absurd (h.1 (i + 1)) (by omega)

/-- Code is balanced and has a table, or it closes a bracket too many, or it leaves one open. -/
theorem jumpTable_cases (code : List Char) :
    (brackets.Balanced code ∧ ∃ table, jumpTable code = .ok table) ∨
    (∃ i, IsLeast {n | Overclosed code n} i ∧
      jumpTable code = .error (.unmatchedBracket i .closing)) ∨
    ∃ i, (∀ n, ¬ Overclosed code n) ∧ IsGreatest {n | Unclosed code n} i ∧
      jumpTable code = .error (.unmatchedBracket i .opening) := by
  have hstart : Pairing.Leaves [] {} := ⟨rfl, .balanced (brackets.balanced_text .done)⟩
  rcases hstart.foldlM code with ⟨⟨table, opened⟩, hpass, hlast⟩ | ⟨front, back, hcode, hb, hpass⟩
  · have hpending : Pending code opened := hlast.pending
    cases opened with
    | nil =>
      have hok : jumpTable code = .ok table := by rw [jumpTable, hpass]; rfl
      exact .inl ⟨(jumpTable_ok_iff code).mp ⟨_, hok⟩, _, hok⟩
    | cons i opened =>
      exact .inr (.inr ⟨i, (nested_iff_not_overclosed code).mp hpending.nested,
        hpending.isGreatest, by rw [jumpTable, hpass]; rfl⟩)
  · rw [List.nil_append] at hcode
    exact .inr (.inl ⟨front.length, hcode ▸ isLeast_overclosed hb,
      by rw [jumpTable, hpass]; rfl⟩)

theorem not_balanced_of_error {code : List Char} {e : SourceError} (h : jumpTable code = .error e) :
    ¬ brackets.Balanced code := by
  rw [← jumpTable_ok_iff, h]
  rintro ⟨table, hok⟩
  cases hok

/-- Code that is not balanced is refused for one of its brackets: for the closing bracket at the first
place up to which more brackets are closed than opened, and if there is no such place, for the last
opening bracket from which on more brackets are opened than closed, however far one goes. -/
theorem unmatched_bracket_is_named (code : List Char) :
    (¬ brackets.Balanced code ↔
      ∃ i side, jumpTable code = .error (.unmatchedBracket i side)) ∧
    (∀ i, jumpTable code = .error (.unmatchedBracket i .closing) ↔
      IsLeast {n | Overclosed code n} i) ∧
    ∀ i, jumpTable code = .error (.unmatchedBracket i .opening) ↔
      (∀ n, ¬ Overclosed code n) ∧ IsGreatest {n | Unclosed code n} i := by
  rcases jumpTable_cases code with ⟨hb, table, hok⟩ | ⟨k, hleast, herror⟩ | ⟨k, hnone, hlast, herror⟩
  · have hnone := (nested_iff_not_overclosed code).mp hb.nested
    rw [hok]
    refine ⟨by simp [hb], fun i => ?_, fun i => ?_⟩
    · exact iff_of_false (by simp) fun hi => hnone i hi.1
    · exact iff_of_false (by simp) fun hi => not_unclosed hb i hi.2.1
  · have hb := not_balanced_of_error herror
    rw [herror]
    refine ⟨by simp [hb], fun i => ?_, fun i => ?_⟩
    · constructor
      · rintro h
        cases h
        exact hleast
      · intro hi
        rw [hleast.unique hi]
    · exact iff_of_false (by simp) fun hi => hi.1 k hleast.1
  · have hb := not_balanced_of_error herror
    rw [herror]
    refine ⟨by simp [hb], fun i => ?_, fun i => ?_⟩
    · exact iff_of_false (by simp) fun hi => hnone i hi.1
    · constructor
      · rintro h
        cases h
        exact ⟨hnone, hlast⟩
      · rintro ⟨-, hi⟩
        rw [hlast.unique hi]

/-- In the first text two brackets are closed too many, in the second two are left open. -/
example :
    jumpTable "+[-]]]".toList = .error (.unmatchedBracket 4 .closing) ∧
      jumpTable "[[.[]".toList = .error (.unmatchedBracket 1 .opening) := by
  decide +kernel

end Esolang.Tape
