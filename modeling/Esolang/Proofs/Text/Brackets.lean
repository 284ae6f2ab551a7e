import Mathlib.Order.Basic
import Esolang.Proofs.Control.Block

/-! Texts with loop brackets and the trees that they show. A text is balanced, by its counts of
brackets, exactly if it is the text of a tree, and no two trees have the same text. -/

namespace Esolang

@[simp] theorem ok_bind {ε α β : Type} (a : α) (f : α → Except ε β) :
    (Except.ok a >>= f) = f a := rfl

@[simp] theorem error_bind {ε α β : Type} (e : ε) (f : α → Except ε β) :
    (Except.error e >>= f) = .error e := rfl

structure Brackets where
  opens : Char → Bool
  closer : Char
  opens_closer : opens closer = false

namespace Brackets

variable (b : Brackets)

def openers (text : List Char) : Nat := text.countP b.opens

def closers (text : List Char) : Nat := text.count b.closer

def Balanced (text : List Char) : Prop :=
  (∀ n, b.closers (text.take n) ≤ b.openers (text.take n)) ∧ b.openers text = b.closers text

/-- The text closes all that it opens, and so many brackets that are open before it. -/
def Closes : Nat → List Char → Prop
  | opened, [] => opened = 0
  | opened, c :: rest =>
    if b.opens c then Closes (opened + 1) rest
    else if c = b.closer then
      match opened with
      | 0 => False
      | opened + 1 => Closes opened rest
    else Closes opened rest

theorem openers_cons (c : Char) (text : List Char) :
    b.openers (c :: text) = b.openers text + if b.opens c then 1 else 0 := by
  simp [openers, List.countP_cons]

theorem closers_cons (c : Char) (text : List Char) :
    b.closers (c :: text) = b.closers text + if c = b.closer then 1 else 0 := by
  simp [closers, List.count_cons]

theorem closes_iff (opened : Nat) (text : List Char) :
    b.Closes opened text ↔
      (∀ n, b.closers (text.take n) ≤ opened + b.openers (text.take n)) ∧
      b.closers text = opened + b.openers text := by
  induction text generalizing opened with
  | nil => simp [Closes, openers, closers, eq_comm]
  | cons c rest ih =>
    rw [← Nat.and_forall_add_one]
    simp only [List.take_zero, List.take_succ_cons, openers_cons, closers_cons]
    by_cases ho : b.opens c = true
    · have hc : c ≠ b.closer := fun he => by simp [he, b.opens_closer] at ho
      simp only [Closes, ho, if_true, hc, if_false, ih, openers, closers, List.countP_nil,
        List.count_nil]
      grind
    · by_cases hc : c = b.closer
      · subst hc
        cases opened with
        | zero =>
          refine iff_of_false (by simp [Closes, b.opens_closer]) ?_
          rintro ⟨⟨-, h⟩, -⟩
          have hh := h 0
          simp [openers, closers, b.opens_closer] at hh
        | succ opened =>
          simp only [Closes, b.opens_closer, if_true, ih, openers, closers, List.countP_nil,
            List.count_nil]
          grind
      · simp only [Closes, ho, hc, if_false, ih, openers, closers, List.countP_nil, List.count_nil]
        grind

theorem balanced_iff_closes (text : List Char) : b.Balanced text ↔ b.Closes 0 text := by
  simp only [Balanced, closes_iff, Nat.zero_add, eq_comm]

abbrev Plain := {c : Char // b.opens c = false ∧ c ≠ b.closer}

abbrev Opener := {c : Char // b.opens c = true}

/-- A program whose commands are characters that are no brackets, and whose loops remember the
character that opens them. -/
abbrev Tree := Block b.Plain b.Opener

def text : b.Tree → List Char
  | .done => []
  | .command c rest => c :: text rest
  | .loop test body rest => test :: (text body ++ b.closer :: text rest)

theorem length_text (tree : b.Tree) : (b.text tree).length = tree.size := by
  induction tree with
  | done => rfl
  | command c rest ih => simp [text, Block.size, ih]
  | loop test body rest ihbody ihrest =>
    simp only [text, Block.size, List.length_cons, List.length_append, ihbody, ihrest]
    omega

/-- The tree that a text starts with, up to the first bracket that the text does not open, and the
trees behind that bracket and each further one. -/
def read : List Char → Option (b.Tree × List b.Tree)
  | [] => some (.done, [])
  | c :: rest =>
    match read rest with
    | none => none
    | some (current, outer) =>
      if ho : b.opens c = true then
        match outer with
        | [] => none
        | next :: outer => some (.loop ⟨c, ho⟩ current next, outer)
      else if hc : c = b.closer then some (.done, current :: outer)
      else some (.command ⟨c, by simpa using ho, hc⟩ current, outer)

theorem closes_iff_read (opened : Nat) (text : List Char) :
    b.Closes opened text ↔ (b.read text).map (fun r => r.2.length) = some opened := by
  induction text generalizing opened with
  | nil => simp [Closes, read, eq_comm]
  | cons c rest ih =>
    by_cases ho : b.opens c = true
    · simp only [Closes, ho, if_true, ih, read]
      rcases hr : b.read rest with _ | ⟨current, _ | ⟨next, outer⟩⟩ <;> simp
    · by_cases hc : c = b.closer
      · subst hc
        rcases hr : b.read rest with _ | ⟨current, outer⟩ <;> cases opened <;>
          simp [Closes, read, b.opens_closer, ih, hr]
      · simp only [Closes, ho, hc, if_false, ih, read]
        rcases b.read rest with _ | ⟨current, outer⟩ <;> simp

theorem text_of_read {text : List Char} {current : b.Tree} {outer : List b.Tree}
    (h : b.read text = some (current, outer)) :
    b.text current ++ outer.flatMap (fun tree => b.closer :: b.text tree) = text := by
  induction text generalizing current outer with
  | nil =>
    obtain ⟨rfl, rfl⟩ : .done = current ∧ [] = outer := by simpa [read] using h
    rfl
  | cons c rest ih =>
    rcases hr : b.read rest with _ | ⟨inner, behind⟩
    · simp [read, hr] at h
    · by_cases ho : b.opens c = true
      · rcases behind with _ | ⟨next, behind⟩
        · simp [read, hr, ho] at h
        · obtain ⟨rfl, rfl⟩ : .loop ⟨c, ho⟩ inner next = current ∧ behind = outer := by
            simpa [read, hr, ho] using h
          simpa [Brackets.text] using ih hr
      · by_cases hc : c = b.closer
        · obtain ⟨rfl, rfl⟩ : .done = current ∧ inner :: behind = outer := by
            simpa [read, hr, ho, hc, b.opens_closer] using h
          simpa [Brackets.text, hc] using ih hr
        · obtain ⟨rfl, rfl⟩ : .command ⟨c, by simpa using ho, hc⟩ inner = current ∧
              behind = outer := by
            simpa [read, hr, ho, hc] using h
          simpa [Brackets.text] using ih hr

theorem read_text_append (tree : b.Tree) {tail : List Char} {outer : List b.Tree}
    (h : b.read tail = some (.done, outer)) :
    b.read (b.text tree ++ tail) = some (tree, outer) := by
  induction tree generalizing tail outer with
  | done => exact h
  | command c rest ih =>
    simp [text, read, ih h, c.property.1, c.property.2]
  | loop test body rest ihbody ihrest =>
    have hrest : b.read (b.closer :: (b.text rest ++ tail)) = some (.done, rest :: outer) := by
      simp [read, ihrest h, b.opens_closer]
    simp [text, read, ihbody hrest, test.property]

theorem read_text (tree : b.Tree) : b.read (b.text tree) = some (tree, []) := by
  simpa using b.read_text_append tree (show b.read [] = some (.done, []) from rfl)

theorem text_injective : Function.Injective b.text := by
  intro tree other h
  have hh := b.read_text tree
  rw [h, read_text] at hh
  simpa using hh.symm

theorem closes_iff_exists (text : List Char) :
    b.Closes 0 text ↔ ∃ tree, b.text tree = text := by
  rw [closes_iff_read, Option.map_eq_some_iff]
  constructor
  · rintro ⟨⟨tree, outer⟩, hr, hlen⟩
    obtain rfl := List.eq_nil_of_length_eq_zero hlen
    exact ⟨tree, by simpa using b.text_of_read hr⟩
  · rintro ⟨tree, rfl⟩
    exact ⟨_, b.read_text tree, rfl⟩

theorem balanced_text (tree : b.Tree) : b.Balanced (b.text tree) := by
  rw [balanced_iff_closes, closes_iff_exists]
  exact ⟨tree, rfl⟩

theorem exists_closes_of_append {opened : Nat} {front tail : List Char}
    (h : b.Closes opened (front ++ tail)) : ∃ n, b.Closes n tail := by
  induction front generalizing opened with
  | nil => exact ⟨opened, h⟩
  | cons c rest ih =>
    by_cases ho : b.opens c = true
    · exact ih (by simpa [Closes, ho] using h)
    · by_cases hc : c = b.closer
      · cases opened with
        | zero => simp [Closes, hc, b.opens_closer] at h
        | succ opened => exact ih (by simpa [Closes, hc, b.opens_closer] using h)
      · exact ih (by simpa [Closes, ho, hc] using h)

/-- A text that closes a bracket opened before it has the inside of that bracket in front. -/
theorem exists_inside {opened : Nat} {tail : List Char} (h : b.Closes (opened + 1) tail) :
    ∃ inside back, tail = inside ++ b.closer :: back ∧ b.Balanced inside := by
  rw [closes_iff_read, Option.map_eq_some_iff] at h
  obtain ⟨⟨current, outer⟩, hr, hlen⟩ := h
  obtain ⟨next, outer, rfl⟩ := List.exists_cons_of_length_eq_add_one hlen
  refine ⟨b.text current, b.text next ++ outer.flatMap fun tree => b.closer :: b.text tree, ?_, ?_⟩
  · simpa using (b.text_of_read hr).symm
  · exact b.balanced_text current

/-! How texts are put together. -/

/-- No prefix closes more brackets than it opens. -/
def Nested (text : List Char) : Prop := ∀ n, b.closers (text.take n) ≤ b.openers (text.take n)

theorem openers_append (text rest : List Char) :
    b.openers (text ++ rest) = b.openers text + b.openers rest :=
  List.countP_append

theorem closers_append (text rest : List Char) :
    b.closers (text ++ rest) = b.closers text + b.closers rest :=
  List.count_append

variable {b} {text rest inside : List Char} {c : Char}

theorem Balanced.nested (h : b.Balanced text) : b.Nested text := h.1

theorem Nested.append (ht : b.Nested text) (hr : b.Nested rest) : b.Nested (text ++ rest) := by
  intro n
  have hfront := ht n
  have hback := hr (n - text.length)
  rw [List.take_append, openers_append, closers_append]
  omega

theorem Nested.of_append (h : b.Nested (text ++ rest)) : b.Nested text := by
  intro n
  have hn := h (min n text.length)
  rwa [List.take_append_of_le_length (Nat.min_le_right _ _), ← List.take_eq_take_min] at hn

theorem nested_cons_of_opens (h : b.opens c = true) (hr : b.Nested rest) :
    b.Nested (c :: rest) := by
  intro n
  cases n with
  | zero => exact Nat.le_refl _
  | succ n =>
    have hc : c ≠ b.closer := fun he => by simp [he, b.opens_closer] at h
    have hn := hr n
    rw [List.take_succ_cons, openers_cons, closers_cons, if_pos h, if_neg hc]
    omega

theorem Balanced.append (ht : b.Balanced text) (hr : b.Balanced rest) :
    b.Balanced (text ++ rest) := by
  refine ⟨ht.nested.append hr.nested, ?_⟩
  rw [openers_append, closers_append, ht.2, hr.2]

theorem balanced_plain (h : b.opens c = false ∧ c ≠ b.closer) : b.Balanced [c] :=
  b.balanced_text (.command ⟨c, h⟩ .done)

theorem Balanced.enclosed (h : b.Balanced inside) (ho : b.opens c = true) :
    b.Balanced (c :: (inside ++ [b.closer])) := by
  rw [balanced_iff_closes, closes_iff_exists] at h
  obtain ⟨tree, rfl⟩ := h
  exact b.balanced_text (.loop ⟨c, ho⟩ tree .done)

end Brackets

end Esolang
