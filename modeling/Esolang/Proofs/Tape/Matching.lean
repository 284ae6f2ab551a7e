import Mathlib.Data.List.Nodup
import Esolang.Proofs.Tape.Pairing

/-! The jump table pairs the brackets that match. The pass keeps the brackets without a partner apart
from those that have one, a pair once found stays in the table, and what lies between two partners
is balanced. -/

namespace Esolang.Tape

/-- An opening bracket and the closing bracket behind a balanced inside. -/
def Matches (code : List Char) (i j : Nat) : Prop :=
  i < j ∧ code[i]? = some '[' ∧ code[j]? = some ']' ∧
    brackets.Balanced ((code.take j).drop (i + 1))

namespace Pairing

variable {p q : Pairing} {c : Char}

theorem read_eq_ok (h : p.read c = .ok q) :
    (c = '[' ∧ q = { table := p.table.push none, opened := p.table.size :: p.opened }) ∨
    (∃ partner opened, c = ']' ∧ p.opened = partner :: opened ∧
      q = { table := (p.table.push (some partner)).setIfInBounds partner (some p.table.size)
            opened }) ∨
    (c ≠ '[' ∧ c ≠ ']' ∧ q = { p with table := p.table.push none }) := by
  by_cases ho : c = '['
  · subst ho
    exact .inl ⟨rfl, (Except.ok.inj h).symm⟩
  · by_cases hc : c = ']'
    · subst hc
      obtain ⟨table, opened⟩ := p
      cases opened with
      | nil => cases h
      | cons partner opened => exact .inr (.inl ⟨partner, opened, rfl, rfl, (Except.ok.inj h).symm⟩)
    · have hplain : p.read c = .ok { p with table := p.table.push none } :=
        p.read_plain ⟨c, by simpa [brackets] using ho, hc⟩
      rw [hplain] at h
      exact .inr (.inr ⟨ho, hc, (Except.ok.inj h).symm⟩)

theorem getElem?_pair {table : Array (Option Nat)} {partner : Nat} (h : partner < table.size)
    (i : Nat) :
    ((table.push (some partner)).setIfInBounds partner (some table.size))[i]? =
      if i = partner then some (some table.size)
      else if i = table.size then some (some partner) else table[i]? := by
  rw [Array.getElem?_setIfInBounds, Array.size_push, Array.getElem?_push]
  grind

/-- What the pass knows of the text that it has read: open brackets have no partner yet, all other
brackets have one, and partners have each other. -/
structure Reads (text : List Char) (p : Pairing) : Prop where
  size : p.table.size = text.length
  distinct : p.opened.Nodup
  opening : ∀ i ∈ p.opened, text[i]? = some '['
  unpaired : ∀ i c, text[i]? = some c →
    (p.table[i]? = some none ↔ i ∈ p.opened ∨ (c ≠ '[' ∧ c ≠ ']'))
  paired : ∀ i j : Nat, p.table[i]? = some (some j) → p.table[j]? = some (some i)

theorem reads_nil : Reads [] {} := by
  constructor <;> simp

namespace Reads

variable {text : List Char}

theorem unpaired_of_opened (hp : p.Reads text) {i : Nat} (h : i ∈ p.opened) :
    p.table[i]? = some none :=
  (hp.unpaired i _ (hp.opening i h)).mpr (.inl h)

theorem getElem?_concat (hp : p.Reads text) (c : Char) (i : Nat) :
    (text ++ [c])[i]? = if i = p.table.size then some c else text[i]? := by
  rw [hp.size, List.getElem?_append]
  grind

theorem lt_of_opened (hp : p.Reads text) {i : Nat} (h : i ∈ p.opened) : i < p.table.size :=
  (Array.getElem?_eq_some_iff.mp (hp.unpaired_of_opened h)).1

theorem size_not_mem (hp : p.Reads text) : p.table.size ∉ p.opened :=
  fun h => Nat.lt_irrefl _ (hp.lt_of_opened h)

theorem push_none (hp : p.Reads text) {opened : List Nat} (hdistinct : opened.Nodup)
    (hopened : ∀ i, i ∈ opened ↔ i ∈ p.opened ∨ i = p.table.size ∧ c = '[') (hc : c ≠ ']') :
    Reads (text ++ [c]) { table := p.table.push none, opened } := by
  have ⟨hsize, _, hopening, hunpaired, hpaired⟩ := hp
  refine ⟨by simp [hsize], hdistinct, ?_, ?_, ?_⟩
  · intro i hi
    rw [hp.getElem?_concat]
    grind
  · intro i d hd
    rw [hp.getElem?_concat] at hd
    rw [Array.getElem?_push]
    grind
  · intro i j hij
    rw [Array.getElem?_push] at hij ⊢
    grind

theorem pair (hp : p.Reads text) {partner : Nat} {opened : List Nat}
    (ho : p.opened = partner :: opened) :
    Reads (text ++ [']'])
      { table := (p.table.push (some partner)).setIfInBounds partner (some p.table.size)
        opened } := by
  have ⟨hsize, hdistinct, hopening, hunpaired, hpaired⟩ := hp
  have hmem : partner ∈ p.opened := by simp [ho]
  have hpartner := hp.lt_of_opened hmem
  have hnone := hp.unpaired_of_opened hmem
  have hfresh := hp.size_not_mem
  refine ⟨by simp [hsize], (List.nodup_cons.mp (ho ▸ hdistinct)).2, ?_, ?_, ?_⟩
  · intro i hi
    rw [hp.getElem?_concat]
    grind
  · intro i d hd
    rw [hp.getElem?_concat] at hd
    rw [getElem?_pair hpartner]
    grind
  · intro i j hij
    rw [getElem?_pair hpartner] at hij ⊢
    grind

theorem read (hp : p.Reads text) (h : p.read c = .ok q) : q.Reads (text ++ [c]) := by
  rcases read_eq_ok h with ⟨rfl, rfl⟩ | ⟨partner, opened, rfl, ho, rfl⟩ | ⟨hopen, hclose, rfl⟩
  · have hdistinct := List.nodup_cons.mpr ⟨hp.size_not_mem, hp.distinct⟩
    exact hp.push_none hdistinct (by simp [or_comm]) (by decide)
  · exact hp.pair ho
  · exact hp.push_none hp.distinct (by simp [hopen]) hclose

theorem read_keeps (hp : p.Reads text) (h : p.read c = .ok q) {i j : Nat}
    (hij : p.table[i]? = some (some j)) : q.table[i]? = some (some j) := by
  have hlt := (Array.getElem?_eq_some_iff.mp hij).1
  rcases read_eq_ok h with ⟨rfl, rfl⟩ | ⟨partner, opened, rfl, ho, rfl⟩ | ⟨hopen, hclose, rfl⟩
  · rw [Array.getElem?_push, if_neg (by omega), hij]
  · have hmem : partner ∈ p.opened := by simp [ho]
    have hne : i ≠ partner := by
      rintro rfl
      simp [hp.unpaired_of_opened hmem] at hij
    rw [getElem?_pair (hp.lt_of_opened hmem), if_neg hne, if_neg (by omega), hij]
  · rw [Array.getElem?_push, if_neg (by omega), hij]

theorem foldlM {front : List Char} (hp : p.Reads front)
    (h : text.foldlM Pairing.read p = .ok q) :
    q.Reads (front ++ text) ∧
      ∀ i j : Nat, p.table[i]? = some (some j) → q.table[i]? = some (some j) := by
  induction text generalizing p front with
  | nil =>
    obtain rfl : p = q := Except.ok.inj h
    exact ⟨by simpa using hp, fun i j hij => hij⟩
  | cons c rest ih =>
    rw [List.foldlM_cons] at h
    cases hc : p.read c with
    | error e => simp [hc] at h
    | ok next =>
      rw [hc, ok_bind] at h
      obtain ⟨hq, hkeeps⟩ := ih (hp.read hc) h
      rw [List.append_assoc, List.singleton_append] at hq
      exact ⟨hq, fun i j hij => hkeeps i j (hp.read_keeps hc hij)⟩

end Reads

/-- The pass over a text succeeds exactly if the text closes the brackets that are open before it. -/
theorem succeeds_iff_closes (text : List Char) (p : Pairing) :
    (∃ table, text.foldlM read p >>= finish = .ok table) ↔
      brackets.Closes p.opened.length text := by
  induction text generalizing p with
  | nil =>
    obtain ⟨table, opened⟩ := p
    cases opened with
    | nil => simp [Brackets.Closes, finish]
    | cons i opened => simp [Brackets.Closes, finish]
  | cons c rest ih =>
    rw [List.foldlM_cons]
    by_cases ho : brackets.opens c = true
    · rw [show p.read c = _ from p.read_opener ⟨c, ho⟩, ok_bind, ih]
      simp [Brackets.Closes, ho]
    · by_cases hc : c = ']'
      · subst hc
        obtain ⟨table, opened⟩ := p
        cases opened with
        | nil => simp [read, Brackets.Closes, brackets]
        | cons partner opened =>
          simp only [read, ok_bind, ih]
          simp [Brackets.Closes, brackets]
      · have hplain : brackets.opens c = false ∧ c ≠ brackets.closer := ⟨by simpa using ho, hc⟩
        rw [show p.read c = _ from p.read_plain ⟨c, hplain⟩, ok_bind, ih]
        simp [Brackets.Closes, hplain]

end Pairing

theorem jumpTable_ok_iff (code : List Char) :
    (∃ table, jumpTable code = .ok table) ↔ brackets.Balanced code := by
  rw [Brackets.balanced_iff_closes]
  exact Pairing.succeeds_iff_closes code {}

theorem foldlM_of_jumpTable {code : List Char} {table : Array (Option Nat)}
    (h : jumpTable code = .ok table) : code.foldlM Pairing.read {} = .ok { table } := by
  cases hf : code.foldlM Pairing.read {} with
  | error e => simp [jumpTable, hf] at h
  | ok last =>
    obtain ⟨found, opened⟩ := last
    cases opened with
    | nil =>
      obtain rfl : found = table := by simpa [jumpTable, hf, Pairing.finish] using h
      rfl
    | cons i opened => simp [jumpTable, hf, Pairing.finish] at h

theorem reads_of_jumpTable {code : List Char} {table : Array (Option Nat)}
    (h : jumpTable code = .ok table) : Pairing.Reads code { table } := by
  simpa using (Pairing.reads_nil.foldlM (foldlM_of_jumpTable h)).1

theorem matches_iff {code : List Char} {i j : Nat} :
    Matches code i j ↔ ∃ front inside back, code = front ++ '[' :: (inside ++ ']' :: back) ∧
      brackets.Balanced inside ∧ front.length = i ∧ j = i + inside.length + 1 := by
  constructor
  · rintro ⟨hlt, hi, hj, hb⟩
    rw [List.drop_take] at hb
    obtain ⟨hil, hi⟩ := List.getElem?_eq_some_iff.mp hi
    obtain ⟨hjl, hj⟩ := List.getElem?_eq_some_iff.mp hj
    refine ⟨code.take i, (code.drop (i + 1)).take (j - (i + 1)), code.drop (j + 1), ?_, hb, ?_, ?_⟩
    · have hback : code.drop j = ']' :: code.drop (j + 1) := by
        rw [List.drop_eq_getElem_cons hjl, hj]
      have hrest : (code.drop (i + 1)).drop (j - (i + 1)) = code.drop j := by
        rw [List.drop_drop, Nat.add_sub_cancel' hlt]
      rw [← hback, ← hrest, List.take_append_drop, ← hi, ← List.drop_eq_getElem_cons hil,
        List.take_append_drop]
    · exact List.length_take_of_le (Nat.le_of_lt hil)
    · rw [List.length_take_of_le (by rw [List.length_drop]; omega)]
      omega
  · rintro ⟨front, inside, back, rfl, hb, rfl, rfl⟩
    refine ⟨by omega, by simp, ?_, ?_⟩
    · rw [List.getElem?_append_right (by omega)]
      simp [Nat.add_assoc]
    · have hdrop : (front ++ '[' :: (inside ++ ']' :: back)).drop (front.length + 1) =
          inside ++ ']' :: back := by
        rw [List.append_cons]
        exact List.drop_left' (by simp)
      have hlength : front.length + inside.length + 1 - (front.length + 1) = inside.length := by
        omega
      rw [List.drop_take, hdrop, hlength, List.take_left']
      · exact hb
      · rfl

/-- Behind every opening bracket of a balanced text comes the bracket that matches it. -/
theorem exists_matches {code : List Char} (h : brackets.Balanced code) {i : Nat}
    (hi : code[i]? = some '[') : ∃ j, Matches code i j := by
  obtain ⟨hlt, hi⟩ := List.getElem?_eq_some_iff.mp hi
  have hsplit : code = code.take i ++ '[' :: code.drop (i + 1) := by
    rw [← hi, ← List.drop_eq_getElem_cons hlt, List.take_append_drop]
  rw [Brackets.balanced_iff_closes, hsplit] at h
  obtain ⟨n, hn⟩ := brackets.exists_closes_of_append h
  have hcloses : brackets.Closes (n + 1) (code.drop (i + 1)) := by
    simpa [Brackets.Closes, brackets] using hn
  obtain ⟨inside, back, htail, hb⟩ := brackets.exists_inside hcloses
  rw [htail] at hsplit
  exact ⟨_, matches_iff.mpr ⟨_, inside, back, hsplit, hb, List.length_take_of_le (Nat.le_of_lt hlt), rfl⟩⟩

theorem getElem?_of_matches {code : List Char} {table : Array (Option Nat)}
    (h : jumpTable code = .ok table) {i j : Nat} (hm : Matches code i j) :
    table[i]? = some (some j) := by
  obtain ⟨front, inside, back, rfl, hb, rfl, rfl⟩ := matches_iff.mp hm
  rw [Brackets.balanced_iff_closes, Brackets.closes_iff_exists] at hb
  obtain ⟨tree, rfl⟩ := hb
  have hcode : front ++ '[' :: (brackets.text tree ++ ']' :: back) =
      front ++ brackets.text (.loop ⟨'[', rfl⟩ tree .done) ++ back := by
    simp [Brackets.text, brackets]
  have hpass := foldlM_of_jumpTable h
  rw [hcode, List.append_assoc, List.foldlM_append] at hpass
  cases hp : front.foldlM Pairing.read {} with
  | error e => simp [hp] at hpass
  | ok p =>
    have hreads : p.Reads front := by simpa using (Pairing.reads_nil.foldlM hp).1
    have hloop := Pairing.foldlM_read_text (.loop ⟨'[', rfl⟩ tree .done) p
    rw [hp, ok_bind, List.foldlM_append, hloop, ok_bind] at hpass
    refine ((hreads.foldlM hloop).1.foldlM hpass).2 _ _ ?_
    simp [← hreads.size, partners, Brackets.length_text]

end Esolang.Tape
