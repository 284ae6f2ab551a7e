import Esolang.Proofs.Ledger.Comments

/-! Where the file of a program starts. A source without comments is turned to the end of a
transaction, so wherever the circle is cut, the same pieces stand between its semicolons, and they
come in the same order on the circle. -/

namespace Esolang.Ledger

theorem mapM_append_eq_ok {ε α β : Type} {f : α → Except ε β} {xs ys : List α} {us : List β}
    (h : (xs ++ ys).mapM f = .ok us) :
    ∃ front back, xs.mapM f = .ok front ∧ ys.mapM f = .ok back ∧ us = front ++ back := by
  rw [List.mapM_append] at h
  cases hx : xs.mapM f with
  | error e =>
    rw [hx] at h
    cases h
  | ok front =>
    cases hy : ys.mapM f with
    | error e =>
      rw [hx, hy] at h
      cases h
    | ok back =>
      rw [hx, hy] at h
      exact ⟨front, back, rfl, rfl, (Except.ok.inj h).symm⟩

theorem exists_append_of_isRotated {α : Type} {xs ys : List α} (h : xs ~r ys) :
    ∃ front back, xs = front ++ back ∧ ys = back ++ front := by
  obtain ⟨n, hn, rfl⟩ := List.isRotated_iff_mod.mp h
  exact ⟨xs.take n, xs.drop n, (List.take_append_drop n xs).symm,
    List.rotate_eq_drop_append_take hn⟩

theorem mapM_of_isRotated {ε α β : Type} {f : α → Except ε β} {xs ys : List α} {us : List β}
    (h : xs ~r ys) (hx : xs.mapM f = .ok us) : ∃ vs, ys.mapM f = .ok vs ∧ us ~r vs := by
  obtain ⟨front, back, rfl, rfl⟩ := exists_append_of_isRotated h
  obtain ⟨first, second, hfirst, hsecond, rfl⟩ := mapM_append_eq_ok hx
  exact ⟨second ++ first, mapM_append_of_ok hsecond hfirst, List.isRotated_append⟩

theorem dropBlanks_isRotated {text other : List Char} (h : text ~r other) :
    dropBlanks text ~r dropBlanks other := by
  obtain ⟨front, back, rfl, rfl⟩ := exists_append_of_isRotated h
  rw [dropBlanks_append, dropBlanks_append]
  exact List.isRotated_append

theorem pieces_concat (separator : Char) (text : List Char) :
    pieces separator (text ++ [separator]) = pieces separator text := by
  rw [pieces_append_cons, pieces_nil, List.append_nil]

/-- Behind its separators a circle can be cut without cutting a piece. -/
theorem pieces_isRotated {separator : Char} {text other : List Char} (h : text ~r other)
    (ht : text.getLast? = some separator) (ho : other.getLast? = some separator) :
    pieces separator text ~r pieces separator other := by
  obtain ⟨front, back, rfl, rfl⟩ := exists_append_of_isRotated h
  by_cases hf : front = []
  · rw [hf, List.nil_append, List.append_nil]
  · by_cases hb : back = []
    · rw [hb, List.nil_append, List.append_nil]
    · rw [List.getLast?_append_of_ne_nil _ hb] at ht
      rw [List.getLast?_append_of_ne_nil _ hf] at ho
      obtain ⟨last, rfl⟩ := List.getLast?_eq_some_iff.mp ht
      obtain ⟨first, rfl⟩ := List.getLast?_eq_some_iff.mp ho
      have hcut : ∀ a b : List Char, pieces separator (a ++ [separator] ++ (b ++ [separator])) =
          pieces separator a ++ pieces separator b := by
        intro a b
        rw [List.append_assoc, List.singleton_append, pieces_append_cons, pieces_concat]
      rw [hcut, hcut]
      exact List.isRotated_append

theorem parse_eq_of_semicolon {source : List Char} (ho : '(' ∉ source) (hc : ')' ∉ source)
    (h : ';' ∈ source) :
    ∃ code, parse source = parseCode (dropBlanks (code ++ [';'])) ∧ source ~r code ++ [';'] := by
  obtain ⟨front, behind, rfl, hfront⟩ := List.eq_append_cons_of_mem h
  simp only [List.mem_append, List.mem_cons, not_or] at ho hc
  have hf := Shows.of_not_mem ho.1 hc.1
  have hb := Shows.of_not_mem ho.2.2 hc.2.2
  refine ⟨behind ++ front, parse_of_first_semicolon hf hb hfront, ?_⟩
  have hr : front ++ [';'] ++ behind ~r behind ++ (front ++ [';']) := List.isRotated_append
  simpa using hr

theorem parse_of_isRotated {source other : List Char} (hr : source ~r other) (ho : '(' ∉ source)
    (hc : ')' ∉ source) (h : ';' ∈ source) {transactions : List Transaction}
    (hread : parse source = .ok transactions) :
    ∃ others, parse other = .ok others ∧ transactions ~r others := by
  obtain ⟨code, hcode, hturned⟩ := parse_eq_of_semicolon ho hc h
  obtain ⟨code', hcode', hturned'⟩ := parse_eq_of_semicolon
    (hr.mem_iff.not.mp ho) (hr.mem_iff.not.mp hc) (hr.mem_iff.mp h)
  have hsame : code ++ [';'] ~r code' ++ [';'] := (hturned.symm.trans hr).trans hturned'
  have hlast : ∀ text, (dropBlanks (text ++ [';'])).getLast? = some ';' := by
    intro text
    rw [dropBlanks_append, dropBlanks_cons (by decide)]
    simp [dropBlanks]
  have hpieces := pieces_isRotated (dropBlanks_isRotated hsame) (hlast code) (hlast code')
  rw [hcode] at hread
  rw [hcode']
  exact mapM_of_isRotated hpieces hread

/-- Wherever the file of a program without comments starts on its circle, it can be read or it
cannot, and its transactions come in the same order on the circle. -/
theorem start_of_file_keeps_transactions {source other : List Char} (hr : source ~r other)
    (ho : '(' ∉ source) (hc : ')' ∉ source) (h : ';' ∈ source) :
    ((∃ transactions, parse source = .ok transactions) ↔
      ∃ transactions, parse other = .ok transactions) ∧
    ∀ transactions others, parse source = .ok transactions → parse other = .ok others →
      transactions ~r others := by
  refine ⟨⟨?_, ?_⟩, fun transactions others hread hother => ?_⟩
  · rintro ⟨transactions, hread⟩
    obtain ⟨others, hother, -⟩ := parse_of_isRotated hr ho hc h hread
    exact ⟨others, hother⟩
  · rintro ⟨others, hother⟩
    obtain ⟨transactions, hread, -⟩ := parse_of_isRotated hr.symm (hr.mem_iff.not.mp ho)
      (hr.mem_iff.not.mp hc) (hr.mem_iff.mp h) hother
    exact ⟨transactions, hread⟩
  · obtain ⟨found, hfound, hturned⟩ := parse_of_isRotated hr ho hc h hread
    rw [hother] at hfound
    exact Except.ok.inj hfound ▸ hturned

def whole : List Char := "A+1;B-12;".toList

theorem number_cut_by_the_file_is_read :
    whole.rotate 7 = "2;A+1;B-1".toList ∧ whole ~r whole.rotate 7 ∧
      '(' ∉ whole ∧ ')' ∉ whole ∧ ';' ∈ whole ∧
      parse whole = .ok [[⟨1, .sub, 12⟩], [⟨0, .add, 1⟩]] ∧
      ∃ transactions, parse (whole.rotate 7) = .ok transactions ∧
        [[⟨1, .sub, 12⟩], [⟨0, .add, 1⟩]] ~r transactions := by
  have hr : whole ~r whole.rotate 7 := ⟨7, rfl⟩
  have ho : '(' ∉ whole := by decide
  have hc : ')' ∉ whole := by decide
  have h : ';' ∈ whole := by decide
  have hread : parse whole = .ok [[⟨1, .sub, 12⟩], [⟨0, .add, 1⟩]] := by decide +kernel
  obtain ⟨hiff, hturned⟩ := start_of_file_keeps_transactions hr ho hc h
  obtain ⟨transactions, hother⟩ := hiff.mp ⟨_, hread⟩
  exact ⟨by decide, hr, ho, hc, h, hread, transactions, hother, hturned _ _ hread hother⟩

end Esolang.Ledger
