import Esolang.Proofs.Ledger.Blanks
import Esolang.Proofs.Text.Lines

/-! The written form of a program: commands in their shortest text, a comma between two of them and
a semicolon behind each transaction. Blanks may stand anywhere in it. Reading starts behind the
first semicolon, so it gives the program back from the second transaction on. -/

namespace Esolang.Ledger

def printTransaction (t : Transaction) : List Char :=
  [','].intercalate (t.map Command.text) ++ [';']

def print (transactions : List Transaction) : List Char := transactions.flatMap printTransaction

/-- The second text is the first one with blanks put in. -/
inductive Spaced : (text spaced : List Char) → Prop where
  | done : Spaced [] []
  | char (c : Char) {text spaced : List Char} (rest : Spaced text spaced) :
      Spaced (c :: text) (c :: spaced)
  | blank {b : Char} (h : isBlank b = true) {text spaced : List Char} (rest : Spaced text spaced) :
      Spaced text (b :: spaced)

theorem Spaced.dropBlanks_eq {text spaced : List Char} (h : Spaced text spaced) :
    dropBlanks spaced = dropBlanks text := by
  induction h with
  | done => rfl
  | char c rest ih =>
    by_cases hb : isBlank c = true
    · rw [dropBlanks_cons_of_blank hb, dropBlanks_cons_of_blank hb, ih]
    · have hb' : isBlank c = false := by simpa using hb
      rw [dropBlanks_cons hb', dropBlanks_cons hb', ih]
  | blank h rest ih => rw [dropBlanks_cons_of_blank h, ih]

theorem spaced_dropBlanks (text : List Char) : Spaced (dropBlanks text) text := by
  induction text using blanks_induction with
  | nil => exact .done
  | blank b rest hb ih =>
    rw [dropBlanks_cons_of_blank hb]
    exact .blank hb ih
  | char c rest hc ih =>
    rw [dropBlanks_cons hc]
    exact .char c ih

def phrases (transactions : List Transaction) : Written :=
  transactions.map fun t => t.map (Phrase.ofCommand [])

theorem programText_phrases (transactions : List Transaction) :
    programText Phrase.text (phrases transactions) = print transactions := by
  have hone : ∀ t : Transaction,
      transactionText Phrase.text (t.map (Phrase.ofCommand [])) = printTransaction t := by
    intro t
    rw [transactionText, List.map_map]
    rfl
  rw [programText, phrases, List.flatMap_map, print]
  exact List.flatMap_congr fun t _ => hone t

theorem transactionsOf_phrases (transactions : List Transaction) :
    transactionsOf (phrases transactions) = transactions := by
  have hone : ∀ t : Transaction, commandsOf (t.map (Phrase.ofCommand [])) = t := by
    intro t
    rw [commandsOf, List.map_map]
    exact List.map_id t
  rw [transactionsOf, phrases, List.map_map]
  conv_rhs => rw [← List.map_id transactions]
  exact List.map_congr_left fun t _ => hone t

theorem isBlank_of_mem_print {transactions : List Transaction} {c : Char}
    (h : c ∈ print transactions) : isBlank c = false := by
  obtain ⟨t, -, hc⟩ := List.mem_flatMap.mp h
  rcases List.mem_append.mp hc with hc | hc
  · rcases mem_intercalate hc with hc | ⟨text, htext, hc⟩
    · rw [List.mem_singleton.mp hc]
      decide
    · obtain ⟨command, -, rfl⟩ := List.mem_map.mp htext
      exact (mem_text_plain hc).1
  · rw [List.mem_singleton.mp hc]
    decide

theorem parse_print {transactions : List Transaction} (h : ∀ t ∈ transactions, t ≠ []) :
    parse (print transactions) = .ok (transactions.rotate 1) := by
  have hne : ∀ t ∈ phrases transactions, t ≠ [] := by
    intro t ht
    obtain ⟨u, hu, rfl⟩ := List.mem_map.mp ht
    simpa using h u hu
  rw [← programText_phrases, parse_plain hne, transactionsOf_phrases]

theorem not_detached_of_print {transactions : List Transaction} {source : List Char}
    (h : dropBlanks source = print transactions) : ¬ OperatorDetached source := by
  intro hdetached
  cases transactions with
  | nil =>
    obtain ⟨i, b, hi, -⟩ := hdetached.blank_before
    obtain ⟨operator, rest, hdrop⟩ := operatorAt?_eq_some hi
    have hmem : operator.symbol ∈ source := List.mem_of_mem_drop (hdrop ▸ List.mem_cons_self)
    have hprinted := (mem_dropBlanks_iff (isBlank_symbol operator)).mpr hmem
    rw [h] at hprinted
    exact List.not_mem_nil hprinted
  | cons t transactions =>
    have hprinted : ';' ∈ print (t :: transactions) := by simp [print, printTransaction]
    rw [← h] at hprinted
    exact hdetached.no_separator.1 (mem_dropBlanks hprinted)

/-- A printed program with any blanks in it is read back, from its second transaction on. -/
theorem printed_program_reads_back {transactions : List Transaction}
    (h : ∀ t ∈ transactions, t ≠ []) {source : List Char}
    (hs : Spaced (print transactions) source) :
    parse source = .ok (transactions.rotate 1) := by
  have hdropped : dropBlanks source = print transactions := by
    rw [hs.dropBlanks_eq, dropBlanks_eq_self fun c hc => isBlank_of_mem_print hc]
  rw [← parse_dropBlanks (not_detached_of_print hdropped), hdropped, parse_print h]

def lowest : List Transaction :=
  [[⟨.input, .expect, Int64.minValue⟩], [⟨.output, .add, 1⟩, ⟨.input, .sub, .ofInt (-2)⟩]]

def lowestSpaced : List Char := " I =-92233720368 54775808; O\n+1,I-- 2 ;".toList

theorem lowest_operand_reads_back :
    (∀ t ∈ lowest, t ≠ []) ∧ print lowest = "I=-9223372036854775808;O+1,I--2;".toList ∧
      Spaced (print lowest) lowestSpaced ∧
      parse lowestSpaced = .ok [[⟨.output, .add, 1⟩, ⟨.input, .sub, .ofInt (-2)⟩],
        [⟨.input, .expect, Int64.minValue⟩]] := by
  have h : ∀ t ∈ lowest, t ≠ [] := by simp [lowest]
  have hprint : print lowest = "I=-9223372036854775808;O+1,I--2;".toList := by decide +kernel
  have hs : Spaced (print lowest) lowestSpaced := by
    have hdropped : dropBlanks lowestSpaced = print lowest := by decide +kernel
    rw [← hdropped]
    exact spaced_dropBlanks lowestSpaced
  exact ⟨h, hprint, hs, printed_program_reads_back h hs⟩

end Esolang.Ledger
