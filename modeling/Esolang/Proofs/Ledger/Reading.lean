import Esolang.Ledger.Program
import Esolang.Proofs.Text.Brackets

/-! What code without comments reads as. Code that is put together at a semicolon reads as the
transactions of its parts, and code that is put together at a comma lists the commands of its parts. -/

namespace Esolang.Ledger

def dropBlanks (text : List Char) : List Char := text.filter fun c => !isBlank c

theorem dropBlanks_append (front behind : List Char) :
    dropBlanks (front ++ behind) = dropBlanks front ++ dropBlanks behind :=
  List.filter_append ..

theorem dropBlanks_cons {c : Char} (h : isBlank c = false) (text : List Char) :
    dropBlanks (c :: text) = c :: dropBlanks text :=
  List.filter_cons_of_pos (by simp [h])

theorem mem_dropBlanks {c : Char} {text : List Char} (h : c ∈ dropBlanks text) : c ∈ text :=
  (List.mem_filter.mp h).1

theorem dropBlanks_eq_self {text : List Char} (h : ∀ c ∈ text, isBlank c = false) :
    dropBlanks text = text :=
  List.filter_eq_self.mpr fun c hc => by simp [h c hc]

theorem parse_of_align {source aligned : List Char} (h : align source = .ok aligned) :
    parse source = parseCode (dropBlanks (stripComments aligned)) := by
  rw [parse, h]
  rfl

theorem pieces_nil (separator : Char) : pieces separator [] = [] := rfl

theorem pieces_append_cons (separator : Char) (front behind : List Char) :
    pieces separator (front ++ separator :: behind) =
      pieces separator front ++ pieces separator behind := by
  have hsplit := List.splitOnP_append_cons (p := (· == separator)) front behind
    (beq_self_eq_true separator)
  simp only [pieces, List.splitOn, hsplit, List.filter_append]

theorem pieces_of_not_mem {separator : Char} {text : List Char} (h : separator ∉ text)
    (hne : text ≠ []) : pieces separator text = [text] := by
  simp [pieces, List.splitOn_eq_singleton h, hne]

theorem mapM_append_of_ok {ε α β : Type} {f : α → Except ε β} {xs ys : List α} {us vs : List β}
    (hx : xs.mapM f = .ok us) (hy : ys.mapM f = .ok vs) : (xs ++ ys).mapM f = .ok (us ++ vs) := by
  rw [List.mapM_append, hx, hy]
  rfl

/-- The text of some commands, which is all or a part of a transaction. -/
structure Lists (text : List Char) (commands : List Command) : Prop where
  no_semicolon : ';' ∉ text
  reads : ∀ transaction, (pieces ',' (dropBlanks text)).mapM (parseCommand transaction) = .ok commands

theorem Lists.nil : Lists [] [] := ⟨by simp, fun _ => rfl⟩

theorem Lists.append_comma {front behind : List Char} {commands others : List Command}
    (hf : Lists front commands) (hb : Lists behind others) :
    Lists (front ++ ',' :: behind) (commands ++ others) := by
  refine ⟨?_, fun transaction => ?_⟩
  · simp [hf.no_semicolon, hb.no_semicolon]
  · rw [dropBlanks_append, dropBlanks_cons rfl, pieces_append_cons]
    exact mapM_append_of_ok (hf.reads transaction) (hb.reads transaction)

def ReadsAs (code : List Char) (transactions : List Transaction) : Prop :=
  parseCode (dropBlanks code) = .ok transactions

theorem ReadsAs.nil : ReadsAs [] [] := rfl

theorem ReadsAs.append_semicolon {front behind : List Char} {transactions others : List Transaction}
    (hf : ReadsAs front transactions) (hb : ReadsAs behind others) :
    ReadsAs (front ++ ';' :: behind) (transactions ++ others) := by
  rw [ReadsAs, parseCode, dropBlanks_append, dropBlanks_cons rfl, pieces_append_cons]
  exact mapM_append_of_ok hf hb

theorem Lists.readsAs {text : List Char} {commands : List Command} (h : Lists text commands)
    (hne : commands ≠ []) : ReadsAs text [commands] := by
  have htext : dropBlanks text ≠ [] := by
    intro he
    have hr := h.reads []
    rw [he, pieces_nil] at hr
    exact hne (Except.ok.inj hr).symm
  have hno : ';' ∉ dropBlanks text := fun hc => h.no_semicolon (mem_dropBlanks hc)
  have hone : parseTransaction (dropBlanks text) = .ok commands := h.reads (dropBlanks text)
  rw [ReadsAs, parseCode, pieces_of_not_mem hno htext, List.mapM_cons, hone]
  rfl

/-- The text of one command. It has no separators and no parentheses, but it may have blanks. -/
structure Spells (text : List Char) (c : Command) : Prop where
  plain : ∀ d ∈ text, d ≠ '(' ∧ d ≠ ')' ∧ d ≠ ',' ∧ d ≠ ';'
  reads : ∀ transaction, parseCommand transaction (dropBlanks text) = .ok c

theorem Spells.lists {text : List Char} {c : Command} (h : Spells text c) : Lists text [c] := by
  refine ⟨fun hm => (h.plain _ hm).2.2.2 rfl, fun transaction => ?_⟩
  have hne : dropBlanks text ≠ [] := by
    intro he
    have hr := h.reads transaction
    rw [he] at hr
    cases hr
  have hno : ',' ∉ dropBlanks text := fun hc => (h.plain _ (mem_dropBlanks hc)).2.2.1 rfl
  rw [pieces_of_not_mem hno hne, List.mapM_cons, h.reads]
  rfl

def Operator.symbol : Operator → Char
  | .add => '+'
  | .sub => '-'
  | .expect => '='

theorem Operator.ofChar?_symbol (o : Operator) : Operator.ofChar? o.symbol = some o := by
  cases o <;> rfl

theorem Register.ofName?_name : ∀ r : Register, Register.ofName? r.name = some r := by
  decide +kernel

/-- The shortest text of a command. -/
def Command.text (c : Command) : List Char :=
  c.register.name :: c.operator.symbol :: Decimal.ofInt c.operand.toInt

theorem parseCommand_text (transaction : List Char) (c : Command) :
    parseCommand transaction c.text = .ok c := by
  have hread := Decimal.int64?_ofInt c.operand
  cases hd : Decimal.ofInt c.operand.toInt with
  | nil =>
    rw [hd] at hread
    cases hread
  | cons digit digits =>
    rw [hd] at hread
    simp [parseCommand, Command.text, hd, Register.ofName?_name, Operator.ofChar?_symbol, hread]

theorem isBlank_of_isDigit {c : Char} (h : c.isDigit = true) : isBlank c = false := by
  simp only [Char.isDigit, ge_iff_le, Bool.and_eq_true, decide_eq_true_eq,
    UInt32.le_iff_toNat_le] at h
  have hlow : 48 ≤ c.toNat := h.1
  have hhigh : c.toNat ≤ 57 := h.2
  simp only [isBlank, blankRanges, List.any_cons, List.any_nil, Bool.or_eq_false_iff,
    Bool.and_eq_false_iff, decide_eq_false_iff_not, and_true]
  omega

theorem Register.name_plain : ∀ r : Register,
    isBlank r.name = false ∧ r.name ≠ '(' ∧ r.name ≠ ')' ∧ r.name ≠ ',' ∧ r.name ≠ ';' := by
  decide +kernel

theorem mem_text_plain {c : Command} {d : Char} (h : d ∈ c.text) :
    isBlank d = false ∧ d ≠ '(' ∧ d ≠ ')' ∧ d ≠ ',' ∧ d ≠ ';' := by
  rcases List.mem_cons.mp h with rfl | h
  · exact c.register.name_plain
  · rcases List.mem_cons.mp h with rfl | h
    · cases c.operator <;> decide
    · rcases Decimal.mem_ofInt h with rfl | hd
      · decide
      · refine ⟨isBlank_of_isDigit hd, ?_, ?_, ?_, ?_⟩ <;>
          · rintro rfl
            exact absurd hd (by decide)

theorem spells_text (c : Command) : Spells c.text c := by
  refine ⟨fun d hd => (mem_text_plain hd).2, fun transaction => ?_⟩
  rw [dropBlanks_eq_self fun d hd => (mem_text_plain hd).1]
  exact parseCommand_text transaction c

end Esolang.Ledger
