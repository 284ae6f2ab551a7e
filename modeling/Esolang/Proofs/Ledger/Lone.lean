import Esolang.Proofs.Ledger.Blanks
import Esolang.Proofs.Ledger.Rotation
import Esolang.Proofs.Text.Numeral

/-! A command alone on its circle. Without separators the circle is read from the character in front
of an operator, and a plus sign is looked for before a minus sign, and both before an equality sign.
So the minus sign of the operand is taken for the operator of an expectation, and if the circle is cut
right before it, also for that of a subtraction. In all other cases the command is read. -/

namespace Esolang.Ledger

theorem Register.name_ne_symbol (r : Register) (o : Operator) : r.name ≠ o.symbol := by
  revert r
  cases o <;> decide +kernel

/-- A circle with one mark is the same text wherever it is turned to the mark. -/
theorem eq_of_isRotated_cons {α : Type} {mark : α} {front back : List α}
    (h : mark :: front ~r mark :: back) (hm : mark ∉ back) : front = back := by
  obtain ⟨xs, ys, hx, hy⟩ := exists_append_of_isRotated h
  cases xs with
  | nil =>
    rw [List.nil_append] at hx
    rw [List.append_nil, ← hx] at hy
    exact (List.cons.inj hy).2.symm
  | cons x xs =>
    cases ys with
    | nil =>
      rw [List.append_nil] at hx
      rw [List.nil_append, ← hx] at hy
      exact (List.cons.inj hy).2.symm
    | cons y ys =>
      obtain ⟨rfl, -⟩ := List.cons.inj hx
      obtain ⟨-, rfl⟩ := List.cons.inj hy
      exact absurd (List.mem_append_right ys List.mem_cons_self) hm

/-- The operators whose signs are looked for first. -/
def Operator.earlier : Operator → List Operator
  | .add => []
  | .sub => [.add]
  | .expect => [.add, .sub]

theorem operatorAt?_eq_idxOf? {text : List Char} {o : Operator} (ho : o.symbol ∈ text)
    (h : ∀ p ∈ o.earlier, p.symbol ∉ text) : operatorAt? text = text.idxOf? o.symbol := by
  have hmissing : ∀ p ∈ o.earlier, text.idxOf? p.symbol = none := fun p hp =>
    List.idxOf?_eq_none_iff.mpr (h p hp)
  obtain ⟨i, hi⟩ := Option.isSome_iff_exists.mp (List.isSome_idxOf?.mpr ho)
  rw [operatorAt?, hi]
  cases o with
  | add => rw [show text.idxOf? '+' = some i from hi, Option.some_or]
  | sub =>
    have hadd : text.idxOf? '+' = none := hmissing .add (by simp [Operator.earlier])
    rw [hadd, show text.idxOf? '-' = some i from hi, Option.none_or, Option.some_or]
  | expect =>
    have hadd : text.idxOf? '+' = none := hmissing .add (by simp [Operator.earlier])
    have hsub : text.idxOf? '-' = none := hmissing .sub (by simp [Operator.earlier])
    rw [hadd, hsub, show text.idxOf? '=' = some i from hi, Option.none_or, Option.none_or]

theorem symbol_mem_ofInt_iff {o : Operator} {z : Int} :
    o.symbol ∈ Decimal.ofInt z ↔ o = .sub ∧ z < 0 := by
  rw [← Decimal.minus_mem_ofInt_iff]
  constructor
  · intro hm
    rcases Decimal.mem_ofInt hm with hminus | hdigit
    · have ho : o = .sub := by cases o <;> simp_all [Operator.symbol]
      exact ⟨ho, hminus ▸ hm⟩
    · cases o <;> exact absurd hdigit (by decide)
  · rintro ⟨rfl, hm⟩
    exact hm

namespace Command

variable {command : Command} {n i k : Nat}

theorem symbol_mem_text_iff {o : Operator} : o.symbol ∈ command.text ↔
    o = command.operator ∨ o = .sub ∧ command.operand.toInt < 0 := by
  have hname : o.symbol ≠ command.register.name := (command.register.name_ne_symbol o).symm
  have hoperator : o.symbol = command.operator.symbol ↔ o = command.operator := by
    cases o <;> cases command.operator <;> decide
  rw [Command.text, List.mem_cons, List.mem_cons, hoperator, symbol_mem_ofInt_iff]
  simp [hname]

/-- The operator at whose sign the command is looked for. -/
def sought (command : Command) : Operator :=
  if command.operator ≠ .add ∧ command.operand.toInt < 0 then .sub else command.operator

theorem operatorAt?_rotate (command : Command) (n : Nat) :
    operatorAt? (command.text.rotate n) = (command.text.rotate n).idxOf? command.sought.symbol := by
  apply operatorAt?_eq_idxOf?
  · rw [List.mem_rotate, symbol_mem_text_iff, sought]
    split
    · rename_i h
      exact .inr ⟨rfl, h.2⟩
    · exact .inl rfl
  · intro p hp
    rw [List.mem_rotate, symbol_mem_text_iff]
    rw [sought] at hp
    split at hp
    · rename_i h
      obtain rfl : p = .add := by simpa [Operator.earlier] using hp
      simp [h.1.symm]
    · rename_i h
      cases ho : command.operator with
      | add => simp [ho, Operator.earlier] at hp
      | sub =>
        obtain rfl : p = .add := by simpa [ho, Operator.earlier] using hp
        simp
      | expect =>
        have hneg : ¬ command.operand.toInt < 0 := fun hneg => h ⟨by simp [ho], hneg⟩
        have hearlier : p = .add ∨ p = .sub := by simpa [ho, Operator.earlier] using hp
        rcases hearlier with rfl | rfl
        · simp
        · simp [hneg]

theorem separators_not_mem_rotate (command : Command) (n : Nat) :
    '(' ∉ command.text.rotate n ∧ ')' ∉ command.text.rotate n ∧ ',' ∉ command.text.rotate n ∧
      ';' ∉ command.text.rotate n := by
  simp only [List.mem_rotate]
  refine ⟨fun hm => ?_, fun hm => ?_, fun hm => ?_, fun hm => ?_⟩
  · exact (mem_text_plain hm).2.1 rfl
  · exact (mem_text_plain hm).2.2.1 rfl
  · exact (mem_text_plain hm).2.2.2.1 rfl
  · exact (mem_text_plain hm).2.2.2.2 rfl

/-- Reading starts in front of the sign that is sought. -/
theorem align_rotate (hi : (command.text.rotate n).idxOf? command.sought.symbol = some i)
    (hk : (command.text.rotate n).rotate i = command.text.rotate (k + 1)) :
    align (command.text.rotate n) = .ok (command.text.rotate k) := by
  obtain ⟨hopen, hclose, hcomma, hsemicolon⟩ := command.separators_not_mem_rotate n
  have hcount : (command.text.rotate n).count '(' = (command.text.rotate n).count ')' := by
    rw [List.count_eq_zero_of_not_mem hopen, List.count_eq_zero_of_not_mem hclose]
  have hlength : 0 < command.text.length := by simp [Command.text]
  have hfront : i + command.text.length - 1 = i + (command.text.length - 1) := by omega
  have hcircle : k + 1 + (command.text.length - 1) = command.text.length + k := by omega
  rw [align_of_codeOnly hcount hopen, codeStart_eq, separatorEnd?_eq_none.mpr ⟨hsemicolon, hcomma⟩,
    operatorAt?_rotate, hi, Option.none_or, Option.map_some, Option.getD_some, List.rotate_mod,
    List.length_rotate, hfront, ← List.rotate_rotate, hk, List.rotate_rotate, hcircle,
    ← List.rotate_rotate, List.rotate_length]

theorem parse_rotate (h : align (command.text.rotate n) = .ok (command.text.rotate k)) :
    parse (command.text.rotate n) =
      (parseCommand (command.text.rotate k) (command.text.rotate k)).map fun c => [[c]] := by
  obtain ⟨hopen, hclose, hcomma, hsemicolon⟩ := command.separators_not_mem_rotate k
  have hne : command.text.rotate k ≠ [] := by simp [Command.text]
  have hblank : dropBlanks (command.text.rotate k) = command.text.rotate k :=
    dropBlanks_eq_self fun c hc => (mem_text_plain (List.mem_rotate.mp hc)).1
  rw [parse_of_align h, (Shows.of_not_mem hopen hclose).strip_eq, hblank,
    parseCode_of_lone hne hsemicolon hcomma]

/-- Turned to its start, the command is read. -/
theorem parse_of_turned (hi : (command.text.rotate n).idxOf? command.sought.symbol = some i)
    (hk : (command.text.rotate n).rotate i = command.text.rotate 1) :
    parse (command.text.rotate n) = .ok [[command]] := by
  rw [parse_rotate (align_rotate hi hk), List.rotate_zero, parseCommand_text]
  rfl

/-- Turned to its operator, the command is not read: the operator is taken for the register and the
sign of the operand for the operator. -/
theorem parse_of_turned_past (hneg : command.operand.toInt < 0)
    (hi : (command.text.rotate n).idxOf? command.sought.symbol = some i)
    (hk : (command.text.rotate n).rotate i = command.text.rotate 2) :
    parse (command.text.rotate n) = .error (.unknownRegister command.operator.symbol
      (String.ofList (command.text.rotate 1))) := by
  have hname : Register.ofName? command.operator.symbol = none := by
    cases command.operator <;> decide +kernel
  obtain ⟨digits, hdigits⟩ := Decimal.exists_ofInt_of_neg hneg
  have htext : command.text.rotate 1 =
      command.operator.symbol :: '-' :: (digits ++ [command.register.name]) := by
    rw [Command.text, hdigits]
    rfl
  rw [parse_rotate (align_rotate hi hk), htext]
  cases hrest : digits ++ [command.register.name] with
  | nil => simp at hrest
  | cons c rest => simp [parseCommand, hname, Except.map]

theorem sought_eq_operator (h : command.operator ≠ .expect ∨ 0 ≤ command.operand.toInt) :
    command.sought = command.operator := by
  unfold sought
  split
  · rename_i hsub
    cases ho : command.operator with
    | add => exact absurd ho hsub.1
    | sub => rfl
    | expect => exact absurd hsub.2 (by simpa [ho] using h)
  · rfl

theorem sought_eq_sub (ho : command.operator ≠ .add) (hneg : command.operand.toInt < 0) :
    command.sought = .sub := by
  rw [sought, if_pos ⟨ho, hneg⟩]

theorem parse_text (h : command.operator ≠ .expect ∨ 0 ≤ command.operand.toInt) :
    parse command.text = .ok [[command]] := by
  have hname := command.register.name_ne_symbol command.operator
  have hi : (command.text.rotate 0).idxOf? command.sought.symbol = some 1 := by
    simp [sought_eq_operator h, Command.text, List.idxOf?_cons, hname]
  have hread := parse_of_turned hi (List.rotate_rotate _ _ _)
  rwa [List.rotate_zero] at hread

theorem parse_text_expect (ho : command.operator = .expect) (hneg : command.operand.toInt < 0) :
    parse command.text = .error (.unknownRegister '=' (String.ofList (command.text.rotate 1))) := by
  obtain ⟨digits, hdigits⟩ := Decimal.exists_ofInt_of_neg hneg
  have hsought := sought_eq_sub (by simp [ho]) hneg
  have hname : command.register.name ≠ '-' := command.register.name_ne_symbol .sub
  have hi : (command.text.rotate 0).idxOf? command.sought.symbol = some 2 := by
    simp [hsought, Command.text, hdigits, ho, Operator.symbol, List.idxOf?_cons, hname]
  have hread := parse_of_turned_past hneg hi (List.rotate_rotate _ _ _)
  rwa [List.rotate_zero, ho] at hread

theorem parse_rotate_text (h : command.operator = .add ∨ 0 ≤ command.operand.toInt) (n : Nat) :
    parse (command.text.rotate n) = .ok [[command]] := by
  have hsought : command.sought = command.operator :=
    sought_eq_operator (h.imp_left fun ho => by simp [ho])
  have hmem : command.operator.symbol ∈ command.text.rotate n := by
    rw [List.mem_rotate, symbol_mem_text_iff]
    exact .inl rfl
  obtain ⟨i, hi⟩ := Option.isSome_iff_exists.mp (List.isSome_idxOf?.mpr hmem)
  obtain ⟨rest, hdrop⟩ := drop_of_idxOf? hi
  refine parse_of_turned (i := i) (hsought ▸ hi) ?_
  -- the sign of the command is on the circle only once, so both texts that start with it are the same
  have hle : i ≤ (command.text.rotate n).length :=
    Nat.le_of_lt (List.idxOf?_eq_some_iff.mp hi).1
  have hturned : (command.text.rotate n).rotate i =
      command.operator.symbol :: (rest ++ (command.text.rotate n).take i) := by
    rw [List.rotate_eq_drop_append_take hle, hdrop, List.cons_append]
  have hone : command.text.rotate 1 = command.operator.symbol ::
      (Decimal.ofInt command.operand.toInt ++ [command.register.name]) := rfl
  have hcircle : (command.text.rotate n).rotate i ~r command.text.rotate 1 := by
    rw [List.rotate_rotate]
    exact (List.IsRotated.symm ⟨n + i, rfl⟩).trans ⟨1, rfl⟩
  have hsingle : command.operator.symbol ∉
      Decimal.ofInt command.operand.toInt ++ [command.register.name] := by
    rw [List.mem_append, symbol_mem_ofInt_iff, List.mem_singleton, not_or]
    refine ⟨?_, (command.register.name_ne_symbol _).symm⟩
    rintro ⟨hsub, hneg⟩
    rcases h with h | h
    · simp [h] at hsub
    · omega
  rw [hturned, hone] at hcircle
  rw [hturned, hone, eq_of_isRotated_cons hcircle hsingle]

/-- Cut in front of the sign of the operand, the circle starts with what is taken for its operator. -/
theorem parse_rotate_two (ho : command.operator ≠ .add) (hneg : command.operand.toInt < 0) :
    parse (command.text.rotate 2) = .error (.unknownRegister command.operator.symbol
      (String.ofList (command.text.rotate 1))) := by
  obtain ⟨digits, hdigits⟩ := Decimal.exists_ofInt_of_neg hneg
  have hi : (command.text.rotate 2).idxOf? command.sought.symbol = some 0 := by
    simp [sought_eq_sub ho hneg, Command.text, hdigits, Operator.symbol, List.idxOf?_cons]
  exact parse_of_turned_past hneg hi (by rw [List.rotate_zero])

end Command

/-- The text of a lone command is read unless it expects a number below zero, and then the operator is
taken for a register. The circle of the text is read wherever it is cut if and only if the command adds
or its operand is not below zero. -/
theorem lone_command_reads_back_iff (command : Command) :
    (parse command.text = .ok [[command]] ↔
      ¬ (command.operator = .expect ∧ command.operand < 0)) ∧
    (command.operator = .expect → command.operand < 0 → parse command.text =
      .error (.unknownRegister '=' (String.ofList (command.text.rotate 1)))) ∧
    ((∀ n, parse (command.text.rotate n) = .ok [[command]]) ↔
      command.operator = .add ∨ 0 ≤ command.operand) := by
  rw [Int64.lt_iff_toInt_lt, Int64.le_iff_toInt_le, Int64.toInt_zero]
  refine ⟨⟨?_, fun h => ?_⟩, Command.parse_text_expect, fun h => ?_, Command.parse_rotate_text⟩
  · rintro hread ⟨ho, hneg⟩
    rw [Command.parse_text_expect ho hneg] at hread
    cases hread
  · rw [not_and, Int.not_lt] at h
    exact Command.parse_text (Decidable.not_or_of_imp h)
  · by_contra hcut
    rw [not_or, Int.not_le] at hcut
    have hread := h 2
    rw [Command.parse_rotate_two hcut.1 hcut.2] at hread
    cases hread

def belowZero : Command := ⟨.output, .expect, -5⟩

theorem expectation_below_zero_not_read :
    belowZero.text = "O=-5".toList ∧
      parse belowZero.text = .error (.unknownRegister '=' "=-5O") ∧
      ¬ ∀ command : Command, parse command.text = .ok [[command]] := by
  have htext : belowZero.text = "O=-5".toList := by decide +kernel
  have hfails : parse belowZero.text = .error (.unknownRegister '=' "=-5O") := by decide +kernel
  refine ⟨htext, hfails, fun h => ?_⟩
  have hread := h belowZero
  rw [hfails] at hread
  cases hread

end Esolang.Ledger
