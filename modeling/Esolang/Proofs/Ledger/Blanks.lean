import Esolang.Proofs.Ledger.Comments

/-! Blanks in a ledger source. When they are dropped, every place to which the source can be turned
moves along with the text, so that it reads the same. The exception is a source that is turned to
the character in front of an operator: without blanks that is the name of a register, but a blank in
front of the operator is taken for it. -/

namespace Esolang.Ledger

theorem dropBlanks_cons_of_blank {c : Char} (h : isBlank c = true) (text : List Char) :
    dropBlanks (c :: text) = dropBlanks text :=
  List.filter_cons_of_neg (by simp [h])

theorem ne_of_isBlank {b c : Char} (hb : isBlank b = true) (hc : isBlank c = false) : b ≠ c := by
  rintro rfl
  rw [hb] at hc
  cases hc

/-- Character by character, with blanks apart from the others. -/
@[elab_as_elim]
theorem blanks_induction {motive : List Char → Prop} (nil : motive [])
    (blank : ∀ b rest, isBlank b = true → motive rest → motive (b :: rest))
    (char : ∀ c rest, isBlank c = false → motive rest → motive (c :: rest)) (text : List Char) :
    motive text := by
  induction text with
  | nil => exact nil
  | cons c rest ih =>
    by_cases hb : isBlank c = true
    · exact blank c rest hb ih
    · exact char c rest (by simpa using hb) ih

theorem mem_dropBlanks_iff {c : Char} (h : isBlank c = false) {text : List Char} :
    c ∈ dropBlanks text ↔ c ∈ text := by
  simp [dropBlanks, h]

theorem count_dropBlanks {c : Char} (h : isBlank c = false) (text : List Char) :
    (dropBlanks text).count c = text.count c :=
  List.count_filter (by simp [h])

/-- Where a place of a text is once the blanks are dropped. -/
def place (text : List Char) (i : Nat) : Nat := (dropBlanks (text.take i)).length

theorem place_zero (text : List Char) : place text 0 = 0 := rfl

theorem place_of_blank {c : Char} (h : isBlank c = true) (text : List Char) (i : Nat) :
    place (c :: text) (i + 1) = place text i := by
  rw [place, List.take_succ_cons, dropBlanks_cons_of_blank h, place]

theorem place_of_not_blank {c : Char} (h : isBlank c = false) (text : List Char) (i : Nat) :
    place (c :: text) (i + 1) = place text i + 1 := by
  rw [place, List.take_succ_cons, dropBlanks_cons h, List.length_cons, place]

theorem dropBlanks_split (text : List Char) (i : Nat) :
    dropBlanks text = dropBlanks (text.take i) ++ dropBlanks (text.drop i) := by
  rw [← dropBlanks_append, List.take_append_drop]

theorem turn_dropBlanks (text : List Char) (i : Nat) :
    turn (dropBlanks text) (place text i) = dropBlanks (turn text i) := by
  rw [turn, turn, dropBlanks_append, dropBlanks_split text i, place, List.drop_left, List.take_left]

theorem positions_eq (c : Char) (text : List Char) :
    positions c text = text.zipIdx.filterMap fun p => if p.1 = c then some p.2 else none := rfl

theorem positions_cons (c d : Char) (text : List Char) :
    positions c (d :: text) = (if d = c then [0] else []) ++ (positions c text).map (· + 1) := by
  have hrest : (text.zipIdx 1).filterMap (fun p => if p.1 = c then some p.2 else none) =
      (positions c text).map (· + 1) := by
    rw [List.zipIdx_succ, List.filterMap_map, positions_eq, List.map_filterMap]
    refine List.filterMap_congr fun p _ => ?_
    by_cases hp : p.1 = c <;> simp [hp]
  rw [positions_eq, List.zipIdx_cons, List.filterMap_cons, hrest]
  by_cases hd : d = c <;> simp [hd]

theorem positions_dropBlanks {c : Char} (h : isBlank c = false) (text : List Char) :
    positions c (dropBlanks text) = (positions c text).map (place text) := by
  induction text using blanks_induction with
  | nil => rfl
  | blank b rest hb ih =>
    have hmoved : place (b :: rest) ∘ (· + 1) = place rest := funext (place_of_blank hb rest)
    rw [dropBlanks_cons_of_blank hb, ih, positions_cons, if_neg (ne_of_isBlank hb h),
      List.nil_append, List.map_map, hmoved]
  | char d rest hd ih =>
    have hmoved : place (d :: rest) ∘ (· + 1) = (· + 1) ∘ place rest :=
      funext (place_of_not_blank hd rest)
    rw [dropBlanks_cons hd, positions_cons, positions_cons, ih, List.map_append, List.map_map,
      List.map_map, hmoved]
    by_cases he : d = c <;> simp [he, place_zero]

theorem idxOf?_eq_head? (c : Char) (text : List Char) :
    text.idxOf? c = (positions c text).head? := by
  induction text with
  | nil => rfl
  | cons d rest ih =>
    rw [List.idxOf?_cons, positions_cons, ih]
    by_cases hd : d = c <;> simp [hd]

theorem idxOf?_dropBlanks {c : Char} (h : isBlank c = false) (text : List Char) :
    (dropBlanks text).idxOf? c = (text.idxOf? c).map (place text) := by
  rw [idxOf?_eq_head?, idxOf?_eq_head?, positions_dropBlanks h, List.head?_map]

theorem closes_dropBlanks (opened : Nat) (text : List Char) :
    closes opened (dropBlanks text) = closes opened text := by
  induction text using blanks_induction generalizing opened with
  | nil => rfl
  | blank b rest hb ih =>
    have ho : b ≠ '(' := ne_of_isBlank hb (by decide)
    have hc : b ≠ ')' := ne_of_isBlank hb (by decide)
    rw [dropBlanks_cons_of_blank hb, ih]
    simp [closes, ho, hc]
  | char c rest hc ih =>
    rw [dropBlanks_cons hc]
    cases opened <;> simp [closes, ih]

theorem stripFrom_dropBlanks (level : Int) (text : List Char) :
    stripFrom level (dropBlanks text) = dropBlanks (stripFrom level text) := by
  induction text using blanks_induction generalizing level with
  | nil => rfl
  | blank b rest hb ih =>
    have ho : b ≠ '(' := ne_of_isBlank hb (by decide)
    have hc : b ≠ ')' := ne_of_isBlank hb (by decide)
    rw [dropBlanks_cons_of_blank hb, ih]
    by_cases hl : level = 0 <;> simp [stripFrom, ho, hc, hl, dropBlanks_cons_of_blank hb]
  | char c rest hkept ih =>
    rw [dropBlanks_cons hkept]
    by_cases ho : c = '('
    · simp [stripFrom, ho, ih]
    · by_cases hc : c = ')'
      · simp [stripFrom, hc, ih]
      · by_cases hl : level = 0 <;> simp [stripFrom, ho, hc, hl, ih, dropBlanks_cons hkept]

theorem commentStart?_dropBlanks (text : List Char) :
    commentStart? (dropBlanks text) = (commentStart? text).map (place text) := by
  have hcloses : ((fun start => closes 0 (turn (dropBlanks text) start)) ∘ place text) =
      fun start => closes 0 (turn text start) := by
    funext start
    simp only [Function.comp_apply, turn_dropBlanks, closes_dropBlanks]
  rw [commentStart?, positions_dropBlanks (by decide), List.find?_map, hcloses, commentStart?]

/-! Sources without comments. -/

/-- Behind the first semicolon of a text, or else behind the first comma. -/
def separatorEnd? (text : List Char) : Option Nat :=
  ((text.idxOf? ';').map (· + 1)).or ((text.idxOf? ',').map (· + 1))

/-- The first plus sign of a text, or else the first minus sign, or else the first equality sign. -/
def operatorAt? (text : List Char) : Option Nat :=
  (text.idxOf? '+').or <| (text.idxOf? '-').or (text.idxOf? '=')

theorem codeStart_eq (text : List Char) :
    codeStart text = ((separatorEnd? text).or
      ((operatorAt? text).map fun i => (i + text.length - 1) % text.length)).getD 0 := by
  simp only [codeStart, separatorEnd?, operatorAt?, Option.map_or, Option.or_assoc]

theorem drop_of_idxOf? {c : Char} {text : List Char} {i : Nat} (h : text.idxOf? c = some i) :
    ∃ rest, text.drop i = c :: rest := by
  obtain ⟨hlt, hc, -⟩ := List.idxOf?_eq_some_iff.mp h
  refine ⟨text.drop (i + 1), ?_⟩
  rw [List.drop_eq_getElem_cons hlt, hc]

theorem operatorAt?_eq_some {text : List Char} {i : Nat} (h : operatorAt? text = some i) :
    ∃ (operator : Operator) (rest : List Char), text.drop i = operator.symbol :: rest := by
  simp only [operatorAt?, Option.or_eq_some_iff] at h
  rcases h with h | ⟨-, h | ⟨-, h⟩⟩
  · exact ⟨.add, drop_of_idxOf? h⟩
  · exact ⟨.sub, drop_of_idxOf? h⟩
  · exact ⟨.expect, drop_of_idxOf? h⟩

theorem isBlank_symbol (operator : Operator) : isBlank operator.symbol = false := by
  cases operator <;> decide

theorem lt_of_operatorAt? {text : List Char} {i : Nat} (h : operatorAt? text = some i) :
    i < text.length := by
  obtain ⟨operator, rest, hdrop⟩ := operatorAt?_eq_some h
  have hlength := congrArg List.length hdrop
  simp only [List.length_drop, List.length_cons] at hlength
  omega

theorem place_succ {c : Char} (h : isBlank c = false) {text rest : List Char} {i : Nat}
    (hdrop : text.drop i = c :: rest) : place text (i + 1) = place text i + 1 := by
  rw [place, List.take_add, hdrop, dropBlanks_append, List.length_append, place]
  simp [dropBlanks, h]

theorem behind_dropBlanks {c : Char} (h : isBlank c = false) (text : List Char) :
    ((dropBlanks text).idxOf? c).map (· + 1) = ((text.idxOf? c).map (· + 1)).map (place text) := by
  rw [idxOf?_dropBlanks h]
  cases hi : text.idxOf? c with
  | none => rfl
  | some i =>
    obtain ⟨rest, hdrop⟩ := drop_of_idxOf? hi
    simp [place_succ h hdrop]

theorem separatorEnd?_dropBlanks (text : List Char) :
    separatorEnd? (dropBlanks text) = (separatorEnd? text).map (place text) := by
  simp only [separatorEnd?, behind_dropBlanks (show isBlank ';' = false by decide),
    behind_dropBlanks (show isBlank ',' = false by decide), Option.map_or]

theorem operatorAt?_dropBlanks (text : List Char) :
    operatorAt? (dropBlanks text) = (operatorAt? text).map (place text) := by
  simp only [operatorAt?, idxOf?_dropBlanks (show isBlank '+' = false by decide),
    idxOf?_dropBlanks (show isBlank '-' = false by decide),
    idxOf?_dropBlanks (show isBlank '=' = false by decide), Option.map_or]

/-- A circle that is read from the character in front of a place. -/
theorem turn_before {text front : List Char} {b : Char} {i : Nat} (hi : i < text.length)
    (h : turn text i = front ++ [b]) :
    turn text ((i + text.length - 1) % text.length) = b :: front := by
  have hmod : (i + text.length - 1) % text.length < text.length := Nat.mod_lt _ (by omega)
  rw [turn_eq_rotate hi.le] at h
  have hlength : text.length = front.length + 1 := by
    have hh := congrArg List.length h
    simpa using hh
  have hsum : i + text.length - 1 = i + front.length := by omega
  rw [turn_eq_rotate hmod.le, List.rotate_mod, hsum, ← List.rotate_rotate, h,
    List.rotate_append_length_eq]
  rfl

theorem turn_codeStart_dropBlanks {source : List Char}
    (h : separatorEnd? source = none → ∀ i b, operatorAt? source = some i →
      (turn source i).getLast? = some b → isBlank b = false) :
    turn (dropBlanks source) (codeStart (dropBlanks source)) =
      dropBlanks (turn source (codeStart source)) := by
  have hseparator := separatorEnd?_dropBlanks source
  have hoperator := operatorAt?_dropBlanks source
  rw [codeStart_eq, codeStart_eq source]
  cases hs : separatorEnd? source with
  | some start =>
    rw [hseparator, hs]
    exact turn_dropBlanks source start
  | none =>
    rw [hs] at hseparator
    cases ho : operatorAt? source with
    | none =>
      rw [hseparator, hoperator, ho]
      exact turn_dropBlanks source 0
    | some i =>
      rw [ho] at hoperator
      have hi := lt_of_operatorAt? ho
      have hi' := lt_of_operatorAt? hoperator
      have hne : turn source i ≠ [] := List.ne_nil_of_length_pos (by rw [length_turn]; omega)
      obtain ⟨front, b, hturn⟩ : ∃ front b, turn source i = front ++ [b] :=
        ⟨_, _, (List.dropLast_append_getLast hne).symm⟩
      have hb : isBlank b = false := h hs i b ho (by simp [hturn])
      have hdropped : turn (dropBlanks source) (place source i) = dropBlanks front ++ [b] := by
        rw [turn_dropBlanks, hturn, dropBlanks_append, dropBlanks_cons hb]
        rfl
      have hcode := turn_before hi' hdropped
      rw [hseparator, hoperator]
      simpa [turn_before hi hturn, dropBlanks_cons hb] using hcode

/-- A source of neither comments nor separators with a blank in front of the operator from which it
is read. -/
structure OperatorDetached (source : List Char) : Prop where
  no_comment : '(' ∉ source ∧ ')' ∉ source
  no_separator : ';' ∉ source ∧ ',' ∉ source
  blank_before : ∃ i b, operatorAt? source = some i ∧ (turn source i).getLast? = some b ∧
    isBlank b = true

theorem separatorEnd?_eq_none {text : List Char} :
    separatorEnd? text = none ↔ ';' ∉ text ∧ ',' ∉ text := by
  simp [separatorEnd?]

theorem align_dropBlanks_of_codeOnly {source : List Char}
    (hcount : source.count '(' = source.count ')') (ho : '(' ∉ source)
    (h : ¬ OperatorDetached source) :
    align (dropBlanks source) = (align source).map dropBlanks := by
  have hopened := count_dropBlanks (show isBlank '(' = false by decide) source
  have hclosed := count_dropBlanks (show isBlank ')' = false by decide) source
  have ho' : '(' ∉ dropBlanks source := fun hm => ho (mem_dropBlanks hm)
  have hc : ')' ∉ source := by
    rw [← List.count_eq_zero, ← hcount]
    exact List.count_eq_zero_of_not_mem ho
  have hattached : separatorEnd? source = none → ∀ i b, operatorAt? source = some i →
      (turn source i).getLast? = some b → isBlank b = false := by
    intro hs i b hi hb
    by_contra hblank
    exact h ⟨⟨ho, hc⟩, separatorEnd?_eq_none.mp hs, i, b, hi, hb, by simpa using hblank⟩
  rw [align_of_codeOnly hcount ho, align_of_codeOnly (by rw [hopened, hclosed, hcount]) ho',
    ← turn_eq_rotate (codeStart_le _), ← turn_eq_rotate (codeStart_le _),
    turn_codeStart_dropBlanks hattached]
  rfl

theorem align_dropBlanks {source : List Char} (h : ¬ OperatorDetached source) :
    align (dropBlanks source) = (align source).map dropBlanks := by
  have hopened := count_dropBlanks (show isBlank '(' = false by decide) source
  have hclosed := count_dropBlanks (show isBlank ')' = false by decide) source
  by_cases hcount : source.count '(' = source.count ')'
  · by_cases ho : '(' ∈ source
    · obtain ⟨start, hs⟩ := exists_commentStart hcount ho
      have hs' : commentStart? (dropBlanks source) = some (place source start) := by
        rw [commentStart?_dropBlanks, hs]
        rfl
      rw [align_of_commentStart hcount hs,
        align_of_commentStart (by rw [hopened, hclosed, hcount]) hs', turn_dropBlanks]
      rfl
    · exact align_dropBlanks_of_codeOnly hcount ho h
  · rw [align_of_unbalanced hcount, align_of_unbalanced (by rwa [hopened, hclosed]), hopened,
      hclosed]
    rfl

theorem dropBlanks_dropBlanks (text : List Char) : dropBlanks (dropBlanks text) = dropBlanks text :=
  dropBlanks_eq_self fun c hc => by simpa using (List.mem_filter.mp hc).2

theorem parse_dropBlanks {source : List Char} (h : ¬ OperatorDetached source) :
    parse (dropBlanks source) = parse source := by
  have halign := align_dropBlanks h
  cases ha : align source with
  | error e =>
    rw [ha] at halign
    rw [parse, parse, halign, ha]
    rfl
  | ok aligned =>
    rw [ha] at halign
    rw [parse_of_align halign, parse_of_align ha, stripComments, stripFrom_dropBlanks,
      dropBlanks_dropBlanks, stripComments]

/-- Without its register a command is too short, or its operator is taken for the register. -/
theorem parseCommand_symbol (operator : Operator) (transaction rest : List Char) :
    parseCommand transaction (operator.symbol :: rest) = .error (.commandTooShort
        (String.ofList (operator.symbol :: rest)) (String.ofList transaction)) ∨
      parseCommand transaction (operator.symbol :: rest) =
        .error (.unknownRegister operator.symbol (String.ofList transaction)) := by
  have hname : Register.ofName? operator.symbol = none := by
    cases operator <;> decide +kernel
  cases rest with
  | nil => exact .inl rfl
  | cons symbol digits =>
    cases digits with
    | nil => exact .inl rfl
    | cons digit digits =>
      right
      simp [parseCommand, hname]

theorem parseCode_of_lone {code : List Char} (hne : code ≠ []) (hsemicolon : ';' ∉ code)
    (hcomma : ',' ∉ code) : parseCode code = (parseCommand code code).map fun c => [[c]] := by
  have hone : parseTransaction code = (parseCommand code code).map fun c => [c] := by
    rw [parseTransaction, pieces_of_not_mem hcomma hne, List.mapM_cons]
    cases parseCommand code code <;> rfl
  rw [parseCode, pieces_of_not_mem hsemicolon hne, List.mapM_cons, hone]
  cases parseCommand code code <;> rfl

theorem mem_of_align {source aligned : List Char} (h : align source = .ok aligned) {c : Char}
    (hc : c ∈ aligned) : c ∈ source := by
  by_cases hcount : source.count '(' = source.count ')'
  · obtain ⟨start, hstart, -⟩ := align_of_count_eq hcount
    rw [← Except.ok.inj (hstart.symm.trans h)] at hc
    exact List.mem_rotate.mp hc
  · rw [align_of_unbalanced hcount] at h
    cases h

theorem OperatorDetached.align_eq {source : List Char} (h : OperatorDetached source) :
    ∃ (b : Char) (operator : Operator) (rest : List Char), isBlank b = true ∧
      align source = .ok (b :: operator.symbol :: rest) := by
  obtain ⟨i, b, hi, hb, hblank⟩ := h.blank_before
  obtain ⟨front, hturn⟩ := List.getLast?_eq_some_iff.mp hb
  obtain ⟨operator, rest, hdrop⟩ := operatorAt?_eq_some hi
  have hcount : source.count '(' = source.count ')' := by
    rw [List.count_eq_zero_of_not_mem h.no_comment.1,
      List.count_eq_zero_of_not_mem h.no_comment.2]
  have halign : align source = .ok (b :: front) := by
    rw [align_of_codeOnly hcount h.no_comment.1, ← turn_eq_rotate (codeStart_le source),
      codeStart_eq, separatorEnd?_eq_none.mpr h.no_separator, hi]
    exact congrArg Except.ok (turn_before (lt_of_operatorAt? hi) hturn)
  rw [turn, hdrop] at hturn
  cases front with
  | nil =>
    -- the source is the operator alone, which is no blank
    obtain ⟨rfl, -⟩ : operator.symbol = b ∧ _ := by simpa using hturn
    exact absurd rfl (ne_of_isBlank hblank (isBlank_symbol operator))
  | cons c front =>
    obtain ⟨rfl, -⟩ : operator.symbol = c ∧ _ := by simpa using hturn
    exact ⟨b, operator, front, hblank, halign⟩

theorem parse_of_detached {source : List Char} (h : OperatorDetached source) :
    ∃ (operator : Operator) (rest : List Char),
      parse source = .error (.commandTooShort (String.ofList (operator.symbol :: rest))
        (String.ofList (operator.symbol :: rest))) ∨
      parse source = .error (.unknownRegister operator.symbol
        (String.ofList (operator.symbol :: rest))) := by
  obtain ⟨b, operator, rest, hblank, halign⟩ := h.align_eq
  have hcode : dropBlanks (b :: operator.symbol :: rest) = operator.symbol :: dropBlanks rest := by
    rw [dropBlanks_cons_of_blank hblank, dropBlanks_cons (isBlank_symbol operator)]
  have hsource : ∀ c ∈ operator.symbol :: dropBlanks rest, c ∈ source := fun c hc =>
    mem_of_align halign (mem_dropBlanks (hcode ▸ hc))
  have hstrip := (Shows.of_not_mem (fun hm => h.no_comment.1 (mem_of_align halign hm))
    (fun hm => h.no_comment.2 (mem_of_align halign hm))).strip_eq
  rw [parse_of_align halign, hstrip, hcode, parseCode_of_lone (by simp)
    (fun hm => h.no_separator.1 (hsource _ hm)) (fun hm => h.no_separator.2 (hsource _ hm))]
  refine ⟨operator, dropBlanks rest, ?_⟩
  rcases parseCommand_symbol operator (operator.symbol :: dropBlanks rest) (dropBlanks rest)
    with he | he
  · exact .inl (by rw [he]; rfl)
  · exact .inr (by rw [he]; rfl)

/-- A source reads the same without its blanks, in its errors too, unless a blank stands in front of
the operator from which it is read. It cannot be read then, so the blanks make a difference if it
can be read without them. -/
theorem blanks_matter_only_before_operator (source : List Char) :
    (¬ OperatorDetached source → parse (dropBlanks source) = parse source) ∧
    (OperatorDetached source → ∃ (operator : Operator) (rest : List Char),
      parse source = .error (.commandTooShort (String.ofList (operator.symbol :: rest))
        (String.ofList (operator.symbol :: rest))) ∨
      parse source = .error (.unknownRegister operator.symbol
        (String.ofList (operator.symbol :: rest)))) ∧
    ((∀ transactions, parse (dropBlanks source) = .ok transactions ↔
        parse source = .ok transactions) ↔
      ¬ (OperatorDetached source ∧
        ∃ transactions, parse (dropBlanks source) = .ok transactions)) := by
  refine ⟨parse_dropBlanks, parse_of_detached, ?_⟩
  constructor
  · rintro h ⟨hdetached, transactions, hread⟩
    have hsource := (h transactions).mp hread
    obtain ⟨operator, rest, he | he⟩ := parse_of_detached hdetached <;>
    · rw [he] at hsource
      cases hsource
  · intro h transactions
    by_cases hdetached : OperatorDetached source
    · have hnot : ∀ read, parse (dropBlanks source) ≠ .ok read := fun read hread =>
        h ⟨hdetached, read, hread⟩
      obtain ⟨operator, rest, he | he⟩ := parse_of_detached hdetached <;>
        simp [he, hnot]
    · rw [parse_dropBlanks hdetached]

def spaced : List Char := "A +5".toList

theorem blank_before_operator_hides_command :
    OperatorDetached spaced ∧
      parse (dropBlanks spaced) = .ok [[⟨0, .add, 5⟩]] ∧
      parse spaced = .error (.unknownRegister '+' "+5A") ∧
      ¬ ∀ transactions, parse (dropBlanks spaced) = .ok transactions ↔
        parse spaced = .ok transactions := by
  have hdetached : OperatorDetached spaced :=
    ⟨by decide, by decide, 2, ' ', by decide, by decide, by decide⟩
  have hread : parse (dropBlanks spaced) = .ok [[⟨0, .add, 5⟩]] := by decide +kernel
  have hfails : parse spaced = .error (.unknownRegister '+' "+5A") := by decide +kernel
  refine ⟨hdetached, hread, hfails, fun h => ?_⟩
  have hsource := (h _).mp hread
  rw [hfails] at hsource
  cases hsource

end Esolang.Ledger
