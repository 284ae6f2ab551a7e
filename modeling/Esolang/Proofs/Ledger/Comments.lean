import Esolang.Proofs.Ledger.Alignment
import Esolang.Proofs.Ledger.Circle
import Esolang.Proofs.Ledger.Reading

/-! Programs with comments around their commands. Reading starts at the first comment and goes round
the circle from there, so the program is that without comments, turned to the transaction in which the
first comment stands. If it stands between two commands, their transaction is cut at the comment. -/

namespace Esolang.Ledger

theorem closes_append {opened : Nat} {text : List Char} (h : closes opened text = true) (more : Nat)
    (rest : List Char) : closes (opened + more) (text ++ rest) = closes more rest := by
  induction text generalizing opened with
  | nil =>
    obtain rfl : opened = 0 := by simpa [closes] using h
    simp
  | cons c text ih =>
    by_cases ho : c = '('
    · have hrest : closes (opened + 1) text = true := by simpa [closes, ho] using h
      have hh := ih hrest
      rw [Nat.add_right_comm] at hh
      simpa [closes, ho] using hh
    · by_cases hc : c = ')'
      · cases opened with
        | zero => simp [closes, hc] at h
        | succ opened =>
          have hrest : closes opened text = true := by simpa [closes, hc] using h
          rw [Nat.add_right_comm]
          simpa [closes, hc] using ih hrest
      · have hrest : closes opened text = true := by simpa [closes, ho, hc] using h
        simpa [closes, ho, hc] using ih hrest

theorem stripFrom_of_closes {opened : Nat} {text : List Char} (h : closes opened text = true) :
    stripFrom (opened + 1) text = [] := by
  induction text generalizing opened with
  | nil => rfl
  | cons c text ih =>
    by_cases ho : c = '('
    · have hrest : closes (opened + 1) text = true := by simpa [closes, ho] using h
      simpa [stripFrom, ho] using ih hrest
    · by_cases hc : c = ')'
      · cases opened with
        | zero => simp [closes, hc] at h
        | succ opened =>
          have hrest : closes opened text = true := by simpa [closes, hc] using h
          simpa [stripFrom, hc] using ih hrest
      · have hrest : closes opened text = true := by simpa [closes, ho, hc] using h
        have hn : (opened : Int) + 1 ≠ 0 := by omega
        simpa [stripFrom, ho, hc, hn] using ih hrest

/-- The text closes its comments, and what remains without them. -/
structure Shows (text code : List Char) : Prop where
  closed : closes 0 text = true
  strip_eq : stripComments text = code

namespace Shows

theorem depth_eq {text code : List Char} (h : Shows text code) : depth text = 0 := by
  have hcount := ((closes_iff_nested text).mp h.closed).2
  rw [depth, hcount]
  omega

theorem append {front behind code rest : List Char} (hf : Shows front code)
    (hb : Shows behind rest) : Shows (front ++ behind) (code ++ rest) := by
  refine ⟨?_, ?_⟩
  · have hh := closes_append hf.closed 0 behind
    rw [Nat.add_zero] at hh
    rw [hh, hb.closed]
  · rw [stripComments_append, hf.depth_eq, hf.strip_eq]
    exact congrArg (code ++ ·) hb.strip_eq

theorem nil : Shows [] [] := ⟨rfl, rfl⟩

theorem of_code {code : List Char} (h : ∀ c ∈ code, c ≠ '(' ∧ c ≠ ')') : Shows code code := by
  induction code with
  | nil => exact nil
  | cons c rest ih =>
    obtain ⟨hc, hrest⟩ := List.forall_mem_cons.mp h
    have hone : Shows [c] [c] := ⟨by simp [closes, hc], by simp [stripComments, stripFrom, hc]⟩
    exact hone.append (ih hrest)

theorem of_not_mem {code : List Char} (ho : '(' ∉ code) (hc : ')' ∉ code) : Shows code code :=
  of_code fun _ hmem => ⟨fun he => ho (he ▸ hmem), fun he => hc (he ▸ hmem)⟩

theorem flatMap {α : Type} {f g : α → List Char} {xs : List α} (h : ∀ x ∈ xs, Shows (f x) (g x)) :
    Shows (xs.flatMap f) (xs.flatMap g) := by
  induction xs with
  | nil => exact nil
  | cons x xs ih =>
    obtain ⟨hx, hxs⟩ := List.forall_mem_cons.mp h
    exact append hx (ih hxs)

end Shows

/-- Any text in parentheses that are balanced inside. -/
structure Comment where
  inside : List Char
  nested : Nested inside
  count_eq : inside.count '(' = inside.count ')'

def Comment.text (c : Comment) : List Char := '(' :: (c.inside ++ [')'])

theorem Comment.shows (c : Comment) : Shows c.text [] := by
  have hc : closes 0 c.inside = true := (closes_iff_nested c.inside).mpr ⟨c.nested, c.count_eq⟩
  have hz : depth c.inside = 0 := by
    rw [depth, c.count_eq]
    omega
  refine ⟨?_, ?_⟩
  · have hh := closes_append hc 1 [')']
    simpa [Comment.text, closes] using hh
  · have hs : stripFrom 1 c.inside = [] := stripFrom_of_closes hc
    have hh : stripFrom 1 (c.inside ++ [')']) = [] := by
      rw [stripFrom_append, hs, hz]
      rfl
    simpa [Comment.text, stripComments, stripFrom] using hh

theorem shows_comments (comments : List Comment) : Shows (comments.flatMap Comment.text) [] := by
  induction comments with
  | nil => exact .nil
  | cons c comments ih => exact c.shows.append ih

/-- A command as it is written, with the comments that stand around it. -/
structure Phrase where
  before : List Comment := []
  text : List Char
  command : Command
  after : List Comment := []
  spells : Spells text command

namespace Phrase

def commented (f : Phrase) : List Char :=
  f.before.flatMap Comment.text ++ f.text ++ f.after.flatMap Comment.text

def Bare (f : Phrase) : Prop := f.before = [] ∧ f.after = []

theorem shows_text (f : Phrase) : Shows f.text f.text :=
  .of_code fun c hc => ⟨(f.spells.plain c hc).1, (f.spells.plain c hc).2.1⟩

theorem shows_commented (f : Phrase) : Shows f.commented f.text := by
  have h := ((shows_comments f.before).append f.shows_text).append (shows_comments f.after)
  simpa [commented] using h

theorem Bare.commented_eq {f : Phrase} (h : f.Bare) : f.commented = f.text := by
  simp [commented, h.1, h.2]

end Phrase

abbrev Written := List (List Phrase)

/-- Commands separated by commas, and a semicolon behind them. -/
def transactionText (write : Phrase → List Char) (t : List Phrase) : List Char :=
  [','].intercalate (t.map write) ++ [';']

def programText (write : Phrase → List Char) (program : Written) : List Char :=
  program.flatMap (transactionText write)

def commandsOf (t : List Phrase) : Transaction := t.map Phrase.command

def transactionsOf (program : Written) : List Transaction := program.map commandsOf

def leading (write : Phrase → List Char) (t : List Phrase) : List Char :=
  t.flatMap fun f => write f ++ [',']

def trailing (write : Phrase → List Char) (t : List Phrase) : List Char :=
  t.flatMap fun f => ',' :: write f

theorem transactionText_cons (write : Phrase → List Char) (f : Phrase) (back : List Phrase) :
    transactionText write (f :: back) = write f ++ (trailing write back ++ [';']) := by
  rw [← List.append_assoc, transactionText]
  congr 1
  induction back generalizing f with
  | nil => simp [trailing]
  | cons g back ih =>
    have hh := ih g
    simp only [List.map_cons] at hh ⊢
    rw [List.intercalate_cons_cons, hh]
    simp [trailing]

theorem transactionText_append_cons (write : Phrase → List Char) (front : List Phrase) (f : Phrase)
    (back : List Phrase) :
    transactionText write (front ++ f :: back) =
      leading write front ++ (write f ++ (trailing write back ++ [';'])) := by
  induction front with
  | nil => exact transactionText_cons write f back
  | cons e front ih =>
    have hne : (front ++ f :: back).map write ≠ [] := by simp
    rw [transactionText] at ih ⊢
    rw [List.cons_append, List.map_cons, List.intercalate_cons_of_ne_nil hne, List.append_assoc, ih]
    simp [leading]

theorem programText_append (write : Phrase → List Char) (front behind : Written) :
    programText write (front ++ behind) = programText write front ++ programText write behind :=
  List.flatMap_append

theorem programText_cons (write : Phrase → List Char) (t : List Phrase) (behind : Written) :
    programText write (t :: behind) = transactionText write t ++ programText write behind :=
  List.flatMap_cons

theorem shows_comma : Shows [','] [','] := .of_code (by simp)

theorem shows_semicolon : Shows [';'] [';'] := .of_code (by simp)

section

variable {write : Phrase → List Char} (h : ∀ f, Shows (write f) f.text)
include h

theorem shows_leading (t : List Phrase) : Shows (leading write t) (leading Phrase.text t) :=
  .flatMap fun f _ => (h f).append shows_comma

theorem shows_trailing (t : List Phrase) : Shows (trailing write t) (trailing Phrase.text t) :=
  .flatMap fun f _ => shows_comma.append (h f)

theorem shows_transactionText (t : List Phrase) :
    Shows (transactionText write t) (transactionText Phrase.text t) := by
  cases t with
  | nil => exact shows_semicolon
  | cons f back =>
    rw [transactionText_cons, transactionText_cons]
    exact (h f).append ((shows_trailing h back).append shows_semicolon)

theorem shows_programText (program : Written) :
    Shows (programText write program) (programText Phrase.text program) :=
  .flatMap fun t _ => shows_transactionText h t

end

/-! The parts of a text without comments, and what they read as. -/

theorem Lists.trailing {text : List Char} {commands : List Command} (h : Lists text commands)
    (t : List Phrase) : Lists (text ++ trailing Phrase.text t) (commands ++ commandsOf t) := by
  induction t generalizing text commands with
  | nil => simpa [Ledger.trailing, commandsOf] using h
  | cons f t ih =>
    have hh := ih (h.append_comma f.spells.lists)
    simpa [Ledger.trailing, commandsOf] using hh

theorem Lists.leading {text : List Char} {commands : List Command} (h : Lists text commands)
    (t : List Phrase) : Lists (leading Phrase.text t ++ text) (commandsOf t ++ commands) := by
  induction t with
  | nil => simpa [Ledger.leading, commandsOf] using h
  | cons f t ih =>
    have hh := f.spells.lists.append_comma ih
    simpa [Ledger.leading, commandsOf] using hh

theorem Phrase.lists_trailing (f : Phrase) (back : List Phrase) :
    Lists (f.text ++ Ledger.trailing Phrase.text back) (commandsOf (f :: back)) :=
  f.spells.lists.trailing back

theorem readsAs_programText {program : Written} (hne : ∀ t ∈ program, t ≠ []) {rest : List Char}
    {others : List Transaction} (h : ReadsAs rest others) :
    ReadsAs (programText Phrase.text program ++ rest) (transactionsOf program ++ others) := by
  induction program with
  | nil => exact h
  | cons t program ih =>
    obtain ⟨ht, hprogram⟩ := List.forall_mem_cons.mp hne
    obtain ⟨f, back, rfl⟩ := List.exists_cons_of_ne_nil ht
    have hfirst := (f.lists_trailing back).readsAs (by simp [commandsOf])
    have hh := hfirst.append_semicolon (ih hprogram)
    rw [programText_cons, transactionText_cons]
    simpa [transactionsOf] using hh

def piece (t : List Phrase) : Written := if t = [] then [] else [t]

theorem Lists.readsAs_piece {text : List Char} {t : List Phrase} (h : Lists text (commandsOf t))
    (hnil : t = [] → text = []) : ReadsAs text (transactionsOf (piece t)) := by
  by_cases ht : t = []
  · rw [hnil ht, piece, if_pos ht]
    exact .nil
  · rw [piece, if_neg ht]
    exact h.readsAs (by simpa [commandsOf] using ht)

theorem readsAs_leading (t : List Phrase) :
    ReadsAs (leading Phrase.text t) (transactionsOf (piece t)) := by
  have h := Lists.nil.leading t
  simp only [List.append_nil] at h
  exact h.readsAs_piece fun ht => by rw [ht]; rfl

theorem readsAs_trailing (t : List Phrase) :
    ReadsAs (trailing Phrase.text t) (transactionsOf (piece t)) := by
  have h := Lists.nil.trailing t
  simp only [List.nil_append] at h
  exact h.readsAs_piece fun ht => by rw [ht]; rfl

/-! Where the first comment stands. -/

/-- The first comment of a program stands behind some transactions and the front of the next one. -/
inductive FirstComment (program before : Written) :
    (front back : List Phrase) → (behind : Written) → Prop where
  | in_front {front : List Phrase} {f : Phrase} {back : List Phrase} {behind : Written}
    (split : program = before ++ (front ++ f :: back) :: behind)
    (bare_before : ∀ t ∈ before, ∀ g ∈ t, g.Bare) (bare_front : ∀ g ∈ front, g.Bare)
    (comment : f.before ≠ []) : FirstComment program before front (f :: back) behind
  | behind {front : List Phrase} {f : Phrase} {back : List Phrase} {behind : Written}
    (split : program = before ++ (front ++ f :: back) :: behind)
    (bare_before : ∀ t ∈ before, ∀ g ∈ t, g.Bare) (bare_front : ∀ g ∈ front, g.Bare)
    (no_comment : f.before = []) (comment : f.after ≠ []) :
    FirstComment program before (front ++ [f]) back behind

theorem exists_first {α : Type} {p : α → Prop} {xs : List α} (h : ∃ x ∈ xs, ¬ p x) :
    ∃ front x back, xs = front ++ x :: back ∧ (∀ y ∈ front, p y) ∧ ¬ p x := by
  classical
  have hsome : (xs.find? fun x => ¬ p x).isSome := by simpa using h
  obtain ⟨x, hx⟩ := Option.isSome_iff_exists.mp hsome
  obtain ⟨hp, front, back, hxs, hfront⟩ := List.find?_eq_some_iff_append.mp hx
  exact ⟨front, x, back, hxs, by simpa using hfront, by simpa using hp⟩

theorem exists_firstComment {program : Written} (h : ∃ t ∈ program, ∃ f ∈ t, ¬ f.Bare) :
    ∃ before front back behind, FirstComment program before front back behind := by
  have hsome : ∃ t ∈ program, ¬ ∀ f ∈ t, f.Bare := by
    obtain ⟨t, ht, f, hf, hbare⟩ := h
    exact ⟨t, ht, fun hall => hbare (hall f hf)⟩
  obtain ⟨before, t, behind, hprogram, hbefore, ht⟩ := exists_first hsome
  have hsome' : ∃ f ∈ t, ¬ f.Bare := by simpa using ht
  obtain ⟨front, f, back, rfl, hfront, hf⟩ := exists_first hsome'
  by_cases hb : f.before = []
  · have ha : f.after ≠ [] := fun ha => hf ⟨hb, ha⟩
    exact ⟨_, _, _, _, .behind hprogram hbefore hfront hb ha⟩
  · exact ⟨_, _, _, _, .in_front hprogram hbefore hfront hb⟩

theorem programText_of_bare {program : Written} (h : ∀ t ∈ program, ∀ f ∈ t, f.Bare) :
    programText Phrase.commented program = programText Phrase.text program := by
  refine List.flatMap_congr fun t ht => ?_
  rw [transactionText, transactionText, List.map_congr_left fun f hf => (h t ht f hf).commented_eq]

theorem leading_of_bare {t : List Phrase} (h : ∀ f ∈ t, f.Bare) :
    leading Phrase.commented t = leading Phrase.text t :=
  List.flatMap_congr fun f hf => by rw [(h f hf).commented_eq]

theorem exists_comment_text {comments : List Comment} (h : comments ≠ []) :
    ∃ rest, comments.flatMap Comment.text = '(' :: rest := by
  obtain ⟨c, comments, rfl⟩ := List.exists_cons_of_ne_nil h
  exact ⟨_, rfl⟩

theorem align_of_first_comment {front behind : List Char}
    (h : closes 0 (front ++ '(' :: behind) = true) (hfront : '(' ∉ front) :
    align (front ++ '(' :: behind) = .ok ('(' :: behind ++ front) := by
  obtain ⟨hnested, hcount⟩ := (closes_iff_nested _).mp h
  obtain ⟨start, halign, -, hopen, hfirst⟩ := align_of_comments hcount (by simp)
  have hd : depth (front ++ '(' :: behind) = 0 := by
    rw [depth, hcount]
    omega
  have hnot : ¬ start < front.length := by
    intro hlt
    rw [List.getElem?_append_left hlt] at hopen
    exact hfront (List.mem_of_getElem? hopen)
  -- nothing is closed in front of the first comment, so turning it away leaves no prefix too low
  have hlow : Nested ((front ++ '(' :: behind).rotate front.length) := by
    rw [← turn_eq_rotate (by simp), nested_turn_iff hd (by simp)]
    intro n
    have hn := (nested_iff_depth _).mp hnested n
    have hz : front.count '(' = 0 := List.count_eq_zero_of_not_mem hfront
    have hle : depth ((front ++ '(' :: behind).take front.length) ≤ 0 := by
      rw [List.take_left, depth, hz]
      omega
    omega
  obtain rfl : start = front.length := by
    by_contra hne
    exact hfirst front.length (by omega) (by simp) hlow
  rw [halign, List.rotate_append_length_eq]

theorem Shows.no_parenthesis {code : List Char} (h : Shows code code) {c : Char} (hc : c ∈ code) :
    c ≠ '(' ∧ c ≠ ')' := by
  rw [← h.strip_eq] at hc
  exact mem_stripFrom hc

theorem parse_of_first_comment {front behind code : List Char} (hf : Shows front front)
    (hb : Shows ('(' :: behind) code) :
    parse (front ++ '(' :: behind) = parseCode (dropBlanks (code ++ front)) := by
  have hno : '(' ∉ front := fun hm => (hf.no_parenthesis hm).1 rfl
  rw [parse_of_align (align_of_first_comment (hf.append hb).closed hno), (hb.append hf).strip_eq]

/-- A program from its first comment on, behind which some commands follow, then the transactions
behind them, those in front and at last the commands in front of the comment. -/
theorem parse_cut {before behind : Written} (hbefore : ∀ t ∈ before, t ≠ [])
    (hbehind : ∀ t ∈ behind, t ≠ []) {front back : List Phrase} {frontText backText tail : List Char}
    (hfront : ReadsAs frontText (transactionsOf (piece front))) (hcode : Shows frontText frontText)
    (hback : ReadsAs backText (transactionsOf (piece back)))
    (htail : Shows ('(' :: tail) (backText ++ ';' :: programText Phrase.text behind)) :
    parse (programText Phrase.text before ++ frontText ++ '(' :: tail) =
      .ok (transactionsOf (piece back ++ behind ++ before ++ piece front)) := by
  have hopening := (shows_programText Phrase.shows_text before).append hcode
  have hreads := hback.append_semicolon
    (readsAs_programText hbehind (readsAs_programText hbefore hfront))
  rw [parse_of_first_comment hopening htail]
  simpa [ReadsAs, transactionsOf] using hreads

namespace FirstComment

variable {program before behind : Written} {front back : List Phrase}

theorem split_eq (h : FirstComment program before front back behind) :
    program = before ++ (front ++ back) :: behind := by
  cases h with
  | in_front split => exact split
  | behind split => simpa using split

theorem not_bare (h : FirstComment program before front back behind) :
    ¬ ∀ t ∈ program, ∀ f ∈ t, f.Bare := by
  intro hbare
  cases h with
  | @in_front front f back behind split _ _ comment =>
    have ht : front ++ f :: back ∈ program := by simp [split]
    have hf : f.Bare := hbare _ ht f (by simp)
    exact comment hf.1
  | @behind front f back behind split _ _ _ comment =>
    have ht : front ++ f :: back ∈ program := by simp [split]
    have hf : f.Bare := hbare _ ht f (by simp)
    exact comment hf.2

theorem parse_eq (h : FirstComment program before front back behind)
    (hne : ∀ t ∈ program, t ≠ []) :
    parse (programText Phrase.commented program) =
      .ok (transactionsOf (piece back ++ behind ++ before ++ piece front)) := by
  have hbefore : ∀ t ∈ before, t ≠ [] := fun t ht => hne t (by simp [h.split_eq, ht])
  have hbehind : ∀ t ∈ behind, t ≠ [] := fun t ht => hne t (by simp [h.split_eq, ht])
  have hend := shows_semicolon.append (shows_programText Phrase.shows_commented behind)
  cases h with
  | @in_front _ f back _ split bare_before bare_front comment =>
    obtain ⟨rest, hrest⟩ := exists_comment_text comment
    have hcode := shows_leading Phrase.shows_text front
    have hback := (f.lists_trailing back).readsAs_piece (by simp)
    have htail := f.shows_commented.append ((shows_trailing Phrase.shows_commented back).append hend)
    rw [split, programText_append, programText_cons, transactionText_append_cons,
      programText_of_bare bare_before, leading_of_bare bare_front]
    rw [Phrase.commented, hrest] at htail ⊢
    have hh := parse_cut hbefore hbehind (readsAs_leading front) hcode hback (by simpa using htail)
    simpa using hh
  | @behind front f _ _ split bare_before bare_front no_comment comment =>
    obtain ⟨rest, hrest⟩ := exists_comment_text comment
    have hcode := (shows_leading Phrase.shows_text front).append f.shows_text
    have hfront : ReadsAs (leading Phrase.text front ++ f.text)
        (transactionsOf (piece (front ++ [f]))) := by
      have hl := f.spells.lists.leading front
      have hc : commandsOf front ++ [f.command] = commandsOf (front ++ [f]) := by simp [commandsOf]
      rw [hc] at hl
      exact hl.readsAs_piece (by simp)
    have htail := (shows_comments f.after).append
      ((shows_trailing Phrase.shows_commented back).append hend)
    rw [split, programText_append, programText_cons, transactionText_append_cons,
      programText_of_bare bare_before, leading_of_bare bare_front]
    rw [hrest] at htail
    have hh := parse_cut hbefore hbehind hfront hcode (readsAs_trailing back) (by simpa using htail)
    simpa [Phrase.commented, no_comment, hrest] using hh

theorem isRotated (h : FirstComment program before front back behind)
    (hne : ∀ t ∈ program, t ≠ []) (hcut : front = [] ∨ back = []) :
    transactionsOf (piece back ++ behind ++ before ++ piece front) ~r transactionsOf program := by
  have ht : front ++ back ≠ [] := hne _ (by simp [h.split_eq])
  rw [h.split_eq]
  apply List.IsRotated.map
  rcases hcut with rfl | rfl
  · have hb : back ≠ [] := by simpa using ht
    have hr : ([back] ++ behind) ++ before ~r before ++ ([back] ++ behind) := List.isRotated_append
    simpa [piece, hb] using hr
  · have hf : front ≠ [] := by simpa using ht
    have hr : behind ++ (before ++ [front]) ~r (before ++ [front]) ++ behind := List.isRotated_append
    simpa [piece, hf] using hr

end FirstComment

theorem parse_of_first_semicolon {front behind : List Char} (hf : Shows front front)
    (hb : Shows behind behind) (hno : ';' ∉ front) :
    parse (front ++ ';' :: behind) = parseCode (dropBlanks (behind ++ front ++ [';'])) := by
  have hshows : Shows (front ++ ';' :: behind) (front ++ ';' :: behind) :=
    hf.append (shows_semicolon.append hb)
  have hturned := (hb.append hf).append shows_semicolon
  have hcount := ((closes_iff_nested _).mp hshows.closed).2
  have hopen : '(' ∉ front ++ ';' :: behind := fun hm => (hshows.no_parenthesis hm).1 rfl
  have hrotate : (front ++ ';' :: behind).rotate (front.length + 1) = behind ++ front ++ [';'] := by
    have hr := List.rotate_append_length_eq (front ++ [';']) behind
    simpa using hr
  have halign := align_of_codeOnly hcount hopen
  rw [codeStart_of_semicolon hno, hrotate] at halign
  rw [parse_of_align halign, hturned.strip_eq]

theorem parse_plain {program : Written} (hne : ∀ t ∈ program, t ≠ []) :
    parse (programText Phrase.text program) = .ok ((transactionsOf program).rotate 1) := by
  cases program with
  | nil => rfl
  | cons t behind =>
    obtain ⟨ht, hbehind⟩ := List.forall_mem_cons.mp hne
    obtain ⟨f, back, rfl⟩ := List.exists_cons_of_ne_nil ht
    have hlists := f.lists_trailing back
    have hfirst := f.shows_text.append (shows_trailing Phrase.shows_text back)
    have hrest := shows_programText Phrase.shows_text behind
    have hreads := readsAs_programText hbehind
      ((hlists.readsAs (by simp [commandsOf])).append_semicolon .nil)
    have hh := parse_of_first_semicolon hfirst hrest hlists.no_semicolon
    rw [programText_cons, transactionText_cons]
    rw [ReadsAs] at hreads
    simp only [List.append_assoc, List.singleton_append] at hh hreads ⊢
    rw [hh, hreads]
    simp [transactionsOf, List.rotate_cons_succ]

/-- With comments around its commands a program reads as it does without them, up to its start on the
circle, as long as the first comment does not stand between two commands of a transaction. If it does,
the program starts with the commands of that transaction behind the comment and ends with those in
front of it. -/
theorem comments_keep_transactions (program : Written) (h : ∀ t ∈ program, t ≠ []) :
    ∃ plain commented,
      parse (programText Phrase.text program) = .ok plain ∧
      parse (programText Phrase.commented program) = .ok commented ∧
      plain ~r transactionsOf program ∧
      ((¬ ∃ before front back behind, FirstComment program before front back behind ∧
          front ≠ [] ∧ back ≠ []) → commented ~r plain) ∧
      ∀ before front back behind, FirstComment program before front back behind →
        front ≠ [] → back ≠ [] →
        commented = transactionsOf (back :: behind ++ before ++ [front]) := by
  have hplain := parse_plain h
  have hturned : transactionsOf program ~r (transactionsOf program).rotate 1 := ⟨1, rfl⟩
  by_cases hbare : ∀ t ∈ program, ∀ f ∈ t, f.Bare
  · refine ⟨_, _, hplain, by rw [programText_of_bare hbare, hplain], hturned.symm, fun _ => .refl _, ?_⟩
    intro before front back behind hfirst
    exact absurd hbare hfirst.not_bare
  · obtain ⟨before, front, back, behind, hfirst⟩ := exists_firstComment (by simpa using hbare)
    refine ⟨_, _, hplain, hfirst.parse_eq h, hturned.symm, ?_, ?_⟩
    · intro hnone
      have hcut : front = [] ∨ back = [] := by
        by_contra hne
        rw [not_or] at hne
        exact hnone ⟨before, front, back, behind, hfirst, hne⟩
      exact (hfirst.isRotated h hcut).trans hturned
    · intro before' front' back' behind' hfirst' hf hb
      -- any description of the first comment describes what was read
      have hsame := Except.ok.inj ((hfirst.parse_eq h).symm.trans (hfirst'.parse_eq h))
      rw [hsame]
      simp [piece, hf, hb]

/-- A command in its shortest text, behind some comments. -/
def Phrase.ofCommand (comments : List Comment) (c : Command) : Phrase :=
  { before := comments, text := c.text, command := c, spells := spells_text c }

def Comment.ofCloses (inside : List Char) (h : closes 0 inside = true) : Comment :=
  { inside
    nested := ((closes_iff_nested inside).mp h).1
    count_eq := ((closes_iff_nested inside).mp h).2 }

def remark : Comment := .ofCloses "a;(b,)".toList (by decide)

def remarked : Written :=
  [[.ofCommand [] ⟨.output, .expect, 0⟩],
    [.ofCommand [] ⟨.output, .add, 1⟩, .ofCommand [remark] ⟨.input, .sub, 2⟩]]

theorem remarked_program_is_cut :
    (∀ t ∈ remarked, t ≠ []) ∧
      programText Phrase.commented remarked = "O=0;O+1,(a;(b,))I-2;".toList ∧
      parse (programText Phrase.commented remarked) =
        .ok [[⟨.input, .sub, 2⟩], [⟨.output, .expect, 0⟩], [⟨.output, .add, 1⟩]] := by
  have hne : ∀ t ∈ remarked, t ≠ [] := by simp [remarked]
  have hfirst : FirstComment remarked [[.ofCommand [] ⟨.output, .expect, 0⟩]]
      [.ofCommand [] ⟨.output, .add, 1⟩] [.ofCommand [remark] ⟨.input, .sub, 2⟩] [] :=
    .in_front rfl (by simp [Phrase.Bare, Phrase.ofCommand]) (by simp [Phrase.Bare, Phrase.ofCommand])
      (by simp [Phrase.ofCommand])
  obtain ⟨plain, commented, -, hcommented, -, -, hcut⟩ := comments_keep_transactions remarked hne
  refine ⟨hne, rfl, ?_⟩
  rw [hcommented, hcut _ _ _ _ hfirst (by simp) (by simp)]
  rfl

def annotated : Written :=
  [[.ofCommand [] ⟨.output, .add, 1⟩, .ofCommand [.ofCloses ['x'] rfl] ⟨.input, .add, 2⟩]]

theorem comment_between_commands_cuts :
    programText Phrase.text annotated = "O+1,I+2;".toList ∧
      programText Phrase.commented annotated = "O+1,(x)I+2;".toList ∧
      parse (programText Phrase.text annotated) = .ok [[⟨.output, .add, 1⟩, ⟨.input, .add, 2⟩]] ∧
      parse (programText Phrase.commented annotated) = .ok [[⟨.input, .add, 2⟩], [⟨.output, .add, 1⟩]] ∧
      ¬ ([[⟨.input, .add, 2⟩], [⟨.output, .add, 1⟩]] : List Transaction) ~r
        [[⟨.output, .add, 1⟩, ⟨.input, .add, 2⟩]] := by
  have hne : ∀ t ∈ annotated, t ≠ [] := by simp [annotated]
  have hfirst : FirstComment annotated [] [.ofCommand [] ⟨.output, .add, 1⟩]
      [.ofCommand [.ofCloses ['x'] rfl] ⟨.input, .add, 2⟩] [] :=
    .in_front rfl (by simp) (by simp [Phrase.Bare, Phrase.ofCommand]) (by simp [Phrase.ofCommand])
  have hplain := (parse_plain hne).trans (congrArg Except.ok (List.rotate_singleton _ 1))
  refine ⟨rfl, rfl, hplain, hfirst.parse_eq hne, fun hr => ?_⟩
  have hlength := hr.perm.length_eq
  simp at hlength

end Esolang.Ledger
