import Mathlib.Data.List.Rotate
import Esolang.Ledger.Program
import Esolang.Proofs.Text.Brackets

/-! Turning a ledger source to where its comments begin. On a circle with as many opening as closing
parentheses, the places where the depth of comments is lowest are those from which no comment is
closed before it is opened, and one of them is in front of a parenthesis that opens. -/

namespace Esolang.Ledger

/-- No prefix closes more comments than it opens. -/
def Nested (text : List Char) : Prop :=
  ∀ n, (text.take n).count ')' ≤ (text.take n).count '('

def comments : Brackets :=
  { opens := fun c => c == '(', closer := ')', opens_closer := rfl }

def depth (text : List Char) : Int := text.count '(' - text.count ')'

theorem depth_append (text behind : List Char) :
    depth (text ++ behind) = depth text + depth behind := by
  simp only [depth, List.count_append]
  omega

theorem nested_iff_depth (text : List Char) : Nested text ↔ ∀ n, 0 ≤ depth (text.take n) := by
  constructor
  · intro h n
    have hn := h n
    unfold depth
    omega
  · intro h n
    have hn := h n
    unfold depth at hn
    omega

theorem closes_iff_comments (opened : Nat) (text : List Char) :
    closes opened text = true ↔ comments.Closes opened text := by
  induction text generalizing opened with
  | nil => simp [closes, Brackets.Closes]
  | cons c rest ih =>
    by_cases ho : c = '('
    · simp [closes, Brackets.Closes, comments, ho, ih]
    · by_cases hc : c = ')'
      · cases opened <;> simp [closes, Brackets.Closes, comments, hc, ih]
      · simp [closes, Brackets.Closes, comments, ho, hc, ih]

theorem closes_iff_nested (text : List Char) :
    closes 0 text = true ↔ Nested text ∧ text.count '(' = text.count ')' := by
  rw [closes_iff_comments, ← Brackets.balanced_iff_closes]
  rfl

theorem depth_take_add (text : List Char) (start n : Nat) :
    depth (text.take (start + n)) = depth (text.take start) + depth ((text.drop start).take n) := by
  rw [List.take_add, depth_append]

theorem depth_drop (text : List Char) (start : Nat) :
    depth (text.drop start) = depth text - depth (text.take start) := by
  have h := depth_append (text.take start) (text.drop start)
  rw [List.take_append_drop] at h
  omega

theorem depth_take_turn_front {text : List Char} {start n : Nat} (h : start + n ≤ text.length) :
    depth ((turn text start).take n) = depth (text.take (start + n)) - depth (text.take start) := by
  have hn : n ≤ (text.drop start).length := by
    rw [List.length_drop]
    omega
  rw [turn, List.take_append_of_le_length hn, depth_take_add]
  omega

/-- Past the end of the source a turned text starts the source again. -/
theorem depth_take_turn_back {text : List Char} (hd : depth text = 0) {start n : Nat}
    (hn : n ≤ start) :
    depth ((turn text start).take (text.length - start + n)) =
      depth (text.take n) - depth (text.take start) := by
  have hl : text.length - start = (text.drop start).length := List.length_drop.symm
  rw [turn, hl, List.take_length_add_append, depth_append, depth_drop, hd, List.take_take,
    Nat.min_eq_left hn]
  omega

theorem length_turn (text : List Char) (start : Nat) : (turn text start).length = text.length := by
  simp [turn]
  omega

theorem nested_turn_iff {text : List Char} (hd : depth text = 0) {start : Nat}
    (hs : start ≤ text.length) :
    Nested (turn text start) ↔ ∀ n, depth (text.take start) ≤ depth (text.take n) := by
  rw [nested_iff_depth]
  constructor
  · intro h n
    by_cases hn : n < start
    · have hh := h (text.length - start + n)
      rw [depth_take_turn_back hd (by omega)] at hh
      omega
    · by_cases hl : n ≤ text.length
      · have hh := h (n - start)
        rw [depth_take_turn_front (by omega), Nat.add_sub_cancel' (by omega)] at hh
        omega
      · have hall : text.take n = text.take text.length := by
          rw [List.take_length, List.take_of_length_le (by omega)]
        have hh := h (text.length - start)
        rw [depth_take_turn_front (by omega), Nat.add_sub_cancel' hs] at hh
        rw [hall]
        omega
  · intro h n
    by_cases hn : start + n ≤ text.length
    · rw [depth_take_turn_front hn]
      have hh := h (start + n)
      omega
    · by_cases hl : n ≤ text.length
      · have hk : n = text.length - start + (n - (text.length - start)) := by omega
        rw [hk, depth_take_turn_back hd (by omega)]
        have hh := h (n - (text.length - start))
        omega
      · have hlength := length_turn text start
        have hk : (turn text start).take n =
            (turn text start).take (text.length - start + start) := by
          rw [List.take_of_length_le (by omega), List.take_of_length_le (by omega)]
        rw [hk, depth_take_turn_back hd (Nat.le_refl _)]
        omega

theorem exists_lowest (text : List Char) : ∃ m, ∀ n, depth (text.take m) ≤ depth (text.take n) := by
  induction text with
  | nil => exact ⟨0, fun n => by simp⟩
  | cons c rest ih =>
    obtain ⟨m, hm⟩ := ih
    have hc : ∀ n, depth ((c :: rest).take (n + 1)) = depth [c] + depth (rest.take n) :=
      fun n => depth_append [c] (rest.take n)
    have hz : depth ((c :: rest).take 0) = 0 := rfl
    by_cases hlow : depth [c] + depth (rest.take m) ≤ 0
    · refine ⟨m + 1, fun n => ?_⟩
      cases n with
      | zero => rw [hc, hz]; exact hlow
      | succ n =>
        have hn := hm n
        rw [hc, hc]
        omega
    · refine ⟨0, fun n => ?_⟩
      cases n with
      | zero => exact Int.le_refl _
      | succ n =>
        have hn := hm n
        rw [hc, hz]
        omega

/-- Up to the next parenthesis that opens, the depth can only fall. -/
theorem exists_opener_not_above {text : List Char} {m : Nat} (h : '(' ∈ text.drop m) :
    ∃ p, text[p]? = some '(' ∧ depth (text.take p) ≤ depth (text.take m) := by
  obtain ⟨front, back, hdrop, hfront⟩ := List.eq_append_cons_of_mem h
  refine ⟨m + front.length, ?_, ?_⟩
  · rw [← List.getElem?_drop, hdrop]
    simp
  · have hf : front.count '(' = 0 := List.count_eq_zero_of_not_mem hfront
    rw [depth_take_add, hdrop, List.take_left']
    · unfold depth
      omega
    · rfl

theorem exists_lowest_opener {text : List Char} (hd : depth text = 0) (h : '(' ∈ text) :
    ∃ p, text[p]? = some '(' ∧ ∀ n, depth (text.take p) ≤ depth (text.take n) := by
  obtain ⟨m, hm⟩ := exists_lowest text
  by_cases hopen : '(' ∈ text.drop m
  · obtain ⟨p, hp, hle⟩ := exists_opener_not_above hopen
    refine ⟨p, hp, fun n => ?_⟩
    have hn := hm n
    omega
  · -- Nothing opens any more, so the depth cannot be below the zero that it ends with.
    have hc : (text.drop m).count '(' = 0 := List.count_eq_zero_of_not_mem hopen
    have hdrop := depth_drop text m
    have hdepth : depth (text.drop m) ≤ 0 := by
      unfold depth
      omega
    have hstart : '(' ∈ text.drop 0 := h
    obtain ⟨p, hp, hle⟩ := exists_opener_not_above hstart
    have hz : depth (text.take 0) = 0 := rfl
    refine ⟨p, hp, fun n => ?_⟩
    have hn := hm n
    omega

theorem mem_positions {c : Char} {text : List Char} {i : Nat} :
    i ∈ positions c text ↔ text[i]? = some c := by
  simp only [positions, List.mem_filterMap, Prod.exists, List.mk_mem_zipIdx_iff_getElem?]
  constructor
  · rintro ⟨d, j, hd, hc⟩
    by_cases he : d = c
    · obtain rfl : j = i := by simpa [he] using hc
      rw [hd, he]
    · simp [he] at hc
  · intro h
    exact ⟨c, i, h, by simp⟩

theorem pairwise_positions (c : Char) (text : List Char) :
    (positions c text).Pairwise (· < ·) := by
  have hz : (text.zipIdx.map Prod.snd).Pairwise (· < ·) := by
    rw [List.zipIdx_map_snd]
    exact List.pairwise_lt_range'
  rw [List.pairwise_map] at hz
  rw [positions, List.pairwise_filterMap]
  refine hz.imp fun {x y} hlt i hi j hj => ?_
  by_cases hx : x.1 = c
  · by_cases hy : y.1 = c
    · simp only [hx, hy, if_true, Option.some.injEq] at hi hj
      omega
    · simp [hy] at hj
  · simp [hx] at hi

theorem commentStart?_eq_some {text : List Char} {start : Nat}
    (h : commentStart? text = some start) :
    text[start]? = some '(' ∧ closes 0 (turn text start) = true ∧
      ∀ i < start, text[i]? = some '(' → closes 0 (turn text i) = false := by
  obtain ⟨hc, front, back, hsplit, hfront⟩ := List.find?_eq_some_iff_append.mp h
  have hmem : start ∈ positions '(' text := by
    rw [hsplit]
    simp
  refine ⟨mem_positions.mp hmem, hc, fun i hi ht => ?_⟩
  have hp := pairwise_positions '(' text
  rw [hsplit, List.pairwise_append, List.pairwise_cons] at hp
  have hm : i ∈ front ++ start :: back := hsplit ▸ mem_positions.mpr ht
  rcases List.mem_append.mp hm with hm | hm
  · simpa using hfront i hm
  · rcases List.mem_cons.mp hm with rfl | hm
    · omega
    · have hlt := hp.2.1.1 i hm
      omega

theorem codeStart_le (text : List Char) : codeStart text ≤ text.length := by
  have hlt : ∀ c i, text.idxOf? c = some i → i < text.length :=
    fun c i h => (List.idxOf?_eq_some_iff.mp h).1
  have hbehind : ∀ c, ∀ i ∈ (text.idxOf? c).map (· + 1), i ≤ text.length := by
    intro c i hi
    obtain ⟨j, hj, rfl⟩ := Option.map_eq_some_iff.mp hi
    have h := hlt c j hj
    omega
  have hbefore : ∀ c, ∀ i ∈ (text.idxOf? c).map fun i => (i + text.length - 1) % text.length,
      i ≤ text.length := by
    intro c i hi
    obtain ⟨j, hj, rfl⟩ := Option.map_eq_some_iff.mp hi
    have h := hlt c j hj
    exact (Nat.mod_lt _ (by omega)).le
  have hor : ∀ o p : Option Nat, (∀ i ∈ o, i ≤ text.length) → (∀ i ∈ p, i ≤ text.length) →
      ∀ i ∈ o.or p, i ≤ text.length := by
    intro o p ho hp i hi
    cases o with
    | none => exact hp i hi
    | some j => exact ho i hi
  have hall := hor _ _ (hbehind ';') <| hor _ _ (hbehind ',') <| hor _ _ (hbefore '+') <|
    hor _ _ (hbefore '-') (hbefore '=')
  have hget : ∀ o : Option Nat, (∀ i ∈ o, i ≤ text.length) → o.getD 0 ≤ text.length := by
    intro o ho
    cases o with
    | none => exact Nat.zero_le _
    | some i => exact ho i rfl
  exact hget _ hall

theorem codeStart_of_semicolon {front : List Char} (h : ';' ∉ front) (behind : List Char) :
    codeStart (front ++ ';' :: behind) = front.length + 1 := by
  have hi : (front ++ ';' :: behind).idxOf? ';' = some front.length := by
    rw [List.idxOf?_eq_some_iff]
    refine ⟨by simp, by simp, fun j hj he => h ?_⟩
    rw [List.getElem_append_left hj] at he
    exact he ▸ List.getElem_mem hj
  simp [codeStart, hi]

theorem turn_eq_rotate {text : List Char} {start : Nat} (h : start ≤ text.length) :
    turn text start = text.rotate start := (List.rotate_eq_drop_append_take h).symm

theorem count_rotate (c : Char) (text : List Char) (start : Nat) :
    (text.rotate start).count c = text.count c := (text.rotate_perm start).count_eq c

theorem exists_commentStart {text : List Char} (hcount : text.count '(' = text.count ')')
    (h : '(' ∈ text) : ∃ start, commentStart? text = some start := by
  have hd : depth text = 0 := by
    unfold depth
    omega
  obtain ⟨p, hp, hlow⟩ := exists_lowest_opener hd h
  obtain ⟨hlt, -⟩ := List.getElem?_eq_some_iff.mp hp
  have hnested : Nested (turn text p) := (nested_turn_iff hd hlt.le).mpr hlow
  have hcloses : closes 0 (turn text p) = true := by
    rw [closes_iff_nested]
    refine ⟨hnested, ?_⟩
    rw [turn_eq_rotate hlt.le, count_rotate, count_rotate, hcount]
  cases hs : commentStart? text with
  | some start => exact ⟨start, rfl⟩
  | none =>
    have hnone := List.find?_eq_none.mp hs p (mem_positions.mpr hp)
    exact absurd hcloses hnone

theorem align_of_unbalanced {source : List Char} (h : source.count '(' ≠ source.count ')') :
    align source = .error (.unbalancedComments (source.count '(') (source.count ')')) := by
  simp [align, h]

theorem align_of_codeOnly {source : List Char} (h : source.count '(' = source.count ')')
    (ho : '(' ∉ source) : align source = .ok (source.rotate (codeStart source)) := by
  have hz : source.count '(' = 0 := List.count_eq_zero_of_not_mem ho
  simp [align, ← h, hz, turn_eq_rotate (codeStart_le source)]

theorem align_of_commentStart {source : List Char} {start : Nat}
    (h : source.count '(' = source.count ')') (hs : commentStart? source = some start) :
    align source = .ok (turn source start) := by
  have hopen : '(' ∈ source := List.mem_of_getElem? (commentStart?_eq_some hs).1
  have hnz : source.count '(' ≠ 0 := (List.count_pos_iff.mpr hopen).ne'
  simp [align, ← h, hnz, hs]

theorem align_of_comments {source : List Char} (h : source.count '(' = source.count ')')
    (ho : '(' ∈ source) : ∃ start, align source = .ok (source.rotate start) ∧
      Nested (source.rotate start) ∧ source[start]? = some '(' ∧
        ∀ i < start, source[i]? = some '(' → ¬ Nested (source.rotate i) := by
  obtain ⟨start, hs⟩ := exists_commentStart h ho
  obtain ⟨hopen, hcloses, hfirst⟩ := commentStart?_eq_some hs
  obtain ⟨hlt, -⟩ := List.getElem?_eq_some_iff.mp hopen
  have halign := align_of_commentStart h hs
  rw [turn_eq_rotate hlt.le] at halign hcloses
  refine ⟨start, halign, ((closes_iff_nested _).mp hcloses).1, hopen, fun i hi hopen' hn => ?_⟩
  have hcount : (source.rotate i).count '(' = (source.rotate i).count ')' := by
    rw [count_rotate, count_rotate, h]
  have hyes := (closes_iff_nested _).mpr ⟨hn, hcount⟩
  have hno := hfirst i hi hopen'
  rw [turn_eq_rotate (by omega), hyes] at hno
  exact Bool.noConfusion hno

theorem nested_of_no_closer {text : List Char} (h : text.count ')' = 0) : Nested text := by
  intro n
  have hle : (text.take n).count ')' ≤ text.count ')' := (text.take_sublist n).count_le ')'
  omega

/-- A source can be turned exactly if it opens and closes the same number of comments, which leaves
no other error. The result is a turned source in which comments are closed in order; if there are
any, it begins at the first parenthesis of the source from which they are. -/
theorem align_turns_to_comments (source : List Char) :
    ((∃ aligned, align source = .ok aligned) ↔ source.count '(' = source.count ')') ∧
    (∀ e, align source = .error e ↔ source.count '(' ≠ source.count ')' ∧
      e = .unbalancedComments (source.count '(') (source.count ')')) ∧
    align source ≠ .error .noValidRotation ∧
    ∀ aligned, align source = .ok aligned → Nested aligned ∧
      ∃ start, aligned = source.rotate start ∧ ('(' ∈ source ∨ ')' ∈ source →
        source[start]? = some '(' ∧
          ∀ i < start, source[i]? = some '(' → ¬ Nested (source.rotate i)) := by
  by_cases h : source.count '(' = source.count ')'
  · have hok : ∃ start, align source = .ok (source.rotate start) ∧
        Nested (source.rotate start) ∧ ('(' ∈ source ∨ ')' ∈ source →
          source[start]? = some '(' ∧
            ∀ i < start, source[i]? = some '(' → ¬ Nested (source.rotate i)) := by
      by_cases ho : '(' ∈ source
      · obtain ⟨start, halign, hnested, hfirst⟩ := align_of_comments h ho
        exact ⟨start, halign, hnested, fun _ => hfirst⟩
      · have hclosed : source.count ')' = 0 := by
          rw [← h]
          exact List.count_eq_zero_of_not_mem ho
        refine ⟨codeStart source, align_of_codeOnly h ho, ?_, fun hor => ?_⟩
        · apply nested_of_no_closer
          rw [count_rotate, hclosed]
        · rcases hor with hopen | hclose
          · exact absurd hopen ho
          · exact absurd hclosed (List.count_pos_iff.mpr hclose).ne'
    obtain ⟨start, halign, hnested, hfirst⟩ := hok
    refine ⟨iff_of_true ⟨_, halign⟩ h, fun e => ?_, ?_, fun aligned ha => ?_⟩
    · simp [halign, h]
    · simp [halign]
    · obtain rfl : source.rotate start = aligned := by simpa [halign] using ha
      exact ⟨hnested, start, rfl, hfirst⟩
  · have halign := align_of_unbalanced h
    refine ⟨iff_of_false ?_ h, fun e => ?_, ?_, fun aligned ha => ?_⟩
    · rintro ⟨aligned, ha⟩
      simp [halign] at ha
    · simp [halign, h, eq_comm]
    · simp [halign]
    · simp [halign] at ha

end Esolang.Ledger
