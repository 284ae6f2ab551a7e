import Mathlib.Data.Int.ModEq
import Esolang.Proofs.Ledger.Alignment

/-! Comments on a circle. Wherever a source starts, it is turned to a place where the depth of
comments is lowest. Between two such places comments are closed in order, so the same characters of
the circle lie outside all of them. -/

namespace Esolang.Ledger

theorem stripFrom_append (level : Int) (text behind : List Char) :
    stripFrom level (text ++ behind) =
      stripFrom level text ++ stripFrom (level + depth text) behind := by
  induction text generalizing level with
  | nil => simp [stripFrom, depth]
  | cons c rest ih =>
    have hd : depth (c :: rest) = depth [c] + depth rest := depth_append [c] rest
    by_cases ho : c = '('
    · subst ho
      have he : level + depth ('(' :: rest) = level + 1 + depth rest := by
        rw [hd, Int.add_assoc]
        rfl
      simp [stripFrom, ih, he]
    · by_cases hc : c = ')'
      · subst hc
        have he : level + depth (')' :: rest) = level - 1 + depth rest := by
          rw [hd, Int.sub_eq_add_neg, Int.add_assoc]
          rfl
        simp [stripFrom, ih, he]
      · have hz : depth [c] = 0 := by simp [ho, hc, depth]
        have he : depth (c :: rest) = depth rest := by omega
        by_cases hl : level = 0
        · simp [stripFrom, ho, hc, hl, ih, he]
        · simp [stripFrom, ho, hc, hl, ih, he]

theorem stripComments_append (text behind : List Char) :
    stripComments (text ++ behind) = stripComments text ++ stripFrom (depth text) behind := by
  rw [stripComments, stripFrom_append, Int.zero_add]
  rfl

theorem mem_stripFrom {level : Int} {c : Char} {text : List Char} (h : c ∈ stripFrom level text) :
    c ≠ '(' ∧ c ≠ ')' := by
  induction text generalizing level with
  | nil => simp [stripFrom] at h
  | cons d rest ih =>
    by_cases ho : d = '('
    · exact ih (by simpa [stripFrom, ho] using h)
    · by_cases hc : d = ')'
      · exact ih (by simpa [stripFrom, hc] using h)
      · by_cases hl : level = 0
        · obtain rfl | h : c = d ∨ c ∈ stripFrom level rest := by
            simpa [stripFrom, ho, hc, hl] using h
          · exact ⟨ho, hc⟩
          · exact ih h
        · exact ih (by simpa [stripFrom, ho, hc, hl] using h)

/-- Comments are closed at a place where a text can be cut and turned without unbalancing it. -/
theorem depth_take_of_nested_rotate {text : List Char} (hd : depth text = 0) (h : Nested text)
    {m : Nat} (hm : m ≤ text.length) (hr : Nested (text.rotate m)) : depth (text.take m) = 0 := by
  rw [← turn_eq_rotate hm, nested_turn_iff hd hm] at hr
  have hle := hr 0
  have hge := (nested_iff_depth text).mp h m
  have hz : depth (text.take 0) = 0 := rfl
  omega

theorem stripComments_isRotated {text : List Char} (hd : depth text = 0) (h : Nested text) {m : Nat}
    (hm : m ≤ text.length) (hr : Nested (text.rotate m)) :
    stripComments (text.rotate m) ~r stripComments text := by
  have hcut := depth_take_of_nested_rotate hd h hm hr
  have hrest : depth (text.drop m) = 0 := by
    rw [depth_drop, hd, hcut]
    rfl
  have hstrip : stripComments text = stripComments (text.take m) ++ stripComments (text.drop m) := by
    conv_lhs => rw [← List.take_append_drop m text, stripComments_append, hcut]
    rfl
  rw [List.rotate_eq_drop_append_take hm, stripComments_append, hrest, hstrip]
  exact List.isRotated_append

/-- The character at a position is code: reading it adds to what is left without comments. -/
def CodeAt (text : List Char) (i : Nat) : Prop :=
  (stripComments (text.take i)).length < (stripComments (text.take (i + 1))).length

theorem codeAt_iff {text : List Char} {i : Nat} :
    CodeAt text i ↔ depth (text.take i) = 0 ∧ ∃ c, text[i]? = some c ∧ c ≠ '(' ∧ c ≠ ')' := by
  have hnext : stripComments (text.take (i + 1)) =
      stripComments (text.take i) ++ stripFrom (depth (text.take i)) text[i]?.toList := by
    rw [List.take_add_one, stripComments_append]
  rw [CodeAt, hnext, List.length_append]
  cases text[i]? with
  | none => simp [stripFrom]
  | some c =>
    by_cases ho : c = '('
    · simp [stripFrom, ho]
    · by_cases hc : c = ')'
      · simp [stripFrom, hc]
      · by_cases hz : depth (text.take i) = 0
        · simp [stripFrom, ho, hc, hz]
        · simp [stripFrom, ho, hc, hz]

/-- Behind a cut at which no comment is open, a turned text has the depths of the text itself. -/
theorem depth_take_rotate {text : List Char} (hd : depth text = 0) {m i : Nat}
    (hm : m ≤ text.length) (hi : i < text.length) (hcut : depth (text.take m) = 0) :
    depth ((text.rotate m).take i) = depth (text.take ((m + i) % text.length)) := by
  rw [← turn_eq_rotate hm]
  by_cases hfront : m + i < text.length
  · rw [depth_take_turn_front hfront.le, hcut, Nat.mod_eq_of_lt hfront]
    omega
  · have hk : i = text.length - m + (m + i - text.length) := by omega
    have hmod : (m + i) % text.length = m + i - text.length := by
      rw [Nat.mod_eq_sub_mod (by omega), Nat.mod_eq_of_lt (by omega)]
    conv_lhs => rw [hk]
    rw [depth_take_turn_back hd (by omega), hcut, hmod]
    omega

theorem codeAt_rotate {text : List Char} (hd : depth text = 0) (h : Nested text) {m i : Nat}
    (hm : m ≤ text.length) (hr : Nested (text.rotate m)) (hi : i < text.length) :
    CodeAt (text.rotate m) i ↔ CodeAt text ((m + i) % text.length) := by
  have hcut := depth_take_of_nested_rotate hd h hm hr
  rw [codeAt_iff, codeAt_iff, depth_take_rotate hd hm hi hcut, List.getElem?_rotate hi,
    Nat.add_comm m i]

theorem exists_turn (start other : Nat) {length : Nat} (h : 0 < length) :
    ∃ m < length, start + m ≡ other [MOD length] := by
  refine ⟨(other + start * (length - 1)) % length, Nat.mod_lt _ h, ?_⟩
  have hsum : start + (other + start * (length - 1)) = other + start * length := by
    obtain ⟨n, rfl⟩ : ∃ n, length = n + 1 := ⟨length - 1, by omega⟩
    simp only [Nat.add_sub_cancel, Nat.mul_add, Nat.mul_one]
    omega
  calc start + (other + start * (length - 1)) % length
      ≡ start + (other + start * (length - 1)) [MOD length] := (Nat.mod_modEq _ _).add_left start
    _ ≡ other [MOD length] := by simp [hsum, Nat.ModEq]

theorem rotate_eq_of_modEq {text : List Char} {start m other : Nat}
    (h : start + m ≡ other [MOD text.length]) :
    text.rotate other = (text.rotate start).rotate m := by
  rw [List.rotate_rotate, ← List.rotate_mod text other, ← List.rotate_mod text (start + m)]
  exact congrArg text.rotate h.symm

theorem align_of_count_eq {source : List Char} (h : source.count '(' = source.count ')') :
    ∃ start, align source = .ok (source.rotate start) ∧ Nested (source.rotate start) := by
  by_cases ho : '(' ∈ source
  · obtain ⟨start, halign, hnested, -⟩ := align_of_comments h ho
    exact ⟨start, halign, hnested⟩
  · refine ⟨codeStart source, align_of_codeOnly h ho, nested_of_no_closer ?_⟩
    rw [count_rotate, ← h]
    exact List.count_eq_zero_of_not_mem ho

/-- Wherever a source with as many opening as closing parentheses is cut, the same characters of the
circle are code and the same are comment: what remains without comments is turned, too, and has no
parenthesis. -/
theorem circle_keeps_comments (source : List Char) (h : source.count '(' = source.count ')')
    (k : Nat) :
    ∃ start other, align source = .ok (source.rotate start) ∧
      align (source.rotate k) = .ok (source.rotate other) ∧
      stripComments (source.rotate other) ~r stripComments (source.rotate start) ∧
      (∀ c ∈ stripComments (source.rotate start), c ≠ '(' ∧ c ≠ ')') ∧
      (∀ c ∈ stripComments (source.rotate other), c ≠ '(' ∧ c ≠ ')') ∧
      ∀ i j, i < source.length → j < source.length → start + i ≡ other + j [MOD source.length] →
        (CodeAt (source.rotate start) i ↔ CodeAt (source.rotate other) j) := by
  have hk : (source.rotate k).count '(' = (source.rotate k).count ')' := by
    rw [count_rotate, count_rotate, h]
  obtain ⟨start, halign, hstart⟩ := align_of_count_eq h
  obtain ⟨behind, hother, hnested⟩ := align_of_count_eq hk
  rw [List.rotate_rotate] at hother hnested
  have hd : depth (source.rotate start) = 0 := by
    have hcount := count_rotate '(' source start
    have hcount' := count_rotate ')' source start
    unfold depth
    omega
  have hlength : (source.rotate start).length = source.length := List.length_rotate source start
  refine ⟨start, k + behind, halign, hother, ?_, fun c => mem_stripFrom, fun c => mem_stripFrom, ?_⟩
  · by_cases hs : 0 < source.length
    · obtain ⟨m, hm, he⟩ := exists_turn start (k + behind) hs
      rw [rotate_eq_of_modEq he] at hnested ⊢
      exact stripComments_isRotated hd hstart (by omega) hnested
    · obtain rfl : source = [] := by simpa using hs
      rw [List.rotate_nil, List.rotate_nil]
  · intro i j hi hj hij
    obtain ⟨m, hm, he⟩ := exists_turn start (k + behind) (show 0 < source.length by omega)
    have hp : i = (m + j) % source.length := by
      have hcancel : start + i ≡ start + (m + j) [MOD source.length] := by
        calc start + i ≡ k + behind + j [MOD source.length] := hij
          _ ≡ start + m + j [MOD source.length] := (he.symm).add_right j
          _ = start + (m + j) := Nat.add_assoc start m j
      have hmod := hcancel.add_left_cancel'
      rwa [Nat.ModEq, Nat.mod_eq_of_lt hi] at hmod
    rw [rotate_eq_of_modEq he] at hnested ⊢
    rw [codeAt_rotate hd hstart (by omega) hnested (by omega), hlength, ← hp]

def cutComments : List Char := "a)x(b(c)d)y(e".toList

theorem cut_comments_on_circle :
    cutComments.count '(' = cutComments.count ')' ∧
      align cutComments = .ok "(b(c)d)y(ea)x".toList ∧
      align (cutComments.rotate 10) = .ok "(ea)x(b(c)d)y".toList ∧
      stripComments "(ea)x(b(c)d)y".toList ~r stripComments "(b(c)d)y(ea)x".toList := by
  have h : cutComments.count '(' = cutComments.count ')' := by decide
  have ha : align cutComments = .ok "(b(c)d)y(ea)x".toList := by decide
  have hb : align (cutComments.rotate 10) = .ok "(ea)x(b(c)d)y".toList := by decide
  obtain ⟨start, other, hstart, hother, hturned, -⟩ := circle_keeps_comments cutComments h 10
  rw [← Except.ok.inj (ha.symm.trans hstart), ← Except.ok.inj (hb.symm.trans hother)] at hturned
  exact ⟨h, ha, hb, hturned⟩

end Esolang.Ledger
