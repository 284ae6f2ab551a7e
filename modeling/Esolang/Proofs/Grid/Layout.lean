import Mathlib.Data.List.Basic
import Esolang.Proofs.Grid.Bounds
import Esolang.Proofs.Language.Loading

/-! The layout of a source on the playfield. Putting its characters down one after another, and
leaving a line at the first character outside, passes nothing over that belongs on the playfield:
what comes out is the part of the text that lies on it, and a source that is refused is refused for
its first character outside. -/

namespace Esolang.Grid

namespace Playfield

variable {width height x y : Nat} {lines done : List (List Char)} {front rest : List Char}
  {f g : Playfield}

/-- The character of a text in a column of a line. -/
def charIn? (lines : List (List Char)) (x y : Nat) : Option Char := lines[y]?.bind (·[x]?)

def Outside (width height : Nat) (lines : List (List Char)) (x y : Nat) : Prop :=
  (charIn? lines x y).isSome ∧ ¬ (x < width ∧ y < height)

/-- The first character outside, where a text is read line by line. -/
def FirstOutside (width height : Nat) (lines : List (List Char)) (x y : Nat) : Prop :=
  Outside width height lines x y ∧
    ∀ x' y', Outside width height lines x' y' → y < y' ∨ y = y' ∧ x ≤ x'

theorem outside_iff : Outside width height lines x y ↔
    ∃ line, lines[y]? = some line ∧ roomAt width height y ≤ x ∧ x < line.length := by
  rw [Outside, charIn?, roomAt]
  rcases lines[y]? with _ | line
  · simp
  · by_cases hy : y < height
    · simp [hy, and_comm]
    · simp [hy]

theorem firstOutside?_eq_none_iff :
    firstOutside? width height lines = none ↔ ∀ x y, ¬ Outside width height lines x y := by
  simp only [firstOutside?, List.findSome?_eq_none_iff, Prod.forall, List.mem_zipIdx_iff_getElem?,
    outside_iff]
  constructor
  · rintro h x y ⟨line, hline, hroom, hx⟩
    have hfits := h line y hline
    simp only [ite_eq_right_iff, reduceCtorEq, imp_false] at hfits
    omega
  · intro h line y hline
    rw [if_neg]
    exact fun hroom => h _ y ⟨line, hline, Nat.le_refl _, hroom⟩

theorem firstOutside_of_eq_some (h : firstOutside? width height lines = some (y, x)) :
    FirstOutside width height lines x y := by
  obtain ⟨before, ⟨line, n⟩, behind, hsplit, hhere, hbefore⟩ := List.findSome?_eq_some_iff.mp h
  have hat (i : Nat) : lines[i]?.map (·, i) = (before ++ (line, n) :: behind)[i]? := by
    rw [← hsplit, List.getElem?_zipIdx, Nat.zero_add]
  obtain ⟨hroom, rfl, rfl⟩ : roomAt width height n < line.length ∧ n = y ∧
      roomAt width height n = x := by simpa using hhere
  obtain ⟨hline, rfl⟩ : lines[before.length]? = some line ∧ before.length = n := by
    simpa using hat before.length
  refine ⟨outside_iff.mpr ⟨line, hline, Nat.le_refl _, hroom⟩, fun x' y' hout => ?_⟩
  obtain ⟨line', hline', hroom', hx'⟩ := outside_iff.mp hout
  rcases Nat.lt_trichotomy y' before.length with hlt | rfl | hgt
  · have hmem : (line', y') ∈ before := by
      have hy' := hat y'
      rw [hline', List.getElem?_append_left hlt] at hy'
      exact List.mem_of_getElem? hy'.symm
    have hfits := hbefore _ hmem
    simp only [ite_eq_right_iff, reduceCtorEq, imp_false] at hfits
    omega
  · exact .inr ⟨rfl, hroom'⟩
  · exact .inl hgt

/-! What a playfield shows. -/

theorem get_ofLines (hx : x < width) (hy : y < height) (lines : List (List Char)) :
    (ofLines width height lines).get x y = (charIn? lines x y).getD ' ' := by
  have hget : (ofLines width height lines).get x y = ((lines[y]?.getD [])[x]?).getD ' ' := by
    rcases hl : lines[y]? with _ | line
    · simp [get, ofLines, charAt, hx, hy, hl]
    · simp [get, ofLines, charAt, hx, hy, hl]
  rw [hget, charIn?]
  rcases lines[y]? with _ | line
  · simp
  · rfl

theorem WellFormed.ext (hf : f.WellFormed) (hg : g.WellFormed) (hw : f.width = g.width)
    (hh : f.height = g.height) (h : ∀ x < f.width, ∀ y < f.height, f.get x y = g.get x y) :
    f = g := by
  obtain ⟨hrows, hcolumns⟩ := hf
  obtain ⟨hrows', hcolumns'⟩ := hg
  have hrow : f.rows = g.rows := by
    apply Array.ext (by rw [hrows, hrows', hh])
    intro y hy hy'
    have hsize := hcolumns _ (Array.getElem_mem hy)
    have hsize' := hcolumns' _ (Array.getElem_mem hy')
    apply Array.ext (by rw [hsize, hsize', hw])
    intro x hx hx'
    have hxy := h x (hsize ▸ hx) y (hrows ▸ hy)
    simpa [get, charAt, hy, hy', hx, hx'] using hxy
  obtain ⟨width, height, rows⟩ := f
  obtain ⟨_, _, _⟩ := g
  obtain ⟨rfl, rfl, rfl⟩ : width = _ ∧ height = _ ∧ rows = _ := ⟨hw, hh, hrow⟩
  rfl

theorem get_set_self (hf : f.WellFormed) (hx : x < f.width) (hy : y < f.height) (c : Char) :
    (f.set x y c).get x y = c := by
  obtain ⟨hrows, hcolumns⟩ := hf
  have hyr : y < f.rows.size := hrows ▸ hy
  have hxr : x < f.rows[y].size := hcolumns _ (Array.getElem_mem hyr) ▸ hx
  simp [get, set, charAt, Array.getElem_modify, hyr, hxr]

theorem get_set_of_ne {x' y' : Nat} (h : ¬ (x' = x ∧ y' = y)) (c : Char) :
    (f.set x y c).get x' y' = f.get x' y' := by
  by_cases hy : y = y'
  · have hx : x ≠ x' := fun hx => h ⟨hx.symm, hy.symm⟩
    rcases hr : f.rows[y']? with _ | row
    · simp [get, set, charAt, Array.getElem?_modify, hy, hr]
    · simp [get, set, charAt, Array.getElem?_modify, hy, hr, Array.getElem?_setIfInBounds_ne hx]
  · simp [get, set, charAt, Array.getElem?_modify, hy]

/-! Putting the characters down. -/

theorem ofLines_congr {lines' : List (List Char)}
    (h : ∀ x < width, ∀ y < height,
      (charIn? lines x y).getD ' ' = (charIn? lines' x y).getD ' ') :
    ofLines width height lines = ofLines width height lines' := by
  refine (ofLines_wellFormed _ _ _).ext (ofLines_wellFormed _ _ _) rfl rfl fun x hx y hy => ?_
  exact (get_ofLines hx hy lines).trans ((h x hx y hy).trans (get_ofLines hx hy lines').symm)

/-- Puts what is left of a line down, from a column on. -/
def putLine (overflow : Overflow) (y : Nat) : (x : Nat) → List Char → Playfield →
    Except SourceError Playfield
  | _, [], f => .ok f
  | x, c :: rest, f =>
    if y < f.height ∧ x < f.width then putLine overflow y (x + 1) rest (f.set x y c)
    else
      match overflow with
      | .truncate => .ok f
      | .reject => .error (.gridOverflow (y + 1) (x + 1) f.width f.height)

def putLines (overflow : Overflow) : (y : Nat) → List (List Char) → Playfield →
    Except SourceError Playfield
  | _, [], f => .ok f
  | y, line :: rest, f => do
    let f ← putLine overflow y 0 line f
    putLines overflow (y + 1) rest f

theorem putLine_inside {overflow : Overflow} {c : Char} (h : y < f.height ∧ x < f.width) :
    putLine overflow y x (c :: rest) f = putLine overflow y (x + 1) rest (f.set x y c) := by
  conv => lhs; unfold putLine
  exact if_pos h

theorem putLine_outside {overflow : Overflow} {c : Char} (h : ¬ (y < f.height ∧ x < f.width)) :
    putLine overflow y x (c :: rest) f =
      match overflow with
      | .truncate => .ok f
      | .reject => .error (.gridOverflow (y + 1) (x + 1) f.width f.height) := by
  unfold putLine
  exact if_neg h

theorem charIn?_append (hy : y < done.length) : charIn? (done ++ lines) x y = charIn? done x y := by
  rw [charIn?, charIn?, List.getElem?_append_left hy]

theorem charIn?_concat (done : List (List Char)) (front : List Char) (x : Nat) :
    charIn? (done ++ [front]) x done.length = front[x]? := by
  simp [charIn?]

theorem charIn?_concat_of_lt (hy : done.length < y) : charIn? (done ++ [front]) x y = none := by
  rw [charIn?, List.getElem?_eq_none (by simpa using Nat.succ_le_of_lt hy)]
  rfl

/-- Whatever stands in the same place behind the same lines. -/
theorem ofLines_concat_congr {front' : List Char}
    (h : ∀ x < width, done.length < height → front[x]?.getD ' ' = front'[x]?.getD ' ') :
    ofLines width height (done ++ [front]) = ofLines width height (done ++ [front']) := by
  refine ofLines_congr fun x hx y hy => ?_
  rcases Nat.lt_trichotomy y done.length with hlt | rfl | hgt
  · rw [charIn?_append hlt, charIn?_append hlt]
  · rw [charIn?_concat, charIn?_concat]
    exact h x hx hy
  · rw [charIn?_concat_of_lt hgt, charIn?_concat_of_lt hgt]

theorem set_ofLines (hy : done.length < height) (hx : front.length < width) (c : Char) :
    (ofLines width height (done ++ [front])).set front.length done.length c =
      ofLines width height (done ++ [front ++ [c]]) := by
  have hwf := ofLines_wellFormed width height (done ++ [front])
  refine (hwf.set _ _ c).ext (ofLines_wellFormed _ _ _) rfl rfl fun x' hx' y' hy' => ?_
  have hnew := get_ofLines hx' hy' (done ++ [front ++ [c]])
  have hold := get_ofLines hx' hy' (done ++ [front])
  refine Eq.trans ?_ hnew.symm
  by_cases hat : x' = front.length ∧ y' = done.length
  · obtain ⟨rfl, rfl⟩ := hat
    rw [get_set_self hwf hx hy, charIn?_concat]
    simp
  · rw [get_set_of_ne hat]
    refine hold.trans ?_
    rcases Nat.lt_trichotomy y' done.length with hlt | rfl | hgt
    · rw [charIn?_append hlt, charIn?_append hlt]
    · have hne : x' ≠ front.length := fun h => hat ⟨h, rfl⟩
      rw [charIn?_concat, charIn?_concat]
      rcases Nat.lt_or_gt_of_ne hne with hlt | hgt
      · rw [List.getElem?_append_left hlt]
      · rw [List.getElem?_eq_none (by omega),
          List.getElem?_eq_none (by simpa using Nat.succ_le_of_lt hgt)]
    · rw [charIn?_concat_of_lt hgt, charIn?_concat_of_lt hgt]

theorem putLine_eq (overflow : Overflow) (rest : List Char)
    (hfront : front.length ≤ roomAt width height done.length) :
    putLine overflow done.length front.length rest (ofLines width height (done ++ [front])) =
      if overflow = .reject ∧ roomAt width height done.length < front.length + rest.length then
        .error (.gridOverflow (done.length + 1) (roomAt width height done.length + 1) width height)
      else .ok (ofLines width height (done ++ [front ++ rest])) := by
  -- The playfield shows what has been put down before, which grows by a character in each turn.
  induction rest generalizing front with
  | nil =>
    rw [putLine, if_neg (by simpa using fun _ => hfront), List.append_nil]
  | cons c rest ih =>
    by_cases hin : done.length < height ∧ front.length < width
    · have hlength : (front ++ [c]).length = front.length + 1 := List.length_append
      have hroom : (front ++ [c]).length ≤ roomAt width height done.length := by
        rw [roomAt, if_pos hin.1, hlength]
        omega
      have hcount : (front ++ [c]).length + rest.length = front.length + (c :: rest).length := by
        rw [hlength, List.length_cons]
        omega
      have hnext := ih hroom
      rw [hcount, List.append_assoc, hlength, List.singleton_append] at hnext
      rw [putLine_inside hin, set_ofLines hin.1 hin.2]
      exact hnext
    · have hfull : roomAt width height done.length = front.length := by
        unfold roomAt at hfront ⊢
        split at hfront <;> split <;> omega
      have hover : front.length < front.length + (c :: rest).length := by simp
      rw [putLine_outside hin, hfull]
      cases overflow with
      | reject =>
        rw [if_pos ⟨rfl, hover⟩]
        rfl
      | truncate =>
        rw [if_neg (by simp)]
        refine congrArg Except.ok (ofLines_concat_congr fun x hx hy => ?_)
        rw [List.getElem?_append_left (by omega)]

theorem ofLines_concat_nil (done : List (List Char)) :
    ofLines width height (done ++ [[]]) = ofLines width height done := by
  refine ofLines_congr fun x _ y _ => ?_
  rcases Nat.lt_trichotomy y done.length with hlt | rfl | hgt
  · rw [charIn?_append hlt]
  · simp [charIn?]
  · rw [charIn?_concat_of_lt hgt, charIn?, List.getElem?_eq_none (by omega)]
    rfl

theorem putLines_eq (overflow : Overflow) (lines done : List (List Char)) :
    putLines overflow done.length lines (ofLines width height done) =
      match overflow, (lines.zipIdx done.length).findSome? fun (line, y) =>
        if roomAt width height y < line.length then some (y, roomAt width height y) else none with
      | .reject, some (y, x) => .error (.gridOverflow (y + 1) (x + 1) width height)
      | _, _ => .ok (ofLines width height (done ++ lines)) := by
  induction lines generalizing done with
  | nil => cases overflow <;> simp [putLines]
  | cons line lines ih =>
    have hempty : ([] : List Char).length ≤ roomAt width height done.length := Nat.zero_le _
    have hline := putLine_eq overflow line hempty
    rw [ofLines_concat_nil, List.length_nil, Nat.zero_add, List.nil_append] at hline
    have hnext := ih (done ++ [line])
    rw [List.length_append, List.length_singleton, List.append_assoc,
      List.singleton_append] at hnext
    rw [putLines, hline, List.zipIdx_cons, List.findSome?_cons]
    by_cases hroom : roomAt width height done.length < line.length
    · cases overflow with
      | reject => simp [hroom]
      | truncate => simpa [hroom] using hnext
    · simpa [hroom] using hnext

theorem layOut_eq_putLines (overflow : Overflow) (width height : Nat) (source : List Char) :
    layOut overflow width height source =
      putLines overflow 0 (Esolang.lines source) (blank width height) :=
  (putLines_eq overflow (Esolang.lines source) []).symm

end Playfield

namespace Machine

open Playfield

variable {m : Machine} {source : String}

def under (overflow : Overflow) (m : Machine) : Machine := { m with overflow }

/-- At the start of the program on a playfield. -/
def atStart (field : Playfield) (m : Machine) : Machine :=
  { m with field, x := 0, y := 0, direction := .right, stack := [], stringMode := false }

/-- The playfield that a source is laid out on. -/
def shownBy (source : String) (m : Machine) : Playfield :=
  ofLines m.field.width m.field.height (lines source.toList)

theorem load_of_fits (h : m.overflow = .truncate ∨
      firstOutside? m.field.width m.field.height (lines source.toList) = none) :
    (load source).on m = (.ok (), m.atStart (m.shownBy source)) := by
  have hread : layOut m.overflow m.field.width m.field.height source.toList =
      .ok (m.shownBy source) := by
    unfold layOut
    dsimp only
    rcases h with h | h
    · rw [h]
      rfl
    · rw [h]
      cases m.overflow <;> rfl
  rw [load_on, hread]
  rfl

theorem load_of_outside {x y : Nat} (ho : m.overflow = .reject)
    (h : firstOutside? m.field.width m.field.height (lines source.toList) = some (y, x)) :
    (load source).on m =
      (.error (.gridOverflow (y + 1) (x + 1) m.field.width m.field.height), m) := by
  have hread : layOut m.overflow m.field.width m.field.height source.toList =
      .error (.gridOverflow (y + 1) (x + 1) m.field.width m.field.height) := by
    unfold layOut
    dsimp only
    rw [ho, h]
  rw [load_on, hread]

theorem eq_of_load {t : Machine} (h : (load source).on m = (.ok (), t)) :
    t = m.atStart (m.shownBy source) := by
  by_cases hfits : m.overflow = .truncate ∨
      firstOutside? m.field.width m.field.height (lines source.toList) = none
  · rw [load_of_fits hfits] at h
    exact (Prod.mk.inj h).2.symm
  · obtain ⟨ho, hout⟩ := not_or.mp hfits
    obtain ⟨⟨y, x⟩, hplace⟩ := Option.ne_none_iff_exists'.mp hout
    have hreject : m.overflow = .reject := by
      cases hm : m.overflow with
      | reject => rfl
      | truncate => exact absurd hm ho
    rw [load_of_outside hreject hplace] at h
    cases h

theorem shownBy_holds {x y : Nat} (hx : x < m.field.width) (hy : y < m.field.height)
    (source : String) :
    (m.shownBy source).Holds x y ((charIn? (lines source.toList) x y).getD ' ') := by
  have hwf := ofLines_wellFormed m.field.width m.field.height (lines source.toList)
  rw [← get_ofLines hx hy]
  exact hwf.holds_get hx hy

/-- Loading puts the characters of a source down one after another. Where sources that do not fit
are refused, this succeeds if and only if all characters are on the playfield, and otherwise the
error names the first one that is not; where they are cut, it always succeeds. The playfield then
shows the characters of the source in their places and spaces elsewhere, whether sources are refused
or cut. -/
theorem load_lays_out_source (m : Machine) (source : String) :
    (load source).on m =
      (match putLines m.overflow 0 (lines source.toList) (.blank m.field.width m.field.height) with
      | .error e => (.error e, m)
      | .ok field => (.ok (), m.atStart field)) ∧
    ((∃ t, (load source).on (m.under .reject) = (.ok (), t)) ↔
      ∀ x y, (charIn? (lines source.toList) x y).isSome →
        x < m.field.width ∧ y < m.field.height) ∧
    ((¬ ∃ t, (load source).on (m.under .reject) = (.ok (), t)) →
      ∃ x y, FirstOutside m.field.width m.field.height (lines source.toList) x y ∧
        (load source).on (m.under .reject) =
          (.error (.gridOverflow (y + 1) (x + 1) m.field.width m.field.height),
            m.under .reject)) ∧
    (∃ t, (load source).on (m.under .truncate) = (.ok (), t)) ∧
    (∀ t, (load source).on m = (.ok (), t) →
      ∃ field : Playfield, t = m.atStart field ∧ field.WellFormed ∧
        field.width = m.field.width ∧ field.height = m.field.height ∧
        ∀ x < m.field.width, ∀ y < m.field.height,
          field.Holds x y ((charIn? (lines source.toList) x y).getD ' ')) ∧
    ∀ t, (load source).on (m.under .reject) = (.ok (), t) →
      (load source).on (m.under .truncate) = (.ok (), t.under .truncate) := by
  have hcut : (load source).on (m.under .truncate) =
      (.ok (), (m.under .truncate).atStart (m.shownBy source)) := load_of_fits (.inl rfl)
  refine ⟨?_, ?_, ?_, ⟨_, hcut⟩, fun t ht => ?_, fun t ht => ?_⟩
  · rw [load_on, layOut_eq_putLines]
    rfl
  · rcases hout : firstOutside? m.field.width m.field.height (lines source.toList) with _ | ⟨y, x⟩
    · have hinside := firstOutside?_eq_none_iff.mp hout
      refine iff_of_true ⟨_, load_of_fits (.inr hout)⟩ fun x y hc => ?_
      by_contra hxy
      exact hinside x y ⟨hc, hxy⟩
    · obtain ⟨⟨hc, hxy⟩, -⟩ := firstOutside_of_eq_some hout
      refine iff_of_false ?_ fun h => hxy (h x y hc)
      rintro ⟨t, ht⟩
      have hrefused := load_of_outside (m := m.under .reject) rfl hout
      rw [ht] at hrefused
      cases hrefused
  · intro hfails
    rcases hout : firstOutside? m.field.width m.field.height (lines source.toList) with _ | ⟨y, x⟩
    · exact absurd ⟨_, load_of_fits (.inr hout)⟩ hfails
    · exact ⟨x, y, firstOutside_of_eq_some hout, load_of_outside rfl hout⟩
  · exact ⟨m.shownBy source, eq_of_load ht, ofLines_wellFormed _ _ _, rfl, rfl,
      fun x hx y hy => shownBy_holds hx hy source⟩
  · rw [hcut, eq_of_load ht]
    rfl

end Machine

end Esolang.Grid
