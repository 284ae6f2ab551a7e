import Esolang.Proofs.Grid.Instructions

/-! The cursor of a Befunge machine stays on its playfield. Every instruction leaves a playfield of
the same size, and moves go round its edges, so whatever a call reads or writes is a place that the
playfield has. -/

namespace Esolang.Grid

namespace Playfield

variable {f : Playfield} {x y : Nat}

/-- The rows have a character at a place, and which one it is. -/
def Holds (f : Playfield) (x y : Nat) (c : Char) : Prop :=
  ∃ row, f.rows[y]? = some row ∧ row[x]? = some c

theorem WellFormed.holds_get (h : f.WellFormed) (hx : x < f.width) (hy : y < f.height) :
    f.Holds x y (f.get x y) := by
  obtain ⟨hrows, hcolumns⟩ := h
  have hyr : y < f.rows.size := hrows ▸ hy
  have hxr : x < f.rows[y].size := hcolumns _ (Array.getElem_mem hyr) ▸ hx
  refine ⟨f.rows[y], Array.getElem?_eq_getElem hyr, ?_⟩
  simp [get, charAt, Array.getD, hyr, hxr]

theorem WellFormed.set (h : f.WellFormed) (x y : Nat) (c : Char) : (f.set x y c).WellFormed := by
  obtain ⟨hrows, hcolumns⟩ := h
  refine ⟨by simpa [Playfield.set] using hrows, fun row hrow => ?_⟩
  obtain ⟨i, hi, rfl⟩ := Array.mem_iff_getElem.mp hrow
  have hi' : i < f.rows.size := by simpa [Playfield.set] using hi
  have hold := hcolumns f.rows[i] (Array.getElem_mem hi')
  by_cases hiy : y = i
  · simpa [Playfield.set, Array.getElem_modify, hiy] using hold
  · simpa [Playfield.set, Array.getElem_modify, hiy] using hold

theorem neighbour_lt (hw : 0 < f.width) (hh : 0 < f.height) (x y : Nat) (direction : Direction) :
    (f.neighbour x y direction).1 < f.width ∧ (f.neighbour x y direction).2 < f.height := by
  constructor
  · have hx := Int.emod_lt_of_pos (x + direction.delta.1) (Int.natCast_pos.mpr hw)
    simp only [neighbour]
    omega
  · have hy := Int.emod_lt_of_pos (y + direction.delta.2) (Int.natCast_pos.mpr hh)
    simp only [neighbour]
    omega

theorem layOut_ok {overflow : Overflow} {width height : Nat} {source : List Char}
    (h : layOut overflow width height source = .ok f) :
    f.width = width ∧ f.height = height ∧ f.WellFormed := by
  simp only [layOut] at h
  split at h
  · cases h
  · obtain rfl := Except.ok.inj h
    exact ⟨rfl, rfl, ofLines_wellFormed _ _ _⟩

theorem place?_lt {x y : Int64} {place : Nat × Nat} (h : f.place? x y = some place) :
    place.1 < f.width ∧ place.2 < f.height := by
  unfold place? at h
  split at h
  · obtain rfl := Option.some.inj h
    dsimp only
    omega
  · cases h

end Playfield

namespace Machine

/-- The playfield has a given size and the cursor is on it. -/
structure OnField (width height : Nat) (m : Machine) : Prop where
  width_eq : m.field.width = width
  height_eq : m.field.height = height
  wellFormed : m.field.WellFormed
  x_lt : m.x < width
  y_lt : m.y < height

variable {width height : Nat} {m t : Machine}

namespace OnField

theorem of_same (h : m.OnField width height) (hf : t.field = m.field) (hx : t.x = m.x)
    (hy : t.y = m.y) : t.OnField width height := by
  obtain ⟨hw, hh, hwf, hxl, hyl⟩ := h
  exact ⟨by rw [hf, hw], by rw [hf, hh], by rwa [hf], by rwa [hx], by rwa [hy]⟩

theorem advance (h : m.OnField width height) : m.advance.OnField width height := by
  obtain ⟨rfl, rfl, hwf, hx, hy⟩ := h
  obtain ⟨hx', hy'⟩ := m.field.neighbour_lt (Nat.zero_lt_of_lt hx) (Nat.zero_lt_of_lt hy)
    m.x m.y m.direction
  exact ⟨rfl, rfl, hwf, hx', hy'⟩

theorem setCell (h : m.OnField width height) (x y : Nat) (c : Char) :
    ({ m with field := m.field.set x y c } : Machine).OnField width height := by
  obtain ⟨rfl, rfl, hwf, hx, hy⟩ := h
  exact ⟨rfl, rfl, hwf.set x y c, hx, hy⟩

theorem holds_here (h : m.OnField width height) : m.field.Holds m.x m.y m.here :=
  h.wellFormed.holds_get (h.width_eq ▸ h.x_lt) (h.height_eq ▸ h.y_lt)

end OnField

theorem pop_keeps (instruction : Char) : (pop instruction).Keeps (OnField width height) := by
  intro m h
  unfold pop
  rcases hs : m.stack with _ | ⟨value, stack⟩
  · cases hu : m.underflow <;> simpa [hs, hu] using h
  · simp only [Call.on_ofFunction, hs]
    exact h.of_same rfl rfl rfl

/-- Changes away from playfield and cursor. -/
theorem modify_keeps {f : Machine → Machine}
    (h : ∀ m, (f m).field = m.field ∧ (f m).x = m.x ∧ (f m).y = m.y) :
    (modify f : Call Machine Error PUnit).Keeps (OnField width height) :=
  .modify fun m hm => hm.of_same (h m).1 (h m).2.1 (h m).2.2

theorem push_keeps (value : Machine → Int64) :
    (modify fun m => m.push (value m) : Call Machine Error PUnit).Keeps (OnField width height) :=
  modify_keeps fun _ => ⟨rfl, rfl, rfl⟩

theorem advance_keeps :
    (modify advance : Call Machine Error PUnit).Keeps (OnField width height) :=
  .modify fun _ h => h.advance

theorem divide_keeps (instruction : Char) (f : Int64 → Int64 → Int64) :
    (divide instruction f).Keeps (OnField width height) := by
  refine .bind (fun _ h => h) fun before => .bind (pop_keeps instruction) fun a =>
    .bind (pop_keeps instruction) fun b => ?_
  split
  · exact .bind (modify_keeps fun _ => ⟨rfl, rfl, rfl⟩) fun _ => .throw _
  · exact push_keeps fun _ => f b a

theorem storeAt_keeps (x y value : Int64) :
    (storeAt x y value).Keeps (OnField width height) := by
  refine .get_bind fun m h => ?_
  split
  · exact h
  · exact h
  · exact h.setCell _ _ _

theorem onOutput_keeps (call : Call Sink Error Unit) :
    (onOutput call).Keeps (OnField width height) :=
  .onPart (fun _ _ h => h.of_same rfl rfl rfl) call

theorem Deed.keeps {call : Call Machine Error Unit} (h : Deed call) :
    call.Keeps (OnField width height) := by
  cases h with
  | nothing => exact .pure _
  | push value => exact push_keeps fun _ => value
  | pushBoth a b => exact modify_keeps fun _ => ⟨rfl, rfl, rfl⟩
  | load x y => exact push_keeps fun m => m.load? x y
  | store x y value => exact storeAt_keeps x y value
  | turn direction => exact modify_keeps fun _ => ⟨rfl, rfl, rfl⟩
  | turnAround => exact modify_keeps fun _ => ⟨rfl, rfl, rfl⟩
  | openText => exact modify_keeps fun _ => ⟨rfl, rfl, rfl⟩
  | advance => exact advance_keeps
  | writeNumber value => exact onOutput_keeps _
  | writeCode value => exact onOutput_keeps _
  | refuse instruction => exact .throw _

theorem Composed.keeps {instruction : Char} {n : Nat} {call : Call Machine Error Unit}
    (h : Composed instruction n call) : call.Keeps (OnField width height) := by
  induction h with
  | deed h => exact h.keeps
  | divide _ f => exact divide_keeps instruction f
  | take _ ih => exact .bind (pop_keeps instruction) ih

theorem execute_keeps (instruction : Char) :
    (execute instruction).Keeps (OnField width height) := by
  obtain ⟨n, -, h⟩ := execute_composed instruction
  exact h.keeps

theorem step_keeps : step.Keeps (OnField width height) := by
  refine .get_bind fun m h => ?_
  split
  · have hread : (m.readString m.here).OnField width height := by
      unfold readString
      split <;> exact h.of_same rfl rfl rfl
    exact hread.advance
  · split
    · exact h
    · exact Call.Keeps.bind (execute_keeps m.here)
        (fun _ => .bind advance_keeps fun _ => .pure _) m h

theorem load_keeps (source : String) : (load source).Keeps (OnField width height) := by
  refine .get_bind fun m h => ?_
  obtain ⟨rfl, rfl, hwf, hx, hy⟩ := h
  cases hl : Playfield.layOut m.overflow m.field.width m.field.height source.toList with
  | error e => simpa [hl, Call.on_liftM] using ⟨rfl, rfl, hwf, hx, hy⟩
  | ok field =>
    obtain ⟨hw, hh, hwf'⟩ := Playfield.layOut_ok hl
    simpa [hl] using ⟨hw, hh, hwf', Nat.zero_lt_of_lt hx, Nat.zero_lt_of_lt hy⟩

theorem resolveDivision_keeps (value : Int64) :
    (resolveDivision value).Keeps (OnField width height) := by
  refine .get_bind fun m h => ?_
  dsimp only
  split
  · refine Call.Keeps.bind (pop_keeps _) (fun _ => .bind (pop_keeps _) fun _ => ?_) m h
    refine .modify fun t ht => OnField.advance ?_
    exact ht.of_same rfl rfl rfl
  · exact h

theorem finish_keeps : finish.Keeps (OnField width height) :=
  .mapError (.onPart (fun _ _ h => h.of_same rfl rfl rfl) _) _

theorem onField_of_ofConfig {config : Config} {entropy : UInt64} {output : Sink}
    (h : ofConfig config entropy output = .ok m) : m.OnField config.width config.height := by
  unfold ofConfig at h
  split at h
  · cases h
  · obtain rfl := Except.ok.inj h
    exact ⟨rfl, rfl, Playfield.ofLines_wellFormed _ _ _, by dsimp only; omega, by dsimp only; omega⟩

/-- The states that calls lead to from a newly built machine, in any order and whether they succeed
or fail. -/
inductive Reachable (config : Config) : Machine → Prop where
  | initial {m : Machine} {entropy : UInt64} {output : Sink}
    (h : ofConfig config entropy output = .ok m) : Reachable config m
  | load {m : Machine} (h : Reachable config m) (source : String) :
    Reachable config ((load source).on m).2
  | step {m : Machine} (h : Reachable config m) : Reachable config (step.on m).2
  | finish {m : Machine} (h : Reachable config m) : Reachable config (finish.on m).2
  | resolveDivision {m : Machine} (h : Reachable config m) (value : Int64) :
    Reachable config ((resolveDivision value).on m).2

theorem Reachable.onField {config : Config} (h : Reachable config m) :
    m.OnField config.width config.height := by
  induction h with
  | initial h => exact onField_of_ofConfig h
  | load _ source ih => exact load_keeps source _ ih
  | step _ ih => exact step_keeps _ ih
  | finish _ ih => exact finish_keeps _ ih
  | resolveDivision _ value ih => exact resolveDivision_keeps value _ ih

/-- In every reachable state the playfield has the size of the setting, the cursor is on it and moves
in one of four directions. So there is a character under the cursor, and one at each place that an
instruction can address. -/
theorem grid_stays_in_bounds (config : Config) (m : Machine) (h : Reachable config m) :
    m.field.rows.size = config.height ∧ (∀ row ∈ m.field.rows, row.size = config.width) ∧
      m.x < config.width ∧ m.y < config.height ∧
      m.direction.delta ∈ [((1 : Int), (0 : Int)), (-1, 0), (0, -1), (0, 1)] ∧
      m.field.Holds m.x m.y m.here ∧
      ∀ (x y : Int64) (column row : Nat), m.field.place? x y = some (column, row) →
        m.field.Holds column row (m.field.get column row) := by
  have hf := h.onField
  have ⟨hwidth, hheight, ⟨hrows, hcolumns⟩, hx, hy⟩ := hf
  refine ⟨hheight ▸ hrows, hwidth ▸ hcolumns, hx, hy, ?_, hf.holds_here, ?_⟩
  · cases m.direction <;> simp [Direction.delta]
  · intro x y column row hp
    obtain ⟨hc, hr⟩ := Playfield.place?_lt hp
    exact hf.wellFormed.holds_get hc hr

def pastTheEdge : Machine :=
  (step.on (((load "v1").on
    { field := .blank 2 1, overflow := .reject, underflow := .fault, rng := .ofSeed 0,
      output := {} }).2)).2

theorem grid_in_bounds_past_the_edge :
    Reachable { width := 2, height := 1, seed := some 0 } pastTheEdge ∧
      pastTheEdge.direction = .down ∧ pastTheEdge.x < 2 ∧ pastTheEdge.y < 1 ∧
      pastTheEdge.field.Holds pastTheEdge.x pastTheEdge.y pastTheEdge.here := by
  have h : Reachable { width := 2, height := 1, seed := some 0 } pastTheEdge :=
    .step (.load (.initial (show ofConfig _ 0 {} = .ok _ from rfl)) "v1")
  obtain ⟨-, -, hx, hy, -, hhere, -⟩ := grid_stays_in_bounds _ pastTheEdge h
  exact ⟨h, by decide, hx, hy, hhere⟩

end Machine

end Esolang.Grid
