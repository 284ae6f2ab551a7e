import Mathlib.Order.Bounds.Basic
import Esolang.Proofs.Course
import Esolang.Proofs.Tape.Writes

/-! The snapshot of a tape. It spans the cells that have been written to since the last load, whatever
they hold now, and no others. -/

namespace Esolang.Tape

/-- The cells that a record has writes to. -/
def touched (log : List (Int × Write)) : Set Int := {index | ∃ write, (index, write) ∈ log}

theorem mem_touched_cons {index pointer : Int} {write : Write} {log : List (Int × Write)} :
    index ∈ touched ((pointer, write) :: log) ↔ pointer = index ∨ index ∈ touched log := by
  simp only [touched, List.mem_cons, Prod.mk.injEq, Set.mem_ofPred_eq]
  constructor
  · rintro ⟨w, ⟨rfl, -⟩ | hmem⟩
    · exact .inl rfl
    · exact .inr ⟨w, hmem⟩
  · rintro (rfl | ⟨w, hmem⟩)
    · exact ⟨write, .inl ⟨rfl, rfl⟩⟩
    · exact ⟨w, .inr hmem⟩

namespace Machine

variable {m : Machine} {log : List (Int × Write)} {low high : Int}

theorem minKey?_eq_some_iff :
    m.memory.minKey? = some low ↔ IsLeast {index | index ∈ m.memory} low := by
  rw [Std.TreeMap.minKey?_eq_some_iff_mem_and_forall]
  simp [IsLeast, mem_lowerBounds, Std.isLE_compare]

theorem maxKey?_eq_some_iff :
    m.memory.maxKey? = some high ↔ IsGreatest {index | index ∈ m.memory} high := by
  rw [Std.TreeMap.maxKey?_eq_some_iff_mem_and_forall]
  simp [IsGreatest, mem_upperBounds, Std.isLE_compare]

/-- Either no cell is touched, or there are a lowest and a highest one. -/
theorem memory_cases (m : Machine) :
    (m.memory.minKey? = none ∧ ∀ index, index ∉ m.memory) ∨
      ∃ low high, m.memory.minKey? = some low ∧ m.memory.maxKey? = some high := by
  rcases hlow : m.memory.minKey? with _ | low
  · rw [Std.TreeMap.minKey?_eq_none_iff, Std.TreeMap.isEmpty_iff_forall_not_mem] at hlow
    exact .inl ⟨rfl, hlow⟩
  · rcases hhigh : m.memory.maxKey? with _ | high
    · rw [Std.TreeMap.maxKey?_eq_none_iff, Std.TreeMap.isEmpty_iff_forall_not_mem] at hhigh
      exact absurd (minKey?_eq_some_iff.mp hlow).1 (hhigh low)
    · exact .inr ⟨low, high, rfl, rfl⟩

/-- The snapshot spans a set of cells, from the lowest to the highest one, and no cell outside the set
holds anything. -/
structure Shows (m : Machine) (cells : Set Int) : Prop where
  nil_iff : m.snapshot = [] ↔ cells = ∅
  spans : cells ≠ ∅ → ∃ low high, IsLeast cells low ∧ IsGreatest cells high ∧
    (m.snapshot.length : Int) = high - low + 1 ∧
    ∀ k < m.snapshot.length, m.snapshot[k]? = some (m.cell (low + k))
  outside : ∀ index, index ∉ cells → m.cell index = 0

theorem snapshot_shows_memory (m : Machine) : m.Shows {index | index ∈ m.memory} := by
  have houtside : ∀ index, index ∉ m.memory → m.cell index = 0 := fun index hindex =>
    Std.TreeMap.getD_eq_fallback hindex
  rcases m.memory_cases with ⟨hnone, hempty⟩ | ⟨low, high, hlow, hhigh⟩
  · have hcells : {index | index ∈ m.memory} = ∅ := Set.eq_empty_of_forall_notMem hempty
    have hnil : m.snapshot = [] := by simp [snapshot, hnone]
    exact ⟨by simp [hnil, hcells], fun hne => absurd hcells hne, houtside⟩
  · have hleast := minKey?_eq_some_iff.mp hlow
    have hgreatest := maxKey?_eq_some_iff.mp hhigh
    have hle : low ≤ high := hleast.2 hgreatest.1
    have hshot : m.snapshot =
        (List.range (high - low + 1).toNat).map fun (k : Nat) => m.cell (low + k) := by
      simp [snapshot, hlow, hhigh]
    have hlength : m.snapshot.length = (high - low + 1).toNat := by simp [hshot]
    refine ⟨?_, fun _ => ⟨low, high, hleast, hgreatest, ?_, fun k hk => ?_⟩, houtside⟩
    · constructor
      · intro hnil
        rw [hnil, List.length_nil] at hlength
        omega
      · intro hempty
        exact absurd (hempty ▸ hleast.1 : low ∈ (∅ : Set Int)) (Set.notMem_empty low)
    · omega
    · rw [hlength] at hk
      simp [hshot, List.getElem?_range hk]

theorem Recorded.mem_memory_iff (h : Recorded log m) (index : Int) :
    index ∈ m.memory ↔ index ∈ touched log := by
  induction h with
  | initial h => simp [h.memory, touched]
  | load _ ht _ => simp [memory_load ht, touched]
  | refuse _ ht ih => rwa [eq_of_load_error ht]
  | @step log m _ ih =>
    rw [mem_memory_step, ih]
    rcases hw : m.written? with _ | write
    · simp [record_of_none hw]
    · rw [record_of_some hw, mem_touched_cons]
      simp
  | finish _ ih => exact ih

theorem mem_memory_after {index : Int} (h : index ∈ m.memory) (k : Nat) :
    index ∈ (interpreter.after k m).memory := by
  induction k with
  | zero => exact h
  | succ k ih => exact (mem_memory_step _ index).mpr (.inr ih)

/-- In every reachable state the snapshot shows the cells that `+`, `-` and `,` have been carried out
on since the last load, from the lowest to the highest one. Only another such instruction adds a cell
to these, and none is ever taken away, whatever it holds. -/
theorem snapshot_shows_touched (m : Machine) (h : interpreter.Reachable Initial m) :
    (∃ log, Recorded log m) ∧ ∀ log, Recorded log m →
      m.Shows (touched log) ∧ (∀ index, index ∈ m.memory ↔ index ∈ touched log) ∧
      (∀ index, index ∈ (step.on m).2.memory ↔ index ∈ touched log ∨
        ((step.on m).1 = .ok .proceed ∧
          ∃ c, m.code[m.ip]? = some c ∧ (c = '+' ∨ c = '-' ∨ c = ',')) ∧ m.pointer = index) ∧
      ∀ k, ∀ index ∈ touched log, index ∈ (interpreter.after k m).memory := by
  refine ⟨Recorded.exists_of_reachable h, fun log hlog => ?_⟩
  have hmem := hlog.mem_memory_iff
  have hcells : {index | index ∈ m.memory} = touched log := Set.ext hmem
  refine ⟨hcells ▸ m.snapshot_shows_memory, hmem, fun index => ?_, fun k index hindex => ?_⟩
  · rw [mem_memory_step, written?_isSome_iff, hmem]
    exact or_comm
  · exact mem_memory_after ((hmem index).mpr hindex) k

/-- A cell left of the start that goes up and down again, and one right of it that goes below zero. -/
def bothSides : Machine :=
  interpreter.after 7 ((load "<+->>-.").on
    { width := .bits 8 (by decide) (by decide), input := .ofText [], output := {} }).2

theorem both_sides_show_touched :
    interpreter.Reachable Initial bothSides ∧
      Recorded [(1, .decrement), (-1, .decrement), (-1, .increment)] bothSides ∧
      bothSides.Shows (touched [(1, .decrement), (-1, .decrement), (-1, .increment)]) ∧
      bothSides.snapshot = [0, 0, 255] ∧ -1 ∈ bothSides.memory ∧ 0 ∉ bothSides.memory := by
  have hinitial : Initial
      { width := .bits 8 (by decide) (by decide), input := .ofText [], output := {} } :=
    ⟨{}, _, _, rfl⟩
  have h : interpreter.Reachable Initial bothSides :=
    .step (.step (.step (.step (.step (.step (.step (.load (.initial hinitial) "<+->>-.")))))))
  have hlog : Recorded [(1, .decrement), (-1, .decrement), (-1, .increment)] bothSides := by
    have hsteps := Recorded.step (.step (.step (.step (.step (.step (.step
      (.load (.initial hinitial) (show (load "<+->>-.").on _ = (.ok (), _) from rfl))))))))
    exact cast (congrArg (Recorded · bothSides) (by decide +kernel)) hsteps
  obtain ⟨-, hshows⟩ := snapshot_shows_touched bothSides h
  obtain ⟨hspans, hmem, -⟩ := hshows _ hlog
  have htouched (index : Int) :
      index ∈ touched [(1, .decrement), (-1, .decrement), (-1, .increment)] ↔
        1 = index ∨ -1 = index := by
    simp only [mem_touched_cons]
    simp [touched]
  have hright := (htouched 1).mpr (.inl rfl)
  have hleft := (htouched (-1)).mpr (.inr rfl)
  obtain ⟨low, high, hlow, hhigh, hlength, hentries⟩ :=
    hspans.spans (Set.nonempty_iff_ne_empty.mp ⟨1, hright⟩)
  obtain ⟨rfl, rfl⟩ : low = -1 ∧ high = 1 := by
    have hlow' := (htouched low).mp hlow.1
    have hhigh' := (htouched high).mp hhigh.1
    have hle := hlow.2 hleft
    have hge := hhigh.2 hright
    omega
  have hcells : bothSides.cell (-1) = 0 ∧ bothSides.cell 0 = 0 ∧ bothSides.cell 1 = 255 := by
    decide +kernel
  refine ⟨h, hlog, hspans, ?_, ?_, ?_⟩
  · obtain ⟨a, b, c, habc⟩ := List.length_eq_three.mp (show bothSides.snapshot.length = 3 by omega)
    rw [habc] at hentries ⊢
    have ha : a = bothSides.cell (-1) := Option.some.inj (hentries 0 (by simp))
    have hb : b = bothSides.cell 0 := Option.some.inj (hentries 1 (by simp))
    have hc : c = bothSides.cell 1 := Option.some.inj (hentries 2 (by simp))
    rw [ha, hb, hc, hcells.1, hcells.2.1, hcells.2.2]
  · exact (hmem (-1)).mpr hleft
  · exact fun hzero => by simpa using (htouched 0).mp ((hmem 0).mp hzero)

end Machine

end Esolang.Tape
