import Mathlib.Data.List.Nodup
import Esolang.Troop.Board

/-! Boards on which everything is in its place: monkeys stand apart, and what a monkey carries lies
under it. Since carried bananas follow their carriers, a banana on a monkey's own cell is carried by
nobody else, and so each action of a monkey that is awake leaves such a board. -/

namespace Esolang.Troop

def Cell.OnBoard (cell : Cell) : Prop := cell.x < size ∧ cell.y < size

theorem Cell.OnBoard.next {cell next : Cell} {direction : Direction} (h : cell.OnBoard)
    (hn : cell.next? direction = some next) : next.OnBoard := by
  obtain ⟨hx, hy⟩ := h
  cases direction <;> simp only [Cell.next?, Option.ite_none_right_eq_some, Option.some.injEq] at hn
  all_goals
    obtain ⟨hlt, rfl⟩ := hn
    constructor <;> dsimp only <;> omega

theorem Cell.next?_ne {cell next : Cell} {direction : Direction}
    (hn : cell.next? direction = some next) : next ≠ cell := by
  rintro rfl
  cases direction <;> simp only [Cell.next?, Option.ite_none_right_eq_some, Option.some.injEq] at hn
  all_goals
    obtain ⟨hlt, heq⟩ := hn
    have hx := congrArg Cell.x heq
    have hy := congrArg Cell.y heq
    simp at hx hy
  all_goals omega

namespace Board

variable {b b' : Board} {i j : Fin 7}

theorem ext_monkey (hmonkey : ∀ i, b.monkey i = b'.monkey i) (hbananas : b.bananas = b'.bananas) :
    b = b' := by
  obtain ⟨monkeys, bananas⟩ := b
  obtain ⟨monkeys', bananas'⟩ := b'
  have hmonkeys : monkeys = monkeys' := Vector.ext fun k hk => hmonkey ⟨k, hk⟩
  rw [hmonkeys]
  exact congrArg _ hbananas

theorem influence_spec (i k : Fin 7) (f : UInt8 → UInt8 → UInt8) (b : Board) :
    (b.influence i f).monkey k =
      if k ≠ i ∧ (b.monkey k).sleeping = false ∧ (b.monkey i).cell.adjacent (b.monkey k).cell then
        { b.monkey k with value := f (b.monkey k).value (b.monkey i).value }
      else b.monkey k :=
  Vector.getElem_ofFn k.isLt

theorem monkey_influence (i k : Fin 7) (f : UInt8 → UInt8 → UInt8) (b : Board) :
    ∃ value, (b.influence i f).monkey k = { b.monkey k with value } := by
  rw [influence_spec]
  split
  · exact ⟨_, rfl⟩
  · exact ⟨_, rfl⟩

theorem bring_none (cell : Cell) (b : Board) : b.bring none cell = b := by
  simp [bring]

theorem ids_bring (id : Option Nat) (cell : Cell) (b : Board) :
    (b.bring id cell).bananas.map Banana.id = b.bananas.map Banana.id := by
  rw [bring, List.map_map]
  apply List.map_congr_left
  intro banana _
  by_cases h : some banana.id = id <;> simp [h]

theorem mem_bring {id : Option Nat} {cell : Cell} {banana : Banana} :
    banana ∈ (b.bring id cell).bananas ↔
      ∃ old, ⟨banana.id, old⟩ ∈ b.bananas ∧
        banana.cell = if some banana.id = id then cell else old := by
  constructor
  · intro h
    obtain ⟨⟨number, old⟩, hmem, rfl⟩ := List.mem_map.mp h
    by_cases hid : some number = id
    · exact ⟨old, by simpa [hid] using hmem, by simp [hid]⟩
    · exact ⟨old, by simpa [hid] using hmem, by simp [hid]⟩
  · rintro ⟨old, hmem, hcell⟩
    refine List.mem_map.mpr ⟨_, hmem, ?_⟩
    obtain ⟨number, now⟩ := banana
    have hnow : now = if some number = id then cell else old := hcell
    subst hnow
    by_cases hid : some number = id <;> simp [hid]

@[simp] theorem monkey_bring (id : Option Nat) (cell : Cell) (b : Board) (k : Fin 7) :
    (b.bring id cell).monkey k = b.monkey k := rfl

theorem monkey_modify_self (i : Fin 7) (f : Monkey → Monkey) (b : Board) :
    (b.modify i f).monkey i = f (b.monkey i) := by
  rw [monkey_modify, if_pos rfl]

theorem monkey_modify_of_ne (h : j ≠ i) (f : Monkey → Monkey) (b : Board) :
    (b.modify i f).monkey j = b.monkey j := by
  rw [monkey_modify, if_neg (Ne.symm h)]

theorem bananas_walk (i : Fin 7) (cell : Cell) (b : Board) :
    (b.walk i cell).bananas = (b.bring (b.monkey i).banana cell).bananas := by
  unfold walk
  by_cases hn : (b.modify i fun m => { m with cell }).hasNeighbour i = true
  · simp only [hn, if_true, monkey_modify_self]
    rfl
  · simp only [hn, Bool.false_eq_true, if_false, monkey_modify_self]
    rfl

theorem walk_spec (i k : Fin 7) (cell : Cell) (b : Board) :
    ((b.walk i cell).monkey k).cell = (if k = i then cell else (b.monkey k).cell) ∧
    ((b.walk i cell).monkey k).banana = (b.monkey k).banana ∧
    ((b.walk i cell).monkey k).sleeping = (b.monkey k).sleeping := by
  unfold walk
  by_cases hk : k = i
  · subst hk
    by_cases hn : (b.modify k fun m => { m with cell }).hasNeighbour k = true
    · simp [hn, monkey_modify_self]
    · simp [hn, monkey_modify_self, reward]
  · by_cases hn : (b.modify i fun m => { m with cell }).hasNeighbour i = true
    · simp [hn, hk, monkey_modify_of_ne hk]
    · simp [hn, hk, monkey_modify_of_ne hk]

theorem handOver_spec (h : i ≠ j) (b : Board) :
    (b.handOver i j).monkey i = { b.monkey i with banana := (b.monkey j).banana } ∧
    (b.handOver i j).monkey j = { b.monkey j with banana := (b.monkey i).banana } ∧
    (∀ k, k ≠ i → k ≠ j → (b.handOver i j).monkey k = b.monkey k) ∧
    (b.handOver i j).bananas = ((b.bring (b.monkey j).banana (b.monkey i).cell).bring
      (b.monkey i).banana (b.monkey j).cell).bananas := by
  unfold handOver
  simp only [monkey_bring]
  refine ⟨?_, ?_, fun k hki hkj => ?_, rfl⟩
  · rw [monkey_modify_of_ne h, monkey_modify_self]
  · rw [monkey_modify_self, monkey_modify_of_ne h.symm]
  · rw [monkey_modify_of_ne hkj, monkey_modify_of_ne hki]

structure Sound (b : Board) : Prop where
  standing : ∀ i, (b.monkey i).cell.OnBoard
  apart : ∀ i j, (b.monkey i).cell = (b.monkey j).cell → i = j
  numbered : (b.bananas.map Banana.id).Nodup
  lying : ∀ banana ∈ b.bananas, banana.cell.OnBoard
  carried : ∀ i id, (b.monkey i).banana = some id → ⟨id, (b.monkey i).cell⟩ ∈ b.bananas
  resting : ∀ i, (b.monkey i).sleeping = true → (b.monkey i).banana = none

namespace Sound

theorem cell_eq (h : b.Sound) {id : Nat} {cell other : Cell} (hc : ⟨id, cell⟩ ∈ b.bananas)
    (ho : ⟨id, other⟩ ∈ b.bananas) : cell = other := by
  have heq := List.inj_on_of_nodup_map h.numbered hc ho rfl
  exact congrArg Banana.cell heq

theorem carrier_unique (h : b.Sound) {id : Nat} (hi : (b.monkey i).banana = some id)
    (hj : (b.monkey j).banana = some id) : i = j :=
  h.apart i j (h.cell_eq (h.carried i id hi) (h.carried j id hj))

/-- Monkeys may drop what they carry and change in what a board does not show. -/
theorem of_drops (h : b.Sound) (hbananas : b'.bananas = b.bananas)
    (hcell : ∀ i, (b'.monkey i).cell = (b.monkey i).cell)
    (hbanana : ∀ i id, (b'.monkey i).banana = some id → (b.monkey i).banana = some id)
    (hsleep : ∀ i, (b'.monkey i).sleeping = true → (b'.monkey i).banana = none) : b'.Sound where
  standing i := hcell i ▸ h.standing i
  apart i j hij := h.apart i j (by rw [← hcell, ← hcell, hij])
  numbered := hbananas ▸ h.numbered
  lying := hbananas ▸ h.lying
  carried i id hid := by
    rw [hbananas, hcell]
    exact h.carried i id (hbanana i id hid)
  resting := hsleep

theorem modify (h : b.Sound) {f : Monkey → Monkey} (hcell : ∀ m, (f m).cell = m.cell)
    (hbanana : ∀ m id, (f m).banana = some id → m.banana = some id)
    (hsleep : ∀ m, (f m).sleeping = true → m.sleeping = true ∨ (f m).banana = none) :
    (b.modify i f).Sound := by
  apply h.of_drops
  · rfl
  · intro k
    rw [monkey_modify]
    split
    · next hk => rw [hcell, hk]
    · rfl
  · intro k id
    rw [monkey_modify]
    split
    · next hk => exact hk ▸ hbanana (b.monkey i) id
    · exact fun hid => hid
  · intro k
    rw [monkey_modify]
    split
    · intro hs
      rcases hsleep _ hs with hs | hnone
      · have hn := h.resting i hs
        cases hid : (f (b.monkey i)).banana with
        | none => rfl
        | some id => simp [hbanana _ id hid] at hn
      · exact hnone
    · exact h.resting k

theorem influence (h : b.Sound) (f : UInt8 → UInt8 → UInt8) : (b.influence i f).Sound := by
  apply h.of_drops
  · rfl
  · intro k
    obtain ⟨value, hk⟩ := monkey_influence i k f b
    rw [hk]
  · intro k id hid
    obtain ⟨value, hk⟩ := monkey_influence i k f b
    rwa [hk] at hid
  · intro k hs
    obtain ⟨value, hk⟩ := monkey_influence i k f b
    rw [hk] at hs ⊢
    exact h.resting k hs

/-- One banana may be brought to a cell if whoever carries it afterwards stands there; all other
carriers stay where they are. -/
theorem of_bring (h : b.Sound) {id : Option Nat} {cell : Cell} (hcell : cell.OnBoard)
    (hbananas : b'.bananas = (b.bring id cell).bananas)
    (hstanding : ∀ i, (b'.monkey i).cell.OnBoard)
    (hapart : ∀ i j, (b'.monkey i).cell = (b'.monkey j).cell → i = j)
    (hcarried : ∀ i k, (b'.monkey i).banana = some k → ∃ j, (b.monkey j).banana = some k ∧
      (b'.monkey i).cell = if some k = id then cell else (b.monkey j).cell)
    (hsleep : ∀ i, (b'.monkey i).sleeping = true → (b'.monkey i).banana = none) : b'.Sound where
  standing := hstanding
  apart := hapart
  numbered := by
    rw [hbananas, ids_bring]
    exact h.numbered
  lying banana hmem := by
    rw [hbananas] at hmem
    obtain ⟨old, hold, hnow⟩ := mem_bring.mp hmem
    rw [hnow]
    split
    · exact hcell
    · exact h.lying _ hold
  carried i k hk := by
    obtain ⟨j, hj, hnow⟩ := hcarried i k hk
    rw [hbananas, mem_bring]
    exact ⟨_, h.carried j k hj, hnow⟩
  resting := hsleep

theorem walk (h : b.Sound) {cell : Cell} (hcell : cell.OnBoard)
    (hfree : ∀ j, (b.monkey j).cell ≠ cell) : (b.walk i cell).Sound := by
  refine h.of_bring hcell (bananas_walk i cell b) ?_ ?_ ?_ ?_
  · intro k
    rw [(walk_spec i k cell b).1]
    split
    · exact hcell
    · exact h.standing k
  · intro k l hkl
    rw [(walk_spec i k cell b).1, (walk_spec i l cell b).1] at hkl
    by_cases hk : k = i
    · by_cases hl : l = i
      · rw [hk, hl]
      · rw [if_pos hk, if_neg hl] at hkl
        exact absurd hkl.symm (hfree l)
    · by_cases hl : l = i
      · rw [if_neg hk, if_pos hl] at hkl
        exact absurd hkl (hfree k)
      · rw [if_neg hk, if_neg hl] at hkl
        exact h.apart k l hkl
  · intro k id hid
    obtain ⟨hnow, hbanana, -⟩ := walk_spec i k cell b
    rw [hbanana] at hid
    refine ⟨k, hid, ?_⟩
    by_cases hk : k = i
    · subst hk
      rw [hnow, if_pos rfl, if_pos hid.symm]
    · have hne : some id ≠ (b.monkey i).banana := fun he => hk (h.carrier_unique hid he.symm)
      rw [hnow, if_neg hk, if_neg hne]
  · intro k hs
    obtain ⟨-, hbanana, hsleep⟩ := walk_spec i k cell b
    rw [hsleep] at hs
    rw [hbanana]
    exact h.resting k hs

theorem of_gift (h : b.Sound) {id : Nat} (hi : (b.monkey i).banana = some id)
    (hj : (b.monkey j).banana = none) (hawake : (b.monkey j).sleeping = false)
    (hgiver : b'.monkey i = { b.monkey i with banana := none })
    (htaker : b'.monkey j = { b.monkey j with banana := some id })
    (hother : ∀ k, k ≠ i → k ≠ j → b'.monkey k = b.monkey k)
    (hbananas : b'.bananas = (b.bring (some id) (b.monkey j).cell).bananas) : b'.Sound := by
  have hij : i ≠ j := by
    rintro rfl
    simp [hi] at hj
  have hcell : ∀ k, (b'.monkey k).cell = (b.monkey k).cell := by
    intro k
    by_cases hki : k = i
    · rw [hki, hgiver]
    · by_cases hkj : k = j
      · rw [hkj, htaker]
      · rw [hother k hki hkj]
  refine h.of_bring (h.standing j) hbananas ?_ ?_ ?_ ?_
  · intro k
    rw [hcell]
    exact h.standing k
  · intro k l hkl
    rw [hcell, hcell] at hkl
    exact h.apart k l hkl
  · intro k number hk
    rw [hcell]
    by_cases hki : k = i
    · simp [hki, hgiver] at hk
    · by_cases hkj : k = j
      · obtain rfl : id = number := by simpa [hkj, htaker] using hk
        exact ⟨i, hi, by rw [if_pos rfl, hkj]⟩
      · rw [hother k hki hkj] at hk
        have hne : number ≠ id := fun he => hki (h.carrier_unique hk (he ▸ hi))
        exact ⟨k, hk, by simp [hne]⟩
  · intro k hs
    by_cases hki : k = i
    · rw [hki, hgiver]
    · by_cases hkj : k = j
      · simp [hkj, htaker, hawake] at hs
      · rw [hother k hki hkj] at hs ⊢
        exact h.resting k hs

theorem handOver (h : b.Sound) (hij : i ≠ j) (hi : (b.monkey i).sleeping = false)
    (hj : (b.monkey j).sleeping = false)
    (hone : (b.monkey i).banana.isSome ≠ (b.monkey j).banana.isSome) : (b.handOver i j).Sound := by
  obtain ⟨hmi, hmj, hother, hbananas⟩ := handOver_spec hij b
  cases hbi : (b.monkey i).banana with
  | some id =>
    cases hbj : (b.monkey j).banana with
    | some _ => simp [hbi, hbj] at hone
    | none =>
      rw [hbj] at hmi
      rw [hbi] at hmj
      rw [hbi, hbj, bring_none] at hbananas
      exact h.of_gift hbi hbj hj hmi hmj hother hbananas
  | none =>
    cases hbj : (b.monkey j).banana with
    | none => simp [hbi, hbj] at hone
    | some id =>
      rw [hbj] at hmi
      rw [hbi] at hmj
      rw [hbi, hbj, bring_none] at hbananas
      exact h.of_gift hbj hbi hi hmj hmi (fun k hkj hki => hother k hki hkj) hbananas

theorem reward (h : b.Sound) (i : Fin 7) : (b.modify i reward).Sound :=
  h.modify (fun _ => rfl) (fun _ _ hid => hid) fun _ hs => .inl hs

theorem wake (h : b.Sound) (i : Fin 7) : (b.modify i wake).Sound := by
  apply h.modify
  · exact fun _ => rfl
  · exact fun _ _ hid => hid
  · intro m hs
    cases hs

theorem bump (h : b.Sound) (hij : i ≠ j) (hi : (b.monkey i).sleeping = false) :
    (b.bump i j).Sound := by
  unfold Board.bump
  by_cases hj : (b.monkey j).sleeping = true
  · rw [if_pos hj]
    exact h.wake j
  · rw [if_neg hj]
    by_cases hone : (b.monkey i).banana.isSome = (b.monkey j).banana.isSome
    · rw [if_pos hone]
      exact (h.reward i).reward j
    · rw [if_neg hone]
      exact h.handOver hij hi (by simpa using hj) hone

theorem monkeyAt?_eq_some {cell : Cell} (h : b.monkeyAt? cell = some j) :
    (b.monkey j).cell = cell := by
  unfold monkeyAt? Vector.findFinIdx? at h
  obtain ⟨k, hk, rfl⟩ := Option.map_eq_some_iff.mp h
  exact of_decide_eq_true (Array.findFinIdx?_eq_some_iff.mp hk).1

theorem monkeyAt?_eq_none {cell : Cell} (h : b.monkeyAt? cell = none) (j : Fin 7) :
    (b.monkey j).cell ≠ cell := by
  have hall := Vector.findFinIdx?_eq_none_iff.mp h (b.monkey j) (Vector.getElem_mem j.isLt)
  simpa using hall

theorem monkeyAt?_eq_some_iff (h : b.Sound) {cell : Cell} :
    b.monkeyAt? cell = some j ↔ (b.monkey j).cell = cell := by
  refine ⟨monkeyAt?_eq_some, fun hj => ?_⟩
  cases hm : b.monkeyAt? cell with
  | none => exact absurd hj (monkeyAt?_eq_none hm j)
  | some k => rw [h.apart k j ((monkeyAt?_eq_some hm).trans hj.symm)]

theorem move (h : b.Sound) (hi : (b.monkey i).sleeping = false) (direction : Direction) :
    (b.move i direction).Sound := by
  unfold Board.move
  cases hn : (b.monkey i).cell.next? direction with
  | none => exact h.modify (fun _ => rfl) (fun _ _ hid => hid) fun _ hs => .inl hs
  | some cell =>
    dsimp only
    cases hm : b.monkeyAt? cell with
    | some j =>
      have hij : i ≠ j := by
        rintro rfl
        exact Cell.next?_ne hn (monkeyAt?_eq_some hm).symm
      exact h.bump hij hi
    | none => exact h.walk ((h.standing i).next hn) (monkeyAt?_eq_none hm)

theorem bananaAt?_eq_some {cell : Cell} {id : Nat} (h : b.bananaAt? cell = some id) :
    ⟨id, cell⟩ ∈ b.bananas := by
  obtain ⟨banana, hfind, rfl⟩ := Option.map_eq_some_iff.mp h
  have hcell : banana.cell = cell := by simpa using List.find?_some hfind
  subst hcell
  exact List.mem_of_find?_eq_some hfind

theorem grab (h : b.Sound) (hi : (b.monkey i).sleeping = false) : (b.grab i).Sound := by
  unfold Board.grab
  split
  · exact h
  · have hcell : ∀ k, ((b.modify i fun m => { m with banana := b.bananaAt? m.cell }).monkey k).cell =
        (b.monkey k).cell := by
      intro k
      rw [monkey_modify]
      split
      · next hk => rw [hk]
      · rfl
    refine ⟨?_, ?_, h.numbered, h.lying, ?_, ?_⟩
    · intro k
      rw [hcell]
      exact h.standing k
    · intro k l hkl
      rw [hcell, hcell] at hkl
      exact h.apart k l hkl
    · intro k id hid
      rw [hcell]
      by_cases hk : k = i
      · rw [hk, monkey_modify_self] at hid
        rw [hk]
        exact bananaAt?_eq_some hid
      · rw [monkey_modify_of_ne hk] at hid
        exact h.carried k id hid
    · intro k hs
      by_cases hk : k = i
      · rw [hk, monkey_modify_self] at hs
        simp [hi] at hs
      · rw [monkey_modify_of_ne hk] at hs ⊢
        exact h.resting k hs

theorem release (h : b.Sound) : (b.modify i fun m => { m with banana := none }).Sound := by
  apply h.modify
  · exact fun _ => rfl
  · intro m number hnone
    cases hnone
  · exact fun _ _ => .inr rfl

theorem eat (h : b.Sound) : (b.eat i).Sound := by
  unfold Board.eat
  cases hb : (b.monkey i).banana with
  | none => exact h
  | some id =>
    dsimp only
    have hd : (b.modify i fun m => { m with banana := none }).Sound := h.release
    refine ⟨hd.standing, hd.apart, ?_, ?_, ?_, hd.resting⟩
    · exact h.numbered.sublist (List.filter_sublist.map Banana.id)
    · exact fun banana hmem => h.lying banana (List.mem_of_mem_filter hmem)
    · intro k number hk
      refine List.mem_filter.mpr ⟨hd.carried k number hk, ?_⟩
      have hk' : ((b.modify i fun m => { m with banana := none }).monkey k).banana =
        some number := hk
      have hki : k ≠ i := by
        rintro rfl
        simp [monkey_modify_self] at hk'
      rw [monkey_modify_of_ne hki] at hk'
      have hne : number ≠ id := fun he => hki (h.carrier_unique (he ▸ hk') hb)
      simpa using hne

end Sound

end Board

end Esolang.Troop
