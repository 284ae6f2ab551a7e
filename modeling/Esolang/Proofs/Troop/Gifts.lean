import Esolang.Proofs.Troop.Bananas

/-! Bananas that one monkey gives to another. It does not matter which of the two moves: the one that
carries a banana gives it to the one that has none, and the next such move gives it back. Since no
other banana has its id, it is then where it was before. -/

namespace Esolang.Troop

def Direction.opposite : Direction → Direction
  | .up => .down
  | .down => .up
  | .left => .right
  | .right => .left

theorem Cell.OnBoard.next?_opposite {cell next : Cell} {direction : Direction} (h : cell.OnBoard)
    (hn : cell.next? direction = some next) : next.next? direction.opposite = some cell := by
  obtain ⟨hx, hy⟩ := h
  cases direction <;> simp only [Cell.next?, Option.ite_none_right_eq_some, Option.some.injEq] at hn
  all_goals
    obtain ⟨hlt, rfl⟩ := hn
    simp only [Direction.opposite, Cell.next?, Option.ite_none_right_eq_some, Option.some.injEq]
  · exact ⟨by omega, congrArg _ (Nat.sub_add_cancel hlt)⟩
  · exact ⟨Nat.succ_pos _, rfl⟩
  · exact ⟨by omega, congrArg (Cell.mk · cell.y) (Nat.sub_add_cancel hlt)⟩
  · exact ⟨Nat.succ_pos _, rfl⟩

namespace Board

variable {b b' : Board} {i j giver taker : Fin 7} {id : Nat} {cell : Cell} {d : Direction}

/-- One monkey gives a banana to another one, and the banana is brought to that one's cell. -/
def gift (giver taker : Fin 7) (id : Nat) (b : Board) : Board where
  monkeys := Vector.ofFn fun k =>
    { b.monkey k with
      banana := if k = giver then none else if k = taker then some id else (b.monkey k).banana }
  bananas := (b.bring (some id) (b.monkey taker).cell).bananas

theorem monkey_gift (giver taker : Fin 7) (id : Nat) (b : Board) (k : Fin 7) :
    (b.gift giver taker id).monkey k = { b.monkey k with
      banana := if k = giver then none else if k = taker then some id else (b.monkey k).banana } :=
  Vector.getElem_ofFn k.isLt

theorem ext_pair (hi : b.monkey i = b'.monkey i) (hj : b.monkey j = b'.monkey j)
    (hother : ∀ k, k ≠ i → k ≠ j → b.monkey k = b'.monkey k)
    (hbananas : b.bananas = b'.bananas) : b = b' := by
  refine ext_monkey (fun k => ?_) hbananas
  by_cases hki : k = i
  · rw [hki, hi]
  · by_cases hkj : k = j
    · rw [hkj, hj]
    · exact hother k hki hkj

theorem bring_bring (id : Option Nat) (first second : Cell) (b : Board) :
    (b.bring id first).bring id second = b.bring id second := by
  simp only [bring, List.map_map]
  congr 1
  apply List.map_congr_left
  intro banana _
  by_cases h : some banana.id = id <;> simp [h]

theorem Sound.bring_self (h : b.Sound) (hmem : ⟨id, cell⟩ ∈ b.bananas) :
    b.bring (some id) cell = b := by
  have hsame : ∀ banana ∈ b.bananas,
      (if some banana.id = some id then { banana with cell } else banana) = banana := by
    intro banana hin
    split
    · next hid =>
      obtain rfl := Option.some.inj hid
      rw [h.cell_eq hmem hin]
    · rfl
  exact congrArg (Board.mk b.monkeys) ((List.map_congr_left hsame).trans (List.map_id _))

/-- One of two monkeys has a banana that it can give to the other one. -/
structure CanGive (b : Board) (giver taker : Fin 7) (id : Nat) : Prop where
  carries : (b.monkey giver).banana = some id
  empty : (b.monkey taker).banana = none
  giver_awake : (b.monkey giver).sleeping = false
  taker_awake : (b.monkey taker).sleeping = false

namespace CanGive

theorem ne (c : b.CanGive giver taker id) : giver ≠ taker := by
  rintro rfl
  cases c.carries.symm.trans c.empty

theorem monkey_giver (giver taker : Fin 7) (id : Nat) (b : Board) :
    (b.gift giver taker id).monkey giver = { b.monkey giver with banana := none } := by
  rw [monkey_gift, if_pos rfl]

theorem monkey_taker (c : b.CanGive giver taker id) :
    (b.gift giver taker id).monkey taker = { b.monkey taker with banana := some id } := by
  rw [monkey_gift, if_neg c.ne.symm, if_pos rfl]

theorem monkey_other {k : Fin 7} (hgiver : k ≠ giver) (htaker : k ≠ taker) :
    (b.gift giver taker id).monkey k = b.monkey k := by
  rw [monkey_gift, if_neg hgiver, if_neg htaker]

theorem sound_gift (c : b.CanGive giver taker id) (h : b.Sound) :
    (b.gift giver taker id).Sound :=
  h.of_gift c.carries c.empty c.taker_awake (monkey_giver giver taker id b) c.monkey_taker
    (fun _ => monkey_other) rfl

theorem of_isSome_ne (hi : (b.monkey i).sleeping = false) (hj : (b.monkey j).sleeping = false)
    (hone : (b.monkey i).banana.isSome ≠ (b.monkey j).banana.isSome) :
    ∃ giver taker id, (giver = i ∧ taker = j ∨ giver = j ∧ taker = i) ∧
      b.CanGive giver taker id := by
  cases hmine : (b.monkey i).banana with
  | some id =>
    cases htheirs : (b.monkey j).banana with
    | some _ => simp [hmine, htheirs] at hone
    | none => exact ⟨i, j, id, .inl ⟨rfl, rfl⟩, hmine, htheirs, hi, hj⟩
  | none =>
    cases htheirs : (b.monkey j).banana with
    | some id => exact ⟨j, i, id, .inr ⟨rfl, rfl⟩, htheirs, hmine, hj, hi⟩
    | none => simp [hmine, htheirs] at hone

theorem symm (c : b.CanGive giver taker id) : (b.gift giver taker id).CanGive taker giver id where
  carries := by rw [c.monkey_taker]
  empty := by rw [monkey_giver]
  giver_awake := by rw [c.monkey_taker, c.taker_awake]
  taker_awake := by rw [monkey_giver, c.giver_awake]

theorem gift_back (c : b.CanGive giver taker id) (h : b.Sound) :
    (b.gift giver taker id).gift taker giver id = b := by
  have hcell : ((b.gift giver taker id).monkey giver).cell = (b.monkey giver).cell := by
    rw [monkey_gift]
  have htwice : ((b.gift giver taker id).gift taker giver id).bananas =
      ((b.bring (some id) (b.monkey taker).cell).bring (some id)
        ((b.gift giver taker id).monkey giver).cell).bananas := rfl
  refine ext_pair (i := giver) (j := taker) ?_ ?_ (fun k hk hk' => ?_) ?_
  · rw [c.symm.monkey_taker, monkey_giver, ← c.carries]
  · rw [monkey_giver, c.monkey_taker, ← c.empty]
  · rw [monkey_other hk' hk, monkey_other hk hk']
  · rw [htwice, hcell, bring_bring, h.bring_self (h.carried giver id c.carries)]

theorem handOver_eq (c : b.CanGive giver taker id) :
    b.handOver giver taker = b.gift giver taker id := by
  obtain ⟨hgiver, htaker, hother, hbananas⟩ := handOver_spec c.ne b
  refine ext_pair (i := giver) (j := taker) ?_ ?_ (fun k hk hk' => ?_) ?_
  · rw [hgiver, monkey_giver, c.empty]
  · rw [htaker, c.monkey_taker, c.carries]
  · rw [hother k hk hk', monkey_other hk hk']
  · rw [hbananas, c.carries, c.empty, bring_none]
    rfl

theorem handOver_symm (c : b.CanGive giver taker id) :
    b.handOver taker giver = b.handOver giver taker := by
  obtain ⟨hgiver, htaker, hother, hbananas⟩ := handOver_spec c.ne b
  obtain ⟨htaker', hgiver', hother', hbananas'⟩ := handOver_spec c.ne.symm b
  refine ext_pair (i := giver) (j := taker) ?_ ?_ (fun k hk hk' => ?_) ?_
  · rw [hgiver, hgiver']
  · rw [htaker, htaker']
  · rw [hother k hk hk', hother' k hk' hk]
  · rw [hbananas, hbananas', c.carries, c.empty, bring_none, bring_none]

/-- Who gives depends on who carries the banana, and not on who moves. -/
theorem move_eq (c : b.CanGive giver taker id) (h : b.Sound)
    (hroles : giver = i ∧ taker = j ∨ giver = j ∧ taker = i)
    (hn : (b.monkey i).cell.next? d = some (b.monkey j).cell) :
    b.move i d = b.gift giver taker id := by
  have hbump : b.move i d = b.bump i j := by
    rw [Board.move, hn]
    dsimp only
    rw [h.monkeyAt?_eq_some_iff.mpr rfl]
  rcases hroles with ⟨rfl, rfl⟩ | ⟨rfl, rfl⟩
  · rw [hbump, Board.bump, c.taker_awake, c.carries, c.empty]
    exact c.handOver_eq
  · rw [hbump, Board.bump, c.giver_awake, c.carries, c.empty]
    exact c.handOver_symm.trans c.handOver_eq

end CanGive

end Board

namespace Machine

variable {m : Machine} {i j giver taker : Fin 7} {id : Nat} {d : Direction}

theorem execute_gift (c : m.board.CanGive giver taker id) (h : m.board.Sound)
    (hroles : giver = i ∧ taker = j ∨ giver = j ∧ taker = i)
    (hn : (m.board.monkey i).cell.next? d = some (m.board.monkey j).cell) :
    (execute ⟨i, d.action⟩).on m = (.ok (), m.changeBoard (Board.gift giver taker id)) := by
  have hi : (m.board.monkey i).sleeping = false := by
    rcases hroles with ⟨rfl, -⟩ | ⟨-, rfl⟩
    · exact c.giver_awake
    · exact c.taker_awake
  rw [execute_awake hi, act_move, Call.on_modify, changeBoard, changeBoard, c.move_eq h hroles hn]

/-- The two have kept their places and exchanged their roles. -/
theorem execute_gift_back (c : m.board.CanGive giver taker id) (h : m.board.Sound)
    (hroles : giver = i ∧ taker = j ∨ giver = j ∧ taker = i)
    (hn : (m.board.monkey i).cell.next? d = some (m.board.monkey j).cell) :
    (execute ⟨i, d.action⟩).on (m.changeBoard (Board.gift giver taker id)) = (.ok (), m) := by
  have hnext : ((m.board.gift giver taker id).monkey i).cell.next? d =
      some ((m.board.gift giver taker id).monkey j).cell := by
    rw [Board.monkey_gift, Board.monkey_gift]
    exact hn
  have hgift := execute_gift (m := m.changeBoard (Board.gift giver taker id)) c.symm
    (c.sound_gift h) (hroles.symm.imp And.symm And.symm) hnext
  have hboard : (m.board.gift giver taker id).gift taker giver id = m.board := c.gift_back h
  rw [hgift]
  exact congrArg (fun b => (Except.ok (), m.withBoard b)) hboard

/-- A move onto a monkey that is awake hands over the banana that just one of the two carries. The same
move brings it back, and so does a move of the other one in the opposite direction. -/
theorem hand_over_is_undone (m : Machine) (h : m.board.Sound) (i j : Fin 7) (d : Direction)
    (hi : (m.board.monkey i).sleeping = false) (hj : (m.board.monkey j).sleeping = false)
    (hn : (m.board.monkey i).cell.next? d = some (m.board.monkey j).cell)
    (hone : (m.board.monkey i).banana.isSome ≠ (m.board.monkey j).banana.isSome) :
    (m.board.monkey j).cell.next? d.opposite = some (m.board.monkey i).cell ∧
    ∃ giver taker id, (giver = i ∧ taker = j ∨ giver = j ∧ taker = i) ∧
      m.board.CanGive giver taker id ∧
      ⟨id, (m.board.monkey taker).cell⟩ ∈ (m.board.gift giver taker id).bananas ∧
      (execute ⟨i, d.action⟩).on m = (.ok (), m.changeBoard (Board.gift giver taker id)) ∧
      (do execute ⟨i, d.action⟩; execute ⟨i, d.action⟩).on m = (.ok (), m) ∧
      (do execute ⟨i, d.action⟩; execute ⟨j, d.opposite.action⟩).on m = (.ok (), m) := by
  have hback := (h.standing i).next?_opposite hn
  obtain ⟨giver, taker, id, hroles, c⟩ := Board.CanGive.of_isSome_ne hi hj hone
  have hgives := execute_gift c h hroles hn
  refine ⟨hback, giver, taker, id, hroles, c, ?_, hgives, ?_, ?_⟩
  · have hmem := (c.sound_gift h).carried taker id c.symm.carries
    rwa [Board.monkey_gift] at hmem
  · rw [Call.on_bind, hgives]
    exact execute_gift_back c h hroles hn
  · rw [Call.on_bind, hgives]
    exact execute_gift_back c h hroles.symm hback

/-- The sixth monkey comes up with its banana, and then the fourth one is to its right. -/
theorem picnic_hands_over :
    (do execute ⟨3, .left⟩; execute ⟨5, .right⟩).on (interpreter.after 2 picnic) =
        (.ok (), interpreter.after 2 picnic) ∧
      (execute ⟨3, .left⟩).on (interpreter.after 2 picnic) =
        (.ok (), (interpreter.after 2 picnic).changeBoard (Board.gift 5 3 12)) := by
  have h : (interpreter.after 2 picnic).board.Sound := sound_after Board.sound_start 2
  have hbanana : ((interpreter.after 2 picnic).board.monkey 5).banana = some 12 := by
    decide +kernel
  have hnone : ((interpreter.after 2 picnic).board.monkey 3).banana = none := by decide +kernel
  obtain ⟨-, giver, taker, id, hroles, c, -, hgives, -, hreturns⟩ :=
    hand_over_is_undone (interpreter.after 2 picnic) h 3 5 .left (by decide +kernel)
      (by decide +kernel) (by decide +kernel) (by rw [hbanana, hnone]; exact nofun)
  rcases hroles with ⟨rfl, rfl⟩ | ⟨rfl, rfl⟩
  · cases c.carries.symm.trans hnone
  · obtain rfl := Option.some.inj (c.carries.symm.trans hbanana)
    exact ⟨hreturns, hgives⟩

end Machine

end Esolang.Troop
