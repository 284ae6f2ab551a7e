import Esolang.Proofs.Course
import Esolang.Proofs.Troop.Sound
import Esolang.Proofs.Troop.Steps

/-! What a monkey does to the values of those around it. The one that acts keeps its own value, and
nobody moves or falls asleep, so the others can be told about it in any order, and what a monkey has
added it can take away. -/

namespace Esolang.Troop

/-- How far two cells are from each other, if diagonal steps count as one. -/
def Cell.distance (a b : Cell) : Nat :=
  max (a.x - b.x : Int).natAbs (a.y - b.y : Int).natAbs

theorem Cell.adjacent_iff_distance {a b : Cell} : a.adjacent b = true ↔ a.distance b ≤ 1 := by
  simp only [adjacent, distance, Bool.and_eq_true, decide_eq_true_eq]
  omega

/-- The value that a group action gives to a monkey, by its value and that of the one that acts. -/
def groupLaw? : Action → Option (Int → Int → Int)
  | .teach => some fun v a => (v + a) % 256
  | .fight => some fun v a => (v - a) % 256
  | .bond => some fun v a => v * a % 256
  | .ego => some fun v a => if a = 0 then v else v / a
  | _ => none

def Follows (f : UInt8 → UInt8 → UInt8) (law : Int → Int → Int) : Prop :=
  ∀ v a, ((f v a).toNat : Int) = law v.toNat a.toNat

theorem follows_add : Follows (fun v a => v + a) fun v a => (v + a) % 256 := by
  intro v a
  rw [UInt8.toNat_add]
  rfl

theorem follows_sub : Follows (fun v a => v - a) fun v a => (v - a) % 256 := by
  intro v a
  have ha := a.toNat_lt
  rw [UInt8.toNat_sub]
  dsimp only
  omega

theorem follows_mul : Follows (fun v a => v * a) fun v a => v * a % 256 := by
  intro v a
  rw [UInt8.toNat_mul]
  rfl

theorem follows_div : Follows (fun v a => if a = 0 then v else v / a)
    fun v a => if a = 0 then v else v / a := by
  intro v a
  by_cases ha : a = 0
  · subst ha
    rfl
  · have hnat : (a.toNat : Int) ≠ 0 := by simpa [← UInt8.toNat_inj] using ha
    dsimp only
    rw [if_neg ha, if_neg hnat, UInt8.toNat_div, Int.natCast_ediv]

namespace Board

variable {b : Board} {i j k : Fin 7} {f g : UInt8 → UInt8 → UInt8} {law : Int → Int → Int}

/-- A group action of the first monkey concerns the second one. -/
def Sways (b : Board) (i k : Fin 7) : Prop :=
  k ≠ i ∧ (b.monkey k).sleeping = false ∧ (b.monkey i).cell.distance (b.monkey k).cell ≤ 1

instance : Decidable (b.Sways i k) := inferInstanceAs (Decidable (_ ∧ _ ∧ _))

/-- What a group action changes on a board, and what it leaves alone. -/
structure Swayed (b : Board) (i : Fin 7) (law : Int → Int → Int) (b' : Board) : Prop where
  bananas : b'.bananas = b.bananas
  swayed : ∀ k, b.Sways i k → ∃ value : UInt8, b'.monkey k = { b.monkey k with value } ∧
    (value.toNat : Int) = law (b.monkey k).value.toNat (b.monkey i).value.toNat
  spared : ∀ k, ¬ b.Sways i k → b'.monkey k = b.monkey k

/-- What a visit to one monkey changes, if the others are visited one after the other. -/
def visit (i : Fin 7) (law : Int → Int → Int) (b : Board) (k : Fin 7) : Board :=
  if b.Sways i k then
    b.modify k fun m => { m with value := .ofNat (law m.value.toNat (b.monkey i).value.toNat).toNat }
  else b

theorem influence_of_sways (h : b.Sways i k) (f : UInt8 → UInt8 → UInt8) :
    (b.influence i f).monkey k =
      { b.monkey k with value := f (b.monkey k).value (b.monkey i).value } := by
  rw [influence_spec, if_pos ⟨h.1, h.2.1, Cell.adjacent_iff_distance.mpr h.2.2⟩]

theorem influence_of_not_sways (h : ¬ b.Sways i k) (f : UInt8 → UInt8 → UInt8) :
    (b.influence i f).monkey k = b.monkey k := by
  rw [influence_spec, if_neg fun hk => h ⟨hk.1, hk.2.1, Cell.adjacent_iff_distance.mp hk.2.2⟩]

theorem not_sways_self (b : Board) (i : Fin 7) : ¬ b.Sways i i := fun h => h.1 rfl

theorem sways_influence : (b.influence i f).Sways i k ↔ b.Sways i k := by
  obtain ⟨value, hk⟩ := monkey_influence i k f b
  rw [Sways, Sways, influence_of_not_sways (not_sways_self b i), hk]

theorem swayed_influence (hf : Follows f law) (i : Fin 7) (b : Board) :
    b.Swayed i law (b.influence i f) where
  bananas := rfl
  swayed _ hk := ⟨_, influence_of_sways hk f, hf _ _⟩
  spared _ hk := influence_of_not_sways hk f

theorem influence_undone (hfg : ∀ v a, g (f v a) a = v) (i : Fin 7) (b : Board) :
    (b.influence i f).influence i g = b := by
  apply ext_monkey
  · intro k
    by_cases hk : b.Sways i k
    · rw [influence_of_sways (sways_influence.mpr hk), influence_of_sways hk,
        influence_of_not_sways (not_sways_self b i), hfg]
    · rw [influence_of_not_sways (mt sways_influence.mp hk), influence_of_not_sways hk]
  · rfl

theorem visit_of_ne (hk : k ≠ j) : (b.visit i law j).monkey k = b.monkey k := by
  unfold visit
  split
  · exact monkey_modify_of_ne hk _ b
  · rfl

theorem visit_of_actor : (b.visit i law j).monkey i = b.monkey i := by
  by_cases hj : b.Sways i j
  · exact visit_of_ne hj.1.symm
  · rw [visit, if_neg hj]

theorem visit_eq_influence (hf : Follows f law) :
    (b.visit i law k).monkey k = (b.influence i f).monkey k := by
  by_cases hk : b.Sways i k
  · rw [visit, if_pos hk, monkey_modify_self, influence_of_sways hk, ← hf, Int.toNat_natCast,
      UInt8.ofNat_toNat]
  · rw [visit, if_neg hk, influence_of_not_sways hk]

theorem influence_visit_of_ne (hk : k ≠ j) :
    ((b.visit i law j).influence i f).monkey k = (b.influence i f).monkey k := by
  rw [influence_spec, influence_spec, visit_of_actor, visit_of_ne hk]

theorem bananas_visit : (b.visit i law k).bananas = b.bananas := by
  unfold visit
  split <;> rfl

/-- By induction on those still to be visited: a visit has no influence on the other visits. -/
theorem foldl_visit (hf : Follows f law) {order : List (Fin 7)} (hnodup : order.Nodup) :
    (order.foldl (visit i law) b).bananas = b.bananas ∧
      (∀ k ∈ order, (order.foldl (visit i law) b).monkey k = (b.influence i f).monkey k) ∧
      ∀ k, k ∉ order → (order.foldl (visit i law) b).monkey k = b.monkey k := by
  induction order generalizing b with
  | nil => exact ⟨rfl, fun k hk => absurd hk List.not_mem_nil, fun _ _ => rfl⟩
  | cons j order ih =>
    obtain ⟨hj, hrest⟩ := List.nodup_cons.mp hnodup
    obtain ⟨hbananas, hvisited, hskipped⟩ := ih (b := b.visit i law j) hrest
    refine ⟨hbananas.trans bananas_visit, fun k hk => ?_, fun k hk => ?_⟩
    · rcases List.mem_cons.mp hk with rfl | hk
      · exact (hskipped k hj).trans (visit_eq_influence hf)
      · have hkj : k ≠ j := ne_of_mem_of_not_mem hk hj
        exact (hvisited k hk).trans (influence_visit_of_ne hkj)
    · rw [List.mem_cons, not_or] at hk
      exact (hskipped k hk.2).trans (visit_of_ne hk.1)

theorem foldl_visit_all (hf : Follows f law) {order : List (Fin 7)}
    (horder : order.Perm (List.finRange 7)) :
    order.foldl (visit i law) b = b.influence i f := by
  obtain ⟨hbananas, hvisited, -⟩ :=
    foldl_visit (b := b) (i := i) hf (horder.nodup_iff.mpr (List.nodup_finRange 7))
  exact ext_monkey (fun k => hvisited k (horder.mem_iff.mpr (List.mem_finRange k))) hbananas

end Board

namespace Machine

variable {m : Machine} {i : Fin 7} {action : Action} {law : Int → Int → Int}

theorem act_of_groupLaw (h : groupLaw? action = some law) (i : Fin 7) :
    ∃ f, Follows f law ∧ act i action = modify (changeBoard (Board.influence i f)) := by
  cases action <;> cases h
  · exact ⟨_, follows_add, rfl⟩
  · exact ⟨_, follows_sub, rfl⟩
  · exact ⟨_, follows_mul, rfl⟩
  · exact ⟨_, follows_div, rfl⟩

theorem execute_influence {f : UInt8 → UInt8 → UInt8} (hi : (m.board.monkey i).sleeping = false)
    (hact : act i action = modify (changeBoard (Board.influence i f))) :
    (execute ⟨i, action⟩).on m = (.ok (), m.withBoard (m.board.influence i f)) := by
  rw [execute_awake hi, hact]
  rfl

theorem execute_undone {f g : UInt8 → UInt8 → UInt8} {first second : Action}
    (hi : (m.board.monkey i).sleeping = false)
    (hfirst : act i first = modify (changeBoard (Board.influence i f)))
    (hsecond : act i second = modify (changeBoard (Board.influence i g)))
    (hfg : ∀ v a, g (f v a) a = v) :
    (do execute ⟨i, first⟩; execute ⟨i, second⟩).on m = (.ok (), m) := by
  have hawake : ((m.board.influence i f).monkey i).sleeping = false := by
    rw [Board.influence_of_not_sways (Board.not_sways_self m.board i), hi]
  have hback : (execute ⟨i, second⟩).on (m.withBoard (m.board.influence i f)) =
      (.ok (), m.withBoard ((m.board.influence i f).influence i g)) :=
    execute_influence hawake hsecond
  rw [Call.on_bind, execute_influence hi hfirst]
  dsimp only
  rw [hback, Board.influence_undone hfg]
  rfl

/-- A group action changes the values of the monkeys it concerns by its law and nothing else, and those
may be visited in any order. To teach and to fight undo each other. -/
theorem group_actions_sway_neighbours (m : Machine) (i : Fin 7)
    (hi : (m.board.monkey i).sleeping = false) :
    (∀ action law, groupLaw? action = some law →
      ∃ b, (execute ⟨i, action⟩).on m = (.ok (), m.withBoard b) ∧ m.board.Swayed i law b ∧
        ∀ order : List (Fin 7), order.Perm (List.finRange 7) →
          order.foldl (Board.visit i law) m.board = b) ∧
    (do execute ⟨i, .teach⟩; execute ⟨i, .fight⟩).on m = (.ok (), m) ∧
    (do execute ⟨i, .fight⟩; execute ⟨i, .teach⟩).on m = (.ok (), m) := by
  refine ⟨fun action law hlaw => ?_, ?_, ?_⟩
  · obtain ⟨f, hf, hact⟩ := act_of_groupLaw hlaw i
    exact ⟨m.board.influence i f, execute_influence hi hact, Board.swayed_influence hf i m.board,
      fun order horder => Board.foldl_visit_all hf horder⟩
  · exact execute_undone hi rfl rfl fun v a => UInt8.add_sub_cancel v a
  · exact execute_undone hi rfl rfl fun v a => UInt8.sub_add_cancel v a

/-- The fourth monkey and the sixth one, next to each other, learn values to begin with. -/
def lesson : Machine :=
  { code := (parse false "4 LEARN\n6 LEARN".toList).toArray
    strict := false, rng := .ofSeed 0, input := .ofText ['È', 'd'], output := {} }

theorem lesson_sways_neighbour :
    (∃ b, (execute ⟨5, .teach⟩).on (interpreter.after 2 lesson) =
        (.ok (), (interpreter.after 2 lesson).withBoard b) ∧
      (b.monkey 3).value.toNat = 44 ∧ (b.monkey 5).value.toNat = 100 ∧
      [6, 5, 4, 3, 2, 1, 0].foldl (Board.visit 5 fun v a => (v + a) % 256)
        (interpreter.after 2 lesson).board = b) ∧
    (do execute ⟨5, .teach⟩; execute ⟨5, .fight⟩).on (interpreter.after 2 lesson) =
      (.ok (), interpreter.after 2 lesson) := by
  obtain ⟨hsways, hundone, -⟩ :=
    group_actions_sway_neighbours (interpreter.after 2 lesson) 5 (by decide +kernel)
  obtain ⟨b, hteach, hboard, horder⟩ := hsways .teach _ rfl
  obtain ⟨value, hmonkey, hvalue⟩ := hboard.swayed 3 (by decide +kernel)
  have hsum : (value.toNat : Int) = 44 := hvalue.trans (by decide +kernel)
  refine ⟨⟨b, hteach, ?_, ?_, horder _ (by decide)⟩, hundone⟩
  · rw [hmonkey]
    exact Int.ofNat.inj hsum
  · rw [hboard.spared 5 (Board.not_sways_self _ 5)]
    decide +kernel

end Machine

end Esolang.Troop
