import Esolang.Proofs.Course
import Esolang.Proofs.Grid.Failure
import Esolang.Proofs.Grid.Layout

/-! The playfield as a memory. A `g` reads what the last `p` has put into a cell, or the character
that the source has there, and so does the machine when it fetches an instruction. A `p` changes the
cell that it addresses and no other, and nothing else changes a cell. -/

namespace Esolang.Grid

open Playfield

/-- What a `p` puts where. -/
structure Put where
  x : Int64
  y : Int64
  value : Int64
  deriving DecidableEq, Repr

/-- The machine can store a value in a place. -/
def Put.Fits (width height : Nat) (put : Put) : Prop :=
  0 ≤ put.x.toInt ∧ put.x.toInt < width ∧ 0 ≤ put.y.toInt ∧ put.y.toInt < height ∧
    IsScalar put.value.toInt

theorem Playfield.place?_eq_some_iff {f : Playfield} {x y : Int64} {place : Nat × Nat} :
    f.place? x y = some place ↔
      (0 ≤ x.toInt ∧ x.toInt < f.width ∧ 0 ≤ y.toInt ∧ y.toInt < f.height) ∧
        (x.toInt.toNat, y.toInt.toNat) = place := by
  rw [place?, Option.ite_none_right_eq_some, Option.some.injEq]

namespace Machine

/-- The value that was put into a cell last, where the last put comes first. -/
def lastPut? (puts : List Put) (x y : Int) : Option Int64 :=
  (puts.find? fun put => put.x.toInt = x ∧ put.y.toInt = y).map Put.value

/-- What is read from a playfield that a text has been laid out on. -/
def content (width height : Nat) (text : List (List Char)) (puts : List Put) (x y : Int) : Int64 :=
  if 0 ≤ x ∧ x < width ∧ 0 ≤ y ∧ y < height then
    (lastPut? puts x y).getD (wordOf ((charIn? text x.toNat y.toNat).getD ' '))
  else 0

theorem lastPut?_cons (put : Put) (puts : List Put) (x y : Int) :
    lastPut? (put :: puts) x y =
      if put.x.toInt = x ∧ put.y.toInt = y then some put.value else lastPut? puts x y := by
  by_cases h : put.x.toInt = x ∧ put.y.toInt = y
  · simp [lastPut?, h]
  · rw [if_neg h, lastPut?, List.find?_cons_of_neg (by simpa using h)]
    rfl

theorem wordOf_of_scalar? {value : Int64} {c : Char} (h : scalar? value.toInt = some c) :
    wordOf c = value := by
  rw [wordOf, ← scalar?_eq_some_iff.mp h, Int64.ofInt_toInt]

theorem scalar?_isSome_iff (code : Int) : (scalar? code).isSome ↔ IsScalar code := by
  rw [← not_iff_not, ← scalar?_eq_none_iff]
  simp

variable {m t start : Machine} {puts : List Put} {width height : Nat} {text : List (List Char)}
  {x y value : Int64}

/-- So many operands can be taken, where zeros may stand in for missing ones. -/
def Supplies (n : Nat) (m : Machine) : Prop := m.underflow = .zero ∨ n ≤ m.stack.length

instance (n : Nat) (m : Machine) : Decidable (m.Supplies n) := inferInstanceAs (Decidable (_ ∨ _))

/-- What the next step is to put where, if it carries out a `p`. -/
def request (m : Machine) : Put where
  x := m.stack.getD 1 0
  y := m.stack.getD 0 0
  value := m.stack.getD 2 0

/-- What the next step puts where; a step that fails puts nothing. -/
def put? (m : Machine) : Option Put :=
  match m.stringMode, m.here, (step.on m).1 with
  | false, 'p', .ok _ => some m.request
  | _, _, _ => none

/-- The machine has come from another one by calls, whatever became of them, but by no load that
succeeded, and these are the puts on the way, the last one first. -/
inductive Since (start : Machine) : List Put → Machine → Prop where
  | start : Since start [] start
  | step {puts : List Put} {m : Machine} (h : Since start puts m) :
    Since start (m.put?.toList ++ puts) (step.on m).2
  | resolveDivision {puts : List Put} {m : Machine} (h : Since start puts m) (value : Int64) :
    Since start puts ((resolveDivision value).on m).2
  | finish {puts : List Put} {m : Machine} (h : Since start puts m) :
    Since start puts (finish.on m).2
  | refuse {puts : List Put} {m t : Machine} {source : String} {e : SourceError}
    (h : Since start puts m) (ht : (load source).on m = (.error e, t)) : Since start puts t

/-- The call leaves the playfield as it is. -/
def Spares {α : Type} (call : Call Machine Error α) : Prop :=
  ∀ f : Playfield, call.Keeps fun m => m.field = f

theorem pop_spares (instruction : Char) : Spares (pop instruction) := by
  intro f m hm
  rw [pop_on]
  split <;> exact hm

theorem modify_spares {g : Machine → Machine} (h : ∀ m, (g m).field = m.field) :
    Spares (modify g : Call Machine Error PUnit) :=
  fun _ => .modify fun m hm => (h m).trans hm

theorem take_spares {α : Type} (instruction : Char) {rest : Int64 → Call Machine Error α}
    (h : ∀ value, Spares (rest value)) : Spares (pop instruction >>= rest) :=
  fun f => .bind (pop_spares instruction f) fun value => h value f

theorem combine_spares (instruction : Char) (f : Int64 → Int64 → Int64) :
    Spares (combine instruction f) :=
  take_spares instruction fun _ => take_spares instruction fun _ => modify_spares fun _ => rfl

theorem branch_spares (instruction : Char) (zero other : Direction) :
    Spares (branch instruction zero other) :=
  take_spares instruction fun _ => modify_spares fun _ => rfl

theorem divide_spares (instruction : Char) (g : Int64 → Int64 → Int64) :
    Spares (divide instruction g) := by
  intro f m hm
  by_cases ho : m.HasOperands
  · rw [divide_on instruction g ho]
    split <;> exact hm
  · rw [divide_on_missing instruction g ho]
    exact hm

theorem onOutput_spares (call : Call Sink Error Unit) : Spares (onOutput call) :=
  fun _ _ hm => hm

theorem execute_spares {instruction : Char} (h : instruction ≠ 'p') :
    Spares (execute instruction) := by
  -- One case for each instruction, in the order of the definition.
  unfold execute
  split
  · exact combine_spares _ _
  · exact combine_spares _ _
  · exact combine_spares _ _
  · exact divide_spares _ _
  · exact divide_spares _ _
  · exact take_spares _ fun _ => modify_spares fun _ => rfl
  · exact combine_spares _ _
  · exact modify_spares fun _ => rfl
  · exact modify_spares fun _ => rfl
  · exact modify_spares fun _ => rfl
  · exact modify_spares fun _ => rfl
  · exact modify_spares fun _ => rfl
  · exact branch_spares _ _ _
  · exact branch_spares _ _ _
  · exact modify_spares fun _ => rfl
  · exact take_spares _ fun _ => modify_spares fun _ => rfl
  · exact take_spares _ fun _ => take_spares _ fun _ => modify_spares fun _ => rfl
  · exact take_spares _ fun _ _ => .pure _
  · exact take_spares _ fun _ => onOutput_spares _
  · exact take_spares _ fun _ => onOutput_spares _
  · exact modify_spares fun _ => rfl
  · exact take_spares _ fun _ => take_spares _ fun _ => modify_spares fun _ => rfl
  · exact absurd rfl h
  · exact fun _ => .throw _
  · exact fun _ => .throw _
  · split
    · exact modify_spares fun _ => rfl
    · exact fun _ => .pure _

theorem pop_of_supplies {n : Nat} (instruction : Char) (h : m.Supplies (n + 1)) :
    (pop instruction).on m = (.ok (m.stack.getD 0 0), { m with stack := m.stack.drop 1 }) := by
  have hempty : ¬ (m.stack = [] ∧ m.underflow = .fault) := by
    rintro ⟨hs, hu⟩
    simp [Supplies, hs, hu] at h
  rw [pop_on, if_neg hempty, List.headD_eq_head?_getD, List.head?_eq_getElem?,
    List.getD_eq_getElem?_getD]

theorem supplies_of_pop {n : Nat} (h : m.Supplies (n + 1)) :
    ({ m with stack := m.stack.drop 1 } : Machine).Supplies n := by
  rcases h with h | h
  · exact .inl h
  · exact .inr (by rw [List.length_drop]; omega)

theorem execute_put (h : m.Supplies 3) :
    (execute 'p').on m =
      (storeAt m.request.x m.request.y m.request.value).on { m with stack := m.stack.drop 3 } := by
  have h₁ := supplies_of_pop h
  have h₂ := supplies_of_pop h₁
  show (pop 'p' >>= fun y => pop 'p' >>= fun x => pop 'p' >>= storeAt x y).on m = _
  rw [Call.on_bind, pop_of_supplies 'p' h]
  dsimp only
  rw [Call.on_bind, pop_of_supplies 'p' h₁]
  dsimp only
  rw [Call.on_bind, pop_of_supplies 'p' h₂]
  simp [request, List.drop_drop]

theorem execute_put_missing (h : ¬ m.Supplies 3) : ∃ e t, (execute 'p').on m = (.error e, t) := by
  obtain ⟨field, x, y, direction, stack, stringMode, overflow, underflow, rng, output⟩ := m
  obtain ⟨hu, hlength⟩ := not_or.mp h
  obtain rfl : underflow = .fault := by
    cases underflow with
    | fault => rfl
    | zero => exact absurd rfl hu
  show ∃ e t, (pop 'p' >>= fun y => pop 'p' >>= fun x => pop 'p' >>= storeAt x y).on _ = _
  rcases stack with _ | ⟨y, _ | ⟨x, _ | ⟨value, stack⟩⟩⟩
  · simp [pop]
  · simp [pop]
  · simp [pop]
  · simp at hlength

theorem storeAt_of_fits {put : Put} (h : put.Fits m.field.width m.field.height) :
    ∃ c, wordOf c = put.value ∧ (storeAt put.x put.y put.value).on m =
      (.ok (), { m with field := m.field.set put.x.toInt.toNat put.y.toInt.toNat c }) := by
  obtain ⟨hx, hx', hy, hy', hvalue⟩ := h
  have hplace := place?_eq_some_iff.mpr ⟨⟨hx, hx', hy, hy'⟩, rfl⟩
  obtain ⟨c, hc⟩ := Option.isSome_iff_exists.mp ((scalar?_isSome_iff _).mpr hvalue)
  refine ⟨c, wordOf_of_scalar? hc, ?_⟩
  rw [storeAt, Call.on_bind, Call.on_get]
  dsimp only
  rw [hplace, hc]
  rfl

theorem storeAt_of_not_fits {put : Put} (h : ¬ put.Fits m.field.width m.field.height) :
    ∃ e, (storeAt put.x put.y put.value).on m = (.error e, m) := by
  rw [storeAt, Call.on_bind, Call.on_get]
  dsimp only
  split
  · exact ⟨_, rfl⟩
  · exact ⟨_, rfl⟩
  · next hplace hc =>
    obtain ⟨⟨hx, hx', hy, hy'⟩, -⟩ := place?_eq_some_iff.mp hplace
    have hvalue := (scalar?_isSome_iff _).mp (Option.isSome_of_eq_some hc)
    exact absurd ⟨hx, hx', hy, hy', hvalue⟩ h

/-! What a step does to the playfield. -/

theorem step_put (hs : m.stringMode = false) (hp : m.here = 'p') (h : m.Supplies 3)
    (hfits : m.request.Fits m.field.width m.field.height) :
    ∃ c, wordOf c = m.request.value ∧ step.on m =
      (.ok .proceed, ({ m with
        stack := m.stack.drop 3
        field := m.field.set m.request.x.toInt.toNat m.request.y.toInt.toNat c }).advance) := by
  obtain ⟨c, hc, hstore⟩ := storeAt_of_fits (m := { m with stack := m.stack.drop 3 }) hfits
  refine ⟨c, hc, step_of_execute hs (by rw [hp]; decide) ?_⟩
  rw [hp, execute_put h, hstore]

theorem step_put_error (hs : m.stringMode = false) (hp : m.here = 'p')
    (h : ¬ (m.Supplies 3 ∧ m.request.Fits m.field.width m.field.height)) :
    ∃ e t, step.on m = (.error e, t) := by
  have hat : m.here ≠ '@' := by rw [hp]; decide
  by_cases hsupplied : m.Supplies 3
  · have hfits := fun hfits => h ⟨hsupplied, hfits⟩
    obtain ⟨e, hstore⟩ := storeAt_of_not_fits (m := { m with stack := m.stack.drop 3 }) hfits
    exact ⟨e, _, step_of_execute_error hs hat (by rw [hp, execute_put hsupplied, hstore])⟩
  · obtain ⟨e, t, hx⟩ := execute_put_missing hsupplied
    exact ⟨e, t, step_of_execute_error hs hat (by rw [hp, hx])⟩

theorem field_of_step_error {e : Error} (h : step.on m = (.error e, t)) : t.field = m.field := by
  obtain ⟨k, output, -, rfl, -⟩ := step_error h
  rfl

theorem field_step_of_ne (hp : m.stringMode = true ∨ m.here ≠ 'p') :
    (step.on m).2.field = m.field := by
  rw [step_on]
  by_cases hs : m.stringMode = true
  · rw [if_pos hs, readString]
    split <;> rfl
  · rw [if_neg hs]
    by_cases hat : m.here = '@'
    · rw [if_pos hat]
    · have hkept := execute_spares (hp.resolve_left hs) m.field m rfl
      rw [if_neg hat]
      rcases hx : (execute m.here).on m with ⟨_ | _, t⟩
      · rwa [hx] at hkept
      · rw [hx] at hkept
        exact hkept

theorem put?_of_ok {progress : Progress} (hs : m.stringMode = false) (hp : m.here = 'p')
    (h : (step.on m).1 = .ok progress) : m.put? = some m.request := by
  rw [put?, hs, hp, h]
  rfl

theorem put?_of_error {e : Error} (h : (step.on m).1 = .error e) : m.put? = none := by
  unfold put?
  split
  · next hok =>
    rw [h] at hok
    cases hok
  · rfl

theorem put?_of_ne (hp : m.stringMode = true ∨ m.here ≠ 'p') : m.put? = none := by
  unfold put?
  split
  · next hs hp' _ => simp [hs, hp'] at hp
  · rfl

/-- Only a `p` that is carried out changes a playfield, and that in one cell. -/
theorem field_step (m : Machine) :
    (m.put? = none ∧ (step.on m).2.field = m.field) ∨
      ∃ c, m.put? = some m.request ∧ m.request.Fits m.field.width m.field.height ∧
        wordOf c = m.request.value ∧ (step.on m).2.field =
          m.field.set m.request.x.toInt.toNat m.request.y.toInt.toNat c := by
  by_cases hp : m.stringMode = false ∧ m.here = 'p'
  · obtain ⟨hs, hp⟩ := hp
    by_cases h : m.Supplies 3 ∧ m.request.Fits m.field.width m.field.height
    · obtain ⟨c, hc, hstep⟩ := step_put hs hp h.1 h.2
      have hok : (step.on m).1 = .ok .proceed := by rw [hstep]
      exact .inr ⟨c, put?_of_ok hs hp hok, h.2, hc, by rw [hstep]; rfl⟩
    · obtain ⟨e, t, hstep⟩ := step_put_error hs hp h
      have herror : (step.on m).1 = .error e := by rw [hstep]
      refine .inl ⟨put?_of_error herror, ?_⟩
      rw [hstep]
      exact field_of_step_error hstep
  · have hne : m.stringMode = true ∨ m.here ≠ 'p' := by
      rw [← Bool.not_eq_false]
      exact not_and_or.mp hp
    exact .inl ⟨put?_of_ne hne, field_step_of_ne hne⟩

theorem field_resolveDivision (value : Int64) (m : Machine) :
    ((resolveDivision value).on m).2.field = m.field := by
  by_cases hd : m.here = '/' ∨ m.here = '%'
  · by_cases ho : m.HasOperands
    · rw [resolveDivision_on value hd ho]
      rfl
    · rw [resolveDivision_on_missing value hd ho]
  · rw [resolveDivision_on_elsewhere value hd]

theorem eq_of_load_error {source : String} {e : SourceError}
    (h : (load source).on m = (.error e, t)) : t = m := by
  rw [load_on] at h
  split at h
  · exact (Prod.mk.inj h).2.symm
  · cases h

theorem Since.onField (h : Since start puts m) (hstart : start.OnField width height) :
    m.OnField width height := by
  induction h with
  | start => exact hstart
  | step _ ih => exact step_keeps _ ih
  | resolveDivision _ value ih => exact resolveDivision_keeps value _ ih
  | finish _ ih => exact finish_keeps _ ih
  | refuse _ ht ih => exact eq_of_load_error ht ▸ ih

theorem content_of_lt {x y : Nat} (hx : x < width) (hy : y < height) :
    content width height text puts x y =
      (lastPut? puts x y).getD (wordOf ((charIn? text x y).getD ' ')) :=
  if_pos ⟨Int.natCast_nonneg x, Int.ofNat_lt.mpr hx, Int.natCast_nonneg y, Int.ofNat_lt.mpr hy⟩

/-- The cells hold what the puts so far have left in them. -/
def Recalls (text : List (List Char)) (puts : List Put) (m : Machine) : Prop :=
  ∀ x < m.field.width, ∀ y < m.field.height,
    wordOf (m.field.get x y) = (lastPut? puts x y).getD (wordOf ((charIn? text x y).getD ' '))

theorem Recalls.of_field (h : m.Recalls text puts) (hf : t.field = m.field) :
    t.Recalls text puts := by
  unfold Recalls
  rwa [hf]

theorem Recalls.step (h : m.Recalls text puts) (hwf : m.field.WellFormed) :
    (step.on m).2.Recalls text (m.put?.toList ++ puts) := by
  obtain ⟨hnone, hfield⟩ | ⟨c, hsome, ⟨hx, hx', hy, hy', -⟩, hc, hfield⟩ := m.field_step
  · rw [hnone]
    exact h.of_field hfield
  · intro x hxw y hyh
    rw [hfield] at hxw hyh ⊢
    rw [hsome, Option.toList_some, List.singleton_append, lastPut?_cons]
    by_cases hat : x = m.request.x.toInt.toNat ∧ y = m.request.y.toInt.toNat
    · obtain ⟨rfl, rfl⟩ := hat
      rw [get_set_self hwf (by omega) (by omega), if_pos (by omega), hc, Option.getD_some]
    · rw [get_set_of_ne hat, if_neg (by omega)]
      exact h x hxw y hyh

/-- By induction on the calls, of which only the steps matter. -/
theorem Since.recalls (h : Since start puts m) (hstart : start.OnField width height)
    (htext : start.Recalls text []) : m.Recalls text puts := by
  induction h with
  | start => exact htext
  | step hm ih => exact ih.step (hm.onField hstart).wellFormed
  | resolveDivision _ value ih => exact ih.of_field (field_resolveDivision value _)
  | finish _ ih => exact ih.of_field rfl
  | refuse _ ht ih => exact eq_of_load_error ht ▸ ih

theorem recalls_load {source : String} (h : (load source).on t = (.ok (), start)) :
    start.Recalls (lines source.toList) [] := by
  obtain rfl := eq_of_load h
  intro x hx y hy
  exact congrArg wordOf (get_ofLines hx hy _)

theorem onField_load {source : String} (hw : 0 < t.field.width) (hh : 0 < t.field.height)
    (h : (load source).on t = (.ok (), start)) : start.OnField t.field.width t.field.height := by
  obtain rfl := eq_of_load h
  exact ⟨rfl, rfl, ofLines_wellFormed _ _ _, hw, hh⟩

theorem load?_eq_content (h : m.Recalls text puts) (x y : Int64) :
    m.load? x y = content m.field.width m.field.height text puts x.toInt y.toInt := by
  by_cases hb : 0 ≤ x.toInt ∧ x.toInt < m.field.width ∧ 0 ≤ y.toInt ∧ y.toInt < m.field.height
  · have hcell := h x.toInt.toNat (by omega) y.toInt.toNat (by omega)
    rw [Int.toNat_of_nonneg hb.1, Int.toNat_of_nonneg hb.2.2.1] at hcell
    rw [content, if_pos hb, load?, place?_eq_some_iff.mpr ⟨hb, rfl⟩]
    exact hcell
  · rw [content, if_neg hb, load?, place?, if_neg hb]

theorem step_get (hs : m.stringMode = false) (hg : m.here = 'g') (ho : m.HasOperands) :
    step.on m = (.ok .proceed,
      ({ m with stack := m.load? m.lower m.upper :: m.stack.drop 2 }).advance) := by
  refine step_of_execute hs (by rw [hg]; decide) ?_
  rw [hg]
  exact on_operands 'g' _ ho

theorem since_after (start : Machine) (k : Nat) :
    Since start ((interpreter.visited k start).reverse.filterMap put?)
      (interpreter.after k start) := by
  induction k with
  | zero => exact .start
  | succ k ih =>
    have hnext := ih.step
    rw [Interpreter.visited_succ, List.reverse_append, List.reverse_singleton,
      List.singleton_append, List.filterMap_cons]
    cases hp : (interpreter.after k start).put? with
    | none => rwa [hp] at hnext
    | some put => rwa [hp] at hnext

theorem step_put_iff (hs : m.stringMode = false) (hp : m.here = 'p') :
    (∃ t, step.on m = (.ok .proceed, t)) ↔
      m.Supplies 3 ∧ m.request.Fits m.field.width m.field.height := by
  constructor
  · rintro ⟨t, ht⟩
    by_contra hfails
    obtain ⟨e, u, hu⟩ := step_put_error hs hp hfails
    rw [ht] at hu
    cases hu
  · rintro ⟨hsupplied, hfits⟩
    obtain ⟨c, -, hstep⟩ := step_put hs hp hsupplied hfits
    exact ⟨_, hstep⟩

theorem cells_of_step_put (hwf : m.field.WellFormed) (hs : m.stringMode = false)
    (hp : m.here = 'p') (ht : step.on m = (.ok .proceed, t)) (x y : Nat) :
    if m.request.x.toInt = x ∧ m.request.y.toInt = y then
      wordOf (t.field.get x y) = m.request.value
    else t.field.get x y = m.field.get x y := by
  obtain ⟨hsupplied, hfits⟩ := (step_put_iff hs hp).mp ⟨t, ht⟩
  obtain ⟨c, hc, hstep⟩ := step_put hs hp hsupplied hfits
  obtain ⟨hx, hx', hy, hy', -⟩ := hfits
  obtain rfl := (Prod.mk.inj (ht.symm.trans hstep)).2
  split
  · next hat =>
    obtain ⟨rfl, rfl⟩ : m.request.x.toInt.toNat = x ∧ m.request.y.toInt.toNat = y := by omega
    exact (congrArg wordOf (get_set_self hwf (by omega) (by omega) c)).trans hc
  · next hat => exact get_set_of_ne (by omega) c

/-- Since a source was loaded, a `g` reads from a cell what was put into it last, or the code of
the character that the source has there, and zero outside the playfield; and the machine fetches the
character with that code. A `p` succeeds if and only if its operands can be taken, the cell is on the
playfield and the value is the code of a character. It then changes this cell and no other; if it
fails, it changes none. -/
theorem grid_reads_back_puts (m₀ start m : Machine) (source : String) (puts : List Put)
    (hw : 0 < m₀.field.width) (hh : 0 < m₀.field.height)
    (hload : (load source).on m₀ = (.ok (), start)) (h : Since start puts m) :
    let read := content m₀.field.width m₀.field.height (lines source.toList) puts
    (m.stringMode = false → m.here = 'g' → m.HasOperands →
      step.on m = (.ok .proceed,
        ({ m with stack := read m.lower.toInt m.upper.toInt :: m.stack.drop 2 }).advance)) ∧
    wordOf m.here = read m.x m.y ∧
    (m.stringMode = false → m.here = 'p' →
      ((∃ t, step.on m = (.ok .proceed, t)) ↔
        m.Supplies 3 ∧ m.request.Fits m₀.field.width m₀.field.height) ∧
      (∀ t, step.on m = (.ok .proceed, t) → ∀ x y : Nat,
        if m.request.x.toInt = x ∧ m.request.y.toInt = y then
          wordOf (t.field.get x y) = m.request.value
        else t.field.get x y = m.field.get x y) ∧
      ∀ e t, step.on m = (.error e, t) → t.field = m.field) := by
  have hstart := onField_load hw hh hload
  have hrecalls := h.recalls hstart (recalls_load hload)
  obtain ⟨hwidth, hheight, hwf, hx, hy⟩ := h.onField hstart
  rw [← hwidth] at hx ⊢
  rw [← hheight] at hy ⊢
  refine ⟨fun hs hg ho => ?_, ?_, fun hs hp => ⟨?_, ?_, ?_⟩⟩
  · rw [step_get hs hg ho, load?_eq_content hrecalls]
  · rw [content_of_lt hx hy]
    exact hrecalls m.x hx m.y hy
  · exact step_put_iff hs hp
  · exact fun t ht => cells_of_step_put hwf hs hp ht
  · exact fun e t ht => field_of_step_error ht

def eightWide : Machine :=
  { field := .blank 8 1, overflow := .reject, underflow := .fault, rng := .ofSeed 0, output := {} }

/-- The program puts a five into its first cell, where a nine was, and reads it back. -/
def memorizing : Machine := ((load "9500p00g").on eightWide).2

theorem five_is_read_back :
    (load "9500p00g").on eightWide = (.ok (), memorizing) ∧
      Since memorizing [⟨0, 0, 5⟩] (interpreter.after 7 memorizing) ∧
      step.on (interpreter.after 7 memorizing) =
        (.ok .proceed, ({ interpreter.after 7 memorizing with stack := [5, 9] }).advance) := by
  have hload : (load "9500p00g").on eightWide = (.ok (), memorizing) := rfl
  have hsince : Since memorizing [⟨0, 0, 5⟩] (interpreter.after 7 memorizing) :=
    since_after memorizing 7
  obtain ⟨hget, -⟩ :=
    grid_reads_back_puts eightWide _ _ _ _ (by decide) (by decide) hload hsince
  exact ⟨hload, hsince, hget rfl rfl (.inr (by decide))⟩

end Machine

end Esolang.Grid
