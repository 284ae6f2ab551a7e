import Mathlib.Algebra.Group.Nat.Defs
import Esolang.Proofs.Queue.Failure
import Esolang.Proofs.Stream.Pending

/-! A program that repeats its input. Its first loop moves all characters from C to A, and its second
one prints and drops them until A is empty; each loop counts a queue at the end of every turn. -/

namespace Esolang.Queue

def echo : Array Instruction :=
  #[.dequeue .c, .enqueue .a, .length .c, .loop .register 7, .dequeue .c, .enqueue .a, .length .c,
    .endLoop 3, .length .a, .loop .register 13, .printChar .a, .dequeue .a, .length .a, .endLoop 9]

theorem decode_echo : decode "cA#7cA#x!7Oa!x".toList = .ok echo := rfl

theorem ofInt_length_eq_zero_iff {text : List Char} (h : text.length < 2 ^ 64) :
    Int64.ofInt text.length = 0 ↔ text = [] := by
  rw [← List.length_eq_zero_iff]
  constructor
  · intro hz
    have hbmod := (Int64.ofInt_eq_iff_bmod_eq_toInt _ _).mp hz
    have hdvd : ((2 ^ 64 : Nat) : Int) ∣ (text.length : Int) := Int.dvd_iff_bmod_eq_zero.mpr hbmod
    exact Nat.eq_zero_of_dvd_of_lt (Int.natCast_dvd_natCast.mp hdvd) h
  · intro hz
    rw [hz]
    rfl

namespace Contents

variable {register : Int64} {moved waiting : List Char} {c : Char} {input : Source} {output : Sink}

/-- Characters that have been moved to A, and others that are waiting in C. -/
def holding (register : Int64) (moved waiting : List Char) (input : Source) (output : Sink) :
    Contents :=
  { register, input, output
    queues := fun
      | .a => codes moved
      | .b => []
      | .c => codes waiting }

theorem holding_nothing (register : Int64) (input : Source) (output : Sink) :
    holding register [] [] input output = ⟨register, fun _ => [], input, output⟩ := by
  simp only [holding, Contents.mk.injEq, true_and, and_true]
  funext name
  cases name <;> rfl

theorem holding_setQueue_a (text : List Char) :
    (holding register moved waiting input output).setQueue .a (codes text) =
      holding register text waiting input output := by
  simp only [holding, setQueue, Contents.mk.injEq, true_and, and_true]
  funext name
  cases name <;> rfl

theorem holding_setQueue_c (text : List Char) :
    (holding register moved waiting input output).setQueue .c (codes text) =
      holding register moved text input output := by
  simp only [holding, setQueue, Contents.mk.injEq, true_and, and_true]
  funext name
  cases name <;> rfl

theorem perform_take_c :
    (perform (.dequeue .c)).on (holding register moved (c :: waiting) input output) =
      (.ok (), holding (.ofInt c.toNat) moved waiting input output) := by
  have hc : (holding register moved (c :: waiting) input output).queues .c =
      .ofInt c.toNat :: codes waiting := rfl
  simp only [perform, take, Call.on_bind, Call.on_ofFunction, hc, holding_setQueue_c]
  rfl

theorem perform_take_a :
    (perform (.dequeue .a)).on (holding register (c :: moved) waiting input output) =
      (.ok (), holding (.ofInt c.toNat) moved waiting input output) := by
  have hc : (holding register (c :: moved) waiting input output).queues .a =
      .ofInt c.toNat :: codes moved := rfl
  simp only [perform, take, Call.on_bind, Call.on_ofFunction, hc, holding_setQueue_a]
  rfl

theorem perform_put :
    (perform (.enqueue .a)).on (holding (.ofInt c.toNat) moved waiting input output) =
      (.ok (), holding (.ofInt c.toNat) (moved ++ [c]) waiting input output) := by
  have hput : codes moved ++ [Int64.ofInt c.toNat] = codes (moved ++ [c]) := by simp [codes]
  have hset : (holding (.ofInt c.toNat) moved waiting input output).setQueue .a
      (codes moved ++ [.ofInt c.toNat]) =
      holding (.ofInt c.toNat) (moved ++ [c]) waiting input output := by
    rw [hput, holding_setQueue_a]
  exact congrArg (Except.ok (), ·) hset

theorem perform_count_c :
    (perform (.length .c)).on (holding register moved waiting input output) =
      (.ok (), holding (.ofInt waiting.length) moved waiting input output) := by
  have hlength : (codes waiting).length = waiting.length := List.length_map _
  rw [← hlength]
  rfl

theorem perform_count_a :
    (perform (.length .a)).on (holding register moved waiting input output) =
      (.ok (), holding (.ofInt moved.length) moved waiting input output) := by
  have hlength : (codes moved).length = moved.length := List.length_map _
  rw [← hlength]
  rfl

theorem perform_print (hroom : output.Accepts (String.utf8EncodeChar c)) :
    (perform (.printChar .a)).on (holding register (c :: moved) waiting input output) =
      (.ok (), holding register (c :: moved) waiting input
        (output.written (String.utf8EncodeChar c))) := by
  have hfront : (holding register (c :: moved) waiting input output).front .a = .ofInt c.toNat := rfl
  have houtput : (holding register (c :: moved) waiting input output).output = output := rfl
  simp only [perform, peek, onOutput, Call.on_bind, Call.on_ofFunction, hfront, toInt_ofInt_toNat,
    Call.on_onPart, houtput, hroom.writeCode_on]
  rfl

/-- An empty C takes the whole input. -/
theorem perform_refill (h : input.Pending (c :: waiting)) (hfailure : input.failure = none)
    (register : Int64) (moved : List Char) (output : Sink) :
    ∃ last, (perform (.dequeue .c)).on (holding register moved [] input output) =
      (.ok (), holding (.ofInt c.toNat) moved waiting last output) := by
  obtain ⟨hall, -⟩ := h.readAll
  have hok : input.readAll.2.1 = .ok () := h.readWhile_ok fun _ => hfailure
  rcases hread : input.readAll with ⟨text, result, last⟩
  rw [hread] at hall hok
  obtain rfl : text = c :: waiting := hall
  obtain rfl : result = .ok () := hok
  have hinput : (holding register moved [] input output).input.readAll =
      (c :: waiting, .ok (), last) := hread
  have hempty : (holding register moved [] input output).queues .c = [] := rfl
  have hset : (holding register moved [] input output).setQueue .c (codes waiting) =
      holding register moved waiting input output := holding_setQueue_c waiting
  refine ⟨last, ?_⟩
  simp only [perform, take, Call.on_bind, Call.on_ofFunction, hempty, hinput, List.map_cons]
  exact congrArg
    (fun d => (Except.ok (), setRegister (.ofInt c.toNat) { d with input := last })) hset

end Contents

namespace Machine

variable {n k stop : Nat} {moved waiting : List Char} {c : Char} {input : Source} {output : Sink}
  {d d' e : Contents} {result : Except Error Unit} {instruction : Instruction}

theorem echo_performs (c : brackets.Plain) (h : (Contents.perform instruction).on d = (.ok (), d'))
    (hi : instruction = .simple c.val) (hc : echo[k]? = some instruction) :
    (view echo).Goes interpreter k d (k + 1) d' := by
  subst hi
  exact (view_performs hc).1 d d' h

theorem echo_enters (hc : echo[k]? = some (.loop .register stop)) (h : d.register ≠ 0) :
    (view echo).Goes interpreter k d (k + 1) d := by
  have hpasses : meaning.passes ⟨'7', rfl⟩ d = true := decide_eq_true h
  have htest := view_tests (c := ⟨'7', rfl⟩) hc d
  rwa [hpasses, if_pos rfl] at htest

theorem echo_leaves (hc : echo[k]? = some (.loop .register stop)) (h : d.register = 0) :
    (view echo).Goes interpreter k d (stop + 1) d := by
  have hfails : meaning.passes ⟨'7', rfl⟩ d = false := decide_eq_false (not_not_intro h)
  have htest := view_tests (c := ⟨'7', rfl⟩) hc d
  rwa [hfails, if_neg Bool.false_ne_true] at htest

/-- By induction on what is waiting: a turn moves its first character. -/
theorem endsIn_moving (hlength : waiting.length < 2 ^ 64)
    (rest : (view echo).EndsIn interpreter n 8 (.holding 0 (moved ++ waiting) [] input output)
      result e) :
    (view echo).EndsIn interpreter (n + 5 * waiting.length + 1) 3
      (.holding (.ofInt waiting.length) moved waiting input output) result e := by
  induction waiting generalizing moved with
  | nil =>
    rw [List.append_nil] at rest
    exact View.Goes.endsIn (echo_leaves rfl rfl) rest
  | cons c waiting ih =>
    have hcount : Int64.ofInt (c :: waiting).length ≠ 0 := fun hz =>
      List.cons_ne_nil c waiting ((ofInt_length_eq_zero_iff hlength).mp hz)
    rw [List.append_cons] at rest
    refine View.Goes.endsIn (echo_enters rfl hcount) ?_
    refine View.Goes.endsIn (echo_performs ⟨'c', rfl, by decide⟩ Contents.perform_take_c rfl rfl) ?_
    refine View.Goes.endsIn (echo_performs ⟨'A', rfl, by decide⟩ Contents.perform_put rfl rfl) ?_
    refine View.Goes.endsIn (echo_performs ⟨'#', rfl, by decide⟩ Contents.perform_count_c rfl rfl) ?_
    refine View.Goes.endsIn (view_goes_back rfl _) ?_
    exact ih (Nat.lt_of_succ_lt hlength) rest

/-- By induction on what has been moved: a turn prints its first character. -/
theorem endsIn_printing (hlength : moved.length < 2 ^ 64)
    (hroom : output.Accepts (encodeText moved))
    (rest : (view echo).EndsIn interpreter n 14
      (.holding 0 [] [] input (output.written (encodeText moved))) result e) :
    (view echo).EndsIn interpreter (n + 5 * moved.length + 1) 9
      (.holding (.ofInt moved.length) moved [] input output) result e := by
  induction moved generalizing output with
  | nil =>
    rw [encodeText_nil, Sink.written_nil] at rest
    exact View.Goes.endsIn (echo_leaves rfl rfl) rest
  | cons c moved ih =>
    have hcount : Int64.ofInt (c :: moved).length ≠ 0 := fun hz =>
      List.cons_ne_nil c moved ((ofInt_length_eq_zero_iff hlength).mp hz)
    rw [encodeText_cons, ← Sink.written_written] at rest
    rw [encodeText_cons] at hroom
    refine View.Goes.endsIn (echo_enters rfl hcount) ?_
    refine View.Goes.endsIn
      (echo_performs ⟨'O', rfl, by decide⟩ (Contents.perform_print hroom.left) rfl rfl) ?_
    refine View.Goes.endsIn (echo_performs ⟨'a', rfl, by decide⟩ Contents.perform_take_a rfl rfl) ?_
    refine View.Goes.endsIn (echo_performs ⟨'!', rfl, by decide⟩ Contents.perform_count_a rfl rfl) ?_
    refine View.Goes.endsIn (view_goes_back rfl _) ?_
    exact ih (Nat.lt_of_succ_lt hlength) hroom.right rest

theorem endsIn_echo (hlength : (c :: waiting).length < 2 ^ 64)
    (hpending : input.Pending (c :: waiting)) (hfailure : input.failure = none)
    (hroom : output.Accepts (encodeText (c :: waiting))) (register : Int64) :
    ∃ last, (view echo).EndsIn interpreter (10 * (c :: waiting).length + 1) 0
      (.holding register [] [] input output) (.ok ())
      (.holding 0 [] [] last (output.written (encodeText (c :: waiting)))) := by
  obtain ⟨last, hrefill⟩ := Contents.perform_refill hpending hfailure register [] output
  have hend : (view echo).Halts interpreter 14 (.holding 0 [] [] last
      (output.written (encodeText (c :: waiting)))) := view_halts (Nat.le_refl _) _
  have hprinting := endsIn_printing hlength hroom hend.endsIn
  have hcounting : (view echo).EndsIn interpreter (5 * (c :: waiting).length + 2) 8
      (.holding 0 ([c] ++ waiting) [] last output) (.ok ())
      (.holding 0 [] [] last (output.written (encodeText (c :: waiting)))) := by
    rw [Nat.zero_add] at hprinting
    exact View.Goes.endsIn
      (echo_performs ⟨'!', rfl, by decide⟩ Contents.perform_count_a rfl rfl) hprinting
  have hmoving := endsIn_moving (Nat.lt_of_succ_lt hlength) hcounting
  have hsteps : 10 * (c :: waiting).length + 1 =
      5 * (c :: waiting).length + 2 + 5 * waiting.length + 1 + 3 := by
    rw [List.length_cons]
    omega
  rw [hsteps]
  refine ⟨last, ?_⟩
  refine View.Goes.endsIn (echo_performs ⟨'c', rfl, by decide⟩ hrefill rfl rfl) ?_
  refine View.Goes.endsIn (echo_performs ⟨'A', rfl, by decide⟩ Contents.perform_put rfl rfl) ?_
  refine View.Goes.endsIn (echo_performs ⟨'#', rfl, by decide⟩ Contents.perform_count_c rfl rfl) ?_
  exact hmoving

theorem finish_of_flush {t : Machine} (h : t.output.flushFails = false) :
    finish.on t = (.ok (), t) := by
  simp [finish, Sink.flush, h, Except.mapError]

/-- Whatever text is there to be read, the program writes it and halts with nothing left in its queues
and its register. A word has to count the characters. -/
theorem echo_repeats_input (text : List Char) (output : Sink) (fuel : Nat) (hne : text ≠ [])
    (hlength : text.length < 2 ^ 64) (hroom : output.Accepts (encodeText text))
    (hfuel : 10 * text.length + 1 < fuel) :
    ∃ t, interpreter.runWithin {} fuel "cA#7cA#x!7Oa!x" { input := .ofText text, output } =
        (some (.ok ⟨10 * text.length + 1, .halted⟩), t) ∧
      t.output.bytes = output.bytes ++ encodeText text ∧
      (t.queue .a).toList = [] ∧ (t.queue .c).toList = [] ∧ t.register = 0 := by
  obtain ⟨c, waiting, rfl⟩ := List.exists_cons_of_ne_nil hne
  have hload := load_of_ok decode_echo { input := .ofText (c :: waiting), output }
  have hstart : (view echo).At { program := echo, input := .ofText (c :: waiting), output }
      0 ⟨0, fun _ => [], .ofText (c :: waiting), output⟩ :=
    ⟨⟨rfl, standard_new 0 (.ofText (c :: waiting)) output⟩, rfl,
      contents_new 0 (.ofText (c :: waiting)) output⟩
  have hpending : (Source.ofText (c :: waiting)).Pending (c :: waiting) := ⟨_, rfl, rfl⟩
  obtain ⟨last, hends⟩ := endsIn_echo hlength hpending rfl hroom 0
  rw [Contents.holding_nothing] at hends
  obtain ⟨t, hrun, ht⟩ := hends _ hstart
  have houtput : t.output = output.written (encodeText (c :: waiting)) := congrArg Contents.output ht
  have hqueues := congrArg Contents.queues ht
  have hfinish : interpreter.finish.on t = (.ok (), t) :=
    finish_of_flush (houtput ▸ hroom.flush)
  refine ⟨t, Interpreter.runWithin_unlimited hload rfl hrun hfinish hfuel, ?_, congrFun hqueues .a,
    congrFun hqueues .c, congrArg Contents.register ht⟩
  rw [houtput, Sink.bytes_written]

theorem echo_repeats_zeros :
    ∃ t, interpreter.runWithin {} 32 "cA#7cA#x!7Oa!x"
        { input := .ofText ['é', '\x00', '\x00'], output := { room := some 4 } } =
      (some (.ok ⟨31, .halted⟩), t) ∧ t.output.bytes = [195, 169, 0, 0] := by
  have hroom : ({ room := some 4 } : Sink).Accepts (encodeText ['é', '\x00', '\x00']) :=
    ⟨by decide, rfl⟩
  obtain ⟨t, hrun, hbytes, -⟩ := echo_repeats_input ['é', '\x00', '\x00'] { room := some 4 } 32
    (by decide) (by decide) hroom (by decide)
  exact ⟨t, hrun, hbytes⟩

end Machine

end Esolang.Queue
