import Esolang.Language.Basic
import Esolang.Proofs.Grid.Instructions
import Esolang.Proofs.Ledger.Unobserved
import Esolang.Proofs.Stream.Rest

/-! The calls of the five machines. None of them sees what the output held before it, none fails with a
setting or a choice of language, and where one succeeds, it has taken whole characters from the front of
the input and has left the output open for more. -/

namespace Esolang

variable {given earlier : List UInt8}

namespace Queue.Machine

/-- The machine with an output that held some bytes before. -/
def behind (earlier : List UInt8) (m : Machine) : Machine :=
  { m with output := m.output.behind earlier }

/-- The machine has read from what it was given, and writes what it likes. -/
def Serves (given : List UInt8) (m : Machine) : Prop := m.output.Unbounded ∧ m.input.LeftOf given

theorem serves_setQueue {m : Machine} (hm : m.Serves given) (name : QueueName) (q : Fifo) :
    (m.setQueue name q).Serves given := by
  cases name <;> exact hm

theorem queue_behind (name : QueueName) (m : Machine) :
    (m.behind earlier).queue name = m.queue name := by
  cases name <;> rfl

theorem setQueue_behind (name : QueueName) (q : Fifo) (m : Machine) :
    (m.behind earlier).setQueue name q = (m.setQueue name q).behind earlier := by
  cases name <;> rfl

theorem extend_behind (name : QueueName) (values : List Int64) (m : Machine) :
    (m.behind earlier).extend name values = (m.extend name values).behind earlier := by
  rw [extend, queue_behind, setQueue_behind, extend]

theorem drainInput_tame (name : QueueName) :
    (drainInput name).Tame (Serves given) Error.Running (behind earlier) where
  yields m hm := by
    rw [drainInput, Call.on_ofFunction]
    rcases hread : m.input.readAll with ⟨text, _ | _, input⟩
    · exact .stream _
    · have hinput : input.LeftOf given := by
        have hleft := Source.LeftOf.readWhile (p := fun _ => true) hm.2
        rw [← Source.readAll, hread] at hleft
        exact hleft rfl
      have hextended := serves_setQueue hm name
        ((m.queue name).extend (text.map fun c => Int64.ofInt c.toNat))
      exact ⟨hextended.1, hinput⟩
  overlooks m := by
    have hinput : (m.behind earlier).input = m.input := rfl
    rw [drainInput, Call.on_ofFunction, Call.on_ofFunction, hinput]
    rcases m.input.readAll with ⟨text, result, input⟩
    dsimp only
    rw [extend_behind]
    rfl

theorem take?_tame (name : QueueName) :
    (take? name).Tame (Serves given) Error.Running (behind earlier) where
  yields m hm := by
    rw [take?, Call.on_ofFunction]
    split
    · exact serves_setQueue hm name _
    · exact hm
  overlooks m := by
    rw [take?, Call.on_ofFunction, Call.on_ofFunction, queue_behind]
    split
    · rw [setQueue_behind]
    · rfl

theorem readQueue_tame (name : QueueName) (fallback : Fallback)
    {oldest? : Call Machine Error (Option Int64)}
    (h : oldest?.Tame (Serves given) Error.Running (behind earlier)) :
    (readQueue name fallback oldest?).Tame (Serves given) Error.Running (behind earlier) := by
  refine h.bind fun value? => ?_
  rcases value? with _ | value
  · cases fallback with
    | constant value => exact .pure value
    | register => exact .get_bind (fun _ => rfl) fun _ => .pure _
    | drainInput =>
      refine (drainInput_tame name).bind fun _ => h.bind fun value? => ?_
      rcases value? with _ | value
      · exact .throw (.fault _)
      · exact .pure value
  · exact .pure value

theorem take_tame (name : QueueName) :
    (take name).Tame (Serves given) Error.Running (behind earlier) := by
  refine .get_bind (fun m => ?_) fun m => readQueue_tame name _ (take?_tame name)
  rw [queue_behind]

theorem peek_tame (name : QueueName) :
    (peek name).Tame (Serves given) Error.Running (behind earlier) := by
  refine .get_bind (fun m => ?_) fun m => readQueue_tame name _ (.get_bind (fun m => ?_) fun _ => .pure _)
  · rw [queue_behind]
  · rw [queue_behind]

theorem readSigned_tame : readSigned.Tame (Serves given) Error.Running (behind earlier) where
  yields m hm := by
    rw [readSigned, Call.on_ofFunction]
    rcases hread : m.input.readWhile isNumeric with ⟨text, _ | _, input⟩
    · exact .stream _
    · have hinput := Source.LeftOf.readWhile (p := isNumeric) hm.2
      rw [hread] at hinput
      exact ⟨hm.1, hinput rfl⟩
  overlooks _ := rfl

theorem onOutput_tame {call : Call Sink Error Unit}
    (h : call.Tame Sink.Unbounded Error.Running (Sink.behind earlier)) :
    (onOutput call).Tame (Serves given) Error.Running (behind earlier) :=
  h.onPart (fun _ hm => hm.1) (fun _ _ hm ht => ⟨ht, hm.2⟩) (fun _ => rfl) fun _ _ => rfl

theorem testValue_tame (test : LoopTest) :
    (testValue test).Tame (Serves given) Error.Running (behind earlier) := by
  cases test with
  | peek name => exact peek_tame name
  | register => exact .get_bind (fun _ => rfl) fun _ => .pure _

theorem perform_tame (instruction : Instruction) :
    (perform instruction).Tame (Serves given) Error.Running (behind earlier) := by
  cases instruction with
  | dequeue name => exact (take_tame name).bind fun _ => .modify (fun _ hm => hm) fun _ => rfl
  | enqueue name =>
    exact .modify (fun _ hm => serves_setQueue hm name _) fun m => extend_behind name [m.register] m
  | peek name => exact (peek_tame name).bind fun _ => .modify (fun _ hm => hm) fun _ => rfl
  | length name =>
    refine .modify (fun _ hm => hm) fun m => ?_
    rw [queue_behind]
    rfl
  | add name => exact (take_tame name).bind fun _ => .modify (fun _ hm => hm) fun _ => rfl
  | sub name => exact (take_tame name).bind fun _ => .modify (fun _ hm => hm) fun _ => rfl
  | printNumber name =>
    exact (peek_tame name).bind fun value => onOutput_tame (Sink.writeNumber_tame value)
  | printChar name =>
    exact (peek_tame name).bind fun value => onOutput_tame (Sink.writeCode_tame value.toInt)
  | decrement => exact .modify (fun _ hm => hm) fun _ => rfl
  | increment => exact .modify (fun _ hm => hm) fun _ => rfl
  | readSigned => exact readSigned_tame.bind fun _ => .modify (fun _ hm => hm) fun _ => rfl
  | loop test stop => exact .pure _
  | endLoop start => exact .pure _
  | nop => exact .pure _

theorem step_tame : step.Tame (Serves given) Error.Running (behind earlier) := by
  refine .get_bind (fun _ => rfl) fun m => ?_
  have hgo : ∀ pc, (modify (goTo pc) >>= fun _ => pure Progress.proceed :
      Call Machine Error Progress).Tame (Serves given) Error.Running (behind earlier) :=
    fun pc => Call.Tame.bind (.modify (fun _ hm => hm) fun _ => rfl) fun _ => .pure _
  split
  · exact .pure _
  · exact (testValue_tame _).bind fun _ => hgo _
  · exact hgo _
  · exact (perform_tame _).bind fun _ => hgo _

theorem load_tame (source : String) :
    (load source).Tame (Serves given) (fun e => Error.Running (.source e)) (behind earlier) :=
  Call.Tame.bind (.liftM fun e _ => .source e) fun _ => .modify (fun _ hm => hm) fun _ => rfl

theorem interpreter_tame : interpreter.Tame (Serves given) Error.Running (behind earlier) where
  load := load_tame
  prepare := .pure _
  step := step_tame
  finish := Sink.flushPart_tame (fun _ hm => hm.1) (fun _ _ hm ht => ⟨ht, hm.2⟩) (fun _ => rfl)
    fun _ _ => rfl

end Queue.Machine

namespace Grid.Machine

def behind (earlier : List UInt8) (m : Machine) : Machine :=
  { m with output := m.output.behind earlier }

def Serves (m : Machine) : Prop := m.output.Unbounded

theorem pop_tame (instruction : Char) :
    (pop instruction).Tame Serves Error.Running (behind earlier) where
  yields m hm := by
    rw [pop, Call.on_ofFunction]
    split
    · exact hm
    · exact hm
    · exact .fault _
  overlooks m := by
    rw [pop, Call.on_ofFunction, Call.on_ofFunction]
    have hstack : (m.behind earlier).stack = m.stack := rfl
    have hunderflow : (m.behind earlier).underflow = m.underflow := rfl
    rw [hstack, hunderflow]
    split <;> rfl

theorem divide_tame (instruction : Char) (f : Int64 → Int64 → Int64) :
    (divide instruction f).Tame Serves Error.Running (behind earlier) := by
  refine .get_bind (fun _ => rfl) fun m => ?_
  refine (pop_tame instruction).bind fun a => (pop_tame instruction).bind fun b => ?_
  by_cases ha : a = 0
  · rw [if_pos ha]
    exact Call.Tame.bind (.modify (fun _ hm => hm) fun _ => rfl) fun _ => .throw (.fault _)
  · rw [if_neg ha]
    exact .modify (fun _ hm => hm) fun _ => rfl

theorem storeAt_tame (x y value : Int64) :
    (storeAt x y value).Tame Serves Error.Running (behind earlier) := by
  refine .get_bind (fun _ => rfl) fun m => ?_
  split
  · exact .throw (.fault _)
  · exact .throw (.fault _)
  · exact .modify (fun _ hm => hm) fun _ => rfl

theorem onOutput_tame {call : Call Sink Error Unit}
    (h : call.Tame Sink.Unbounded Error.Running (Sink.behind earlier)) :
    (onOutput call).Tame Serves Error.Running (behind earlier) :=
  h.onPart (fun _ hm => hm) (fun _ _ _ ht => ht) (fun _ => rfl) fun _ _ => rfl

theorem randomDirection_behind (m : Machine) :
    (m.behind earlier).randomDirection = m.randomDirection.behind earlier := by
  have hrng : (m.behind earlier).rng = m.rng := rfl
  rw [randomDirection, randomDirection, hrng]
  rcases m.rng.below 4 with ⟨choice, rng⟩
  rfl

theorem serves_randomDirection {m : Machine} (hm : m.Serves) : m.randomDirection.Serves := by
  rw [randomDirection]
  rcases m.rng.below 4 with ⟨choice, rng⟩
  exact hm

theorem Deed.tame {call : Call Machine Error Unit} (h : Deed call) :
    call.Tame Serves Error.Running (behind earlier) := by
  cases h with
  | nothing => exact .pure _
  | push value => exact .modify (fun _ hm => hm) fun _ => rfl
  | pushBoth a b => exact .modify (fun _ hm => hm) fun _ => rfl
  | load x y => exact .modify (fun _ hm => hm) fun _ => rfl
  | store x y value => exact storeAt_tame x y value
  | turn direction => exact .modify (fun _ hm => hm) fun _ => rfl
  | turnAround => exact .modify (fun _ hm => serves_randomDirection hm) randomDirection_behind
  | openText => exact .modify (fun _ hm => hm) fun _ => rfl
  | advance => exact .modify (fun _ hm => hm) fun _ => rfl
  | writeNumber value => exact onOutput_tame (Sink.writeNumber_tame value)
  | writeCode value => exact onOutput_tame (Sink.writeCode_tame value.toInt)
  | refuse instruction => exact .throw (.fault _)

theorem Composed.tame {instruction : Char} {n : Nat} {call : Call Machine Error Unit}
    (h : Composed instruction n call) : call.Tame Serves Error.Running (behind earlier) := by
  induction h with
  | deed h => exact h.tame
  | divide _ f => exact divide_tame _ f
  | take _ ih => exact (pop_tame instruction).bind ih

theorem serves_readString {m : Machine} (hm : m.Serves) (c : Char) : (m.readString c).Serves := by
  rw [readString]
  split
  · exact hm
  · exact hm

theorem readString_behind (c : Char) (m : Machine) :
    (m.behind earlier).readString c = (m.readString c).behind earlier := by
  rw [readString, readString]
  split <;> rfl

theorem step_tame : step.Tame Serves Error.Running (behind earlier) := by
  have hproceed : ∀ {call : Call Machine Error Unit},
      call.Tame Serves Error.Running (behind earlier) →
        (call >>= fun _ => pure Progress.proceed).Tame Serves Error.Running (behind earlier) :=
    fun h => h.bind fun _ => .pure _
  have hadvance : (modify advance : Call Machine Error Unit).Tame Serves Error.Running
      (behind earlier) := .modify (fun _ hm => hm) fun _ => rfl
  refine .get_bind (fun _ => rfl) fun m => ?_
  by_cases htext : m.stringMode = true
  · rw [if_pos htext]
    refine hproceed (.modify (fun m hm => serves_readString hm m.here) fun m => ?_)
    have hhere : (m.behind earlier).here = m.here := rfl
    rw [hhere, readString_behind]
    rfl
  · rw [if_neg htext]
    by_cases hend : m.here = '@'
    · rw [if_pos hend]
      exact .pure _
    · rw [if_neg hend]
      obtain ⟨_, -, hexecute⟩ := execute_composed m.here
      exact hexecute.tame.bind fun _ => hproceed hadvance

theorem load_tame (source : String) :
    (load source).Tame Serves (fun e => Error.Running (.source e)) (behind earlier) := by
  refine .get_bind (fun _ => rfl) fun m => ?_
  exact Call.Tame.bind (.liftM fun e _ => .source e) fun _ => .modify (fun _ hm => hm) fun _ => rfl

theorem interpreter_tame : interpreter.Tame Serves Error.Running (behind earlier) where
  load := load_tame
  prepare := .pure _
  step := step_tame
  finish := Sink.flushPart_tame (fun _ hm => hm) (fun _ _ _ ht => ht) (fun _ => rfl) fun _ _ => rfl

end Grid.Machine

namespace Tape.Machine

def behind (earlier : List UInt8) (m : Machine) : Machine :=
  { m with output := m.output.behind earlier }

def Serves (given : List UInt8) (m : Machine) : Prop := m.output.Unbounded ∧ m.input.LeftOf given

theorem adjust_tame (delta : Int) :
    (adjust delta).Tame (Serves given) Error.Running (behind earlier) := by
  refine .get_bind (fun _ => rfl) fun m => ?_
  split
  · exact .modify (fun _ hm => hm) fun _ => rfl
  · exact .throw (.fault _)

theorem readCharacter_tame :
    readCharacter.Tame (Serves given) Error.Running (behind earlier) :=
  Source.require_tame.onPart (fun _ hm => hm.2) (fun _ _ hm ht => ⟨hm.1, ht⟩) (fun _ => rfl)
    fun _ _ => rfl

theorem writeCode_tame (code : Int) :
    (writeCode code).Tame (Serves given) Error.Running (behind earlier) :=
  (Sink.writeCode_tame code).onPart (fun _ hm => hm.1) (fun _ _ hm ht => ⟨ht, hm.2⟩) (fun _ => rfl)
    fun _ _ => rfl

theorem serves_jump {m : Machine} (hm : m.Serves given) : m.jump.Serves given := by
  rw [jump]
  split
  · exact hm
  · exact hm

theorem jump_behind (m : Machine) : (m.behind earlier).jump = m.jump.behind earlier := by
  have hjumps : (m.behind earlier).jumps[(m.behind earlier).ip]? = m.jumps[m.ip]? := rfl
  rw [jump, jump, hjumps]
  split <;> rfl

theorem execute_tame (instruction : Char) :
    (execute instruction).Tame (Serves given) Error.Running (behind earlier) := by
  have hcurrent : ∀ m : Machine, (m.behind earlier).current = m.current := fun _ => rfl
  -- One case for each instruction, in the order of the definition.
  unfold execute
  split
  · exact .modify (fun _ hm => hm) fun _ => rfl
  · exact .modify (fun _ hm => hm) fun _ => rfl
  · exact adjust_tame 1
  · exact adjust_tame (-1)
  · exact .get_bind (fun _ => rfl) fun m => writeCode_tame m.current
  · exact readCharacter_tame.bind fun _ => .modify (fun _ hm => hm) fun _ => rfl
  · refine .modify (fun m hm => ?_) fun m => ?_
    · split
      · exact serves_jump hm
      · exact hm
    · rw [hcurrent]
      split
      · exact jump_behind m
      · rfl
  · refine .modify (fun m hm => ?_) fun m => ?_
    · split
      · exact hm
      · exact serves_jump hm
    · rw [hcurrent]
      split
      · rfl
      · exact jump_behind m
  · exact .pure _

theorem step_tame : step.Tame (Serves given) Error.Running (behind earlier) := by
  refine .get_bind (fun _ => rfl) fun m => ?_
  split
  · exact .pure _
  · refine (execute_tame _).bind fun _ => Call.Tame.bind (.modify ?_ ?_) fun _ => .pure _
    · exact fun _ hm => hm
    · exact fun _ => rfl

theorem load_tame (source : String) :
    (load source).Tame (Serves given) (fun e => Error.Running (.source e)) (behind earlier) :=
  Call.Tame.bind (.liftM fun e _ => .source e) fun _ => .modify (fun _ hm => hm) fun _ => rfl

theorem interpreter_tame : interpreter.Tame (Serves given) Error.Running (behind earlier) where
  load := load_tame
  prepare := .pure _
  step := step_tame
  finish := Sink.flushPart_tame (fun _ hm => hm.1) (fun _ _ hm ht => ⟨ht, hm.2⟩) (fun _ => rfl)
    fun _ _ => rfl

end Tape.Machine

namespace Troop.Machine

def behind (earlier : List UInt8) (m : Machine) : Machine :=
  { m with output := m.output.behind earlier }

def Serves (given : List UInt8) (m : Machine) : Prop := m.output.Unbounded ∧ m.input.LeftOf given

theorem learn_tame (i : Fin 7) :
    (learn i).Tame (Serves given) Error.Running (behind earlier) := by
  refine Call.Tame.bind ?_ fun _ => .modify (fun _ hm => hm) fun _ => rfl
  exact Source.require_tame.onPart (fun _ hm => hm.2) (fun _ _ hm ht => ⟨hm.1, ht⟩) (fun _ => rfl)
    fun _ _ => rfl

theorem yell_tame (i : Fin 7) :
    (yell i).Tame (Serves given) Error.Running (behind earlier) := by
  refine .get_bind (fun _ => rfl) fun m => ?_
  exact (Sink.writeCode_tame _).onPart (fun _ hm => hm.1) (fun _ _ hm ht => ⟨ht, hm.2⟩)
    (fun _ => rfl) fun _ _ => rfl

theorem serves_play {m : Machine} (hm : m.Serves given) (i : Fin 7) : (m.play i).Serves given := by
  rw [play]
  rcases m.rng.byte with ⟨value, rng⟩
  exact hm

theorem play_behind (i : Fin 7) (m : Machine) :
    (m.behind earlier).play i = (m.play i).behind earlier := by
  have hrng : (m.behind earlier).rng = m.rng := rfl
  rw [play, play, hrng]
  rcases m.rng.byte with ⟨value, rng⟩
  rfl

theorem act_tame (i : Fin 7) (action : Action) :
    (act i action).Tame (Serves given) Error.Running (behind earlier) := by
  cases action with
  | learn => exact learn_tame i
  | yell => exact yell_tame i
  | play => exact .modify (fun _ hm => serves_play hm i) (play_behind i)
  | wake => exact .pure _
  | _ => exact .modify (fun _ hm => hm) fun _ => rfl

theorem execute_tame (instruction : Instruction) :
    (execute instruction).Tame (Serves given) Error.Running (behind earlier) := by
  refine .get_bind (fun _ => rfl) fun m => ?_
  split
  · split
    · exact .modify (fun _ hm => hm) fun _ => rfl
    · exact .pure _
  · exact act_tame _ _

theorem step_tame : step.Tame (Serves given) Error.Running (behind earlier) := by
  refine .get_bind (fun _ => rfl) fun m => ?_
  split
  · exact .pure _
  · split
    · exact .pure _
    · refine (execute_tame _).bind fun _ => Call.Tame.bind (.modify ?_ ?_) fun _ => .pure _
      · exact fun _ hm => hm
      · exact fun _ => rfl

theorem interpreter_tame : interpreter.Tame (Serves given) Error.Running (behind earlier) where
  load _ := .modify (fun _ hm => hm) fun _ => rfl
  prepare := .pure _
  step := step_tame
  finish := Sink.flushPart_tame (fun _ hm => hm.1) (fun _ _ hm ht => ⟨ht, hm.2⟩) (fun _ => rfl)
    fun _ _ => rfl

end Troop.Machine

namespace Sink

theorem Unbounded.deliver {s : Sink} (h : s.Unbounded) (text : List Char) :
    (s.deliver text).Unbounded := by
  induction text generalizing s with
  | nil => exact h
  | cons c text ih =>
    rw [deliver_cons, (h.accepts _).write_on]
    exact ih (h.written _)

theorem deliver_behind (text : List Char) (s : Sink) :
    (s.behind earlier).deliver text = (s.deliver text).behind earlier := by
  induction text generalizing s with
  | nil => rfl
  | cons c text ih => rw [deliver_cons, deliver_cons, (write_tame _).overlooks, ih]

end Sink

namespace Ledger.Machine

def behind (earlier : List UInt8) (m : Machine) : Machine :=
  m.onto (m.channels.sink.behind earlier)

/-- The channels keep the input to themselves, and it is not known what has been read from it. -/
def Serves (m : Machine) : Prop := m.channels.sink.Unbounded

/-- A call that hands some characters over to the output, whatever output this is. -/
theorem tame_of_onto {ε α : Type} {q : ε → Prop} {call : Call Machine ε α}
    (text : Machine → List Char)
    (h : ∀ output m, call.on (m.onto output) =
      ((call.on m).1, (call.on m).2.onto (output.deliver (text m))))
    (hq : call.FailsOnly q) : call.Tame Serves q (behind earlier) := by
  have hsink : ∀ m, (call.on m).2.channels.sink = m.channels.sink.deliver (text m) := by
    intro m
    have hself := congrArg (fun result => result.2.channels.sink) (h m.channels.sink m)
    rw [onto_sink] at hself
    exact hself.trans (Channels.sink_onto _ _)
  refine ⟨fun m hm => ?_, fun m => ?_⟩
  · have hleft := hsink m
    rcases hc : call.on m with ⟨e | a, u⟩
    · exact hq m e (by rw [hc])
    · rw [hc] at hleft
      have hu : u.channels.sink.Unbounded := hleft ▸ Sink.Unbounded.deliver hm (text m)
      exact hu
  · rw [behind, h, Sink.deliver_behind, ← hsink, behind]

theorem step_failsOnly : step.FailsOnly Error.Running := by
  intro m e h
  rcases ht : m.transactions[m.counter]? with _ | t
  · rw [step_halts ht] at h
    cases h
  · obtain ⟨-, rfl, -⟩ := emit_error_iff.mp ((step_error_iff ht).mp (Prod.ext h rfl))
    exact .fault _

theorem stepLacking_tame (lacking : Nat) :
    (stepLacking lacking).Tame Serves Error.Running (behind earlier) := by
  refine tame_of_onto (fun m => (m.within (m.channels.waiting.length - lacking)).sent?.toList)
    (fun output m => ?_) fun m e h => ?_
  · rw [stepLacking_on, stepLacking_on, channels_onto, Channels.waiting_onto, stepWith_onto]
  · rw [stepLacking_on] at h
    exact step_failsOnly.onPart m e h

theorem prepare_tame : prepare.Tame Serves Error.Running (behind earlier) := by
  have hresult : ∀ m, (prepare.on m).1 = .ok () := by
    intro m
    rw [prepare, Call.on_modify]
  refine tame_of_onto (fun _ => []) (fun output m => Prod.ext ?_ (prepare_onto output m)) (.modify _)
  rw [hresult, hresult]

theorem interpreter_tame : interpreter.Tame Serves Error.Running (behind earlier) where
  load source := tame_of_onto (fun _ => []) (load_onto source) fun _ e _ => .source e
  prepare := prepare_tame
  step := tame_of_onto (fun m => m.sent?.toList) step_onto step_failsOnly
  finish := tame_of_onto (fun _ => []) (fun output m => Prod.ext rfl (closeChannels_onto output m))
    (.modify _)

end Ledger.Machine

end Esolang
