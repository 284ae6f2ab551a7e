import Esolang.Proofs.Ledger.Handover

/-! What a ledger machine sees of its output: nothing. A machine does the same between the same calls
whatever becomes of the characters that it hands to its output flow, and two outputs get the same
characters, of which each keeps what there is room for. -/

namespace Esolang

namespace Sink

/-- What the output flow does with characters: it writes and flushes one after the other, and goes on
whether this succeeds or fails. -/
def deliver (text : List Char) (s : Sink) : Sink :=
  text.foldl
    (fun s c => ((do write (String.utf8EncodeChar c); flush : Call Sink StreamError Unit).on s).2) s

/-- What is kept of a text where there is so much room. The characters that fit are kept; of the first
one that does not fit some bytes may be, and of those behind it nothing is. -/
inductive Keeps : Option Nat → List Char → List UInt8 → Prop where
  | unbounded (text : List Char) : Keeps none text (encodeText text)
  | fitting {room : Nat} {text : List Char} (h : (encodeText text).length ≤ room) :
    Keeps (some room) text (encodeText text)
  | cut {room : Nat} {written : List Char} {c : Char} (refused : List Char)
    (hwritten : (encodeText written).length ≤ room)
    (hc : room < (encodeText written).length + (String.utf8EncodeChar c).length) :
    Keeps (some room) (written ++ c :: refused)
      (encodeText written ++ (String.utf8EncodeChar c).take (room - (encodeText written).length))

theorem deliver_cons (c : Char) (text : List Char) (s : Sink) :
    deliver (c :: text) s = deliver text ((write (String.utf8EncodeChar c)).on s).2 := by
  rw [deliver, List.foldl_cons, deliver, Call.on_bind]
  rcases hw : (write (String.utf8EncodeChar c)).on s with ⟨_ | _, t⟩ <;> rfl

theorem deliver_append (text more : List Char) (s : Sink) :
    deliver (text ++ more) s = deliver more (deliver text s) :=
  List.foldl_append

theorem fitting_nil (s : Sink) : s.fitting [] = [] := by
  rcases hroom : s.room with _ | room <;> simp [fitting, hroom]

theorem fitting_append (text more : List UInt8) (s : Sink) :
    s.fitting (text ++ more) = s.fitting text ++ ((write text).on s).2.fitting more := by
  rcases hroom : s.room with _ | room
  · simp [fitting, write, hroom]
  · simp only [fitting, write, hroom, Call.on_ofFunction, Option.map_some, List.take_append,
      List.length_take]
    congr 2
    omega

theorem bytes_deliver (text : List Char) (s : Sink) :
    (deliver text s).bytes = s.bytes ++ s.fitting (encodeText text) := by
  induction text generalizing s with
  | nil => simp [deliver, fitting_nil]
  | cons c text ih =>
    rw [deliver_cons, ih, bytes_write, encodeText_cons, fitting_append, List.append_assoc]

/-- The first character that does not fit, if there is one. -/
theorem exists_cut {text : List Char} {room : Nat} (h : room < (encodeText text).length) :
    ∃ written c refused, text = written ++ c :: refused ∧ (encodeText written).length ≤ room ∧
      room < (encodeText written).length + (String.utf8EncodeChar c).length := by
  induction text generalizing room with
  | nil => simp at h
  | cons c text ih =>
    by_cases hc : room < (String.utf8EncodeChar c).length
    · exact ⟨[], c, text, rfl, Nat.zero_le _, by simpa using hc⟩
    · rw [encodeText_cons, List.length_append] at h
      have hrest : room - (String.utf8EncodeChar c).length < (encodeText text).length := by omega
      obtain ⟨written, d, refused, rfl, hwritten, hd⟩ := ih hrest
      refine ⟨c :: written, d, refused, rfl, ?_, ?_⟩
      · rw [encodeText_cons, List.length_append]
        omega
      · rw [encodeText_cons, List.length_append]
        omega

theorem keeps_fitting (text : List Char) (s : Sink) :
    Keeps s.room text (s.fitting (encodeText text)) := by
  rcases hroom : s.room with _ | room
  · rw [fitting, hroom]
    exact .unbounded text
  · rw [fitting, hroom]
    dsimp only
    rcases Nat.lt_or_ge room (encodeText text).length with h | h
    · obtain ⟨written, c, refused, rfl, hwritten, hc⟩ := exists_cut h
      have hkept : (encodeText (written ++ c :: refused)).take room = encodeText written ++
          (String.utf8EncodeChar c).take (room - (encodeText written).length) := by
        rw [encodeText_append, encodeText_cons, List.take_append, List.take_of_length_le hwritten,
          List.take_append_of_le_length (by omega)]
      rw [hkept]
      exact .cut refused hwritten hc
    · rw [List.take_of_length_le h]
      exact .fitting h

end Sink

namespace Ledger

namespace Channels

variable {channels : Channels}

/-- The same channels with another output. -/
def onto (output : Sink) : Channels → Channels
  | .closed input _ => .closed input output
  | .flowing waiting _ => .flowing waiting output

/-- The output flow does with a character what it does with any text. -/
theorem send_flowing (c : Char) (waiting : List Char) (output : Sink) :
    (flowing waiting output).send c = flowing waiting (output.deliver [c]) := by
  rw [Sink.deliver_cons]
  rfl

theorem onto_sink (channels : Channels) : channels.onto channels.sink = channels := by
  cases channels <;> rfl

theorem sink_onto (output : Sink) (channels : Channels) : (channels.onto output).sink = output := by
  cases channels <;> rfl

theorem waiting_onto (output : Sink) (channels : Channels) :
    (channels.onto output).waiting = channels.waiting := by
  cases channels <;> rfl

theorem stop_onto (output : Sink) (channels : Channels) :
    (channels.onto output).stop = channels.stop.onto output := by
  cases channels <;> rfl

theorem start_onto (output : Sink) (channels : Channels) :
    (channels.onto output).start = channels.start.onto output := by
  rcases channels with ⟨_ | input, _⟩ | ⟨waiting, _⟩ <;> rfl

theorem arrived_onto (count : Nat) (output : Sink) (channels : Channels) :
    (channels.onto output).arrived count = (channels.arrived count).onto output := by
  cases channels <;> rfl

theorem join_onto (late : List Char) (output : Sink) (channels : Channels) :
    (channels.onto output).join late = (channels.join late).onto output := by
  cases channels <;> rfl

end Channels

namespace Machine

variable {m u : Machine}

/-- The same machine with another output. -/
def onto (output : Sink) (m : Machine) : Machine :=
  { m with channels := m.channels.onto output }

theorem channels_onto (output : Sink) (m : Machine) :
    (m.onto output).channels = m.channels.onto output := rfl

theorem onto_sink (m : Machine) : m.onto m.channels.sink = m := by
  rw [onto, Channels.onto_sink]

theorem load_onto (source : String) (output : Sink) (m : Machine) :
    (load source).on (m.onto output) =
      (((load source).on m).1, ((load source).on m).2.onto output) := by
  rw [load_on, load_on]
  split <;> rfl

theorem closeChannels_onto (output : Sink) (m : Machine) :
    (m.onto output).closeChannels = m.closeChannels.onto output := by
  rw [closeChannels, closeChannels, onto, onto, Channels.stop_onto]

theorem randomize_onto (output : Sink) (m : Machine) :
    (m.onto output).randomize = m.randomize.onto output := by
  have hrng : (m.onto output).rng = m.rng := rfl
  rw [randomize, randomize, hrng]
  generalize randomRegisters m.rng = drawn
  rfl

theorem openChannels_onto (output : Sink) (m : Machine) :
    (m.onto output).openChannels = m.openChannels.onto output := by
  have htransactions : (m.onto output).transactions = m.transactions := rfl
  have hrng : (m.onto output).rng = m.rng := rfl
  rw [openChannels, openChannels, htransactions, hrng]
  by_cases hnone : m.transactions.isEmpty = true
  · rw [if_pos hnone, if_pos hnone]
  · rw [if_neg hnone, if_neg hnone]
    generalize m.rng.below m.transactions.size = drawn
    dsimp only [onto]
    rw [Channels.start_onto]

theorem prepare_onto (output : Sink) (m : Machine) :
    (prepare.on (m.onto output)).2 = (prepare.on m).2.onto output := by
  rw [prepare_leaves, prepare_leaves, closeChannels_onto, randomize_onto, openChannels_onto]

/-- The output port hands over what it gives out, and does not look at what becomes of it. -/
theorem emit_onto (output : Sink) (m : Machine) :
    emit.on (m.onto output) =
      ((emit.on m).1, (emit.on m).2.onto (output.deliver m.given?.toList)) := by
  rw [emit_on, emit_on, given?]
  cases hc : m.channels with
  | closed input first =>
    rw [channels_onto, hc]
    rfl
  | flowing waiting first =>
    have hregisters : (m.onto output).registers = m.registers := rfl
    have hdraw : (m.onto output).outputChance.draw (m.onto output).rng = m.outputChance.draw m.rng :=
      rfl
    rw [channels_onto, hc, hregisters, hdraw]
    dsimp only [Channels.onto]
    by_cases hempty : m.registers.get Register.output = 0
    · rw [if_pos hempty, if_pos hempty, if_neg fun h => h.1 hempty]
      rfl
    · rw [if_neg hempty, if_neg hempty]
      cases hfires : (m.outputChance.draw m.rng).1 with
      | false =>
        simp only [Bool.false_eq_true, and_false, if_false]
        rfl
      | true =>
        rw [if_pos rfl, if_pos rfl, if_pos ⟨hempty, rfl⟩]
        cases hs : scalar? ((m.registers.get Register.output).toInt - 1) with
        | none => rfl
        | some c =>
          dsimp only
          rw [Channels.send_flowing]
          rfl

theorem receive_onto (output : Sink) (m : Machine) :
    (m.onto output).receive = m.receive.onto output := by
  have hregisters : (m.onto output).registers = m.registers := rfl
  have hdraw : (m.onto output).inputChance.draw (m.onto output).rng = m.inputChance.draw m.rng := rfl
  rw [receive, receive, hregisters, hdraw]
  cases hc : m.channels with
  | closed input first =>
    rw [channels_onto, hc]
    rfl
  | flowing waiting first =>
    rw [channels_onto, hc]
    dsimp only [Channels.onto]
    by_cases hempty : m.registers.get Register.input = 0
    · rw [if_pos hempty, if_pos hempty]
      rcases m.inputChance.draw m.rng with ⟨_ | _, rng⟩
      · rfl
      · cases waiting with
        | nil => rfl
        | cons c waiting => rfl
    · rw [if_neg hempty, if_neg hempty]

theorem step_onto (output : Sink) (m : Machine) :
    step.on (m.onto output) =
      ((step.on m).1, (step.on m).2.onto (output.deliver m.sent?.toList)) := by
  rcases ht : m.transactions[m.counter]? with _ | t
  · have honto : (m.onto output).transactions[(m.onto output).counter]? = none := ht
    rw [step_halts ht, step_halts honto, sent?, ht]
    rfl
  · have honto : (m.onto output).transactions[(m.onto output).counter]? = some t := ht
    have hcarried : (m.onto output).carryOut t = (m.carryOut t).onto output := rfl
    rw [step_on ht, step_on honto, hcarried, emit_onto, sent?, ht]
    rcases emit.on (m.carryOut t) with ⟨e | _, u⟩
    · rfl
    · dsimp only
      rw [receive_onto]
      rfl

theorem within_onto (count : Nat) (output : Sink) (m : Machine) :
    (m.onto output).within count = (m.within count).onto output := by
  rw [within, within, onto, onto, Channels.arrived_onto]

theorem stepWith_onto (count : Nat) (output : Sink) (m : Machine) :
    (stepWith count).on (m.onto output) = (((stepWith count).on m).1,
      ((stepWith count).on m).2.onto (output.deliver (m.within count).sent?.toList)) := by
  have hwaiting : (m.onto output).channels.waiting = m.channels.waiting :=
    Channels.waiting_onto output m.channels
  rw [stepWith_on, stepWith_on, within_onto, step_onto, hwaiting]
  dsimp only [join, onto]
  rw [Channels.join_onto]

end Machine

/-- What a call returns. -/
inductive Answer where
  | load (result : Except SourceError Unit)
  | step (result : Except Error Progress)
  | other (result : Except Error Unit)

def Request.answer : Request → Machine → Answer
  | load source, m => .load ((Machine.load source).on m).1
  | prepare, m => .other (Machine.prepare.on m).1
  | step count, m => .step ((Machine.stepWith count).on m).1
  | finish, m => .other (Machine.finish.on m).1

theorem Request.answer_onto (request : Request) (output : Sink) (m : Machine) :
    request.answer (m.onto output) = request.answer m := by
  cases request with
  | load source => rw [answer, answer, Machine.load_onto]
  | prepare => rw [answer, answer, Machine.prepare, Call.on_modify, Call.on_modify]
  | step count => rw [answer, answer, Machine.stepWith_onto]
  | finish => rw [answer, answer, Machine.finish, Call.on_modify, Call.on_modify]

/-- A call hands over the same characters whatever the output, which takes what it can of them, and
otherwise leaves the same machine. -/
theorem Request.leave_onto (request : Request) (output : Sink) (m : Machine) :
    request.leave (m.onto output) = (request.leave m).onto (output.deliver (request.sent m)) := by
  cases request with
  | load source => exact congrArg Prod.snd (Machine.load_onto source output m)
  | prepare => exact Machine.prepare_onto output m
  | step count => exact congrArg Prod.snd (Machine.stepWith_onto count output m)
  | finish => exact Machine.closeChannels_onto output m

/-- What can be asked about a machine, whoever has its output. -/
structure View where
  transactions : Array Transaction
  counter : Nat
  registers : Registers
  rng : Rng

namespace Machine

variable {m u : Machine}

def view (m : Machine) : View := ⟨m.transactions, m.counter, m.registers, m.rng⟩

theorem view_onto (output : Sink) (m : Machine) : (m.onto output).view = m.view := rfl

/-- What each call returns, and how it leaves the machine. -/
def report : Machine → List Request → List (Answer × View)
  | _, [] => []
  | m, request :: later =>
    (request.answer m, (request.leave m).view) :: (request.leave m).report later

theorem report_onto (requests : List Request) (output : Sink) (m : Machine) :
    (m.onto output).report requests = m.report requests := by
  induction requests generalizing m output with
  | nil => rfl
  | cons request later ih =>
    rw [report, request.answer_onto, request.leave_onto, view_onto, ih, report]

theorem course_onto (requests : List Request) (output : Sink) (m : Machine) :
    (m.onto output).course requests =
      (m.course requests).onto (output.deliver (m.gather Request.sent requests)) := by
  induction requests generalizing m output with
  | nil => rfl
  | cons request later ih =>
    rw [course_cons, request.leave_onto, ih, gather, Sink.deliver_append, course_cons]

theorem bytes_course_onto (requests : List Request) (output : Sink) (m : Machine) :
    ((m.onto output).course requests).channels.sink.bytes =
      output.bytes ++ output.fitting (encodeText (m.gather Request.sent requests)) := by
  rw [course_onto, onto, Channels.sink_onto, Sink.bytes_deliver]

/-- Machines that are built alike but for their outputs differ in nothing else. -/
theorem ofConfig_onto (config : Config) (entropy : UInt64) (input : Source) (first second : Sink) :
    ofConfig config entropy input second =
      (ofConfig config entropy input first).map (onto second) := by
  rw [ofConfig, ofConfig]
  split <;> rfl

/-- Two machines with the same settings, seed and input, and any two outputs: both are refused, or
both are built. Between the same calls they then return the same, and have the same program, place,
registers and generator behind every call. Their output flows are handed the same characters, and each
output keeps what it has room for. -/
theorem outputs_are_not_observed (config : Config) (entropy : UInt64) (input : Source)
    (first second : Sink) (requests : List Request) :
    (∃ e, ofConfig config entropy input first = .error e ∧
      ofConfig config entropy input second = .error e) ∨
    ∃ m u, ofConfig config entropy input first = .ok m ∧
      ofConfig config entropy input second = .ok u ∧
      m.report requests = u.report requests ∧
      ∃ sent kept kept', Sink.Keeps first.room sent kept ∧ Sink.Keeps second.room sent kept' ∧
        (m.course requests).channels.sink.bytes = first.bytes ++ kept ∧
        (u.course requests).channels.sink.bytes = second.bytes ++ kept' := by
  rw [ofConfig_onto config entropy input first second]
  rcases hm : ofConfig config entropy input first with e | m
  · exact .inl ⟨e, rfl, rfl⟩
  · have hsink : m.channels.sink = first := by
      obtain ⟨_, _, rfl⟩ := eq_of_ofConfig hm
      rfl
    have hfirst : m.onto first = m := by rw [← hsink, onto_sink]
    have hkept := bytes_course_onto requests first m
    rw [hfirst] at hkept
    exact .inr ⟨m, m.onto second, rfl, rfl, (report_onto requests second m).symm,
      m.gather Request.sent requests, _, _, Sink.keeps_fitting _ first,
      Sink.keeps_fitting _ second, hkept, bytes_course_onto requests second m⟩

end Machine

end Ledger

end Esolang
