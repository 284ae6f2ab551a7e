import Esolang.Proofs.Ledger.Requests

/-! Who has the streams of a ledger machine. The input, the output and the flows are handles that may
each be there or not. Flows take along whatever streams are there when they start, and give the output
back when they stop; the input never comes back. -/

namespace Esolang.Ledger

/-- Flows that run: the characters that wait, and the output if the flows have it. -/
structure Flows where
  waiting : List Char
  output : Option Sink

/-- The handles that a machine has at some time. -/
structure Handles where
  input : Option Source
  output : Option Sink
  flows : Option Flows

namespace Handles

/-- Starts flows with the streams that are there, in place of any other flows. -/
def spawn (h : Handles) : Handles :=
  { input := none
    output := none
    flows := some { waiting := (h.input.map fun input => input.readAll.1).getD [], output := h.output } }

/-- Stops the flows, if there are any, and takes the output back if they have it. -/
def shutdown (h : Handles) : Handles :=
  match h.flows with
  | none => h
  | some flows => { h with output := flows.output.or h.output, flows := none }

/-- Nothing has changed hands. -/
structure Stays (h h' : Handles) : Prop where
  input : h'.input = h.input
  output : h'.output = h.output
  flows : h'.flows.isSome = h.flows.isSome

variable {h h' h'' : Handles}

theorem Stays.refl (h : Handles) : h.Stays h := ⟨rfl, rfl, rfl⟩

theorem Stays.trans (hs : h.Stays h') (hs' : h'.Stays h'') : h.Stays h'' :=
  ⟨hs'.input.trans hs.input, hs'.output.trans hs.output, hs'.flows.trans hs.flows⟩

theorem input_shutdown (h : Handles) : h.shutdown.input = h.input := by
  rw [shutdown]
  split <;> rfl

theorem flows_shutdown (h : Handles) : h.shutdown.flows = none := by
  rw [shutdown]
  split
  · assumption
  · rfl

theorem flows_spawn (h : Handles) : h.spawn.flows.isSome := rfl

/-- The input has gone, and none of its characters wait any more. -/
structure Spent (h : Handles) : Prop where
  input : h.input = none
  waiting : (h.flows.map Flows.waiting).getD [] = []

theorem spent_shutdown (hi : h.input = none) : h.shutdown.Spent := by
  refine ⟨h.input_shutdown.trans hi, ?_⟩
  rw [flows_shutdown]
  rfl

theorem spent_spawn (hi : h.input = none) : h.spawn.Spent := by
  refine ⟨rfl, ?_⟩
  simp [spawn, hi]

end Handles

namespace Channels

def handles : Channels → Handles
  | .closed input output => { input, output := some output, flows := none }
  | .flowing waiting output =>
    { input := none, output := none, flows := some { waiting, output := some output } }

variable {channels : Channels}

theorem output?_eq (channels : Channels) : channels.output? = channels.handles.output := by
  cases channels <;> rfl

/-- The output is at hand exactly if no flows run, and the flows have it otherwise. -/
theorem output_owned (channels : Channels) :
    (channels.handles.output.isSome ↔ channels.handles.flows = none) ∧
      ∀ flows, channels.handles.flows = some flows → flows.output = some channels.sink := by
  cases channels with
  | closed input output => simp [handles]
  | flowing waiting output => simp [handles, sink]

theorem sink_of_output? {output : Sink} (h : channels.output? = some output) :
    channels.sink = output := by
  cases channels with
  | closed input output => exact Option.some.inj h
  | flowing waiting output => cases h

theorem handles_stop (channels : Channels) : channels.stop.handles = channels.handles.shutdown := by
  cases channels <;> rfl

theorem handles_start_stop (channels : Channels) :
    channels.stop.start.handles = channels.handles.shutdown.spawn := by
  rcases channels with ⟨_ | input, output⟩ | ⟨waiting, output⟩ <;> rfl

theorem waiting_eq (channels : Channels) :
    channels.waiting = (channels.handles.flows.map Flows.waiting).getD [] := by
  cases channels <;> rfl

theorem decodable_eq (channels : Channels) : channels.decodable =
    (channels.handles.input.map fun input => input.readAll.1).getD [] := by
  rcases channels with ⟨_ | input, output⟩ | ⟨waiting, output⟩ <;> rfl

theorem waiting_join {late : List Char} (h : channels.handles.flows.isSome) :
    (channels.join late).waiting = channels.waiting ++ late := by
  cases channels with
  | closed input output => cases h
  | flowing waiting output => rfl

theorem handles_send_stays (c : Char) (channels : Channels) :
    channels.handles.Stays (channels.send c).handles := by
  cases channels with
  | closed input output => exact .refl _
  | flowing waiting output => exact ⟨rfl, rfl, rfl⟩

theorem handles_arrived_stays (count : Nat) (channels : Channels) :
    channels.handles.Stays (channels.arrived count).handles := by
  cases channels with
  | closed input output => exact .refl _
  | flowing waiting output => exact ⟨rfl, rfl, rfl⟩

theorem handles_join_stays (late : List Char) (channels : Channels) :
    channels.handles.Stays (channels.join late).handles := by
  cases channels with
  | closed input output => exact .refl _
  | flowing waiting output => exact ⟨rfl, rfl, rfl⟩

theorem waiting_send (c : Char) (channels : Channels) :
    (channels.send c).waiting = channels.waiting := by
  cases channels <;> rfl

end Channels

namespace Machine

variable {m first : Machine}

def handles (m : Machine) : Handles := m.channels.handles

theorem emit_keeps_waiting (m : Machine) : m.handles.Stays (emit.on m).2.handles ∧
    (emit.on m).2.channels.waiting = m.channels.waiting := by
  obtain ⟨rng, h | ⟨c, -, h⟩⟩ := emit_cases m
  · rw [h]
    exact ⟨.refl _, rfl⟩
  · rw [h]
    exact ⟨Channels.handles_send_stays _ _, Channels.waiting_send _ _⟩

theorem receive_stays (m : Machine) : m.handles.Stays m.receive.handles := by
  obtain ⟨rng, h | ⟨c, waiting, output, hc, h⟩⟩ := receive_cases m
  · rw [h]
    exact .refl _
  · rw [h, handles, hc]
    exact ⟨rfl, rfl, rfl⟩

/-- What a step does to the handles and to the characters that wait, whatever becomes of it. -/
theorem step_takes (m : Machine) : m.handles.Stays (step.on m).2.handles ∧
    m.channels.waiting = m.received?.toList ++ (step.on m).2.channels.waiting := by
  rcases ht : m.transactions[m.counter]? with _ | t
  · have hreceived : m.received? = none := by simp [received?, ht]
    rw [step_halts ht, hreceived]
    exact ⟨.refl _, rfl⟩
  · obtain ⟨hstays, hwaiting⟩ := emit_keeps_waiting (m.carryOut t)
    rw [step_on ht]
    rcases he : emit.on (m.carryOut t) with ⟨e | _, u⟩
    · have hreceived : m.received? = none := by simp [received?, ht, he]
      rw [he] at hstays hwaiting
      rw [hreceived]
      exact ⟨hstays, hwaiting.symm⟩
    · have hreceived : m.received? = u.taken? := by simp [received?, ht, he]
      rw [he] at hstays hwaiting
      rw [hreceived]
      exact ⟨hstays.trans u.receive_stays, hwaiting.symm.trans u.receive_takes.waiting⟩

theorem stepWith_stays (count : Nat) (m : Machine) :
    m.handles.Stays ((stepWith count).on m).2.handles := by
  have harrived : m.handles.Stays (m.within count).handles :=
    Channels.handles_arrived_stays count m.channels
  exact (harrived.trans (step_takes _).1).trans (Channels.handles_join_stays _ _)

theorem handles_load (source : String) (m : Machine) :
    ((load source).on m).2.handles = m.handles := by
  rw [load_on]
  split <;> rfl

theorem handles_finish (m : Machine) : (finish.on m).2.handles = m.handles.shutdown :=
  m.channels.handles_stop

theorem handles_prepare (m : Machine) : (prepare.on m).2.handles =
    if m.transactions.isEmpty then m.handles.shutdown else m.handles.shutdown.spawn := by
  have hprogram : m.closeChannels.randomize.transactions = m.transactions :=
    m.closeChannels.transactions_randomize
  have hclosed : m.closeChannels.channels = m.channels.stop := rfl
  rw [prepare_leaves, handles, channels_openChannels, channels_randomize, hprogram, hclosed]
  split
  · exact m.channels.handles_stop
  · exact m.channels.handles_start_stop

end Machine

/-- Calls that stop the flows that run. -/
def Request.Stops : Request → Prop
  | load _ => False
  | prepare => True
  | step _ => False
  | finish => True

namespace Machine

variable {m first : Machine} {requests : List Request}

/-- Among the calls is a preparation of a program that is not empty. -/
def Opened (first : Machine) (requests : List Request) : Prop :=
  ∃ earlier later, requests = earlier ++ .prepare :: later ∧
    (first.course earlier).transactions ≠ #[]

/-- The last one among the calls that stop flows is a preparation of a program that is not empty. -/
def Running (first : Machine) (requests : List Request) : Prop :=
  ∃ earlier later, requests = earlier ++ .prepare :: later ∧
    (first.course earlier).transactions ≠ #[] ∧ ∀ request ∈ later, ¬ request.Stops

theorem concat_eq_append_cons_iff {earlier later : List Request} {last request : Request} :
    requests ++ [last] = earlier ++ request :: later ↔
      (last = request ∧ requests = earlier ∧ later = []) ∨
        ∃ between, requests = earlier ++ request :: between ∧ later = between ++ [last] := by
  constructor
  · intro h
    rcases later.eq_nil_or_concat with rfl | ⟨between, final, rfl⟩
    · obtain ⟨rfl, heq⟩ := List.append_inj' h rfl
      exact .inl ⟨List.head_eq_of_cons_eq heq, rfl, rfl⟩
    · rw [List.concat_eq_append, ← List.cons_append, ← List.append_assoc] at h
      obtain ⟨rfl, heq⟩ := List.append_inj' h rfl
      obtain rfl : last = final := List.head_eq_of_cons_eq heq
      exact .inr ⟨between, rfl, List.concat_eq_append⟩
  · rintro (⟨rfl, rfl, rfl⟩ | ⟨between, rfl, rfl⟩)
    · rfl
    · simp

theorem opened_concat {last : Request} : first.Opened (requests ++ [last]) ↔
    first.Opened requests ∨ last = .prepare ∧ (first.course requests).transactions ≠ #[] := by
  constructor
  · rintro ⟨earlier, later, heq, hne⟩
    rcases concat_eq_append_cons_iff.mp heq with ⟨rfl, rfl, -⟩ | ⟨between, rfl, -⟩
    · exact .inr ⟨rfl, hne⟩
    · exact .inl ⟨earlier, between, rfl, hne⟩
  · rintro (⟨earlier, between, rfl, hne⟩ | ⟨rfl, hne⟩)
    · exact ⟨earlier, between ++ [last], by simp, hne⟩
    · exact ⟨requests, [], rfl, hne⟩

theorem running_concat {last : Request} : first.Running (requests ++ [last]) ↔
    (last = .prepare ∧ (first.course requests).transactions ≠ #[]) ∨
      ¬ last.Stops ∧ first.Running requests := by
  constructor
  · rintro ⟨earlier, later, heq, hne, hgo⟩
    rcases concat_eq_append_cons_iff.mp heq with ⟨rfl, rfl, -⟩ | ⟨between, rfl, rfl⟩
    · exact .inl ⟨rfl, hne⟩
    · have hlast : ¬ last.Stops := hgo last (by simp)
      exact .inr ⟨hlast, earlier, between, rfl, hne, fun r hr => hgo r (by simp [hr])⟩
  · rintro (⟨rfl, hne⟩ | ⟨hlast, earlier, between, rfl, hne, hgo⟩)
    · exact ⟨requests, [], rfl, hne, by simp⟩
    · refine ⟨earlier, between ++ [last], by simp, hne, fun r hr => ?_⟩
      rcases List.mem_append.mp hr with hr | hr
      · exact hgo r hr
      · exact List.mem_singleton.mp hr ▸ hlast

theorem flows_leave (m : Machine) (request : Request) :
    (request.leave m).handles.flows.isSome ↔
      (request = .prepare ∧ m.transactions ≠ #[]) ∨ ¬ request.Stops ∧ m.handles.flows.isSome := by
  cases request with
  | load source =>
    show ((load source).on m).2.handles.flows.isSome ↔ _
    simp [handles_load, Request.Stops]
  | prepare =>
    show (prepare.on m).2.handles.flows.isSome ↔ _
    rw [handles_prepare]
    by_cases hempty : m.transactions = #[]
    · simp [hempty, Request.Stops, Handles.flows_shutdown]
    · simp [hempty, Handles.flows_spawn]
  | step count =>
    show ((stepWith count).on m).2.handles.flows.isSome ↔ _
    simp [(stepWith_stays count m).flows, Request.Stops]
  | finish =>
    show (finish.on m).2.handles.flows.isSome ↔ _
    simp [handles_finish, Request.Stops, Handles.flows_shutdown]

/-- By induction on the calls, from the last one on. -/
theorem running_iff (h : first.New) (requests : List Request) :
    (first.course requests).handles.flows.isSome ↔ first.Running requests := by
  induction requests using List.reverseRecOn with
  | nil =>
    obtain ⟨-, input, output, hc⟩ := h.starts
    refine iff_of_false ?_ ?_
    · simp [handles, hc, Channels.handles]
    · rintro ⟨earlier, later, heq, -⟩
      simp at heq
  | append_singleton requests last ih =>
    rw [course_append, running_concat, ← ih]
    exact flows_leave _ last

theorem Running.opened (h : first.Running requests) : first.Opened requests := by
  obtain ⟨earlier, later, heq, hne, -⟩ := h
  exact ⟨earlier, later, heq, hne⟩

theorem no_flows (h : first.New) (ho : ¬ first.Opened requests) :
    (first.course requests).handles.flows = none := by
  rw [← Option.not_isSome_iff_eq_none, running_iff h]
  exact fun hr => ho hr.opened

theorem input_leave {request : Request} (h : ¬ (request = .prepare ∧ m.transactions ≠ #[])) :
    (request.leave m).handles.input = m.handles.input := by
  cases request with
  | load source => exact congrArg Handles.input (handles_load source m)
  | prepare =>
    have hempty : m.transactions = #[] := by simpa using h
    show (prepare.on m).2.handles.input = m.handles.input
    simp [handles_prepare, hempty, Handles.input_shutdown]
  | step count => exact (stepWith_stays count m).input
  | finish =>
    show (finish.on m).2.handles.input = m.handles.input
    rw [handles_finish, Handles.input_shutdown]

theorem input_prepare (h : m.transactions ≠ #[]) : (prepare.on m).2.handles.input = none := by
  simp [handles_prepare, h, Handles.spawn]

/-- By induction on the calls: the first flows take the input along, and nothing brings it back. -/
theorem input_course (first : Machine) (requests : List Request) :
    (first.Opened requests → (first.course requests).handles.input = none) ∧
      (¬ first.Opened requests → (first.course requests).handles.input = first.handles.input) := by
  induction requests using List.reverseRecOn with
  | nil =>
    refine ⟨?_, fun _ => rfl⟩
    rintro ⟨earlier, later, heq, -⟩
    simp at heq
  | append_singleton requests last ih =>
    rw [course_append, opened_concat]
    by_cases hopens : last = .prepare ∧ (first.course requests).transactions ≠ #[]
    · refine ⟨fun _ => ?_, fun hn => absurd (.inr hopens) hn⟩
      rw [hopens.1]
      exact input_prepare hopens.2
    · have hkept := input_leave hopens
      rw [or_iff_left hopens]
      exact ⟨fun ho => hkept.trans (ih.1 ho), fun hn => hkept.trans (ih.2 hn)⟩

end Machine

def Request.sent : Request → Machine → List Char
  | step count, m => (m.within count).sent?.toList
  | _, _ => []

def Request.received : Request → Machine → List Char
  | step count, m => (m.within count).received?.toList
  | _, _ => []

namespace Machine

variable {m first : Machine} {requests : List Request}

/-- What some observation finds in a list of calls. -/
def gather (observe : Request → Machine → List Char) : Machine → List Request → List Char
  | _, [] => []
  | m, request :: later => observe request m ++ gather observe (request.leave m) later

theorem gather_append (observe : Request → Machine → List Char) (m : Machine)
    (earlier later : List Request) : m.gather observe (earlier ++ later) =
      m.gather observe earlier ++ (m.course earlier).gather observe later := by
  induction earlier generalizing m with
  | nil => rfl
  | cons request earlier ih => simp [gather, ih]

theorem bytes_leave (h : m.channels.sink.room = none) (request : Request) :
    (request.leave m).channels.sink.room = none ∧
      (request.leave m).channels.sink.bytes =
        m.channels.sink.bytes ++ encodeText (request.sent m) := by
  have hnothing {u : Machine} (hu : u.channels.sink = m.channels.sink) :
      u.channels.sink.room = none ∧
        u.channels.sink.bytes = m.channels.sink.bytes ++ encodeText [] := by
    rw [hu]
    exact ⟨h, by simp⟩
  cases request with
  | load source =>
    apply hnothing
    show ((load source).on m).2.channels.sink = m.channels.sink
    rw [load_on]
    split <;> rfl
  | prepare =>
    apply hnothing
    obtain ⟨u, hu, hsink, -⟩ := prepare_on m
    show (prepare.on m).2.channels.sink = m.channels.sink
    rw [hu, hsink]
  | step count =>
    have hsink := m.channels.sink_arrived count
    obtain ⟨hstep, hroom⟩ := step_exchanges (m := m.within count) (by rw [within, hsink, h])
    have hlast := Channels.sink_join (m.channels.waiting.drop count)
      (step.on (m.within count)).2.channels
    show ((stepWith count).on m).2.channels.sink.room = none ∧ _
    rw [Request.leave, stepWith_on, join, hlast]
    exact ⟨hroom, hstep.bytes.trans (by rw [within, hsink]; rfl)⟩
  | finish => exact hnothing m.channels.sink_stop

theorem bytes_course (h : m.channels.sink.room = none) (requests : List Request) :
    (m.course requests).channels.sink.bytes =
      m.channels.sink.bytes ++ encodeText (m.gather Request.sent requests) := by
  induction requests generalizing m with
  | nil => simp [gather]
  | cons request later ih =>
    obtain ⟨hroom, hbytes⟩ := bytes_leave h request
    rw [course_cons, ih hroom, hbytes, gather, encodeText_append, List.append_assoc]

theorem waiting_stepWith (count : Nat) (m : Machine) : m.channels.waiting =
    (m.within count).received?.toList ++ ((stepWith count).on m).2.channels.waiting := by
  obtain ⟨hstays, hwaiting⟩ := step_takes (m.within count)
  have harrived := m.channels.waiting_arrived count
  have hlate : ((stepWith count).on m).2.channels.waiting =
      (step.on (m.within count)).2.channels.waiting ++ m.channels.waiting.drop count := by
    rw [stepWith_on]
    -- Without flows nothing waits, so that nothing can come late either.
    cases hc : m.handles.flows with
    | none =>
      have hnone : m.channels.waiting = [] := by rw [m.channels.waiting_eq, ← handles, hc]; rfl
      rw [hnone, List.drop_nil, join, Channels.join_nil, List.append_nil]
    | some flows =>
      apply Channels.waiting_join
      have hflows := hstays.flows.trans (m.channels.handles_arrived_stays count).flows
      rw [← handles, hc] at hflows
      exact hflows
  rw [hlate, ← List.append_assoc, ← hwaiting]
  show _ = (m.channels.arrived count).waiting ++ _
  rw [harrived, List.take_append_drop]

theorem received_of_waiting_nil (h : m.channels.waiting = []) (request : Request) :
    request.received m = [] := by
  cases request with
  | step count =>
    have hw := waiting_stepWith count m
    rw [h] at hw
    exact (List.append_eq_nil_iff.mp hw.symm).1
  | load source => rfl
  | prepare => rfl
  | finish => rfl

theorem waiting_prepare (h : m.transactions ≠ #[]) :
    (prepare.on m).2.channels.waiting = m.channels.decodable := by
  rw [Channels.waiting_eq, Channels.decodable_eq, ← handles, handles_prepare]
  simp [h, Handles.spawn, Handles.input_shutdown, handles]

theorem waiting_of_spent (h : m.handles.Spent) : m.channels.waiting = [] := by
  rw [Channels.waiting_eq, ← handles, h.waiting]

theorem spent_of_stops {request : Request} (h : m.handles.input = none) (hs : request.Stops) :
    (request.leave m).handles.Spent := by
  cases request with
  | load source => exact hs.elim
  | step count => exact hs.elim
  | prepare =>
    show (prepare.on m).2.handles.Spent
    rw [handles_prepare]
    split
    · exact Handles.spent_shutdown h
    · exact Handles.spent_spawn (m.handles.input_shutdown.trans h)
  | finish =>
    show (finish.on m).2.handles.Spent
    rw [handles_finish]
    exact Handles.spent_shutdown h

theorem waiting_leave {request : Request} (h : ¬ request.Stops) : m.channels.waiting =
    request.received m ++ (request.leave m).channels.waiting := by
  cases request with
  | load source =>
    have hleft := handles_load source m
    show _ = ((load source).on m).2.channels.waiting
    rw [Channels.waiting_eq, Channels.waiting_eq, ← handles, ← handles, hleft]
  | step count => exact waiting_stepWith count m
  | prepare => exact absurd trivial h
  | finish => exact absurd trivial h

theorem spent_leave (h : m.handles.Spent) (request : Request) :
    (request.leave m).handles.Spent := by
  by_cases hs : request.Stops
  · exact spent_of_stops h.input hs
  · refine ⟨?_, ?_⟩
    · rw [input_leave ?_, h.input]
      rintro ⟨rfl, -⟩
      exact hs trivial
    · have hw := waiting_leave (m := m) hs
      rw [waiting_of_spent h, Channels.waiting_eq] at hw
      exact (List.append_eq_nil_iff.mp hw.symm).2

theorem received_of_spent (h : m.handles.Spent) (later : List Request) :
    m.gather Request.received later = [] := by
  induction later generalizing m with
  | nil => rfl
  | cons request later ih =>
    rw [gather, received_of_waiting_nil (waiting_of_spent h), ih (spent_leave h request),
      List.append_nil]

theorem received_unopened (h : first.New) (ho : ¬ first.Opened requests) :
    first.gather Request.received requests = [] := by
  induction requests using List.reverseRecOn with
  | nil => rfl
  | append_singleton requests last ih =>
    rw [opened_concat, not_or] at ho
    have hwaiting : (first.course requests).channels.waiting = [] := by
      rw [Channels.waiting_eq, ← handles, no_flows h ho.1]
      rfl
    rw [gather_append, ih ho.1, gather, received_of_waiting_nil hwaiting]
    rfl

/-- By induction on the calls: what is delivered is taken from the front of what waits. -/
theorem waiting_course (hs : ∀ request ∈ requests, ¬ request.Stops) : m.channels.waiting =
    m.gather Request.received requests ++ (m.course requests).channels.waiting := by
  induction requests generalizing m with
  | nil => rfl
  | cons request later ih =>
    obtain ⟨hr, hl⟩ := List.forall_mem_cons.mp hs
    rw [waiting_leave hr, ih hl, gather, List.append_assoc]
    rfl

structure HandsOver (first : Machine) (requests : List Request) (m : Machine) : Prop where
  /-- Preparing and finishing succeed, and move the handles one by one. -/
  prepares : (prepare.on m).1 = .ok () ∧ (prepare.on m).2.handles =
    if m.transactions.isEmpty then m.handles.shutdown else m.handles.shutdown.spawn
  finishes : (finish.on m).1 = .ok () ∧ (finish.on m).2.handles = m.handles.shutdown
  available : m.channels.output?.isSome ↔ m.handles.flows = none
  running : m.handles.flows.isSome ↔ first.Running requests
  /-- The output is at hand, or the flows will give it back. -/
  kept : m.channels.output?.isSome ∨ ∃ flows, m.handles.flows = some flows ∧ flows.output.isSome
  written : first.channels.sink.room = none → ∀ output, m.channels.output? = some output →
    output.bytes = first.channels.sink.bytes ++ encodeText (first.gather Request.sent requests)
  /-- The input stays until the first flows start, and is gone from then on. -/
  untouched : ¬ first.Opened requests →
    m.handles.input = first.handles.input ∧ first.gather Request.received requests = []
  taken : first.Opened requests → m.handles.input = none
  /-- The first flows deliver the characters of the input from the front on. -/
  delivers : ∀ earlier flow, requests = earlier ++ .prepare :: flow → ¬ first.Opened earlier →
    (first.course earlier).transactions ≠ #[] → (∀ request ∈ flow, ¬ request.Stops) →
    first.channels.decodable =
      (first.course (earlier ++ [.prepare])).gather Request.received flow ++ m.channels.waiting
  /-- Once they have been stopped, nothing is delivered any more. -/
  spent : ∀ earlier stop later, requests = earlier ++ stop :: later → first.Opened earlier →
    stop.Stops → (first.course (earlier ++ [stop])).gather Request.received later = []

theorem streams_change_hands (first : Machine) (h : first.New) (requests : List Request) :
    HandsOver first requests (first.course requests) where
  prepares := ⟨rfl, handles_prepare _⟩
  finishes := ⟨rfl, handles_finish _⟩
  available := by
    rw [Channels.output?_eq]
    exact (Channels.output_owned _).1
  running := running_iff h requests
  kept := by
    rw [Channels.output?_eq]
    obtain ⟨havailable, hlent⟩ := Channels.output_owned (first.course requests).channels
    cases hf : (first.course requests).channels.handles.flows with
    | none => exact .inl (havailable.mpr hf)
    | some flows => exact .inr ⟨flows, hf, by rw [hlent flows hf]; rfl⟩
  written := by
    intro hroom output houtput
    rw [← Channels.sink_of_output? houtput]
    exact bytes_course hroom requests
  untouched ho := ⟨(input_course first requests).2 ho, received_unopened h ho⟩
  taken ho := (input_course first requests).1 ho
  delivers := by
    rintro earlier flow rfl ho hne hs
    -- The flows start with the input that the machine was built with.
    have hinput := (input_course first earlier).2 ho
    have hwaits := waiting_prepare hne
    rw [Channels.decodable_eq, ← handles, hinput, handles, ← Channels.decodable_eq] at hwaits
    have hprepared : first.course (earlier ++ [.prepare]) = (prepare.on (first.course earlier)).2 := by
      rw [course_append]
      rfl
    have hend : first.course (earlier ++ .prepare :: flow) =
        (prepare.on (first.course earlier)).2.course flow := by
      rw [course_append]
      rfl
    rw [hprepared, hend, ← hwaits]
    exact waiting_course hs
  spent := by
    rintro earlier stop later rfl ho hs
    have hinput := (input_course first earlier).1 ho
    rw [course_append]
    exact received_of_spent (spent_of_stops hinput hs) later

def greeted : Machine := seeded 10 ['h', 'i', '!']

def opening : List Request := [.prepare, .load "O=0,O+66;I=105,I-105;"]

/-- Some steps by the first flows, before one of which no character has arrived. -/
def firstSteps : List Request := [.step 3, .step 0, .step 3, .step 3, .step 3]

def secondSteps : List Request := [.step 3, .step 3, .step 3, .step 3, .step 3, .load "(silent)"]

def twoFlows : List Request := opening ++ .prepare :: firstSteps ++ .prepare :: secondSteps

/-- The first flows are stopped with a character waiting that the second ones do not deliver. -/
theorem greeted_hands_over :
    greeted.New ∧
      (greeted.course (opening ++ [.prepare])).gather Request.received firstSteps = ['h', 'i'] ∧
      (greeted.course (opening ++ .prepare :: firstSteps)).channels.waiting = ['!'] ∧
      greeted.Running twoFlows ∧
      (greeted.course (opening ++ .prepare :: firstSteps ++ [.prepare])).gather Request.received
        (secondSteps ++ [.finish]) = [] ∧
      (greeted.course (twoFlows ++ [.finish])).channels.output?.map Sink.bytes =
        some (encodeText ['A', 'A', 'A']) := by
  have hnew : greeted.New := new_seeded 10 ['h', 'i', '!']
  have hready : (greeted.course opening).transactions ≠ #[] :=
    Array.isEmpty_eq_false_iff.mp (by decide +kernel)
  have hunopened : ¬ greeted.Opened opening := fun ho =>
    absurd ((streams_change_hands greeted hnew opening).taken ho) (by decide +kernel)
  have hfirst := streams_change_hands greeted hnew (opening ++ .prepare :: firstSteps)
  have hsecond := streams_change_hands greeted hnew twoFlows
  have hlast := streams_change_hands greeted hnew (twoFlows ++ [.finish])
  have hreceived : (greeted.course (opening ++ [.prepare])).gather Request.received firstSteps =
      ['h', 'i'] := by decide +kernel
  have hsent : greeted.gather Request.sent (twoFlows ++ [.finish]) = ['A', 'A', 'A'] := by
    decide +kernel
  obtain ⟨output, houtput⟩ := Option.isSome_iff_exists.mp (hlast.available.mpr (by decide +kernel))
  refine ⟨hnew, hreceived, ?_, hsecond.running.mp (by decide +kernel), ?_, ?_⟩
  · have hwaits := hfirst.delivers opening firstSteps rfl hunopened hready
      (by simp [firstSteps, Request.Stops])
    have htext : greeted.channels.decodable = ['h', 'i'] ++ ['!'] := by decide +kernel
    rw [hreceived, htext] at hwaits
    exact (List.append_cancel_left hwaits).symm
  · have hcalls : twoFlows ++ [.finish] =
        opening ++ .prepare :: firstSteps ++ .prepare :: (secondSteps ++ [.finish]) := by
      simp only [twoFlows, List.append_assoc, List.cons_append]
    have hopened : greeted.Opened (opening ++ .prepare :: firstSteps) :=
      ⟨opening, firstSteps, rfl, hready⟩
    exact hlast.spent _ .prepare _ hcalls hopened trivial
  · rw [houtput, Option.map_some, hlast.written rfl output houtput, hsent]
    rfl

end Machine

end Esolang.Ledger
