import Esolang.Proofs.Course
import Esolang.Proofs.Queue.Failure
import Esolang.Proofs.Stream.Pending

/-! Queues and input neither lose nor duplicate anything. A queue holds what has been put into it,
without as many of its first values as have been taken, and the input still has the characters that
have not been consumed. -/

namespace Esolang.Queue

/-- What goes into queues, comes out of them, and is consumed from the input. -/
structure Traffic where
  put : QueueName → List Int64 := fun _ => []
  taken : QueueName → Nat := fun _ => 0
  consumed : List Char := []

namespace Traffic

/-- First the one, then the other. -/
def append (a b : Traffic) : Traffic :=
  { put := fun name => a.put name ++ b.put name
    taken := fun name => a.taken name + b.taken name
    consumed := a.consumed ++ b.consumed }

/-- The traffic of a history, in its order. -/
def total (history : List Traffic) : Traffic := history.foldl append {}

theorem total_concat (history : List Traffic) (traffic : Traffic) :
    total (history ++ [traffic]) = (total history).append traffic := by
  simp [total]

end Traffic

namespace Contents

/-- A value that A or B makes up is not taken from it. An empty C is refilled first, and then gives
its first value if there is one. -/
def takeTraffic (name : QueueName) (d : Contents) : Traffic :=
  match d.queues name, name with
  | _ :: _, _ => { taken := fun other => if other = name then 1 else 0 }
  | [], .c =>
    let text := d.input.readAll.1
    { put := fun other => if other = .c then codes text else []
      taken := fun other => if other = .c ∧ text ≠ [] then 1 else 0
      consumed := text }
  | [], _ => {}

def traffic : Instruction → Contents → Traffic
  | .dequeue name, d => d.takeTraffic name
  | .add name, d => d.takeTraffic name
  | .sub name, d => d.takeTraffic name
  | .enqueue name, d => { put := fun other => if other = name then [d.register] else [] }
  | .readSigned, d => { consumed := (d.input.readWhile Machine.isNumeric).1 }
  | _, _ => {}

/-- The traffic accounts for the difference between the contents. -/
structure Accounts (d : Contents) (traffic : Traffic) (d' : Contents) : Prop where
  taken_le : ∀ name, traffic.taken name ≤ (d.queues name ++ traffic.put name).length
  queues : ∀ name, d'.queues name = (d.queues name ++ traffic.put name).drop (traffic.taken name)
  input : ∀ text, d.input.Pending text →
    ∃ rest, text = traffic.consumed ++ rest ∧ d'.input.Pending rest

namespace Accounts

variable {d e f : Contents} {a b : Traffic}

theorem congr (h : Accounts d a e) (hq : f.queues = e.queues) (hi : f.input = e.input) :
    Accounts d a f :=
  ⟨h.taken_le, fun name => by rw [hq, h.queues], fun text ht => by rw [hi]; exact h.input text ht⟩

theorem refl (d : Contents) : Accounts d {} d :=
  ⟨fun _ => Nat.zero_le _, fun _ => by simp, fun text ht => ⟨text, rfl, ht⟩⟩

theorem trans (h : Accounts d a e) (h' : Accounts e b f) : Accounts d (a.append b) f where
  taken_le name := by
    have hle := h.taken_le name
    have hle' := h'.taken_le name
    rw [h.queues name, List.length_append, List.length_drop] at hle'
    simp only [Traffic.append, List.length_append] at hle hle' ⊢
    omega
  queues name := by
    have hle := h.taken_le name
    simp only [Traffic.append]
    rw [h'.queues name, h.queues name, ← List.drop_append_of_le_length hle, List.drop_drop,
      List.append_assoc]
  input text ht := by
    obtain ⟨middle, rfl, hmiddle⟩ := h.input text ht
    obtain ⟨rest, rfl, hrest⟩ := h'.input middle hmiddle
    exact ⟨rest, (List.append_assoc _ _ _).symm, hrest⟩

end Accounts

theorem setQueue_accounts {name : QueueName} {value : Int64} {rest : List Int64} {d : Contents}
    (hq : d.queues name = value :: rest) : Accounts d (d.takeTraffic name) (d.setQueue name rest) := by
  have htraffic : d.takeTraffic name = { taken := fun other => if other = name then 1 else 0 } := by
    simp [takeTraffic, hq]
  rw [htraffic]
  refine ⟨fun other => ?_, fun other => ?_, fun text ht => ⟨text, rfl, ht⟩⟩
  · by_cases ho : other = name
    · simp [ho, hq]
    · simp [ho]
  · by_cases ho : other = name
    · simp [ho, hq, setQueue]
    · simp [ho, setQueue]

/-- An empty C takes all that is pending, and gives its first value. -/
theorem refill_accounts {value : Int64} {rest : List Int64} {d : Contents} {input : Source}
    (hq : d.queues .c = []) (hread : d.input.readAll.2.2 = input)
    (hcodes : codes d.input.readAll.1 = value :: rest) :
    Accounts d (d.takeTraffic .c) { d.setQueue .c rest with input } := by
  have hne : d.input.readAll.1 ≠ [] := by
    intro hnil
    rw [hnil] at hcodes
    cases hcodes
  have htraffic : d.takeTraffic .c =
      { put := fun other => if other = .c then codes d.input.readAll.1 else []
        taken := fun other => if other = .c then 1 else 0
        consumed := d.input.readAll.1 } := by
    simp [takeTraffic, hq, hne]
  rw [htraffic]
  refine ⟨fun other => ?_, fun other => ?_, fun text ht => ?_⟩
  · by_cases ho : other = .c
    · simp [ho, hq, hcodes]
    · simp [ho]
  · by_cases ho : other = .c
    · simp [ho, hq, hcodes, setQueue]
    · simp [ho, setQueue]
  · obtain ⟨hall, hnothing⟩ := ht.readAll
    rw [hread] at hnothing
    exact ⟨[], by rw [hall, List.append_nil], hnothing⟩

theorem take_accounts {name : QueueName} {value : Int64} {d d' : Contents}
    (h : (take name).on d = (.ok value, d')) : Accounts d (d.takeTraffic name) d' := by
  rcases hq : d.queues name with _ | ⟨first, rest⟩
  · cases name with
    | a =>
      obtain ⟨-, rfl⟩ : _ ∧ d = d' := by simpa [take, hq] using h
      simpa [takeTraffic, hq] using Accounts.refl d
    | b =>
      obtain ⟨-, rfl⟩ : _ ∧ d = d' := by simpa [take, hq] using h
      simpa [takeTraffic, hq] using Accounts.refl d
    | c =>
      rcases hread : d.input.readAll with ⟨text, result, input⟩
      have hinput : d.input.readAll.2.2 = input := by rw [hread]
      rcases hcodes : codes text with _ | ⟨first, rest⟩
      · rw [codes] at hcodes
        cases result <;> simp [take, hq, hread, hcodes] at h
      · have hall : codes d.input.readAll.1 = first :: rest := by rw [hread, hcodes]
        rw [codes] at hcodes
        cases result with
        | error e => simp [take, hq, hread] at h
        | ok _ =>
          obtain ⟨-, rfl⟩ : first = value ∧ { d.setQueue .c rest with input } = d' := by
            simpa [take, hq, hread, hcodes] using h
          exact refill_accounts hq hinput hall
  · obtain ⟨-, rfl⟩ : first = value ∧ d.setQueue name rest = d' := by
      simpa [take, hq] using h
    exact setQueue_accounts hq

/-- What is done with a value that has been taken touches neither queues nor input. -/
theorem take_bind_accounts {name : QueueName} (change : Int64 → Contents → Contents)
    (hchange : ∀ value e, (change value e).queues = e.queues ∧ (change value e).input = e.input)
    {d d' : Contents}
    (h : (take name >>= fun value => (modify (change value) : Call Contents Error Unit)).on d =
      (.ok (), d')) :
    Accounts d (d.takeTraffic name) d' := by
  rw [Call.on_bind] at h
  rcases ht : (take name).on d with ⟨e | value, e⟩
  · rw [ht] at h
    cases h
  · rw [ht] at h
    obtain ⟨-, rfl⟩ := Prod.mk.inj h
    exact (take_accounts ht).congr (hchange value e).1 (hchange value e).2

theorem readSigned_accounts {text : List Char} {result : Except StreamError Unit} {input : Source}
    {d : Contents} (hread : d.input.readWhile Machine.isNumeric = (text, result, input))
    (value : Int64) :
    Accounts d (d.traffic .readSigned) ({ d with input }.setRegister value) := by
  have hconsumed : (d.traffic .readSigned).consumed = text := by simp [traffic, hread]
  refine ⟨fun _ => Nat.zero_le _, fun _ => by simp [traffic, setRegister], fun pending hp => ?_⟩
  obtain ⟨hfront, hlast⟩ := hp.readWhile Machine.isNumeric
  rw [hread] at hfront hlast
  obtain rfl : text = pending.takeWhile Machine.isNumeric := hfront
  exact ⟨_, by rw [hconsumed, List.takeWhile_append_dropWhile], hlast⟩

theorem enqueue_accounts (name : QueueName) (d : Contents) :
    Accounts d (d.traffic (.enqueue name)) (d.setQueue name (d.queues name ++ [d.register])) := by
  refine ⟨fun _ => Nat.zero_le _, fun other => ?_, fun text ht => ⟨text, rfl, ht⟩⟩
  by_cases ho : other = name
  · simp [traffic, setQueue, ho]
  · simp [traffic, setQueue, ho]

theorem perform_accounts (instruction : Instruction) {d d' : Contents}
    (h : (perform instruction).on d = (.ok (), d')) : Accounts d (d.traffic instruction) d' := by
  obtain ⟨-, hd⟩ := Prod.mk.inj h
  cases instruction with
  | dequeue name => exact take_bind_accounts setRegister (fun _ _ => ⟨rfl, rfl⟩) h
  | add name =>
    exact take_bind_accounts (fun value e => e.setRegister (e.register + value))
      (fun _ _ => ⟨rfl, rfl⟩) h
  | sub name =>
    exact take_bind_accounts (fun value e => e.setRegister (e.register - value))
      (fun _ _ => ⟨rfl, rfl⟩) h
  | enqueue name => exact hd ▸ enqueue_accounts name d
  | readSigned =>
    rcases hread : d.input.readWhile Machine.isNumeric with ⟨text, result, input⟩
    cases result with
    | error e => simp [perform, readSigned, hread] at h
    | ok _ =>
      obtain rfl : setRegister _ { d with input } = d' := by simpa [perform, readSigned, hread] using h
      exact readSigned_accounts hread _
  | peek name => exact (Accounts.refl d).congr (hd ▸ rfl) (hd ▸ rfl)
  | length name => exact (Accounts.refl d).congr (hd ▸ rfl) (hd ▸ rfl)
  | printNumber name => exact (Accounts.refl d).congr (hd ▸ rfl) (hd ▸ rfl)
  | printChar name => exact (Accounts.refl d).congr (hd ▸ rfl) (hd ▸ rfl)
  | decrement => exact (Accounts.refl d).congr (hd ▸ rfl) (hd ▸ rfl)
  | increment => exact (Accounts.refl d).congr (hd ▸ rfl) (hd ▸ rfl)
  | loop test stop => exact (Accounts.refl d).congr (hd ▸ rfl) (hd ▸ rfl)
  | endLoop start => exact (Accounts.refl d).congr (hd ▸ rfl) (hd ▸ rfl)
  | nop => exact (Accounts.refl d).congr (hd ▸ rfl) (hd ▸ rfl)

end Contents

namespace Machine

variable {m : Machine}

def traffic (m : Machine) : Traffic :=
  match m.program[m.pc]? with
  | some instruction => m.contents.traffic instruction
  | none => {}

theorem step_accounts (hm : m.Standard) {progress : Progress}
    (h : (step.on m).1 = .ok progress) :
    Contents.Accounts m.contents m.traffic (step.on m).2.contents := by
  unfold traffic
  rcases hc : m.program[m.pc]? with _ | instruction
  · have hhalts : step.on m = (.ok .halt, m) := by simp [step, hc]
    rw [hhalts]
    exact .refl m.contents
  · have hcarries := step_carries hm hc
    have hresult := h.symm.trans hcarries.result_eq
    rcases hp : (Contents.perform instruction).on m.contents with ⟨e | _, d⟩
    · rw [hp] at hresult
      cases hresult
    · rw [hcarries.contents_eq, hp]
      exact Contents.perform_accounts instruction hp

/-- The traffic of so many steps. -/
def trafficOf (k : Nat) (m : Machine) : Traffic :=
  .total ((interpreter.visited k m).map traffic)

theorem trafficOf_succ (k : Nat) (m : Machine) :
    trafficOf (k + 1) m = (trafficOf k m).append (interpreter.after k m).traffic := by
  rw [trafficOf, Interpreter.visited_succ, List.map_append, List.map_singleton,
    Traffic.total_concat]
  rfl

/-- By induction on the number of steps: the traffic of a step comes behind that of the steps in front
of it. -/
theorem run_accounts (hm : m.Standard) (k : Nat)
    (hok : ∀ i < k, ∃ progress, (step.on (interpreter.after i m)).1 = .ok progress) :
    (interpreter.after k m).Standard ∧
      Contents.Accounts m.contents (trafficOf k m) (interpreter.after k m).contents := by
  induction k with
  | zero => exact ⟨hm, .refl m.contents⟩
  | succ k ih =>
    obtain ⟨hstandard, haccounts⟩ := ih fun i hi => hok i (Nat.lt_succ_of_lt hi)
    obtain ⟨progress, hp⟩ := hok k (Nat.lt_succ_self k)
    rw [trafficOf_succ]
    exact ⟨hstandard.step, haccounts.trans (step_accounts hstandard hp)⟩

/-- As long as no step has failed, each queue of a new machine holds what has been put into it without
as many of the first values as have been taken, and the text of the input is what has been consumed,
what has been pushed back and what is not yet decoded. -/
theorem nothing_lost_or_duplicated (program : Array Instruction) (register : Int64)
    (text : List Char) (failure : Option StreamError) (output : Sink) (m : Machine)
    (hm : m = { program, register, input := { bytes := encodeText text, failure }, output })
    (k : Nat) (hok : ∀ i < k, ∃ progress, (step.on (interpreter.after i m)).1 = .ok progress) :
    (∀ name, (trafficOf k m).taken name ≤ ((trafficOf k m).put name).length ∧
      ((interpreter.after k m).queue name).toList =
        ((trafficOf k m).put name).drop ((trafficOf k m).taken name)) ∧
    ∃ undecoded, (interpreter.after k m).input.bytes = encodeText undecoded ∧
      text = (trafficOf k m).consumed ++ ((interpreter.after k m).input.pushed ++ undecoded) := by
  have hempty : ∀ name, m.contents.queues name = [] := by
    intro name
    rw [hm]
    cases name <;> rfl
  have hpending : m.contents.input.Pending text := by
    rw [hm]
    exact ⟨text, rfl, rfl⟩
  have hstandard : m.Standard := by
    rw [hm]
    exact standard_new register { bytes := encodeText text, failure } output
  obtain ⟨-, haccounts⟩ := run_accounts hstandard k hok
  refine ⟨fun name => ⟨?_, ?_⟩, ?_⟩
  · have hle := haccounts.taken_le name
    rwa [hempty name, List.nil_append] at hle
  · have hq := haccounts.queues name
    rwa [hempty name, List.nil_append] at hq
  · obtain ⟨rest, htext, undecoded, hbytes, hrest⟩ := haccounts.input text hpending
    exact ⟨undecoded, hbytes, by rw [htext, hrest]; rfl⟩

/-- A program that reads a number into A, and takes two characters from an empty C. -/
def numberAndText : Machine :=
  { program := #[.readSigned, .enqueue .a, .dequeue .c, .add .c]
    input := { bytes := encodeText ['4', 'é', '!'] }
    output := {} }

theorem nothing_lost_of_numberAndText :
    (∀ i < 4, ∃ progress, (step.on (interpreter.after i numberAndText)).1 = .ok progress) ∧
      (trafficOf 4 numberAndText).put .c = [233, 33] ∧
      (trafficOf 4 numberAndText).taken .c = 2 ∧
      (trafficOf 4 numberAndText).consumed = ['4', 'é', '!'] ∧
      ((interpreter.after 4 numberAndText).queue .c).toList = [] ∧
      ((interpreter.after 4 numberAndText).queue .a).toList = [4] := by
  have hproceeds :
      ∀ i < 4, (step.on (interpreter.after i numberAndText)).1 = .ok .proceed := by
    decide +kernel
  have hok : ∀ i < 4, ∃ progress, (step.on (interpreter.after i numberAndText)).1 = .ok progress :=
    fun i hi => ⟨.proceed, hproceeds i hi⟩
  have hputs : (trafficOf 4 numberAndText).put .c = [233, 33] := by decide +kernel
  have htakes : (trafficOf 4 numberAndText).taken .c = 2 := by decide +kernel
  have hconsumed : (trafficOf 4 numberAndText).consumed = ['4', 'é', '!'] := by decide +kernel
  have hputs' : (trafficOf 4 numberAndText).put .a = [4] := by decide +kernel
  have htakes' : (trafficOf 4 numberAndText).taken .a = 0 := by decide +kernel
  obtain ⟨hqueues, -⟩ := nothing_lost_or_duplicated _ 0 ['4', 'é', '!'] none {} numberAndText rfl 4 hok
  refine ⟨hok, hputs, htakes, hconsumed, ?_, ?_⟩
  · rw [(hqueues .c).2, hputs, htakes]
    rfl
  · rw [(hqueues .a).2, hputs', htakes']
    rfl

end Machine

end Esolang.Queue
