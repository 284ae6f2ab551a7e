import Esolang.Proofs.CommandLine.InTurn

/-! Standard input that several programs share. Each program has a buffer of its own, which takes whole
chunks; what is left in it when the program ends is lost to the next one. -/

namespace Esolang

/-- What has not been read of a source, in bytes: the characters that were pushed back, and the rest. -/
def Source.unread (s : Source) : List UInt8 := encodeText s.pushed ++ s.bytes

/-- What the steps of a machine have not read of what it was given. -/
def Language.unread (given : List UInt8) : (l : Language) → l.State → List UInt8
  | abcr, m => (Queue.Machine.input m).unread
  | befunge, _ => given
  | brainfuck, m => (Tape.Machine.input m).unread
  | monkeys, m => (Troop.Machine.input m).unread
  | myUnreliablePast, _ => given

def Machine.unread (given : List UInt8) (m : Machine) : List UInt8 := m.language.unread given m.state

namespace CommandLine

variable {surroundings : Surroundings} {settings : Settings} {stepLimit : Option Nat}
  {fuel place : Nat} {job : Job} {before after : List Job} {stdin given rest : List UInt8}
  {outputs : List (List UInt8)} {p : Process}
  {handOver : Nat → List UInt8 → Process → List UInt8}

/-- A program has read whole characters from the front of what it was given, one that it has pushed back
among them, and the next program is given what is behind the fewest chunks that hold them. -/
def LeavesChunks (given : List UInt8) (p : Process) (next : List UInt8) : Prop :=
  ∃ text unread count, given = encodeText text ++ unread ∧
    unread.length = p.machine.unreadBytes given.length ∧ (encodeText text).length ≤ count * chunk ∧
    count * chunk < (encodeText text).length + chunk ∧ next = given.drop (count * chunk)

theorem Job.Completes.leaves_eq
    (h : job.Completes surroundings settings stepLimit place given p)
    (hjob : job.language ≠ .myUnreliablePast) : surroundings.leaves place given p =
      leftOver given (given.length - p.machine.unreadBytes given.length) := by
  have hlanguage : p.machine.language = job.language := h.serves.1
  exact Process.leaves_of_ne (hlanguage ▸ hjob) _ given

theorem Job.Completes.leavesChunks
    (h : job.Completes surroundings settings stepLimit place given p)
    (hjob : job.language ≠ .myUnreliablePast) :
    LeavesChunks given p (surroundings.leaves place given p) := by
  obtain ⟨text, unread, hgiven, hunread⟩ := h.serves.2.exists_read
  have hlength : given.length - p.machine.unreadBytes given.length = (encodeText text).length := by
    have htotal := congrArg List.length hgiven
    rw [List.length_append, hunread] at htotal
    have hshown : p.machine.language.unreadBytes given.length p.machine.state =
        p.machine.unreadBytes given.length := rfl
    omega
  refine ⟨text, unread, chunks (encodeText text).length, hgiven, hunread, ?_, ?_, ?_⟩
  · unfold chunks chunk
    omega
  · unfold chunks chunk
    omega
  · rw [h.leaves_eq hjob, leftOver, hlength]

theorem CompleteInTurn.split
    (h : CompleteInTurn surroundings settings stepLimit handOver place (before ++ job :: after) stdin
      outputs rest) :
    ∃ given p earlier later, outputs = earlier ++ p.machine.sink.bytes :: later ∧
      CompleteInTurn surroundings settings stepLimit handOver place before stdin earlier given ∧
      job.Completes surroundings settings stepLimit (place + before.length) given p ∧
      CompleteInTurn surroundings settings stepLimit handOver (place + before.length + 1) after
        (handOver (place + before.length) given p) later rest := by
  induction before generalizing place stdin outputs with
  | nil =>
    obtain _ | ⟨hjob, hlater⟩ := h
    exact ⟨stdin, _, [], _, rfl, .nil place stdin, hjob, hlater⟩
  | cons first before ih =>
    obtain _ | ⟨hfirst, hlater⟩ := h
    obtain ⟨given, p, earlier, later, rfl, hbefore, hjob, hafter⟩ := ih hlater
    rw [place_cons place first before] at hjob hafter
    exact ⟨given, p, _, later, rfl, .cons hfirst hbefore, hjob, hafter⟩

/-- Behind programs without flows the standard input goes on from the beginning of some chunk. -/
theorem CompleteInTurn.exists_chunks
    (h : CompleteInTurn surroundings settings stepLimit surroundings.leaves place before stdin outputs
      given)
    (hlanguages : ∀ job ∈ before, job.language ≠ .myUnreliablePast) :
    ∃ count, given = stdin.drop (count * chunk) := by
  induction h with
  | nil place stdin => exact ⟨0, by rw [Nat.zero_mul, List.drop_zero]⟩
  | @cons _ job _ stdin _ p _ hjob _ ih =>
    obtain ⟨hlanguage, hlater⟩ := List.forall_mem_cons.mp hlanguages
    obtain ⟨count, rfl⟩ := ih hlater
    refine ⟨chunks (stdin.length - p.machine.unreadBytes stdin.length) + count, ?_⟩
    rw [hjob.leaves_eq hlanguage, leftOver, List.drop_drop, Nat.add_mul]

theorem Job.Completes.unique {q : Process}
    (h : job.Completes surroundings settings stepLimit place stdin p)
    (h' : job.Completes surroundings settings stepLimit place stdin q) : p = q := by
  obtain ⟨hread, hnew, hrun⟩ := h
  obtain ⟨hread', hnew', hrun'⟩ := h'
  obtain rfl := Except.ok.inj (hread.symm.trans hread')
  obtain rfl := Except.ok.inj (hnew.symm.trans hnew')
  exact (Interpreter.runWithin_unique hrun hrun').2

/-- Where all programs end without an error, each of them is given the standard input from the beginning
of some chunk on, reads whole characters from the front of it, and leaves to the next one what is behind
the chunks that hold them. -/
theorem input_is_taken_in_chunks (surroundings : Surroundings) (arguments : List String) (o : Options)
    (jobs : List Job) (fuel : Nat) (hparse : parse arguments = .ok (.use o))
    (hlist : o.has .list = false) (hfiles : o.files ≠ [])
    (hjobs : List.Forall₂ (Chosen o.language) o.files jobs)
    (hlanguages : ∀ job ∈ jobs, job.language ≠ .myUnreliablePast)
    (hexit : (session surroundings fuel arguments).exit = some 0) :
    ∃ outputs rest,
      CompleteInTurn surroundings o.settings o.stepLimit surroundings.leaves 0 jobs surroundings.stdin
        outputs rest ∧
      (session surroundings fuel arguments).stdout = outputs.flatten ∧
      ∀ before job after, jobs = before ++ job :: after → ∃ given p earlier next later,
        CompleteInTurn surroundings o.settings o.stepLimit surroundings.leaves 0 before
          surroundings.stdin earlier given ∧
        job.Completes surroundings o.settings o.stepLimit before.length given p ∧
        CompleteInTurn surroundings o.settings o.stepLimit surroundings.leaves (before.length + 1) after
          next later rest ∧
        (∃ count, given = surroundings.stdin.drop (count * chunk)) ∧ LeavesChunks given p next := by
  rw [session_of_parse hparse] at hexit ⊢
  have hends := endsWith_of_useOptions hlist hfiles hjobs (by rw [hexit]; exact Option.some_ne_none 0)
  obtain ⟨outputs, rest, hall⟩ := hends.exit_eq_zero_iff.mp hexit
  refine ⟨outputs, rest, hall, ?_, ?_⟩
  · rw [hends.unique (.completed hall)]
  · rintro before job after rfl
    obtain ⟨given, p, earlier, later, -, hbefore, hjob, hafter⟩ := hall.split
    rw [Nat.zero_add] at hjob hafter
    have hfront : ∀ job ∈ before, job.language ≠ .myUnreliablePast := fun job hmem =>
      hlanguages job (List.mem_append_left _ hmem)
    have hlanguage := hlanguages job (List.mem_append_right before List.mem_cons_self)
    exact ⟨given, p, earlier, _, later, hbefore, hjob, hafter, hbefore.exists_chunks hfront,
      hjob.leavesChunks hlanguage⟩

section Echo

def echoFiles : Surroundings where
  read file :=
    if file = "a.b" then .ok (encodeText [',', '.'])
    else if file = "b.abcr" then .ok (encodeText ['i', 'A', 'o'])
    else .error .notFound
  stdin := encodeText ['a', '5']
  entropy := 0

def echoOptions : Options := { files := ["a.b", "b.abcr"] }

def echoJobs : List Job := [⟨"a.b", .brainfuck⟩, ⟨"b.abcr", .abcr⟩]

theorem echoFiles_session : (session echoFiles 20 ["a.b", "b.abcr"]).exit = some 0 ∧
    (session echoFiles 20 ["a.b", "b.abcr"]).stdout = encodeText ['a', '0'] := by
  constructor
  · decide +kernel
  · decide +kernel

theorem first_echo_leaves_chunks :
    (session echoFiles 20 ["a.b", "b.abcr"]).exit = some 0 ∧
      ∃ p next outputs rest,
        Job.Completes echoFiles echoOptions.settings none 0 ⟨"a.b", .brainfuck⟩ echoFiles.stdin p ∧
        LeavesChunks echoFiles.stdin p next ∧
        CompleteInTurn echoFiles echoOptions.settings none echoFiles.leaves 1 [⟨"b.abcr", .abcr⟩] next
          outputs rest := by
  have hjobs : List.Forall₂ (Chosen none) echoOptions.files echoJobs := jobsOf_ok_iff.mp rfl
  obtain ⟨outputs, rest, -, -, hchunks⟩ := input_is_taken_in_chunks echoFiles ["a.b", "b.abcr"]
    echoOptions echoJobs 20 rfl rfl (by decide) hjobs (by decide) echoFiles_session.1
  obtain ⟨given, p, earlier, next, later, hbefore, hjob, hafter, -, hleaves⟩ :=
    hchunks [] _ _ rfl
  cases hbefore
  exact ⟨echoFiles_session.1, p, next, later, rest, hjob, hleaves, hafter⟩

/-- The first program reads one character and leaves the other one. -/
theorem exists_first_echo : ∃ p,
    Job.Completes echoFiles echoOptions.settings none 0 ⟨"a.b", .brainfuck⟩ echoFiles.stdin p ∧
      p.machine.sink.bytes = encodeText ['a'] ∧
      p.machine.unread echoFiles.stdin = encodeText ['5'] := by
  refine ⟨_, @Job.Completes.intro _ _ _ _ _ _ ",." _ _ 20 _ rfl rfl rfl, ?_, ?_⟩
  · decide +kernel
  · decide +kernel

def secondEcho : Machine :=
  ⟨.abcr, ({ input := { bytes := encodeText ['5'] }, output := {} } : Queue.Machine)⟩

theorem exists_second_echo : ∃ p,
    Job.Completes echoFiles echoOptions.settings none 1 ⟨"b.abcr", .abcr⟩ (encodeText ['5']) p ∧
      p.machine.sink.bytes = encodeText ['5'] := by
  have hresult : ((Process.interpreter (echoFiles.flow 1)).runWithin {} 20 "iAo"
      { machine := secondEcho }).1 = some (.ok ⟨3, .halted⟩) := by
    decide +kernel
  refine ⟨_, @Job.Completes.intro _ _ _ _ _ _ "iAo" secondEcho _ 20 _ rfl rfl
    (Prod.ext hresult rfl), ?_⟩
  decide +kernel

/-- The programs do not write what they would write if each of them were given exactly what the ones
before it have not read. -/
theorem input_is_not_read_on :
    ¬ ∀ (surroundings : Surroundings) (arguments : List String) (o : Options) (jobs : List Job)
      (text : List Char) (fuel : Nat),
      parse arguments = .ok (.use o) → o.has .list = false → o.files ≠ [] →
        List.Forall₂ (Chosen o.language) o.files jobs →
        (∀ job ∈ jobs, job.language ≠ .myUnreliablePast) →
        surroundings.stdin = encodeText text →
        (session surroundings fuel arguments).exit = some 0 →
          ∃ outputs rest,
            CompleteInTurn surroundings o.settings o.stepLimit
              (fun _ given p => p.machine.unread given) 0 jobs surroundings.stdin outputs rest ∧
            (session surroundings fuel arguments).stdout = outputs.flatten := by
  intro h
  have hjobs : List.Forall₂ (Chosen none) echoOptions.files echoJobs := jobsOf_ok_iff.mp rfl
  obtain ⟨outputs, rest, hall, hwritten⟩ := h echoFiles ["a.b", "b.abcr"] echoOptions echoJobs
    ['a', '5'] 20 rfl rfl (by decide) hjobs (by decide) rfl echoFiles_session.1
  obtain ⟨first, hfirst, hfirstBytes, hunread⟩ := exists_first_echo
  obtain ⟨second, hsecond, hsecondBytes⟩ := exists_second_echo
  obtain _ | ⟨hfirst', hlater⟩ := hall
  obtain rfl := hfirst.unique hfirst'
  obtain _ | ⟨hsecond', hnone⟩ := hlater
  rw [hunread] at hsecond'
  obtain rfl := hsecond.unique hsecond'
  cases hnone
  rw [echoFiles_session.2, hfirstBytes, hsecondBytes] at hwritten
  exact absurd hwritten (by decide)

end Echo

end CommandLine

end Esolang
