import Mathlib.Data.List.Forall2
import Esolang.CommandLine.Session
import Esolang.Proofs.CommandLine.Processes

/-! The programs of one command. Each file is given a language or the first one that is given none is
named, and the programs then run one after another, each of them as it would run alone with what the
ones before it have left of the standard input. -/

namespace Esolang.CommandLine

/-- The job of a file that is given a language. -/
def Chosen (language : Option String) (file : String) (job : Job) : Prop :=
  ∃ entry, Entry.select Language.entries file language = .ok entry ∧
    job = { file, language := entry.build }

/-- Some file is given no language, and this is why the first such file is given none. -/
def Refused (language : Option String) (files : List String) (e : SelectionError) : Prop :=
  ∃ front file back, files = front ++ file :: back ∧ (∀ f ∈ front, ∃ job, Chosen language f job) ∧
    Entry.select Language.entries file language = .error e

section Selection

variable {language : Option String} {file : String} {files : List String}

theorem jobsOf_cons (language : Option String) (file : String) (files : List String) :
    jobsOf language (file :: files) =
      match Entry.select Language.entries file language, jobsOf language files with
      | .error e, _ => .error e
      | .ok _, .error e => .error e
      | .ok entry, .ok jobs => .ok ({ file, language := entry.build } :: jobs) := by
  rw [jobsOf, List.mapM_cons]
  rcases Entry.select Language.entries file language with e | entry
  · rfl
  · rw [← jobsOf]
    rcases jobsOf language files with e | jobs <;> rfl

theorem jobsOf_ok_iff {jobs : List Job} :
    jobsOf language files = .ok jobs ↔ List.Forall₂ (Chosen language) files jobs := by
  induction files generalizing jobs with
  | nil =>
    rw [List.forall₂_nil_left_iff]
    exact ⟨fun h => (Except.ok.inj h).symm, fun h => congrArg Except.ok h.symm⟩
  | cons file files ih =>
    rw [jobsOf_cons, List.forall₂_cons_left_iff]
    constructor
    · intro h
      rcases hs : Entry.select Language.entries file language with e | entry
      · rw [hs] at h
        cases h
      · rcases hj : jobsOf language files with e | others
        · rw [hs, hj] at h
          cases h
        · rw [hs, hj] at h
          exact ⟨_, others, ⟨entry, hs, rfl⟩, ih.mp hj, (Except.ok.inj h).symm⟩
    · rintro ⟨job, others, ⟨entry, hs, rfl⟩, hothers, rfl⟩
      rw [hs, ih.mpr hothers]

theorem Refused.cons {e : SelectionError} {job : Job} (hfile : Chosen language file job)
    (h : Refused language files e) : Refused language (file :: files) e := by
  obtain ⟨front, culprit, back, rfl, hfront, hculprit⟩ := h
  refine ⟨file :: front, culprit, back, rfl, fun f hf => ?_, hculprit⟩
  rcases List.mem_cons.mp hf with rfl | hf
  · exact ⟨job, hfile⟩
  · exact hfront f hf

end Selection

/-- Why a program does not end well. -/
inductive Failure where
  | unreadable (cause : ReadError)
  | failed (cause : Error)

def Failure.message : Failure → String
  | .unreadable cause => cause.message
  | .failed cause => cause.message

/-- The exit code of a failure, by its cause. -/
inductive Failure.Code : Failure → Nat → Prop where
  | config (cause : ConfigError) : Code (.failed (.config cause)) 1
  | unreadable (cause : ReadError) : Code (.unreadable cause) 2
  | source (cause : SourceError) : Code (.failed (.source cause)) 3
  | fault (cause : Fault) : Code (.failed (.fault cause)) 4
  | stream (cause : StreamError) : Code (.failed (.stream cause)) 4

/-- What a command shows that ends with a failure. -/
def Failure.outcome (failure : Failure) (code : Nat) (file : String) (stdout : List UInt8) : Outcome :=
  { exit := some code, stdout, stderr := file ++ ": " ++ failure.message ++ "\n" }

section Runs

variable (surroundings : Surroundings) (settings : Settings) (stepLimit : Option Nat)

/-- The program runs alone between a standard input and an empty output, with the flow of its place
beside it, and ends without an error, also where the step limit stops it. -/
inductive Job.Completes (place : Nat) (job : Job) (stdin : List UInt8) : Process → Prop where
  | intro {source : String} {m : Machine} {p : Process} {fuel : Nat} {summary : Summary}
    (hread : surroundings.readText job.file = .ok source)
    (hnew : Machine.new job.language settings (surroundings.entropy.word place) { bytes := stdin } {} =
      .ok m)
    (hrun : (Process.interpreter (surroundings.flow place)).runWithin { stepLimit } fuel source
      { machine := m } = (some (.ok summary), p)) :
    Completes place job stdin p

/-- The program fails, and this is what it has written by then. -/
inductive Job.Fails (place : Nat) (job : Job) (stdin : List UInt8) :
    Failure → List UInt8 → Prop where
  | unreadable {e : ReadError} (hread : surroundings.readText job.file = .error e) :
    Fails place job stdin (.unreadable e) []
  | refused {source : String} {e : Error} (hread : surroundings.readText job.file = .ok source)
    (hnew : Machine.new job.language settings (surroundings.entropy.word place) { bytes := stdin } {} =
      .error e) :
    Fails place job stdin (.failed e) []
  | stopped {source : String} {m : Machine} {p : Process} {fuel : Nat} {e : Error}
    (hread : surroundings.readText job.file = .ok source)
    (hnew : Machine.new job.language settings (surroundings.entropy.word place) { bytes := stdin } {} =
      .ok m)
    (hrun : (Process.interpreter (surroundings.flow place)).runWithin { stepLimit } fuel source
      { machine := m } = (some (.error e), p)) :
    Fails place job stdin (.failed e) p.machine.sink.bytes

/-- The programs run one after another, the first of them at the given place, and all end without an
error. What each one writes is told, and what the last one leaves of the standard input; how the program
behind a place is handed what the one at the place leaves is up to `handOver`. -/
inductive CompleteInTurn (handOver : Nat → List UInt8 → Process → List UInt8) :
    Nat → List Job → List UInt8 → List (List UInt8) → List UInt8 → Prop where
  | nil (place : Nat) (stdin : List UInt8) : CompleteInTurn handOver place [] stdin [] stdin
  | cons {place : Nat} {job : Job} {jobs : List Job} {stdin rest : List UInt8} {p : Process}
    {outputs : List (List UInt8)} (h : job.Completes surroundings settings stepLimit place stdin p)
    (later : CompleteInTurn handOver (place + 1) jobs (handOver place stdin p) outputs rest) :
    CompleteInTurn handOver place (job :: jobs) stdin (p.machine.sink.bytes :: outputs) rest

/-- The next program is given what the one at a place, or the flow beside it, leaves. -/
def Surroundings.leaves (place : Nat) (stdin : List UInt8) (p : Process) : List UInt8 :=
  p.leaves (surroundings.flow place) stdin

/-- How programs end of which the first one is at the given place: all of them without an error, or with
the first one that fails, behind which it does not matter which programs were to follow. -/
inductive EndsWith (place : Nat) : List Job → List UInt8 → Outcome → Prop where
  | completed {jobs : List Job} {stdin rest : List UInt8} {outputs : List (List UInt8)}
    (h : CompleteInTurn surroundings settings stepLimit surroundings.leaves place jobs stdin outputs
      rest) :
    EndsWith place jobs stdin { exit := some 0, stdout := outputs.flatten }
  | failed {done : List Job} {job : Job} {stdin given output : List UInt8}
    {outputs : List (List UInt8)} {failure : Failure} {code : Nat} (later : List Job)
    (h : CompleteInTurn surroundings settings stepLimit surroundings.leaves place done stdin outputs
      given)
    (hjob : job.Fails surroundings settings stepLimit (place + done.length) given failure output)
    (hcode : failure.Code code) :
    EndsWith place (done ++ job :: later) stdin
      (failure.outcome code job.file (outputs ++ [output]).flatten)

end Runs

section Steps

variable {surroundings : Surroundings} {settings : Settings} {stepLimit : Option Nat}
  {fuel place : Nat} {job : Job} {stdin earlier : List UInt8} {source : String} {flow : Flow}
  {m : Machine} {p : Process}

/-- The place behind so many programs of which the first one is told apart. -/
theorem place_cons (place : Nat) (job : Job) (jobs : List Job) :
    place + 1 + jobs.length = place + (job :: jobs).length := by
  rw [List.length_cons, Nat.add_assoc, Nat.add_comm 1]

theorem runWithin_behind (flow : Flow) (fuel : Nat) (source : String) (m : Machine) :
    (Process.interpreter flow).runWithin { stepLimit } fuel source { machine := m.behind earlier } =
      (((Process.interpreter flow).runWithin { stepLimit } fuel source { machine := m }).1,
        ((Process.interpreter flow).runWithin { stepLimit } fuel source { machine := m }).2.behind
          earlier) := by
  have htame : (Process.interpreter flow).Tame (Process.Serves m.language []) Error.Running
      (Process.behind earlier) := Process.interpreter_tame
  exact htame.runWithin_overlooks (fun _ => rfl) fuel source { machine := m }

theorem yields_of_runWithin {entropy : UInt64} {result : Except Error Summary}
    (hnew : Machine.new job.language settings entropy { bytes := stdin } {} = .ok m)
    (hrun : (Process.interpreter flow).runWithin { stepLimit } fuel source { machine := m } =
      (some result, p)) :
    Call.Yields (Process.Serves job.language stdin) Error.Running (result, p) := by
  have htame : (Process.interpreter flow).Tame (Process.Serves job.language stdin) Error.Running
      (Process.behind []) := Process.interpreter_tame
  exact htame.runWithin_yields (Machine.serves_new hnew) hrun

theorem Job.Completes.serves (h : job.Completes surroundings settings stepLimit place stdin p) :
    p.Serves job.language stdin := by
  obtain ⟨-, hnew, hrun⟩ := h
  exact yields_of_runWithin hnew hrun

/-- Only a run that has not begun fails with a setting, and none with a choice of language. -/
theorem code_of_stopped {entropy : UInt64} {e : Error}
    (hnew : Machine.new job.language settings entropy { bytes := stdin } {} = .ok m)
    (hrun : (Process.interpreter flow).runWithin { stepLimit } fuel source { machine := m } =
      (some (.error e), p)) :
    Failure.Code (.failed e) (exitCode e) := by
  have hrunning : e.Running := yields_of_runWithin hnew hrun
  cases hrunning with
  | source cause => exact .source cause
  | fault cause => exact .fault cause
  | stream cause => exact .stream cause

theorem code_of_refused {entropy : UInt64} {e : Error}
    (hnew : Machine.new job.language settings entropy { bytes := stdin } {} = .error e) :
    Failure.Code (.failed e) (exitCode e) := by
  obtain ⟨cause, rfl⟩ := Machine.new_error hnew
  exact .config cause

theorem runJobs_unreadable {e : ReadError} (hread : surroundings.readText job.file = .error e)
    (jobs : List Job) (earlier : List UInt8) :
    runJobs surroundings settings { stepLimit } fuel place (job :: jobs) stdin
        (({} : Sink).behind earlier) =
      (Failure.unreadable e).outcome 2 job.file (earlier ++ []) := by
  rw [runJobs, hread]
  dsimp only [Outcome.failure]
  rw [Sink.bytes_behind]
  rfl

theorem runJobs_refused {e : Error} (hread : surroundings.readText job.file = .ok source)
    (hnew : Machine.new job.language settings (surroundings.entropy.word place) { bytes := stdin } {} =
      .error e)
    (jobs : List Job) (earlier : List UInt8) :
    runJobs surroundings settings { stepLimit } fuel place (job :: jobs) stdin
        (({} : Sink).behind earlier) =
      (Failure.failed e).outcome (exitCode e) job.file (earlier ++ []) := by
  rw [runJobs, hread]
  dsimp only
  rw [Machine.new_behind, hnew]
  dsimp only [Except.map, Outcome.failure]
  rw [Sink.bytes_behind]
  rfl

/-- What comes of a program that is built, told by a run of it that has the output to itself. -/
theorem runJobs_built (hread : surroundings.readText job.file = .ok source)
    (hnew : Machine.new job.language settings (surroundings.entropy.word place) { bytes := stdin } {} =
      .ok m)
    (jobs : List Job) (earlier : List UInt8) :
    runJobs surroundings settings { stepLimit } fuel place (job :: jobs) stdin
        (({} : Sink).behind earlier) =
      match (Process.interpreter (surroundings.flow place)).runWithin { stepLimit } fuel source
        { machine := m } with
      | (none, p) => { exit := none, stdout := earlier ++ p.machine.sink.bytes }
      | (some (.error e), p) =>
        (Failure.failed e).outcome (exitCode e) job.file (earlier ++ p.machine.sink.bytes)
      | (some (.ok _), p) =>
        runJobs surroundings settings { stepLimit } fuel (place + 1) jobs
          (surroundings.leaves place stdin p) (p.machine.sink.behind earlier) := by
  have hsink : ∀ p : Process, (p.behind earlier).machine.sink = p.machine.sink.behind earlier :=
    fun p => p.machine.sink_behind
  rw [runJobs, hread]
  dsimp only
  rw [Machine.new_behind, hnew]
  dsimp only [Except.map]
  rw [runWithin_behind]
  rcases (Process.interpreter (surroundings.flow place)).runWithin { stepLimit } fuel source
    { machine := m } with ⟨_ | e | _, p⟩
  · dsimp only
    rw [hsink, Sink.bytes_behind]
  · dsimp only [Outcome.failure]
    rw [hsink, Sink.bytes_behind]
    rfl
  · dsimp only
    rw [Process.leaves_behind, hsink, Surroundings.leaves]

theorem runJobs_stopped {e : Error} (hread : surroundings.readText job.file = .ok source)
    (hnew : Machine.new job.language settings (surroundings.entropy.word place) { bytes := stdin } {} =
      .ok m)
    (hrun : (Process.interpreter (surroundings.flow place)).runWithin { stepLimit } fuel source
      { machine := m } = (some (.error e), p))
    (jobs : List Job) (earlier : List UInt8) :
    runJobs surroundings settings { stepLimit } fuel place (job :: jobs) stdin
        (({} : Sink).behind earlier) =
      (Failure.failed e).outcome (exitCode e) job.file (earlier ++ p.machine.sink.bytes) := by
  rw [runJobs_built hread hnew, hrun]

theorem runJobs_completes {summary : Summary} (hread : surroundings.readText job.file = .ok source)
    (hnew : Machine.new job.language settings (surroundings.entropy.word place) { bytes := stdin } {} =
      .ok m)
    (hrun : (Process.interpreter (surroundings.flow place)).runWithin { stepLimit } fuel source
      { machine := m } = (some (.ok summary), p))
    (jobs : List Job) (earlier : List UInt8) :
    runJobs surroundings settings { stepLimit } fuel place (job :: jobs) stdin
        (({} : Sink).behind earlier) =
      runJobs surroundings settings { stepLimit } fuel (place + 1) jobs
        (surroundings.leaves place stdin p)
        (({} : Sink).behind (earlier ++ p.machine.sink.bytes)) := by
  have hserves : p.Serves job.language stdin := yields_of_runWithin hnew hrun
  have hopen : p.machine.sink.Unbounded := hserves.2.unbounded
  rw [runJobs_built hread hnew, hrun, ← hopen.behind_eq]

end Steps

end Esolang.CommandLine
