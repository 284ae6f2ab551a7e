import Esolang.Proofs.CommandLine.Jobs

/-! Programs in turn. All files are given a language before the first one is opened; then each program
runs behind the one before it, up to the first one that fails. -/

namespace Esolang.CommandLine

variable {surroundings : Surroundings} {settings : Settings} {stepLimit : Option Nat}
  {fuel place : Nat} {job : Job} {jobs done : List Job} {stdin given rest output : List UInt8}
  {outputs : List (List UInt8)} {failure : Failure} {code : Nat} {outcome : Outcome} {p : Process}

theorem Failure.Code.ne_zero (h : failure.Code code) : code ≠ 0 := by
  cases h <;> decide

theorem Failure.Code.eq_exitCode {e : Error} (h : Failure.Code (.failed e) code) :
    code = exitCode e := by
  cases h <;> rfl

theorem CompleteInTurn.runJobs_append
    (h : CompleteInTurn surroundings settings stepLimit surroundings.leaves place done stdin outputs
      given) :
    ∃ enough, ∀ fuel, enough ≤ fuel → ∀ later earlier,
      runJobs surroundings settings { stepLimit } fuel place (done ++ later) stdin
          (({} : Sink).behind earlier) =
        runJobs surroundings settings { stepLimit } fuel (place + done.length) later given
          (({} : Sink).behind (earlier ++ outputs.flatten)) := by
  induction h with
  | nil place stdin =>
    refine ⟨0, fun fuel _ later earlier => ?_⟩
    rw [List.nil_append, List.flatten_nil, List.append_nil]
    rfl
  | @cons _ job done _ _ _ _ hjob _ ih =>
    obtain ⟨enough, henough⟩ := ih
    obtain @⟨_, _, _, fuel₀, _, hread, hnew, hrun⟩ := hjob
    refine ⟨max fuel₀ enough, fun fuel hle later earlier => ?_⟩
    have hmore := Interpreter.runWithin_mono hrun (Nat.le_trans (Nat.le_max_left _ _) hle)
    rw [List.cons_append, runJobs_completes hread hnew hmore,
      henough fuel (Nat.le_trans (Nat.le_max_right _ _) hle), place_cons _ job, List.flatten_cons,
      List.append_assoc]

theorem Job.Fails.runJobs_eq
    (h : job.Fails surroundings settings stepLimit place stdin failure output)
    (hcode : failure.Code code) :
    ∃ enough, ∀ fuel, enough ≤ fuel → ∀ later earlier,
      runJobs surroundings settings { stepLimit } fuel place (job :: later) stdin
          (({} : Sink).behind earlier) =
        failure.outcome code job.file (earlier ++ output) := by
  cases h with
  | unreadable hread =>
    cases hcode
    exact ⟨0, fun _ _ later earlier => runJobs_unreadable hread later earlier⟩
  | refused hread hnew =>
    obtain rfl := hcode.eq_exitCode
    exact ⟨0, fun _ _ later earlier => runJobs_refused hread hnew later earlier⟩
  | @stopped _ _ _ enough _ hread hnew hrun =>
    obtain rfl := hcode.eq_exitCode
    refine ⟨enough, fun fuel hle later earlier => ?_⟩
    exact runJobs_stopped hread hnew (Interpreter.runWithin_mono hrun hle) later earlier

theorem EndsWith.runJobs_eq
    (h : EndsWith surroundings settings stepLimit place jobs stdin outcome) :
    ∃ enough, ∀ fuel, enough ≤ fuel →
      runJobs surroundings settings { stepLimit } fuel place jobs stdin {} = outcome := by
  cases h with
  | completed h =>
    obtain ⟨enough, henough⟩ := h.runJobs_append
    refine ⟨enough, fun fuel hle => ?_⟩
    have hall := henough fuel hle [] []
    rw [List.append_nil, runJobs, Sink.bytes_behind] at hall
    refine hall.trans ?_
    rw [List.nil_append, show ({} : Sink).bytes = [] from rfl, List.append_nil]
  | @failed _ job _ _ _ _ _ _ later h hjob hcode =>
    obtain ⟨enough, henough⟩ := h.runJobs_append
    obtain ⟨enough', henough'⟩ := hjob.runJobs_eq hcode
    refine ⟨max enough enough', fun fuel hle => ?_⟩
    have hall := henough fuel (Nat.le_trans (Nat.le_max_left _ _) hle) (job :: later) []
    rw [henough' fuel (Nat.le_trans (Nat.le_max_right _ _) hle)] at hall
    refine hall.trans ?_
    rw [List.nil_append, List.flatten_append, List.flatten_singleton]

theorem EndsWith.unique {other : Outcome}
    (h : EndsWith surroundings settings stepLimit place jobs stdin outcome)
    (h' : EndsWith surroundings settings stepLimit place jobs stdin other) : outcome = other := by
  obtain ⟨enough, henough⟩ := h.runJobs_eq
  obtain ⟨enough', henough'⟩ := h'.runJobs_eq
  rw [← henough (max enough enough') (Nat.le_max_left _ _),
    henough' (max enough enough') (Nat.le_max_right _ _)]

theorem EndsWith.exit_eq_zero_iff
    (h : EndsWith surroundings settings stepLimit place jobs stdin outcome) :
    outcome.exit = some 0 ↔ ∃ outputs rest,
      CompleteInTurn surroundings settings stepLimit surroundings.leaves place jobs stdin outputs
        rest := by
  constructor
  · intro hexit
    cases h with
    | completed h => exact ⟨_, _, h⟩
    | failed later h hjob hcode => exact absurd (Option.some.inj hexit) hcode.ne_zero
  · rintro ⟨outputs, rest, hall⟩
    rw [h.unique (.completed hall)]

/-- A program that ends without an error stands in front of what comes of the others. -/
theorem EndsWith.cons (hjob : job.Completes surroundings settings stepLimit place stdin p)
    (h : EndsWith surroundings settings stepLimit (place + 1) jobs
      (surroundings.leaves place stdin p) outcome) :
    EndsWith surroundings settings stepLimit place (job :: jobs) stdin
      { outcome with stdout := p.machine.sink.bytes ++ outcome.stdout } := by
  cases h with
  | completed h => exact .completed (.cons hjob h)
  | @failed done _ _ _ _ _ _ _ later h hlast hcode =>
    rw [place_cons place job done] at hlast
    exact .failed later (.cons hjob h) hlast hcode

/-- By induction on the programs: whatever has an exit code has come to its end. -/
theorem endsWith_of_runJobs (place : Nat) (jobs : List Job) (stdin earlier : List UInt8)
    (hexit : (runJobs surroundings settings { stepLimit } fuel place jobs stdin
      (({} : Sink).behind earlier)).exit ≠ none) :
    ∃ outcome, EndsWith surroundings settings stepLimit place jobs stdin outcome ∧
      runJobs surroundings settings { stepLimit } fuel place jobs stdin
          (({} : Sink).behind earlier) =
        { outcome with stdout := earlier ++ outcome.stdout } := by
  have hfails : ∀ {place : Nat} {job : Job} {jobs : List Job} {stdin : List UInt8}
      {failure : Failure} {code : Nat} {output : List UInt8},
      job.Fails surroundings settings stepLimit place stdin failure output → failure.Code code →
        EndsWith surroundings settings stepLimit place (job :: jobs) stdin
          (failure.outcome code job.file output) := by
    intro place job jobs stdin failure code output hjob hcode
    have hends := EndsWith.failed jobs (.nil place stdin) hjob hcode
    simpa only [List.nil_append, List.flatten_singleton] using hends
  induction jobs generalizing place stdin earlier with
  | nil =>
    refine ⟨_, .completed (.nil place stdin), ?_⟩
    rw [runJobs, Sink.bytes_behind]
    rfl
  | cons job jobs ih =>
    rcases hread : surroundings.readText job.file with e | source
    · exact ⟨_, hfails (.unreadable hread) (.unreadable e), runJobs_unreadable hread jobs earlier⟩
    · rcases hnew : Machine.new job.language settings (surroundings.entropy.word place)
        { bytes := stdin } {} with e | m
      · exact ⟨_, hfails (.refused hread hnew) (code_of_refused hnew),
          runJobs_refused hread hnew jobs earlier⟩
      · rcases hrun : (Process.interpreter (surroundings.flow place)).runWithin { stepLimit } fuel source
          { machine := m } with ⟨_ | e | _, p⟩
        · rw [runJobs_built hread hnew, hrun] at hexit
          exact absurd rfl hexit
        · exact ⟨_, hfails (.stopped hread hnew hrun) (code_of_stopped hnew hrun),
            runJobs_stopped hread hnew hrun jobs earlier⟩
        · rw [runJobs_completes hread hnew hrun] at hexit ⊢
          obtain ⟨outcome, hends, hrest⟩ := ih _ _ _ hexit
          refine ⟨_, .cons (.intro hread hnew hrun) hends, ?_⟩
          rw [hrest, List.append_assoc]

section Sessions

variable {arguments : List String} {o : Options}

theorem session_of_parse (hparse : parse arguments = .ok (.use o)) :
    session surroundings fuel arguments = useOptions surroundings fuel o := by
  rw [session, hparse]

theorem useOptions_chosen (hlist : o.has .list = false) (hfiles : o.files ≠ [])
    (h : List.Forall₂ (Chosen o.language) o.files jobs) :
    useOptions surroundings fuel o = runJobs surroundings o.settings { stepLimit := o.stepLimit } fuel
      0 jobs surroundings.stdin {} := by
  rw [useOptions, hlist, List.isEmpty_eq_false_iff.mpr hfiles, jobsOf_ok_iff.mpr h]
  rfl

theorem endsWith_of_useOptions (hlist : o.has .list = false) (hfiles : o.files ≠ [])
    (h : List.Forall₂ (Chosen o.language) o.files jobs)
    (hexit : (useOptions surroundings fuel o).exit ≠ none) :
    EndsWith surroundings o.settings o.stepLimit 0 jobs surroundings.stdin
      (useOptions surroundings fuel o) := by
  rw [useOptions_chosen hlist hfiles h] at hexit ⊢
  obtain ⟨outcome, hends, hrun⟩ := endsWith_of_runJobs 0 jobs surroundings.stdin [] hexit
  have hsame : runJobs surroundings o.settings { stepLimit := o.stepLimit } fuel 0 jobs
      surroundings.stdin {} = outcome := hrun
  rwa [hsame]

-- Behind a program that is stopped after one step, the next one finds the character on the standard
-- input, unless the flow beside the first one has read it.
example : [0, 1].map (fun readings => (session
    { read := fun file => .ok (encodeText (if file = "a.past" then ['A', '+', '1'] else [',']))
      stdin := encodeText ['a'], entropy := 0, flow := fun _ => .prompt readings }
    2 ["--step-limit", "1", "a.past", "b.b"]).exit) = [some 0, some 4] := by
  decide +kernel

end Sessions

end Esolang.CommandLine
