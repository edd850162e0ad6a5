import DolRecomp.Threads
import Mathlib.Data.List.Perm.Basic
import Mathlib.Data.List.Range
import Mathlib.Data.List.Count

/-!
# The parallel job runner

`run_parallel_jobs` starts workers that draw jobs from a counter under a lock. A worker that
fails, or a thread that cannot be started, sets a flag that stops the others.
-/

namespace DolRecomp

namespace ParallelJobs

open Threads

/-- Where `chunk_worker_main` is. -/
inductive Worker
  | taking | running (job : ℕ) | marking | done
  deriving DecidableEq

/-- Where `run_parallel_jobs` is. -/
inductive Main
  | start | sequential | creating | marking | joining (thread : ℕ) | returned (ok : Bool)
  deriving DecidableEq

/-- The queue and the caller. The last three fields are history: the jobs that were drawn, what
the function returned for them, and whether a queue or a thread could not be created. -/
structure Shared where
  nextJob : ℕ := 0
  failed : Bool := false
  main : Main := .start
  given : List ℕ := []
  results : List (ℕ × Bool) := []
  uncreated : Bool := false

variable (jobCount requestedJobs : ℕ) (windows : Bool)

/-- The number of workers that `run_parallel_jobs` asks for. -/
def requested : ℕ :=
  let requested := if requestedJobs = 0 then 1 else requestedJobs
  let requested := if requested > jobCount then jobCount else requested
  if windows && requested > 64 then 64 else requested

/-- `queue_take_job`, under the lock. -/
def queueTakeJob (s : Shared) : Option (ℕ × Shared) :=
  if !s.failed ∧ s.nextJob < jobCount then
    some (s.nextJob,
      { s with nextJob := s.nextJob + 1, given := s.given ++ [s.nextJob] })
  else none

/-- `queue_mark_failed`, under the lock. -/
def queueMarkFailed (s : Shared) : Shared := { s with failed := true }

def Shared.ran (s : Shared) (job : ℕ) (ok : Bool) : Shared :=
  { s with results := s.results ++ [(job,ok)] }

/-- One action of `chunk_worker_main`. -/
inductive WorkerStep (s : Shared) : Worker → Shared → Worker → Prop
  | take {job : ℕ} {s' : Shared} (h : queueTakeJob jobCount s = some (job,s')) :
      WorkerStep s .taking s' (.running job)
  | stop (h : queueTakeJob jobCount s = none) : WorkerStep s .taking s .done
  | succeed (job : ℕ) : WorkerStep s (.running job) (s.ran job true) .taking
  | fail (job : ℕ) : WorkerStep s (.running job) (s.ran job false) .marking
  | mark : WorkerStep s .marking (queueMarkFailed s) .done

/-- One action of `run_parallel_jobs` itself. -/
inductive MainStep (c : Config Shared Worker) : Shared → Prop
  | empty (h : c.shared.main = .start) (hn : jobCount = 0) :
      MainStep c { c.shared with main := .returned true }
  | alone (h : c.shared.main = .start) (hn : jobCount ≠ 0)
      (hr : requested jobCount requestedJobs windows = 1) :
      MainStep c { c.shared with main := .sequential }
  | init (h : c.shared.main = .start) (hn : jobCount ≠ 0)
      (hr : requested jobCount requestedJobs windows ≠ 1) :
      MainStep c { c.shared with main := .creating }
  | initFails (h : c.shared.main = .start) (hn : jobCount ≠ 0)
      (hr : requested jobCount requestedJobs windows ≠ 1) :
      MainStep c { c.shared with main := .returned false, uncreated := true }
  | next (h : c.shared.main = .sequential) (hn : c.shared.nextJob < jobCount) :
      MainStep c
        { c.shared.ran c.shared.nextJob true with
          nextJob := c.shared.nextJob + 1, given := c.shared.given ++ [c.shared.nextJob] }
  | nextFails (h : c.shared.main = .sequential) (hn : c.shared.nextJob < jobCount) :
      MainStep c
        { c.shared.ran c.shared.nextJob false with
          nextJob := c.shared.nextJob + 1, given := c.shared.given ++ [c.shared.nextJob]
          main := .returned false }
  | finish (h : c.shared.main = .sequential) (hn : jobCount ≤ c.shared.nextJob) :
      MainStep c { c.shared with main := .returned true }
  | createFails (h : c.shared.main = .creating)
      (hn : c.ops.length < requested jobCount requestedJobs windows) :
      MainStep c { c.shared with main := .marking, uncreated := true }
  | mark (h : c.shared.main = .marking) :
      MainStep c { queueMarkFailed c.shared with main := .joining 0 }
  | created (h : c.shared.main = .creating)
      (hn : c.ops.length = requested jobCount requestedJobs windows) :
      MainStep c { c.shared with main := .joining 0 }
  | join {thread : ℕ} (h : c.shared.main = .joining thread) (hd : c.ops[thread]? = some .done) :
      MainStep c { c.shared with main := .joining (thread + 1) }
  | result (h : c.shared.main = .joining c.ops.length) :
      MainStep c { c.shared with main := .returned !c.shared.failed }

/-- Any interleaving of the caller and its workers. -/
def system : System Shared Worker where
  act c := WorkerStep jobCount c.shared
  env := MainStep jobCount requestedJobs windows
  new c worker := c.shared.main = .creating ∧
    c.ops.length < requested jobCount requestedJobs windows ∧ worker = .taking

def initial : Config Shared Worker := ⟨{},[]⟩

def Worker.runs (job : ℕ) (worker : Worker) : Bool := worker == .running job

def executions (job : ℕ) (c : Config Shared Worker) : ℕ :=
  c.shared.results.countP (fun result => result.1 == job) + c.ops.countP (Worker.runs job)

/-- The caller starts workers only while it creates them, and waits for each. -/
def MainOk (c : Config Shared Worker) : Prop :=
  match c.shared.main with
  | .start | .sequential => c.ops = [] ∧ c.shared.failed = false
  | .creating => requested jobCount requestedJobs windows ≠ 1 ∧ jobCount ≠ 0
  | .marking => c.shared.uncreated = true
  | .joining thread => (c.shared.failed = true ∨ c.ops ≠ []) ∧ thread ≤ c.ops.length ∧
      ∀ k < thread, c.ops[k]? = some .done
  | .returned true => jobCount ≤ c.shared.nextJob ∧ c.shared.failed = false ∧
      ∀ worker ∈ c.ops, worker = .done
  | .returned false => (∃ job, (job,false) ∈ c.shared.results) ∨ c.shared.uncreated = true

structure Invariant (c : Config Shared Worker) : Prop where
  given : c.shared.given = List.range c.shared.nextJob
  bound : c.shared.nextJob ≤ jobCount
  once : ∀ job, executions job c = if job < c.shared.nextJob then 1 else 0
  failure : ∀ job, (job,false) ∈ c.shared.results → c.shared.failed = true ∨ .marking ∈ c.ops ∨
    c.shared.main = .returned false
  reason : c.shared.failed = true →
    (∃ job, (job,false) ∈ c.shared.results) ∨ c.shared.uncreated = true
  marks : .marking ∈ c.ops → ∃ job, (job,false) ∈ c.shared.results
  stopped : .done ∈ c.ops → c.shared.failed = true ∨ jobCount ≤ c.shared.nextJob
  main : MainOk jobCount requestedJobs windows c

section

variable {jobCount requestedJobs : ℕ} {windows : Bool} {c : Config Shared Worker}

theorem requested_pos (requestedJobs : ℕ) (windows : Bool) (h : jobCount ≠ 0) :
    0 < requested jobCount requestedJobs windows := by
  unfold requested
  dsimp only
  split <;> split <;> split <;> omega

theorem queueTakeJob_some {s s' : Shared} {job : ℕ} (h : queueTakeJob jobCount s = some (job,s')) :
    s.failed = false ∧ s.nextJob < jobCount ∧ job = s.nextJob ∧
      s' = { s with nextJob := s.nextJob + 1, given := s.given ++ [s.nextJob] } := by
  unfold queueTakeJob at h
  split at h
  next hc =>
    cases h
    exact ⟨by simpa using hc.1,hc.2,rfl,rfl⟩
  next => cases h

theorem queueTakeJob_none {s : Shared} (h : queueTakeJob jobCount s = none) :
    s.failed = true ∨ jobCount ≤ s.nextJob := by
  unfold queueTakeJob at h
  split at h
  next => cases h
  next hc =>
    rcases hf : s.failed with _ | _
    · right
      rw [hf] at hc
      simpa using hc
    · exact .inl rfl

theorem invariant_initial : Invariant jobCount requestedJobs windows initial where
  given := rfl
  bound := Nat.zero_le _
  once _ := rfl
  failure _ h := by cases h
  reason h := by cases h
  marks h := by cases h
  stopped h := by cases h
  main := ⟨rfl,rfl⟩

theorem mem_set_iff {ops : List Worker} {k : ℕ} {t t' u : Worker} (hk : ops[k]? = some t)
    (hu : u ≠ t) (hu' : u ≠ t') : u ∈ ops.set k t' ↔ u ∈ ops := by
  constructor
  · intro h
    rcases mem_set_cases h with h | h
    · exact h
    · exact absurd h hu'
  · intro h
    obtain ⟨j,hj⟩ := List.mem_iff_getElem?.mp h
    have hne : j ≠ k := by
      rintro rfl
      rw [hk] at hj
      exact hu (Option.some.inj hj).symm
    exact List.mem_of_getElem? ((get_set_ne hne).trans hj)

theorem mem_set_self {ops : List Worker} {k : ℕ} {t t' : Worker} (hk : ops[k]? = some t) :
    t' ∈ ops.set k t' := List.mem_of_getElem? (get_set_self hk)

/-- No worker moves once the caller has returned true. -/
theorem returned_worker (hi : Invariant jobCount requestedJobs windows c)
    {worker : Worker} (h : worker ∈ c.ops) (hne : worker ≠ .done) :
    c.shared.main ≠ .start ∧ c.shared.main ≠ .sequential ∧ c.shared.main ≠ .returned true := by
  have hm := hi.main
  refine ⟨fun he => ?_,fun he => ?_,fun he => ?_⟩
  all_goals rw [MainOk,he] at hm
  · rw [hm.1] at h
    cases h
  · rw [hm.1] at h
    cases h
  · exact hne (hm.2.2 _ h)

theorem mainOk_worker (hi : Invariant jobCount requestedJobs windows c) {k : ℕ}
    {t t' : Worker} {s' : Shared} (hk : c.ops[k]? = some t) (ht : t ≠ .done)
    (hmain : s'.main = c.shared.main) (hfailed : c.shared.failed = true → s'.failed = true)
    (hresults : c.shared.results ⊆ s'.results) (huncreated : s'.uncreated = c.shared.uncreated) :
    MainOk jobCount requestedJobs windows ⟨s',c.ops.set k t'⟩ := by
  have hm := hi.main
  obtain ⟨hstart,hseq,htrue⟩ := returned_worker hi (mem_of_get hk) ht
  unfold MainOk at hm ⊢
  dsimp only
  rw [hmain]
  cases hmc : c.shared.main with
  | start => exact absurd hmc hstart
  | sequential => exact absurd hmc hseq
  | creating =>
    rw [hmc] at hm
    exact hm
  | marking =>
    rw [hmc] at hm
    exact huncreated.trans hm
  | joining thread =>
    rw [hmc] at hm
    obtain ⟨hne,hle,hdone⟩ := hm
    refine ⟨?_,by rw [List.length_set]; exact hle,fun j hj => ?_⟩
    · rcases hne with hf | hne
      · exact .inl (hfailed hf)
      · right
        rw [ne_eq,List.set_eq_nil_iff]
        exact hne
    · have hjk : j ≠ k := by
        rintro rfl
        rw [hdone j hj] at hk
        exact ht (Option.some.inj hk).symm
      rw [get_set_ne hjk]
      exact hdone j hj
  | returned ok =>
    cases ok with
    | true => exact absurd hmc htrue
    | false =>
      rw [hmc] at hm
      rcases hm with ⟨job,hj⟩ | hu
      · exact .inl ⟨job,hresults hj⟩
      · exact .inr (huncreated.trans hu)

theorem executions_ran {s : Shared} {ops : List Worker} {k job : ℕ} {t' : Worker} {ok : Bool}
    (hk : ops[k]? = some (.running job)) (ht : ∀ j, Worker.runs j t' = false) (j : ℕ) :
    executions j ⟨s.ran job ok,ops.set k t'⟩ = executions j ⟨s,ops⟩ := by
  have hadd := countP_set_add (Worker.runs j) t' hk
  simp only [ht,Bool.false_eq_true,if_false,Nat.add_zero] at hadd
  have hruns : Worker.runs j (.running job) = (job == j) := by
    simp [Worker.runs]
  rw [hruns] at hadd
  simp only [executions,Shared.ran,List.countP_append,List.countP_cons,List.countP_nil]
  omega

/-- A worker that runs no job before or after is not counted. -/
theorem executions_idle {s : Shared} {ops : List Worker} {k : ℕ} {t t' : Worker}
    (hk : ops[k]? = some t) (ht : ∀ j, Worker.runs j t = false)
    (ht' : ∀ j, Worker.runs j t' = false) (j : ℕ) :
    executions j ⟨s,ops.set k t'⟩ = executions j ⟨s,ops⟩ := by
  have hadd := countP_set_add (Worker.runs j) t' hk
  simp only [ht,ht',Bool.false_eq_true,if_false,Nat.add_zero] at hadd
  exact congrArg (s.results.countP (fun result => result.1 == j) + ·) hadd

/-- A job that is drawn was not drawn before. -/
theorem once_next {n n' job next : ℕ} (hn : n = if job < next then 1 else 0)
    (hadd : n' = n + if next = job then 1 else 0) : n' = if job < next + 1 then 1 else 0 := by
  split_ifs at * <;> omega

theorem given_next (hi : Invariant jobCount requestedJobs windows c) :
    c.shared.given ++ [c.shared.nextJob] = List.range (c.shared.nextJob + 1) := by
  rw [List.range_succ,hi.given]

theorem executions_take (hi : Invariant jobCount requestedJobs windows c) {k : ℕ}
    (hk : c.ops[k]? = some .taking) {s : Shared} (hs : s.results = c.shared.results) (job : ℕ) :
    executions job ⟨s,c.ops.set k (.running c.shared.nextJob)⟩ =
      if job < c.shared.nextJob + 1 then 1 else 0 := by
  refine once_next (hi.once job) ?_
  have hadd := countP_set_add (Worker.runs job) (.running c.shared.nextJob) hk
  have hruns : Worker.runs job (.running c.shared.nextJob) = (c.shared.nextJob == job) := by
    simp [Worker.runs]
  have htaking : Worker.runs job .taking = false := rfl
  rw [hruns,htaking] at hadd
  simp only [beq_iff_eq,Bool.false_eq_true,if_false,Nat.add_zero] at hadd
  simp only [executions,hs,hadd,Nat.add_assoc]

/-- A job that the caller runs itself is drawn and run in one step. -/
theorem executions_next (hi : Invariant jobCount requestedJobs windows c) (hops : c.ops = [])
    {s : Shared} {ok : Bool} (hs : s.results = (c.shared.ran c.shared.nextJob ok).results)
    (job : ℕ) : executions job ⟨s,c.ops⟩ = if job < c.shared.nextJob + 1 then 1 else 0 := by
  refine once_next (hi.once job) ?_
  simp only [executions,hs,Shared.ran,List.countP_append,List.countP_cons,List.countP_nil,hops,
    beq_iff_eq]
  omega

theorem failed_ran {s : Shared} {job j : ℕ} (h : (j,false) ∈ (s.ran job true).results) :
    (j,false) ∈ s.results := by
  simpa [Shared.ran] using h

theorem mem_ran (s : Shared) (job : ℕ) (ok : Bool) : (job,ok) ∈ (s.ran job ok).results :=
  List.mem_append_right _ (List.mem_singleton_self _)

/-- What a worker does keeps the invariant. -/
theorem invariant_worker (hi : Invariant jobCount requestedJobs windows c) {k : ℕ}
    {t t' : Worker} {s' : Shared} (hk : c.ops[k]? = some t)
    (h : WorkerStep jobCount c.shared t s' t') :
    Invariant jobCount requestedJobs windows ⟨s',c.ops.set k t'⟩ := by
  cases h with
  | @take job s' h =>
    obtain ⟨hf,hlt,rfl,rfl⟩ := queueTakeJob_some h
    have hmark : Worker.marking ∈ c.ops.set k (.running c.shared.nextJob) ↔ .marking ∈ c.ops :=
      mem_set_iff hk (by decide) (by simp)
    have hdone : Worker.done ∈ c.ops.set k (.running c.shared.nextJob) ↔ .done ∈ c.ops :=
      mem_set_iff hk (by decide) (by simp)
    exact
      { given := given_next hi
        bound := hlt
        once := executions_take hi hk rfl
        failure := fun job hj => (hi.failure job hj).imp_right (.imp_left hmark.mpr)
        reason := hi.reason
        marks := fun hm => hi.marks (hmark.mp hm)
        stopped := fun hd => (hi.stopped (hdone.mp hd)).imp_right fun hle =>
          absurd hlt (Nat.not_lt.mpr hle)
        main := mainOk_worker hi hk (by decide) rfl id (List.Subset.refl _) rfl }
  | stop h =>
    have hmark : Worker.marking ∈ c.ops.set k .done ↔ .marking ∈ c.ops :=
      mem_set_iff hk (by decide) (by decide)
    exact
      { given := hi.given
        bound := hi.bound
        once := fun job => (executions_idle hk (fun _ => rfl) (fun _ => rfl) job).trans (hi.once job)
        failure := fun job hj => (hi.failure job hj).imp_right (.imp_left hmark.mpr)
        reason := hi.reason
        marks := fun hm => hi.marks (hmark.mp hm)
        stopped := fun _ => queueTakeJob_none h
        main := mainOk_worker hi hk (by decide) rfl id (List.Subset.refl _) rfl }
  | succeed job =>
    have hmark : Worker.marking ∈ c.ops.set k .taking ↔ .marking ∈ c.ops :=
      mem_set_iff hk (by simp) (by decide)
    have hdone : Worker.done ∈ c.ops.set k .taking ↔ .done ∈ c.ops :=
      mem_set_iff hk (by simp) (by decide)
    have hsub : c.shared.results ⊆ (c.shared.ran job true).results :=
      List.subset_append_left _ _
    exact
      { given := hi.given
        bound := hi.bound
        once := fun j => (executions_ran hk (fun _ => rfl) j).trans (hi.once j)
        failure := fun j hj => (hi.failure j (failed_ran hj)).imp_right (.imp_left hmark.mpr)
        reason := fun hf => (hi.reason hf).imp_left fun ⟨j,hj⟩ => ⟨j,hsub hj⟩
        marks := fun hm => (hi.marks (hmark.mp hm)).imp fun j hj => hsub hj
        stopped := fun hd => hi.stopped (hdone.mp hd)
        main := mainOk_worker hi hk (by simp) rfl id hsub rfl }
  | fail job =>
    have hdone : Worker.done ∈ c.ops.set k .marking ↔ .done ∈ c.ops :=
      mem_set_iff hk (by simp) (by decide)
    have hsub : c.shared.results ⊆ (c.shared.ran job false).results :=
      List.subset_append_left _ _
    exact
      { given := hi.given
        bound := hi.bound
        once := fun j => (executions_ran hk (fun _ => rfl) j).trans (hi.once j)
        failure := fun j hj => .inr (.inl (mem_set_self hk))
        reason := fun hf => .inl ⟨job,mem_ran _ _ _⟩
        marks := fun _ => ⟨job,mem_ran _ _ _⟩
        stopped := fun hd => hi.stopped (hdone.mp hd)
        main := mainOk_worker hi hk (by simp) rfl id hsub rfl }
  | mark =>
    exact
      { given := hi.given
        bound := hi.bound
        once := fun job => (executions_idle hk (fun _ => rfl) (fun _ => rfl) job).trans (hi.once job)
        failure := fun _ _ => .inl rfl
        reason := fun _ => .inl (hi.marks (mem_of_get hk))
        marks := fun _ => hi.marks (mem_of_get hk)
        stopped := fun _ => .inl rfl
        main := mainOk_worker hi hk (by decide) rfl (fun _ => rfl) (List.Subset.refl _) rfl }

/-- A failure that is not returned yet is known to the workers, whatever the caller does next. -/
theorem failure_main (hi : Invariant jobCount requestedJobs windows c) {p : Main}
    (h : c.shared.main ≠ .returned false) :
    ∀ job, (job,false) ∈ c.shared.results → c.shared.failed = true ∨ .marking ∈ c.ops ∨
      p = .returned false :=
  fun job hj => (hi.failure job hj).imp_right (.imp_right fun he => absurd he h)

/-- Every worker is done when the last one is joined. -/
theorem joined_all (h : MainOk jobCount requestedJobs windows c)
    (hm : c.shared.main = .joining c.ops.length) : ∀ worker ∈ c.ops, worker = .done := by
  rw [MainOk,hm] at h
  intro worker hw
  obtain ⟨k,hk⟩ := List.mem_iff_getElem?.mp hw
  rw [h.2.2 k (List.getElem?_eq_some_iff.mp hk).1] at hk
  exact (Option.some.inj hk).symm

theorem joined_count (hi : Invariant jobCount requestedJobs windows c)
    (hm : c.shared.main = .joining c.ops.length) (hf : c.shared.failed = false) :
    jobCount ≤ c.shared.nextJob := by
  have hmain := hi.main
  rw [MainOk,hm] at hmain
  have hne : c.ops ≠ [] := hmain.1.resolve_left (by rw [hf]; exact Bool.false_ne_true)
  obtain ⟨worker,hw⟩ := List.exists_mem_of_ne_nil _ hne
  have hdone : Worker.done ∈ c.ops := joined_all hi.main hm worker hw ▸ hw
  exact (hi.stopped hdone).resolve_left (by rw [hf]; exact Bool.false_ne_true)

/-- What the caller does keeps the invariant. -/
theorem invariant_main (hi : Invariant jobCount requestedJobs windows c) {s' : Shared}
    (h : MainStep jobCount requestedJobs windows c s') :
    Invariant jobCount requestedJobs windows ⟨s',c.ops⟩ := by
  have hm := hi.main
  cases h with
  | empty h hn =>
    rw [MainOk,h] at hm
    exact
      { hi with
        failure := failure_main hi (by simp [h])
        main := ⟨by rw [hn]; exact Nat.zero_le _,hm.2,by rw [hm.1]; simp⟩ }
  | alone h hn hr =>
    rw [MainOk,h] at hm
    exact
      { hi with
        failure := failure_main hi (by simp [h])
        main := hm }
  | init h hn hr =>
    exact
      { hi with
        failure := failure_main hi (by simp [h])
        main := ⟨hr,hn⟩ }
  | initFails h hn hr =>
    exact
      { hi with
        failure := fun _ _ => .inr (.inr rfl)
        reason := fun _ => .inr rfl
        main := .inr rfl }
  | next h hn =>
    rw [MainOk,h] at hm
    exact
      { given := given_next hi
        bound := hn
        once := executions_next hi hm.1 rfl
        failure := fun j hj => hi.failure j (failed_ran hj)
        reason := fun hf => absurd (hm.2.symm.trans hf) Bool.false_ne_true
        marks := fun hmem => by
          rw [hm.1] at hmem
          cases hmem
        stopped := fun hd => by
          rw [hm.1] at hd
          cases hd
        main := by
          unfold MainOk
          dsimp only [Shared.ran]
          rw [h]
          exact hm }
  | nextFails h hn =>
    rw [MainOk,h] at hm
    have hmem := mem_ran c.shared c.shared.nextJob false
    exact
      { given := given_next hi
        bound := hn
        once := executions_next hi hm.1 rfl
        failure := fun _ _ => .inr (.inr rfl)
        reason := fun _ => .inl ⟨_,hmem⟩
        marks := fun _ => ⟨_,hmem⟩
        stopped := fun hd => by
          rw [hm.1] at hd
          cases hd
        main := .inl ⟨_,hmem⟩ }
  | finish h hn =>
    rw [MainOk,h] at hm
    exact
      { hi with
        failure := failure_main hi (by simp [h])
        main := ⟨hn,hm.2,by rw [hm.1]; simp⟩ }
  | createFails h hn =>
    exact
      { hi with
        failure := failure_main hi (by simp [h])
        reason := fun _ => .inr rfl
        main := rfl }
  | mark h =>
    rw [MainOk,h] at hm
    exact
      { hi with
        failure := fun _ _ => .inl rfl
        reason := fun _ => .inr hm
        stopped := fun _ => .inl rfl
        main := ⟨.inl rfl,Nat.zero_le _,fun k hk => absurd hk (Nat.not_lt_zero k)⟩ }
  | created h hn =>
    rw [MainOk,h] at hm
    have hne : c.ops ≠ [] := by
      intro he
      rw [he] at hn
      have h0 : requested jobCount requestedJobs windows = 0 := hn.symm
      have := requested_pos requestedJobs windows hm.2
      omega
    exact
      { hi with
        failure := failure_main hi (by simp [h])
        main := ⟨.inr hne,Nat.zero_le _,fun k hk => absurd hk (Nat.not_lt_zero k)⟩ }
  | @join thread h hd =>
    rw [MainOk,h] at hm
    have hlt := (List.getElem?_eq_some_iff.mp hd).1
    exact
      { hi with
        failure := failure_main hi (by simp [h])
        main := ⟨hm.1,hlt,fun k hk => by
          rcases Nat.lt_succ_iff_lt_or_eq.mp hk with hk | rfl
          · exact hm.2.2 k hk
          · exact hd⟩ }
  | result h =>
    have hall := joined_all hm h
    have hcount := joined_count hi h
    cases hf : c.shared.failed with
    | true =>
      exact
        { hi with
          failure := fun _ _ => .inr (.inr rfl)
          main := hi.reason hf }
    | false =>
      exact
        { hi with
          failure := failure_main hi (by simp [h])
          main := ⟨hcount hf,hf,hall⟩ }

theorem invariant_step {c' : Config Shared Worker}
    (hi : Invariant jobCount requestedJobs windows c)
    (h : Step (system jobCount requestedJobs windows) c c') :
    Invariant jobCount requestedJobs windows c' := by
  cases h with
  | act hk h => exact invariant_worker hi hk h
  | env h => exact invariant_main hi h
  | @new worker h =>
    obtain ⟨hmain,-,rfl⟩ := h
    have hm := hi.main
    rw [MainOk,hmain] at hm
    have hmem : ∀ worker, worker ≠ .taking → (worker ∈ c.ops ++ [.taking] ↔ worker ∈ c.ops) :=
      fun worker hw => by simp [hw]
    exact
      { given := hi.given
        bound := hi.bound
        once := fun job => by
          have honce := hi.once job
          simp only [executions,List.countP_append] at honce ⊢
          exact honce
        failure := fun job hj =>
          (hi.failure job hj).imp_right (.imp_left (hmem _ (by decide)).mpr)
        reason := hi.reason
        marks := fun h => hi.marks ((hmem _ (by decide)).mp h)
        stopped := fun h => hi.stopped ((hmem _ (by decide)).mp h)
        main := by
          unfold MainOk
          dsimp only
          rw [hmain]
          exact hm }

/-- When nothing runs any more, the results are those of the jobs that were drawn. -/
theorem results_perm (hnext : c.shared.nextJob = jobCount)
    (htrue : ∀ result ∈ c.shared.results, result.2 = true)
    (hdone : ∀ worker ∈ c.ops, worker = .done)
    (honce : ∀ job, executions job c = if job < c.shared.nextJob then 1 else 0) :
    c.shared.results.Perm ((List.range jobCount).map fun job => (job,true)) := by
  rw [List.perm_iff_count]
  rintro ⟨job,_ | _⟩
  · rw [List.count_eq_zero_of_not_mem fun h => absurd (htrue _ h) Bool.false_ne_true,
      List.count_eq_zero_of_not_mem (by simp)]
  · have hruns : c.ops.countP (Worker.runs job) = 0 := by
      rw [List.countP_eq_zero]
      intro worker hw
      rw [hdone worker hw]
      exact Bool.false_ne_true
    have hcount : c.shared.results.count (job,true) =
        c.shared.results.countP fun result => result.1 == job := by
      refine List.countP_congr fun result hmem => ?_
      have ht := htrue result hmem
      obtain ⟨job',ok⟩ := result
      cases ht
      simp
    have h := honce job
    rw [executions,hruns,Nat.add_zero,hnext] at h
    have hinj : Function.Injective fun job : ℕ => (job,true) := fun a b hab =>
      congrArg Prod.fst hab
    rw [hcount,h,List.count_map_of_injective _ _ hinj]
    by_cases hj : job < jobCount
    · rw [if_pos hj,List.nodup_range.count,if_pos (List.mem_range.mpr hj)]
    · rw [if_neg hj,List.count_eq_zero_of_not_mem fun h => hj (List.mem_range.mp h)]

theorem invariant_run {c' : Config Shared Worker}
    (h : Run (system jobCount requestedJobs windows) initial c') :
    Invariant jobCount requestedJobs windows c' :=
  h.invariant (fun _ _ hi hs => invariant_step hi hs) invariant_initial

end

/-- Whatever the order of draws, failures and creation errors: no job is drawn twice, the caller
returns 1 only when every job was run once and succeeded, and 0 only for a reason. -/
theorem run_parallel_jobs_correct (jobCount requestedJobs : ℕ) (windows : Bool)
    (c : Config Shared Worker) (h : Run (system jobCount requestedJobs windows) initial c) :
    c.shared.given.Nodup ∧
    (c.shared.main = .returned true →
      c.shared.results.Perm ((List.range jobCount).map fun job => (job,true))) ∧
    (c.shared.main = .returned false →
      (∃ job, (job,false) ∈ c.shared.results) ∨ c.shared.uncreated = true) := by
  have hi := invariant_run h
  have hm := hi.main
  refine ⟨by rw [hi.given]; exact List.nodup_range,fun hr => ?_,fun hr => ?_⟩
  · rw [MainOk,hr] at hm
    obtain ⟨hle,hf,hdone⟩ := hm
    have hnext : c.shared.nextJob = jobCount := Nat.le_antisymm hi.bound hle
    have htrue : ∀ result ∈ c.shared.results, result.2 = true := by
      rintro ⟨job,_ | _⟩ hmem
      · rcases hi.failure job hmem with h | h | h
        · exact absurd (hf.symm.trans h) Bool.false_ne_true
        · exact absurd (hdone _ h) (by decide)
        · rw [hr] at h
          cases h
      · rfl
    exact results_perm hnext htrue hdone hi.once
  · rw [MainOk,hr] at hm
    exact hm

/-- The first worker draws its job before the second one is started. -/
theorem twoWorkers_drawn : Run (system 2 2 false) initial
    ⟨{ nextJob := 2, main := .creating, given := [0,1] },[.running 0,.running 1]⟩ := by
  refine .head (.env (.init rfl (by decide) (by decide))) ?_
  refine .head (.new ⟨rfl,by decide,rfl⟩) ?_
  refine .head (.act (k := 0) rfl (.take rfl)) ?_
  refine .head (.new ⟨rfl,by decide,rfl⟩) ?_
  exact .single (.act (k := 1) rfl (.take rfl))

/-- The second job is done before the first one. -/
theorem twoWorkers_succeed : Run (system 2 2 false) initial
    ⟨{ nextJob := 2, main := .returned true, given := [0,1], results := [(1,true),(0,true)] },
      [.done,.done]⟩ := by
  refine twoWorkers_drawn.trans ?_
  refine .head (.act (k := 1) rfl (.succeed 1)) ?_
  refine .head (.act (k := 0) rfl (.succeed 0)) ?_
  refine .head (.act (k := 1) rfl (.stop rfl)) ?_
  refine .head (.act (k := 0) rfl (.stop rfl)) ?_
  refine .head (.env (.created rfl rfl)) ?_
  refine .head (.env (.join rfl rfl)) ?_
  refine .head (.env (.join rfl rfl)) ?_
  exact .single (.env (.result rfl))

/-- The second worker fails and marks the queue while the first one is at its job. -/
theorem twoWorkers_fail : Run (system 2 2 false) initial
    ⟨{ nextJob := 2, failed := true, main := .returned false, given := [0,1],
       results := [(1,false),(0,true)] },[.done,.done]⟩ := by
  refine twoWorkers_drawn.trans ?_
  refine .head (.act (k := 1) rfl (.fail 1)) ?_
  refine .head (.act (k := 1) rfl .mark) ?_
  refine .head (.act (k := 0) rfl (.succeed 0)) ?_
  refine .head (.act (k := 0) rfl (.stop rfl)) ?_
  refine .head (.env (.created rfl rfl)) ?_
  refine .head (.env (.join rfl rfl)) ?_
  refine .head (.env (.join rfl rfl)) ?_
  exact .single (.env (.result rfl))

theorem run_parallel_jobs_correct_twoWorkers :
    [((1 : ℕ),true),(0,true)].Perm ((List.range 2).map fun job => (job,true)) ∧
      ((∃ job, (job,false) ∈ [((1 : ℕ),false),(0,true)]) ∨ false = true) :=
  ⟨(run_parallel_jobs_correct 2 2 false _ twoWorkers_succeed).2.1 rfl,
    (run_parallel_jobs_correct 2 2 false _ twoWorkers_fail).2.2 rfl⟩

end ParallelJobs

end DolRecomp
