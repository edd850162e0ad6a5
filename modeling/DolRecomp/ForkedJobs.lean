import Mathlib.Data.List.Perm.Basic
import Mathlib.Data.List.Nodup
import Mathlib.Logic.Relation

/-!
# The forked chunk runner

`run_llvm_chunk_jobs` runs batches of jobs in child processes that end in any order. The jobs of
a batch that fails are tried once more, one process for each.
-/

namespace DolRecomp

namespace ForkedJobs

/-- An entry of `active_workers`. -/
structure LLVMWorker where
  pid : ℕ
  batchStart : ℕ
  batchCount : ℕ
  deriving DecidableEq

inductive Phase
  | start | looping | dispatching | waiting | collecting
  | retrying (i : ℕ) | awaiting (i : ℕ) (pid : ℕ) | returned (ok : Bool)
  deriving DecidableEq

/-- The locals of the function. The last three fields are history: the processes of the retry loop
that were not reaped, the jobs that were counted, and the processes that exited with status 0. -/
structure State where
  phase : Phase := .start
  pending : List ℕ := []
  next : ℕ := 0
  active : List LLVMWorker := []
  retry : List ℕ := []
  completed : ℕ := 0
  failed : Bool := false
  retried : List (ℕ × List ℕ) := []
  counted : List ℕ := []
  succeeded : List (List ℕ) := []

def State.batch (s : State) (start count : ℕ) : List ℕ := (s.pending.drop start).take count

def State.jobsOf (s : State) (worker : LLVMWorker) : List ℕ :=
  s.batch worker.batchStart worker.batchCount

/-- The jobs of every process that was started and not reaped. -/
def State.live (s : State) : List (List ℕ) := s.active.map s.jobsOf ++ s.retried.map (·.2)

def State.pids (s : State) : List ℕ := s.active.map (·.pid) ++ s.retried.map (·.1)

def swapRemove (active : List LLVMWorker) (slot : ℕ) : List LLVMWorker :=
  match active.getLast? with
  | some last => (active.set slot last).dropLast
  | none => active

section

variable (count workers batchSize : ℕ) (reuse : ℕ → Bool)

/-- What is left to do when the reused objects are counted. -/
def scan : State where
  phase := .looping
  pending := (List.range count).filter fun job => !reuse job
  completed := ((List.range count).filter reuse).length
  counted := (List.range count).filter reuse

def batchCount (s : State) : ℕ :=
  if s.pending.length - s.next > batchSize then batchSize else s.pending.length - s.next

/-- One action; `fork`, `waitpid` and the children decide between those that are possible. A new
process has an identifier of its own. -/
inductive Step (s : State) : State → Prop
  | allocFails (h : s.phase = .start) : Step s { s with phase := .returned false }
  | scan (h : s.phase = .start) : Step s (scan count reuse)
  | loop (h : s.phase = .looping) (hn : s.next < s.pending.length ∨ s.active ≠ []) :
      Step s { s with phase := .dispatching }
  | leave (h : s.phase = .looping) (hn : ¬(s.next < s.pending.length ∨ s.active ≠ [])) :
      Step s { s with phase := .collecting }
  | fork {pid : ℕ} (h : s.phase = .dispatching) (hn : s.next < s.pending.length)
      (hw : s.active.length < workers) (hp : pid ∉ s.pids) :
      Step s { s with
        next := s.next + batchCount batchSize s
        active := s.active ++ [⟨pid,s.next,batchCount batchSize s⟩] }
  | forkFails (h : s.phase = .dispatching) (hn : s.next < s.pending.length)
      (hw : s.active.length < workers) :
      Step s { s with
        next := s.next + batchCount batchSize s
        retry := s.retry ++ s.batch s.next (batchCount batchSize s) }
  | wait (h : s.phase = .dispatching)
      (hn : ¬(s.next < s.pending.length ∧ s.active.length < workers)) (ha : s.active ≠ []) :
      Step s { s with phase := .waiting }
  | idle (h : s.phase = .dispatching)
      (hn : ¬(s.next < s.pending.length ∧ s.active.length < workers)) (ha : s.active = []) :
      Step s { s with phase := .collecting }
  | waitFails (h : s.phase = .waiting) : Step s { s with failed := true, phase := .collecting }
  | stranger {pid : ℕ} (h : s.phase = .waiting) (hp : pid ∉ s.active.map (·.pid)) :
      Step s { s with failed := true, phase := .looping }
  | finish {slot : ℕ} {worker : LLVMWorker} (h : s.phase = .waiting)
      (hw : s.active[slot]? = some worker)
      (hp : s.active.findIdx? (fun w => w.pid == worker.pid) = some slot) :
      Step s { s with
        phase := .looping
        active := swapRemove s.active slot
        completed := s.completed + worker.batchCount
        counted := s.counted ++ s.jobsOf worker
        succeeded := s.succeeded ++ [s.jobsOf worker] }
  | crash {slot : ℕ} {worker : LLVMWorker} (h : s.phase = .waiting)
      (hw : s.active[slot]? = some worker)
      (hp : s.active.findIdx? (fun w => w.pid == worker.pid) = some slot) :
      Step s { s with
        phase := .looping
        active := swapRemove s.active slot
        retry := s.retry ++ s.jobsOf worker }
  | collect {job : ℕ} (h : s.phase = .collecting) (hj : s.pending[s.next]? = some job) :
      Step s { s with next := s.next + 1, retry := s.retry ++ [job] }
  | collected (h : s.phase = .collecting) (hn : s.pending.length ≤ s.next) :
      Step s { s with phase := .retrying 0 }
  | retryFork {i job pid : ℕ} (h : s.phase = .retrying i) (hj : s.retry[i]? = some job)
      (hp : pid ∉ s.pids) :
      Step s { s with phase := .awaiting i pid, retried := s.retried ++ [(pid,[job])] }
  | retryForkFails {i job : ℕ} (h : s.phase = .retrying i) (hj : s.retry[i]? = some job) :
      Step s { s with phase := .retrying (i + 1), failed := true }
  | retryWaitFails {i pid : ℕ} (h : s.phase = .awaiting i pid) :
      Step s { s with phase := .retrying (i + 1), failed := true }
  | retryFinish {i job pid : ℕ} (h : s.phase = .awaiting i pid) (hj : s.retry[i]? = some job) :
      Step s { s with
        phase := .retrying (i + 1)
        retried := s.retried.dropLast
        completed := s.completed + 1
        counted := s.counted ++ [job]
        succeeded := s.succeeded ++ [[job]] }
  | retryCrash {i pid : ℕ} (h : s.phase = .awaiting i pid) :
      Step s { s with
        phase := .retrying (i + 1), retried := s.retried.dropLast, failed := true }
  | result {i : ℕ} (h : s.phase = .retrying i) (hi : s.retry.length ≤ i) :
      Step s { s with phase := .returned (!s.failed && s.completed == count) }

abbrev Run : State → State → Prop :=
  Relation.ReflTransGen (Step count workers batchSize reuse)

end

/-- The jobs that a later process may still be started for. -/
def State.todo (s : State) : List ℕ :=
  match s.phase with
  | .retrying i => s.retry.drop i
  | .awaiting i _ => s.retry.drop (i + 1)
  | .returned _ => []
  | _ => s.retry ++ s.pending.drop s.next

/-- Every job is in one place: counted, in a process, or still to do. -/
def State.places (s : State) : List ℕ := s.counted ++ s.live.flatten ++ s.todo

structure Invariant (count : ℕ) (reuse : ℕ → Bool) (s : State) : Prop where
  nodup : s.places.Nodup
  jobs : ∀ job ∈ s.places, job < count
  room : s.retry.length ≤ count
  completed : s.completed = s.counted.length
  reason : ∀ job ∈ s.counted, reuse job = true ∨ ∃ jobs ∈ s.succeeded, job ∈ jobs
  bound : ∀ worker ∈ s.active, worker.batchStart + worker.batchCount ≤ s.pending.length
  current : ∀ i pid, s.phase = .awaiting i pid →
    ∃ job, s.retry[i]? = some job ∧ s.retried.getLast? = some (pid,[job])
  verdict : s.phase = .returned true → s.failed = false ∧ s.completed = count

theorem swapRemove_perm {active : List LLVMWorker} {slot : ℕ} {worker : LLVMWorker}
    (h : active[slot]? = some worker) : active.Perm (worker :: swapRemove active slot) := by
  rcases List.eq_nil_or_concat' active with rfl | ⟨init,last,rfl⟩
  · cases h
  · obtain ⟨hlt,hw⟩ := List.getElem?_eq_some_iff.mp h
    rw [swapRemove,List.getLast?_append_cons]
    dsimp only [List.getLast?_singleton]
    rw [List.length_append,List.length_singleton] at hlt
    by_cases hs : slot < init.length
    · rw [List.set_append_left _ _ hs,List.dropLast_concat]
      rw [List.getElem_append_left hs] at hw
      have h1 := (List.getElem_cons_eraseIdx_perm hs).symm
      have h2 := (List.set_perm_cons_eraseIdx hs last).symm
      rw [hw] at h1
      calc init ++ [last]
        _ |>.Perm (last :: init) := List.perm_append_singleton _ _
        _ |>.Perm (last :: worker :: init.eraseIdx slot) := h1.cons _
        _ |>.Perm (worker :: last :: init.eraseIdx slot) := .swap _ _ _
        _ |>.Perm (worker :: init.set slot last) := h2.cons _
    · have heq : slot = init.length := by omega
      subst heq
      rw [List.getElem_concat_length rfl] at hw
      rw [List.set_append_right _ _ (Nat.le_refl _),Nat.sub_self,List.set_cons_zero,
        List.dropLast_concat,← hw]
      exact List.perm_append_singleton _ _

section

variable {count workers batchSize : ℕ} {reuse : ℕ → Bool} {s : State}

theorem jobsOf_eq (s : State) : s.jobsOf = fun worker =>
    (s.pending.drop worker.batchStart).take worker.batchCount := rfl

theorem batch_append_drop (s : State) (start n : ℕ) :
    s.batch start n ++ s.pending.drop (start + n) = s.pending.drop start := by
  rw [State.batch,← List.drop_drop,List.take_append_drop]

theorem length_batch {start n : ℕ} (h : start + n ≤ s.pending.length) :
    (s.batch start n).length = n := by
  rw [State.batch,List.length_take,List.length_drop]
  omega

theorem batchCount_le (batchSize : ℕ) {s : State} (h : s.next < s.pending.length) :
    s.next + batchCount batchSize s ≤ s.pending.length := by
  unfold batchCount
  split <;> omega

/-- Jobs may leave the books but not appear in them twice. -/
theorem places_sub (s' : State) {count : ℕ} (hn : s.places.Nodup)
    (hj : ∀ job ∈ s.places, job < count) (h : s'.places.Subperm s.places) :
    s'.places.Nodup ∧ ∀ job ∈ s'.places, job < count := by
  refine ⟨?_,fun job hm => hj job (h.subset hm)⟩
  obtain ⟨l,hp,hs⟩ := h
  exact hp.nodup_iff.mp (hn.sublist hs)

theorem retry_room {count : ℕ} (hn : s.places.Nodup) (hj : ∀ job ∈ s.places, job < count)
    (h : s.retry.Sublist s.places) : s.retry.length ≤ count := by
  have hsub : s.retry ⊆ List.range count := fun job hm => List.mem_range.mpr (hj job (h.subset hm))
  have hle := (List.subperm_of_subset (hn.sublist h) hsub).length_le
  rwa [List.length_range] at hle

theorem live_perm {slot : ℕ} {worker : LLVMWorker} (h : s.active[slot]? = some worker) :
    s.live.flatten.Perm
      (s.jobsOf worker ++ ((swapRemove s.active slot).map s.jobsOf ++
        s.retried.map (·.2)).flatten) := by
  have hp := (((swapRemove_perm h).map s.jobsOf).append_right (s.retried.map (·.2))).flatten
  exact hp

theorem retried_eq {pid job : ℕ} (h : s.retried.getLast? = some (pid,[job])) :
    s.retried.map (·.2) = s.retried.dropLast.map (·.2) ++ [[job]] := by
  obtain ⟨init,hi⟩ := List.getLast?_eq_some_iff.mp h
  rw [hi,List.dropLast_concat,List.map_append]
  rfl

theorem invariant_scan : Invariant count reuse (scan count reuse) where
  nodup := by
    have hp : (scan count reuse).places.Perm (List.range count) := by
      show (List.filter reuse _ ++ [] ++ ([] ++ List.filter _ _)).Perm _
      rw [List.append_nil,List.nil_append]
      exact List.filter_append_perm reuse _
    exact hp.nodup_iff.mpr List.nodup_range
  jobs := by
    intro job hm
    have hm : job ∈ List.filter reuse (List.range count) ++ [] ++
      ([] ++ List.filter (fun job => !reuse job) (List.range count)) := hm
    simp only [List.append_nil,List.nil_append,List.mem_append,List.mem_filter,
      List.mem_range] at hm
    rcases hm with hm | hm
    · exact hm.1
    · exact hm.1
  room := Nat.zero_le _
  completed := rfl
  reason job hm := .inl (List.mem_filter.mp hm).2
  bound worker hw := by cases hw
  current i pid h := by cases h
  verdict h := by cases h

/-- The phases before the retry loop. -/
def Phase.batching : Phase → Bool
  | .retrying _ | .awaiting _ _ | .returned _ => false
  | _ => true

theorem todo_batching (h : s.phase.batching = true) :
    s.todo = s.retry ++ s.pending.drop s.next := by
  unfold State.todo
  generalize s.phase = p at h
  cases p with
  | retrying | awaiting | returned => cases h
  | _ => rfl

theorem retry_sublist (h : s.phase.batching = true) : s.retry.Sublist s.places := by
  rw [State.places,todo_batching h]
  exact (List.sublist_append_left _ _).trans (List.sublist_append_right _ _)

theorem places_fork {pid : ℕ} (h : s.phase = .dispatching) :
    (State.places { s with
      next := s.next + batchCount batchSize s
      active := s.active ++ [⟨pid,s.next,batchCount batchSize s⟩] }).Perm s.places := by
  refine List.perm_iff_count.mpr fun job => ?_
  have hd := congrArg (List.count job) (batch_append_drop s s.next (batchCount batchSize s))
  simp only [State.places,State.live,State.todo,h,List.map_append,List.flatten_append,
    List.count_append,List.map_cons,List.map_nil,List.flatten_cons,List.flatten_nil,
    List.count_nil,jobsOf_eq,State.batch] at hd ⊢
  omega

theorem places_forkFails (h : s.phase = .dispatching) :
    State.places { s with
      next := s.next + batchCount batchSize s
      retry := s.retry ++ s.batch s.next (batchCount batchSize s) } = s.places := by
  have hd := batch_append_drop s s.next (batchCount batchSize s)
  rw [State.places,State.places,todo_batching (s := s) (congrArg Phase.batching h),← hd]
  simp only [State.todo,h,List.append_assoc]
  rfl

theorem places_collect {job : ℕ} (h : s.phase = .collecting) (hj : s.pending[s.next]? = some job) :
    State.places { s with next := s.next + 1, retry := s.retry ++ [job] } = s.places := by
  obtain ⟨hlt,hget⟩ := List.getElem?_eq_some_iff.mp hj
  rw [State.places,State.places,todo_batching (s := s) (congrArg Phase.batching h),
    List.drop_eq_getElem_cons hlt,hget]
  simp only [State.todo,h,List.append_assoc]
  rfl

theorem places_reap {slot : ℕ} {worker : LLVMWorker} (h : s.phase = .waiting)
    (hw : s.active[slot]? = some worker) :
    (s.counted ++ s.jobsOf worker ++ ((swapRemove s.active slot).map s.jobsOf ++
      s.retried.map (·.2)).flatten ++ (s.retry ++ s.pending.drop s.next)).Perm s.places := by
  rw [State.places,todo_batching (s := s) (congrArg Phase.batching h)]
  refine List.Perm.append_right _ ?_
  rw [List.append_assoc]
  exact (live_perm hw).symm.append_left _

theorem places_retryFork {i job pid : ℕ} (h : s.phase = .retrying i)
    (hj : s.retry[i]? = some job) :
    (State.places { s with
      phase := .awaiting i pid, retried := s.retried ++ [(pid,[job])] }).Perm s.places := by
  obtain ⟨hlt,hget⟩ := List.getElem?_eq_some_iff.mp hj
  have hdrop : s.todo = job :: s.retry.drop (i + 1) := by
    rw [State.todo,h]
    dsimp only
    rw [List.drop_eq_getElem_cons hlt,hget]
  refine List.perm_iff_count.mpr fun job' => ?_
  rw [State.places,State.places,hdrop]
  simp only [State.live,State.todo,List.map_append,List.flatten_append,List.count_append,
    List.map_cons,List.map_nil,List.flatten_cons,List.flatten_nil,List.count_cons,
    List.count_nil,jobsOf_eq]
  omega

/-- The job of the last process is at the end of the ones in a process. -/
theorem live_retried {pid job : ℕ} (h : s.retried.getLast? = some (pid,[job])) :
    s.live.flatten =
      (s.active.map s.jobsOf ++ s.retried.dropLast.map (·.2)).flatten ++ [job] := by
  rw [State.live,retried_eq h,← List.append_assoc,List.flatten_append]
  rfl

theorem places_step {s' : State} (hi : Invariant count reuse s)
    (h : Step count workers batchSize reuse s s') :
    s' = scan count reuse ∨ s'.places.Subperm s.places := by
  cases h with
  | scan => exact .inl rfl
  | allocFails h | result h =>
    exact .inr ((List.Sublist.refl _).append (List.nil_sublist _)).subperm
  | loop h | leave h | wait h | idle h | waitFails h | stranger h =>
    refine .inr (List.Perm.of_eq ?_).subperm
    rw [State.places,State.places,todo_batching (s := s) (congrArg Phase.batching h)]
    rfl
  | fork h => exact .inr (places_fork h).subperm
  | forkFails h => exact .inr (List.Perm.of_eq (places_forkFails h)).subperm
  | finish h hw => exact .inr (places_reap h hw).subperm
  | crash h hw =>
    refine .inr (List.Perm.subperm ?_)
    refine (List.perm_iff_count.mpr fun job => ?_).trans (places_reap h hw)
    simp only [State.places,State.live,State.todo,List.count_append,jobsOf_eq]
    omega
  | collect h hj => exact .inr (List.Perm.of_eq (places_collect h hj)).subperm
  | collected h hn =>
    refine .inr (List.Perm.of_eq ?_).subperm
    rw [State.places,State.places,todo_batching (s := s) (congrArg Phase.batching h),
      List.drop_eq_nil_of_le hn,List.append_nil]
    rfl
  | retryFork h hj => exact .inr (places_retryFork h hj).subperm
  | @retryForkFails i job h hj =>
    have hsub : (s.retry.drop (i + 1)).Sublist s.todo := by
      rw [State.todo,h,← List.drop_drop]
      exact List.drop_sublist _ _
    exact .inr ((List.Sublist.refl _).append hsub).subperm
  | retryWaitFails h =>
    refine .inr (List.Perm.of_eq ?_).subperm
    rw [State.places,State.places]
    simp only [State.todo,h]
    rfl
  | @retryFinish i job pid h hj =>
    obtain ⟨job',hj',hlast⟩ := hi.current i pid h
    obtain rfl : job' = job := Option.some.inj (hj'.symm.trans hj)
    refine .inr (List.perm_iff_count.mpr fun job => ?_).subperm
    simp only [State.places,State.todo,h,live_retried hlast,List.count_append]
    simp only [State.live,jobsOf_eq]
    omega
  | @retryCrash i pid h =>
    obtain ⟨job,-,hlast⟩ := hi.current i pid h
    rw [State.places,State.places,live_retried hlast]
    simp only [State.todo,h]
    exact .inr (((List.Sublist.refl _).append
      (List.sublist_append_left _ _)).append (List.Sublist.refl _)).subperm

theorem reason_append (hi : Invariant count reuse s) (jobs : List ℕ) :
    ∀ job ∈ s.counted ++ jobs, reuse job = true ∨ ∃ batch ∈ s.succeeded ++ [jobs], job ∈ batch := by
  intro job hm
  rcases List.mem_append.mp hm with hm | hm
  · exact (hi.reason job hm).imp_right fun ⟨batch,h1,h2⟩ => ⟨batch,List.mem_append_left _ h1,h2⟩
  · exact .inr ⟨jobs,List.mem_append_right _ (List.mem_singleton_self _),hm⟩

theorem bound_swapRemove (hi : Invariant count reuse s) {slot : ℕ} {worker : LLVMWorker}
    (hw : s.active[slot]? = some worker) :
    ∀ w ∈ swapRemove s.active slot, w.batchStart + w.batchCount ≤ s.pending.length := fun w hm =>
  hi.bound w ((swapRemove_perm hw).mem_iff.mpr (List.mem_cons_of_mem _ hm))

theorem invariant_step {s' : State} (hi : Invariant count reuse s)
    (h : Step count workers batchSize reuse s s') : Invariant count reuse s' := by
  rcases places_step hi h with rfl | hsub
  · exact invariant_scan
  obtain ⟨hnodup,hjobs⟩ := places_sub s' hi.nodup hi.jobs hsub
  cases h with
  | scan => exact invariant_scan
  | allocFails h | loop h | leave h | wait h | idle h | waitFails h | stranger h | collected h
  | retryForkFails h | retryWaitFails h | retryCrash h =>
    exact
      { hi with
        nodup := hnodup, jobs := hjobs
        current := fun _ _ he => by cases he
        verdict := fun he => by cases he }
  | fork h hn =>
    exact
      { hi with
        nodup := hnodup, jobs := hjobs
        bound := fun worker hm => by
          rcases List.mem_append.mp hm with hm | hm
          · exact hi.bound worker hm
          · obtain rfl := List.mem_singleton.mp hm
            exact batchCount_le batchSize hn
        current := fun _ _ he => by cases h.symm.trans he
        verdict := fun he => by cases h.symm.trans he }
  | forkFails h | collect h =>
    exact
      { hi with
        nodup := hnodup, jobs := hjobs
        room := retry_room hnodup hjobs (retry_sublist (congrArg Phase.batching h))
        current := fun _ _ he => by cases h.symm.trans he
        verdict := fun he => by cases h.symm.trans he }
  | @finish slot worker h hw =>
    have hlen := length_batch (hi.bound worker (List.mem_of_getElem? hw))
    exact
      { nodup := hnodup, jobs := hjobs
        room := hi.room
        completed := by rw [List.length_append,State.jobsOf,hlen,hi.completed]
        reason := reason_append hi (s.jobsOf worker)
        bound := bound_swapRemove hi hw
        current := fun _ _ he => by cases he
        verdict := fun he => by cases he }
  | crash h hw =>
    exact
      { hi with
        nodup := hnodup, jobs := hjobs
        room := retry_room hnodup hjobs (retry_sublist rfl)
        bound := bound_swapRemove hi hw
        current := fun _ _ he => by cases he
        verdict := fun he => by cases he }
  | @retryFork i job pid h hj =>
    exact
      { hi with
        nodup := hnodup, jobs := hjobs
        current := fun _ _ he => by
          cases he
          exact ⟨job,hj,List.getLast?_concat⟩
        verdict := fun he => by cases he }
  | @retryFinish i job pid h hj =>
    exact
      { nodup := hnodup, jobs := hjobs
        room := hi.room
        completed := by
          rw [List.length_append,hi.completed]
          rfl
        reason := reason_append hi [job]
        bound := hi.bound
        current := fun _ _ he => by cases he
        verdict := fun he => by cases he }
  | result h hle =>
    exact
      { hi with
        nodup := hnodup, jobs := hjobs
        current := fun _ _ he => by cases he
        verdict := fun he => by
          have hv := Phase.returned.inj he
          rw [Bool.and_eq_true,Bool.not_eq_true',beq_iff_eq] at hv
          exact hv }

theorem invariant_initial : Invariant count reuse {} where
  nodup := List.nodup_nil
  jobs job hm := by cases hm
  room := Nat.zero_le _
  completed := rfl
  reason job hm := by cases hm
  bound worker hm := by cases hm
  current i pid h := by cases h
  verdict h := by cases h

theorem invariant_run (h : Run count workers batchSize reuse {} s) : Invariant count reuse s := by
  induction h with
  | refl => exact invariant_initial
  | tail _ hs ih => exact invariant_step ih hs

end

/-- Whatever fork, wait and the children do: a job is counted once, the retry array has room, no
job is in two processes, and 1 is returned only for a reason with every job. -/
theorem run_llvm_chunk_jobs_correct (count workers batchSize : ℕ) (reuse : ℕ → Bool) (s : State)
    (h : Run count workers batchSize reuse {} s) :
    (s.counted.Nodup ∧ s.completed = s.counted.length) ∧ s.retry.length ≤ count ∧
    s.live.flatten.Nodup ∧
    (s.phase = .returned true → ∀ job < count,
      reuse job = true ∨ ∃ jobs ∈ s.succeeded, job ∈ jobs) := by
  have hi := invariant_run h
  have hleft : (s.counted ++ s.live.flatten).Nodup :=
    hi.nodup.sublist (List.sublist_append_left _ _)
  have hcounted : s.counted.Nodup := hleft.sublist (List.sublist_append_left _ _)
  refine ⟨⟨hcounted,hi.completed⟩,hi.room,hleft.sublist (List.sublist_append_right _ _),?_⟩
  intro hr job hj
  obtain ⟨-,hc⟩ := hi.verdict hr
  have hsub : s.counted ⊆ List.range count := fun job hm => List.mem_range.mpr
    (hi.jobs job (List.mem_append_left _ (List.mem_append_left _ hm)))
  have hperm : s.counted.Perm (List.range count) :=
    (List.subperm_of_subset hcounted hsub).perm_of_length_le (by
      have hlen := hi.completed
      rw [List.length_range]
      omega)
  exact hi.reason job (hperm.mem_iff.mpr (List.mem_range.mpr hj))

/-- The one batch crashes, and its job is tried again. -/
def retriedState : State where
  phase := .returned true
  pending := [0]
  next := 1
  retry := [0]
  completed := 1
  counted := [0]
  succeeded := [[0]]

theorem run_llvm_chunk_jobs_correct_retry : ([0] : List ℕ).Nodup ∧ 1 = [0].length :=
  (run_llvm_chunk_jobs_correct 1 1 8 (fun _ => false) retriedState
    (.tail (.tail (.tail (.tail (.tail (.tail (.tail (.tail (.tail (.tail .refl
      (.scan rfl)) (.loop rfl (by decide)))
      (@Step.fork _ _ _ _ _ 7 rfl (by decide) (by decide) (by decide)))
      (.wait rfl (by decide) (by decide))) (@Step.crash _ _ _ _ _ 0 ⟨7,0,1⟩ rfl rfl (by decide)))
      (.leave rfl (by decide))) (.collected rfl (by decide)))
      (@Step.retryFork _ _ _ _ _ 0 0 8 rfl rfl (by decide))) (.retryFinish rfl rfl))
      (.result rfl (by decide)))).1

end ForkedJobs

end DolRecomp
