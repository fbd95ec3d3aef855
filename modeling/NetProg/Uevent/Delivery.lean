import NetProg.Lib.Progress
import NetProg.Uevent.Pipeline

/-!
# Every add event is reported or expires

A check leaves nothing pending that is older than thirty seconds by its clock, so what was pending before a check
and still is was not too old for it (`pending_run`). As long as every thread goes on, time passes and
`disk_partitions` does not raise, every message is shown to the observer, every job is performed, and a check is put
at any time later; so every add event that was accepted ends up reported or expired (`delivered`), once, by
`account_pipeline`. The checks do not pile up: the scheduler puts one in five seconds at most (`checks_spaced`).
-/

namespace NetProg.Uevent
open Filter
open Lib (run run_append run_singleton stateAt stateAt_succ LeadsTo leadsTo_of_variant)

/-! ### What is pending is not old -/

section

variable {disk : ℕ → Except Raised (List Partition)} {m : Monitor} {e : DeviceEvent}

theorem mem_pending_afterAdd {taken : DeviceEvent} {partitions : List Partition}
    (h : e ∈ (m.afterAdd taken partitions).pending_event_list) : e ∈ m.pending_event_list ∨ e = taken := by
  by_cases hlisted : Lists partitions taken.devname
  · rw [(afterAdd_listed m taken hlisted).1] at h
    exact .inl h
  · rw [(afterAdd_unlisted m taken hlisted).1] at h
    exact (List.mem_append.1 h).imp_right List.mem_singleton.1

theorem pending_check (now : ℤ) (h : e ∈ (perform disk m (.check now)).pending_event_list) :
    e ∈ m.pending_event_list ∧ ¬ e.IsExpired now := by
  let I (m' : Monitor) (rest : List DeviceEvent) : Prop :=
    (∀ e ∈ m'.pending_event_list, e ∈ m.pending_event_list ∧ ¬ e.IsExpired now) ∧ ∀ e ∈ rest, e ∈ m.pending_event_list
  have hI : ∀ e ∈ (perform disk m (.check now)).pending_event_list, e ∈ m.pending_event_list ∧ ¬ e.IsExpired now := by
    refine @check_rule disk m I (fun m' => ∀ e ∈ m'.pending_event_list, e ∈ m.pending_event_list ∧ ¬ e.IsExpired now) now
      ?_ ?_ ?_ (fun m' h => h.1) ⟨List.forall_mem_nil _, fun _ he => he⟩
    · exact fun m' e rest _ h => ⟨h.1, fun e he => h.2 e (List.mem_cons_of_mem _ he)⟩
    · intro m' e rest partitions hnew _ h
      refine ⟨fun e' he' => ?_, fun e he => h.2 e (List.mem_cons_of_mem _ he)⟩
      rcases mem_pending_afterAdd he' with he' | rfl
      · exact h.1 e' he'
      · exact ⟨h.2 e' List.mem_cons_self, hnew⟩
    · exact fun m' e rest raised _ _ h => h.1
  exact hI e h

theorem pending_process (event : Event) (h : e ∈ (perform disk m (.process event)).pending_event_list) :
    e ∈ m.pending_event_list ∨ (Task.process event).add? = some e := by
  have hprocessed : Processed disk m event _ := perform_process event
  generalize perform disk m (.process event) = m' at hprocessed h
  cases hprocessed with
  | add hadd hdisk =>
    rcases mem_pending_afterAdd h with h | rfl
    · exact .inl h
    · exact .inr hadd
  | addRaised | remove | other => exact .inl h

variable (disk) in
/-- What is pending at the end of a run was not too old for a check in it, or was processed after the check. -/
theorem pending_run (before after : List Task) (now : ℤ)
    (h : e ∈ (Monitor.run disk (before ++ .check now :: after)).pending_event_list) :
    ¬ e.IsExpired now ∨ e ∈ adds after := by
  induction after using List.reverseRecOn with
  | nil =>
    rw [Monitor.run, run_append] at h
    exact .inl (pending_check now h).2
  | append_singleton after task ih =>
    rw [← List.cons_append, ← List.append_assoc, Monitor.run, run_append, run_singleton] at h
    rw [Pipeline.adds_concat, List.mem_append]
    cases task with
    | check now' => exact (ih (pending_check now' h).1).imp_right .inl
    | process event =>
      rcases pending_process event h with h | hadd
      · exact (ih h).imp_right .inl
      · exact .inr (.inr (by simp [hadd]))

end

/-- Time does not go back. -/
def Move.Forward : Move → Prop
  | .elapse microseconds => 0 ≤ microseconds
  | _ => True

instance : DecidablePred Move.Forward
  | .elapse microseconds => inferInstanceAs (Decidable (0 ≤ microseconds))
  | .kernel _ | .recvFails | .sock_thread | .scheduler | .worker_thread => inferInstanceAs (Decidable True)

/-- Every thread goes on, `recv` does not fail, and the clock neither stops nor goes back. -/
structure Fair (moves : ℕ → Move) : Prop where
  runs : ∀ k, moves k ≠ .recvFails
  forward : ∀ k, (moves k).Forward
  clock : ∃ᶠ k in atTop, ∃ microseconds > 0, moves k = .elapse microseconds
  sock_thread : ∃ᶠ k in atTop, moves k = .sock_thread
  scheduler : ∃ᶠ k in atTop, moves k = .scheduler
  worker_thread : ∃ᶠ k in atTop, moves k = .worker_thread

namespace Pipeline

variable {disk : ℕ → Except Raised (List Partition)} {p : Pipeline} {move : Move}

/-! ### What a step leaves as it is -/

/-- What only grows. -/
structure Grown (p q : Pipeline) : Prop where
  clock : p.clock ≤ q.clock
  arrived : p.arrived <+: q.arrived
  notified : p.notified <+: q.notified
  put : p.put <+: q.put
  performed : p.performed <+: q.performed

theorem Grown.refl (p : Pipeline) : Grown p p :=
  ⟨le_rfl, List.prefix_rfl, List.prefix_rfl, List.prefix_rfl, List.prefix_rfl⟩

theorem Grown.trans {q r : Pipeline} (h : Grown p q) (h' : Grown q r) : Grown p r :=
  ⟨h.clock.trans h'.clock, h.arrived.trans h'.arrived, h.notified.trans h'.notified, h.put.trans h'.put,
    h.performed.trans h'.performed⟩

theorem grown_step (hmove : move.Forward) : Grown p (p.step disk move) := by
  have hrefl := Grown.refl p
  unfold Pipeline.step
  split
  · exact hrefl
  · cases move with
    | elapse microseconds => exact { hrefl with clock := le_add_of_nonneg_right hmove }
    | kernel message => exact { hrefl with arrived := List.prefix_append _ _ }
    | recvFails =>
      dsimp only
      split <;> exact { hrefl with }
    | sock_thread =>
      dsimp only
      unfold sockStep
      split
      · split <;> exact { hrefl with }
      · exact { hrefl with notified := List.prefix_append _ _ }
      · exact { hrefl with put := List.prefix_append _ _ }
    | scheduler =>
      dsimp only
      unfold schedulerStep
      split
      · split
        · exact hrefl
        · exact { hrefl with put := List.prefix_append _ _ }
      · exact { hrefl with }
    | worker_thread =>
      dsimp only
      unfold workerStep
      split
      · split <;> exact { hrefl with }
      · exact { hrefl with performed := List.prefix_append _ _ }

theorem step_of_not_terminated (h : p.terminated = false) :
    p.step disk .sock_thread = p.sockStep ∧ p.step disk .scheduler = p.schedulerStep ∧
      p.step disk .worker_thread = p.workerStep disk := by
  simp [step, h]

@[simp] theorem terminated_sockStep : p.sockStep.terminated = p.terminated := by
  unfold sockStep
  split <;> (try split) <;> rfl

@[simp] theorem scheduler_sockStep : p.sockStep.scheduler = p.scheduler := by
  unfold sockStep
  split <;> (try split) <;> rfl

@[simp] theorem worker_thread_sockStep : p.sockStep.worker_thread = p.worker_thread := by
  unfold sockStep
  split <;> (try split) <;> rfl

@[simp] theorem performed_sockStep : p.sockStep.performed = p.performed := by
  unfold sockStep
  split <;> (try split) <;> rfl

@[simp] theorem terminated_schedulerStep : p.schedulerStep.terminated = p.terminated := by
  unfold schedulerStep
  split <;> (try split) <;> rfl

@[simp] theorem sock_thread_schedulerStep : p.schedulerStep.sock_thread = p.sock_thread := by
  unfold schedulerStep
  split <;> (try split) <;> rfl

@[simp] theorem notified_schedulerStep : p.schedulerStep.notified = p.notified := by
  unfold schedulerStep
  split <;> (try split) <;> rfl

@[simp] theorem worker_thread_schedulerStep : p.schedulerStep.worker_thread = p.worker_thread := by
  unfold schedulerStep
  split <;> (try split) <;> rfl

@[simp] theorem performed_schedulerStep : p.schedulerStep.performed = p.performed := by
  unfold schedulerStep
  split <;> (try split) <;> rfl

@[simp] theorem terminated_workerStep : (p.workerStep disk).terminated = p.terminated := by
  unfold workerStep
  split <;> (try split) <;> rfl

@[simp] theorem sock_thread_workerStep : (p.workerStep disk).sock_thread = p.sock_thread := by
  unfold workerStep
  split <;> (try split) <;> rfl

@[simp] theorem notified_workerStep : (p.workerStep disk).notified = p.notified := by
  unfold workerStep
  split <;> (try split) <;> rfl

@[simp] theorem scheduler_workerStep : (p.workerStep disk).scheduler = p.scheduler := by
  unfold workerStep
  split <;> (try split) <;> rfl

theorem terminated_step (hmove : move ≠ .recvFails) (h : p.terminated = false) :
    (p.step disk move).terminated = false := by
  cases move with
  | recvFails => exact absurd rfl hmove
  | _ => simp [step, h]

theorem sock_frame (hmove : move ≠ .sock_thread) :
    (p.step disk move).sock_thread = p.sock_thread ∧ (p.step disk move).notified = p.notified := by
  unfold step
  split_ifs
  · exact ⟨rfl, rfl⟩
  · cases move with
    | sock_thread => exact absurd rfl hmove
    | recvFails => dsimp only; split <;> exact ⟨rfl, rfl⟩
    | _ => simp

theorem scheduler_frame (hmove : move ≠ .scheduler) : (p.step disk move).scheduler = p.scheduler := by
  unfold step
  split_ifs
  · rfl
  · cases move with
    | scheduler => exact absurd rfl hmove
    | recvFails => dsimp only; split <;> rfl
    | _ => simp

theorem worker_frame (hmove : move ≠ .worker_thread) :
    (p.step disk move).worker_thread = p.worker_thread ∧ (p.step disk move).performed = p.performed := by
  unfold step
  split_ifs
  · exact ⟨rfl, rfl⟩
  · cases move with
    | worker_thread => exact absurd rfl hmove
    | recvFails => dsimp only; split <;> exact ⟨rfl, rfl⟩
    | _ => simp

/-! ### The threads make progress -/

/-- How far the thread of the socket is from its next message. -/
def phase (p : Pipeline) : ℕ :=
  match p.sock_thread with
  | .putting _ => 2
  | .receiving => 1
  | .notifying _ => 0

theorem sockStep_progress (h : Kept disk p) {i : ℕ} (harrived : i < p.arrived.length) (hnot : p.notified.length ≤ i) :
    3 * (i + 1 - p.sockStep.notified.length) + p.sockStep.phase < 3 * (i + 1 - p.notified.length) + p.phase := by
  have hlen := congrArg List.length h.arrived
  unfold sockStep
  split
  · rename_i hthread
    split
    · rename_i hsocket
      simp [taken, hthread, hsocket] at hlen
      omega
    · simp [phase, hthread]
  · rename_i message hthread
    simp only [phase, hthread, List.length_append, List.length_singleton]
    cases onReceiveUevent p.notified.length p.clock message <;> dsimp only <;> omega
  · rename_i hthread
    simp [phase, hthread, putTask]

theorem workerStep_progress (h : Kept disk p) {j : ℕ} (hput : j < p.put.length) (hnot : p.performed.length ≤ j) :
    2 * (j + 1 - (p.workerStep disk).performed.length) + (if (p.workerStep disk).worker_thread.isNone then 1 else 0) <
      2 * (j + 1 - p.performed.length) + (if p.worker_thread.isNone then 1 else 0) := by
  have hlen := congrArg List.length h.put
  unfold workerStep
  split
  · rename_i hworker
    split
    · rename_i hqueue
      simp [hworker, hqueue] at hlen
      omega
    · simp [hworker]
  · rename_i hworker
    simp only [hworker, List.length_append, List.length_singleton, Option.isNone_none, Option.isNone_some]
    simp
    omega

section

variable {snapshots : ℕ → List Partition} {clock : ℤ} {moves : ℕ → Move}

/-- The process after `n` moves, when `disk_partitions` does not raise. -/
def after (snapshots : ℕ → List Partition) (clock : ℤ) (moves : ℕ → Move) (n : ℕ) : Pipeline :=
  stateAt (step (calm snapshots)) (start (calm snapshots) clock) moves n

theorem after_succ (n : ℕ) :
    after snapshots clock moves (n + 1) = (after snapshots clock moves n).step (calm snapshots) (moves n) :=
  stateAt_succ n

theorem kept_after (n : ℕ) : Kept (calm snapshots) (after snapshots clock moves n) := kept_run _ _ _

theorem grown_after (h : Fair moves) {n m : ℕ} (hle : n ≤ m) :
    Grown (after snapshots clock moves n) (after snapshots clock moves m) := by
  induction hle with
  | refl => exact .refl _
  | step _ ih =>
    rw [after_succ]
    exact ih.trans (grown_step (h.forward _))

theorem running_after (h : Fair moves) (n : ℕ) : (after snapshots clock moves n).terminated = false := by
  induction n with
  | zero => rfl
  | succ n ih =>
    rw [after_succ]
    exact terminated_step (h.runs n) ih

theorem leadsTo_notified (h : Fair moves) (i : ℕ) :
    LeadsTo (after snapshots clock moves) (i < ·.arrived.length) (i < ·.notified.length) := by
  refine leadsTo_of_variant (fun p => 3 * (i + 1 - p.notified.length) + p.phase) ?_ ?_ h.sock_thread
  · intro n hmove hP _
    obtain ⟨hthread, hnotified⟩ := @sock_frame (calm snapshots) (after snapshots clock moves n) _ hmove
    refine .inr ⟨hP.trans_le (grown_after h n.le_succ).arrived.length_le, ?_⟩
    simp only [after_succ, phase, hthread, hnotified, le_refl]
  · intro n hmove hP hnot
    refine .inr ⟨hP.trans_le (grown_after h n.le_succ).arrived.length_le, ?_⟩
    rw [after_succ, hmove, (step_of_not_terminated (running_after h n)).1]
    exact sockStep_progress (kept_after n) hP (not_lt.1 hnot)

theorem leadsTo_put (h : Fair moves) (event : Event) :
    LeadsTo (after snapshots clock moves) (fun p => event ∈ accepted p.notified)
      (fun p => event ∈ eventsOf (p.put.map Prod.snd)) := by
  refine leadsTo_of_variant (fun _ => 0) ?_ ?_ h.sock_thread
  · intro n hmove hP _
    refine .inr ⟨?_, le_rfl⟩
    rw [after_succ, (sock_frame hmove).2]
    exact hP
  · intro n hmove hP hnot
    rw [(kept_after n).events, List.mem_append] at hP
    have hparsed := hP.resolve_left hnot
    left
    rw [after_succ, hmove, (step_of_not_terminated (running_after h n)).1]
    generalize after snapshots clock moves n = p at hparsed
    unfold parsed at hparsed
    unfold sockStep
    split at hparsed
    · rename_i hthread
      rw [List.mem_singleton.1 hparsed, hthread]
      simp [putTask, eventsOf, Job.event?]
    · exact absurd hparsed List.not_mem_nil
    · exact absurd hparsed List.not_mem_nil

theorem leadsTo_performed (h : Fair moves) (j : ℕ) :
    LeadsTo (after snapshots clock moves) (j < ·.put.length) (j < ·.performed.length) := by
  refine leadsTo_of_variant (fun p => 2 * (j + 1 - p.performed.length) + if p.worker_thread.isNone then 1 else 0)
    ?_ ?_ h.worker_thread
  · intro n hmove hP _
    obtain ⟨hworker, hperformed⟩ := @worker_frame (calm snapshots) (after snapshots clock moves n) _ hmove
    refine .inr ⟨hP.trans_le (grown_after h n.le_succ).put.length_le, ?_⟩
    simp only [after_succ, hworker, hperformed, le_refl]
  · intro n hmove hP hnot
    refine .inr ⟨hP.trans_le (grown_after h n.le_succ).put.length_le, ?_⟩
    rw [after_succ, hmove, (step_of_not_terminated (running_after h n)).2.2]
    exact workerStep_progress (kept_after n) hP (not_lt.1 hnot)

/-! ### A check is put -/

/-- The scheduler waits for `time`, when it is `bound` or later and `L` jobs have been put. -/
structure Waits (L : ℕ) (bound time : ℤ) (p : Pipeline) : Prop where
  put : L ≤ p.put.length
  clock : bound ≤ p.clock
  scheduler : p.scheduler = .waiting time

/-- Behind the first `L` jobs there is a check that was put at `bound` or later. -/
def ChecksFrom (L : ℕ) (bound : ℤ) (p : Pipeline) : Prop :=
  ∃ j ≥ L, ∃ t ≥ bound, p.put[j]? = some (t, .doCheckPendingEvent)

variable {L : ℕ} {bound time : ℤ}

theorem Waits.checksFrom (h : Waits L bound time p) (hle : time ≤ p.clock) : ChecksFrom L bound p.schedulerStep := by
  refine ⟨p.put.length, h.put, p.clock, h.clock, ?_⟩
  simp [schedulerStep, h.scheduler, putTask, not_lt.2 hle]

theorem Waits.step (h : Waits L bound time p) (hforward : move.Forward) (hmove : move ≠ .scheduler) :
    Waits L bound time (p.step disk move) where
  put := h.put.trans (grown_step hforward).put.length_le
  clock := h.clock.trans (grown_step hforward).clock
  scheduler := (scheduler_frame hmove).trans h.scheduler

theorem clock_elapse (hrunning : p.terminated = false) (microseconds : ℤ) :
    (p.step disk (.elapse microseconds)).clock = p.clock + microseconds := by
  simp [step, hrunning]

theorem leadsTo_clock (h : Fair moves) (L : ℕ) (bound : ℤ) :
    LeadsTo (after snapshots clock moves) (fun p => L ≤ p.put.length)
      (fun p => L ≤ p.put.length ∧ bound ≤ p.clock) := by
  refine leadsTo_of_variant (fun p => (bound - p.clock).toNat) ?_ ?_ h.clock
  · intro n _ hP _
    have hgrown : Grown (after snapshots clock moves n) (after snapshots clock moves (n + 1)) :=
      grown_after h n.le_succ
    have hclock := hgrown.clock
    exact .inr ⟨hP.trans hgrown.put.length_le, by omega⟩
  · rintro n ⟨microseconds, hpos, hmove⟩ hP hnot
    have hgrown : Grown (after snapshots clock moves n) (after snapshots clock moves (n + 1)) :=
      grown_after h n.le_succ
    refine .inr ⟨hP.trans hgrown.put.length_le, ?_⟩
    have hlate : ¬ bound ≤ (after snapshots clock moves n).clock := fun hle => hnot ⟨hP, hle⟩
    rw [after_succ, hmove, clock_elapse (running_after h n)]
    omega

theorem leadsTo_waits (h : Fair moves) (L : ℕ) (bound : ℤ) :
    LeadsTo (after snapshots clock moves) (fun p => L ≤ p.put.length ∧ bound ≤ p.clock)
      (fun p => ∃ time, Waits L bound time p) := by
  refine leadsTo_of_variant (fun _ => 0) ?_ ?_ h.scheduler
  · intro n _ hP _
    have hgrown : Grown (after snapshots clock moves n) (after snapshots clock moves (n + 1)) :=
      grown_after h n.le_succ
    exact .inr ⟨⟨hP.1.trans hgrown.put.length_le, hP.2.trans hgrown.clock⟩, le_rfl⟩
  · intro n hmove hP hnot
    left
    rw [after_succ, hmove, (step_of_not_terminated (running_after h n)).2.1]
    generalize after snapshots clock moves n = p at hP hnot
    cases hscheduler : p.scheduler with
    | waiting time => exact absurd ⟨time, hP.1, hP.2, hscheduler⟩ hnot
    | entering =>
      simp only [schedulerStep, hscheduler]
      exact ⟨_, hP.1, hP.2, rfl⟩

theorem leadsTo_due (h : Fair moves) (L : ℕ) (bound time : ℤ) :
    LeadsTo (after snapshots clock moves) (Waits L bound time)
      (fun p => ChecksFrom L bound p ∨ Waits L bound time p ∧ time ≤ p.clock) := by
  refine leadsTo_of_variant (fun p => (time - p.clock).toNat) ?_ ?_ h.clock
  · intro n _ hP hnot
    have hgrown : Grown (after snapshots clock moves n) (after snapshots clock moves (n + 1)) :=
      grown_after h n.le_succ
    have hclock := hgrown.clock
    by_cases hmove : moves n = .scheduler
    · have hlate : ¬ time ≤ (after snapshots clock moves n).clock := fun hle => hnot (.inr ⟨hP, hle⟩)
      refine .inr ⟨?_, by omega⟩
      rw [after_succ, hmove, (step_of_not_terminated (running_after h n)).2.1, schedulerStep, hP.scheduler]
      simp only [not_le.1 hlate, if_true]
      exact hP
    · refine .inr ⟨?_, by omega⟩
      rw [after_succ]
      exact hP.step (h.forward n) hmove
  · rintro n ⟨microseconds, hpos, hmove⟩ hP hnot
    have hlate : ¬ time ≤ (after snapshots clock moves n).clock := fun hle => hnot (.inr ⟨hP, hle⟩)
    refine .inr ⟨?_, ?_⟩
    · rw [after_succ]
      exact hP.step (h.forward n) (by rw [hmove]; exact fun heq => nomatch heq)
    · rw [after_succ, hmove, clock_elapse (running_after h n)]
      omega

/-- At any time a check will be put. -/
theorem leadsTo_checks (h : Fair moves) (L : ℕ) (bound : ℤ) :
    LeadsTo (after snapshots clock moves) (fun p => L ≤ p.put.length) (ChecksFrom L bound) := by
  refine (leadsTo_clock h L bound).trans ((leadsTo_waits h L bound).trans ?_)
  rintro n ⟨time, hwaits⟩
  obtain ⟨m, hm, hchecks | ⟨hwaits, hle⟩⟩ := leadsTo_due h L bound time n hwaits
  · exact ⟨m, hm, hchecks⟩
  · have hdue : LeadsTo (after snapshots clock moves) (fun p => Waits L bound time p ∧ time ≤ p.clock)
        (ChecksFrom L bound) := by
      refine leadsTo_of_variant (fun _ => 0) ?_ ?_ h.scheduler
      · intro n hmove hP _
        refine .inr ⟨⟨?_, hP.2.trans (grown_after h n.le_succ).clock⟩, le_rfl⟩
        rw [after_succ]
        exact hP.1.step (h.forward n) hmove
      · intro n hmove hP _
        left
        rw [after_succ, hmove, (step_of_not_terminated (running_after h n)).2.1]
        exact hP.1.checksFrom hP.2
    obtain ⟨k, hk, hchecks⟩ := hdue m ⟨hwaits, hle⟩
    exact ⟨k, le_trans hm hk, hchecks⟩

/-! ### A check is performed when it has been put -/

/-- No job was put later than now, and no check read the clock before it was put. -/
structure Timely (p : Pipeline) : Prop where
  put : ∀ entry ∈ p.put, entry.1 ≤ p.clock
  checks : ∀ (j : ℕ) (t now : ℤ), p.put[j]? = some (t, Job.doCheckPendingEvent) →
    p.performed[j]? = some (Task.check now) → t ≤ now

theorem Timely.later {q : Pipeline} (h : Timely p) (hclock : p.clock ≤ q.clock) (hput : q.put = p.put)
    (hperformed : q.performed = p.performed) : Timely q := by
  constructor
  · intro entry hentry
    rw [hput] at hentry
    exact (h.put entry hentry).trans hclock
  · rw [hput, hperformed]
    exact h.checks

theorem Timely.putTask (h : Timely p) (hkept : Kept disk p) (job : Job) : Timely (p.putTask job) := by
  have hle : p.performed.length ≤ p.put.length := by
    have hlen := congrArg List.length hkept.put
    simp only [List.length_map, List.length_append] at hlen
    omega
  constructor
  · intro entry hentry
    rcases List.mem_append.1 hentry with hentry | hentry
    · exact h.put entry hentry
    · exact (List.mem_singleton.1 hentry) ▸ le_rfl
  · intro j t now hput hperformed
    have hlt : j < p.performed.length := (List.getElem?_eq_some_iff.1 hperformed).1
    rw [Pipeline.putTask, List.getElem?_append_left (hlt.trans_le hle)] at hput
    exact h.checks j t now hput hperformed

theorem Timely.workerStep (h : Timely p) : Timely (p.workerStep disk) := by
  unfold Pipeline.workerStep
  split
  · split <;> exact ⟨h.put, h.checks⟩
  · refine ⟨h.put, ?_⟩
    intro j t now hput hperformed
    rcases Nat.lt_or_ge j p.performed.length with hlt | hge
    · rw [List.getElem?_append_left hlt] at hperformed
      exact h.checks j t now hput hperformed
    · rw [List.getElem?_append_right hge, List.getElem?_singleton] at hperformed
      split at hperformed
      · rename_i job _ _
        cases job with
        | doProcessEvent event => cases hperformed
        | doCheckPendingEvent =>
          cases hperformed
          exact h.put _ (List.mem_of_getElem? hput)
      · cases hperformed

theorem Timely.step (h : Timely p) (hkept : Kept disk p) (hmove : move.Forward) : Timely (p.step disk move) := by
  unfold Pipeline.step
  split
  · exact h
  · cases move with
    | elapse microseconds => exact h.later (le_add_of_nonneg_right hmove) rfl rfl
    | kernel message => exact h.later le_rfl rfl rfl
    | recvFails =>
      dsimp only
      split <;> exact h.later le_rfl rfl rfl
    | sock_thread =>
      dsimp only
      unfold sockStep
      split
      · split <;> exact h.later le_rfl rfl rfl
      · exact h.later le_rfl rfl rfl
      · exact (h.putTask hkept _).later le_rfl rfl rfl
    | scheduler =>
      dsimp only
      unfold schedulerStep
      split
      · split
        · exact h
        · exact (h.putTask hkept _).later le_rfl rfl rfl
      · exact h.later le_rfl rfl rfl
    | worker_thread => exact h.workerStep

theorem timely_after (h : Fair moves) (n : ℕ) : Timely (after snapshots clock moves n) := by
  induction n with
  | zero => exact ⟨List.forall_mem_nil _, fun j t now hput => by simp [after, stateAt, run, start] at hput⟩
  | succ n ih =>
    rw [after_succ]
    exact ih.step (kept_after n) (h.forward n)

/-! ### Every event is delivered -/

theorem Kept.performed_job (h : Kept disk p) {j : ℕ} (hlt : j < p.performed.length) {t : ℤ} {job : Job}
    (hput : p.put[j]? = some (t, job)) : ∃ task, p.performed[j]? = some task ∧ task.job = job := by
  have hjob : (p.put.map Prod.snd)[j]? = some job := by rw [List.getElem?_map, hput, Option.map_some]
  have hmap : j < (p.performed.map Task.job).length := by rwa [List.length_map]
  rw [h.put, List.append_assoc, List.getElem?_append_left hmap, List.getElem?_map, Option.map_eq_some_iff] at hjob
  exact hjob

theorem exists_split {α : Type} {l : List α} {i j : ℕ} {a b : α} (hij : i < j) (ha : l[i]? = some a)
    (hb : l[j]? = some b) : ∃ before rest, l = before ++ b :: rest ∧ a ∈ before := by
  obtain ⟨hlt, rfl⟩ := List.getElem?_eq_some_iff.1 hb
  refine ⟨l.take j, l.drop (j + 1), ?_, ?_⟩
  · rw [List.getElem_cons_drop, List.take_append_drop]
  · rw [List.mem_iff_getElem?]
    exact ⟨i, by rw [List.getElem?_take_of_lt hij, ha]⟩

theorem Kept.count_eq_one (h : Kept (calm snapshots) p) {event : Event} {e : DeviceEvent}
    (hadd : event.passes "add" = some e) {j₀ j : ℕ} {now : ℤ} (hlt : j₀ < j)
    (hprocess : p.performed[j₀]? = some (.process event)) (hcheck : p.performed[j]? = some (.check now))
    (hold : e.IsExpired now) : (p.monitor.reported ++ p.monitor.expired).count e = 1 := by
  obtain ⟨before, rest, hperformed, hmem⟩ := exists_split hlt hprocess hcheck
  have hnodup : (adds p.performed).Nodup := by
    have hall := nodup_addsOf_accepted p.notified
    rw [h.addsOf_eq] at hall
    exact (List.nodup_append.1 hall).1
  have hadds : adds p.performed = adds before ++ adds rest := by
    rw [hperformed, adds, List.filterMap_append]
    rfl
  have hbefore : e ∈ adds before := List.mem_filterMap.2 ⟨_, hmem, hadd⟩
  have hrest : e ∉ adds rest := by
    rw [hadds] at hnodup
    exact (List.disjoint_of_nodup_append hnodup) hbefore
  have hpending : e ∉ p.monitor.pending_event_list := by
    intro hpending
    rw [h.monitor, hperformed] at hpending
    exact (pending_run _ before rest now hpending).elim (· hold) hrest
  have haccount : Account (adds p.performed) (Monitor.run (calm snapshots) p.performed) [] := account_run _
  have hperm := haccount.perm.count_eq e
  rw [List.nil_append, ← h.monitor, List.append_assoc, List.count_append, List.count_eq_zero.2 hpending, Nat.zero_add,
    List.count_eq_one_of_mem hnodup (hadds ▸ List.mem_append_left _ hbefore)] at hperm
  exact hperm.symm

theorem mem_accepted {notified : List (ℤ × Bytes)} {i : ℕ} {now : ℤ} {message : Bytes} {event : Event}
    (h : notified[i]? = some (now, message)) (hevent : onReceiveUevent i now message = some event) :
    event ∈ accepted notified :=
  List.mem_filterMap.2 ⟨((now, message), i), List.mem_zipIdx_iff_getElem?.2 h, hevent⟩

theorem Kept.notified_message (h : Kept disk p) {i : ℕ} {message : Bytes} (harrived : p.arrived[i]? = some message)
    (hlt : i < p.notified.length) : ∃ now, p.notified[i]? = some (now, message) := by
  have hmap : i < (p.notified.map Prod.snd).length := by rwa [List.length_map]
  rw [h.arrived, List.append_assoc, List.getElem?_append_left hmap, List.getElem?_map, Option.map_eq_some_iff]
    at harrived
  obtain ⟨⟨now, message'⟩, hnotified, rfl⟩ := harrived
  exact ⟨now, hnotified⟩

theorem getElem?_of_initial {α : Type} {l l' : List α} (h : l <+: l') {i : ℕ} {a : α} (ha : l[i]? = some a) :
    l'[i]? = some a := by
  obtain ⟨rest, rfl⟩ := h
  rw [List.getElem?_append_left (List.getElem?_eq_some_iff.1 ha).1, ha]

/-- An add event that was accepted is delivered. -/
theorem exists_delivered (h : Fair moves) {event : Event} {e : DeviceEvent} (hadd : event.passes "add" = some e)
    {n : ℕ} (haccepted : event ∈ accepted (after snapshots clock moves n).notified) :
    ∃ N, ∀ m ≥ N, ((after snapshots clock moves m).monitor.reported ++
      (after snapshots clock moves m).monitor.expired).count e = 1 := by
  -- its job is put
  obtain ⟨n₁, -, hput⟩ := leadsTo_put h event n haccepted
  obtain ⟨job, hjob, hevent⟩ := List.mem_filterMap.1 hput
  obtain ⟨⟨t₀, job'⟩, hmem, rfl⟩ := List.mem_map.1 hjob
  obtain ⟨j₀, hj₀⟩ := List.mem_iff_getElem?.1 hmem
  obtain rfl : job' = .doProcessEvent event := by
    cases job' with
    | doProcessEvent event' => exact congrArg Job.doProcessEvent (Option.some.inj hevent)
    | doCheckPendingEvent => cases hevent
  -- and behind it a check, when the event is too old for it
  obtain ⟨n₂, hn₂, j, hj, t, ht, hcheck⟩ := leadsTo_checks h (j₀ + 1) (event.receive_time + pendingExpiredTime + 1) n₁
    (List.getElem?_eq_some_iff.1 hj₀).1
  obtain ⟨n₃, hn₃, hlt⟩ := leadsTo_performed h j n₂ (List.getElem?_eq_some_iff.1 hcheck).1
  refine ⟨n₃, fun m hm => ?_⟩
  have hkept : Kept (calm snapshots) (after snapshots clock moves m) := kept_after m
  have hgrown : Grown (after snapshots clock moves n₃) (after snapshots clock moves m) := grown_after h hm
  have hj₀ := getElem?_of_initial (grown_after h (hn₂.trans (le_trans hn₃ hm))).put hj₀
  have hcheck := getElem?_of_initial (grown_after h (le_trans hn₃ hm)).put hcheck
  have hlt := hlt.trans_le hgrown.performed.length_le
  obtain ⟨task₀, hprocess, htask₀⟩ := hkept.performed_job (by omega) hj₀
  obtain ⟨task, hperformed, htask⟩ := hkept.performed_job hlt hcheck
  cases task₀ with
  | check now => cases htask₀
  | process event' =>
    obtain rfl : event' = event := Job.doProcessEvent.inj htask₀
    cases task with
    | process event'' => cases htask
    | check now =>
      have hnow := (timely_after h m).checks j t now hcheck hperformed
      apply hkept.count_eq_one hadd hj hprocess hperformed
      rw [DeviceEvent.IsExpired, event_of_passes hadd]
      omega

/-- In every run in which each thread goes on, time passes, and neither `recv` nor `disk_partitions` fails: every
message that arrives is shown to the observer at some time `now`, as the same one in the order of arrival, and if an
add event of a partition is made of it, that is from some point on either reported or expired, once. -/
theorem delivered (snapshots : ℕ → List Partition) (clock : ℤ) {moves : ℕ → Move} (h : Fair moves) (n i : ℕ)
    {message : Bytes} (harrived : (after snapshots clock moves n).arrived[i]? = some message) :
    ∃ now N, ∀ m ≥ N, (after snapshots clock moves m).notified[i]? = some (now, message) ∧
      ∀ event e, onReceiveUevent i now message = some event → event.passes "add" = some e →
        ((after snapshots clock moves m).monitor.reported ++
          (after snapshots clock moves m).monitor.expired).count e = 1 := by
  obtain ⟨n₁, hn₁, hlt₁⟩ := leadsTo_notified h i n (List.getElem?_eq_some_iff.1 harrived).1
  obtain ⟨now, hnotified⟩ := (kept_after n₁).notified_message
    (getElem?_of_initial (grown_after h hn₁).arrived harrived) hlt₁
  have hlater : ∀ m ≥ n₁, (after snapshots clock moves m).notified[i]? = some (now, message) :=
    fun m hm => getElem?_of_initial (grown_after h hm).notified hnotified
  by_cases hevent : ∃ event e, onReceiveUevent i now message = some event ∧ event.passes "add" = some e
  · obtain ⟨event, e, hevent, hadd⟩ := hevent
    obtain ⟨N, hN⟩ := exists_delivered h hadd (mem_accepted hnotified hevent)
    refine ⟨now, max n₁ N, fun m hm => ⟨hlater m (by omega), ?_⟩⟩
    intro event' e' hevent' hadd'
    obtain rfl : event' = event := Option.some.inj (hevent'.symm.trans hevent)
    obtain rfl : e' = e := Option.some.inj (hadd'.symm.trans hadd)
    exact hN m (by omega)
  · exact ⟨now, n₁, fun m hm => ⟨hlater m hm, fun event e h₁ h₂ => absurd ⟨event, e, h₁, h₂⟩ hevent⟩⟩

/-- The threads in turn, when one message arrives. -/
def inTurn (message : Bytes) (k : ℕ) : Move :=
  if k = 0 then .kernel message
  else
    match k % 4 with
    | 0 => .elapse 1
    | 1 => .sock_thread
    | 2 => .scheduler
    | _ => .worker_thread

theorem frequently_mod (r : ℕ) (hr : r < 4) : ∃ᶠ k : ℕ in atTop, k % 4 = r ∧ k ≠ 0 := by
  rw [frequently_atTop]
  exact fun n => ⟨4 * (n + 1) + r, by omega, by omega, by omega⟩

theorem fair_inTurn (message : Bytes) : Fair (inTurn message) := by
  have hcases : ∀ k, inTurn message k = .kernel message ∨ inTurn message k = .elapse 1 ∨
      inTurn message k = .sock_thread ∨ inTurn message k = .scheduler ∨ inTurn message k = .worker_thread := by
    intro k
    unfold inTurn
    split
    · exact .inl rfl
    · split <;> simp
  have hmod : ∀ r k, k % 4 = r ∧ k ≠ 0 → inTurn message k =
      match r with
      | 0 => .elapse 1
      | 1 => .sock_thread
      | 2 => .scheduler
      | _ => .worker_thread := by
    rintro r k ⟨rfl, hk⟩
    rw [inTurn, if_neg hk]
  constructor
  · intro k
    rcases hcases k with h | h | h | h | h <;> simp [h]
  · intro k
    rcases hcases k with h | h | h | h | h <;> simp [h, Move.Forward]
  · exact (frequently_mod 0 (by decide)).mono fun k hk => ⟨1, by decide, hmod 0 k hk⟩
  · exact (frequently_mod 1 (by decide)).mono fun k hk => hmod 1 k hk
  · exact (frequently_mod 2 (by decide)).mono fun k hk => hmod 2 k hk
  · exact (frequently_mod 3 (by decide)).mono fun k hk => hmod 3 k hk

/-- What the kernel sends for a partition of a stick. -/
def stick : Bytes :=
  ascii "add@/devices/usb/sdb1" ++ 0 :: ascii "ACTION=add" ++ 0 :: ascii "DEVTYPE=partition" ++ 0 ::
    ascii "DEVNAME=/dev/sdb1"

/-- The message of a stick that is never mounted. -/
theorem delivered_stick :
    ∃ now N, ∀ m ≥ N, (after (fun _ => []) 0 (inTurn stick) m).notified[0]? = some (now, stick) ∧
      ∀ event e, onReceiveUevent 0 now stick = some event → event.passes "add" = some e →
        ((after (fun _ => []) 0 (inTurn stick) m).monitor.reported ++
          (after (fun _ => []) 0 (inTurn stick) m).monitor.expired).count e = 1 :=
  delivered (fun _ => []) 0 (fair_inTurn stick) 1 0 rfl

/-! ### The checks do not pile up -/

/-- When the checks were put. -/
def checkTimes (p : Pipeline) : List ℤ := (p.put.filter (·.2 = .doCheckPendingEvent)).map Prod.fst

theorem checkTimes_putTask (p : Pipeline) (job : Job) :
    (p.putTask job).checkTimes = p.checkTimes ++ if job = .doCheckPendingEvent then [p.clock] else [] := by
  rw [checkTimes, putTask, List.filter_append, List.map_append, ← checkTimes]
  split_ifs with hjob <;> simp [hjob]

/-- Two checks are put five seconds apart, and the first five seconds after the start. -/
structure Spaced (clock : ℤ) (p : Pipeline) : Prop where
  pairwise : p.checkTimes.Pairwise (· + pendingCheckInterval ≤ ·)
  past : ∀ t ∈ p.checkTimes, clock + pendingCheckInterval ≤ t ∧ t ≤ p.clock
  started : clock ≤ p.clock
  next : ∀ time, p.scheduler = .waiting time →
    clock + pendingCheckInterval ≤ time ∧ ∀ t ∈ p.checkTimes, t + pendingCheckInterval ≤ time

theorem Spaced.later {q : Pipeline} (h : Spaced clock p) (hclock : p.clock ≤ q.clock)
    (htimes : q.checkTimes = p.checkTimes) (hscheduler : q.scheduler = p.scheduler) : Spaced clock q := by
  refine ⟨?_, ?_, h.started.trans hclock, ?_⟩
  · rw [htimes]
    exact h.pairwise
  · rw [htimes]
    exact fun t ht => ⟨(h.past t ht).1, (h.past t ht).2.trans hclock⟩
  · rw [htimes, hscheduler]
    exact h.next

theorem Spaced.schedulerStep (h : Spaced clock p) : Spaced clock p.schedulerStep := by
  unfold Pipeline.schedulerStep
  split
  · rename_i time hscheduler
    split_ifs with hlate
    · exact h
    · obtain ⟨hstart, hnext⟩ := h.next time hscheduler
      have hle := not_lt.1 hlate
      have htimes : ({ p.putTask .doCheckPendingEvent with scheduler := .entering } : Pipeline).checkTimes =
          p.checkTimes ++ [p.clock] :=
        (checkTimes_putTask p .doCheckPendingEvent).trans (by rw [if_pos rfl])
      refine ⟨?_, ?_, h.started, fun _ hwaits => nomatch hwaits⟩
      · rw [htimes, List.pairwise_append]
        refine ⟨h.pairwise, List.pairwise_singleton _ _, fun t ht t' ht' => ?_⟩
        rw [List.mem_singleton.1 ht']
        exact (hnext t ht).trans hle
      · rw [htimes]
        intro t ht
        rcases List.mem_append.1 ht with ht | ht
        · exact h.past t ht
        · rw [List.mem_singleton.1 ht]
          exact ⟨hstart.trans hle, le_rfl⟩
  · refine ⟨h.pairwise, h.past, h.started, ?_⟩
    rintro time hwaits
    obtain rfl := Scheduler.waiting.inj hwaits
    exact ⟨Int.add_le_add_right h.started _, fun t ht => Int.add_le_add_right (h.past t ht).2 _⟩

theorem Spaced.step (h : Spaced clock p) (hmove : move.Forward) : Spaced clock (p.step disk move) := by
  unfold Pipeline.step
  split
  · exact h
  · cases move with
    | elapse microseconds => exact h.later (le_add_of_nonneg_right hmove) rfl rfl
    | kernel message => exact h.later le_rfl rfl rfl
    | recvFails =>
      dsimp only
      split <;> exact h.later le_rfl rfl rfl
    | sock_thread =>
      dsimp only
      unfold sockStep
      split
      · split <;> exact h.later le_rfl rfl rfl
      · exact h.later le_rfl rfl rfl
      · rename_i event _
        have htimes := checkTimes_putTask p (.doProcessEvent event)
        rw [if_neg (fun heq => nomatch heq), List.append_nil] at htimes
        exact h.later le_rfl htimes rfl
    | scheduler => exact h.schedulerStep
    | worker_thread =>
      dsimp only
      unfold workerStep
      split
      · split <;> exact h.later le_rfl rfl rfl
      · exact h.later le_rfl rfl rfl

theorem spaced_start : Spaced clock (start disk clock) :=
  ⟨.nil, List.forall_mem_nil _, le_rfl, fun _ hwaits => nomatch hwaits⟩

/-- In every run in which the clock does not go back, whatever else happens in it: two checks are put five seconds
apart or more, and so is the first from the start. -/
theorem checks_spaced (disk : ℕ → Except Raised (List Partition)) (clock : ℤ) {moves : List Move}
    (h : ∀ move ∈ moves, move.Forward) :
    let p := run (step disk) (start disk clock) moves
    p.checkTimes.Pairwise (· + pendingCheckInterval ≤ ·) ∧
      ∀ t ∈ p.checkTimes, clock + pendingCheckInterval ≤ t ∧ t ≤ p.clock := by
  have hspaced : Spaced clock (run (step disk) (start disk clock) moves) := by
    induction moves using List.reverseRecOn with
    | nil => exact spaced_start
    | append_singleton moves move ih =>
      rw [run_append, run_singleton]
      exact (ih fun m hm => h m (List.mem_append_left _ hm)).step (h move (by simp))
  exact ⟨hspaced.pairwise, hspaced.past⟩

/-- Ten seconds, with a scheduler that is looked at every time. -/
theorem checks_spaced_ten :
    let moves : List Move :=
      [.scheduler, .elapse 5000000, .scheduler, .scheduler, .elapse 3000000, .scheduler, .elapse 2000000, .scheduler]
    (run (step (calm fun _ => [])) (start (calm fun _ => []) 0) moves).checkTimes = [5000000, 10000000] ∧
      (run (step (calm fun _ => [])) (start (calm fun _ => []) 0) moves).checkTimes.Pairwise
        (· + pendingCheckInterval ≤ ·) :=
  ⟨by decide, (checks_spaced (calm fun _ => []) 0 (by decide)).1⟩

end

end Pipeline

end NetProg.Uevent
