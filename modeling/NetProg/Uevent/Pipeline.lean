import NetProg.Uevent.Conservation
import NetProg.Uevent.Decode

/-!
# The threads of the uevent monitor

The whole of `uevent_monitor2.py` next to the thread of `netlink.cpp`, with a step for everything that another
thread can come before. The thread of the socket takes a message (`recv`), makes an event of it with the time that
it is then (`onReceiveUevent`) and puts a task into the queue; the main thread puts a check every five seconds; the
worker thread takes the tasks out and performs them, a check with the time of its beginning. The pending list and
the dictionary of mountpoints belong to the worker alone, so a task is one step.

`Kept` holds of every state in which a run of these threads ends: the monitor has performed the tasks that were
put, in order and each once, and the events among them are those of the messages received. So no message is lost or
taken twice on its way, whatever the threads do in between (`account_pipeline`).
-/

namespace NetProg.Uevent
open Lib (run run_append run_singleton)

/-- A `functools.partial` in the queue. -/
inductive Job
  | doProcessEvent (event : Event)
  | doCheckPendingEvent
  deriving DecidableEq, Repr

/-- The event that a task was made for. -/
def Job.event? : Job → Option Event
  | .doProcessEvent event => some event
  | .doCheckPendingEvent => none

/-- The task, when it is called at the time `now`. -/
def Job.task (now : ℤ) : Job → Task
  | .doProcessEvent event => .process event
  | .doCheckPendingEvent => .check now

/-- The task, without the time at which it was called. -/
def Task.job : Task → Job
  | .process event => .doProcessEvent event
  | .check _ => .doCheckPendingEvent

@[simp] theorem job_task (now : ℤ) (job : Job) : (job.task now).job = job := by
  cases job <;> rfl

/-- Where the thread of the socket is: in `recv`, about to notify the observer of a message, or about to put the
task with an event. -/
inductive SockThread
  | receiving
  | notifying (message : Bytes)
  | putting (event : Event)
  deriving DecidableEq, Repr

/-- Where the main thread is: in `scheduler.run` with the time of the next check, or about to enter one. -/
inductive Scheduler
  | waiting (time : ℤ)
  | entering
  deriving DecidableEq, Repr

/-- The process, with what has happened in it so far: the messages that arrived, those that the observer was
notified of with the times, the jobs that were put with the times, and the tasks performed. -/
structure Pipeline where
  clock : ℤ
  socket : List Bytes
  sock_thread : SockThread
  scheduler : Scheduler
  task_queue : List Job
  worker_thread : Option Job
  monitor : Monitor
  /-- `std::terminate` was called. -/
  terminated : Bool
  arrived : List Bytes
  notified : List (ℤ × Bytes)
  put : List (ℤ × Job)
  performed : List Task
  deriving DecidableEq, Repr

/-- `pending_check_interval_sec`, in microseconds. -/
def pendingCheckInterval : ℤ := 5 * 1000000

/-- What `onReceiveUevent` makes of a message that `recv(4096)` has taken, if it is not an `"invalid message"`. -/
def onReceiveUevent (seq : ℕ) (now : ℤ) (message : Bytes) : Option Event :=
  let data := toStr (NetlinkUeventMonitor.recv 4096 message)
  if data.length < 32 then none else some (parserRawData seq now data)

/-- What can happen next. -/
inductive Move
  /-- Time passes. -/
  | elapse (microseconds : ℤ)
  /-- A message comes into the socket. -/
  | kernel (message : Bytes)
  /-- `recv` fails. Nobody catches the exception in the thread of the socket. -/
  | recvFails
  | sock_thread
  | scheduler
  | worker_thread
  deriving DecidableEq, Repr

namespace Pipeline

/-- `putTask`, by either of the two threads that do. -/
def putTask (p : Pipeline) (job : Job) : Pipeline :=
  { p with task_queue := p.task_queue ++ [job], put := p.put ++ [(p.clock, job)] }

/-- The loop of `NetlinkUeventMonitor::run`. -/
def sockStep (p : Pipeline) : Pipeline :=
  match p.sock_thread with
  | .receiving =>
    match p.socket with
    | [] => p
    | message :: socket => { p with socket, sock_thread := .notifying message }
  | .notifying message =>
    { p with
      sock_thread :=
        match onReceiveUevent p.notified.length p.clock message with
        | none => .receiving
        | some event => .putting event
      notified := p.notified ++ [(p.clock, message)] }
  | .putting event => { p.putTask (.doProcessEvent event) with sock_thread := .receiving }

/-- `scheduler.run()` with `checkPendingEvent` as the only thing to do. -/
def schedulerStep (p : Pipeline) : Pipeline :=
  match p.scheduler with
  | .waiting time =>
    if time > p.clock then p else { p.putTask .doCheckPendingEvent with scheduler := .entering }
  | .entering => { p with scheduler := .waiting (p.clock + pendingCheckInterval) }

section

variable (disk : ℕ → Except Raised (List Partition))

/-- The loop of `WorkerThread.run`. -/
def workerStep (p : Pipeline) : Pipeline :=
  match p.worker_thread with
  | none =>
    match p.task_queue with
    | [] => p
    | job :: task_queue => { p with task_queue, worker_thread := some job }
  | some job =>
    { p with
      worker_thread := none
      monitor := perform disk p.monitor (job.task p.clock)
      performed := p.performed ++ [job.task p.clock] }

/-- One move of the kernel, of the clock or of a thread. -/
def step (p : Pipeline) (move : Move) : Pipeline :=
  if p.terminated then p
  else
    match move with
    | .elapse microseconds => { p with clock := p.clock + microseconds }
    | .kernel message => { p with socket := p.socket ++ [message], arrived := p.arrived ++ [message] }
    | .recvFails =>
      match p.sock_thread with
      | .receiving => { p with terminated := true }
      | .notifying _ | .putting _ => p
    | .sock_thread => p.sockStep
    | .scheduler => p.schedulerStep
    | .worker_thread => p.workerStep disk

/-- `UeventMonitor.run`, at the time `clock`. The process ends with an exception of the first
`updateMountpoint`. -/
def start (clock : ℤ) : Pipeline where
  clock
  socket := []
  sock_thread := .receiving
  scheduler := .entering
  task_queue := []
  worker_thread := none
  monitor := .started disk
  terminated :=
    match updateMountpoint disk .init with
    | .ok _ _ => false
    | .error _ _ => true
  arrived := []
  notified := []
  put := []
  performed := []

end

/-! ### What a step does -/

section

variable {p : Pipeline}

/-- The message that the thread of the socket has taken and not yet shown to the observer. -/
def taken (p : Pipeline) : List Bytes :=
  match p.sock_thread with
  | .notifying message => [message]
  | .receiving | .putting _ => []

/-- The event that it has not put yet. -/
def parsed (p : Pipeline) : List Event :=
  match p.sock_thread with
  | .putting event => [event]
  | .receiving | .notifying _ => []

/-- The events of the messages that the observer was notified of. -/
def accepted (notified : List (ℤ × Bytes)) : List Event :=
  notified.zipIdx.filterMap fun entry => onReceiveUevent entry.2 entry.1.1 entry.1.2

theorem accepted_concat (notified : List (ℤ × Bytes)) (now : ℤ) (message : Bytes) :
    accepted (notified ++ [(now, message)]) =
      accepted notified ++ (onReceiveUevent notified.length now message).toList := by
  rw [accepted, List.zipIdx_append, List.filterMap_append, ← accepted]
  simp only [List.zipIdx_cons, List.zipIdx_nil, Nat.zero_add, List.filterMap_cons, List.filterMap_nil]
  cases onReceiveUevent notified.length now message <;> rfl

/-- The events of some jobs. -/
def eventsOf (jobs : List Job) : List Event := jobs.filterMap Job.event?

theorem eventsOf_append (jobs jobs' : List Job) : eventsOf (jobs ++ jobs') = eventsOf jobs ++ eventsOf jobs' :=
  List.filterMap_append

/-- Nothing was lost on the way so far, or taken twice. -/
structure Kept (disk : ℕ → Except Raised (List Partition)) (p : Pipeline) : Prop where
  arrived : p.arrived = p.notified.map Prod.snd ++ p.taken ++ p.socket
  events : accepted p.notified = eventsOf (p.put.map Prod.snd) ++ p.parsed
  put : p.put.map Prod.snd = p.performed.map Task.job ++ p.worker_thread.toList ++ p.task_queue
  monitor : p.monitor = Monitor.run disk p.performed

variable {disk : ℕ → Except Raised (List Partition)}

theorem Kept.sockStep (h : Kept disk p) : Kept disk p.sockStep := by
  obtain ⟨harrived, hevents, hput, hmonitor⟩ := h
  unfold Pipeline.sockStep
  split
  · rename_i hthread
    simp only [taken, parsed, hthread] at harrived hevents
    split
    · exact ⟨by simpa only [taken, hthread] using harrived, by simpa only [parsed, hthread] using hevents, hput, hmonitor⟩
    · rename_i message socket hsocket
      rw [hsocket, List.append_nil] at harrived
      refine ⟨?_, hevents, hput, hmonitor⟩
      simp only [taken, List.append_assoc, List.singleton_append]
      exact harrived
  · rename_i message hthread
    simp only [taken, parsed, hthread, List.append_nil] at harrived hevents
    refine ⟨?_, ?_, hput, hmonitor⟩
    · rw [List.map_append, harrived]
      simp only [taken]
      cases onReceiveUevent p.notified.length p.clock message <;> simp
    · rw [accepted_concat, hevents]
      simp only [parsed]
      cases onReceiveUevent p.notified.length p.clock message <;> rfl
  · rename_i event hthread
    simp only [taken, parsed, hthread, List.append_nil] at harrived hevents
    refine ⟨?_, ?_, ?_, hmonitor⟩
    · simpa only [taken, putTask, List.append_nil] using harrived
    · simp only [putTask, parsed, List.map_append, eventsOf_append, hevents, List.append_nil]
      rfl
    · simp only [putTask, List.map_append, List.map_cons, List.map_nil, hput, List.append_assoc]

theorem Kept.schedulerStep (h : Kept disk p) : Kept disk p.schedulerStep := by
  unfold Pipeline.schedulerStep
  split
  · split
    · exact h
    · refine ⟨h.arrived, ?_, ?_, h.monitor⟩
      · rw [putTask, List.map_append, eventsOf_append, List.append_assoc]
        exact h.events
      · simp only [putTask, List.map_append, List.map_cons, List.map_nil, h.put, List.append_assoc]
  · exact ⟨h.arrived, h.events, h.put, h.monitor⟩

theorem Kept.workerStep (h : Kept disk p) : Kept disk (p.workerStep disk) := by
  obtain ⟨harrived, hevents, hput, hmonitor⟩ := h
  unfold Pipeline.workerStep
  split
  · rename_i hworker
    rw [hworker, Option.toList_none, List.append_nil] at hput
    split
    · refine ⟨harrived, hevents, ?_, hmonitor⟩
      rw [hworker, Option.toList_none, List.append_nil]
      exact hput
    · rename_i job task_queue hqueue
      refine ⟨harrived, hevents, ?_, hmonitor⟩
      rw [hput, hqueue, Option.toList_some, List.append_assoc, List.singleton_append]
  · rename_i job hworker
    refine ⟨harrived, hevents, ?_, ?_⟩
    · rw [hput, hworker, List.map_append, List.map_cons, List.map_nil, job_task, Option.toList_some,
        Option.toList_none, List.append_nil]
    · rw [Monitor.run, run_append, ← Monitor.run, ← hmonitor, run_singleton]

theorem Kept.step (h : Kept disk p) (move : Move) : Kept disk (p.step disk move) := by
  unfold Pipeline.step
  split
  · exact h
  · cases move with
    | elapse microseconds => exact ⟨h.arrived, h.events, h.put, h.monitor⟩
    | kernel message =>
      refine ⟨?_, h.events, h.put, h.monitor⟩
      simp only [h.arrived, List.append_assoc]
      rfl
    | recvFails =>
      dsimp only
      split
      · exact ⟨h.arrived, h.events, h.put, h.monitor⟩
      · exact h
      · exact h
    | sock_thread => exact h.sockStep
    | scheduler => exact h.schedulerStep
    | worker_thread => exact h.workerStep

variable (disk) in
theorem kept_start (clock : ℤ) : Kept disk (start disk clock) := ⟨rfl, rfl, rfl, rfl⟩

variable (disk) in
theorem kept_run (clock : ℤ) (moves : List Move) : Kept disk (run (Pipeline.step disk) (start disk clock) moves) :=
  Lib.run_stable (fun _ move h => h.step move) (kept_start disk clock) moves

end

/-! ### The add events -/

section

variable {disk : ℕ → Except Raised (List Partition)} {m : Monitor} {e : DeviceEvent} {rest : List DeviceEvent}

/-- The events in the hands of the monitor, and the `rest` that it has taken up. -/
def held (m : Monitor) (rest : List DeviceEvent) : List DeviceEvent :=
  rest ++ (m.pending_event_list ++ m.reported ++ m.expired)

theorem account_held (m : Monitor) (rest : List DeviceEvent) :
    Account (m.pending_event_list ++ rest ++ (m.reported ++ m.expired)) m rest := by
  refine ⟨?_, List.sublist_append_left _ _⟩
  simp only [List.append_assoc]
  exact List.perm_append_comm_assoc _ _ _

theorem held_afterAdd (partitions : List Partition) :
    (held m (e :: rest)).Perm (held (m.afterAdd e partitions) rest) :=
  (account_held m (e :: rest)).perm.symm.trans ((account_held m (e :: rest)).afterAdd partitions).perm

theorem held_expire : (held m (e :: rest)).Perm (held (m.logged (.expired e)) rest) :=
  (account_held m (e :: rest)).perm.symm.trans (account_held m (e :: rest)).expire.perm

theorem held_note {entry : Entry} (hreported : entry.reported? = none) (hexpired : entry.expired? = none) :
    held (m.logged entry) rest = held m rest := by
  simp only [held, m.reported_eq hreported, m.expired_eq hexpired]
  rfl

theorem held_swap (m : Monitor) :
    held { m with pending_event_list := [] } m.pending_event_list = held m [] := by
  simp only [held, List.nil_append, List.append_assoc]
  rfl

theorem held_perform {given : List DeviceEvent} (task : Task) (h : (held m []).Subperm given) :
    (held (perform disk m task) []).Subperm (given ++ task.add?.toList) := by
  cases task with
  | check now =>
    rw [Task.add?, Option.toList_none, List.append_nil]
    exact check_rule (I := fun m rest => (held m rest).Subperm given) (J := fun m => (held m []).Subperm given) now
      (fun _ _ _ _ hI => held_expire.symm.subperm.trans hI)
      (fun _ _ _ partitions _ _ hI => (held_afterAdd partitions).symm.subperm.trans hI)
      (fun m e rest raised _ _ hI => by
        rw [held_note rfl rfl]
        exact (List.sublist_append_right (e :: rest) (held m [])).subperm.trans hI)
      (fun _ hI => hI) (held_swap m ▸ h)
  | process event =>
    have hprocessed : Processed disk m event _ := perform_process event
    generalize perform disk m (.process event) = m' at hprocessed ⊢
    rw [Task.add?]
    cases hprocessed with
    | @add e partitions hadd hdisk =>
      rw [hadd, held_note rfl rfl]
      exact (held_afterAdd partitions).symm.subperm.trans
        ((List.perm_append_singleton e given).symm.subperm_left.1 ((List.subperm_cons e).2 h))
    | @addRaised e raised hadd hdisk =>
      rw [hadd, held_note rfl rfl]
      exact List.Subperm.trans h (List.sublist_append_left given [e]).subperm
    | remove hremove hadd =>
      rw [hadd, held_note rfl rfl, held_note (reported?_removal m _) (expired?_removal m _), Option.toList_none,
        List.append_nil]
      exact h
    | other hnote hadd hremove =>
      rw [hadd, held_note hnote.reported?_eq hnote.expired?_eq, Option.toList_none, List.append_nil]
      exact h

end

/-! ### Every event once -/

section

variable {disk : ℕ → Except Raised (List Partition)}

theorem adds_concat (tasks : List Task) (task : Task) : adds (tasks ++ [task]) = adds tasks ++ task.add?.toList := by
  rw [adds, List.filterMap_append, ← adds]
  cases hadd : task.add? <;> simp [hadd]

theorem held_started : held (Monitor.started disk) [] = [] := by
  unfold Monitor.started
  cases hdisk : disk Monitor.init.diskCalls with
  | ok partitions =>
    rw [updateMountpoint_ok hdisk]
    rfl
  | error raised =>
    rw [updateMountpoint_error hdisk]
    rfl

variable (disk) in
theorem held_run (tasks : List Task) : (held (Monitor.run disk tasks) []).Subperm (adds tasks) := by
  induction tasks using List.reverseRecOn with
  | nil =>
    show (held (Monitor.started disk) []).Subperm []
    rw [held_started]
  | append_singleton tasks task ih =>
    rw [Monitor.run, run_append, run_singleton, ← Monitor.run, adds_concat]
    exact held_perform task ih

/-- The add events of some jobs and events. -/
def addsOf (events : List Event) : List DeviceEvent := events.filterMap (·.passes "add")

theorem adds_eq (tasks : List Task) : adds tasks = addsOf (eventsOf (tasks.map Task.job)) := by
  rw [addsOf, eventsOf, List.filterMap_filterMap, List.filterMap_map, adds]
  congr 1
  funext task
  cases task <;> rfl

theorem seq_of_onReceiveUevent {seq : ℕ} {now : ℤ} {message : Bytes} {event : Event}
    (h : onReceiveUevent seq now message = some event) : event.seq = seq ∧ event.receive_time = now := by
  unfold onReceiveUevent at h
  dsimp only at h
  split_ifs at h
  cases h
  exact ⟨rfl, rfl⟩

theorem accepted_pairwise (notified : List (ℤ × Bytes)) :
    (accepted notified).Pairwise (·.seq < ·.seq) ∧ ∀ event ∈ accepted notified, event.seq < notified.length := by
  induction notified using List.reverseRecOn with
  | nil => exact ⟨.nil, List.forall_mem_nil _⟩
  | append_singleton notified entry ih =>
    obtain ⟨hpairwise, hlt⟩ := ih
    rw [accepted_concat, List.length_append, List.length_singleton]
    cases hevent : onReceiveUevent notified.length entry.1 entry.2 with
    | none =>
      rw [Option.toList_none, List.append_nil]
      exact ⟨hpairwise, fun event hmem => Nat.lt_succ_of_lt (hlt event hmem)⟩
    | some event =>
      obtain ⟨hseq, -⟩ := seq_of_onReceiveUevent hevent
      rw [Option.toList_some]
      constructor
      · rw [List.pairwise_append]
        refine ⟨hpairwise, List.pairwise_singleton _ _, ?_⟩
        intro event' hmem' event'' hmem''
        rw [List.mem_singleton.1 hmem'', hseq]
        exact hlt event' hmem'
      · intro event' hmem'
        rcases List.mem_append.1 hmem' with hmem' | hmem'
        · exact Nat.lt_succ_of_lt (hlt event' hmem')
        · rw [List.mem_singleton.1 hmem', hseq]
          exact Nat.lt_succ_self _

theorem event_of_passes {event : Event} {action : String} {e : DeviceEvent} (h : event.passes action = some e) :
    e.event = event := by
  unfold Event.passes at h
  split at h
  · cases h
  · split_ifs at h
    cases h
    rfl

theorem nodup_addsOf_accepted (notified : List (ℤ × Bytes)) : (addsOf (accepted notified)).Nodup := by
  have h := (accepted_pairwise notified).1
  rw [addsOf, List.Nodup, List.pairwise_filterMap]
  apply h.imp
  rintro event event' hlt e he e' he' rfl
  rw [← event_of_passes he, ← event_of_passes he'] at hlt
  exact lt_irrefl _ hlt

/-- The events that were accepted and that no task has been performed for yet. -/
def underway (p : Pipeline) : List Event := eventsOf (p.worker_thread.toList ++ p.task_queue) ++ p.parsed

variable {p : Pipeline}

/-- What was accepted was performed, or is under way. -/
theorem Kept.accepted_eq (h : Kept disk p) :
    accepted p.notified = eventsOf (p.performed.map Task.job) ++ p.underway := by
  rw [h.events, h.put, List.append_assoc, eventsOf_append, underway, List.append_assoc]

theorem Kept.addsOf_eq (h : Kept disk p) :
    addsOf (accepted p.notified) = adds p.performed ++ addsOf p.underway := by
  rw [h.accepted_eq, addsOf, List.filterMap_append, ← addsOf, ← addsOf, adds_eq]

/-- In every state that any interleaving of the threads leads to, with any clock and whatever `disk_partitions`
finds or raises: the messages that arrived were shown to the observer, in order, or are the one in hand and those in
the socket; the jobs that were put have been performed, in order, or are the one in hand and those in the queue; and the
monitor is that of the tasks performed. No add event of these messages is in two places; and as long as
`disk_partitions` never raises, each is in one: under way to the monitor, pending, reported or expired. -/
theorem account_pipeline (disk : ℕ → Except Raised (List Partition)) (clock : ℤ) (moves : List Move) :
    let p := run (step disk) (start disk clock) moves
    Kept disk p ∧
      (addsOf p.underway ++ (p.monitor.pending_event_list ++ p.monitor.reported ++ p.monitor.expired)).Nodup ∧
      (∀ e ∈ p.monitor.pending_event_list ++ p.monitor.reported ++ p.monitor.expired, e ∈ adds p.performed) ∧
      ((∃ snapshots, disk = calm snapshots) →
        (addsOf (accepted p.notified)).Perm (addsOf p.underway ++
          (p.monitor.pending_event_list ++ p.monitor.reported ++ p.monitor.expired))) := by
  intro p
  have hkept : Kept disk p := kept_run disk clock moves
  have hheld : (p.monitor.pending_event_list ++ p.monitor.reported ++ p.monitor.expired).Subperm
      (adds p.performed) := by
    have h := held_run disk p.performed
    rwa [← hkept.monitor] at h
  refine ⟨hkept, ?_, fun e he => hheld.subset he, ?_⟩
  · have hnodup := nodup_addsOf_accepted p.notified
    rw [hkept.addsOf_eq] at hnodup
    obtain ⟨all, hperm, hsublist⟩ := (List.subperm_append_right (addsOf p.underway)).2 hheld
    exact (hperm.trans List.perm_append_comm).nodup_iff.1 (hsublist.nodup hnodup)
  · rintro ⟨snapshots, rfl⟩
    have haccount : Account (adds p.performed) (Monitor.run (calm snapshots) p.performed) [] := account_run _
    have hperm := haccount.perm
    rw [List.nil_append, ← hkept.monitor] at hperm
    rw [hkept.addsOf_eq]
    exact (hperm.append_right _).trans List.perm_append_comm

end

end Pipeline

end NetProg.Uevent
