import NetProg.Lib.Runs
import Mathlib.Data.List.Basic

/-!
# The worker thread

`WorkerThread` of `worker_thread.py`: any number of threads put tasks in a queue, and one thread takes them
out and calls them. `queue.Queue` is a linearizable first-in first-out queue, so a `putTask` or a `stop` of
any thread is one step, and so is what the worker does up to and from a call: a run is any interleaving of
these, in which the worker may be in a call while others put tasks.

The worker ends in one way only, by a task that raises `StopWorkerThreadException`. `stop` queues such a
task; a caller's own task that raises it is one too. `worker_order` collects what holds in every reachable
state: the tasks in the queue are those of the calls of `putTask` and `stop`, and they are called in order and
once, all those before the first such task and none behind it.
-/

namespace NetProg.Python
open Lib (run run_stable run_append)

/-- What a Python call can raise, as far as `run` tells it apart. -/
inductive PyException
  | StopWorkerThreadException
  | other (name : String)
  deriving DecidableEq, Repr

/-- What calling a task comes to. -/
inductive Outcome
  | returns
  | raises (exception : PyException)
  deriving DecidableEq, Repr

/-- An object in the queue: `StopTask`, another callable with what calling it will come to, or an object
that is not callable. -/
inductive Task
  | StopTask
  | callable (id : ℕ) (outcome : Outcome)
  | object (id : ℕ)
  deriving DecidableEq, Repr

namespace Task

/-- `callable(task)` -/
def isCallable : Task → Bool
  | .object _ => false
  | _ => true

/-- What `task()` comes to. -/
def outcome : Task → Outcome
  | .StopTask => .raises .StopWorkerThreadException
  | .callable _ outcome => outcome
  | .object _ => .returns

/-- A task whose call ends the worker. -/
def Stops (t : Task) : Prop := t.isCallable = true ∧ t.outcome = .raises .StopWorkerThreadException

instance : DecidablePred Stops := fun _ => inferInstanceAs (Decidable (_ ∧ _))

end Task

/-- Where the worker is: in `task_queue.get()`, in a call, or at the end of `run`. -/
inductive Worker
  | getting
  | calling (task : Task)
  | ended
  deriving DecidableEq, Repr

/-- The queue and the worker, with all that has been put in the queue and all that has been called. -/
structure WorkerThread where
  task_queue : List Task
  worker : Worker
  inserted : List Task
  executed : List Task
  deriving DecidableEq, Repr

namespace WorkerThread

/-- A thread calls `putTask` or `stop`, or the worker goes on. -/
inductive Move
  | putTask (task : Task)
  | stop
  | worker
  deriving DecidableEq, Repr

/-- What a move puts in the queue. -/
def Move.task? : Move → Option Task
  | .putTask task => some task
  | .stop => some .StopTask
  | .worker => none

/-- `putTask(task)`. -/
def putTask (s : WorkerThread) (task : Task) : WorkerThread :=
  { s with task_queue := s.task_queue ++ [task], inserted := s.inserted ++ [task] }

/-- `stop()` puts `StopTask` behind the tasks that are there. -/
def stop (s : WorkerThread) : WorkerThread := s.putTask .StopTask

/-- `fetch_and_exectue_task_once` up to the call; with an empty queue `get` does not return. -/
def fetch (s : WorkerThread) : WorkerThread :=
  match s.task_queue with
  | [] => s
  | task :: task_queue =>
    if task.isCallable then
      { s with task_queue := task_queue, worker := .calling task, executed := s.executed ++ [task] }
    else { s with task_queue := task_queue }

/-- The rest of a turn of `run`: the `except` clauses after the call. -/
def handle (s : WorkerThread) : Outcome → WorkerThread
  | .raises .StopWorkerThreadException => { s with worker := .ended }
  | .raises (.other _) => { s with worker := .getting }
  | .returns => { s with worker := .getting }

/-- The worker goes on in `run`. -/
def turn (s : WorkerThread) : WorkerThread :=
  match s.worker with
  | .getting => s.fetch
  | .calling task => s.handle task.outcome
  | .ended => s

/-- One step of a thread that puts tasks, or of the worker. -/
def step (s : WorkerThread) : Move → WorkerThread
  | .putTask task => s.putTask task
  | .stop => s.stop
  | .worker => s.turn

/-- The queue is empty when the worker starts. -/
def start : WorkerThread := ⟨[], .getting, [], []⟩

/-- The tasks taken from the queue so far: none of them stops the worker, or the last one alone does, and the
worker is in its call or has ended. -/
inductive Taken : Worker → List Task → Prop
  | getting {taken : List Task} (h : ∀ t ∈ taken, ¬ t.Stops) : Taken .getting taken
  | calling {taken : List Task} {t : Task} (h : ∀ u ∈ taken, ¬ u.Stops) (hcall : t.isCallable = true) :
      Taken (.calling t) (taken ++ [t])
  | ended {taken : List Task} {t : Task} (h : ∀ u ∈ taken, ¬ u.Stops) (hstop : t.Stops) :
      Taken .ended (taken ++ [t])

/-- What has been put in the queue is what has been taken and what is in it, and the callables among the
former are what has been called. -/
def Inv (s : WorkerThread) : Prop :=
  ∃ taken, s.inserted = taken ++ s.task_queue ∧ s.executed = taken.filter Task.isCallable ∧
    Taken s.worker taken

theorem inv_start : Inv start := ⟨[], rfl, rfl, .getting (by simp)⟩

theorem inv_putTask {s : WorkerThread} (h : Inv s) (task : Task) : Inv (s.putTask task) := by
  obtain ⟨taken, hinserted, hexecuted, htaken⟩ := h
  refine ⟨taken, ?_, hexecuted, htaken⟩
  simp only [putTask, hinserted, List.append_assoc]

theorem inv_fetch {s : WorkerThread} (h : Inv s) (hworker : s.worker = .getting) : Inv s.fetch := by
  obtain ⟨taken, hinserted, hexecuted, htaken⟩ := h
  rw [hworker] at htaken
  obtain ⟨hstops⟩ := htaken
  unfold fetch
  split
  · exact ⟨taken, hinserted, hexecuted, by rw [hworker]; exact .getting hstops⟩
  · rename_i task task_queue hqueue
    have hshift : s.inserted = taken ++ [task] ++ task_queue := by
      rw [hinserted, hqueue, List.append_assoc, List.singleton_append]
    split
    · rename_i hcall
      refine ⟨taken ++ [task], hshift, ?_, .calling hstops hcall⟩
      rw [List.filter_append, List.filter_cons_of_pos hcall, List.filter_nil, hexecuted]
    · rename_i hcall
      refine ⟨taken ++ [task], hshift, ?_, ?_⟩
      · rw [List.filter_append, List.filter_cons_of_neg hcall, List.filter_nil, List.append_nil, hexecuted]
      · rw [hworker]
        apply Taken.getting
        intro t ht
        rcases List.mem_append.1 ht with ht | ht
        · exact hstops t ht
        · rw [List.mem_singleton.1 ht]
          exact fun hstop => hcall hstop.1

theorem handle_cases (s : WorkerThread) {task : Task} (hcall : task.isCallable = true) :
    task.Stops ∧ s.handle task.outcome = { s with worker := .ended } ∨
      ¬ task.Stops ∧ s.handle task.outcome = { s with worker := .getting } := by
  unfold Task.Stops
  rcases task.outcome with _ | _ | name
  · exact .inr ⟨by simp, rfl⟩
  · exact .inl ⟨⟨hcall, rfl⟩, rfl⟩
  · exact .inr ⟨by simp, rfl⟩

theorem inv_handle {s : WorkerThread} (h : Inv s) {task : Task} (hworker : s.worker = .calling task) :
    Inv (s.handle task.outcome) := by
  obtain ⟨taken, hinserted, hexecuted, htaken⟩ := h
  rw [hworker] at htaken
  cases htaken with
  | @calling taken _ hstops hcall =>
    rcases s.handle_cases hcall with ⟨hstop, hhandle⟩ | ⟨hgoes, hhandle⟩
    · rw [hhandle]
      exact ⟨taken ++ [task], hinserted, hexecuted, .ended hstops hstop⟩
    · rw [hhandle]
      refine ⟨taken ++ [task], hinserted, hexecuted, ?_⟩
      apply Taken.getting
      intro t ht
      rcases List.mem_append.1 ht with ht | ht
      · exact hstops t ht
      · rw [List.mem_singleton.1 ht]
        exact hgoes

theorem inv_step {s : WorkerThread} (h : Inv s) (m : Move) : Inv (step s m) := by
  cases m with
  | putTask task => exact inv_putTask h task
  | stop => exact inv_putTask h .StopTask
  | worker =>
    show Inv s.turn
    unfold turn
    split
    · exact inv_fetch h ‹_›
    · exact inv_handle h ‹_›
    · exact h

theorem inserted_turn (s : WorkerThread) : s.turn.inserted = s.inserted := by
  obtain ⟨task_queue, worker, inserted, executed⟩ := s
  cases worker with
  | getting =>
    cases task_queue with
    | nil => rfl
    | cons task task_queue =>
      simp only [turn, fetch]
      split <;> rfl
  | calling task =>
    simp only [turn]
    rcases task.outcome with _ | _ | name <;> rfl
  | ended => rfl

theorem inserted_step (s : WorkerThread) (m : Move) : (step s m).inserted = s.inserted ++ m.task?.toList := by
  cases m with
  | putTask task => rfl
  | stop => rfl
  | worker => simp [step, Move.task?, inserted_turn]

theorem inserted_run (s : WorkerThread) (moves : List Move) :
    (run step s moves).inserted = s.inserted ++ moves.filterMap Move.task? := by
  induction moves generalizing s with
  | nil => simp [run]
  | cons m moves ih =>
    show (run step (step s m) moves).inserted = _
    rw [ih, inserted_step, List.append_assoc, List.filterMap_cons]
    cases m.task? with
    | none => simp
    | some task => simp

theorem inv_run (moves : List Move) : Inv (run step start moves) :=
  @run_stable _ _ step Inv (fun _ m h => inv_step h m) _ inv_start moves

/-! ### The first stop -/

theorem prefix_of_first {before after taken queue : List Task} {t : Task}
    (h : before ++ t :: after = taken ++ queue) (htaken : ∀ u ∈ taken, ¬ u.Stops) (ht : t.Stops) :
    taken <+: before := by
  rcases List.append_eq_append_iff.1 h with ⟨rest, rfl, hrest⟩ | ⟨rest, rfl, -⟩
  · cases rest with
    | nil => simp
    | cons u rest =>
      obtain ⟨rfl, -⟩ : t = u ∧ after = rest ++ queue := by simpa using hrest
      exact absurd ht (htaken t (by simp))
  · exact List.prefix_append taken rest

theorem first_unique {before before' after after' : List Task} {t t' : Task}
    (h : before ++ t :: after = before' ++ t' :: after') (hbefore : ∀ u ∈ before, ¬ u.Stops)
    (hbefore' : ∀ u ∈ before', ¬ u.Stops) (ht : t.Stops) (ht' : t'.Stops) : before = before' ∧ t = t' := by
  have hle := prefix_of_first h hbefore' ht
  have hge := prefix_of_first h.symm hbefore ht'
  obtain rfl := hle.eq_of_length_le hge.length_le
  exact ⟨rfl, by simpa using (List.cons.inj (List.append_cancel_left h)).1⟩

/-- In every state of a run, with `before` and then `t` the tasks up to the first that stops the worker: only
these have been called, and all of them when the worker has ended. -/
theorem Inv.first_stop {s : WorkerThread} (hinv : Inv s) {before after : List Task} {t : Task}
    (hinserted : s.inserted = before ++ t :: after) (hbefore : ∀ u ∈ before, ¬ u.Stops) (ht : t.Stops) :
    s.executed <+: before.filter Task.isCallable ++ [t] ∧
      (s.worker = .ended → s.executed = before.filter Task.isCallable ++ [t]) := by
  obtain ⟨taken, hsplit, hexecuted, htaken⟩ := hinv
  rw [hinserted] at hsplit
  have hopen : (∀ u ∈ taken, ¬ u.Stops) → s.executed <+: before.filter Task.isCallable ++ [t] := by
    intro hstops
    rw [hexecuted]
    exact ((prefix_of_first hsplit hstops ht).filter _).trans (List.prefix_append _ _)
  have hlast : ∀ {taken' : List Task} {u : Task}, taken = taken' ++ [u] → (∀ v ∈ taken', ¬ v.Stops) →
      u.Stops → s.executed = before.filter Task.isCallable ++ [t] := by
    intro taken' u htaken' hstops hu
    rw [htaken', List.append_assoc, List.singleton_append] at hsplit
    obtain ⟨rfl, rfl⟩ := first_unique hsplit hbefore hstops ht hu
    rw [hexecuted, htaken', List.filter_append, List.filter_cons_of_pos ht.1, List.filter_nil]
  generalize hworker : s.worker = worker at htaken
  cases htaken with
  | getting hstops => exact ⟨hopen hstops, fun h => by simp at h⟩
  | @calling taken' u hstops hcall =>
    refine ⟨?_, fun h => by simp at h⟩
    by_cases hu : u.Stops
    · exact hlast rfl hstops hu ▸ List.prefix_rfl
    · apply hopen
      intro v hv
      rcases List.mem_append.1 hv with hv | hv
      · exact hstops v hv
      · rw [List.mem_singleton.1 hv]
        exact hu
  | @ended taken' u hstops hu =>
    have heq := hlast rfl hstops hu
    exact ⟨heq ▸ List.prefix_rfl, fun _ => heq⟩

/-! ### Nothing is lost -/

/-- The worker has ended, or waits for a task. -/
def Drained (s : WorkerThread) : Prop := s.worker = .ended ∨ s.worker = .getting ∧ s.task_queue = []

/-- How many turns the worker has before it at most. -/
def work (s : WorkerThread) : ℕ :=
  2 * s.task_queue.length +
    match s.worker with
    | .calling _ => 1
    | _ => 0

theorem work_turn_lt {s : WorkerThread} (h : ¬ Drained s) : s.turn.work < s.work := by
  obtain ⟨task_queue, worker, inserted, executed⟩ := s
  cases worker with
  | getting =>
    cases task_queue with
    | nil => exact absurd (.inr ⟨rfl, rfl⟩) h
    | cons task task_queue =>
      simp only [turn, fetch]
      split <;> simp only [work, List.length_cons] <;> omega
  | calling task =>
    simp only [turn]
    rcases task.outcome with _ | _ | name <;> simp only [handle, work] <;> omega
  | ended => exact absurd (.inl rfl) h

/-- Left alone the worker gets through the queue, or ends. -/
theorem exists_drained (s : WorkerThread) : ∃ n, Drained (run step s (List.replicate n .worker)) := by
  induction hn : s.work using Nat.strongRecOn generalizing s with
  | ind n ih =>
    by_cases hdrained : Drained s
    · exact ⟨0, hdrained⟩
    · obtain ⟨m, hm⟩ := ih _ (hn ▸ work_turn_lt hdrained) s.turn rfl
      exact ⟨m + 1, hm⟩

theorem Inv.all_executed {s : WorkerThread} (hinv : Inv s) (hqueue : s.task_queue = []) :
    s.executed = s.inserted.filter Task.isCallable := by
  obtain ⟨taken, hinserted, hexecuted, -⟩ := hinv
  rw [hexecuted, hinserted, hqueue, List.append_nil]

theorem Inv.exists_stop {s : WorkerThread} (hinv : Inv s) (hended : s.worker = .ended) :
    ∃ t ∈ s.executed, t.Stops := by
  obtain ⟨taken, -, hexecuted, htaken⟩ := hinv
  rw [hended] at htaken
  cases htaken with
  | @ended taken t hstops ht =>
    refine ⟨t, ?_, ht⟩
    rw [hexecuted, List.mem_filter]
    exact ⟨by simp, ht.1⟩

/-- In every state reached by any interleaving: the tasks inserted are those of the calls of `putTask` and `stop`, in
the order of the calls; the tasks called are, in order and each once, a prefix of the callables among them; when
there is a task that stops the worker, nothing behind the first such task has been called, and the worker ends
only after all before it and the task itself have been called; without one it does not end, whatever else its
tasks raise, but gets through the queue, and has called every callable whenever it waits for a task. -/
theorem worker_order (moves : List Move) :
    let s := run step start moves
    s.inserted = moves.filterMap Move.task? ∧ s.executed <+: s.inserted.filter Task.isCallable ∧
      (∀ before t after, s.inserted = before ++ t :: after → (∀ u ∈ before, ¬ u.Stops) → t.Stops →
        s.executed <+: before.filter Task.isCallable ++ [t] ∧
          (s.worker = .ended → s.executed = before.filter Task.isCallable ++ [t])) ∧
      (s.worker = .ended → ∃ t ∈ s.executed, t.Stops) ∧
      (s.worker = .getting → s.task_queue = [] → s.executed = s.inserted.filter Task.isCallable) ∧
      ∃ n, Drained (run step s (List.replicate n .worker)) := by
  intro s
  have hinv : Inv s := inv_run moves
  refine ⟨?_, ?_, ?_, hinv.exists_stop, fun _ => hinv.all_executed, exists_drained s⟩
  · exact inserted_run start moves
  · obtain ⟨taken, hinserted, hexecuted, -⟩ := hinv
    rw [hinserted, hexecuted, List.filter_append]
    exact List.prefix_append _ _
  · intro before t after hinserted hbefore ht
    exact hinv.first_stop hinserted hbefore ht

/-- A task that raises does not keep the worker from the next, and the task queued behind a stop stays where
it is. -/
example : (run step start [.putTask (.callable 1 (.raises (.other "OSError"))),
    .putTask (.callable 2 .returns), .stop, .putTask (.callable 3 .returns),
    .worker, .worker, .worker, .worker, .worker, .worker, .worker]).executed =
    [.callable 1 (.raises (.other "OSError")), .callable 2 .returns, .StopTask] := by
  decide

end WorkerThread

end NetProg.Python
