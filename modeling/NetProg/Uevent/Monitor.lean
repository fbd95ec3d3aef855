import NetProg.Lib.Run
import NetProg.Lib.Runs
import Mathlib.Data.Int.Notation
import Mathlib.Data.Nat.Notation
import Mathlib.Tactic.SplitIfs

/-!
# The uevent monitor

`UeventMonitor` of `netlink/uevent_monitor/python_fixed/uevent_monitor2.py` and the worker thread that runs
its tasks. The partitions that `psutil.disk_partitions` finds at its `k`-th call in the process are
`disk k`, which may be an exception, so a mount or an unmount between two tasks, or in the middle of one, is
a difference between two calls.

A handler keeps the changes it made before an exception, and `WorkerThread.run` logs the exception and goes
on with the next task (`perform`). What the monitor reports it writes to the log, which is kept in full.
`onPartitionAdd_ok` and its neighbours say what a handler does, `check_rule` what the loop of a check keeps,
and `perform_process` what the task of an event does; the results about runs go through them.
-/

namespace NetProg.Uevent

/-- A dictionary of strings: the pairs stored, last first. -/
abbrev Dict := List (String × String)

def UEVENT_ACTION : String := "ACTION"

def UEVENT_DEVTYPE : String := "DEVTYPE"

def UEVENT_DEVNAME : String := "DEVNAME"

/-- What `psutil.disk_partitions` says of a partition. -/
structure Partition where
  device : String
  mountpoint : String
  deriving DecidableEq, Repr

/-- What `parserRawData` makes of a message. `seq` is not in the dictionary: it counts the messages as they
were received. -/
structure Event where
  seq : ℕ
  fields : Dict
  /-- In microseconds. -/
  receive_time : ℤ
  deriving DecidableEq, Repr

/-- `getEventField`: the value, if the key is there. -/
def Event.getEventField (event : Event) (key : String) : Option String := event.fields.lookup key

/-- An event known to have a `DEVNAME`. -/
structure DeviceEvent where
  event : Event
  devname : String
  devname_eq : event.getEventField UEVENT_DEVNAME = some devname
  deriving DecidableEq, Repr

/-- What the kernel sends for a partition, received right away. -/
def partitionEvent (seq : ℕ) (action devname : String) : Event where
  seq
  fields := [(UEVENT_DEVNAME, devname), (UEVENT_DEVTYPE, "partition"), (UEVENT_ACTION, action)]
  receive_time := seq

/-- What a task can raise. -/
structure Raised where
  message : String
  deriving DecidableEq, Repr

/-- The lines of the log, with the objects they are formatted from. -/
inductive Entry
  /-- `"dev_mountpoint_map: {}"` -/
  | mountpoints (dev_mountpoint_map : Dict)
  /-- `"not partition"` and the other lines about an event that is not looked at. -/
  | ignored (message : String)
  /-- `"add event to pending_event_list"` -/
  | pending (e : DeviceEvent)
  /-- `"partition {} add on {} at {}"` -/
  | add (e : DeviceEvent) (mountpoint : String)
  /-- `"not found mountpoint by devname: {}"` -/
  | notFound (e : DeviceEvent)
  /-- `"partition {} remove on {} at {}"` -/
  | remove (e : DeviceEvent) (mountpoint : String)
  /-- `"event is expired: {}"` -/
  | expired (e : DeviceEvent)
  /-- `"date: {}, event: {}"` -/
  | processed (event : Event)
  /-- `"task execute error: \n{}"` -/
  | taskError (raised : Raised)
  deriving DecidableEq, Repr

/-- The attributes of `UeventMonitor`, with its log. -/
structure Monitor where
  pending_event_list : List DeviceEvent
  dev_mountpoint_map : Dict
  /-- How often `disk_partitions` was called. -/
  diskCalls : ℕ
  log : List Entry
  deriving DecidableEq, Repr

/-- `pending_expired_time_sec`, in microseconds. -/
def pendingExpiredTime : ℤ := 30 * 1000000

/-- The dictionary that `updateMountpoint` builds. -/
def mountpointMap (partitions : List Partition) : Dict :=
  partitions.foldl (fun map partition => (partition.device, partition.mountpoint) :: map) []

/-- The device is among the partitions found. -/
def Lists (partitions : List Partition) (devname : String) : Prop := ∃ p ∈ partitions, p.device = devname

instance (partitions : List Partition) : DecidablePred (Lists partitions) := fun _ => List.decidableBEx _ _

/-- `LOGGER.info` and its siblings. -/
def logLine (entry : Entry) : EStateM Raised Monitor Unit :=
  modify fun m => { m with log := m.log ++ [entry] }

section handlers

variable (disk : ℕ → Except Raised (List Partition))

/-- `updateMountpoint`. When `disk_partitions` raises, the map stays. -/
def updateMountpoint : EStateM Raised Monitor Unit := fun m =>
  match disk m.diskCalls with
  | .error raised => .error raised { m with diskCalls := m.diskCalls + 1 }
  | .ok partitions =>
    .ok () { m with
      dev_mountpoint_map := mountpointMap partitions
      diskCalls := m.diskCalls + 1
      log := m.log ++ [.mountpoints (mountpointMap partitions)] }

/-- `onPartitionAdd`. A device that is not in the map yet waits in the list. -/
def onPartitionAdd (event : DeviceEvent) : EStateM Raised Monitor Unit := do
  updateMountpoint disk
  match (← get).dev_mountpoint_map.lookup event.devname with
  | none => do
    logLine (.pending event)
    modify fun m => { m with pending_event_list := m.pending_event_list ++ [event] }
  | some mountpoint => logLine (.add event mountpoint)

/-- `onPartitionRemove`, which leaves the list of pending events alone. -/
def onPartitionRemove (event : DeviceEvent) : EStateM Raised Monitor Unit := do
  match (← get).dev_mountpoint_map.lookup event.devname with
  | none => logLine (.notFound event)
  | some mountpoint => logLine (.remove event mountpoint)

/-- `devname.startswith('/dev')` -/
def startswithDev (devname : String) : Bool := "/dev".toList.isPrefixOf devname.toList

/-- `doProcessEvent`. -/
def doProcessEvent (event : Event) : EStateM Raised Monitor Unit :=
  if event.getEventField UEVENT_DEVTYPE ≠ some "partition" then logLine (.ignored "not partition")
  else
    match event.getEventField UEVENT_ACTION with
    | none => logLine (.ignored "no action fields")
    | some action =>
      match h : event.getEventField UEVENT_DEVNAME with
      | none => logLine (.ignored "no devname fields")
      | some devname =>
        if ¬ startswithDev devname then logLine (.ignored ("devname not startswith /dev: " ++ devname))
        else do
          if action = "add" then onPartitionAdd disk ⟨event, devname, h⟩
          else if action = "remove" then onPartitionRemove ⟨event, devname, h⟩
          logLine (.processed event)

/-- `(now - event[UEVENT_RECVTIME]) > expired_time` -/
def DeviceEvent.IsExpired (event : DeviceEvent) (now : ℤ) : Prop :=
  now - event.event.receive_time > pendingExpiredTime

instance (event : DeviceEvent) (now : ℤ) : Decidable (event.IsExpired now) :=
  inferInstanceAs (Decidable (_ > _))

/-- The body of the loop of `doCheckPendingEvent`. -/
def recheck (now : ℤ) (event : DeviceEvent) : EStateM Raised Monitor Unit :=
  if event.IsExpired now then logLine (.expired event)
  else onPartitionAdd disk event

/-- `doCheckPendingEvent`, when `datetime.datetime.now()` is `now`. -/
def doCheckPendingEvent (now : ℤ) : EStateM Raised Monitor Unit := do
  let pending_event_list := (← get).pending_event_list
  modify fun m => { m with pending_event_list := [] }
  pending_event_list.forM (recheck disk now)

/-- What stands in the queue of the worker thread. -/
inductive Task
  | process (event : Event)
  | check (now : ℤ)
  deriving DecidableEq, Repr

/-- What the worker calls, at the time it calls it. -/
def Task.call : Task → EStateM Raised Monitor Unit
  | .process event => doProcessEvent disk event
  | .check now => doCheckPendingEvent disk now

/-- One turn of `WorkerThread.run`. -/
def perform (m : Monitor) (task : Task) : Monitor :=
  match task.call disk m with
  | .ok _ m' => m'
  | .error raised m' => { m' with log := m'.log ++ [.taskError raised] }

/-- `UeventMonitor.__init__` -/
def Monitor.init : Monitor := ⟨[], [], 0, []⟩

/-- The monitor when its worker starts. (When `disk 0` is an exception it never does.) -/
def Monitor.started : Monitor :=
  match updateMountpoint disk .init with
  | .ok _ m => m
  | .error _ m => m

/-- The monitor after the worker has performed `tasks`. -/
def Monitor.run (tasks : List Task) : Monitor := Lib.run (perform disk) (.started disk) tasks

end handlers

/-! ### What a handler does -/

namespace Monitor

/-- With one entry more in the log. -/
def logged (m : Monitor) (entry : Entry) : Monitor := { m with log := m.log ++ [entry] }

/-- After a call of `disk_partitions` that raised. -/
def called (m : Monitor) : Monitor := { m with diskCalls := m.diskCalls + 1 }

/-- After `updateMountpoint` has found `partitions`. -/
def refreshed (m : Monitor) (partitions : List Partition) : Monitor :=
  { m.called.logged (.mountpoints (mountpointMap partitions)) with
    dev_mountpoint_map := mountpointMap partitions }

/-- After `onPartitionAdd` has found `partitions`. -/
def afterAdd (m : Monitor) (e : DeviceEvent) (partitions : List Partition) : Monitor :=
  match (mountpointMap partitions).lookup e.devname with
  | none =>
    { (m.refreshed partitions).logged (.pending e) with pending_event_list := m.pending_event_list ++ [e] }
  | some mountpoint => (m.refreshed partitions).logged (.add e mountpoint)

/-- What `onPartitionRemove` writes to the log. -/
def removal (m : Monitor) (e : DeviceEvent) : Entry :=
  match m.dev_mountpoint_map.lookup e.devname with
  | none => .notFound e
  | some mountpoint => .remove e mountpoint

end Monitor

theorem mountpointMap_eq (partitions : List Partition) :
    mountpointMap partitions = (partitions.map fun p => (p.device, p.mountpoint)).reverse := by
  suffices h : ∀ map : Dict, partitions.foldl (fun map p => (p.device, p.mountpoint) :: map) map =
      (partitions.map fun p => (p.device, p.mountpoint)).reverse ++ map by
    rw [mountpointMap, h, List.append_nil]
  induction partitions with
  | nil => exact fun _ => rfl
  | cons p partitions ih =>
    intro map
    rw [List.foldl_cons, ih, List.map_cons, List.reverse_cons, List.append_assoc, List.singleton_append]

theorem lookup_eq_none_iff (partitions : List Partition) (devname : String) :
    (mountpointMap partitions).lookup devname = none ↔ ¬ Lists partitions devname := by
  rw [mountpointMap_eq, List.lookup_eq_none_iff]
  constructor
  · rintro h ⟨p, hp, rfl⟩
    have hne := h (p.device, p.mountpoint) (List.mem_reverse.mpr (List.mem_map.mpr ⟨p, hp, rfl⟩))
    simp at hne
  · intro h pair hpair
    obtain ⟨p, hp, rfl⟩ := List.mem_map.mp (List.mem_reverse.mp hpair)
    simpa using fun heq => h ⟨p, hp, heq.symm⟩

section specs

open Lib (run_bind_ok run_bind_error run_get_bind run_modify_bind run_forM_cons_ok
  run_forM_cons_error)

variable {disk : ℕ → Except Raised (List Partition)} {m : Monitor}

theorem logLine_run (entry : Entry) : logLine entry m = .ok () (m.logged entry) := rfl

theorem updateMountpoint_ok {partitions : List Partition} (h : disk m.diskCalls = .ok partitions) :
    updateMountpoint disk m = .ok () (m.refreshed partitions) := by
  rw [updateMountpoint, h]
  rfl

theorem updateMountpoint_error {raised : Raised} (h : disk m.diskCalls = .error raised) :
    updateMountpoint disk m = .error raised m.called := by
  rw [updateMountpoint, h]
  rfl

theorem onPartitionAdd_ok {partitions : List Partition} (h : disk m.diskCalls = .ok partitions)
    (e : DeviceEvent) : onPartitionAdd disk e m = .ok () (m.afterAdd e partitions) := by
  have hmap : (m.refreshed partitions).dev_mountpoint_map = mountpointMap partitions := rfl
  rw [onPartitionAdd, run_bind_ok (updateMountpoint_ok h), run_get_bind, hmap, Monitor.afterAdd]
  cases hlookup : (mountpointMap partitions).lookup e.devname <;> rfl

theorem onPartitionAdd_error {raised : Raised} (h : disk m.diskCalls = .error raised) (e : DeviceEvent) :
    onPartitionAdd disk e m = .error raised m.called := by
  rw [onPartitionAdd, run_bind_error (updateMountpoint_error h)]

theorem onPartitionRemove_run (e : DeviceEvent) :
    onPartitionRemove e m = .ok () (m.logged (m.removal e)) := by
  rw [onPartitionRemove, run_get_bind, Monitor.removal]
  cases hlookup : m.dev_mountpoint_map.lookup e.devname <;> rfl

/-! ### What a task does -/

/-- The event as one of a device, if it passes the filter of `doProcessEvent` with this action. -/
def Event.passes (event : Event) (action : String) : Option DeviceEvent :=
  match h : event.getEventField UEVENT_DEVNAME with
  | none => none
  | some devname =>
    if event.getEventField UEVENT_DEVTYPE = some "partition" ∧
      event.getEventField UEVENT_ACTION = some action ∧ startswithDev devname then some ⟨event, devname, h⟩
    else none

/-- The add event that a task processes. -/
def Task.add? : Task → Option DeviceEvent
  | .process event => event.passes "add"
  | .check _ => none

/-- The remove event that a task processes. -/
def Task.remove? : Task → Option DeviceEvent
  | .process event => event.passes "remove"
  | .check _ => none

theorem passes_of_devname {event : Event} {devname : String}
    (h : event.getEventField UEVENT_DEVNAME = some devname) (action : String) :
    event.passes action =
      if event.getEventField UEVENT_DEVTYPE = some "partition" ∧
        event.getEventField UEVENT_ACTION = some action ∧ startswithDev devname then
        some ⟨event, devname, h⟩
      else none := by
  unfold Event.passes
  split
  · rename_i hnone
    rw [hnone] at h
    nomatch h
  · rename_i devname' h'
    obtain rfl : devname' = devname := Option.some.inj (h'.symm.trans h)
    rfl

theorem passes_of_no_devname {event : Event} (h : event.getEventField UEVENT_DEVNAME = none)
    (action : String) : event.passes action = none := by
  unfold Event.passes
  split
  · rfl
  · rename_i h'
    rw [h] at h'
    nomatch h'

theorem action_of_passes {event : Event} {action : String} {e : DeviceEvent}
    (h : event.passes action = some e) : event.getEventField UEVENT_ACTION = some action := by
  unfold Event.passes at h
  split at h
  · nomatch h
  · split_ifs at h with hall
    exact hall.2.1

theorem passes_of_ne {event : Event} {action other : String} {e : DeviceEvent}
    (h : event.passes action = some e) (hne : action ≠ other) : event.passes other = none := by
  cases hother : event.passes other with
  | none => rfl
  | some e' =>
    have haction : some action = some other := (action_of_passes h).symm.trans (action_of_passes hother)
    exact absurd (Option.some.inj haction) hne

/-- Lines that report nothing about a device. -/
def Entry.IsNote : Entry → Prop
  | .ignored _ | .processed _ | .taskError _ => True
  | _ => False

/-- What processing an event can do. -/
inductive Processed (disk : ℕ → Except Raised (List Partition)) (m : Monitor) (event : Event) :
    Monitor → Prop
  | add {e : DeviceEvent} {partitions : List Partition} (hadd : event.passes "add" = some e)
      (hdisk : disk m.diskCalls = .ok partitions) :
      Processed disk m event ((m.afterAdd e partitions).logged (.processed event))
  | addRaised {e : DeviceEvent} {raised : Raised} (hadd : event.passes "add" = some e)
      (hdisk : disk m.diskCalls = .error raised) :
      Processed disk m event (m.called.logged (.taskError raised))
  | remove {e : DeviceEvent} (hremove : event.passes "remove" = some e)
      (hadd : event.passes "add" = none) :
      Processed disk m event ((m.logged (m.removal e)).logged (.processed event))
  | other {entry : Entry} (hnote : entry.IsNote) (hadd : event.passes "add" = none)
      (hremove : event.passes "remove" = none) : Processed disk m event (m.logged entry)

theorem doProcessEvent_of_passes {event : Event} {action : String} {e : DeviceEvent}
    (h : event.passes action = some e) : doProcessEvent disk event = (do
      if action = "add" then onPartitionAdd disk e
      else if action = "remove" then onPartitionRemove e
      logLine (.processed event)) := by
  cases hdevname : event.getEventField UEVENT_DEVNAME with
  | none =>
    rw [passes_of_no_devname hdevname] at h
    nomatch h
  | some devname =>
    rw [passes_of_devname hdevname] at h
    split_ifs at h with hall
    obtain ⟨hdevtype, haction, hdev⟩ := hall
    obtain rfl := Option.some.inj h
    rw [doProcessEvent, if_neg (not_not_intro hdevtype)]
    simp only [haction]
    split
    · rename_i hnone
      rw [hdevname] at hnone
      nomatch hnone
    · rename_i devname' h'
      obtain rfl : devname' = devname := Option.some.inj (h'.symm.trans hdevname)
      rw [if_neg (not_not_intro hdev)]

theorem doProcessEvent_of_not_passes (disk : ℕ → Except Raised (List Partition)) {event : Event}
    (h : ∀ action, event.passes action = none) :
    ∃ message, doProcessEvent disk event = logLine (.ignored message) := by
  by_cases hdevtype : event.getEventField UEVENT_DEVTYPE = some "partition"
  · rw [doProcessEvent, if_neg (not_not_intro hdevtype)]
    cases haction : event.getEventField UEVENT_ACTION with
    | none => exact ⟨_, rfl⟩
    | some action =>
      simp only
      split
      · exact ⟨_, rfl⟩
      · rename_i devname hdevname
        by_cases hdev : startswithDev devname
        · have hpass := h action
          rw [passes_of_devname hdevname, if_pos ⟨hdevtype, haction, hdev⟩] at hpass
          nomatch hpass
        · rw [if_pos hdev]
          exact ⟨_, rfl⟩
  · rw [doProcessEvent, if_pos hdevtype]
    exact ⟨_, rfl⟩

theorem perform_process (event : Event) : Processed disk m event (perform disk m (.process event)) := by
  by_cases hpasses : ∃ action e, event.passes action = some e
  · obtain ⟨action, e, hpass⟩ := hpasses
    rw [perform, Task.call, doProcessEvent_of_passes hpass]
    by_cases hadd : action = "add"
    · subst hadd
      rw [if_pos rfl]
      cases hdisk : disk m.diskCalls with
      | ok partitions =>
        rw [run_bind_ok (onPartitionAdd_ok hdisk e)]
        exact .add hpass hdisk
      | error raised =>
        rw [run_bind_error (onPartitionAdd_error hdisk e)]
        exact .addRaised hpass hdisk
    · rw [if_neg hadd]
      by_cases hremove : action = "remove"
      · subst hremove
        rw [if_pos rfl, run_bind_ok (onPartitionRemove_run e)]
        exact .remove hpass (passes_of_ne hpass hadd)
      · rw [if_neg hremove]
        have hnote : (Entry.processed event).IsNote := trivial
        exact .other hnote (passes_of_ne hpass hadd) (passes_of_ne hpass hremove)
  · have hnone : ∀ action, event.passes action = none := fun action =>
      Option.eq_none_iff_forall_ne_some.mpr fun e he => hpasses ⟨action, e, he⟩
    obtain ⟨message, hrun⟩ := doProcessEvent_of_not_passes disk hnone
    have hnote : (Entry.ignored message).IsNote := trivial
    rw [perform, Task.call, hrun]
    exact .other hnote (hnone _) (hnone _)

theorem recheck_expired {now : ℤ} {e : DeviceEvent} (h : e.IsExpired now) :
    recheck disk now e m = .ok () (m.logged (.expired e)) := by
  rw [recheck, if_pos h, logLine_run]

theorem recheck_add {now : ℤ} {e : DeviceEvent} (h : ¬ e.IsExpired now) :
    recheck disk now e m = onPartitionAdd disk e m := by
  rw [recheck, if_neg h]

/-- Events that are still to be rechecked, in a loop that keeps `I` of the monitor and of them: what it
establishes by its end, or by the exception that ends it. -/
theorem check_rule {I : Monitor → List DeviceEvent → Prop} {J : Monitor → Prop} (now : ℤ)
    (hexpired : ∀ m e rest, e.IsExpired now → I m (e :: rest) →
      I (m.logged (.expired e)) rest)
    (hadd : ∀ m e rest partitions, ¬ e.IsExpired now →
      disk m.diskCalls = .ok partitions → I m (e :: rest) → I (m.afterAdd e partitions) rest)
    (hraise : ∀ m e rest raised, ¬ e.IsExpired now →
      disk m.diskCalls = .error raised → I m (e :: rest) → J (m.called.logged (.taskError raised)))
    (hdone : ∀ m, I m [] → J m) (hswap : I { m with pending_event_list := [] } m.pending_event_list) :
    J (perform disk m (.check now)) := by
  rw [perform, Task.call, doCheckPendingEvent, run_get_bind, run_modify_bind]
  generalize m.pending_event_list = rest at hswap ⊢
  generalize ({ m with pending_event_list := [] } : Monitor) = m' at hswap ⊢
  induction rest generalizing m' with
  | nil => exact hdone m' hswap
  | cons e rest ih =>
    by_cases hold : e.IsExpired now
    · rw [run_forM_cons_ok (recheck_expired hold)]
      exact ih _ (hexpired m' e rest hold hswap)
    · cases hdisk : disk m'.diskCalls with
      | ok partitions =>
        rw [run_forM_cons_ok ((recheck_add hold).trans (onPartitionAdd_ok hdisk e))]
        exact ih _ (hadd m' e rest partitions hold hdisk hswap)
      | error raised =>
        rw [run_forM_cons_error ((recheck_add hold).trans (onPartitionAdd_error hdisk e))]
        exact hraise m' e rest raised hold hdisk hswap

end specs

end NetProg.Uevent
