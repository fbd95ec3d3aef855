import NetProg.Uevent.Conservation
import Mathlib.Tactic.Push

/-!
# Adds reported after the device was removed

`onPartitionRemove` does not look at `pending_event_list`, so an add event can outlive the remove event that
the kernel sent after it, and the next time its device name is listed it is reported (`opens_stale`). A run
in which every remove event finds no earlier add event of its device waiting reports nothing stale
(`no_stale_report`): the invariant is that no waiting event comes before a remove event of its device that
has been processed.
-/

namespace NetProg.Uevent

/-- An event of the same device, received earlier. -/
def DeviceEvent.Before (e r : DeviceEvent) : Prop := e.devname = r.devname ∧ e.event.seq < r.event.seq

/-- The remove event that a line is about. -/
def Entry.removal? : Entry → Option DeviceEvent
  | .notFound e | .remove e _ => some e
  | _ => none

/-- The remove events processed, in order. -/
def Monitor.removed (m : Monitor) : List DeviceEvent := m.log.filterMap Entry.removal?

/-- After the line of a remove event no earlier add event of its device is reported. -/
def NoStale (log : List Entry) : Prop :=
  log.Pairwise fun a b => ∀ r e, a.removal? = some r → b.reported? = some e → ¬ e.Before r

/-- A remove event finds no earlier add event of its device waiting, and an add event is not processed after
a remove event of its device that was received later. The second is what the queue of the worker sees to:
one thread fills it, in the order of receipt, and it is first in, first out. -/
structure InOrder (m : Monitor) (task : Task) : Prop where
  remove : ∀ r, task.remove? = some r → ∀ e ∈ m.pending_event_list, ¬ e.Before r
  add : ∀ e, task.add? = some e → ∀ r ∈ m.removed, ¬ e.Before r

theorem NoStale.append {log written : List Entry} (h : NoStale (log ++ written)) : NoStale log :=
  List.Pairwise.sublist (List.sublist_append_left log written) h

theorem stale_of_mem {log written : List Entry} {r e : DeviceEvent} (hr : r ∈ log.filterMap Entry.removal?)
    (he : e ∈ written.filterMap Entry.reported?) (hbefore : e.Before r) : ¬ NoStale (log ++ written) := by
  intro h
  obtain ⟨a, ha, har⟩ := List.mem_filterMap.mp hr
  obtain ⟨b, hb, hbe⟩ := List.mem_filterMap.mp he
  exact (List.pairwise_append.mp h).2.2 a ha b hb r e har hbe hbefore

theorem removed_logged (m : Monitor) (entry : Entry) :
    (m.logged entry).removed = m.removed ++ entry.removal?.toList :=
  m.filterMap_logged entry Entry.removal?

theorem Entry.IsNote.removal?_eq {entry : Entry} (h : entry.IsNote) : entry.removal? = none := by
  cases entry <;> first | rfl | exact absurd h not_false

theorem removal?_removal (m : Monitor) (e : DeviceEvent) : (m.removal e).removal? = some e := by
  unfold Monitor.removal
  split <;> rfl

/-! ### The invariant -/

/-- Nothing stale was reported, and nothing that waits, in the list or in the `rest` of a check, is stale. -/
structure Fresh (m : Monitor) (rest : List DeviceEvent) : Prop where
  log : NoStale m.log
  waiting : ∀ e ∈ m.pending_event_list ++ rest, ∀ r ∈ m.removed, ¬ e.Before r

section

variable {m : Monitor} {e : DeviceEvent} {rest : List DeviceEvent} {entry : Entry}

theorem Fresh.logged (h : Fresh m rest)
    (hadd : ∀ e, entry.reported? = some e → ∀ r ∈ m.removed, ¬ e.Before r)
    (hremove : ∀ r, entry.removal? = some r → ∀ e ∈ m.pending_event_list ++ rest, ¬ e.Before r) :
    Fresh (m.logged entry) rest where
  log := by
    refine List.pairwise_append.mpr ⟨h.log, List.pairwise_singleton _ _, ?_⟩
    intro a ha b hb r e har hbe
    rw [List.mem_singleton.mp hb] at hbe
    exact hadd e hbe r (List.mem_filterMap.mpr ⟨a, ha, har⟩)
  waiting e he r hr := by
    rw [removed_logged] at hr
    rcases List.mem_append.mp hr with hr | hr
    · exact h.waiting e he r hr
    · exact hremove r (Option.mem_toList.mp hr) e he

theorem Fresh.quiet (h : Fresh m rest) (hadd : entry.reported? = none) (hremove : entry.removal? = none) :
    Fresh (m.logged entry) rest :=
  h.logged (fun e he => by rw [hadd] at he; nomatch he) (fun r hr => by rw [hremove] at hr; nomatch hr)

theorem Fresh.drop (h : Fresh m (e :: rest)) : Fresh m rest where
  log := h.log
  waiting e' he' := h.waiting e' (by
    rcases List.mem_append.mp he' with he' | he'
    · exact List.mem_append_left _ he'
    · exact List.mem_append_right _ (List.mem_cons_of_mem _ he'))

theorem Fresh.called (h : Fresh m rest) : Fresh m.called [] where
  log := h.log
  waiting e he := h.waiting e (List.mem_append_left _ (by rwa [List.append_nil] at he))

theorem Fresh.refreshed (h : Fresh m rest) (partitions : List Partition) :
    Fresh (m.refreshed partitions) rest := by
  have hlogged : Fresh (m.logged (.mountpoints (mountpointMap partitions))) rest := h.quiet rfl rfl
  exact ⟨hlogged.log, hlogged.waiting⟩

theorem Fresh.afterAdd (h : Fresh m (e :: rest)) (partitions : List Partition) :
    Fresh (m.afterAdd e partitions) rest := by
  have hrefreshed := h.refreshed partitions
  unfold Monitor.afterAdd
  split
  · have hpending : Fresh ((m.refreshed partitions).logged (.pending e)) (e :: rest) :=
      hrefreshed.quiet rfl rfl
    refine ⟨hpending.log, fun e' he' => hpending.waiting e' ?_⟩
    rw [List.append_assoc, List.singleton_append] at he'
    exact he'
  · refine hrefreshed.drop.logged ?_ ?_
    · intro e' he'
      obtain rfl := Option.some.inj he'
      exact hrefreshed.waiting e (List.mem_append_right _ List.mem_cons_self)
    · intro r hr
      simp [Entry.removal?] at hr

theorem Fresh.swap (h : Fresh m []) : Fresh { m with pending_event_list := [] } m.pending_event_list where
  log := h.log
  waiting e he := h.waiting e (by rwa [List.append_nil])

theorem Fresh.arrive (h : Fresh m []) (he : ∀ r ∈ m.removed, ¬ e.Before r) : Fresh m [e] where
  log := h.log
  waiting e' he' := by
    rcases List.mem_append.mp he' with he' | he'
    · exact h.waiting e' (List.mem_append_left _ he')
    · exact List.mem_singleton.mp he' ▸ he

end

section runs

variable {disk : ℕ → Except Raised (List Partition)}

theorem Fresh.perform {m : Monitor} {task : Task} (h : Fresh m []) (horder : InOrder m task) :
    Fresh (perform disk m task) [] := by
  cases task with
  | check now =>
    exact check_rule (I := Fresh) (J := fun m' => Fresh m' []) now
      (fun m' e rest _ h => h.drop.quiet rfl rfl)
      (fun m' e rest partitions _ _ h => h.afterAdd partitions)
      (fun m' e rest raised _ _ h => h.called.quiet rfl rfl) (fun m' h => h) h.swap
  | process event =>
    have hprocessed : Processed disk m event _ := perform_process event
    generalize Uevent.perform disk m (.process event) = m' at hprocessed ⊢
    cases hprocessed with
    | @add e partitions hadd hdisk =>
      exact ((h.arrive (horder.add e hadd)).afterAdd partitions).quiet rfl rfl
    | addRaised hadd hdisk => exact h.called.quiet rfl rfl
    | @remove e hremove hadd =>
      refine Fresh.quiet ?_ rfl rfl
      refine h.logged ?_ ?_
      · intro e' he'
        rw [reported?_removal] at he'
        nomatch he'
      · intro r hr e' he'
        rw [removal?_removal] at hr
        obtain rfl := Option.some.inj hr
        exact horder.remove e hremove e' (by rwa [List.append_nil] at he')
    | other hnote hadd hremove => exact h.quiet hnote.reported?_eq hnote.removal?_eq

theorem fresh_started : Fresh (Monitor.started disk) [] := by
  have hinit : Fresh .init [] := ⟨.nil, fun e he => nomatch he⟩
  unfold Monitor.started
  cases hdisk : disk Monitor.init.diskCalls with
  | ok partitions =>
    rw [updateMountpoint_ok hdisk]
    exact hinit.refreshed partitions
  | error raised =>
    rw [updateMountpoint_error hdisk]
    exact hinit.called

end runs

/-! ### What happens otherwise -/

/-- A disk on which `devname` is always mounted. -/
def mounted (devname : String) : ℕ → Except Raised (List Partition) := calm fun _ => [⟨devname, "/mnt"⟩]

theorem lists_mounted (devname : String) : Lists [⟨devname, "/mnt"⟩] devname :=
  ⟨_, List.mem_singleton_self _, rfl⟩

/-- The log of a check continues the one before, and an event that has waited no time is reported in it if
its device is mounted. -/
theorem check_mounted {m : Monitor} {e : DeviceEvent} (he : e ∈ m.pending_event_list) :
    ∃ written, (perform (mounted e.devname) m (.check e.event.receive_time)).log = m.log ++ written ∧
      e ∈ written.filterMap Entry.reported? := by
  obtain ⟨written, hwritten⟩ := log_check (fun _ => [⟨e.devname, "/mnt"⟩]) e.event.receive_time m
  have hreported := (foldl_rechecked_eq (fun _ => [⟨e.devname, "/mnt"⟩]) e.event.receive_time
    m.pending_event_list { m with pending_event_list := [] }).2.1
  rw [← perform_check, Monitor.reported_of_log hwritten.symm] at hreported
  have hnew : ¬ e.IsExpired e.event.receive_time := by
    rw [DeviceEvent.IsExpired, Int.sub_self]
    decide
  have hmem : e ∈ m.pending_event_list.filter fun e' => ¬ e'.IsExpired e.event.receive_time :=
    List.mem_filter.mpr ⟨he, decide_eq_true hnew⟩
  obtain ⟨i, hi⟩ := List.getElem?_of_mem hmem
  refine ⟨written, hwritten.symm, ?_⟩
  rw [List.append_cancel_left hreported]
  refine List.mem_map.mpr
    ⟨(e, m.diskCalls + i), List.mem_filter.mpr ⟨?_, decide_eq_true (lists_mounted _)⟩, rfl⟩
  exact List.mk_add_mem_zipIdx_iff_getElem?.mpr hi

theorem remove?_eq {task : Task} {r : DeviceEvent} (h : task.remove? = some r) :
    ∃ event, task = .process event ∧ event.passes "remove" = some r := by
  cases task with
  | process event => exact ⟨event, rfl, h⟩
  | check now => nomatch h

theorem add?_eq {task : Task} {e : DeviceEvent} (h : task.add? = some e) :
    ∃ event, task = .process event ∧ event.passes "add" = some e := by
  cases task with
  | process event => exact ⟨event, rfl, h⟩
  | check now => nomatch h

theorem perform_remove {disk : ℕ → Except Raised (List Partition)} {m : Monitor} {event : Event}
    {r : DeviceEvent} (h : event.passes "remove" = some r) :
    perform disk m (.process event) = (m.logged (m.removal r)).logged (.processed event) := by
  have hprocessed : Processed disk m event _ := perform_process event
  have hadd : event.passes "add" = none := passes_of_ne h (by decide)
  generalize perform disk m (.process event) = m' at hprocessed ⊢
  cases hprocessed with
  | add hadd' | addRaised hadd' =>
    rw [hadd] at hadd'
    nomatch hadd'
  | remove hremove => rw [Option.some.inj (hremove.symm.trans h)]
  | other _ _ hremove =>
    rw [h] at hremove
    nomatch hremove

theorem perform_add {snapshots : ℕ → List Partition} {m : Monitor} {event : Event} {e : DeviceEvent}
    (h : event.passes "add" = some e) : perform (calm snapshots) m (.process event) =
      (m.afterAdd e (snapshots m.diskCalls)).logged (.processed event) := by
  have hprocessed : Processed (calm snapshots) m event _ := perform_process event
  generalize perform (calm snapshots) m (.process event) = m' at hprocessed ⊢
  cases hprocessed with
  | add hadd hdisk => rw [Option.some.inj (hadd.symm.trans h), Except.ok.inj hdisk]
  | addRaised _ hdisk => nomatch hdisk
  | remove _ hadd | other _ hadd =>
    rw [h] at hadd
    nomatch hadd

/-- A task out of order: at the next check, or with the task itself, something stale can be reported. -/
theorem opens_stale {m : Monitor} {task : Task} (h : ¬ InOrder m task) : ∃ disk now,
    ¬ NoStale (perform disk (perform disk m task) (.check now)).log := by
  by_cases hremove : ∀ r, task.remove? = some r → ∀ e ∈ m.pending_event_list, ¬ e.Before r
  · have hadd : ¬ ∀ e, task.add? = some e → ∀ r ∈ m.removed, ¬ e.Before r := fun hadd => h ⟨hremove, hadd⟩
    push Not at hadd
    obtain ⟨e, he, r, hr, hbefore⟩ := hadd
    obtain ⟨event, rfl, hpasses⟩ := add?_eq he
    refine ⟨mounted e.devname, 0, ?_⟩
    obtain ⟨written, hwritten⟩ := log_afterAdd m e [⟨e.devname, "/mnt"⟩]
    have hreported := (afterAdd_listed m e (lists_mounted e.devname)).2
    rw [Monitor.reported_of_log hwritten.symm] at hreported
    intro hstale
    obtain ⟨later, hlater⟩ := log_check (fun _ => [⟨e.devname, "/mnt"⟩]) 0
      (perform (mounted e.devname) m (.process event))
    rw [← mounted] at hlater
    rw [← hlater] at hstale
    have hlog : (perform (mounted e.devname) m (.process event)).log =
        m.log ++ (written ++ [.processed event]) := by
      rw [mounted, perform_add hpasses, Monitor.logged, ← hwritten, List.append_assoc]
    refine stale_of_mem hr ?_ hbefore (hlog ▸ hstale.append)
    rw [List.filterMap_append, List.append_cancel_left hreported]
    exact List.mem_append_left _ (List.mem_singleton_self e)
  · push Not at hremove
    obtain ⟨r, hr, e, he, hbefore⟩ := hremove
    obtain ⟨event, rfl, hpasses⟩ := remove?_eq hr
    refine ⟨mounted e.devname, e.event.receive_time, ?_⟩
    rw [perform_remove hpasses]
    obtain ⟨written, hlog, hreported⟩ :=
      check_mounted (m := (m.logged (m.removal r)).logged (.processed event)) he
    rw [hlog]
    refine stale_of_mem (List.mem_filterMap.mpr ⟨m.removal r, ?_, removal?_removal m r⟩) hreported hbefore
    exact List.mem_append_left _ (List.mem_append_right _ (List.mem_singleton_self _))

/-- In every run whose events come in order, whatever the checks read on the clock, whatever is mounted
when, and wherever `disk_partitions` raises, no add event is reported after a remove event of its device
that was received later. A task out of order, at the end of any run, opens the way to such a report. -/
theorem no_stale_report (disk : ℕ → Except Raised (List Partition)) (tasks : List Task) :
    (Lib.Along (perform disk) InOrder (.started disk) tasks → NoStale (Monitor.run disk tasks).log) ∧
      ∀ task, ¬ InOrder (Monitor.run disk tasks) task →
        ∃ disk' now,
          ¬ NoStale (perform disk' (perform disk' (Monitor.run disk tasks) task) (.check now)).log :=
  ⟨fun h => (Lib.run_invariant (I := fun m => Fresh m []) (fun _ _ hm => hm.perform) fresh_started h).log,
    fun _ => opens_stale⟩

/-- `/dev/sdb1` is added and removed before anything mounts it. Another stick gets the name, is mounted, and
the next check reports the old event, before the new one has been processed. -/
theorem stale_report :
    let disk (k : ℕ) : Except Raised (List Partition) :=
      if k < 2 then .ok [] else .ok [⟨"/dev/sdb1", "/media/usb"⟩]
    let m := Monitor.run disk [.process (partitionEvent 0 "add" "/dev/sdb1"),
      .process (partitionEvent 1 "remove" "/dev/sdb1"), .check 5000000]
    m.removed = [⟨partitionEvent 1 "remove" "/dev/sdb1", "/dev/sdb1", rfl⟩] ∧
      m.reported = [⟨partitionEvent 0 "add" "/dev/sdb1", "/dev/sdb1", rfl⟩] ∧ ¬ NoStale m.log := by
  intro disk m
  let added : DeviceEvent := ⟨partitionEvent 0 "add" "/dev/sdb1", "/dev/sdb1", rfl⟩
  let removed : DeviceEvent := ⟨partitionEvent 1 "remove" "/dev/sdb1", "/dev/sdb1", rfl⟩
  have hlog : m.log = ([.mountpoints [], .mountpoints [], .pending added, .processed added.event,
      .notFound removed] : List Entry) ++
      [.processed removed.event, .mountpoints [("/dev/sdb1", "/media/usb")], .add added "/media/usb"] := by
    decide
  refine ⟨by decide, by decide, ?_⟩
  rw [hlog]
  exact stale_of_mem (List.mem_singleton_self _) (List.mem_singleton_self _) ⟨rfl, by decide⟩

end NetProg.Uevent
