import NetProg.Uevent.Stale

/-!
# Removals reported from the last snapshot

`dev_mountpoint_map` is what the last call of `disk_partitions` found, whichever device it was made for
(`MapCurrent`), and a remove event is reported from it. So whether a removal matches the arrival it
undoes depends on what was mounted at that call: `removals_match_iff` says that the removals of a run match
its arrivals exactly when, at each of them, the last partitions found are the right ones (`Current`).
-/

namespace NetProg.Uevent

/-! ### Arrivals and removals in the log -/

/-- An add of the device was reported with this mountpoint, and no remove event of the device was processed
since. -/
def OpenReport (devname mountpoint : String) (log : List Entry) : Prop :=
  ∃ before e after, log = before ++ .add e mountpoint :: after ∧ e.devname = devname ∧
    ∀ r ∈ after.filterMap Entry.removal?, r.devname ≠ devname

/-- No removal of the device was reported. -/
def NotRemoved (devname : String) (log : List Entry) : Prop :=
  ∀ r mountpoint, .remove r mountpoint ∈ log → r.devname ≠ devname

/-- Since its last removal report an add of the device was reported, or the device was among the partitions
at start-up. -/
def Arrived (atStart : List Partition) (devname : String) (log : List Entry) : Prop :=
  (∃ before e mountpoint after, log = before ++ .add e mountpoint :: after ∧ e.devname = devname ∧
    NotRemoved devname after) ∨ (Lists atStart devname ∧ NotRemoved devname log)

section

variable (disk : ℕ → Except Raised (List Partition))

/-- The partitions found by the last of the first `calls` calls that did not raise. -/
def lastFound : ℕ → List Partition
  | 0 => []
  | calls + 1 =>
    match disk calls with
    | .ok partitions => partitions
    | .error _ => lastFound calls

/-- The task reports the removal of `r` from this mountpoint. -/
def ReportsRemoval (m : Monitor) (task : Task) (r : DeviceEvent) (mountpoint : String) : Prop :=
  .remove r mountpoint ∈ (perform disk m task).log.drop m.log.length

/-- A remove event is reported on every mountpoint with which an add of its device was reported since the
remove event before, and it is reported only if its device has arrived since the last removal report. -/
structure Matches (m : Monitor) (task : Task) : Prop where
  reported : ∀ r, task.remove? = some r → ∀ mountpoint, OpenReport r.devname mountpoint m.log →
    ReportsRemoval disk m task r mountpoint
  arrived : ∀ r, task.remove? = some r → ∀ mountpoint, ReportsRemoval disk m task r mountpoint →
    Arrived (lastFound disk 1) r.devname m.log

/-- At a remove event, the partitions found last show its device on every mountpoint with which it was
reported since the remove event before, and do not show it if it has not arrived. -/
structure Current (m : Monitor) (task : Task) : Prop where
  mounted : ∀ r, task.remove? = some r → ∀ mountpoint, OpenReport r.devname mountpoint m.log →
    (mountpointMap (lastFound disk m.diskCalls)).lookup r.devname = some mountpoint
  unmounted : ∀ r, task.remove? = some r → ¬ Arrived (lastFound disk 1) r.devname m.log →
    ¬ Lists (lastFound disk m.diskCalls) r.devname

end

/-! ### The map is the last snapshot -/

section

variable {disk : ℕ → Except Raised (List Partition)} {m : Monitor}

/-- The map is what the last call of `disk_partitions` that returned has found. -/
def MapCurrent (disk : ℕ → Except Raised (List Partition)) (m : Monitor) : Prop :=
  m.dev_mountpoint_map = mountpointMap (lastFound disk m.diskCalls)

theorem lastFound_ok {k : ℕ} {partitions : List Partition} (h : disk k = .ok partitions) :
    lastFound disk (k + 1) = partitions := by
  rw [lastFound, h]

theorem lastFound_error {k : ℕ} {raised : Raised} (h : disk k = .error raised) :
    lastFound disk (k + 1) = lastFound disk k := by
  rw [lastFound, h]

theorem MapCurrent.called {raised : Raised} (h : MapCurrent disk m)
    (hdisk : disk m.diskCalls = .error raised) : MapCurrent disk m.called := by
  rw [MapCurrent, Monitor.called, lastFound_error hdisk]
  exact h

theorem mapCurrent_refreshed {partitions : List Partition} (hdisk : disk m.diskCalls = .ok partitions) :
    MapCurrent disk (m.refreshed partitions) :=
  (congrArg mountpointMap (lastFound_ok hdisk)).symm

theorem mapCurrent_afterAdd {partitions : List Partition} (hdisk : disk m.diskCalls = .ok partitions)
    (e : DeviceEvent) : MapCurrent disk (m.afterAdd e partitions) := by
  unfold Monitor.afterAdd
  split <;> exact mapCurrent_refreshed hdisk

theorem MapCurrent.perform (h : MapCurrent disk m) (task : Task) :
    MapCurrent disk (perform disk m task) := by
  cases task with
  | check now =>
    exact check_rule (I := fun m' _ => MapCurrent disk m') (J := MapCurrent disk) now
      (fun m' e rest _ h => h)
      (fun m' e rest partitions _ hdisk _ => mapCurrent_afterAdd hdisk e)
      (fun m' e rest raised _ hdisk h => h.called hdisk) (fun m' h => h) h
  | process event =>
    have hprocessed : Processed disk m event _ := perform_process event
    generalize Uevent.perform disk m (.process event) = m' at hprocessed ⊢
    cases hprocessed with
    | @add e partitions hadd hdisk => exact mapCurrent_afterAdd hdisk e
    | addRaised hadd hdisk => exact h.called hdisk
    | remove | other => exact h

theorem mapCurrent_started : MapCurrent disk (.started disk) := by
  have hinit : MapCurrent disk .init := rfl
  unfold Monitor.started
  cases hdisk : disk Monitor.init.diskCalls with
  | ok partitions =>
    rw [updateMountpoint_ok hdisk]
    exact mapCurrent_refreshed hdisk
  | error raised =>
    rw [updateMountpoint_error hdisk]
    exact hinit.called hdisk

/-! ### Removal reports -/

theorem reportsRemoval_iff (h : MapCurrent disk m) {task : Task} {r : DeviceEvent}
    (hr : task.remove? = some r) (mountpoint : String) : ReportsRemoval disk m task r mountpoint ↔
      (mountpointMap (lastFound disk m.diskCalls)).lookup r.devname = some mountpoint := by
  obtain ⟨event, rfl, hpasses⟩ := remove?_eq hr
  have hlog : (Uevent.perform disk m (.process event)).log = m.log ++ [m.removal r, .processed event] := by
    rw [perform_remove hpasses, Monitor.logged, Monitor.logged, List.append_assoc]
    rfl
  rw [ReportsRemoval, hlog, List.drop_left, ← h, Monitor.removal]
  cases m.dev_mountpoint_map.lookup r.devname <;> simp [eq_comm]

theorem matches_iff_current (h : MapCurrent disk m) (task : Task) :
    Matches disk m task ↔ Current disk m task := by
  constructor
  · intro hmatches
    refine ⟨?_, ?_⟩
    · intro r hr mountpoint hopen
      exact (reportsRemoval_iff h hr mountpoint).mp (hmatches.reported r hr mountpoint hopen)
    · intro r hr harrived hlists
      have hne := fun hnone => (lookup_eq_none_iff _ r.devname).mp hnone hlists
      obtain ⟨mountpoint, hlookup⟩ := Option.ne_none_iff_exists'.mp hne
      exact harrived (hmatches.arrived r hr mountpoint ((reportsRemoval_iff h hr mountpoint).mpr hlookup))
  · intro hcurrent
    refine ⟨?_, ?_⟩
    · intro r hr mountpoint hopen
      exact (reportsRemoval_iff h hr mountpoint).mpr (hcurrent.mounted r hr mountpoint hopen)
    · intro r hr mountpoint hreports
      by_contra harrived
      have hlookup := (reportsRemoval_iff h hr mountpoint).mp hreports
      have hnone := (lookup_eq_none_iff _ r.devname).mpr (hcurrent.unmounted r hr harrived)
      rw [hnone] at hlookup
      nomatch hlookup

end

/-- In every run the removal reports match the arrivals exactly when the partitions found last are the right
ones at every remove event. -/
theorem removals_match_iff (disk : ℕ → Except Raised (List Partition)) (tasks : List Task) :
    Lib.Along (perform disk) (Matches disk) (.started disk) tasks ↔
      Lib.Along (perform disk) (Current disk) (.started disk) tasks :=
  Lib.along_congr (I := MapCurrent disk) (fun _ task h => h.perform task)
    (fun _ task h => matches_iff_current h task) mapCurrent_started tasks

/-- `/dev/sdb1` is mounted after its add event was processed and shows up in the snapshot made for
`/dev/sdc1`; `/dev/sdc1` is unmounted and no longer in the one made for `/dev/sdd1`. The first is reported
as removed without ever having been reported, and the second is not found. -/
theorem removals_mismatch :
    let disk (k : ℕ) : Except Raised (List Partition) :=
      if k = 2 then .ok [⟨"/dev/sdb1", "/media/b"⟩, ⟨"/dev/sdc1", "/media/c"⟩] else .ok []
    let tasks : List Task := [.process (partitionEvent 0 "add" "/dev/sdb1"),
      .process (partitionEvent 1 "add" "/dev/sdc1"), .process (partitionEvent 2 "remove" "/dev/sdb1"),
      .process (partitionEvent 3 "add" "/dev/sdd1"), .process (partitionEvent 4 "remove" "/dev/sdc1")]
    (Monitor.run disk tasks).reported = [⟨partitionEvent 1 "add" "/dev/sdc1", "/dev/sdc1", rfl⟩] ∧
      (.remove ⟨partitionEvent 2 "remove" "/dev/sdb1", "/dev/sdb1", rfl⟩ "/media/b" ∈
        (Monitor.run disk tasks).log) ∧
      (.notFound ⟨partitionEvent 4 "remove" "/dev/sdc1", "/dev/sdc1", rfl⟩ ∈ (Monitor.run disk tasks).log) ∧
      ¬ Lib.Along (perform disk) (Matches disk) (.started disk) tasks := by
  intro disk tasks
  refine ⟨by decide, by decide, by decide, ?_⟩
  rintro ⟨-, -, -, -, hlast, -⟩
  let added : DeviceEvent := ⟨partitionEvent 1 "add" "/dev/sdc1", "/dev/sdc1", rfl⟩
  let removed : DeviceEvent := ⟨partitionEvent 4 "remove" "/dev/sdc1", "/dev/sdc1", rfl⟩
  have hreports := hlast.reported removed rfl "/media/c" ?_
  · exact absurd hreports (by rw [ReportsRemoval]; decide)
  · let log := (Monitor.run disk (tasks.take 4)).log
    exact ⟨log.take 5, added, log.drop 6, by decide, rfl, by decide⟩

end NetProg.Uevent
