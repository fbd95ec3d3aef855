import NetProg.Uevent.Conservation
import Mathlib.Data.List.Perm.Subperm

/-!
# A check in which `disk_partitions` raises

`doCheckPendingEvent` replaces the pending list by an empty one before it goes through the old list, so an
exception leaves the events that it has not come to in no list at all, and the one that it was about to
recheck as well. The worker thread logs the exception and nothing brings them back.
`check_keeps_iff`: a check keeps all events exactly when no call of `disk_partitions` that it makes raises.
-/

namespace NetProg.Uevent

/-- Every event that was pending in `m` and that was neither reported nor dropped for its age on the way to
`m'` is pending in `m'`. Events are counted with their multiplicity. -/
def Keeps (m m' : Monitor) : Prop :=
  ∀ e, m.pending_event_list.count e ≤ m'.pending_event_list.count e +
    (m'.reported.drop m.reported.length).count e + (m'.expired.drop m.expired.length).count e

/-- All events that a monitor knows of. -/
def Monitor.places (m : Monitor) : List DeviceEvent := m.pending_event_list ++ m.reported ++ m.expired

/-- The pending events that a check looks for among the partitions. -/
def Monitor.unexpired (m : Monitor) (now : ℤ) : List DeviceEvent :=
  m.pending_event_list.filter fun e => ¬ e.IsExpired now

theorem account_places (m : Monitor) : Account m.places m [] :=
  ⟨.refl _, by rw [List.append_nil, Monitor.places, List.append_assoc]; exact List.sublist_append_left _ _⟩

theorem count_places {m m' : Monitor} (hlog : m.log <+: m'.log) (e : DeviceEvent) :
    m'.places.count e = m'.pending_event_list.count e + (m'.reported.drop m.reported.length).count e +
      (m'.expired.drop m.expired.length).count e + (m.reported ++ m.expired).count e := by
  obtain ⟨written, hwritten⟩ := hlog
  rw [Monitor.places, Monitor.reported_of_log hwritten.symm, Monitor.expired_of_log hwritten.symm,
    List.drop_left, List.drop_left]
  simp only [List.count_append]
  omega

/-- Keeping all events is a matter of how often each occurs. -/
theorem keeps_iff_count {m m' : Monitor} (hlog : m.log <+: m'.log) :
    Keeps m m' ↔ ∀ e, m.places.count e ≤ m'.places.count e := by
  apply forall_congr'
  intro e
  rw [count_places hlog e, Monitor.places, List.append_assoc, List.count_append]
  omega

theorem keeps_of_perm {m m' : Monitor} (hlog : m.log <+: m'.log) (hperm : m.places.Perm m'.places) :
    Keeps m m' :=
  (keeps_iff_count hlog).mpr fun e => Nat.le_of_eq (hperm.count_eq e)

theorem not_keeps_of_length {m m' : Monitor} (hlog : m.log <+: m'.log)
    (hlength : m'.places.length < m.places.length) : ¬ Keeps m m' := by
  intro h
  have hsubperm : m.places.Subperm m'.places :=
    List.subperm_iff_count.mpr ((keeps_iff_count hlog).mp h)
  exact absurd hsubperm.length_le (Nat.not_le_of_lt hlength)

/-! ### The loop -/

/-- A check of `m` that has come as far as `m'`, with `rest` still to come. -/
structure Progress (disk : ℕ → Except Raised (List Partition)) (m : Monitor) (now : ℤ) (m' : Monitor)
    (rest : List DeviceEvent) : Prop where
  account : Account m.places m' rest
  log : m.log <+: m'.log
  calls_le : m.diskCalls ≤ m'.diskCalls
  calls : m'.diskCalls + (rest.filter fun e => ¬ e.IsExpired now).length =
    m.diskCalls + (m.unexpired now).length
  answered : ∀ i, m.diskCalls + i < m'.diskCalls → ∃ partitions, disk (m.diskCalls + i) = .ok partitions

section loop

variable {disk : ℕ → Except Raised (List Partition)} {m m' : Monitor} {now : ℤ} {e : DeviceEvent}
  {rest : List DeviceEvent}

theorem progress_swap : Progress disk m now { m with pending_event_list := [] } m.pending_event_list where
  account := (account_places m).swap
  log := List.prefix_rfl
  calls_le := Nat.le_refl _
  calls := rfl
  answered _ hi := absurd hi (Nat.not_lt_of_le (Nat.le_add_right _ _))

theorem Progress.expired (hold : e.IsExpired now) (h : Progress disk m now m' (e :: rest)) :
    Progress disk m now (m'.logged (.expired e)) rest where
  account := h.account.expire
  log := h.log.trans (List.prefix_append _ _)
  calls_le := h.calls_le
  calls := by
    have hcalls := h.calls
    rwa [List.filter_cons_of_neg (by simpa using hold)] at hcalls
  answered := h.answered

theorem Progress.add {partitions : List Partition} (hnew : ¬ e.IsExpired now)
    (hdisk : disk m'.diskCalls = .ok partitions) (h : Progress disk m now m' (e :: rest)) :
    Progress disk m now (m'.afterAdd e partitions) rest where
  account := h.account.afterAdd partitions
  log := h.log.trans (log_afterAdd m' e partitions)
  calls_le := by
    rw [diskCalls_afterAdd]
    exact Nat.le_succ_of_le h.calls_le
  calls := by
    have hcalls := h.calls
    rw [List.filter_cons_of_pos (by simpa using hnew), List.length_cons] at hcalls
    rw [diskCalls_afterAdd]
    omega
  answered i hi := by
    rw [diskCalls_afterAdd] at hi
    rcases Nat.lt_succ_iff_lt_or_eq.mp hi with hlt | heq
    · exact h.answered i hlt
    · exact ⟨partitions, heq ▸ hdisk⟩

theorem Progress.done (h : Progress disk m now m' []) :
    Keeps m m' ∧ ∀ i < (m.unexpired now).length, ∃ partitions, disk (m.diskCalls + i) = .ok partitions := by
  have hcalls := h.calls
  rw [List.filter_nil, List.length_nil, Nat.add_zero] at hcalls
  exact ⟨keeps_of_perm h.log h.account.perm, fun i hi => h.answered i (by omega)⟩

theorem Progress.raise {raised : Raised} (hnew : ¬ e.IsExpired now)
    (hdisk : disk m'.diskCalls = .error raised) (h : Progress disk m now m' (e :: rest)) :
    ¬ Keeps m (m'.called.logged (.taskError raised)) ∧
      ∃ i < (m.unexpired now).length, disk (m.diskCalls + i) = .error raised := by
  constructor
  · refine not_keeps_of_length (h.log.trans (List.prefix_append _ _)) ?_
    have hlength := h.account.perm.length_eq
    have hplaces : (m'.called.logged (.taskError raised)).places = m'.places := by
      rw [Monitor.places, Monitor.reported_eq _ rfl, Monitor.expired_eq _ rfl]
      rfl
    rw [List.length_append, List.length_cons] at hlength
    rw [hplaces, hlength, Monitor.places]
    omega
  · have hcalls := h.calls
    rw [List.filter_cons_of_pos (by simpa using hnew), List.length_cons] at hcalls
    have hle := h.calls_le
    exact ⟨m'.diskCalls - m.diskCalls, by omega, by rw [Nat.add_sub_cancel' hle, hdisk]⟩

end loop

/-- Any pending list, any clock, any position of the exceptions: a check keeps every event that it neither
reports nor drops for its age exactly when none of the calls of `disk_partitions` that it makes, one for
each event that has not expired, raises. -/
theorem check_keeps_iff (disk : ℕ → Except Raised (List Partition)) (m : Monitor) (now : ℤ) :
    Keeps m (perform disk m (.check now)) ↔
      ∀ i < (m.unexpired now).length, ∃ partitions, disk (m.diskCalls + i) = .ok partitions := by
  refine check_rule (I := Progress disk m now)
    (J := fun m' => Keeps m m' ↔ ∀ i < (m.unexpired now).length, ∃ partitions,
      disk (m.diskCalls + i) = .ok partitions) now
    (fun m' e rest hold h => h.expired hold) (fun m' e rest partitions hnew hdisk h => h.add hnew hdisk)
    (fun m' e rest raised hnew hdisk h => ?_) (fun m' h => iff_of_true h.done.1 h.done.2) progress_swap
  obtain ⟨hlost, i, hi, hraised⟩ := h.raise hnew hdisk
  apply iff_of_false hlost
  intro hall
  obtain ⟨partitions, hok⟩ := hall i hi
  rw [hraised] at hok
  nomatch hok

/-- `/dev/sdb1` is added before it is mounted, so its event waits; the next check, five seconds later, meets
an exception, and the event is gone. -/
theorem failed_check_loses_event :
    let disk (k : ℕ) : Except Raised (List Partition) := if k < 2 then .ok [] else .error ⟨"OSError"⟩
    let m := Monitor.run disk [.process (partitionEvent 0 "add" "/dev/sdb1")]
    let m' := perform disk m (.check 5000000)
    m.pending_event_list = [⟨partitionEvent 0 "add" "/dev/sdb1", "/dev/sdb1", rfl⟩] ∧
      m'.pending_event_list = [] ∧ m'.reported = [] ∧ m'.expired = [] ∧ ¬ Keeps m m' := by
  intro disk m m'
  have hpending : m.pending_event_list = [⟨partitionEvent 0 "add" "/dev/sdb1", "/dev/sdb1", rfl⟩] := by
    decide
  refine ⟨hpending, by decide, by decide, by decide, ?_⟩
  intro h
  exact absurd (h ⟨partitionEvent 0 "add" "/dev/sdb1", "/dev/sdb1", rfl⟩) (by decide)

end NetProg.Uevent
