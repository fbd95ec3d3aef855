import NetProg.Uevent.Monitor
import Mathlib.Data.List.Perm.Basic

/-!
# No add event is lost or duplicated

As long as `disk_partitions` does not raise, the add events processed so far are the pending, the reported
and the expired ones, each once (`Account`), also in the middle of a check, when the events that the loop
has not come to yet are the rest of the old list. `forM_recheck` makes the loop of a check a fold, and
`foldl_rechecked_eq` says what becomes of each event: the calls of `disk_partitions` are made for the events
that have not expired, in order.
-/

namespace NetProg.Uevent

/-- The event that an entry reports as a partition add. -/
def Entry.reported? : Entry → Option DeviceEvent
  | .add e _ => some e
  | _ => none

/-- The event that an entry gives up. -/
def Entry.expired? : Entry → Option DeviceEvent
  | .expired e => some e
  | _ => none

namespace Monitor

/-- The events reported as partition adds, in order. -/
def reported (m : Monitor) : List DeviceEvent := m.log.filterMap Entry.reported?

/-- The events dropped for their age, in order. -/
def expired (m : Monitor) : List DeviceEvent := m.log.filterMap Entry.expired?

theorem reported_of_log {m m' : Monitor} {written : List Entry} (h : m'.log = m.log ++ written) :
    m'.reported = m.reported ++ written.filterMap Entry.reported? := by
  rw [reported, h, List.filterMap_append, reported]

theorem expired_of_log {m m' : Monitor} {written : List Entry} (h : m'.log = m.log ++ written) :
    m'.expired = m.expired ++ written.filterMap Entry.expired? := by
  rw [expired, h, List.filterMap_append, expired]

theorem filterMap_logged (m : Monitor) (entry : Entry) (kind : Entry → Option DeviceEvent) :
    (m.logged entry).log.filterMap kind = m.log.filterMap kind ++ (kind entry).toList := by
  rw [logged, List.filterMap_append]
  cases h : kind entry <;> simp [h]

theorem reported_logged (m : Monitor) (entry : Entry) :
    (m.logged entry).reported = m.reported ++ entry.reported?.toList :=
  m.filterMap_logged entry Entry.reported?

theorem expired_logged (m : Monitor) (entry : Entry) :
    (m.logged entry).expired = m.expired ++ entry.expired?.toList :=
  m.filterMap_logged entry Entry.expired?

theorem reported_eq (m : Monitor) {entry : Entry} (h : entry.reported? = none) :
    (m.logged entry).reported = m.reported := by
  rw [reported_logged, h, Option.toList_none, List.append_nil]

theorem expired_eq (m : Monitor) {entry : Entry} (h : entry.expired? = none) :
    (m.logged entry).expired = m.expired := by
  rw [expired_logged, h, Option.toList_none, List.append_nil]

end Monitor

theorem Entry.IsNote.reported?_eq {entry : Entry} (h : entry.IsNote) : entry.reported? = none := by
  cases entry <;> first | rfl | exact absurd h not_false

theorem Entry.IsNote.expired?_eq {entry : Entry} (h : entry.IsNote) : entry.expired? = none := by
  cases entry <;> first | rfl | exact absurd h not_false

theorem reported?_removal (m : Monitor) (e : DeviceEvent) : (m.removal e).reported? = none := by
  unfold Monitor.removal
  split <;> rfl

theorem expired?_removal (m : Monitor) (e : DeviceEvent) : (m.removal e).expired? = none := by
  unfold Monitor.removal
  split <;> rfl

/-- The add events that `tasks` process, in order. -/
def adds (tasks : List Task) : List DeviceEvent := tasks.filterMap Task.add?

section

variable (m : Monitor) (e : DeviceEvent) {partitions : List Partition}

theorem diskCalls_afterAdd : (m.afterAdd e partitions).diskCalls = m.diskCalls + 1 := by
  unfold Monitor.afterAdd
  split <;> rfl

variable (partitions) in
theorem log_afterAdd : m.log <+: (m.afterAdd e partitions).log := by
  unfold Monitor.afterAdd
  split <;> exact (List.prefix_append _ _).trans (List.prefix_append _ _)

theorem expired_afterAdd : (m.afterAdd e partitions).expired = m.expired := by
  have hrefreshed : (m.refreshed partitions).expired = m.expired := m.called.expired_eq rfl
  unfold Monitor.afterAdd
  split <;> exact (Monitor.expired_eq _ rfl).trans hrefreshed

theorem afterAdd_listed (h : Lists partitions e.devname) :
    (m.afterAdd e partitions).pending_event_list = m.pending_event_list ∧
      (m.afterAdd e partitions).reported = m.reported ++ [e] := by
  have hrefreshed : (m.refreshed partitions).reported = m.reported := m.called.reported_eq rfl
  unfold Monitor.afterAdd
  split
  · rename_i hnone
    exact absurd h ((lookup_eq_none_iff partitions e.devname).mp hnone)
  · refine ⟨rfl, ?_⟩
    rw [Monitor.reported_logged, hrefreshed]
    rfl

theorem afterAdd_unlisted (h : ¬ Lists partitions e.devname) :
    (m.afterAdd e partitions).pending_event_list = m.pending_event_list ++ [e] ∧
      (m.afterAdd e partitions).reported = m.reported := by
  have hrefreshed : (m.refreshed partitions).reported = m.reported := m.called.reported_eq rfl
  rw [Monitor.afterAdd, (lookup_eq_none_iff partitions e.devname).mpr h]
  exact ⟨rfl, (Monitor.reported_eq _ rfl).trans hrefreshed⟩

end

section runs

variable (snapshots : ℕ → List Partition)

/-- `disk_partitions` when it never raises. -/
def calm (k : ℕ) : Except Raised (List Partition) := .ok (snapshots k)

/-- One turn of the loop of a check. -/
def rechecked (now : ℤ) (m : Monitor) (e : DeviceEvent) : Monitor :=
  if e.IsExpired now then m.logged (.expired e) else m.afterAdd e (snapshots m.diskCalls)

variable {snapshots}

theorem forM_recheck (now : ℤ) (events : List DeviceEvent) (m : Monitor) :
    events.forM (recheck (calm snapshots) now) m = .ok () (events.foldl (rechecked snapshots now) m) := by
  induction events generalizing m with
  | nil => rfl
  | cons e events ih =>
    by_cases hold : e.IsExpired now
    · rw [Lib.run_forM_cons_ok (recheck_expired hold), ih, List.foldl_cons, rechecked, if_pos hold]
    · rw [Lib.run_forM_cons_ok ((recheck_add hold).trans (onPartitionAdd_ok rfl e)), ih, List.foldl_cons,
        rechecked, if_neg hold]

theorem log_foldl_rechecked (now : ℤ) (events : List DeviceEvent) (m : Monitor) :
    m.log <+: (events.foldl (rechecked snapshots now) m).log := by
  induction events generalizing m with
  | nil => exact List.prefix_rfl
  | cons e events ih =>
    refine List.IsPrefix.trans ?_ (ih _)
    unfold rechecked
    split
    · exact List.prefix_append _ _
    · exact log_afterAdd m e _

theorem perform_check (now : ℤ) (m : Monitor) : perform (calm snapshots) m (.check now) =
    m.pending_event_list.foldl (rechecked snapshots now) { m with pending_event_list := [] } := by
  rw [perform, Task.call, doCheckPendingEvent, Lib.run_get_bind, Lib.run_modify_bind, forM_recheck]

variable (snapshots) in
theorem log_check (now : ℤ) (m : Monitor) : m.log <+: (perform (calm snapshots) m (.check now)).log := by
  rw [perform_check]
  exact log_foldl_rechecked now m.pending_event_list { m with pending_event_list := [] }

/-! ### The account -/

/-- Every event of `events` is in exactly one place, where the `rest` are pending too, behind the others. -/
structure Account (events : List DeviceEvent) (m : Monitor) (rest : List DeviceEvent) : Prop where
  perm : events.Perm (rest ++ (m.pending_event_list ++ m.reported ++ m.expired))
  order : (m.pending_event_list ++ rest).Sublist events

theorem Account.afterAdd {events rest : List DeviceEvent} {m : Monitor} {e : DeviceEvent}
    (h : Account events m (e :: rest)) (partitions : List Partition) :
    Account events (m.afterAdd e partitions) rest := by
  by_cases hlisted : Lists partitions e.devname
  · obtain ⟨hpending, hreported⟩ := afterAdd_listed m e hlisted
    refine ⟨h.perm.trans ?_, ?_⟩
    · rw [hpending, hreported, expired_afterAdd, List.cons_append]
      refine List.perm_middle.symm.trans (List.Perm.append_left rest ?_)
      rw [← List.append_assoc, List.append_assoc (_ ++ _), List.singleton_append]
      exact List.perm_middle.symm
    · rw [hpending]
      exact (List.Sublist.append_left (List.sublist_cons_self e rest) _).trans h.order
  · obtain ⟨hpending, hreported⟩ := afterAdd_unlisted m e hlisted
    refine ⟨h.perm.trans ?_, ?_⟩
    · rw [hpending, hreported, expired_afterAdd, List.cons_append]
      refine List.perm_middle.symm.trans (List.Perm.append_left rest ?_)
      rw [List.append_assoc, List.append_assoc, List.append_assoc, List.singleton_append]
      exact List.perm_middle.symm
    · rw [hpending, List.append_assoc]
      exact h.order

theorem Account.expire {events rest : List DeviceEvent} {m : Monitor} {e : DeviceEvent}
    (h : Account events m (e :: rest)) : Account events (m.logged (.expired e)) rest := by
  refine ⟨h.perm.trans ?_, ?_⟩
  · rw [Monitor.expired_logged, m.reported_eq rfl, List.cons_append]
    refine List.perm_middle.symm.trans (List.Perm.append_left rest ?_)
    rw [← List.append_assoc]
    exact (List.perm_append_singleton _ _).symm
  · exact (List.Sublist.append_left (List.sublist_cons_self e rest) _).trans h.order

theorem Account.rechecked {events rest : List DeviceEvent} {m : Monitor} {e : DeviceEvent}
    (h : Account events m (e :: rest)) (now : ℤ) : Account events (rechecked snapshots now m e) rest := by
  by_cases hold : e.IsExpired now
  · rw [Uevent.rechecked, if_pos hold]
    exact h.expire
  · rw [Uevent.rechecked, if_neg hold]
    exact h.afterAdd _

theorem Account.foldl_rechecked {events rest : List DeviceEvent} (now : ℤ) (done : List DeviceEvent)
    {m : Monitor} (h : Account events m (done ++ rest)) :
    Account events (done.foldl (Uevent.rechecked snapshots now) m) rest := by
  induction done generalizing m with
  | nil => exact h
  | cons e done ih => exact ih (h.rechecked now)

theorem Account.swap {events : List DeviceEvent} {m : Monitor} (h : Account events m []) :
    Account events { m with pending_event_list := [] } m.pending_event_list := by
  refine ⟨?_, ?_⟩
  · have hperm := h.perm
    rw [List.nil_append, List.append_assoc] at hperm
    exact hperm
  · have horder := h.order
    rw [List.append_nil] at horder
    exact horder

theorem Account.arrive {events : List DeviceEvent} {m : Monitor} (h : Account events m [])
    (e : DeviceEvent) : Account (events ++ [e]) m [e] := by
  refine ⟨(List.perm_append_singleton e events).trans (h.perm.cons e), ?_⟩
  have horder := h.order
  rw [List.append_nil] at horder
  exact horder.append (List.Sublist.refl [e])

theorem Account.note {events : List DeviceEvent} {m : Monitor} (h : Account events m []) {entry : Entry}
    (hreported : entry.reported? = none) (hexpired : entry.expired? = none) :
    Account events (m.logged entry) [] := by
  refine ⟨?_, h.order⟩
  rw [m.reported_eq hreported, m.expired_eq hexpired]
  exact h.perm

theorem Account.perform {events : List DeviceEvent} {m : Monitor} (h : Account events m []) (task : Task) :
    Account (events ++ task.add?.toList) (perform (calm snapshots) m task) [] := by
  cases task with
  | check now =>
    rw [perform_check, Task.add?, Option.toList_none, List.append_nil]
    exact Account.foldl_rechecked now m.pending_event_list (by rw [List.append_nil]; exact h.swap)
  | process event =>
    have hprocessed : Processed (calm snapshots) m event _ := perform_process event
    rw [Task.add?]
    generalize Uevent.perform (calm snapshots) m (.process event) = m' at hprocessed ⊢
    cases hprocessed with
    | @add e partitions hadd hdisk =>
      rw [hadd]
      exact ((h.arrive e).afterAdd partitions).note rfl rfl
    | addRaised hadd hdisk => nomatch hdisk
    | @remove e hremove hadd =>
      rw [hadd, Option.toList_none, List.append_nil]
      exact (h.note (reported?_removal m e) (expired?_removal m e)).note rfl rfl
    | other hnote hadd hremove =>
      rw [hadd, Option.toList_none, List.append_nil]
      exact h.note hnote.reported?_eq hnote.expired?_eq

theorem account_started : Account [] (Monitor.started (calm snapshots)) [] := ⟨.refl _, .slnil⟩

theorem account_run (tasks : List Task) : Account (adds tasks) (Monitor.run (calm snapshots) tasks) [] := by
  suffices h : ∀ events m, Account events m [] →
      Account (events ++ adds tasks) (Lib.run (Uevent.perform (calm snapshots)) m tasks) [] from
    h [] _ account_started
  induction tasks with
  | nil => exact fun events m h => by rwa [adds, List.filterMap_nil, List.append_nil]
  | cons task tasks ih =>
    intro events m h
    have hadds : adds (task :: tasks) = task.add?.toList ++ adds tasks := by
      rw [adds, List.filterMap_cons, adds]
      cases task.add? <;> rfl
    rw [hadds, ← List.append_assoc]
    exact ih _ _ (h.perform task)

/-! ### What becomes of each event -/

/-- The pending events that have not expired, each with the call of `disk_partitions` that a check makes for
it. -/
def rechecks (m : Monitor) (now : ℤ) : List (DeviceEvent × ℕ) :=
  (m.pending_event_list.filter fun e => ¬ e.IsExpired now).zipIdx m.diskCalls

variable (snapshots) in
theorem foldl_rechecked_eq (now : ℤ) (events : List DeviceEvent) (m : Monitor) :
    (events.foldl (rechecked snapshots now) m).expired = m.expired ++ events.filter (·.IsExpired now) ∧
      (events.foldl (rechecked snapshots now) m).reported = m.reported ++
        (((events.filter fun e => ¬ e.IsExpired now).zipIdx m.diskCalls).filter fun p =>
          Lists (snapshots p.2) p.1.devname).map Prod.fst ∧
      (events.foldl (rechecked snapshots now) m).pending_event_list = m.pending_event_list ++
        (((events.filter fun e => ¬ e.IsExpired now).zipIdx m.diskCalls).filter fun p =>
          ¬ Lists (snapshots p.2) p.1.devname).map Prod.fst := by
  induction events generalizing m with
  | nil => simp
  | cons e events ih =>
    rw [List.foldl_cons]
    obtain ⟨hexpired, hreported, hpending⟩ := ih (rechecked snapshots now m e)
    rw [hexpired, hreported, hpending, rechecked]
    by_cases hold : e.IsExpired now
    · rw [if_pos hold, Monitor.expired_logged, Monitor.reported_logged]
      simp [hold, Entry.expired?, Entry.reported?, Monitor.logged]
    · rw [if_neg hold, expired_afterAdd, diskCalls_afterAdd]
      by_cases hlisted : Lists (snapshots m.diskCalls) e.devname
      · obtain ⟨hpending, hreported⟩ := afterAdd_listed m e hlisted
        simp [hold, hlisted, hpending, hreported]
      · obtain ⟨hpending, hreported⟩ := afterAdd_unlisted m e hlisted
        simp [hold, hlisted, hpending, hreported]

theorem perform_process_calm (m : Monitor) (event : Event) :
    (perform (calm snapshots) m (.process event)).expired = m.expired ∧
      ∃ new, (perform (calm snapshots) m (.process event)).reported = m.reported ++ new ∧
        ∀ e ∈ new, Lists (snapshots m.diskCalls) e.devname := by
  have hprocessed : Processed (calm snapshots) m event _ := perform_process event
  generalize perform (calm snapshots) m (.process event) = m' at hprocessed ⊢
  cases hprocessed with
  | @add e partitions hadd hdisk =>
    obtain rfl : snapshots m.diskCalls = partitions := Except.ok.inj hdisk
    refine ⟨?_, ?_⟩
    · rw [Monitor.expired_eq _ rfl, expired_afterAdd]
    · rw [Monitor.reported_eq _ rfl]
      by_cases hlisted : Lists (snapshots m.diskCalls) e.devname
      · exact ⟨[e], (afterAdd_listed m e hlisted).2, fun e' he' => List.mem_singleton.mp he' ▸ hlisted⟩
      · exact ⟨[], by rw [(afterAdd_unlisted m e hlisted).2, List.append_nil], fun e' he' => nomatch he'⟩
  | addRaised hadd hdisk => nomatch hdisk
  | @remove e hremove hadd =>
    refine ⟨?_, [], ?_, fun e' he' => nomatch he'⟩
    · rw [Monitor.expired_eq _ rfl, m.expired_eq (expired?_removal m e)]
    · rw [Monitor.reported_eq _ rfl, m.reported_eq (reported?_removal m e), List.append_nil]
  | other hnote hadd hremove =>
    refine ⟨m.expired_eq hnote.expired?_eq, [], ?_, fun e' he' => nomatch he'⟩
    rw [m.reported_eq hnote.reported?_eq, List.append_nil]

/-- After any tasks, at any readings of the clock and with any partitions at each call: the processed add
events are the pending ones, which stand in the order of processing, the reported and the expired ones, each
once. Processing an event expires none and reports one only if this call of `disk_partitions` lists its
device. A check expires exactly the old events, reports the others that their call lists and keeps those it
does not list. In the middle of a check the events that are still to come have not been lost either. -/
theorem conservation (snapshots : ℕ → List Partition) (tasks : List Task) :
    let m := Monitor.run (calm snapshots) tasks
    ((adds tasks).Perm (m.pending_event_list ++ m.reported ++ m.expired) ∧
        m.pending_event_list.Sublist (adds tasks)) ∧
      (∀ event,
        let m' := perform (calm snapshots) m (.process event)
        m'.expired = m.expired ∧
          ∃ new, m'.reported = m.reported ++ new ∧ ∀ e ∈ new, Lists (snapshots m.diskCalls) e.devname) ∧
      (∀ now,
        let m' := perform (calm snapshots) m (.check now)
        m'.expired = m.expired ++ m.pending_event_list.filter (·.IsExpired now) ∧
          m'.reported = m.reported ++
            ((rechecks m now).filter fun p => Lists (snapshots p.2) p.1.devname).map Prod.fst ∧
          m'.pending_event_list =
            ((rechecks m now).filter fun p => ¬ Lists (snapshots p.2) p.1.devname).map Prod.fst) ∧
      ∀ now i, ∃ m',
        (m.pending_event_list.take i).forM (recheck (calm snapshots) now)
            { m with pending_event_list := [] } = .ok () m' ∧
          (adds tasks).Perm
            (m.pending_event_list.drop i ++ (m'.pending_event_list ++ m'.reported ++ m'.expired)) := by
  intro m
  have haccount : Account (adds tasks) m [] := account_run tasks
  refine ⟨⟨haccount.perm, ?_⟩, perform_process_calm m, fun now => ?_,
    fun now i => ⟨_, forM_recheck now _ _, ?_⟩⟩
  · have horder := haccount.order
    rwa [List.append_nil] at horder
  · obtain ⟨hexpired, hreported, hpending⟩ :=
      foldl_rechecked_eq snapshots now m.pending_event_list { m with pending_event_list := [] }
    rw [perform_check]
    exact ⟨hexpired, hreported, hpending⟩
  · have hswap := haccount.swap
    rw [← List.take_append_drop i m.pending_event_list] at hswap
    exact (hswap.foldl_rechecked now (m.pending_event_list.take i)).perm

end runs

end NetProg.Uevent
