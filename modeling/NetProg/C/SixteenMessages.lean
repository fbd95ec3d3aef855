import NetProg.C.Strings
import NetProg.C.TcpSixteenServer

/-!
# What the C server of sixteen bytes prints

`tcp_sixteen_server.c` prints the array `message` as a string when a client has sent the first sixteen bytes
of it, and nobody has written a terminator behind them. What is printed of a client goes on with whatever
lies in the array there, as no session writes to that part of it (`printsSent_iff`).
-/

namespace NetProg.C.TcpSixteenServer
open Lib Sockaddr

/-- A turn up to its `printf` of the message: the array `message` then. -/
def received (message : Bytes) : EStateM Stop Peer Bytes := do
  let p ← get
  Peer.accept p.aborted
  Peer.check p.sockname
  Peer.check p.peername
  Peer.receive (recvAll message 16)

/-- The texts that `server` prints for the messages of its clients. One that is read on beyond the array is
`none`. -/
def texts : Bytes → List Peer → List (Option Bytes)
  | _, [] => []
  | message, p :: clients =>
    match received message p with
    | .error _ _ => []
    | .ok message' _ =>
      string message' 0 ::
        match session message p with
        | .ok message'' _ => texts message'' clients
        | .error _ _ => []

/-- A client whose sixteen bytes arrive. -/
def Delivers (p : Peer) : Prop :=
  (Peer.Retried p.aborted ∧ p.sockname = none ∧ p.peername = none) ∧
    16 ≤ p.rx.input.length ∧ Offers RecvAnswer.Benign RecvAnswer.offer 16 p.rx.script

theorem delivers_of_patient {p : Peer} (h : p.Patient) : Delivers p := ⟨h.calls, h.sends, h.delivered⟩

/-- What is printed are the bytes that the clients have sent, and if every client can be served, something
is printed for every one of them. -/
structure PrintsSent (message : Bytes) (clients : List Peer) : Prop where
  sent : texts message clients <+: clients.map fun p => some (p.rx.input.take 16)
  whole : (∀ p ∈ clients, p.Patient ∧ p.closed = none) → (texts message clients).length = clients.length

/-! ### One turn -/

section

variable {message message' : Bytes} {p : Peer} {clients : List Peer}

theorem session_eq (message : Bytes) (p : Peer) :
    session message p = (received message >>= fun message' => do
      printMessage message'
      Peer.transmit (sendMsg (literal farewell))
      Peer.check p.closed
      return message') p := by
  unfold session Peer.turn received
  simp only [bind_assoc, run_get_bind]

theorem received_eq_ok (hlen : message.length = 128) (h : Delivers p) :
    ∃ p', received message p = .ok (p.rx.input.take 16 ++ message.drop 16) p' := by
  obtain ⟨⟨haborted, hsockname, hpeername⟩, harrives⟩ := h
  obtain ⟨message', rx, hmessage⟩ :=
    (recvAll_returns_iff p.rx (show 16 ≤ message.length by omega) (by decide)).2 harrives
  have haccept : Peer.accept p.aborted p = .ok () p := Peer.accept_eq_ok_iff.2 ⟨haborted, rfl⟩
  have hname : Peer.check p.sockname p = .ok () p := Peer.check_eq_ok_iff.2 ⟨hsockname, rfl⟩
  have hname' : Peer.check p.peername p = .ok () p := Peer.check_eq_ok_iff.2 ⟨hpeername, rfl⟩
  rw [← eq_of_recvAll hlen hmessage]
  refine ⟨{ p with rx }, ?_⟩
  rw [received, run_get_bind, run_bind_ok haccept, run_bind_ok hname, run_bind_ok hname']
  exact Peer.receive_eq_ok_iff.2 ⟨rx, hmessage, rfl⟩

theorem delivers_of_received (hlen : message.length = 128) {p' : Peer}
    (h : received message p = .ok message' p') : Delivers p := by
  have hget : ∀ q : Peer, (get : EStateM Stop Peer Peer) q = .ok q q := fun _ => rfl
  unfold received at h
  simp only [bind_eq_ok_iff, hget, EStateM.Result.ok.injEq, Peer.accept_eq_ok_iff, Peer.check_eq_ok_iff,
    Peer.receive_eq_ok_iff] at h
  obtain ⟨_, _, ⟨rfl, rfl⟩, _, _, ⟨haborted, rfl⟩, _, _, ⟨hsockname, rfl⟩, _, _, ⟨hpeername, rfl⟩, rx,
    hmessage, -⟩ := h
  exact ⟨⟨haborted, hsockname, hpeername⟩,
    (recvAll_returns_iff _ (show 16 ≤ message.length by omega) (by decide)).1 ⟨_, _, hmessage⟩⟩

theorem eq_of_session (hlen : message.length = 128) {p' : Peer} (h : session message p = .ok message' p') :
    message' = p.rx.input.take 16 ++ message.drop 16 := by
  rw [session_eq] at h
  obtain ⟨printed, q, hreceived, hrest⟩ := bind_eq_ok_iff.1 h
  obtain ⟨q', hprinted⟩ := received_eq_ok hlen (delivers_of_received hlen hreceived)
  rw [hprinted] at hreceived
  cases hreceived
  simp only [bind_eq_ok_iff, run_pure, EStateM.Result.ok.injEq] at hrest
  obtain ⟨_, _, -, _, _, -, _, _, -, rfl, -⟩ := hrest
  rfl

theorem texts_of_not_delivers (hlen : message.length = 128) (h : ¬ Delivers p) :
    texts message (p :: clients) = [] := by
  rw [texts]
  cases hrun : received message p with
  | ok message' p' => exact absurd (delivers_of_received hlen hrun) h
  | error stop p' => rfl

theorem texts_of_delivers (hlen : message.length = 128) (hnul : 0 ∉ p.rx.input.take 16) (h : Delivers p) :
    ∃ behind, texts message (p :: clients) =
        (string message 16).map (p.rx.input.take 16 ++ ·) :: behind ∧
      ((p.Patient ∧ p.closed = none) ∧ 0 ∈ message.drop 16 →
        behind = texts (p.rx.input.take 16 ++ message.drop 16) clients) ∧
      (¬ ((p.Patient ∧ p.closed = none) ∧ 0 ∈ message.drop 16) → behind = []) := by
  obtain ⟨q, hreceived⟩ := received_eq_ok hlen h
  have hreturns := session_returns_iff hlen p
  simp only [hnul, or_false] at hreturns
  rw [← hreturns, texts, hreceived]
  dsimp only
  rw [string_append_of_notMem hnul, string_drop]
  refine ⟨_, rfl, ?_, ?_⟩
  · rintro ⟨message', p', hrun⟩
    rw [hrun, ← eq_of_session hlen hrun]
  · intro hfails
    cases hrun : session message p with
    | ok message' p' => exact absurd ⟨message', p', hrun⟩ hfails
    | error stop p' => rfl

theorem texts_singleton (hlen : message.length = 128) (hnul : 0 ∉ p.rx.input.take 16) (h : Delivers p) :
    texts message [p] = [(string message 16).map (p.rx.input.take 16 ++ ·)] := by
  obtain ⟨behind, htexts, hserved, hlast⟩ := @texts_of_delivers _ _ [] hlen hnul h
  rw [htexts, List.cons.injEq]
  refine ⟨rfl, ?_⟩
  by_cases hgoes : (p.Patient ∧ p.closed = none) ∧ 0 ∈ message.drop 16
  · rw [hserved hgoes, texts]
  · exact hlast hgoes

end

/-! ### A whole run -/

section

variable {message message' : Bytes} {clients : List Peer}

theorem length_after_message (hlen : message.length = 128) {p : Peer} (h : Delivers p) :
    (p.rx.input.take 16 ++ message.drop 16).length = 128 := by
  have hsends := h.2.1
  simp only [List.length_append, List.length_take, List.length_drop]
  omega

theorem string_after_message {p : Peer} (h : Delivers p) :
    string (p.rx.input.take 16 ++ message.drop 16) 16 = string message 16 := by
  have htake : (p.rx.input.take 16).length = 16 := List.length_take_of_le h.2.1
  rw [← string_drop, List.drop_append_of_le_length htake.ge, List.drop_of_length_le htake.le, List.nil_append,
    string_drop]

theorem printsSent_of_not_delivers (hlen : message.length = 128) {p : Peer} (h : ¬ Delivers p) :
    PrintsSent message (p :: clients) := by
  refine ⟨?_, fun hall => absurd (delivers_of_patient (hall p List.mem_cons_self).1) h⟩
  rw [texts_of_not_delivers hlen h]
  exact List.nil_prefix

/-- Nothing but the string behind the first sixteen bytes matters of what is in the array. -/
theorem texts_congr (hlen : message.length = 128) (hlen' : message'.length = 128)
    (hnul : ∀ p ∈ clients, 0 ∉ p.rx.input.take 16) (hsame : string message 16 = string message' 16) :
    texts message clients = texts message' clients := by
  induction clients generalizing message message' with
  | nil => rfl
  | cons p clients ih =>
    rw [List.forall_mem_cons] at hnul
    by_cases hdelivers : Delivers p
    · obtain ⟨behind, htexts, hserved, hlast⟩ := @texts_of_delivers _ _ clients hlen hnul.1 hdelivers
      obtain ⟨behind', htexts', hserved', hlast'⟩ := @texts_of_delivers _ _ clients hlen' hnul.1 hdelivers
      have hmem : 0 ∈ message.drop 16 ↔ 0 ∈ message'.drop 16 := by
        rw [← isSome_string_iff, hsame, isSome_string_iff]
      rw [htexts, htexts', hsame]
      congr 1
      by_cases hgoes : (p.Patient ∧ p.closed = none) ∧ 0 ∈ message.drop 16
      · rw [hserved hgoes, hserved' (by rwa [← hmem])]
        apply ih (length_after_message hlen hdelivers) (length_after_message hlen' hdelivers) hnul.2
        rw [string_after_message hdelivers, string_after_message hdelivers, hsame]
      · rw [hlast hgoes, hlast' (by rwa [← hmem])]
    · rw [texts_of_not_delivers hlen hdelivers, texts_of_not_delivers hlen' hdelivers]

theorem printsSent_of_terminated (hlen : message.length = 128)
    (hnul : ∀ p ∈ clients, 0 ∉ p.rx.input.take 16) (hend : string message 16 = some []) :
    PrintsSent message clients := by
  induction clients generalizing message with
  | nil => exact ⟨List.nil_prefix, fun _ => rfl⟩
  | cons p clients ih =>
    rw [List.forall_mem_cons] at hnul
    by_cases hdelivers : Delivers p
    · obtain ⟨behind, htexts, hserved, hlast⟩ := @texts_of_delivers _ _ clients hlen hnul.1 hdelivers
      have hmem : 0 ∈ message.drop 16 := by
        rw [← isSome_string_iff, hend]
        rfl
      have hrest := ih (length_after_message hlen hdelivers) hnul.2 ((string_after_message hdelivers).trans hend)
      rw [hend, Option.map_some, List.append_nil] at htexts
      constructor
      · rw [htexts, List.map_cons, List.prefix_cons_inj]
        by_cases hgoes : (p.Patient ∧ p.closed = none) ∧ 0 ∈ message.drop 16
        · rw [hserved hgoes]
          exact hrest.sent
        · rw [hlast hgoes]
          exact List.nil_prefix
      · intro hall
        rw [List.forall_mem_cons] at hall
        rw [htexts, hserved ⟨hall.1, hmem⟩, List.length_cons, List.length_cons, hrest.whole hall.2]
    · exact printsSent_of_not_delivers hlen hdelivers

/-- The server prints what the clients have sent exactly if there is a terminator right behind the first
sixteen bytes of the array, and it prints the same for two arrays exactly if they hold the same string
there, unless no message arrives. -/
theorem printsSent_iff (hlen : message.length = 128) (hlen' : message'.length = 128)
    (hnul : ∀ p ∈ clients, 0 ∉ p.rx.input.take 16) :
    (PrintsSent message clients ↔ message[16]? = some 0 ∨ ∀ p ∈ clients.head?, ¬ Delivers p) ∧
      (texts message clients = texts message' clients ↔
        string message 16 = string message' 16 ∨ ∀ p ∈ clients.head?, ¬ Delivers p) := by
  rw [← string_eq_nil_iff]
  cases clients with
  | nil =>
    have hnobody : ∀ p ∈ ([] : List Peer).head?, ¬ Delivers p := fun p hp => by simp at hp
    exact ⟨iff_of_true ⟨List.nil_prefix, fun _ => rfl⟩ (.inr hnobody), iff_of_true rfl (.inr hnobody)⟩
  | cons p clients =>
    by_cases hdelivers : Delivers p
    · have hfirst := (List.forall_mem_cons.1 hnul).1
      obtain ⟨behind, htexts, -⟩ := @texts_of_delivers _ _ clients hlen hfirst hdelivers
      obtain ⟨behind', htexts', -⟩ := @texts_of_delivers _ _ clients hlen' hfirst hdelivers
      simp only [List.head?_cons, Option.mem_some_iff, forall_eq', hdelivers, not_true_eq_false, or_false]
      refine ⟨⟨fun h => ?_, printsSent_of_terminated hlen hnul⟩, fun h => ?_, texts_congr hlen hlen' hnul⟩
      · have hhead := h.sent
        rw [htexts, List.map_cons, List.cons_prefix_cons, Option.map_eq_some_iff] at hhead
        obtain ⟨⟨behind, hbehind, happend⟩, -⟩ := hhead
        rwa [List.append_right_eq_self.1 happend] at hbehind
      · rw [htexts, htexts', List.cons.injEq] at h
        exact Option.map_injective (List.append_right_injective _) h.1
    · simp only [List.head?_cons, Option.mem_some_iff, forall_eq', hdelivers, not_false_eq_true, or_true,
        iff_true]
      refine ⟨printsSent_of_not_delivers hlen hdelivers, ?_⟩
      rw [texts_of_not_delivers hlen hdelivers, texts_of_not_delivers hlen' hdelivers]

end

/-- A client whose sixteen bytes come in two pieces. -/
def eager : Peer :=
  ⟨[], none, none, ⟨List.replicate 16 65, [.deliver 7, .deliver 9]⟩, ⟨[], [.accept 16]⟩, none⟩

/-- An array in which there is something behind the first sixteen bytes. -/
def leftover : Bytes := List.replicate 16 0 ++ 66 :: List.replicate 111 0

theorem delivers_eager : Delivers eager :=
  ⟨⟨List.forall_mem_nil _, rfl, rfl⟩, by decide,
    (offers_cons (by decide)).2 ⟨.inl trivial, (offers_cons (by decide)).2 ⟨.inl trivial, offers_zero⟩⟩⟩

theorem printsSent_iff_eager :
    PrintsSent (List.replicate 128 0) [eager] ∧
      texts (List.replicate 128 0) [eager] = texts (66 :: List.replicate 127 0) [eager] := by
  have h := @printsSent_iff (List.replicate 128 0) (66 :: List.replicate 127 0) [eager] rfl rfl
    (List.forall_mem_singleton.2 (by decide))
  exact ⟨h.1.2 (.inl rfl), h.2.2 (.inl rfl)⟩

/-- A byte of the array that the client has not sent is printed. -/
theorem leftover_printed :
    Delivers eager ∧ 0 ∉ eager.rx.input.take 16 ∧ ¬ PrintsSent leftover [eager] ∧
      texts leftover [eager] = [some (List.replicate 16 65 ++ [66])] ∧
      texts (List.replicate 128 0) [eager] = [some (List.replicate 16 65)] := by
  have hnul : 0 ∉ eager.rx.input.take 16 := by decide
  have hleftover : texts leftover [eager] = [some (List.replicate 16 65 ++ [66])] := by
    rw [texts_singleton (by simp [leftover]) hnul delivers_eager]
    decide
  have hzeros : texts (List.replicate 128 0) [eager] = [some (List.replicate 16 65)] := by
    rw [texts_singleton List.length_replicate hnul delivers_eager]
    decide
  refine ⟨delivers_eager, hnul, fun h => ?_, hleftover, hzeros⟩
  have hsent := h.sent
  rw [hleftover] at hsent
  exact absurd hsent (by decide)

end NetProg.C.TcpSixteenServer
