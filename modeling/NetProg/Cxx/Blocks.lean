import NetProg.Cxx.Wrapsock

/-!
# Block framing in C++

`PutBlock` and `GetBlock` of `lib/cxx/blocks.cpp`, the sending client of `tcp_block_client.cpp` for any
list of messages in place of its three sentences, and the receiving loop of `tcp_block_server.cpp`.

The client puts a framed conversation on the wire (`client_spec`), the server's loop follows
`Lib.Decodes` (`server_of_decodes`), and `Lib.decodes_frames` joins the two into `round_trip`.
-/

namespace NetProg.Cxx
open Lib (run_bind_ok Schedule)

/-- `void PutBlock(Socket& sock, const std::string& message)` on a host of byte order `e`. -/
def putBlock (e : Endian) (message : Bytes) : EStateM Stop Tx Unit := do
  let block_length := htonl e (toU32 message.length)
  Socket.sendAll (store e block_length) 4
  Socket.sendAll message message.length

/-- `std::string GetBlock(Socket& sock)` on a host of byte order `e`. -/
def getBlock (e : Endian) : EStateM Stop Rx Bytes :=
  Lib.readFrame 4 (fun header => (ntohl e (load e header)).toNat) Socket.recvAll

/-- A client that sends `messages` and then the empty block. -/
def client (e : Endian) (messages : List Bytes) : EStateM Stop Tx Unit := do
  messages.forM (putBlock e)
  putBlock e []

/-- The server's loop on one connection: every `GetBlock` that returns takes at least one call of
`recv`, so it has one turn more than the script has answers. -/
def server (e : Endian) (rx : Rx) : Lib.Served UInt8 Stop Rx :=
  Lib.serve (getBlock e) (rx.script.length + 1) rx

/-! ### The sending side -/

theorem putBlock_writesFrames (e : Endian) :
    Lib.WritesFrames networkOrder (fun m => m.length < 2 ^ 32) Tx.wire
      (fun n tx => tx.Benign ∧ n ≤ tx.budget) (putBlock e) := by
  intro message n tx hlt ⟨hbenign, hbudget⟩
  have hheader : store e (htonl e (toU32 message.length)) = networkOrder.encode message.length :=
    store_htonl_toU32 e hlt
  have hlen : (networkOrder.encode message.length).length = 4 := networkOrder.length_encode _
  rw [Lib.LengthCode.frame, List.length_append] at hbudget
  obtain ⟨tx₁, hrun₁, hwire₁, hben₁, hbud₁⟩ := Socket.sendAll_spec (by omega) hbenign
    (by omega : (networkOrder.encode message.length).length ≤ tx.budget)
  obtain ⟨tx₂, hrun₂, hwire₂, hben₂, hbud₂⟩ := Socket.sendAll_spec (by omega) hben₁
    (by omega : message.length ≤ tx₁.budget)
  refine ⟨tx₂, ?_, ?_, hben₂, by omega⟩
  · rw [hlen] at hrun₁
    rw [putBlock, hheader, run_bind_ok hrun₁, hrun₂]
  · rw [hwire₂, hwire₁, Lib.LengthCode.frame, List.append_assoc]

theorem client_spec (e : Endian) {messages : List Bytes} {tx : Tx}
    (hlt : ∀ m ∈ messages, m.length < 2 ^ 32) (hbenign : tx.Benign)
    (hbudget : (networkOrder.frames messages ++ networkOrder.closing).length ≤ tx.budget) :
    ∃ tx', client e messages tx = .ok () tx' ∧
      tx'.wire = tx.wire ++ (networkOrder.frames messages ++ networkOrder.closing) :=
  (putBlock_writesFrames e).conversation hlt (by simp) ⟨hbenign, hbudget⟩

/-! ### The receiving side -/

theorem server_of_decodes (e : Endian) {rx : Rx} {blocks : List Bytes} {rest : Bytes} {ending : Lib.Ending}
    (h : Lib.Decodes networkOrder rx.input blocks rest ending) (hbenign : rx.Benign)
    (hbudget : rx.input.length < rx.budget) :
    (server e rx).blocks = blocks ∧ (server e rx).Ends Rx.input Stop.IsEof rest ending := by
  have hblocks := h.length_blocks_le
  have hscript := rx.budget_le
  exact Lib.serve_of_decodes Socket.recvAll_readsExactly (fun _ hlen => ntohl_load e hlen)
    (by decide : (4 : ℕ) < 2 ^ 64) (by decide : (2 : ℕ) ^ 32 ≤ 2 ^ 64) h rfl hbenign hbudget (by omega)

/-! ### The whole connection -/

/-- However the kernel splits the sends and the receives, and whatever the byte orders of the two hosts:
the server delivers exactly the messages of the client, in order, leaves its loop at the empty block, and
has consumed the whole stream. -/
theorem round_trip (clientOrder serverOrder : Endian) (messages : List Bytes)
    (hmessages : ∀ m ∈ messages, m ≠ [] ∧ m.length < 2 ^ 32) (sends : SendSchedule)
    (recvs : RecvSchedule) :
    ∃ N, ∀ n ≥ N, ∃ tx, client clientOrder messages ⟨[], sends.upTo n⟩ = .ok () tx ∧
      ∃ N', ∀ n' ≥ N',
        (server serverOrder ⟨tx.wire, recvs.upTo n'⟩).blocks = messages ∧
        (server serverOrder ⟨tx.wire, recvs.upTo n'⟩).outcome = .finished ∧
        (server serverOrder ⟨tx.wire, recvs.upTo n'⟩).final.input = [] := by
  obtain ⟨N, hN⟩ :=
    sends.exists_budget (networkOrder.frames messages ++ networkOrder.closing).length
  refine ⟨N, ?_⟩
  intro n hn
  obtain ⟨tx, hrun, hwire⟩ := client_spec clientOrder (fun m hm => (hmessages m hm).2)
    (sends.benign [] n) (hN n hn [])
  refine ⟨tx, hrun, ?_⟩
  have hdecodes : Lib.Decodes networkOrder tx.wire messages [] .closed := by
    have h := Lib.decodes_frames (c := networkOrder) hmessages []
    rwa [List.append_nil, ← List.nil_append (_ ++ _), ← hwire] at h
  obtain ⟨N', hN'⟩ := recvs.exists_budget (tx.wire.length + 1)
  refine ⟨N', ?_⟩
  intro n' hn'
  obtain ⟨hblocks, hfinished, hinput⟩ := server_of_decodes serverOrder hdecodes
    (recvs.benign tx.wire n') (hN' n' hn' tx.wire)
  exact ⟨hblocks, hfinished, hinput⟩

/-- Two messages between hosts of different byte order, one byte a call. -/
theorem round_trip_hi :
    ∃ N, ∀ n ≥ N, ∃ tx, client .little [[104, 105], [33]] ⟨[], (SendSchedule.always 1).upTo n⟩ = .ok () tx ∧
      ∃ N', ∀ n' ≥ N',
        (server .big ⟨tx.wire, (RecvSchedule.always 1).upTo n'⟩).blocks = [[104, 105], [33]] ∧
        (server .big ⟨tx.wire, (RecvSchedule.always 1).upTo n'⟩).outcome = .finished ∧
        (server .big ⟨tx.wire, (RecvSchedule.always 1).upTo n'⟩).final.input = [] :=
  round_trip .little .big [[104, 105], [33]] (by decide) (.always 1) (.always 1)

end NetProg.Cxx
