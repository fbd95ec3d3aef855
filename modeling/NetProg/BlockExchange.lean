import NetProg.C.BlockServer
import NetProg.C.Clients
import NetProg.Cxx.Clients
import NetProg.Python.Sendall
import NetProg.System.FrameLoop

/-!
# Blocks over a connection

The C++ client of `tcp/send_block` with any messages, next to the servers in the three languages, over buffers of any
size. The other two clients do not send again what one call of `send` has left.
-/

namespace NetProg
open Lib (Act run_pure run_bind_ok)
open Conn

/-! ### The client -/

namespace Conn

theorem transmit_forM {β : Type} (l : List β) (f : β → EStateM Stop Tx PUnit) :
    transmit (l.forM f) = l.forM fun b => transmit (f b) := by
  induction l with
  | nil => rfl
  | cons b l ih =>
    show transmit (f b >>= fun _ => l.forM f) = transmit (f b) >>= fun _ => l.forM fun b => transmit (f b)
    rw [transmit_bind, ih]

end Conn

namespace Cxx

theorem putBlock_plays (e : Endian) {message : Bytes} (hlt : message.length < 2 ^ 32) :
    Plays [.say (be32 message.length), .say message] (fun _ heard => heard = [])
      (transmit (putBlock e message)) := by
  have hheader : store e (htonl e (toU32 message.length)) = be32 message.length := store_htonl_toU32 e hlt
  have hlen : (be32 message.length).length = 4 := length_be32 _
  have hsends := @sendAll_plays (be32 message.length) (by omega)
  rw [hlen] at hsends
  rw [putBlock, hheader, transmit_bind]
  show Plays ([.say (be32 message.length)] ++ [.say message]) _ _
  apply hsends.bind
  rintro - heard rfl
  exact sendAll_plays (by omega)

theorem client_plays (e : Endian) {messages : List Bytes} (hlt : ∀ m ∈ messages, m.length < 2 ^ 32) :
    Plays ((Python.requests (messages ++ [[]])).map .say) (fun _ heard => heard = [])
      (transmit (client e messages)) := by
  have hclient : client e messages = (messages ++ [[]]).forM (putBlock e) := by
    simp [client]
  have hlast : ∀ m ∈ messages ++ [[]], m.length < 2 ^ 32 := by
    simpa [or_imp, forall_and] using hlt
  rw [hclient, transmit_forM, Python.requests, List.map_flatMap]
  exact plays_forM fun message hmessage => putBlock_plays e (hlast message hmessage)

end Cxx

/-! ### The servers -/

/-- What a server returns from its loop: the blocks that it has printed. -/
def Lib.Served.result (r : Lib.Served UInt8 Stop Rx) : EStateM.Result Stop Rx (List Bytes) :=
  match r.outcome with
  | .finished => .ok r.blocks r.final
  | .failed stop => .error stop r.final
  | .running => .error .blocked r.final

theorem result_cons (block : Bytes) (r : Lib.Served UInt8 Stop Rx) {x : EStateM Stop Rx (List Bytes)} {rx : Rx}
    (h : r.result = x rx) :
    Lib.Served.result { r with blocks := block :: r.blocks } = (x >>= fun blocks => pure (block :: blocks)) rx := by
  obtain ⟨blocks, outcome, final⟩ := r
  cases outcome <;> simp only [bind, EStateM.bind, ← h] <;> rfl

theorem result_serve (get : EStateM Stop Rx Bytes) (turns : ℕ) (s : Bytes) (rx : Rx) :
    (Lib.serve get turns rx).result = blockLoop (fun _ => get) (· = []) id turns s rx := by
  induction turns generalizing s rx with
  | zero => rfl
  | succ turns ih =>
    rw [Lib.serve, blockLoop]
    cases hget : get rx with
    | ok block rx' =>
      rw [run_bind_ok hget]
      by_cases hnil : block = []
      · simp [hnil, Lib.Served.result, run_pure]
      · simp only [hnil, if_false, decide_false, Bool.false_eq_true]
        exact result_cons block _ (ih block rx')
    | error stop rx' => simp [bind, EStateM.bind, hget, Lib.Served.result]

/-- The call in the loop of the server in C, which has its own memory in every turn. -/
def C.blockTurn (e : Endian) (v : (ℕ → ℕ → UInt8) × C.Statics) : EStateM Stop Rx ((ℕ → ℕ → UInt8) × C.Statics) := do
  let s ← C.getBlock e (v.1 0) v.2
  return (fun turn => v.1 (turn + 1), s)

theorem C.result_serverLoop (e : Endian) (turns : ℕ) (fresh : ℕ → ℕ → UInt8) (s : C.Statics) (rx : Rx) :
    (C.serverLoop e turns fresh s rx).result =
      blockLoop (C.blockTurn e) (fun v => decide (v.2.read_buf.head? = some 0)) (fun v => v.2.read_buf) turns
        (fresh, s) rx := by
  induction turns generalizing fresh s rx with
  | zero => rfl
  | succ turns ih =>
    rw [C.serverLoop, blockLoop, C.blockTurn, bind_assoc]
    cases hget : C.getBlock e (fresh 0) s rx with
    | ok s' rx' =>
      rw [run_bind_ok hget, pure_bind]
      by_cases hzero : s'.read_buf.head? = some 0
      · simp [hzero, Lib.Served.result, run_pure]
      · simp only [hzero, if_false, decide_false, Bool.false_eq_true]
        exact result_cons s'.read_buf _ (ih _ s' rx')
    | error stop rx' => simp [bind, EStateM.bind, hget, Lib.Served.result]

/-! ### What they do with a block -/

theorem getsBlocks_of_recv {limit : ℕ} {recv : ℕ → EStateM Stop Rx Bytes} {length : Bytes → ℕ}
    (hrecv : ∀ n < limit, Plays [.hear n] (fun bytes heard => heard.length = n ∧ bytes = heard) (receive (recv n)))
    (hlength : ∀ header, header.length = 4 → length header = ofBe header) (hlimit : 2 ^ 32 ≤ limit) :
    GetsBlocks (fun m => m ≠ [] ∧ m.length < 2 ^ 32) (fun _ : Bytes => True) (fun s m => s = m)
      (fun _ => Lib.readFrame 4 length recv) (· = []) where
  plays s block rest _ hblock := by
    have hlt : block.length < 2 ^ 32 := by
      rcases hblock with rfl | ⟨-, hlt⟩
      · decide
      · exact hlt
    apply (readFrame_playsOn hrecv hlength hlimit hlt rest).mono
    rintro s' heard ⟨rfl, rfl⟩ -
    exact ⟨⟨trivial, rfl⟩, rfl⟩
  last_nil s hs := decide_eq_true hs
  goes_on s block hblock hs := decide_eq_false (hs ▸ hblock.1)

theorem C.getBlock_getsBlocks (e : Endian) :
    GetsBlocks (fun m => ¬ C.LooksEmpty m ∧ m.length < 2 ^ 32 - 1)
      (fun v : (ℕ → ℕ → UInt8) × C.Statics => v.2.Inv) (fun v m => Holds v.2.read_buf m)
      (C.blockTurn e) (fun v => decide (v.2.read_buf.head? = some 0)) where
  plays v block rest hinv hblock := by
    have hlt : block.length < 2 ^ 32 - 1 := by
      rcases hblock with rfl | ⟨-, hlt⟩
      · decide
      · exact hlt
    have hmemory : ((List.range 4).map (v.1 0)).length = 4 := by simp
    rw [C.blockTurn, C.getBlock, bind_assoc, receive_bind]
    show PlaysOn _ ([.hear 4] ++ [.hear block.length]) _ _
    apply ((C.recvAll_plays hmemory.ge (by decide)).on _).bind
    rintro header heard ⟨hlen, rfl⟩ hheader
    obtain rfl := eq_header hlen hheader
    rw [C.splice_full (hlen.trans hmemory.symm), drop_header]
    obtain ⟨block_length, hlength, hnat⟩ : ∃ block_length : BitVec 32,
        ntohl e (load e (be32 block.length)) = block_length ∧ block_length.toNat = block.length := by
      refine ⟨_, rfl, ?_⟩
      rw [ntohl_load e (length_be32 _), ofBe_be32 (by omega)]
    have hne : block_length ≠ C.UINT32_MAX := by
      have hmax : C.UINT32_MAX.toNat = 2 ^ 32 - 1 := BitVec.toNat_allOnes
      rintro rfl
      omega
    have hroom := C.lt_length_grow hinv (v.1 0) hne
    have hinv' := hinv.grow (v.1 0) block_length
    rw [hnat] at hroom
    simp only [hlength, hnat, receive_bind, bind_assoc]
    show PlaysOn _ ([.hear block.length] ++ []) _ _
    apply ((C.recvAll_plays hroom.le (by omega)).on _).bind
    rintro read_buf payload ⟨hlen', rfl⟩ hpayload
    obtain rfl := eq_payload hlen' hpayload
    -- the terminator goes behind the payload
    have hsize : (splice (C.grow (v.1 0) block_length v.2).read_buf 0 payload).length =
        (C.grow (v.1 0) block_length v.2).read_buf.length := length_splice (by omega)
    have hfits : payload.length + [(0 : UInt8)].length ≤
        (splice (C.grow (v.1 0) block_length v.2).read_buf 0 payload).length := hroom.trans_eq hsize.symm
    have hwrite : receive (write (splice (C.grow (v.1 0) block_length v.2).read_buf 0 payload) payload.length [0]) =
        pure (splice (splice (C.grow (v.1 0) block_length v.2).read_buf 0 payload) payload.length [0]) := by
      funext c
      exact receive_ok (write_ok hfits)
    have hjoin := @splice_splice (C.grow (v.1 0) block_length v.2).read_buf payload [0] 0 (Nat.zero_le _)
    rw [Nat.zero_add] at hjoin
    rw [hwrite, pure_bind]
    apply (plays_pure _ _).on
    refine ⟨⟨⟨?_, hinv'.size_le⟩, ?_⟩, ?_⟩
    · exact hinv'.size_eq.trans (hsize.symm.trans (length_splice hfits).symm)
    · rw [hjoin]
      exact C.holds_splice _ _
    · rw [List.append_nil]
      rfl
  last_nil v hv := decide_eq_true (hv.head?_eq.2 (.inl rfl))
  goes_on v block hblock hv := decide_eq_false (mt hv.head?_eq.1 hblock.1)

/-! ### Client and server -/

namespace BlockExchange

/-- The servers, from the accepted connection on. -/
def server (e : Endian) (fresh : ℕ → ℕ → UInt8) : Language → EStateM Stop Rx (List Bytes)
  | .c => fun rx => (C.server e fresh rx).result
  | .cxx => fun rx => (Cxx.server e rx).result
  | .python => fun rx => (Python.server rx).result

/-- A message that the server takes for one. -/
def Fits : Language → Bytes → Prop
  | .c, m => ¬ C.LooksEmpty m ∧ m.length < 2 ^ 32 - 1
  | _, m => m ≠ [] ∧ m.length < 2 ^ 32

/-- What is printed of the messages: in C the buffer, which starts with the message and its terminator. -/
def Prints : Language → List Bytes → List Bytes → Prop
  | .c, objects, messages => List.Forall₂ Holds objects messages
  | _, objects, messages => objects = messages

theorem Fits.length_lt {v : Language} {m : Bytes} (h : Fits v m) : m.length < 2 ^ 32 := by
  cases v with
  | c => exact h.2.trans (by decide)
  | cxx | python => exact h.2

theorem eq_of_shows {objects messages : List Bytes}
    (h : List.Forall₂ (Shows (fun s m : Bytes => s = m) id) objects messages) : objects = messages := by
  rw [← List.forall₂_eq_eq_eq]
  apply h.imp
  rintro object m ⟨s, rfl, rfl⟩
  rfl

end BlockExchange

end NetProg
