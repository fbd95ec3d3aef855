import NetProg.Lib.Duplex
import NetProg.System.Stream

/-!
# Echo servers over TCP

The loop the echo servers share: read what is there, send all of it back, return at the end of the stream.
They differ in the size of the buffer and in what they do when the read fails. Both send with the loop of
`SendAll`, which goes on after an interruption and gives up on every other failure.
-/

namespace NetProg

/-- A connection with `roomRight` and `roomLeft` bytes of buffers, whose calls fail with `errors`. -/
def tcp (roomRight roomLeft : ℕ) (errors : List Errno) : Lib.Link Errno :=
  ⟨INT_MAX, roomRight, roomLeft, errors⟩

namespace Echo

/-- Where the server is: `serving ptr` when `SendAll` has `ptr` left to send, in the read when that is
nothing. -/
inductive State
  | serving (ptr : Bytes)
  | returned
  | failed (ec : Option Errno)
  deriving DecidableEq, Repr

/-- Writes what it has, and reads when it has nothing. -/
def request (size : ℕ) : State → Lib.Request UInt8
  | .serving [] => .recv size
  | .serving (b :: ptr) => .send (b :: ptr)
  | .returned => .halt
  | .failed _ => .halt

/-- `again e` when the server reads again after its read has failed with `e`. -/
def resume (again : Errno → Bool) : State → Lib.Answer UInt8 Errno → State
  | .serving [], .received buf => if buf = [] then .returned else .serving buf
  | .serving ptr, .sent n => if n = 0 then .failed none else .serving (ptr.drop n)
  | .serving [], .failed e => if again e then .serving [] else .failed (some e)
  | .serving (b :: ptr), .failed e => if e = .EINTR then .serving (b :: ptr) else .failed (some e)
  | s, _ => s

theorem request_send {size : ℕ} {s : State} {bytes : Bytes} (h : request size s = .send bytes) :
    s = .serving bytes ∧ bytes ≠ [] := by
  unfold request at h
  split at h <;> simp at h
  subst h
  exact ⟨rfl, List.cons_ne_nil _ _⟩

theorem request_recv {size n : ℕ} {s : State} (h : request size s = .recv n) :
    s = .serving [] ∧ size = n := by
  unfold request at h
  split at h <;> simp at h
  exact ⟨rfl, h⟩

theorem request_serving_ne_halt (size : ℕ) (ptr : Bytes) : request size (.serving ptr) ≠ .halt := by
  cases ptr <;> simp [request]

/-- The bytes `SendAll` has yet to send. -/
def pending : State → Bytes
  | .serving ptr => ptr
  | _ => []

end Echo

/-- `while ((n = read(sockfd, buf, size)) > 0) SendAll(sockfd, buf, n);` -/
def echo (size : ℕ) (hsize : 0 < size) (again : Errno → Bool) : Lib.Program UInt8 Errno where
  State := Echo.State
  request := Echo.request size
  resume := Echo.resume again
  send_ne_nil _ _ h := (Echo.request_send h).2
  recv_pos _ _ h := (Echo.request_recv h).2 ▸ hsize

theorem echoSize_pos : 0 < 1024 := by decide

/-- The loop is an echo server as long as its calls are only interrupted, and its reads go on after it. -/
def echoServer (size : ℕ) (hsize : 0 < size) (again : Errno → Bool) (errors : List Errno)
    (herrors : ∀ e ∈ errors, e = .EINTR ∧ again e = true) : Lib.EchoServer UInt8 Errno errors where
  toProgram := echo size hsize again
  start := .serving []
  pending := Echo.pending
  request_ne_work s := by
    show Echo.request size s ≠ .work
    unfold Echo.request
    split <;> simp
  recv_pending s n h := by
    rw [(Echo.request_recv h).1]
    rfl
  send_pending s bytes h := by
    rw [(Echo.request_send h).1]
    rfl
  received s n bytes h hbytes _ := by
    have hresume : Echo.resume again s (.received bytes) = .serving bytes := by
      rw [(Echo.request_recv h).1, Echo.resume, if_neg hbytes]
    show Echo.request size (Echo.resume again s (.received bytes)) ≠ .halt ∧
      Echo.pending (Echo.resume again s (.received bytes)) = bytes
    rw [hresume]
    exact ⟨Echo.request_serving_ne_halt size bytes, rfl⟩
  sent s bytes n h hpos _ := by
    have hresume : Echo.resume again s (.sent n) = .serving (bytes.drop n) := by
      rw [(Echo.request_send h).1, Echo.resume, if_neg (Nat.ne_of_gt hpos)]
    show Echo.request size (Echo.resume again s (.sent n)) ≠ .halt ∧
      Echo.pending (Echo.resume again s (.sent n)) = bytes.drop n
    rw [hresume]
    exact ⟨Echo.request_serving_ne_halt size _, rfl⟩
  failed s h e he := by
    obtain ⟨heintr, hagain⟩ := herrors e he
    have hresume : Echo.resume again s (.failed e) = s := by
      cases s with
      | serving ptr =>
        cases ptr with
        | nil => rw [Echo.resume, if_pos hagain]
        | cons b ptr => rw [Echo.resume, if_pos heintr]
      | returned | failed => rfl
    show Echo.request size (Echo.resume again s (.failed e)) ≠ .halt ∧
      Echo.pending (Echo.resume again s (.failed e)) = Echo.pending s
    rw [hresume]
    exact ⟨h, rfl⟩
  closed s n h := by
    rw [(Echo.request_recv h).1]
    rfl
  start_serving := Echo.request_serving_ne_halt size []
  start_pending := rfl

end NetProg
