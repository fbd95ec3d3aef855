import NetProg.Lib.Run
import Mathlib.Data.List.Basic

/-!
# Length-prefixed frames on a byte stream

A frame is a payload behind a header of fixed width that encodes its length, and a conversation is a
list of frames of non-empty payloads closed by the header of length zero. `Decodes c s blocks rest e`
says what a reader makes of an arbitrary stream `s`: the payloads it delivers, what it leaves unread
and whether it met the closing header (`closed`) or the end of the stream (`truncated`).

Every stream decodes (`Decodes.total`), and it decodes as closed exactly when it starts with a framed
conversation (`decodes_closed_iff`). So a loop that follows `Decodes` accepts exactly the framed streams.

A program that writes frames needs only be right about one (`WritesFrames`), and then writes conversations
(`WritesFrames.conversation`).

The last part is the reader itself, over any state `σ` and any reading primitive `recv` that delivers
exactly what it is asked for (`ReadsExactly`): `serve_of_decodes` proves that the loop which reads a
header, then a payload, until an empty payload comes, does what `Decodes` says. The primitive may need
several calls of the environment for one request; `budget` counts the calls that make progress, and one
byte never takes more than one of them. `limit` bounds the requests the primitive is good for.
-/

namespace NetProg.Lib

variable {β : Type}

/-- A code of the lengths below `bound` by words of one width, every word of which is a code. -/
structure LengthCode (β : Type) where
  width : ℕ
  bound : ℕ
  encode : ℕ → List β
  decode : List β → ℕ
  bound_pos : 0 < bound
  length_encode : ∀ n, (encode n).length = width
  decode_encode : ∀ n, n < bound → decode (encode n) = n
  decode_lt : ∀ h, h.length = width → decode h < bound
  encode_decode : ∀ h, h.length = width → encode (decode h) = h

attribute [simp] LengthCode.length_encode

variable (c : LengthCode β)

namespace LengthCode

/-- A payload behind its length. -/
def frame (m : List β) : List β := c.encode m.length ++ m

/-- Payloads one after the other. -/
def frames (ms : List (List β)) : List β := ms.flatMap c.frame

/-- The header of an empty payload, which ends a conversation. -/
def closing : List β := c.encode 0

/-- A payload that a frame can carry inside a conversation. -/
def Fits (m : List β) : Prop := m ≠ [] ∧ m.length < c.bound

/-- The stream starts with the frames of `ms` and the closing header, and `rest` follows. -/
def Conversation (s : List β) (ms : List (List β)) (rest : List β) : Prop :=
  s = c.frames ms ++ (c.closing ++ rest) ∧ ∀ m ∈ ms, c.Fits m

@[simp] theorem frames_nil : c.frames [] = [] := rfl

@[simp] theorem frames_cons (m : List β) (ms : List (List β)) :
    c.frames (m :: ms) = c.frame m ++ c.frames ms := rfl

@[simp] theorem frames_append (ms ms' : List (List β)) :
    c.frames (ms ++ ms') = c.frames ms ++ c.frames ms' := List.flatMap_append

@[simp] theorem frame_nil : c.frame [] = c.closing := by simp [frame, closing]

variable {c} in
theorem length_le_frames (hwidth : 0 < c.width) (ms : List (List β)) : ms.length ≤ (c.frames ms).length := by
  induction ms with
  | nil => exact Nat.zero_le _
  | cons m ms ih =>
    rw [frames_cons, frame, List.length_append, List.length_append, length_encode, List.length_cons]
    omega

end LengthCode

/-- How a stream ends for its reader. -/
inductive Ending
  | closed
  | truncated
  deriving DecidableEq, Repr

/-- `Decodes c s blocks rest e`: a reader of `s` delivers `blocks`, ends as `e` and leaves `rest`. -/
inductive Decodes : List β → List (List β) → List β → Ending → Prop
  | short (s : List β) (hshort : s.length < c.width) : Decodes s [] s .truncated
  | close (header rest : List β) (hlen : header.length = c.width) (hzero : c.decode header = 0) :
      Decodes (header ++ rest) [] rest .closed
  | cut (header rest : List β) (hlen : header.length = c.width) (hcut : rest.length < c.decode header) :
      Decodes (header ++ rest) [] (header ++ rest) .truncated
  | block (header payload s : List β) {blocks : List (List β)} {rest : List β} {e : Ending}
      (hlen : header.length = c.width) (hpayload : payload.length = c.decode header)
      (hne : payload ≠ []) (htail : Decodes s blocks rest e) :
      Decodes (header ++ (payload ++ s)) (payload :: blocks) rest e

variable {c}

theorem Decodes.total (c : LengthCode β) (s : List β) : ∃ blocks rest e, Decodes c s blocks rest e := by
  induction hn : s.length using Nat.strongRecOn generalizing s with
  | _ n ih =>
    by_cases hshort : s.length < c.width
    · exact ⟨[], s, .truncated, .short s hshort⟩
    obtain ⟨header, tail, rfl, hlen⟩ : ∃ header tail, s = header ++ tail ∧ header.length = c.width :=
      ⟨s.take c.width, s.drop c.width, (List.take_append_drop _ _).symm, by
        rw [List.length_take]; omega⟩
    rcases Nat.eq_zero_or_pos (c.decode header) with hzero | hpos
    · exact ⟨[], tail, .closed, .close header tail hlen hzero⟩
    by_cases hcut : tail.length < c.decode header
    · exact ⟨[], _, .truncated, .cut header tail hlen hcut⟩
    -- a whole payload follows: the rest of the stream is shorter
    obtain ⟨payload, s', rfl, hpayload⟩ :
        ∃ payload s', tail = payload ++ s' ∧ payload.length = c.decode header :=
      ⟨tail.take (c.decode header), tail.drop (c.decode header), (List.take_append_drop _ _).symm, by
        rw [List.length_take]; omega⟩
    have hne : payload ≠ [] := by
      rintro rfl
      simp only [List.length_nil] at hpayload
      omega
    have hlt : s'.length < n := by
      have := List.length_pos_iff.mpr hne
      simp only [List.length_append] at hn
      omega
    obtain ⟨blocks, rest, e, h⟩ := ih _ hlt s' rfl
    exact ⟨payload :: blocks, rest, e, .block header payload s' hlen hpayload hne h⟩

/-- A framed conversation decodes to its payloads, whatever follows it. -/
theorem decodes_frames {ms : List (List β)} (hms : ∀ m ∈ ms, c.Fits m) (rest : List β) :
    Decodes c (c.frames ms ++ (c.closing ++ rest)) ms rest .closed := by
  induction ms with
  | nil => exact .close c.closing rest (c.length_encode 0) (c.decode_encode 0 c.bound_pos)
  | cons m ms ih =>
    obtain ⟨hne, hlt⟩ := hms m List.mem_cons_self
    have htail := ih fun m' hm' => hms m' (List.mem_cons_of_mem m hm')
    rw [LengthCode.frames_cons, LengthCode.frame, List.append_assoc, List.append_assoc]
    exact .block _ m _ (c.length_encode _) (c.decode_encode _ hlt).symm hne htail

/-- Only a framed conversation decodes as closed. -/
theorem Decodes.eq_frames {s : List β} {blocks : List (List β)} {rest : List β} {e : Ending}
    (h : Decodes c s blocks rest e) (he : e = .closed) : c.Conversation s blocks rest := by
  induction h with
  | short | cut => cases he
  | close header rest hlen hzero =>
    have hheader : c.closing = header := by
      rw [LengthCode.closing, ← hzero, c.encode_decode header hlen]
    exact ⟨by simp [hheader], by simp⟩
  | block header payload s hlen hpayload hne _ ih =>
    obtain ⟨hs, hfits⟩ := ih he
    have hheader : c.encode payload.length = header := by rw [hpayload, c.encode_decode header hlen]
    refine ⟨?_, ?_⟩
    · rw [LengthCode.frames_cons, LengthCode.frame, hheader, hs]
      simp only [List.append_assoc]
    · intro m hm
      rcases List.mem_cons.mp hm with rfl | hm
      · exact ⟨hne, hpayload ▸ c.decode_lt header hlen⟩
      · exact hfits m hm

theorem decodes_closed_iff {s : List β} {ms : List (List β)} {rest : List β} :
    Decodes c s ms rest .closed ↔ c.Conversation s ms rest := by
  refine ⟨fun h => h.eq_frames rfl, ?_⟩
  rintro ⟨rfl, hms⟩
  exact decodes_frames hms rest

theorem Decodes.length_blocks_le {s : List β} {blocks : List (List β)} {rest : List β} {e : Ending}
    (h : Decodes c s blocks rest e) : blocks.length ≤ s.length := by
  induction h with
  | short | close | cut => simp
  | block header payload s _ _ hne _ ih =>
    have := List.length_pos_iff.mpr hne
    simp only [List.length_cons, List.length_append]
    omega

/-! ### The writer -/

variable {ε σ : Type}

/-- `put m` appends the frame of `m` to the wire. A state that is `ready n` is good for `n` more bytes. -/
def WritesFrames (c : LengthCode β) (fits : List β → Prop) (wire : σ → List β) (ready : ℕ → σ → Prop)
    (put : List β → EStateM ε σ PUnit) : Prop :=
  ∀ m n s, fits m → ready ((c.frame m).length + n) s →
    ∃ s', put m s = .ok ⟨⟩ s' ∧ wire s' = wire s ++ c.frame m ∧ ready n s'

section writer

variable {fits : List β → Prop} {wire : σ → List β} {ready : ℕ → σ → Prop}
  {put : List β → EStateM ε σ PUnit}

theorem WritesFrames.forM (h : WritesFrames c fits wire ready put) {ms : List (List β)}
    (hms : ∀ m ∈ ms, fits m) {n : ℕ} {s : σ} (hready : ready ((c.frames ms).length + n) s) :
    ∃ s', ms.forM put s = .ok ⟨⟩ s' ∧ wire s' = wire s ++ c.frames ms ∧ ready n s' := by
  induction ms generalizing s with
  | nil =>
    rw [LengthCode.frames_nil, List.length_nil, Nat.zero_add] at hready
    exact ⟨s, rfl, (List.append_nil _).symm, hready⟩
  | cons m ms ih =>
    rw [LengthCode.frames_cons, List.length_append, Nat.add_assoc] at hready
    obtain ⟨s₁, hrun₁, hwire₁, hready₁⟩ := h m _ s (hms m List.mem_cons_self) hready
    obtain ⟨s₂, hrun₂, hwire₂, hready₂⟩ := ih (fun m' hm' => hms m' (List.mem_cons_of_mem m hm')) hready₁
    refine ⟨s₂, ?_, ?_, hready₂⟩
    · rw [run_forM_cons_ok hrun₁, hrun₂]
    · rw [hwire₂, hwire₁, List.append_assoc, LengthCode.frames_cons]

theorem WritesFrames.conversation (h : WritesFrames c fits wire ready put) {ms : List (List β)}
    (hms : ∀ m ∈ ms, fits m) (hnil : fits []) {s : σ}
    (hready : ready (c.frames ms ++ c.closing).length s) :
    ∃ s', (ms.forM put >>= fun _ => put []) s = .ok ⟨⟩ s' ∧
      wire s' = wire s ++ (c.frames ms ++ c.closing) := by
  rw [List.length_append] at hready
  obtain ⟨s₁, hrun₁, hwire₁, hready₁⟩ := h.forM hms hready
  obtain ⟨s₂, hrun₂, hwire₂, -⟩ := h [] 0 s₁ hnil (by rwa [LengthCode.frame_nil])
  refine ⟨s₂, ?_, ?_⟩
  · rw [run_bind_ok hrun₁, hrun₂]
  · rw [hwire₂, hwire₁, LengthCode.frame_nil, List.append_assoc]

end writer

/-! ### The reader -/

/-- Read a header of `width` bytes, then as many bytes as it announces by `length`. -/
def readFrame (width : ℕ) (length : List β → ℕ) (recv : ℕ → EStateM ε σ (List β)) :
    EStateM ε σ (List β) := do
  let header ← recv width
  recv (length header)

/-- How a serving loop stands: it left the loop at an empty block, failed, or is still inside. -/
inductive Outcome (ε : Type)
  | finished
  | failed (e : ε)
  | running
  deriving DecidableEq, Repr

/-- A run of a serving loop: what it delivered, how it stands, and the state it left. -/
structure Served (β ε σ : Type) where
  blocks : List (List β)
  outcome : Outcome ε
  final : σ
  deriving DecidableEq, Repr

/-- `while true`: get a block, stop at an empty one, deliver the others. -/
def serve [DecidableEq β] (get : EStateM ε σ (List β)) : ℕ → σ → Served β ε σ
  | 0, s => ⟨[], .running, s⟩
  | fuel + 1, s =>
    match get s with
    | .error e s' => ⟨[], .failed e, s'⟩
    | .ok block s' =>
      if block = [] then ⟨[], .finished, s'⟩
      else
        let r := serve get fuel s'
        { r with blocks := block :: r.blocks }

/-- `recv n` delivers the next `n` bytes of the input, or fails at the end of the input if there are
fewer, spending at most one unit of budget for a byte and one to see the end. -/
structure ReadsExactly (limit : ℕ) (valid : σ → Prop) (input : σ → List β) (budget : σ → ℕ)
    (isEof : ε → Prop) (recv : ℕ → EStateM ε σ (List β)) : Prop where
  enough : ∀ s n, n < limit → valid s → n ≤ (input s).length → n ≤ budget s → ∃ s',
    recv n s = .ok ((input s).take n) s' ∧ valid s' ∧ input s' = (input s).drop n ∧
      budget s ≤ budget s' + n
  ended : ∀ s n, n < limit → valid s → (input s).length < n → (input s).length < budget s → ∃ e s',
    recv n s = .error e s' ∧ isEof e ∧ input s' = []

section reader

variable {limit : ℕ} {valid : σ → Prop} {input : σ → List β} {budget : σ → ℕ} {isEof : ε → Prop}
  {recv : ℕ → EStateM ε σ (List β)}

theorem ReadsExactly.append (hr : ReadsExactly limit valid input budget isEof recv) {s : σ}
    {x y : List β} (hx : x.length < limit) (hv : valid s) (hs : input s = x ++ y)
    (hb : x.length ≤ budget s) :
    ∃ s', recv x.length s = .ok x s' ∧ valid s' ∧ input s' = y ∧ budget s ≤ budget s' + x.length := by
  obtain ⟨s', h, hv', hi, hb'⟩ := hr.enough s x.length hx hv (by simp [hs]) hb
  refine ⟨s', ?_, hv', ?_, hb'⟩
  · simpa [hs] using h
  · simpa [hs] using hi

variable {width : ℕ} {length : List β → ℕ}

theorem readFrame_ok {s s' s'' : σ} {header payload : List β} (h : recv width s = .ok header s')
    (h' : recv (length header) s' = .ok payload s'') : readFrame width length recv s = .ok payload s'' := by
  rw [readFrame, run_bind_ok h, h']

theorem readFrame_error {s s' s'' : σ} {header : List β} {e : ε} (h : recv width s = .ok header s')
    (h' : recv (length header) s' = .error e s'') : readFrame width length recv s = .error e s'' := by
  rw [readFrame, run_bind_ok h, h']

theorem readFrame_error_header {s s' : σ} {e : ε} (h : recv width s = .error e s') :
    readFrame width length recv s = .error e s' := by
  rw [readFrame, run_bind_error h]

/-- What the state of a finished or failed loop says about the input. -/
def Served.Ends (input : σ → List β) (isEof : ε → Prop) (r : Served β ε σ) (rest : List β) :
    Ending → Prop
  | .closed => r.outcome = .finished ∧ input r.final = rest
  | .truncated => (∃ e, r.outcome = .failed e ∧ isEof e) ∧ input r.final = []

/-- The loop follows `Decodes`: the same blocks, the same end, the same bytes left unread. -/
theorem serve_of_decodes [DecidableEq β] (hr : ReadsExactly limit valid input budget isEof recv)
    (hlength : ∀ h, h.length = c.width → length h = c.decode h) (hwidth : c.width < limit)
    (hbound : c.bound ≤ limit) {s : σ} {stream : List β} {blocks : List (List β)} {rest : List β}
    {e : Ending} {fuel : ℕ} (h : Decodes c stream blocks rest e) (hs : input s = stream) (hv : valid s)
    (hb : stream.length < budget s) (hfuel : blocks.length < fuel) :
    (serve (readFrame c.width length recv) fuel s).blocks = blocks ∧
      (serve (readFrame c.width length recv) fuel s).Ends input isEof rest e := by
  induction h generalizing s fuel with
  | short stream hshort =>
    obtain ⟨fuel, rfl⟩ := Nat.exists_eq_succ_of_ne_zero (by omega : fuel ≠ 0)
    obtain ⟨x, s', hrecv, hx, hi⟩ := hr.ended s c.width hwidth hv (hs ▸ hshort) (hs ▸ hb)
    simp only [serve, readFrame_error_header hrecv]
    exact ⟨trivial, ⟨x, rfl, hx⟩, hi⟩
  | close header rest hlen hzero =>
    obtain ⟨fuel, rfl⟩ := Nat.exists_eq_succ_of_ne_zero (by omega : fuel ≠ 0)
    simp only [List.length_append] at hb
    obtain ⟨s₁, h₁, hv₁, hi₁, _⟩ := hr.append (by omega) hv hs (by omega)
    obtain ⟨s₂, h₂, _, hi₂, _⟩ := hr.enough s₁ 0 (by omega) hv₁ (Nat.zero_le _) (Nat.zero_le _)
    rw [hlen] at h₁
    rw [← hzero, ← hlength header hlen] at h₂
    have hget := readFrame_ok h₁ h₂
    simp only [hlength header hlen, hzero, List.take_zero, List.drop_zero] at hget hi₂
    simp only [serve, hget, if_true]
    exact ⟨trivial, rfl, hi₂.trans hi₁⟩
  | cut header rest hlen hcut =>
    obtain ⟨fuel, rfl⟩ := Nat.exists_eq_succ_of_ne_zero (by omega : fuel ≠ 0)
    simp only [List.length_append] at hb
    obtain ⟨s₁, h₁, hv₁, hi₁, hb₁⟩ := hr.append (by omega) hv hs (by omega)
    obtain ⟨x, s₂, h₂, hx, hi₂⟩ := hr.ended s₁ (c.decode header)
      (by have := c.decode_lt header hlen; omega) hv₁ (hi₁ ▸ hcut) (by rw [hi₁]; omega)
    rw [hlen] at h₁
    rw [← hlength header hlen] at h₂
    simp only [serve, readFrame_error h₁ h₂]
    exact ⟨trivial, ⟨x, rfl, hx⟩, hi₂⟩
  | block header payload stream hlen hpayload hne _ ih =>
    obtain ⟨fuel, rfl⟩ := Nat.exists_eq_succ_of_ne_zero (by omega : fuel ≠ 0)
    simp only [List.length_append, List.length_cons] at hb hfuel
    obtain ⟨s₁, h₁, hv₁, hi₁, hb₁⟩ := hr.append (by omega) hv hs (by omega)
    obtain ⟨s₂, h₂, hv₂, hi₂, hb₂⟩ := hr.append (by have := c.decode_lt header hlen; omega) hv₁ hi₁
      (by omega)
    rw [hlen] at h₁
    rw [hpayload, ← hlength header hlen] at h₂
    obtain ⟨hblocks, hends⟩ := @ih s₂ fuel hi₂ hv₂ (by omega) (by omega)
    simp only [serve, readFrame_ok h₁ h₂, if_neg hne, hblocks]
    exact ⟨trivial, hends⟩

end reader

end NetProg.Lib
