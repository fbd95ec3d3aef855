import NetProg.Lib.Framing
import NetProg.System.Collect

/-!
# Loops that get one frame after the other

A receiver of frames asks for as many bytes as the last header has announced, so what it does depends on what it has
received. `PlaysOn` is for such a function: it does the acts of a talk if its stream begins like the one for which the
talk was written. The loop that gets frames up to the empty one plays the talk that hears each header and each payload
(`GetsBlocks.follows`), so next to a function that says these frames it gets all of them (`GetsBlocks.exchange`).
-/

namespace NetProg
open Lib (Act Answer run_bind_ok)
open Lib.Talk (State strip strip_cases)

namespace Conn

/-- What a talk has heard. -/
def heardOf : State UInt8 → Bytes
  | .talking _ got => got
  | .ended got => got

variable {s s' : talking.State} {c c₁ c' : Conn}

theorem heardOf_resume (acts : List (Act UInt8)) (got : Bytes) {a : Answer UInt8 Errno}
    (h : ∀ bytes, a ≠ .received bytes) : heardOf (talking.resume (.talking acts got) a) = got := by
  simp only [talking, Lib.Talk.program, Lib.Talk.resume]
  split
  · split <;> rfl
  · exact absurd rfl (h _)
  · split <;> rfl
  · rfl

theorem heardOf_received {acts rest : List (Act UInt8)} {n : ℕ} (hacts : strip acts = .hear n :: rest)
    (got bytes : Bytes) : heardOf (talking.resume (.talking acts got) (.received bytes)) = got ++ bytes := by
  simp only [talking, Lib.Talk.program, Lib.Talk.resume, hacts, List.isEmpty_iff]
  split
  · rename_i hnil
    rw [hnil, List.append_nil]
    rfl
  · rfl

theorem answer_heard {a : Answer UInt8 Errno} (h : c.answer (talking.request s) = some (a, c₁)) :
    ∃ more, heardOf (talking.resume s a) = heardOf s ++ more ∧ c.rx.input = more ++ c₁.rx.input ∧
      c₁.rx.script.length + (if more = [] then 0 else 1) ≤ c.rx.script.length := by
  obtain ⟨⟨input, recvs⟩, ⟨wire, sends⟩⟩ := c
  cases s with
  | ended got => cases h
  | talking acts got =>
    rcases strip_cases acts with hnil | ⟨bytes, rest, hsay, hne⟩ | ⟨n, rest, hhear, hpos⟩
    · simp [talking, Lib.Talk.program, Lib.Talk.request, hnil, answer] at h
    · have hrequest : talking.request (.talking acts got) = .send bytes := by
        simp [talking, Lib.Talk.program, Lib.Talk.request, hsay]
      rw [hrequest] at h
      rcases sends with _ | ⟨m | _ | e, sends⟩
      · rw [answer_send_nil] at h
        cases h
      · cases h
        exact ⟨[], (heardOf_resume acts got (by simp)).trans (List.append_nil got).symm, rfl, by simp⟩
      · cases h
        exact ⟨[], (heardOf_resume acts got (by simp)).trans (List.append_nil got).symm, rfl, by simp⟩
      · cases h
        exact ⟨[], (heardOf_resume acts got (by simp)).trans (List.append_nil got).symm, rfl, by simp⟩
    · have hrequest : talking.request (.talking acts got) = .recv n := by
        simp [talking, Lib.Talk.program, Lib.Talk.request, hhear]
      rw [hrequest] at h
      rcases recvs with _ | ⟨m | e, recvs⟩
      · rw [answer_recv_nil] at h
        cases h
      · cases h
        refine ⟨input.take (moved m (min n input.length)), heardOf_received hhear got _,
          (List.take_append_drop _ _).symm, ?_⟩
        simp only [List.length_cons]
        split <;> omega
      · cases h
        exact ⟨[], (heardOf_resume acts got (by simp)).trans (List.append_nil got).symm, rfl, by simp⟩

theorem Path.heard (h : Path talking s c s' c') :
    ∃ more, heardOf s' = heardOf s ++ more ∧ c.rx.input = more ++ c'.rx.input ∧
      c'.rx.script.length + (if more = [] then 0 else 1) ≤ c.rx.script.length := by
  induction h with
  | refl => exact ⟨[], by simp⟩
  | @call s s' a c c₁ c' hanswer _ ih =>
    obtain ⟨more, hheard, hinput, hscript⟩ := answer_heard hanswer
    obtain ⟨more', hheard', hinput', hscript'⟩ := ih
    refine ⟨more ++ more', ?_, ?_, ?_⟩
    · rw [hheard', hheard, List.append_assoc]
    · rw [hinput, hinput', List.append_assoc]
    · cases more <;> cases more' <;> simp at hscript hscript' ⊢ <;> omega

/-- The function does these acts on a stream that begins like `y`. -/
def PlaysOn {α : Type} (y : Bytes) (acts : List (Act UInt8)) (Got : α → Bytes → Prop) (x : EStateM Stop Conn α) :
    Prop :=
  ∀ (rest : List (Act UInt8)) (got : Bytes) (c : Conn), c.TakesSome → c.rx.input <+: y →
    Reaches talking Lib.Talk.value (now (acts ++ rest) got) c
      (fun a c' s c'' => ∃ heard, Got a heard ∧ s = now rest (got ++ heard) ∧ c'' = c') (x c)

section

variable {α β : Type} {y : Bytes} {acts acts' : List (Act UInt8)} {Got : α → Bytes → Prop} {Got' : β → Bytes → Prop}
  {x : EStateM Stop Conn α}

theorem Plays.on (h : Plays acts Got x) (y : Bytes) : PlaysOn y acts Got x := fun rest got c hc _ => h rest got c hc

theorem Path.heard_now {rest : List (Act UInt8)} {got heard : Bytes} (h : Path talking (now acts got) c s c')
    (hs : s = now rest (got ++ heard)) : c.rx.input = heard ++ c'.rx.input ∧
      c'.rx.script.length + (if heard = [] then 0 else 1) ≤ c.rx.script.length := by
  obtain ⟨more, hmore, hinput, hscript⟩ := h.heard
  obtain rfl : heard = more := by simpa [hs, now, heardOf] using hmore
  exact ⟨hinput, hscript⟩

theorem PlaysOn.bind (hx : PlaysOn y acts Got x) {f : α → EStateM Stop Conn β}
    (hf : ∀ a heard, Got a heard → heard <+: y →
      PlaysOn (y.drop heard.length) acts' (fun b heard' => Got' b (heard ++ heard')) (f a)) :
    PlaysOn y (acts ++ acts') Got' (x >>= f) := by
  intro rest got c hc hy
  rw [List.append_assoc]
  apply (hx (acts' ++ rest) got c hc hy).bind
  rintro a t s₁ c₁ hpath ⟨heard, hgot, hs, rfl⟩
  obtain ⟨hinput, -⟩ := hpath.heard_now hs
  rw [hinput] at hy
  have hrest : c₁.rx.input <+: y.drop heard.length := by
    have hdrop := hy.drop heard.length
    rwa [List.drop_left] at hdrop
  rw [hs]
  apply (hf a heard hgot ((List.prefix_append _ _).trans hy) rest (got ++ heard) c₁ (hpath.takesSome hc) hrest).mono
  rintro b t s₂ c₂ ⟨heard', hgot', rfl, rfl⟩
  exact ⟨heard ++ heard', hgot', by rw [List.append_assoc], rfl⟩

theorem PlaysOn.mono (hx : PlaysOn y acts Got x) {Got' : α → Bytes → Prop}
    (h : ∀ a heard, Got a heard → heard <+: y → Got' a heard) : PlaysOn y acts Got' x := by
  have hbind : PlaysOn y (acts ++ []) Got' (x >>= pure) := hx.bind fun a heard hgot hheard =>
    (plays_pure a (by rw [List.append_nil]; exact h a heard hgot hheard)).on _
  rw [List.append_nil, bind_pure] at hbind
  exact hbind

end

end Conn

open Conn

/-! ### One frame -/

theorem eq_header {m rest heard : Bytes} (hlen : heard.length = 4)
    (h : heard <+: networkOrder.frame m ++ rest) : heard = be32 m.length := by
  have hframe : networkOrder.frame m ++ rest = be32 m.length ++ (m ++ rest) := List.append_assoc _ _ _
  rw [hframe] at h
  have hlen' : heard.length = (be32 m.length).length := by rw [hlen, length_be32]
  exact (List.prefix_of_prefix_length_le h (List.prefix_append _ _) hlen'.le).eq_of_length hlen'

theorem drop_header (m rest : Bytes) :
    (networkOrder.frame m ++ rest).drop (be32 m.length).length = m ++ rest := by
  have hframe : networkOrder.frame m ++ rest = be32 m.length ++ (m ++ rest) := List.append_assoc _ _ _
  rw [hframe, List.drop_left]

theorem eq_payload {m rest heard : Bytes} (hlen : heard.length = m.length) (h : heard <+: m ++ rest) : heard = m :=
  (List.prefix_of_prefix_length_le h (List.prefix_append _ _) hlen.le).eq_of_length hlen

theorem readFrame_playsOn {limit : ℕ} {recv : ℕ → EStateM Stop Rx Bytes} {length : Bytes → ℕ}
    (hrecv : ∀ n < limit, Plays [.hear n] (fun bytes heard => heard.length = n ∧ bytes = heard) (receive (recv n)))
    (hlength : ∀ header, header.length = 4 → length header = ofBe header) (hlimit : 2 ^ 32 ≤ limit) {m : Bytes}
    (hm : m.length < 2 ^ 32) (rest : Bytes) :
    PlaysOn (networkOrder.frame m ++ rest) [.hear 4, .hear m.length]
      (fun block heard => block = m ∧ heard = networkOrder.frame m) (receive (Lib.readFrame 4 length recv)) := by
  rw [Lib.readFrame, receive_bind]
  show PlaysOn _ ([.hear 4] ++ [.hear m.length]) _ _
  apply ((hrecv 4 (by omega)).on _).bind
  rintro header heard ⟨hlen, rfl⟩ hheader
  obtain rfl := eq_header hlen hheader
  rw [hlength _ hlen, ofBe_be32 hm, drop_header]
  apply ((hrecv m.length (by omega)).on _).mono
  rintro block heard ⟨hblock, rfl⟩ hpayload
  obtain rfl := eq_payload hblock hpayload
  exact ⟨rfl, rfl⟩

/-! ### The loop -/

/-- It gets blocks up to the last one, and shows the others. -/
def blockLoop {σ : Type} (get : σ → EStateM Stop Rx σ) (last : σ → Bool) (shown : σ → Bytes) :
    ℕ → σ → EStateM Stop Rx (List Bytes)
  | 0, _ => throw .blocked
  | turns + 1, s => do
    let s ← get s
    if last s then return []
    else do
      let blocks ← blockLoop get last shown turns s
      return shown s :: blocks

/-- What is heard of these blocks. -/
def hears (blocks : List Bytes) : List (Act UInt8) := blocks.flatMap fun block => [.hear 4, .hear block.length]

/-- What a turn does with a block that is empty or `Fits`. -/
structure GetsBlocks {σ : Type} (Fits : Bytes → Prop) (Inv : σ → Prop) (Holds : σ → Bytes → Prop)
    (get : σ → EStateM Stop Rx σ) (last : σ → Bool) : Prop where
  plays : ∀ s block rest, Inv s → block = [] ∨ Fits block →
    PlaysOn (networkOrder.frame block ++ rest) [.hear 4, .hear block.length]
      (fun s' heard => (Inv s' ∧ Holds s' block) ∧ heard = networkOrder.frame block) (receive (get s))
  last_nil : ∀ s, Holds s [] → last s = true
  goes_on : ∀ s block, Fits block → Holds s block → last s = false

section

variable {σ : Type} {Fits : Bytes → Prop} {Inv : σ → Prop} {Holds : σ → Bytes → Prop} {get : σ → EStateM Stop Rx σ}
  {last : σ → Bool} {shown : σ → Bytes} {blocks : List Bytes}

/-- What is shown of a block. -/
def Shows (Holds : σ → Bytes → Prop) (shown : σ → Bytes) (object block : Bytes) : Prop :=
  ∃ s, object = shown s ∧ Holds s block

/-- The loop, with more turns than there are answers: each of them takes an answer. -/
theorem GetsBlocks.reaches (h : GetsBlocks Fits Inv Holds get last) (hfits : ∀ block ∈ blocks, Fits block) {s : σ}
    (hinv : Inv s) {turns : ℕ} {got : Bytes} {c : Conn} (htakes : c.TakesSome)
    (hinput : c.rx.input <+: networkOrder.frames (blocks ++ [[]])) (hturns : c.rx.script.length < turns) :
    Reaches talking Lib.Talk.value (now (hears (blocks ++ [[]])) got) c
      (fun objects c' s' c'' => List.Forall₂ (Shows Holds shown) objects blocks ∧
        s' = now [] (got ++ networkOrder.frames (blocks ++ [[]])) ∧ c'' = c')
      (receive (blockLoop get last shown turns s) c) := by
  induction blocks generalizing turns got c s with
  | nil =>
    obtain ⟨turns, rfl⟩ := Nat.exists_eq_succ_of_ne_zero (by omega : turns ≠ 0)
    have hclosing : networkOrder.frames ([] ++ [[]]) = networkOrder.frame [] := List.append_nil _
    rw [hclosing, ← List.append_nil (networkOrder.frame [])] at hinput
    have hget := h.plays s [] [] hinv (.inl rfl) [] got c htakes hinput
    rw [blockLoop, receive_bind]
    apply hget.bind
    rintro s₁ _ now₁ c₁ - ⟨heard, ⟨⟨-, hholds⟩, rfl⟩, rfl, rfl⟩
    rw [h.last_nil s₁ hholds]
    refine ⟨_, _, .refl, .nil, ?_, rfl⟩
    rw [hclosing]
  | cons block blocks ih =>
    obtain ⟨turns, rfl⟩ := Nat.exists_eq_succ_of_ne_zero (by omega : turns ≠ 0)
    rw [List.forall_mem_cons] at hfits
    rw [List.cons_append, Lib.LengthCode.frames_cons] at hinput
    have hget := h.plays s block (networkOrder.frames (blocks ++ [[]])) hinv (.inr hfits.1) (hears (blocks ++ [[]]))
      got c htakes hinput
    rw [blockLoop, receive_bind]
    apply hget.bind
    rintro s₁ _ now₁ c₁ hpath ⟨heard, ⟨⟨hinv₁, hholds⟩, rfl⟩, hnow, rfl⟩
    obtain ⟨hstream, hscript⟩ := hpath.heard_now hnow
    have hne : networkOrder.frame block ≠ [] := by
      apply List.ne_nil_of_length_pos
      rw [Lib.LengthCode.frame, List.length_append, Lib.LengthCode.length_encode]
      exact Nat.add_pos_left (by decide) _
    rw [if_neg hne] at hscript
    have hrest : c₁.rx.input <+: networkOrder.frames (blocks ++ [[]]) := by
      rw [hstream] at hinput
      exact (List.prefix_append_right_inj _).1 hinput
    rw [h.goes_on s₁ block hfits.1 hholds, hnow]
    simp only [Bool.false_eq_true, if_false, receive_bind]
    apply (ih hfits.2 hinv₁ (hpath.takesSome htakes) hrest (by omega)).bind
    rintro objects _ now₂ c₂ - ⟨hobjects, rfl, rfl⟩
    refine ⟨_, _, .refl, .cons ⟨s₁, rfl, hholds⟩ hobjects, ?_, rfl⟩
    rw [List.append_assoc]
    rfl

theorem GetsBlocks.follows (h : GetsBlocks Fits Inv Holds get last) (hfits : ∀ block ∈ blocks, Fits block) {s : σ}
    (hinv : Inv s) {x : EStateM Stop Rx (List Bytes)}
    (hx : ∀ rx, x rx = blockLoop get last shown (rx.script.length + 1) s rx) :
    Follows (fun c => c.TakesSome ∧ c.rx.input <+: networkOrder.frames (blocks ++ [[]])) talking
      (.talking (strip (hears (blocks ++ [[]]))) []) Lib.Talk.value
      (fun objects _ => List.Forall₂ (Shows Holds shown) objects blocks) (receive x) := by
  rintro c ⟨htakes, hinput⟩
  have hreceive : receive x c = receive (blockLoop get last shown (c.rx.script.length + 1) s) c :=
    rxLens.lift_congr (hx c.rx)
  rw [hreceive]
  apply (h.reaches hfits hinv htakes hinput (Nat.lt_succ_self _)).mono
  rintro objects c₁ s₁ c₂ ⟨hobjects, rfl, rfl⟩
  refine ⟨rfl, ?_, networkOrder.frames (blocks ++ [[]]), ?_, hobjects⟩
  · simp [talking, Lib.Talk.program, now, Lib.Talk.request, strip]
  · simp [now, Lib.Talk.value, strip]

end

/-! ### The peer of a client -/

open Lib (Link Dialogue Speaker)
open Lib.Dialogue (meeting)

theorem speech_hears (blocks : List Bytes) (heard : Bytes) : Lib.Talk.speech (hears blocks) heard = [] := by
  induction blocks generalizing heard with
  | nil => rfl
  | cons block blocks ih =>
    show Lib.Talk.speech (.hear 4 :: .hear block.length :: hears blocks) heard = []
    simp [Lib.Talk.speech, ih]

theorem wanted_hears (blocks : List Bytes) :
    Lib.Talk.wanted (hears blocks) = (networkOrder.frames blocks).length := by
  induction blocks with
  | nil => rfl
  | cons block blocks ih =>
    have hwidth : networkOrder.width = 4 := rfl
    show 4 + (block.length + Lib.Talk.wanted (hears blocks)) = _
    rw [ih, Lib.LengthCode.frames_cons, Lib.LengthCode.frame, List.length_append, List.length_append,
      Lib.LengthCode.length_encode, hwidth, Nat.add_assoc]

section

variable {link : Link Errno} {hretries : ∀ e ∈ link.errors, retries e = true} {x y : Bytes}

theorem heardOf_at {acts : List (Act UInt8)} {heard said : Bytes} {s : State UInt8}
    (h : Lib.Talk.At acts heard said s) : heardOf s = heard := by
  cases s with
  | talking acts got => exact h.1
  | ended got => exact h.elim

theorem input_le_talk {P : Speaker UInt8 Errno link.errors} {acts : List (Act UInt8)}
    (h : Dialogue P (Lib.talk retries hretries acts) x y) (hlimit : link.limit = INT_MAX)
    (moves : List (Lib.Move Errno)) :
    (rightSocket link (meeting P (Lib.talk retries hretries acts)) moves).rx.input <+: x := by
  obtain ⟨l, r, hu⟩ := Lib.Dialogue.underway_run h moves
  obtain ⟨wire, hpath⟩ := @path_right _ _ _ (meeting P (Lib.talk retries hretries acts)) moves hlimit
  obtain ⟨more, hheard, hinput, -⟩ := Conn.Path.heard hpath
  have hright :
      heardOf (Lib.run (Lib.Duplex.step link) (meeting P (Lib.talk retries hretries acts)) moves).right = r := by
    rcases hu.heard with ⟨-, hright⟩ | ⟨-, -, -, hright, -, -⟩ | ⟨hright, -, -, -, -, -⟩
    · exact heardOf_at hright
    · exact heardOf_at hright
    · exact congrArg heardOf hright
  obtain rfl : more = r := hheard.symm.trans hright
  rw [hinput, List.append_nil]
  exact (List.prefix_append more _).trans hu.left_le

variable {pieces blocks : List Bytes} {σ α : Type} {Fits : Bytes → Prop} {Inv : σ → Prop} {Holds : σ → Bytes → Prop}
  {get : σ → EStateM Stop Rx σ} {last : σ → Bool} {shown : σ → Bytes}

variable (hretries) in
theorem dialogue_hears (hpieces : pieces.flatten = networkOrder.frames blocks) :
    Dialogue (saying hretries pieces) (Lib.talk retries hretries (hears blocks)) pieces.flatten [] := by
  apply Lib.dialogue_listen pieces
  · exact speech_hears blocks
  · intro heard hprefix hdone
    apply hprefix.eq_of_length_le
    rwa [hpieces, ← wanted_hears]

/-- Next to a function that says the frames of some blocks and leaves, the loop gets these. -/
theorem GetsBlocks.exchange (h : GetsBlocks Fits Inv Holds get last) (hfits : ∀ block ∈ blocks, Fits block) {s : σ}
    (hinv : Inv s) {f : EStateM Stop Conn α} {g : EStateM Stop Rx (List Bytes)}
    (hg : ∀ rx, g rx = blockLoop get last shown (rx.script.length + 1) s rx) (hlimit : link.limit = INT_MAX)
    (hf : Plays (pieces.map .say) (fun _ heard => heard = []) f)
    (hpieces : pieces.flatten = networkOrder.frames (blocks ++ [[]])) :
    Exchange link (saying hretries pieces) (Lib.talk retries hretries (hears (blocks ++ [[]]))) f (receive g)
      (fun _ => True) (fun objects => List.Forall₂ (Shows Holds shown) objects blocks) := by
  have hdialogue := dialogue_hears hretries hpieces
  have hwanted : Lib.Talk.wanted (pieces.map .say) ≤ ([] : Bytes).length := by
    have hwhole := Lib.Talk.wanted_says pieces []
    rw [List.append_nil] at hwhole
    rw [hwhole]
    exact le_rfl
  have hwanted' : Lib.Talk.wanted (hears (blocks ++ [[]])) ≤ pieces.flatten.length := by
    rw [wanted_hears, hpieces]
  have hexchange := exchange_of_dialogue hdialogue hlimit hf.follows (h.follows hfits hinv hg)
    (takesSome_leftSocket _)
    (fun moves => ⟨takesSome_rightSocket _ moves, hpieces ▸ input_le_talk hdialogue hlimit moves⟩)
    (value_talk hwanted) (value_talk hwanted')
  exact hexchange.mono (fun _ _ => trivial) fun _ hright => hright

end

end NetProg
