import NetProg.Lib.Dialogue
import Mathlib.Data.List.Infix

/-!
# Straight-line speakers and listeners

`talk` is a program that says and hears given numbers of bytes in a given order, as one does that sends whole
buffers and receives exact counts. `sink` is one that takes in whatever comes up to the end of the stream.
Two talks of which one asks and the other replies make a dialogue (`dialogue_reply`), and so do a talk that
only says something and a speaker that only listens, if it leaves no sooner than it has heard all of it
(`dialogue_listen`).
-/

namespace NetProg.Lib

/-- Something to say, or a number of bytes to hear. -/
inductive Act (β : Type)
  | say (bytes : List β)
  | hear (n : ℕ)
  deriving DecidableEq

namespace Talk

variable {β ε : Type}

/-- What is left to do, without what is done without a call. -/
def strip : List (Act β) → List (Act β)
  | .say [] :: acts => strip acts
  | .hear 0 :: acts => strip acts
  | acts => acts

/-- What is said by the time that more has to be heard. -/
def speech : List (Act β) → List β → List β
  | [], _ => []
  | .say bytes :: acts, heard => bytes ++ speech acts heard
  | .hear n :: acts, heard => if n ≤ heard.length then speech acts (heard.drop n) else []

/-- How many bytes are heard in all. -/
def wanted : List (Act β) → ℕ
  | [] => 0
  | .say _ :: acts => wanted acts
  | .hear n :: acts => n + wanted acts

inductive State (β : Type)
  /-- These are left to do, and `got` is what has been heard. -/
  | talking (acts : List (Act β)) (got : List β)
  /-- The stream has ended or a call has failed. -/
  | ended (got : List β)
  deriving DecidableEq

/-- The call that comes next. -/
def request : State β → Request β
  | .talking acts _ =>
    match strip acts with
    | [] => .halt
    | .say bytes :: _ => .send bytes
    | .hear n :: _ => .recv n
  | .ended _ => .halt

/-- `again e` when a call that fails with `e` is made again. -/
def resume (again : ε → Bool) : State β → Answer β ε → State β
  | .talking acts got, answer =>
    match strip acts, answer with
    | .say bytes :: acts, .sent k =>
      if k = 0 then .ended got else .talking (strip (.say (bytes.drop k) :: acts)) got
    | .hear n :: acts, .received bytes =>
      if bytes.isEmpty then .ended got
      else .talking (strip (.hear (n - bytes.length) :: acts)) (got ++ bytes)
    | _, .failed e => if again e then .talking acts got else .ended got
    | _, _ => .talking acts got
  | .ended got, _ => .ended got

/-- What a talk that has come to its end has heard. -/
def value : State β → Option (List β)
  | .talking acts got => if (strip acts).isEmpty then some got else none
  | .ended _ => none

theorem strip_cases (acts : List (Act β)) :
    strip acts = [] ∨ (∃ bytes rest, strip acts = .say bytes :: rest ∧ bytes ≠ []) ∨
      ∃ n rest, strip acts = .hear n :: rest ∧ 0 < n := by
  fun_induction strip acts with
  | case1 acts ih => exact ih
  | case2 acts ih => exact ih
  | case3 acts hsay hhear =>
    rcases acts with _ | ⟨⟨bytes⟩ | ⟨n⟩, rest⟩
    · exact .inl rfl
    · refine .inr (.inl ⟨bytes, rest, rfl, ?_⟩)
      rintro rfl
      exact hsay rest rfl
    · refine .inr (.inr ⟨n, rest, rfl, Nat.pos_of_ne_zero ?_⟩)
      rintro rfl
      exact hhear rest rfl

@[simp] theorem speech_strip (acts : List (Act β)) (heard : List β) :
    speech (strip acts) heard = speech acts heard := by
  fun_induction strip acts with
  | case1 acts ih => rw [ih, speech, List.nil_append]
  | case2 acts ih => rw [ih, speech, if_pos (Nat.zero_le _), List.drop_zero]
  | case3 => rfl

@[simp] theorem wanted_strip (acts : List (Act β)) : wanted (strip acts) = wanted acts := by
  fun_induction strip acts with
  | case1 acts ih => rw [ih, wanted]
  | case2 acts ih => rw [ih, wanted, Nat.zero_add]
  | case3 => rfl

theorem request_send {s : State β} {bytes : List β} (h : request s = .send bytes) :
    ∃ acts got rest, s = .talking acts got ∧ strip acts = .say bytes :: rest ∧ bytes ≠ [] := by
  cases s with
  | talking acts got =>
    rcases strip_cases acts with hnil | ⟨bytes', rest, hsay, hne⟩ | ⟨n, rest, hhear, -⟩
    · simp [request, hnil] at h
    · obtain rfl : bytes' = bytes := by simpa [request, hsay] using h
      exact ⟨acts, got, rest, rfl, hsay, hne⟩
    · simp [request, hhear] at h
  | ended => simp [request] at h

theorem request_recv {s : State β} {n : ℕ} (h : request s = .recv n) :
    ∃ acts got rest, s = .talking acts got ∧ strip acts = .hear n :: rest ∧ 0 < n := by
  cases s with
  | talking acts got =>
    rcases strip_cases acts with hnil | ⟨bytes, rest, hsay, -⟩ | ⟨n', rest, hhear, hpos⟩
    · simp [request, hnil] at h
    · simp [request, hsay] at h
    · obtain rfl : n' = n := by simpa [request, hhear] using h
      exact ⟨acts, got, rest, rfl, hhear, hpos⟩
  | ended => simp [request] at h

theorem request_ne_work (s : State β) : request s ≠ .work := by
  cases s with
  | talking acts got =>
    unfold request
    dsimp only
    split <;> simp
  | ended => simp [request]

/-- The program with these acts to do. -/
def program (again : ε → Bool) : Program β ε where
  State := State β
  request := request
  resume := resume again
  send_ne_nil _ _ h := (request_send h).choose_spec.choose_spec.choose_spec.2.2
  recv_pos _ _ h := (request_recv h).choose_spec.choose_spec.choose_spec.2.2

theorem speech_mono (acts : List (Act β)) {heard heard' : List β} (h : heard <+: heard') :
    speech acts heard <+: speech acts heard' := by
  induction acts generalizing heard heard' with
  | nil => exact List.prefix_rfl
  | cons act acts ih =>
    cases act with
    | say bytes => exact (List.prefix_append_right_inj bytes).2 (ih h)
    | hear n =>
      unfold speech
      split
      · rename_i hle
        rw [if_pos (hle.trans h.length_le)]
        exact ih (List.IsPrefix.drop h n)
      · exact List.nil_prefix

theorem speech_hear_append {n : ℕ} {acts : List (Act β)} {bytes more : List β} (hle : bytes.length ≤ n) :
    speech (.hear n :: acts) (bytes ++ more) = speech (.hear (n - bytes.length) :: acts) more := by
  have hdrop : (bytes ++ more).drop n = more.drop (n - bytes.length) := by
    rw [List.drop_append, List.drop_eq_nil_of_le hle, List.nil_append]
  unfold speech
  rw [hdrop, List.length_append]
  congr 1
  simp only [eq_iff_iff]
  omega

/-- Of the acts `start` the ones left, after `heard` has been heard and `said` has been said. -/
structure Left (start acts : List (Act β)) (heard said : List β) : Prop where
  speech_eq : ∀ more, speech start (heard ++ more) = said ++ speech acts more
  wanted_eq : wanted start = heard.length + wanted acts

/-- What a talk has heard and said. -/
def At (start : List (Act β)) (heard said : List β) : State β → Prop
  | .talking acts got => got = heard ∧ Left start acts heard said
  | .ended _ => False

theorem Left.start (acts : List (Act β)) : Left acts (strip acts) [] [] :=
  ⟨fun _ => (speech_strip acts _).symm, by rw [wanted_strip, List.length_nil, Nat.zero_add]⟩

theorem Left.stripped {start acts : List (Act β)} {heard said : List β} (h : Left start acts heard said) :
    Left start (strip acts) heard said :=
  ⟨fun more => by rw [speech_strip, h.speech_eq], by rw [wanted_strip, h.wanted_eq]⟩

section

variable {start acts rest : List (Act β)} {heard said bytes : List β} {n k : ℕ}

theorem Left.speech_now (h : Left start acts heard said) : speech start heard = said ++ speech acts [] := by
  have hnow := h.speech_eq []
  rwa [List.append_nil] at hnow

theorem Left.say (h : Left start acts heard said) (hacts : strip acts = .say bytes :: rest) :
    Left start (.say (bytes.drop k) :: rest) heard (said ++ bytes.take k) where
  speech_eq more := by
    have hsplit : bytes ++ speech rest more = bytes.take k ++ (bytes.drop k ++ speech rest more) := by
      rw [← List.append_assoc, List.take_append_drop]
    rw [h.speech_eq, ← speech_strip acts, hacts, speech, hsplit, ← List.append_assoc]
    rfl
  wanted_eq := by
    rw [h.wanted_eq, ← wanted_strip acts, hacts]
    rfl

theorem Left.hear (h : Left start acts heard said) (hacts : strip acts = .hear n :: rest)
    (hle : bytes.length ≤ n) : Left start (.hear (n - bytes.length) :: rest) (heard ++ bytes) said where
  speech_eq more := by
    rw [List.append_assoc, h.speech_eq, ← speech_strip acts, hacts, speech_hear_append hle]
  wanted_eq := by
    rw [h.wanted_eq, ← wanted_strip acts, hacts, List.length_append]
    unfold wanted
    omega

end

end Talk

section

variable {β ε : Type} {errors : List ε} {again : ε → Bool}

open Talk in
/-- The acts are what it does, and it puts up with the errors. -/
def talk (again : ε → Bool) (hagain : ∀ e ∈ errors, again e = true) (acts : List (Act β)) :
    Speaker β ε errors where
  toProgram := program again
  start := .talking (strip acts) []
  speech := speech acts
  Done heard := wanted acts ≤ heard.length
  At := At acts
  AtEnd heard s := s = .ended heard
  start_at := ⟨rfl, .start acts⟩
  speech_mono := speech_mono acts
  request_ne_work := request_ne_work
  speaks hat hreq := by
    obtain ⟨acts', got, rest, rfl, hacts, -⟩ := request_send hreq
    obtain ⟨-, hleft⟩ := hat
    rw [hleft.speech_now, ← speech_strip acts', hacts]
    exact (List.prefix_append_right_inj _).2 (List.prefix_append _ _)
  waits hat hreq := by
    obtain ⟨acts', got, rest, rfl, hacts, hpos⟩ := request_recv hreq
    obtain ⟨-, hleft⟩ := hat
    have hwanted := hleft.wanted_eq
    rw [hleft.speech_now, ← speech_strip acts', hacts, speech, if_neg (by simpa using hpos.ne'),
      List.append_nil]
    rw [← wanted_strip acts', hacts, wanted] at hwanted
    exact ⟨rfl, by omega⟩
  leaves {heard said s} hat hreq := by
    cases s with
    | ended => exact absurd hat not_false
    | talking acts' got =>
      obtain ⟨-, hleft⟩ := hat
      have hwanted := hleft.wanted_eq
      rcases strip_cases acts' with hnil | ⟨bytes, rest, hsay, -⟩ | ⟨n, rest, hhear, -⟩
      · rw [hleft.speech_now, ← speech_strip acts', hnil, speech, List.append_nil]
        rw [← wanted_strip acts', hnil, wanted] at hwanted
        exact ⟨rfl, by omega⟩
      · simp [program, request, hsay] at hreq
      · simp [program, request, hhear] at hreq
  sent hat hreq hpos _ := by
    obtain ⟨acts', got, rest, rfl, hacts, -⟩ := request_send hreq
    obtain ⟨rfl, hleft⟩ := hat
    simp only [program, resume, hacts, if_neg hpos.ne']
    exact ⟨rfl, (hleft.say hacts).stripped⟩
  received hat hreq hne hle := by
    obtain ⟨acts', got, rest, rfl, hacts, -⟩ := request_recv hreq
    obtain ⟨rfl, hleft⟩ := hat
    simp only [program, resume, hacts, List.isEmpty_iff, if_neg hne]
    exact ⟨rfl, (hleft.hear hacts hle).stripped⟩
  closed hat hreq := by
    obtain ⟨acts', got, rest, rfl, hacts, -⟩ := request_recv hreq
    obtain ⟨rfl, -⟩ := hat
    simp [program, resume, hacts]
  halt_atEnd hend := by
    rw [hend]
    rfl
  failed {s e} hreq he := by
    cases s with
    | ended => rfl
    | talking acts' got =>
      have hagain' := hagain e he
      rcases strip_cases acts' with hnil | ⟨bytes, rest, hsay, -⟩ | ⟨n, rest, hhear, -⟩
      · simp [program, resume, hnil, hagain']
      · simp [program, resume, hsay, hagain']
      · simp [program, resume, hhear, hagain']

end

/-! ### Taking in a whole stream -/

namespace Sink

variable {β ε : Type}

inductive State (β : Type)
  | reading (got : List β)
  /-- The stream has ended. -/
  | ended (got : List β)
  | failed (got : List β)
  deriving DecidableEq

/-- The call that comes next. -/
def request (size : ℕ) : State β → Request β
  | .reading _ => .recv size
  | _ => .halt

def resume (again : ε → Bool) : State β → Answer β ε → State β
  | .reading got, .received bytes => if bytes.isEmpty then .ended got else .reading (got ++ bytes)
  | .reading got, .failed e => if again e then .reading got else .failed got
  | s, _ => s

/-- The whole stream. -/
def value : State β → Option (List β)
  | .ended got => some got
  | _ => none

theorem request_recv {size n : ℕ} {s : State β} (h : request size s = .recv n) :
    ∃ got, s = .reading got ∧ size = n := by
  cases s with
  | reading got => exact ⟨got, rfl, by simpa [request] using h⟩
  | ended | failed => simp [request] at h

theorem request_ne_send (size : ℕ) (s : State β) (bytes : List β) : request size s ≠ .send bytes := by
  cases s <;> simp [request]

/-- The program that receives at most `size` bytes at a time. -/
def program (size : ℕ) (hsize : 0 < size) (again : ε → Bool) : Program β ε where
  State := State β
  request := request size
  resume := resume again
  send_ne_nil s bytes h := absurd h (request_ne_send size s bytes)
  recv_pos _ _ h := by
    obtain ⟨-, -, rfl⟩ := request_recv h
    exact hsize

end Sink

section

variable {β ε : Type} {errors : List ε}

open Sink in
/-- It says nothing and never has enough. -/
def sink (size : ℕ) (hsize : 0 < size) (again : ε → Bool) (hagain : ∀ e ∈ errors, again e = true) :
    Speaker β ε errors where
  toProgram := program size hsize again
  start := .reading []
  speech _ := []
  Done _ := False
  At heard said s := said = [] ∧ s = .reading heard
  AtEnd heard s := s = .ended heard
  start_at := ⟨rfl, rfl⟩
  speech_mono _ := List.prefix_rfl
  request_ne_work s := by cases s <;> simp [program, request]
  speaks _ hreq := absurd hreq (request_ne_send size _ _)
  waits hat _ := ⟨hat.1, not_false⟩
  leaves hat hreq := by
    obtain ⟨-, rfl⟩ := hat
    simp [program, request] at hreq
  sent _ hreq := absurd hreq (request_ne_send size _ _)
  received hat _ hne _ := by
    obtain ⟨hsaid, rfl⟩ := hat
    refine ⟨hsaid, ?_⟩
    simp only [program, resume, List.isEmpty_iff, if_neg hne]
  closed hat _ := by
    obtain ⟨-, rfl⟩ := hat
    rfl
  halt_atEnd hend := by
    rw [hend]
    rfl
  failed {s e} hreq he := by
    cases s with
    | reading got => simp [program, resume, hagain e he]
    | ended | failed => rfl

/-! ### Dialogues -/

variable {again again' : ε → Bool} {hagain : ∀ e ∈ errors, again e = true}
  {hagain' : ∀ e ∈ errors, again' e = true}

theorem Talk.speech_says (pieces : List (List β)) (acts : List (Act β)) (heard : List β) :
    speech (pieces.map .say ++ acts) heard = pieces.flatten ++ speech acts heard := by
  induction pieces with
  | nil => rfl
  | cons piece pieces ih =>
    rw [List.map_cons, List.cons_append, speech, ih, List.flatten_cons, List.append_assoc]

theorem Talk.wanted_says (pieces : List (List β)) (acts : List (Act β)) :
    wanted (pieces.map .say ++ acts) = wanted acts := by
  induction pieces with
  | nil => rfl
  | cons piece pieces ih => exact ih

/-- One asks and hears the reply, the other hears what is asked and replies. -/
theorem dialogue_reply (pieces : List (List β)) (y : List β) :
    Dialogue (talk again hagain (pieces.map .say ++ [.hear y.length]))
      (talk again' hagain' [.hear pieces.flatten.length, .say y]) pieces.flatten y := by
  have hask : ∀ heard, Talk.speech (pieces.map .say ++ [.hear y.length]) heard = pieces.flatten := by
    intro heard
    rw [Talk.speech_says]
    simp [Talk.speech]
  have hreply : ∀ heard, Talk.speech [.hear pieces.flatten.length, .say y] heard =
      if pieces.flatten.length ≤ heard.length then y else [] := by
    intro heard
    simp [Talk.speech]
  have hwanted : Talk.wanted (pieces.map .say ++ [.hear y.length]) = y.length := by
    rw [Talk.wanted_says, Talk.wanted, Talk.wanted, Nat.add_zero]
  have hwanted' : Talk.wanted [.hear pieces.flatten.length, .say y] = pieces.flatten.length := by
    simp [Talk.wanted]
  refine ⟨hask y, ?_, ?_, ?_, ?_, ?_⟩
  · exact (hreply _).trans (if_pos le_rfl)
  · intro a b ha hb
    have ha' : a <+: pieces.flatten := by simpa [talk, hask] using ha
    have hb' : b <+: if pieces.flatten.length ≤ a.length then y else [] := by
      simpa only [talk, hreply] using hb
    by_cases hle : pieces.flatten.length ≤ a.length
    · exact .inl ((ha'.eq_of_length_le hle).trans (hask b).symm)
    · rw [if_neg hle] at hb'
      exact .inr ((List.prefix_nil.1 hb').trans ((hreply a).trans (if_neg hle)).symm)
  · intro a b ha hb
    obtain rfl : pieces.flatten = a := (hask b).symm.trans ha
    obtain rfl : y = b := ((hreply _).trans (if_pos le_rfl)).symm.trans hb
    exact .inl hwanted.le
  · intro h hpre hdone
    simp only [talk, hwanted] at hdone
    exact hpre.eq_of_length_le hdone
  · intro h hpre hdone
    simp only [talk, hwanted'] at hdone
    exact hpre.eq_of_length_le hdone

/-- One says something and leaves, the other listens. -/
theorem dialogue_listen (pieces : List (List β)) (Q : Speaker β ε errors) (hquiet : ∀ heard, Q.speech heard = [])
    (hstays : ∀ heard, heard <+: pieces.flatten → Q.Done heard → heard = pieces.flatten) :
    Dialogue (talk again hagain (pieces.map .say)) Q pieces.flatten [] := by
  have hask : ∀ heard, Talk.speech (pieces.map .say) heard = pieces.flatten := by
    intro heard
    have hspeech := Talk.speech_says pieces [] heard
    rwa [List.append_nil, Talk.speech, List.append_nil] at hspeech
  have hwanted : Talk.wanted (pieces.map .say) = 0 := by
    have hspeech := Talk.wanted_says pieces []
    rwa [List.append_nil] at hspeech
  refine ⟨hask [], hquiet _, ?_, ?_, ?_, hstays⟩
  · intro a b _ hb
    rw [hquiet] at hb ⊢
    exact .inr (List.prefix_nil.1 hb)
  · intro a b _ _
    refine .inl ?_
    simp only [talk, hwanted, Nat.zero_le]
  · intro h hpre _
    exact List.prefix_nil.1 hpre

end

end NetProg.Lib
