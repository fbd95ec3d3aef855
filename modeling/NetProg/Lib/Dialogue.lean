import NetProg.Lib.Completion

/-!
# Two programs that answer each other

What a `Speaker` says depends on the bytes it has heard and not on how they came in: when it has heard
`heard` and waits for more, it has said `speech heard`. An interruption leaves it where it is.

`Dialogue P Q x y` says of two speakers that they have `x` and `y` to say to each other and that they take
turns. In every state they reach, both have said a part of that from its beginning (`Dialogue.underway_run`),
a state in which neither can go on is one in which all has been said and heard (`Dialogue.complete_of_blocked`),
and every run that never neglects one of them gets there (`Dialogue.completes`).
-/

namespace NetProg.Lib


/-- A program that says what the bytes it has heard make it say. -/
structure Speaker (β ε : Type) (errors : List ε) extends Program β ε where
  start : State
  speech : List β → List β
  /-- It waits for no more than these. -/
  Done : List β → Prop
  /-- It has heard and said these. -/
  At : List β → List β → State → Prop
  /-- It has met the end of the stream behind these. -/
  AtEnd : List β → State → Prop
  start_at : At [] [] start
  speech_mono : ∀ {heard heard'}, heard <+: heard' → speech heard <+: speech heard'
  request_ne_work : ∀ s, request s ≠ .work
  speaks : ∀ {heard said s bytes}, At heard said s → request s = .send bytes → said ++ bytes <+: speech heard
  waits : ∀ {heard said s size}, At heard said s → request s = .recv size →
    said = speech heard ∧ ¬ Done heard
  leaves : ∀ {heard said s}, At heard said s → request s = .halt → said = speech heard ∧ Done heard
  sent : ∀ {heard said s bytes k}, At heard said s → request s = .send bytes → 0 < k → k ≤ bytes.length →
    At heard (said ++ bytes.take k) (resume s (.sent k))
  received : ∀ {heard said s size bytes}, At heard said s → request s = .recv size → bytes ≠ [] →
    bytes.length ≤ size → At (heard ++ bytes) said (resume s (.received bytes))
  closed : ∀ {heard said s size}, At heard said s → request s = .recv size →
    AtEnd heard (resume s (.received []))
  halt_atEnd : ∀ {heard s}, AtEnd heard s → request s = .halt
  failed : ∀ {s e}, request s ≠ .halt → e ∈ errors → resume s (.failed e) = s

namespace Speaker

variable {β ε : Type} {errors : List ε} (P : Speaker β ε errors)

/-- It has halted, by itself or at the end of the stream. -/
inductive Finished (heard said : List β) (s : P.State) : Prop
  | done (h : P.At heard said s) (halt : P.request s = .halt)
  | ended (h : P.AtEnd heard s) (waiting : ¬ P.Done heard) (whole : said = P.speech heard)

/-- How much it has still to do, when it has `x` to say and `y` to hear: that much, and to halt. -/
def todo (x y said heard : List β) (s : P.State) : ℕ :=
  (x.length - said.length) + (y.length - heard.length) + if P.halted s then 0 else 1

variable {P} {heard said : List β} {s : P.State}

theorem todo_sent_lt {x y said' : List β} {s' : P.State} (hlt : said.length < said'.length)
    (hle : said'.length ≤ x.length) (hs : P.request s ≠ .halt) :
    P.todo x y said' heard s' < P.todo x y said heard s := by
  have hhalted : ¬ P.halted s = true := mt (P.halted_iff s).1 hs
  unfold todo
  rw [if_neg hhalted]
  split <;> omega

theorem todo_received_lt {x y heard' : List β} {s' : P.State} (hlt : heard.length < heard'.length)
    (hle : heard'.length ≤ y.length) (hs : P.request s ≠ .halt) :
    P.todo x y said heard' s' < P.todo x y said heard s := by
  have hhalted : ¬ P.halted s = true := mt (P.halted_iff s).1 hs
  unfold todo
  rw [if_neg hhalted]
  split <;> omega

theorem todo_halted_lt {x y : List β} {s' : P.State} (hs : P.request s ≠ .halt)
    (hs' : P.request s' = .halt) : P.todo x y said heard s' < P.todo x y said heard s := by
  unfold todo
  rw [if_neg (mt (P.halted_iff s).1 hs), if_pos ((P.halted_iff s').2 hs')]
  exact Nat.lt_succ_self _

theorem Finished.halt (h : P.Finished heard said s) : P.request s = .halt := by
  cases h with
  | done _ halt => exact halt
  | ended h => exact P.halt_atEnd h

theorem Finished.at_of_done (h : P.Finished heard said s) (hdone : P.Done heard) : P.At heard said s := by
  cases h with
  | done h => exact h
  | ended _ waiting => exact absurd hdone waiting

end Speaker

section

variable {β ε : Type} {errors : List ε}

/-- Two speakers that have `x` and `y` to say to each other. -/
structure Dialogue (P Q : Speaker β ε errors) (x y : List β) : Prop where
  left : P.speech y = x
  right : Q.speech x = y
  /-- Never do both have something to say. -/
  alternate : ∀ a b, a <+: P.speech b → b <+: Q.speech a → a = P.speech b ∨ b = Q.speech a
  /-- Never do both wait. -/
  goesOn : ∀ a b, P.speech b = a → Q.speech a = b → P.Done b ∨ Q.Done a
  /-- Neither leaves before it has heard the other out. -/
  left_stays : ∀ h, h <+: y → P.Done h → h = y
  right_stays : ∀ h, h <+: x → Q.Done h → h = x

theorem Dialogue.symm {P Q : Speaker β ε errors} {x y : List β} (h : Dialogue P Q x y) :
    Dialogue Q P y x where
  left := h.right
  right := h.left
  alternate a b ha hb := (h.alternate b a hb ha).symm
  goesOn a b ha hb := (h.goesOn b a hb ha).symm
  left_stays := h.right_stays
  right_stays := h.left_stays

end

/-! ### The other way round -/

/-- The link as the other end sees it. -/
def Link.swap {ε : Type} (link : Link ε) : Link ε :=
  { link with roomRight := link.roomLeft, roomLeft := link.roomRight }

namespace Duplex

variable {β ε : Type} {P Q : Program β ε}

/-- The run as the other end sees it. -/
def swap (s : Duplex P Q) : Duplex Q P := ⟨s.right, s.left, s.toLeft, s.toRight⟩

theorem stepRight_eq_swap [DecidableEq ε] (link : Link ε) (s : Duplex P Q) (c : Choice ε) :
    stepRight link s c = (stepLeft link.swap s.swap c).swap := by
  unfold stepRight stepLeft
  simp only [swap, Link.swap]
  cases hcall : call link (link.roomLeft - s.toLeft.length) (P.halted s.left) s.toRight (Q.request s.right) c
  all_goals
    simp only [show call { link with roomRight := link.roomLeft, roomLeft := link.roomRight } =
      @call β ε _ link from rfl, hcall]

end Duplex

/-! ### What has been said and heard -/

namespace Dialogue

open Duplex

section

variable {β ε : Type} {errors : List ε} {P Q : Speaker β ε errors} {x y l r : List β}
  {s : Duplex P.toProgram Q.toProgram}

/-- The left speaker has heard `l` and the right one `r`, and what else they have said is under way. One of
them may have left when the other had. -/
inductive Heard (s : Duplex P.toProgram Q.toProgram) (l r : List β) : Prop
  | both (left : P.At l (r ++ s.toRight) s.left) (right : Q.At r (l ++ s.toLeft) s.right)
  | leftEnded (left : P.AtEnd l s.left) (waiting : ¬ P.Done l) (whole : r ++ s.toRight = P.speech l)
      (right : Q.At r (l ++ s.toLeft) s.right) (halt : Q.request s.right = .halt) (toLeft : s.toLeft = [])
  | rightEnded (right : Q.AtEnd r s.right) (waiting : ¬ Q.Done r) (whole : l ++ s.toLeft = Q.speech r)
      (left : P.At l (r ++ s.toRight) s.left) (halt : P.request s.left = .halt) (toRight : s.toRight = [])

/-- And they have said no more than they have to say. -/
structure Underway (x y : List β) (s : Duplex P.toProgram Q.toProgram) (l r : List β) : Prop where
  heard : Heard s l r
  left_le : r ++ s.toRight <+: x
  right_le : l ++ s.toLeft <+: y

theorem Heard.swap (h : Heard s l r) : Heard s.swap r l := by
  cases h with
  | both left right => exact .both right left
  | leftEnded left waiting whole right halt toLeft => exact .rightEnded left waiting whole right halt toLeft
  | rightEnded right waiting whole left halt toRight => exact .leftEnded right waiting whole left halt toRight

theorem Underway.swap (h : Underway x y s l r) :
    Underway y x s.swap r l :=
  ⟨h.heard.swap, h.right_le, h.left_le⟩

/-- How much both have still to do. -/
def todo (x y l r : List β) (s : Duplex P.toProgram Q.toProgram) : ℕ :=
  P.todo x y (r ++ s.toRight) l s.left + Q.todo y x (l ++ s.toLeft) r s.right

theorem todo_swap : todo y x r l s.swap = todo x y l r s :=
  Nat.add_comm _ _

theorem Underway.say (h : Dialogue P Q x y) (hu : Underway x y s l r) (left : P.At l (r ++ s.toRight) s.left)
    (right : Q.At r (l ++ s.toLeft) s.right) {bytes : List β} {k : ℕ}
    (hreq : P.request s.left = .send bytes) (hpos : 0 < k) (hle : k ≤ bytes.length) :
    let s' : Duplex P.toProgram Q.toProgram :=
      ⟨P.resume s.left (.sent k), s.right, s.toRight ++ bytes.take k, s.toLeft⟩
    Underway x y s' l r ∧ todo x y l r s' < todo x y l r s := by
  intro s'
  have hsaid : r ++ s'.toRight = (r ++ s.toRight) ++ bytes.take k := (List.append_assoc _ _ _).symm
  have hheard : l <+: y := (List.prefix_append l s.toLeft).trans hu.right_le
  have hbound : r ++ s'.toRight <+: x := by
    rw [hsaid, ← h.left]
    apply List.IsPrefix.trans _ ((P.speaks left hreq).trans (P.speech_mono hheard))
    exact (List.prefix_append_right_inj _).2 (List.take_prefix k bytes)
  refine ⟨⟨.both ?_ right, hbound, hu.right_le⟩, ?_⟩
  · rw [hsaid]
    exact P.sent left hreq hpos hle
  · apply Nat.add_lt_add_right
    apply Speaker.todo_sent_lt _ hbound.length_le
    · rw [hreq]
      simp
    · have hlen : (bytes.take k).length = k := List.length_take_of_le hle
      simp only [hsaid, List.length_append, hlen]
      omega

theorem Underway.hear (hu : Underway x y s l r) (left : P.At l (r ++ s.toRight) s.left)
    (right : Q.At r (l ++ s.toLeft) s.right) {size k : ℕ} (hreq : P.request s.left = .recv size) (hpos : 0 < k)
    (hsize : k ≤ size) (hle : k ≤ s.toLeft.length) :
    let s' : Duplex P.toProgram Q.toProgram :=
      ⟨P.resume s.left (.received (s.toLeft.take k)), s.right, s.toRight, s.toLeft.drop k⟩
    Underway x y s' (l ++ s.toLeft.take k) r ∧
      todo x y (l ++ s.toLeft.take k) r s' < todo x y l r s := by
  intro s'
  have hsame : (l ++ s.toLeft.take k) ++ s'.toLeft = l ++ s.toLeft := by
    rw [List.append_assoc, List.take_append_drop]
  have hlen : (s.toLeft.take k).length = k := List.length_take_of_le hle
  have hbound : l ++ s.toLeft.take k <+: y :=
    ((List.prefix_append_right_inj l).2 (List.take_prefix k s.toLeft)).trans hu.right_le
  refine ⟨⟨.both ?_ ?_, hu.left_le, ?_⟩, ?_⟩
  · apply P.received left hreq
    · apply List.ne_nil_of_length_pos
      rwa [hlen]
    · rwa [hlen]
  · rwa [hsame]
  · rw [hsame]
    exact hu.right_le
  · unfold todo
    rw [hsame]
    apply Nat.add_lt_add_right
    apply Speaker.todo_received_lt _ hbound.length_le
    · rw [hreq]
      simp
    · rw [List.length_append, hlen]
      omega

theorem Underway.close (hu : Underway x y s l r) (left : P.At l (r ++ s.toRight) s.left)
    (right : Q.At r (l ++ s.toLeft) s.right) {size : ℕ} (hreq : P.request s.left = .recv size)
    (toLeft : s.toLeft = []) (halt : Q.request s.right = .halt) :
    let s' : Duplex P.toProgram Q.toProgram := ⟨P.resume s.left (.received []), s.right, s.toRight, s.toLeft⟩
    Underway x y s' l r ∧ todo x y l r s' < todo x y l r s := by
  intro s'
  obtain ⟨whole, waiting⟩ := P.waits left hreq
  have hend : P.AtEnd l s'.left := P.closed left hreq
  refine ⟨⟨.leftEnded hend waiting whole right halt toLeft, hu.left_le, hu.right_le⟩, ?_⟩
  apply Nat.add_lt_add_right
  apply Speaker.todo_halted_lt _ (P.halt_atEnd hend)
  rw [hreq]
  simp

/-! ### All has been said -/

/-- Both have halted, and all that they have to say has been said and heard. -/
structure Complete (x y : List β) (s : Duplex P.toProgram Q.toProgram) : Prop where
  left : P.Finished y x s.left
  right : Q.Finished x y s.right
  toRight : s.toRight = []
  toLeft : s.toLeft = []

theorem eq_nil_of_append_le {a b : List β} (h : a ++ b <+: a) : b = [] := by
  have hle := h.length_le
  rw [List.length_append] at hle
  exact List.eq_nil_of_length_eq_zero (by omega)

theorem Underway.complete_of_leftEnded (h : Dialogue P Q x y) (hu : Underway x y s l r)
    (left : P.AtEnd l s.left) (waiting : ¬ P.Done l) (whole : r ++ s.toRight = P.speech l)
    (right : Q.At r (l ++ s.toLeft) s.right) (halt : Q.request s.right = .halt) (toLeft : s.toLeft = []) :
    Complete x y s := by
  obtain ⟨hsaid, hdone⟩ := Q.leaves right halt
  obtain rfl : r = x := h.right_stays r ((List.prefix_append r s.toRight).trans hu.left_le) hdone
  have toRight : s.toRight = [] := eq_nil_of_append_le hu.left_le
  rw [toLeft, List.append_nil, h.right] at hsaid
  subst hsaid
  rw [toLeft, List.append_nil] at right
  rw [toRight, List.append_nil] at whole
  exact ⟨.ended left waiting whole, .done right halt, toRight, toLeft⟩

theorem Underway.finished_of_halt (h : Dialogue P Q x y) (hu : Underway x y s l r)
    (halt : P.request s.left = .halt) : P.Finished y x s.left := by
  have hfinished : P.At l (r ++ s.toRight) s.left → P.Finished y x s.left := by
    intro left
    obtain ⟨hsaid, hdone⟩ := P.leaves left halt
    obtain rfl : l = y := h.left_stays l ((List.prefix_append l s.toLeft).trans hu.right_le) hdone
    rw [hsaid, h.left] at left
    exact .done left halt
  rcases hu.heard with ⟨left, -⟩ | ⟨left, waiting, whole, right, halt', toLeft⟩ | ⟨-, -, -, left, -, -⟩
  · exact hfinished left
  · exact (hu.complete_of_leftEnded h left waiting whole right halt' toLeft).left
  · exact hfinished left

theorem Complete.swap (h : Complete x y s) : Complete y x s.swap :=
  ⟨h.right, h.left, h.toLeft, h.toRight⟩

theorem Underway.not_both_send (h : Dialogue P Q x y) (left : P.At l (r ++ s.toRight) s.left)
    (right : Q.At r (l ++ s.toLeft) s.right) {bytes bytes' : List β} (hleft : P.request s.left = .send bytes)
    (hright : Q.request s.right = .send bytes') : False := by
  have hfar : (r ++ s.toRight) ++ bytes <+: P.speech (l ++ s.toLeft) :=
    (P.speaks left hleft).trans (P.speech_mono (List.prefix_append l s.toLeft))
  have hfar' : (l ++ s.toLeft) ++ bytes' <+: Q.speech (r ++ s.toRight) :=
    (Q.speaks right hright).trans (Q.speech_mono (List.prefix_append r s.toRight))
  rcases h.alternate _ _ ((List.prefix_append _ _).trans hfar) ((List.prefix_append _ _).trans hfar') with
    heq | heq
  · rw [← heq] at hfar
    exact P.send_ne_nil _ _ hleft (eq_nil_of_append_le hfar)
  · rw [← heq] at hfar'
    exact Q.send_ne_nil _ _ hright (eq_nil_of_append_le hfar')

end

/-! ### Moves -/

variable {β ε : Type} [DecidableEq ε] {link : Link ε} {P Q : Speaker β ε link.errors} {x y l r : List β}
  {s : Duplex P.toProgram Q.toProgram}

/-- A move of the left speaker changes nothing, which is so if it is interrupted or cannot go on, or takes the
two further. -/
theorem Underway.stepLeft (h : Dialogue P Q x y) (hu : Underway x y s l r) (c : Choice ε) :
    (Duplex.stepLeft link s c = s ∧ ((∃ e, c = .fail e) ∨ callLeft link s c = none)) ∨
    ∃ l', Underway x y (Duplex.stepLeft link s c) l' r ∧
      todo x y l' r (Duplex.stepLeft link s c) < todo x y l r s := by
  cases hc : c with
  | fail e => exact .inl ⟨stepLeft_fail fun he hreq => P.failed hreq he, .inl ⟨e, rfl⟩⟩
  | go n =>
    cases hcall : callLeft link s (.go n) with
    | none => exact .inl ⟨stepLeft_none hcall, .inr rfl⟩
    | some answered =>
      right
      -- it was served, so it has not left
      have hserved : P.request s.left ≠ .halt := by
        intro halt
        rw [callLeft, halt, call_halt] at hcall
        simp at hcall
      obtain ⟨left, right⟩ : P.At l (r ++ s.toRight) s.left ∧ Q.At r (l ++ s.toLeft) s.right := by
        cases hu.heard with
        | both left right => exact ⟨left, right⟩
        | leftEnded left => exact absurd (P.halt_atEnd left) hserved
        | rightEnded _ _ _ _ halt => exact absurd halt hserved
      rw [stepLeft_some hcall]
      rcases call_go_cases hcall with ⟨bytes, k, hreq, hle, hpos, rfl⟩ |
          ⟨size, k, hreq, hsize, hle, hpos, rfl, hclosed⟩ | ⟨hreq, -⟩
      · exact ⟨l, hu.say h left right hreq (hpos (P.send_ne_nil _ _ hreq)) hle⟩
      · by_cases hinbox : s.toLeft = []
        · refine ⟨l, ?_⟩
          have hclose := hu.close left right hreq hinbox ((Q.halted_iff _).1 (hclosed hinbox))
          simpa [hinbox] using hclose
        · refine ⟨l ++ s.toLeft.take k, ?_⟩
          have hhear := hu.hear left right hreq (hpos (P.recv_pos _ _ hreq) hinbox) hsize hle
          simpa using hhear
      · exact absurd hreq (P.request_ne_work _)

theorem Underway.stepRight (h : Dialogue P Q x y) (hu : Underway x y s l r) (c : Choice ε) :
    (Duplex.stepRight link s c = s ∧ ((∃ e, c = .fail e) ∨ callRight link s c = none)) ∨
    ∃ r', Underway x y (Duplex.stepRight link s c) l r' ∧
      todo x y l r' (Duplex.stepRight link s c) < todo x y l r s := by
  rw [stepRight_eq_swap]
  rcases @Underway.stepLeft β ε _ link.swap Q P y x r l s.swap h.symm hu.swap c with
    ⟨hsame, hcall⟩ | ⟨r', hu', hlt⟩
  · refine .inl ⟨?_, hcall⟩
    rw [hsame]
    rfl
  · refine .inr ⟨r', hu'.swap, ?_⟩
    calc todo x y l r' (Duplex.stepLeft link.swap s.swap c).swap
        = todo y x r' l (Duplex.stepLeft link.swap s.swap c) := todo_swap
      _ < todo y x r l s.swap := hlt
      _ = todo x y l r s := todo_swap

/-- A state in which neither can go on is one in which both are done. -/
theorem Underway.complete_of_blocked (h : Dialogue P Q x y) (hroomRight : 0 < link.roomRight)
    (hroomLeft : 0 < link.roomLeft) (hu : Underway x y s l r) {n m : ℕ}
    (hleft : callLeft link s (.go n) = none) (hright : callRight link s (.go m) = none) : Complete x y s := by
  -- what the one has room for no more is there for the other
  have hfull : link.roomRight - s.toRight.length = 0 → s.toRight ≠ [] := by
    rintro hfree hnil
    rw [hnil, List.length_nil] at hfree
    omega
  have hfull' : link.roomLeft - s.toLeft.length = 0 → s.toLeft ≠ [] := by
    rintro hfree hnil
    rw [hnil, List.length_nil] at hfree
    omega
  cases hu.heard with
  | leftEnded left waiting whole right halt toLeft =>
    exact hu.complete_of_leftEnded h left waiting whole right halt toLeft
  | rightEnded right waiting whole left halt toRight =>
    exact (Underway.complete_of_leftEnded h.symm hu.swap right waiting
      whole left halt toRight).swap
  | both left right =>
    have hhalt : P.request s.left = .halt → l = y ∧ s.toLeft = [] := by
      intro halt
      obtain rfl := h.left_stays l ((List.prefix_append l s.toLeft).trans hu.right_le) (P.leaves left halt).2
      exact ⟨rfl, eq_nil_of_append_le hu.right_le⟩
    have hhalt' : Q.request s.right = .halt → r = x ∧ s.toRight = [] := by
      intro halt
      obtain rfl := h.right_stays r ((List.prefix_append r s.toRight).trans hu.left_le) (Q.leaves right halt).2
      exact ⟨rfl, eq_nil_of_append_le hu.left_le⟩
    rcases call_go_eq_none hleft with halt | ⟨bytes, hreq, hfree⟩ | ⟨size, hreq, toLeft, hopen⟩
    · obtain ⟨rfl, toLeft⟩ := hhalt halt
      rcases call_go_eq_none hright with halt' | ⟨bytes', -, hfree'⟩ | ⟨size', -, -, hopen'⟩
      · obtain ⟨rfl, toRight⟩ := hhalt' halt'
        rw [toRight, List.append_nil] at left
        rw [toLeft, List.append_nil] at right
        exact ⟨.done left halt, .done right halt', toRight, toLeft⟩
      · exact absurd toLeft (hfull' hfree')
      · rw [(P.halted_iff _).2 halt] at hopen'
        exact absurd hopen' (by simp)
    · rcases call_go_eq_none hright with halt' | ⟨bytes', hreq', -⟩ | ⟨size', -, toRight, -⟩
      · exact absurd (hhalt' halt').2 (hfull hfree)
      · exact absurd (Underway.not_both_send h left right hreq hreq') not_false
      · exact absurd toRight (hfull hfree)
    · rcases call_go_eq_none hright with halt' | ⟨bytes', -, hfree'⟩ | ⟨size', hreq', toRight, -⟩
      · rw [(Q.halted_iff _).2 halt'] at hopen
        exact absurd hopen (by simp)
      · exact absurd toLeft (hfull' hfree')
      · obtain ⟨hsaid, hwaits⟩ := P.waits left hreq
        obtain ⟨hsaid', hwaits'⟩ := Q.waits right hreq'
        rw [toRight, List.append_nil] at hsaid
        rw [toLeft, List.append_nil] at hsaid'
        rcases h.goesOn r l hsaid.symm hsaid'.symm with hdone | hdone
        · exact absurd hdone hwaits
        · exact absurd hdone hwaits'

/-! ### Whole runs -/

/-- Two speakers that meet. -/
def meeting (P Q : Speaker β ε link.errors) : Duplex P.toProgram Q.toProgram := ⟨P.start, Q.start, [], []⟩

theorem advances (h : Dialogue P Q x y) (hroomRight : 0 < link.roomRight) (hroomLeft : 0 < link.roomLeft) :
    Advances link (fun m s => ∃ l r, Underway x y s l r ∧ todo x y l r s = m) (Complete (P := P) (Q := Q) x y) where
  left m s c := by
    rintro ⟨l, r, hu, rfl⟩
    exact (hu.stepLeft h c).imp_right fun ⟨l', hu', hlt⟩ => ⟨_, hlt, l', r, hu', rfl⟩
  right m s c := by
    rintro ⟨l, r, hu, rfl⟩
    exact (hu.stepRight h c).imp_right fun ⟨r', hu', hlt⟩ => ⟨_, hlt, l, r', hu', rfl⟩
  blocked m s n k := by
    rintro ⟨l, r, hu, -⟩ hleft hright
    exact hu.complete_of_blocked h hroomRight hroomLeft hleft hright
  stays s move hs := by
    cases move with
    | left c => exact stepLeft_of_halt hs.left.halt c
    | right c => exact stepRight_of_halt hs.right.halt c

omit [DecidableEq ε] in
theorem underway_meeting : Underway x y (meeting P Q) [] [] :=
  ⟨.both P.start_at Q.start_at, List.nil_prefix, List.nil_prefix⟩

theorem underway_run (h : Dialogue P Q x y) (moves : List (Move ε)) :
    ∃ l r, Underway x y (run (step link) (meeting P Q) moves) l r := by
  refine @run_stable _ _ (step link) (fun s => ∃ l r, Underway x y s l r) ?_ _ ⟨[], [], underway_meeting⟩ moves
  rintro s m ⟨l, r, hu⟩
  cases m with
  | left c =>
    rcases hu.stepLeft h c with ⟨hsame, -⟩ | ⟨l', hu', -⟩
    · exact ⟨l, r, by simpa only [step, hsame] using hu⟩
    · exact ⟨l', r, hu'⟩
  | right c =>
    rcases hu.stepRight h c with ⟨hsame, -⟩ | ⟨r', hu', -⟩
    · exact ⟨l, r, by simpa only [step, hsame] using hu⟩
    · exact ⟨l, r', hu'⟩

/-- Every run that never neglects one of the two gets to the end of the dialogue. -/
theorem completes (h : Dialogue P Q x y) (hroomRight : 0 < link.roomRight) (hroomLeft : 0 < link.roomLeft)
    {moves : ℕ → Move ε} (hfair : Fair moves) :
    ∃ N, ∀ n ≥ N, Complete x y (stateAt (step link) (meeting P Q) moves n) :=
  (h.advances hroomRight hroomLeft).completes ⟨_, [], [], underway_meeting, rfl⟩ hfair

end Dialogue

end NetProg.Lib
