import Portty.App.CardsShown

/-!
# The decision log (`App.tsx`)

The phone logs a decision when the command that sends it has put a frame into the queue of the link.
The host may apply it, or find that the request was answered elsewhere, or never get it.

`log_truthful`: as long as nobody disputes a decision that is on its way and the host has it before
the callback runs (`Undisputed`), an entry about a decision of this phone is about one that the host
has applied, with the input that it was made on; an entry about another viewer's decision is about a
request that this phone did not resolve; and no request is logged twice.

* **`Accounts`**: every request is resolved once, and the phone is told once.
* **`SentOk`**: a decision that was sent is on its way to a request that still waits, or was
  applied, and there is one for each request.
* **`LogOk`**: the entries are the decisions that have landed and the answers of others.
-/

namespace Portty

namespace Cards

open Policy Timeline AutoApprove Permission

/-! ## The condition and the result -/

/-- The option lets the agent go on. -/
def allows : PermissionOptionKind → Bool
  | .allowOnce | .allowAlways => true
  | .rejectOnce | .rejectAlways => false

/-- The option fits the source under which the decision is logged. -/
def Decision.Chosen (d : Decision) : Prop :=
  match d.source with
  | .auto | .manualAllow | .learnedExact =>
    ∃ option ∈ d.card.request.options, d.optionId = some option.optionId ∧ allows option.kind
  | .manualReject => d.optionId = none
  | .resolvedElsewhere => False

/-- The frame was put into the queue of a link. -/
def Decision.Sent (d : Decision) : Prop := d.status = .enqueued ∨ d.status = .landed

instance (d : Decision) : Decidable d.Sent := inferInstanceAs (Decidable (_ ∨ _))

/-- The host has resolved the request with the decision. -/
def Applied (w : World) (i : Nat) (d : Decision) : Prop :=
  ∃ r ∈ w.resolutions, r.card.Same d.card ∧ r.decision = some i

/-- A decision of this phone was applied; or the request was resolved by someone else. -/
def Truthful (w : World) (e : DecisionLogEntry) : Prop :=
  if e.source = .resolvedElsewhere then
    ∃ r ∈ w.resolutions, r.card.Same e.card ∧ r.decision = none
  else
    ∃ (i : Nat) (d : Decision), w.ui.decisions[i]? = some d ∧ d.card = e.card ∧ d.source = e.source ∧
      d.Chosen ∧ d.input = e.input ∧ Applied w i d

/-- Every entry is truthful, and no card has two. -/
def LogTruthful (w : World) : Prop :=
  (∀ e ∈ w.ui.decisionLog, Truthful w e) ∧
    w.ui.decisionLog.Pairwise fun e e' => ¬ e.card.Same e'.card

/-- No decision about such a card is on its way. -/
def NoneUnderWay (w : World) (p : Card → Bool) : Prop :=
  ∀ i ∈ w.up, ∀ d ∈ w.ui.decisions[i]?, p d.card = false

instance (w : World) (p : Card → Bool) : Decidable (NoneUnderWay w p) :=
  inferInstanceAs (Decidable (∀ i ∈ _, ∀ d ∈ w.ui.decisions[i]?, _))

/-- The card that a frame resolves. -/
def Frame.resolvedCard : Frame → Option Card
  | .resolved card .. => some card
  | _ => none

/-- Nobody disputes a decision.

* The user picks an option that allows, or dismisses the card.
* The request still waits when the decision is sent, and has no other decision.
* While the decision is on its way, nobody else resolves the request, it does not time out or make
  room for another one, and the link is not lost.
* When the decision is logged, the host has it, and the timeline says the same input.
* When the host says that a request is resolved and its card is shown, no decision of this phone has
  resolved it. -/
def Undisputed (js : Js) (w : World) : Event → Prop
  | .decide card optionId => ∀ id ∈ optionId,
    ∃ option ∈ card.request.options, option.optionId = id ∧ allows option.kind = true
  | .enqueue i => ∀ d ∈ w.ui.decisions[i]?, d.status = .sending → w.link = some d.card.connection →
    (∃ card ∈ w.pending, card.Same d.card) ∧ ∀ d' ∈ w.ui.decisions, d'.Sent → ¬ d'.card.Same d.card
  | .answer key .. | .cancel key _ | .expire key => NoneUnderWay w (·.key = key)
  | .raise request _ => NoneUnderWay w (·.key = (request.id, request.toolCallId))
  | .removeSession id _ => NoneUnderWay w (·.request.id = id)
  | .landed i => ∀ d ∈ w.ui.decisions[i]?, d.status = .enqueued →
    i ∉ w.up ∧ w.ui.input js d.card = d.input
  | .deliver => ∀ card ∈ w.wire.head?.bind Frame.resolvedCard,
    card.key ∉ w.ui.phone.autoDecided → ∀ x ∈ w.ui.permissions, x.key = card.key →
      x.Same card ∧ ∀ r ∈ w.resolutions, r.card.Same card → r.decision = none
  | .linkLost => w.up = []
  | _ => True

instance (js : Js) (w : World) : DecidablePred (Undisputed js w) := fun ev =>
  match ev with
  | .decide _ optionId => inferInstanceAs (Decidable (∀ id ∈ optionId, ∃ option ∈ _, _))
  | .enqueue i => inferInstanceAs (Decidable (∀ d ∈ w.ui.decisions[i]?, _ → _ → _ ∧ _))
  | .answer key .. | .cancel key _ | .expire key =>
    inferInstanceAs (Decidable (NoneUnderWay w (·.key = key)))
  | .raise request _ =>
    inferInstanceAs (Decidable (NoneUnderWay w (·.key = (request.id, request.toolCallId))))
  | .removeSession id _ => inferInstanceAs (Decidable (NoneUnderWay w (·.request.id = id)))
  | .landed i => inferInstanceAs (Decidable (∀ d ∈ w.ui.decisions[i]?, _ → _ ∧ _))
  | .deliver => inferInstanceAs (Decidable (∀ card ∈ w.wire.head?.bind Frame.resolvedCard, _ → _))
  | .linkLost => inferInstanceAs (Decidable (w.up = []))
  | .attach .. | .resync .. | .write | .receive _ | .learn _ | .rejected _ | .environment ..
  | .connect => .isTrue trivial

/-! ## Requests -/

variable {card x y : Card} {frame : Frame} {w w' : World} {js : Js} {i : Nat} {d : Decision}

theorem Card.Same.symm (h : x.Same y) : y.Same x := ⟨h.1.symm, h.2.symm⟩

theorem Card.Same.trans (h : x.Same y) (h' : y.Same card) : x.Same card :=
  ⟨h.1.trans h'.1, h.2.trans h'.2⟩

/-- The requests whose answers are on the way to the phone. -/
def World.told (w : World) : List Card := w.frames.filterMap Frame.resolvedCard

/-- A request waits or is resolved, once, and the phone is told once. -/
structure Accounts (w : World) : Prop where
  keys : (w.pending.map Card.key).Nodup
  older : ∀ card ∈ w.pending, card.no < w.next
  past : ∀ r ∈ w.resolutions, r.card.no < w.next
  waits : ∀ card ∈ w.pending, ∀ r ∈ w.resolutions, ¬ r.card.Same card
  once : w.resolutions.Pairwise fun r r' => ¬ r.card.Same r'.card
  toldOnce : w.told.Pairwise fun c c' => ¬ c.Same c'
  toldPast : ∀ card ∈ w.told, ∃ r ∈ w.resolutions, r.card.Same card

/-- Requests leave, or frames arrive. -/
theorem Accounts.shrink (h : Accounts w) (hp : w'.pending.Sublist w.pending) (hn : w'.next = w.next)
    (hr : w'.resolutions = w.resolutions) (ht : w'.told.Sublist w.told) : Accounts w' where
  keys := h.keys.sublist (hp.map _)
  older card hc := hn ▸ h.older card (hp.subset hc)
  past r hr' := hn ▸ h.past r (hr ▸ hr')
  waits card hc r hr' := h.waits card (hp.subset hc) r (hr ▸ hr')
  once := hr ▸ h.once
  toldOnce := h.toldOnce.sublist ht
  toldPast card hc := by
    rw [hr]
    exact h.toldPast card (ht.subset hc)

theorem told_emit (w : World) (frame : Frame) (lost : Bool) :
    (w.emit frame lost).told = w.told ∨
      (w.emit frame lost).told = w.told ++ frame.resolvedCard.toList := by
  obtain heq | heq := emit_cases w frame lost
  · exact .inl (by rw [heq])
  · right
    rw [heq, World.told, frames_append_queue, List.filterMap_append, World.told]
    cases frame <;> rfl

/-- An event of the host changes only what is on the way. -/
theorem emit_frame (w : World) (frame : Frame) (lost : Bool) :
    (w.emit frame lost).ui = w.ui ∧ (w.emit frame lost).pending = w.pending ∧
      (w.emit frame lost).next = w.next ∧ (w.emit frame lost).resolutions = w.resolutions ∧
      (w.emit frame lost).up = w.up ∧ (w.emit frame lost).link = w.link := by
  obtain heq | heq := emit_cases w frame lost <;> rw [heq] <;> exact ⟨rfl, rfl, rfl, rfl, rfl, rfl⟩

/-- A new card has a number that no request had. -/
theorem Accounts.register (h : Accounts w) (hno : card.no = w.next) :
    Accounts { w with
      pending := w.pending.filter (·.key ≠ card.key) ++ [card], next := w.next + 1 } where
  keys := by
    rw [List.map_append, List.nodup_append]
    refine ⟨h.keys.sublist (List.filter_sublist.map _), List.nodup_singleton _, ?_⟩
    rintro k hk k' hk' rfl
    obtain ⟨c, hc, rfl⟩ := List.mem_map.mp hk
    exact (mem_filter_key hc).2 (List.mem_singleton.mp hk')
  older c hc := by
    obtain hc | hc := List.mem_append.mp hc
    · exact Nat.lt_succ_of_lt (h.older c (mem_filter_key hc).1)
    · rw [List.mem_singleton.mp hc, hno]
      exact Nat.lt_succ_self _
  past r hr := Nat.lt_succ_of_lt (h.past r hr)
  waits c hc r hr := by
    obtain hc | hc := List.mem_append.mp hc
    · exact h.waits c (mem_filter_key hc).1 r hr
    · intro hsame
      have hlt := h.past r hr
      have heq := hsame.1
      rw [List.mem_singleton.mp hc, hno] at heq
      omega
  once := h.once
  toldOnce := h.toldOnce
  toldPast := h.toldPast

/-- What becomes of the host when a request is resolved. -/
theorem settle_frame (w : World) (card : Card) (decision : Option Nat)
    (resolution : PermissionResolution) (resolver : PermissionResolver) (lost : Bool) :
    let w' := w.settle card decision resolution resolver lost
    w'.ui = w.ui ∧ w'.pending = w.pending.filter (·.key ≠ card.key) ∧ w'.next = w.next ∧
      w'.resolutions = w.resolutions ++ [{ card, decision : Resolution }] ∧ w'.up = w.up ∧
      w'.link = w.link ∧ (w'.told = w.told ∨ w'.told = w.told ++ [card]) := by
  unfold World.settle
  dsimp only
  obtain ⟨hui, hp, hn, hr, hup, hl⟩ := emit_frame { w with
    pending := w.pending.filter (·.key ≠ card.key)
    resolutions := w.resolutions ++ [{ card, decision : Resolution }] }
    (.resolved card resolution resolver) lost
  exact ⟨hui, hp, hn, hr, hup, hl, told_emit _ _ lost⟩

/-- A request that waits is resolved, and the phone is told or not. -/
theorem Accounts.settle (h : Accounts w) (hc : card ∈ w.pending) (decision : Option Nat)
    (resolution : PermissionResolution) (resolver : PermissionResolver) (lost : Bool) :
    Accounts (w.settle card decision resolution resolver lost) := by
  obtain ⟨-, hp, hn, hr, -, -, hsplit⟩ := settle_frame w card decision resolution resolver lost
  have hnew : ∀ r ∈ w.resolutions, ¬ r.card.Same card := h.waits card hc
  -- The answers on the way are about requests that were resolved before.
  have hnot : ∀ c ∈ w.told, ¬ c.Same card := by
    intro c hmem hsame
    obtain ⟨r, hr, hrc⟩ := h.toldPast c hmem
    exact hnew r hr (hrc.trans hsame)
  have hpast : ∀ c ∈ w.told ++ [card],
      ∃ r ∈ w.resolutions ++ [{ card, decision : Resolution }], r.card.Same c := by
    intro c hmem
    obtain hmem | hmem := List.mem_append.mp hmem
    · obtain ⟨r, hr, hrc⟩ := h.toldPast c hmem
      exact ⟨r, List.mem_append_left _ hr, hrc⟩
    · rw [List.mem_singleton.mp hmem]
      exact ⟨_, List.mem_append_right _ List.mem_cons_self, rfl, rfl⟩
  refine ⟨?_, ?_, ?_, ?_, ?_, ?_, ?_⟩
  · rw [hp]
    exact h.keys.sublist (List.filter_sublist.map _)
  · rw [hp, hn]
    exact fun c hmem => h.older c (mem_filter_key hmem).1
  · rw [hr, hn]
    intro r hmem
    obtain hmem | hmem := List.mem_append.mp hmem
    · exact h.past r hmem
    · rw [List.mem_singleton.mp hmem]
      exact h.older card hc
  · rw [hp, hr]
    intro c hmem r hmem'
    obtain ⟨hmem, hne⟩ := mem_filter_key hmem
    obtain hmem' | hmem' := List.mem_append.mp hmem'
    · exact h.waits c hmem r hmem'
    · rw [List.mem_singleton.mp hmem']
      exact fun hsame => hne hsame.2.symm
  · rw [hr]
    refine List.pairwise_append.mpr ⟨h.once, List.pairwise_singleton _ _, fun r hmem r' hmem' => ?_⟩
    rw [List.mem_singleton.mp hmem']
    exact hnew r hmem
  · obtain heq | heq := hsplit
    · rw [heq]
      exact h.toldOnce
    · rw [heq]
      refine List.pairwise_append.mpr ⟨h.toldOnce, List.pairwise_singleton _ _, fun c hmem c' hmem' => ?_⟩
      rw [List.mem_singleton.mp hmem']
      exact hnot c hmem
  · rw [hr]
    intro c hmem
    obtain heq | heq := hsplit
    · exact hpast c (List.mem_append_left _ (heq ▸ hmem))
    · exact hpast c (heq ▸ hmem)

/-! ## Decisions and entries -/

/-- What was sent arrives. -/
structure SentOk (w : World) : Prop where
  upNodup : w.up.Nodup
  down : w.link = none → w.up = []
  upSent : ∀ i ∈ w.up, ∃ d, w.ui.decisions[i]? = some d ∧ d.Sent
  underWay : ∀ i ∈ w.up, ∀ d, w.ui.decisions[i]? = some d → ∃ card ∈ w.pending, card.Same d.card
  applied : ∀ (i : Nat) (d : Decision), w.ui.decisions[i]? = some d → d.Sent → i ∉ w.up → Applied w i d
  single : ∀ (i j : Nat) (d d' : Decision), w.ui.decisions[i]? = some d → w.ui.decisions[j]? = some d' →
    d.Sent → d'.Sent → d.card.Same d'.card → i = j
  chosen : ∀ d ∈ w.ui.decisions, d.Chosen

/-- What is logged. -/
structure LogOk (w : World) : Prop where
  ours : ∀ e ∈ w.ui.decisionLog, e.source ≠ .resolvedElsewhere → ∃ (i : Nat) (d : Decision),
    w.ui.decisions[i]? = some d ∧ d.status = .landed ∧ i ∉ w.up ∧ d.card = e.card ∧
      d.source = e.source ∧ d.input = e.input
  elsewhere : ∀ e ∈ w.ui.decisionLog, e.source = .resolvedElsewhere →
    (∃ r ∈ w.resolutions, r.card.Same e.card ∧ r.decision = none) ∧ ∀ c ∈ w.told, ¬ c.Same e.card
  once : w.ui.decisionLog.Pairwise fun e e' => ¬ e.card.Same e'.card

/-- The invariant of a run. -/
structure Books (w : World) : Prop where
  accounts : Accounts w
  sent : SentOk w
  log : LogOk w

theorem Applied.mono (h : Applied w i d) (hr : ∀ r ∈ w.resolutions, r ∈ w'.resolutions) :
    Applied w' i d := by
  obtain ⟨r, hmem, hrest⟩ := h
  exact ⟨r, hr r hmem, hrest⟩

theorem Books.truthful (h : Books w) : LogTruthful w := by
  refine ⟨fun e he => ?_, h.log.once⟩
  unfold Truthful
  split
  · next hs => exact (h.log.elsewhere e he hs).1
  · next hs =>
    obtain ⟨i, d, hi, hst, hup, hcard, hsource, hinput⟩ := h.log.ours e he hs
    refine ⟨i, d, hi, hcard, hsource, h.sent.chosen d (List.mem_of_getElem? hi), hinput, ?_⟩
    exact h.sent.applied i d hi (.inr hst) hup

/-- A step that decides and logs nothing, and takes no request away from a decision that is on its
way. -/
theorem Books.ofHost (h : Books w) (hdecs : w'.ui.decisions = w.ui.decisions)
    (hlog : w'.ui.decisionLog = w.ui.decisionLog) (hup : w'.up = w.up)
    (hdown : w'.link = none → w'.up = []) (ha : Accounts w')
    (hr : ∀ r ∈ w.resolutions, r ∈ w'.resolutions)
    (hkeep : ∀ i ∈ w.up, ∀ d ∈ w.ui.decisions[i]?, ∀ c ∈ w.pending, c.Same d.card → c ∈ w'.pending)
    (ht : ∀ c ∈ w'.told, c ∈ w.told ∨ ∀ r ∈ w.resolutions, ¬ r.card.Same c) : Books w' where
  accounts := ha
  sent :=
    { upNodup := hup ▸ h.sent.upNodup
      down := hdown
      upSent := by
        rw [hup, hdecs]
        exact h.sent.upSent
      underWay := by
        rw [hup, hdecs]
        intro i hi d hd
        obtain ⟨c, hc, hsame⟩ := h.sent.underWay i hi d hd
        exact ⟨c, hkeep i hi d hd c hc hsame, hsame⟩
      applied := by
        rw [hup, hdecs]
        exact fun i d hd hs hi => (h.sent.applied i d hd hs hi).mono hr
      single := by
        rw [hdecs]
        exact h.sent.single
      chosen := by
        rw [hdecs]
        exact h.sent.chosen }
  log :=
    { ours := by
        rw [hlog, hdecs, hup]
        exact h.log.ours
      elsewhere := by
        rw [hlog]
        intro e he hs
        obtain ⟨⟨r, hmem, hsame, hnone⟩, hnot⟩ := h.log.elsewhere e he hs
        refine ⟨⟨r, hr r hmem, hsame, hnone⟩, fun c hc hce => ?_⟩
        obtain hc | hc := ht c hc
        · exact hnot c hc hce
        · exact hc r hmem (hsame.trans hce.symm)
      once := by
        rw [hlog]
        exact h.log.once }

/-- Only what is on the way to the phone changes, and the phone does not log. -/
theorem Books.ofFrames (h : Books w) (hdecs : w'.ui.decisions = w.ui.decisions)
    (hlog : w'.ui.decisionLog = w.ui.decisionLog) (hup : w'.up = w.up) (hl : w'.link = w.link)
    (hp : w'.pending = w.pending) (hn : w'.next = w.next) (hr : w'.resolutions = w.resolutions)
    (ht : w'.told.Sublist w.told) : Books w' := by
  refine h.ofHost hdecs hlog hup ?_ (h.accounts.shrink (by rw [hp]) hn hr ht) (by simp [hr])
    (fun _ _ _ _ c hc _ => hp ▸ hc) fun c hc => .inl (ht.subset hc)
  rw [hl, hup]
  exact h.sent.down

/-- Requests are dropped at the host, none of them one with a decision on its way. -/
theorem Books.drop (h : Books w) {pending : List Card} (hp : pending.Sublist w.pending)
    (hkeep : ∀ i ∈ w.up, ∀ d ∈ w.ui.decisions[i]?, ∀ c ∈ w.pending, c.Same d.card → c ∈ pending) :
    Books { w with pending } :=
  h.ofHost rfl rfl rfl h.sent.down (h.accounts.shrink hp rfl rfl (.refl _)) (fun _ hr => hr) hkeep
    fun _ hc => .inl hc

theorem Books.emit (h : Books w) (hc : frame.resolvedCard = none) (lost : Bool) :
    Books (w.emit frame lost) := by
  obtain ⟨hui, hp, hn, hr, hup, hl⟩ := emit_frame w frame lost
  refine h.ofFrames (by rw [hui]) (by rw [hui]) hup hl hp hn hr ?_
  obtain ht | ht := told_emit w frame lost
  · rw [ht]
  · rw [ht, hc, Option.toList_none, List.append_nil]

/-- Another viewer or the host resolves a request. -/
theorem Books.settle (h : Books w) (hc : card ∈ w.pending) (resolution : PermissionResolution)
    (resolver : PermissionResolver) (lost : Bool)
    (hs : ∀ i ∈ w.up, ∀ d ∈ w.ui.decisions[i]?, d.card.key ≠ card.key) :
    Books (w.settle card none resolution resolver lost) := by
  obtain ⟨hui, hp, -, hr, hup, hl, ht⟩ := settle_frame w card none resolution resolver lost
  refine h.ofHost (by rw [hui]) (by rw [hui]) hup ?_ (h.accounts.settle hc none resolution resolver lost)
    (fun r hmem => by rw [hr]; exact List.mem_append_left _ hmem) ?_ ?_
  · rw [hl, hup]
    exact h.sent.down
  · intro i hi d hd c hmem hsame
    rw [hp]
    refine List.mem_filter.mpr ⟨hmem, ?_⟩
    have := hs i hi d hd
    simpa [hsame.2] using this
  · intro c hmem
    obtain ht | ht := ht
    · exact .inl (ht ▸ hmem)
    · rw [ht] at hmem
      obtain hmem | hmem := List.mem_append.mp hmem
      · exact .inl hmem
      · rw [List.mem_singleton.mp hmem]
        exact .inr (h.accounts.waits card hc)

/-! ## Steps of the phone -/

theorem getElem?_snoc {l : List Decision} {d' : Decision} (h : (l ++ [d])[i]? = some d') :
    l[i]? = some d' ∨ d' = d := by
  by_cases hi : i < l.length
  · rw [List.getElem?_append_left hi] at h
    exact .inl h
  · rw [List.getElem?_append_right (by omega)] at h
    exact .inr (List.mem_singleton.mp (List.mem_of_getElem? h))

theorem getElem?_snoc_of_some {l : List Decision} {d' : Decision} (h : l[i]? = some d') :
    (l ++ [d])[i]? = some d' := by
  rw [List.getElem?_append_left (List.getElem?_eq_some_iff.mp h).1]
  exact h

/-- The phone makes a decision. -/
theorem Books.decide (h : Books w) (hdecs : w'.ui.decisions = w.ui.decisions ++ [d])
    (hst : d.status = .sending) (hch : d.Chosen) (hlog : w'.ui.decisionLog = w.ui.decisionLog)
    (hup : w'.up = w.up) (hl : w'.link = w.link) (hp : w'.pending = w.pending)
    (hn : w'.next = w.next) (hr : w'.resolutions = w.resolutions)
    (ht : w'.told.Sublist w.told) : Books w' := by
  have hnot : ¬ d.Sent := by
    simp [Decision.Sent, hst]
  have hold : ∀ (i : Nat) (d' : Decision), w'.ui.decisions[i]? = some d' → d'.Sent →
      w.ui.decisions[i]? = some d' := by
    intro i d' hd hs
    rw [hdecs] at hd
    obtain hd | rfl := getElem?_snoc hd
    · exact hd
    · exact absurd hs hnot
  have hmore : ∀ (i : Nat) (d' : Decision), w.ui.decisions[i]? = some d' →
      w'.ui.decisions[i]? = some d' := by
    intro i d' hd
    rw [hdecs]
    exact getElem?_snoc_of_some hd
  refine ⟨h.accounts.shrink (by rw [hp]) hn hr ht, ?_, ?_⟩
  · refine ⟨hup ▸ h.sent.upNodup, ?_, ?_, ?_, ?_, ?_, ?_⟩
    · rw [hl, hup]
      exact h.sent.down
    · rw [hup]
      intro i hi
      obtain ⟨d', hd, hs⟩ := h.sent.upSent i hi
      exact ⟨d', hmore i d' hd, hs⟩
    · rw [hup, hp]
      intro i hi d' hd
      obtain ⟨d'', hd'', -⟩ := h.sent.upSent i hi
      obtain rfl : d'' = d' := by simpa [hmore i d'' hd''] using hd
      exact h.sent.underWay i hi d'' hd''
    · rw [hup]
      intro i d' hd hs hi
      exact (h.sent.applied i d' (hold i d' hd hs) hs hi).mono (by simp [hr])
    · intro i j d₁ d₂ hd₁ hd₂ hs₁ hs₂ hsame
      exact h.sent.single i j d₁ d₂ (hold i d₁ hd₁ hs₁) (hold j d₂ hd₂ hs₂) hs₁ hs₂ hsame
    · rw [hdecs]
      intro d' hd
      obtain hd | hd := List.mem_append.mp hd
      · exact h.sent.chosen d' hd
      · rwa [List.mem_singleton.mp hd]
  · refine ⟨?_, ?_, by rw [hlog]; exact h.log.once⟩
    · rw [hlog, hup]
      intro e he hs
      obtain ⟨i, d', hd, hrest⟩ := h.log.ours e he hs
      exact ⟨i, d', hmore i d' hd, hrest⟩
    · rw [hlog, hr]
      intro e he hs
      obtain ⟨hres, hnot⟩ := h.log.elsewhere e he hs
      exact ⟨hres, fun c hc => hnot c (ht.subset hc)⟩

theorem chosen_allowOnce {source : DecisionSource} {options : List PermissionOption}
    {option : PermissionOption} (hsource : source = .auto ∨ source = .learnedExact)
    (hd : d.source = source) (hopt : d.card.request.options = options)
    (hid : d.optionId = some option.optionId)
    (h : options.find? (·.kind = .allowOnce) = some option) : d.Chosen := by
  have hkind : option.kind = .allowOnce := by simpa using List.find?_some h
  have hex : ∃ option ∈ d.card.request.options, d.optionId = some option.optionId ∧
      allows option.kind := by
    refine ⟨option, ?_, hid, by rw [hkind]; rfl⟩
    rw [hopt]
    exact List.mem_of_find?_eq_some h
  unfold Decision.Chosen
  rw [hd]
  obtain rfl | rfl := hsource
  · exact hex
  · exact hex

/-- What is answered without asking is the first `allowOnce` of the request. -/
theorem maybeAutoApprove_allow {p : Phone} {request : AgentPermission} {optionId : String}
    (h : p.maybeAutoApprove js request = .allow optionId) :
    ∃ option, request.options.find? (·.kind = .allowOnce) = some option ∧
      option.optionId = optionId := by
  unfold Phone.maybeAutoApprove at h
  split at h
  · cases h
  split at h
  · cases h
  dsimp only at h
  split at h
  · split at h
    · cases h
    · next option hfind =>
      cases h
      exact ⟨option, hfind, rfl⟩
  · cases h

/-- The status of a decision changes. -/
theorem getElem?_setStatus {l : List Decision} {status : Status} {j : Nat} {d' : Decision}
    (h : (l.modify i fun d => { d with status })[j]? = some d') :
    ∃ d, l[j]? = some d ∧ d' = if i = j then { d with status } else d := by
  rw [List.getElem?_modify] at h
  obtain ⟨d, hd, rfl⟩ := Option.map_eq_some_iff.mp h
  refine ⟨d, hd, ?_⟩
  by_cases hij : i = j <;> simp [hij]

/-- A decision lands or fails. It was sent afterwards if it was sent before. -/
theorem Books.setStatus (h : Books w) {status : Status} (hi : w.ui.decisions[i]? = some d)
    (hdecs : w'.ui.decisions = w.ui.decisions.modify i fun d => { d with status })
    (hsent : Decision.Sent { d with status } ↔ d.Sent) (hland : d.status ≠ .landed)
    (hlog : w'.ui.decisionLog = w.ui.decisionLog) (hup : w'.up = w.up) (hl : w'.link = w.link)
    (hp : w'.pending = w.pending) (hn : w'.next = w.next) (hr : w'.resolutions = w.resolutions)
    (ht : w'.told.Sublist w.told) : Books w' := by
  -- What was true of a decision is still true of it, but for its status.
  have hold : ∀ (j : Nat) (d' : Decision), w'.ui.decisions[j]? = some d' → ∃ d₀,
      w.ui.decisions[j]? = some d₀ ∧ d'.card = d₀.card ∧ d'.optionId = d₀.optionId ∧
        d'.source = d₀.source ∧ (d'.Sent ↔ d₀.Sent) := by
    intro j d' hd
    rw [hdecs] at hd
    obtain ⟨d₀, hd₀, rfl⟩ := getElem?_setStatus hd
    by_cases hij : i = j
    · subst hij
      obtain rfl : d = d₀ := by simpa [hi] using hd₀
      simp only [if_true]
      exact ⟨d, hd₀, rfl, rfl, rfl, hsent⟩
    · simp only [hij, if_false]
      exact ⟨d₀, hd₀, rfl, rfl, rfl, Iff.rfl⟩
  have hother : ∀ (j : Nat) (d' : Decision), w.ui.decisions[j]? = some d' → i ≠ j →
      w'.ui.decisions[j]? = some d' := by
    intro j d' hd hij
    rw [hdecs, List.getElem?_modify, hd]
    simp [hij]
  have hself : w'.ui.decisions[i]? = some { d with status } := by
    rw [hdecs, List.getElem?_modify, hi]
    simp
  refine ⟨h.accounts.shrink (by rw [hp]) hn hr ht, ?_, ?_⟩
  · refine ⟨hup ▸ h.sent.upNodup, ?_, ?_, ?_, ?_, ?_, ?_⟩
    · rw [hl, hup]
      exact h.sent.down
    · rw [hup]
      intro j hj
      obtain ⟨d', hd, hs⟩ := h.sent.upSent j hj
      by_cases hij : i = j
      · subst hij
        obtain rfl : d = d' := by simpa [hi] using hd
        exact ⟨_, hself, hsent.mpr hs⟩
      · exact ⟨d', hother j d' hd hij, hs⟩
    · rw [hup, hp]
      intro j hj d' hd
      obtain ⟨d₀, hd₀, hcard, -⟩ := hold j d' hd
      rw [hcard]
      exact h.sent.underWay j hj d₀ hd₀
    · rw [hup]
      intro j d' hd hs hj
      obtain ⟨d₀, hd₀, hcard, -, -, hiff⟩ := hold j d' hd
      obtain ⟨r, hmem, hsame, hdec⟩ := h.sent.applied j d₀ hd₀ (hiff.mp hs) hj
      exact ⟨r, hr ▸ hmem, hcard ▸ hsame, hdec⟩
    · intro j k d₁ d₂ hd₁ hd₂ hs₁ hs₂ hsame
      obtain ⟨e₁, he₁, hcard₁, -, -, hiff₁⟩ := hold j d₁ hd₁
      obtain ⟨e₂, he₂, hcard₂, -, -, hiff₂⟩ := hold k d₂ hd₂
      rw [hcard₁, hcard₂] at hsame
      exact h.sent.single j k e₁ e₂ he₁ he₂ (hiff₁.mp hs₁) (hiff₂.mp hs₂) hsame
    · intro d' hd
      obtain ⟨j, hj⟩ := List.mem_iff_getElem?.mp hd
      obtain ⟨d₀, hd₀, hcard, hopt, hsource, -⟩ := hold j d' hj
      have := h.sent.chosen d₀ (List.mem_of_getElem? hd₀)
      unfold Decision.Chosen at this ⊢
      rwa [hcard, hopt, hsource]
  · refine ⟨?_, ?_, by rw [hlog]; exact h.log.once⟩
    · rw [hlog, hup]
      intro e he hs
      obtain ⟨j, d', hd, hst, hrest⟩ := h.log.ours e he hs
      refine ⟨j, d', hother j d' hd ?_, hst, hrest⟩
      rintro rfl
      obtain rfl : d = d' := by simpa [hi] using hd
      exact hland hst
    · rw [hlog, hr]
      intro e he hs
      obtain ⟨hres, hnot⟩ := h.log.elsewhere e he hs
      exact ⟨hres, fun c hc => hnot c (ht.subset hc)⟩

/-- The frame of a decision is put into the queue of the link. -/
theorem Books.enqueue (h : Books w) (hi : w.ui.decisions[i]? = some d) (hst : d.status = .sending)
    (hl : w.link = some d.card.connection) (hs : Undisputed js w (.enqueue i)) :
    Books { w with ui := w.ui.setStatus i .enqueued, up := w.up ++ [i] } := by
  obtain ⟨hwaits, hfirst⟩ := hs d hi hst hl
  have hnew : i ∉ w.up := by
    intro hmem
    obtain ⟨d', hd', hsent⟩ := h.sent.upSent i hmem
    obtain rfl : d = d' := by simpa [hi] using hd'
    simp [Decision.Sent, hst] at hsent
  have hself : (w.ui.setStatus i .enqueued).decisions[i]? =
      some { d with status := .enqueued } := by
    rw [Ui.setStatus, List.getElem?_modify, hi]
    simp
  have hold : ∀ (j : Nat) (d' : Decision), (w.ui.setStatus i .enqueued).decisions[j]? = some d' →
      (i = j ∧ d' = { d with status := .enqueued }) ∨ (i ≠ j ∧ w.ui.decisions[j]? = some d') := by
    intro j d' hd
    obtain ⟨d₀, hd₀, rfl⟩ := getElem?_setStatus hd
    by_cases hij : i = j
    · subst hij
      obtain rfl : d = d₀ := by simpa [hi] using hd₀
      exact .inl ⟨rfl, by simp⟩
    · exact .inr ⟨hij, by simpa [hij] using hd₀⟩
  have hother : ∀ (j : Nat) (d' : Decision), w.ui.decisions[j]? = some d' → i ≠ j →
      (w.ui.setStatus i .enqueued).decisions[j]? = some d' := by
    intro j d' hd hij
    rw [Ui.setStatus, List.getElem?_modify, hd]
    simp [hij]
  refine ⟨h.accounts.shrink (.refl _) rfl rfl (.refl _), ?_, ?_⟩
  · refine ⟨?_, ?_, ?_, ?_, ?_, ?_, ?_⟩
    · rw [List.nodup_append]
      refine ⟨h.sent.upNodup, List.nodup_singleton _, ?_⟩
      rintro j hj k hk rfl
      exact hnew (List.mem_singleton.mp hk ▸ hj)
    · intro hnone
      dsimp only at hnone
      rw [hl] at hnone
      cases hnone
    · intro j hj
      obtain hj | hj := List.mem_append.mp hj
      · obtain ⟨d', hd', hsent⟩ := h.sent.upSent j hj
        exact ⟨d', hother j d' hd' fun hij => hnew (hij ▸ hj), hsent⟩
      · rw [List.mem_singleton.mp hj]
        exact ⟨_, hself, .inl rfl⟩
    · intro j hj d' hd
      obtain ⟨-, rfl⟩ | ⟨hij, hd⟩ := hold j d' hd
      · exact hwaits
      · obtain hj | hj := List.mem_append.mp hj
        · exact h.sent.underWay j hj d' hd
        · exact absurd (List.mem_singleton.mp hj).symm hij
    · intro j d' hd hsent hj
      obtain ⟨rfl, -⟩ | ⟨-, hd⟩ := hold j d' hd
      · exact absurd (List.mem_append_right _ List.mem_cons_self) hj
      · exact h.sent.applied j d' hd hsent fun hmem => hj (List.mem_append_left _ hmem)
    · intro j k d₁ d₂ hd₁ hd₂ hs₁ hs₂ hsame
      obtain ⟨rfl, rfl⟩ | ⟨hij, hd₁⟩ := hold j d₁ hd₁ <;> obtain ⟨rfl, rfl⟩ | ⟨hik, hd₂⟩ := hold k d₂ hd₂
      · rfl
      · exact absurd hsame.symm (hfirst d₂ (List.mem_of_getElem? hd₂) hs₂)
      · exact absurd hsame (hfirst d₁ (List.mem_of_getElem? hd₁) hs₁)
      · exact h.sent.single j k d₁ d₂ hd₁ hd₂ hs₁ hs₂ hsame
    · intro d' hd
      obtain ⟨j, hj⟩ := List.mem_iff_getElem?.mp hd
      obtain ⟨-, rfl⟩ | ⟨-, hd⟩ := hold j d' hj
      · exact h.sent.chosen d (List.mem_of_getElem? hi)
      · exact h.sent.chosen d' (List.mem_of_getElem? hd)
  · refine ⟨fun e he hsource => ?_, h.log.elsewhere, h.log.once⟩
    obtain ⟨j, d', hd, hland, hup, hrest⟩ := h.log.ours e he hsource
    have hij : i ≠ j := by
      rintro rfl
      obtain rfl : d = d' := by simpa [hi] using hd
      rw [hst] at hland
      cases hland
    refine ⟨j, d', hother j d' hd hij, hland, ?_, hrest⟩
    intro hmem
    obtain hmem | hmem := List.mem_append.mp hmem
    · exact hup hmem
    · exact hij (List.mem_singleton.mp hmem).symm

/-- One more entry, about a request that has none. -/
theorem Books.write (h : Books w) {e : DecisionLogEntry} (hdecs : w'.ui.decisions = w.ui.decisions)
    (hlog : w'.ui.decisionLog = (e :: w.ui.decisionLog).take 200) (hup : w'.up = w.up)
    (hl : w'.link = w.link) (hp : w'.pending = w.pending) (hn : w'.next = w.next)
    (hr : w'.resolutions = w.resolutions) (ht : w'.told.Sublist w.told)
    (hours : e.source ≠ .resolvedElsewhere → ∃ (i : Nat) (d : Decision),
      w.ui.decisions[i]? = some d ∧ d.status = .landed ∧ i ∉ w.up ∧ d.card = e.card ∧
        d.source = e.source ∧ d.input = e.input)
    (helse : e.source = .resolvedElsewhere →
      (∃ r ∈ w.resolutions, r.card.Same e.card ∧ r.decision = none) ∧ ∀ c ∈ w'.told,
        ¬ c.Same e.card)
    (hfresh : ∀ e' ∈ w.ui.decisionLog, ¬ e.card.Same e'.card) : Books w' := by
  obtain ⟨w₁, hw₁⟩ : ∃ w₁ : World, w₁ = { w' with
      ui := { w'.ui with decisionLog := w.ui.decisionLog } } := ⟨_, rfl⟩
  have hbooks : Books w₁ := by
    refine h.ofFrames ?_ ?_ ?_ ?_ ?_ ?_ ?_ ?_ <;> rw [hw₁]
    · exact hdecs
    · exact hup
    · exact hl
    · exact hp
    · exact hn
    · exact hr
    · exact ht
  have hmem : ∀ e' ∈ w'.ui.decisionLog, e' = e ∨ e' ∈ w.ui.decisionLog := by
    intro e' he'
    rw [hlog] at he'
    exact List.mem_cons.mp (List.mem_of_mem_take he')
  refine ⟨?_, ?_, ?_⟩
  · have := hbooks.accounts
    rw [hw₁] at this
    exact ⟨this.keys, this.older, this.past, this.waits, this.once, this.toldOnce, this.toldPast⟩
  · have := hbooks.sent
    rw [hw₁] at this
    exact ⟨this.upNodup, this.down, this.upSent, this.underWay, this.applied, this.single, this.chosen⟩
  · refine ⟨fun e' he' hs => ?_, fun e' he' hs => ?_, ?_⟩
    · rw [hdecs, hup]
      obtain rfl | he' := hmem e' he'
      · exact hours hs
      · exact h.log.ours e' he' hs
    · rw [hr]
      obtain rfl | he' := hmem e' he'
      · exact helse hs
      · obtain ⟨hres, hnot⟩ := h.log.elsewhere e' he' hs
        exact ⟨hres, fun c hc => hnot c (ht.subset hc)⟩
    · rw [hlog]
      exact (List.pairwise_cons.mpr ⟨hfresh, h.log.once⟩).sublist (List.take_sublist _ _)

/-- A request that this phone has sent a decision on, and that has not landed, has no entry. -/
theorem Books.fresh (h : Books w) (hi : w.ui.decisions[i]? = some d) (hst : d.status = .enqueued) :
    ∀ e ∈ w.ui.decisionLog, ¬ d.card.Same e.card := by
  intro e he hsame
  have hsent : d.Sent := .inl hst
  by_cases hs : e.source = .resolvedElsewhere
  · obtain ⟨⟨r, hr, hre, hnone⟩, -⟩ := h.log.elsewhere e he hs
    have hrd : r.card.Same d.card := hre.trans hsame.symm
    by_cases hup : i ∈ w.up
    · obtain ⟨c, hc, hcd⟩ := h.sent.underWay i hup d hi
      exact h.accounts.waits c hc r hr (hrd.trans hcd.symm)
    · obtain ⟨r', hr', hrd', hdec⟩ := h.sent.applied i d hi hsent hup
      -- The request was resolved once, by this decision.
      have heq : r = r' := by
        by_contra hne
        have : Std.Symm fun r r' : Resolution => ¬ r.card.Same r'.card :=
          ⟨fun _ _ hn hs => hn hs.symm⟩
        exact h.accounts.once.forall hr hr' hne (hrd.trans hrd'.symm)
      rw [← heq, hnone] at hdec
      cases hdec
  · obtain ⟨j, d', hd', hland, -, hcard, -⟩ := h.log.ours e he hs
    obtain rfl : i = j := h.sent.single i j d d' hi hd' hsent (.inr hland) (hcard ▸ hsame)
    obtain rfl : d = d' := by simpa [hi] using hd'
    rw [hst] at hland
    cases hland

/-- The callback of a decision logs it. -/
theorem Books.land (h : Books w) (hi : w.ui.decisions[i]? = some d) (hst : d.status = .enqueued)
    (hup : i ∉ w.up) (hinput : w.ui.input js d.card = d.input) {e : DecisionLogEntry}
    (hcard : e.card = d.card)
    (hsource : e.source = d.source) (he : e.input = w.ui.input js d.card) {ui : Ui}
    (hdecs : ui.decisions = (w.ui.setStatus i .landed).decisions)
    (hlog : ui.decisionLog = (e :: w.ui.decisionLog).take 200) : Books { w with ui } := by
  have hfresh := h.fresh hi hst
  have hbooks : Books { w with ui := w.ui.setStatus i .landed } := by
    refine h.setStatus hi rfl ?_ ?_ rfl rfl rfl rfl rfl rfl (.refl _)
    · simp [Decision.Sent, hst]
    · rw [hst]
      simp
  have hself : (w.ui.setStatus i .landed).decisions[i]? = some { d with status := .landed } := by
    rw [Ui.setStatus, List.getElem?_modify, hi]
    simp
  refine hbooks.write hdecs hlog rfl rfl rfl rfl rfl (.refl _) (fun _ => ?_) (fun hs => ?_) ?_
  · exact ⟨i, _, hself, rfl, hup, hcard.symm, hsource.symm, (he.trans hinput).symm⟩
  · have hchosen := h.sent.chosen d (List.mem_of_getElem? hi)
    rw [Decision.Chosen, ← hsource, hs] at hchosen
    cases hchosen
  · rw [hcard]
    exact hfresh

/-- A decision is logged when the host has it. -/
theorem Books.landed (h : Books w) (hs : Undisputed js w (.landed i)) :
    Books { w with ui := w.ui.landed js i } := by
  unfold Ui.landed
  split
  · exact h
  next d hi =>
  split
  · exact h
  next hst =>
  have hst : d.status = .enqueued := by simpa using hst
  obtain ⟨hup, hinput⟩ := hs d hi hst
  dsimp only
  split
  · next hsource => exact h.land hi hst hup hinput rfl hsource.symm rfl rfl rfl
  · next hsource =>
    split
    · exact h.land hi hst hup hinput rfl hsource.symm rfl rfl rfl
    · exact h.land hi hst hup hinput rfl hsource.symm rfl rfl rfl
  · exact h.land hi hst hup hinput rfl rfl rfl rfl rfl

/-- A decision that was not taken is not logged. -/
theorem Books.rejected (h : Books w) : Books { w with ui := w.ui.rejected i } := by
  unfold Ui.rejected
  split
  · exact h
  next d hi =>
  split
  · exact h
  next hst =>
  have hst : d.status = .sending := by simpa using hst
  have hfailed : ∀ ui : Ui, ui.decisions = (w.ui.setStatus i .failed).decisions →
      ui.decisionLog = w.ui.decisionLog → Books { w with ui } := by
    intro ui hdecs hlog
    refine h.setStatus hi hdecs ?_ ?_ hlog rfl rfl rfl rfl rfl (.refl _)
    · simp [Decision.Sent, hst]
    · rw [hst]
      simp
  dsimp only
  split <;> split <;> exact hfailed _ rfl rfl

/-! ## Frames that arrive -/

/-- A card that is decided at once is not logged yet. -/
theorem Books.onPermission (h : Books w) {wire : List Frame} (hw : w.wire = .permission x :: wire)
    (connection : Nat) :
    Books { w with
      wire, ui := w.ui.onPermission js { x with connection }, delivered := x :: w.delivered } := by
  have ht : ∀ (ui : Ui) (delivered : List Card),
      World.told { w with wire, ui, delivered } = w.told := by
    intro ui delivered
    rw [World.told, World.told, World.frames, World.frames, hw, List.cons_append]
    rfl
  unfold Ui.onPermission
  split
  · exact h.ofFrames rfl rfl rfl rfl rfl rfl rfl (by rw [ht])
  · exact h.ofFrames rfl rfl rfl rfl rfl rfl rfl (by rw [ht])
  · next optionId hv =>
    obtain ⟨option, hfind, rfl⟩ := maybeAutoApprove_allow hv
    exact h.decide rfl rfl (chosen_allowOnce (.inl rfl) rfl rfl rfl hfind) rfl rfl rfl rfl rfl rfl
      (by rw [ht])

/-- The host says that a request is resolved. -/
theorem Books.onPermissionResolved (h : Books w) {wire : List Frame}
    {resolution : PermissionResolution} {resolver : PermissionResolver}
    (hw : w.wire = .resolved card resolution resolver :: wire) (hs : Undisputed js w .deliver) :
    Books { w with wire, ui := w.ui.onPermissionResolved js card.key resolution resolver } := by
  have htold : ∀ ui : Ui, w.told = card :: World.told { w with wire, ui } := by
    intro ui
    simp [World.told, World.frames, hw, Frame.resolvedCard]
  have ht : ∀ ui : Ui, (World.told { w with wire, ui }).Sublist w.told := by
    intro ui
    rw [htold ui]
    exact List.sublist_cons_self _ _
  simp only [Ui.onPermissionResolved]
  split
  · exact h.ofFrames rfl rfl rfl rfl rfl rfl rfl (ht _)
  next y hy =>
  split
  · exact h.ofFrames rfl rfl rfl rfl rfl rfl rfl (ht _)
  next hours =>
  -- The card is still shown, and no decision is noted: someone else has answered.
  have hykey : y.key = card.key := by simpa using List.find?_some hy
  obtain ⟨hsame, hnone⟩ := hs card (by simp [hw, Frame.resolvedCard]) (by simpa using hours) y
    (List.mem_of_find?_eq_some hy) hykey
  have hmem : card ∈ w.told := by
    rw [htold w.ui]
    exact List.mem_cons_self
  obtain ⟨r, hr, hrc⟩ := h.accounts.toldPast card hmem
  refine h.write (e := _) rfl rfl rfl rfl rfl rfl rfl (ht _) (fun hne => absurd rfl hne) (fun _ => ?_)
    fun e he hye => ?_
  · refine ⟨⟨r, hr, hrc.trans hsame.symm, hnone r hr hrc⟩, fun c hc hcy => ?_⟩
    have honce := h.accounts.toldOnce
    rw [htold, List.pairwise_cons] at honce
    exact honce.1 c hc (hsame.symm.trans hcy.symm)
  · have hce : card.Same e.card := hsame.symm.trans hye
    by_cases hsource : e.source = .resolvedElsewhere
    · exact (h.log.elsewhere e he hsource).2 card hmem hce
    · obtain ⟨j, d, hd, hland, hup, hcard, -⟩ := h.log.ours e he hsource
      rw [← hcard] at hce
      obtain ⟨r', hr', hrd, hdec⟩ := h.sent.applied j d hd (.inr hland) hup
      rw [hnone r' hr' (hrd.trans hce.symm)] at hdec
      cases hdec

/-! ## Decisions that arrive at the host -/

theorem Accounts.unique (h : Accounts w) (hx : x ∈ w.pending) (hy : y ∈ w.pending)
    (hk : x.key = y.key) : x = y := List.inj_on_of_nodup_map h.keys hx hy hk

/-- The host takes a decision and resolves the request that it is about. -/
theorem Books.take (h : Books w) {up : List Nat} (hup : w.up = i :: up)
    (hi : w.ui.decisions[i]? = some d) (hc : card ∈ w.pending) (hsame : card.Same d.card)
    (resolution : PermissionResolution) (lost : Bool) :
    Books ({ w with up }.settle card (some i) resolution .phone lost) := by
  obtain ⟨hui, hp, -, hr, hup', hl, ht⟩ :=
    settle_frame { w with up } card (some i) resolution .phone lost
  have hnodup : i ∉ up ∧ up.Nodup := by
    rw [← List.nodup_cons, ← hup]
    exact h.sent.upNodup
  have hin : ∀ j ∈ up, j ∈ w.up := by
    rw [hup]
    exact fun j => List.mem_cons_of_mem _
  have hsent : d.Sent := by
    obtain ⟨d', hd', hs⟩ := h.sent.upSent i (by rw [hup]; exact List.mem_cons_self)
    obtain rfl : d = d' := by simpa [hi] using hd'
    exact hs
  have haccounts : Accounts { w with up } := h.accounts.shrink (.refl _) rfl rfl (.refl _)
  refine ⟨haccounts.settle hc _ _ _ lost, ?_, ?_⟩
  · refine ⟨by rw [hup']; exact hnodup.2, ?_, ?_, ?_, ?_, ?_, ?_⟩
    · rw [hl, hup']
      intro hnone
      have hnil := h.sent.down hnone
      rw [hup] at hnil
      cases hnil
    · rw [hup', hui]
      exact fun j hj => h.sent.upSent j (hin j hj)
    · rw [hup', hui, hp]
      intro j hj d' hd
      obtain ⟨c, hmem, hcd⟩ := h.sent.underWay j (hin j hj) d' hd
      refine ⟨c, List.mem_filter.mpr ⟨hmem, ?_⟩, hcd⟩
      -- There is one decision for each request.
      have hne : c.key ≠ card.key := by
        intro hk
        obtain rfl : c = card := h.accounts.unique hmem hc hk
        obtain ⟨d'', hd'', hs⟩ := h.sent.upSent j (hin j hj)
        obtain rfl : d' = d'' := by simpa [hd] using hd''
        obtain rfl : i = j := h.sent.single i j d d' hi hd hsent hs (hsame.symm.trans hcd)
        exact hnodup.1 hj
      simpa using hne
    · rw [hup', hui]
      intro j d' hd hs hj
      by_cases hij : i = j
      · subst hij
        obtain rfl : d = d' := by simpa [hi] using hd
        refine ⟨{ card, decision := some i }, ?_, hsame, rfl⟩
        rw [hr]
        exact List.mem_append_right _ List.mem_cons_self
      · have hout : j ∉ w.up := by
          rw [hup, List.mem_cons, not_or]
          exact ⟨fun heq => hij heq.symm, hj⟩
        refine (h.sent.applied j d' hd hs hout).mono fun r hmem => ?_
        rw [hr]
        exact List.mem_append_left _ hmem
    · rw [hui]
      exact h.sent.single
    · rw [hui]
      exact h.sent.chosen
  · refine ⟨?_, ?_, by rw [hui]; exact h.log.once⟩
    · rw [hui, hup']
      intro e he hs
      obtain ⟨j, d', hd, hland, hout, hrest⟩ := h.log.ours e he hs
      exact ⟨j, d', hd, hland, fun hj => hout (hin j hj), hrest⟩
    · rw [hui, hr]
      intro e he hs
      obtain ⟨⟨r, hmem, hre, hnone⟩, hnot⟩ := h.log.elsewhere e he hs
      refine ⟨⟨r, List.mem_append_left _ hmem, hre, hnone⟩, fun c hc' hce => ?_⟩
      have hnew : ¬ card.Same e.card :=
        fun hce => h.accounts.waits card hc r hmem (hre.trans hce.symm)
      obtain ht | ht := ht
      · rw [ht] at hc'
        exact hnot c hc' hce
      · rw [ht] at hc'
        obtain hc' | hc' := List.mem_append.mp hc'
        · exact hnot c hc' hce
        · exact hnew (List.mem_singleton.mp hc' ▸ hce)

theorem Books.receive (h : Books w) {up : List Nat} (hup : w.up = i :: up)
    (hi : w.ui.decisions[i]? = some d) (lost : Bool) :
    Books ({ w with up }.resolve d.card.key d.optionId .phone (some i) lost) := by
  obtain ⟨c, hc, hsame⟩ := h.sent.underWay i (by rw [hup]; exact List.mem_cons_self) d hi
  have hfind : w.pending.find? (·.key = d.card.key) = some c := by
    cases hf : w.pending.find? (·.key = d.card.key) with
    | none =>
      have := List.find?_eq_none.mp hf c hc
      simp [hsame.2] at this
    | some c' =>
      have hk : c'.key = d.card.key := by simpa using List.find?_some hf
      rw [h.accounts.unique (List.mem_of_find?_eq_some hf) hc (hk.trans hsame.2.symm)]
  simp only [World.resolve, hfind]
  exact h.take hup hi hc hsame _ lost

/-! ## Whole runs -/

/-- Another viewer answers, or the turn is cancelled. -/
theorem Books.resolveOther (h : Books w) {key : Key} (hs : NoneUnderWay w (·.key = key))
    (hf : w.pending.find? (·.key = key) = some card) (resolution : PermissionResolution)
    (resolver : PermissionResolver) (lost : Bool) :
    Books (w.settle card none resolution resolver lost) := by
  have hk : card.key = key := by simpa using List.find?_some hf
  refine h.settle (List.mem_of_find?_eq_some hf) resolution resolver lost fun i hi d hd => ?_
  rw [hk]
  simpa using hs i hi d hd

theorem Books.raise (h : Books w) (request : AgentPermission) (lost : Bool)
    (hs : NoneUnderWay w (·.key = (request.id, request.toolCallId))) :
    Books (w.raise request lost) := by
  refine Books.emit ?_ rfl lost
  refine h.ofHost rfl rfl rfl h.sent.down (h.accounts.register rfl) (fun _ hr => hr)
    (fun i hi d hd c hc hsame => ?_) fun _ hc => .inl hc
  refine List.mem_append_left _ (List.mem_filter.mpr ⟨hc, ?_⟩)
  have hne : d.card.key ≠ (request.id, request.toolCallId) := by simpa using hs i hi d hd
  rw [← hsame.2] at hne
  exact decide_eq_true hne

theorem told_append_replay (w : World) (id : Nat) (batch : List AgentTimelineEvent)
    (fs gs : List Frame) :
    (fs ++ w.replay id batch ++ gs).filterMap Frame.resolvedCard =
      (fs ++ gs).filterMap Frame.resolvedCard := by
  have hnone : (w.replay id batch).filterMap Frame.resolvedCard = [] := by
    rw [List.filterMap_eq_nil_iff]
    intro frame hf
    obtain rfl | hf := List.mem_cons.mp hf
    · rfl
    · obtain ⟨c, -, rfl⟩ := List.mem_map.mp hf
      rfl
  rw [List.filterMap_append, List.filterMap_append, hnone, List.append_nil, List.filterMap_append]

/-- The timelines, the policy and the list of cards are not what the log rests on. -/
theorem Books.ofUi (h : Books w) {ui : Ui} (hdecs : ui.decisions = w.ui.decisions)
    (hlog : ui.decisionLog = w.ui.decisionLog) : Books { w with ui } :=
  h.ofFrames hdecs hlog rfl rfl rfl rfl rfl (.refl _)

theorem Books.deliver (h : Books w) {connection : Nat} {wire : List Frame}
    (hw : w.wire = frame :: wire) (hs : Undisputed js w .deliver) :
    Books ({ w with wire }.onFrame js connection frame) := by
  have hquiet : frame.resolvedCard = none → ∀ ui : Ui, ui.decisions = w.ui.decisions →
      ui.decisionLog = w.ui.decisionLog → Books { w with wire, ui } := by
    intro hnone ui hdecs hlog
    refine h.ofFrames hdecs hlog rfl rfl rfl rfl rfl ?_
    simp only [World.told, World.frames, hw, List.cons_append, List.filterMap_cons, hnone]
    exact .refl _
  cases frame with
  | permission x => exact h.onPermission hw connection
  | resolved c resolution resolver => exact h.onPermissionResolved hw hs
  | snapshot id batch => exact hquiet rfl _ rfl rfl
  | removed id => exact hquiet rfl _ rfl rfl

/-- A decision of the user. -/
theorem Books.decidePermission (h : Books w) {optionId : Option String}
    (hs : Undisputed js w (.decide card optionId)) :
    Books { w with ui := w.ui.decidePermission js card optionId } := by
  refine h.decide rfl rfl ?_ rfl rfl rfl rfl rfl rfl (.refl _)
  unfold Decision.Chosen
  cases optionId with
  | none => rfl
  | some id =>
    obtain ⟨option, hmem, hid, hallows⟩ := hs id rfl
    exact ⟨option, hmem, congrArg some hid.symm, hallows⟩

theorem Books.learn (h : Books w) : Books { w with ui := w.ui.learnExactPermission js card } := by
  unfold Ui.learnExactPermission
  split
  · next option _ hfind =>
    exact h.decide rfl rfl (chosen_allowOnce (.inr rfl) rfl rfl rfl hfind) rfl rfl rfl rfl rfl rfl
      (.refl _)
  · exact h

/-- The link is lost with nothing on its way to the host, or a new one is opened. -/
theorem Books.relink (h : Books w) (hup : w.up = []) (hdecs : w'.ui.decisions = w.ui.decisions)
    (hlog : w'.ui.decisionLog = w.ui.decisionLog) (hup' : w'.up = []) (hp : w'.pending = w.pending)
    (hn : w'.next = w.next) (hr : w'.resolutions = w.resolutions) (ht : w'.told = []) :
    Books w' := by
  refine h.ofHost hdecs hlog (hup'.trans hup.symm) (fun _ => hup') ?_ (by simp [hr]) ?_ ?_
  · refine h.accounts.shrink (by rw [hp]) hn hr ?_
    rw [ht]
    exact List.nil_sublist _
  · exact fun _ _ _ _ c hc _ => hp ▸ hc
  · rw [ht]
    exact fun _ hc => absurd hc List.not_mem_nil

/-- One step, if no answer is disputed. -/
theorem Books.step (h : Books w) {ev : Event} (hs : Undisputed js w ev) : Books (w.step js ev) := by
  cases ev with
  | raise request lost => exact h.raise request lost hs
  | answer key optionId resolver lost =>
    simp only [World.step, World.resolve]
    split
    · exact h
    · next hf => exact h.resolveOther hs hf _ resolver lost
  | cancel key lost =>
    simp only [World.step, World.cancel]
    split
    · exact h
    · next hf => exact h.resolveOther hs hf _ _ lost
  | expire key =>
    refine h.drop List.filter_sublist fun i hi d hd c hc hsame => ?_
    have hne : d.card.key ≠ key := by simpa using hs i hi d hd
    simpa [hc, hsame.2] using hne
  | removeSession id lost =>
    refine (h.drop List.filter_sublist fun i hi d hd c hc hsame => ?_).emit rfl lost
    have hne : d.card.request.id ≠ id := by simpa using hs i hi d hd
    have hid : c.request.id = d.card.request.id := congrArg Prod.fst hsame.2
    simpa [hc, hid] using hne
  | attach id batch =>
    simp only [World.step]
    split
    · exact h
    · refine h.ofFrames rfl rfl rfl rfl rfl rfl rfl ?_
      rw [World.told, World.frames, told_append_replay]
      exact .refl _
  | resync id batch =>
    simp only [World.step]
    split
    · exact h
    · refine h.ofFrames rfl rfl rfl rfl rfl rfl rfl ?_
      have := told_append_replay w id batch w.frames []
      rw [List.append_nil, List.append_nil] at this
      rw [World.told, frames_append_queue, this]
      exact .refl _
  | write =>
    simp only [World.step]
    split
    · exact h
    · next frame queue hq =>
      refine h.ofFrames rfl rfl rfl rfl rfl rfl rfl ?_
      simp only [World.told, World.frames, hq, List.append_assoc, List.singleton_append]
      exact .refl _
  | deliver =>
    simp only [World.step]
    split
    · next connection frame wire hl hw => exact h.deliver hw hs
    · exact h
  | receive lost =>
    simp only [World.step]
    split
    · exact h
    next i up hup =>
    split
    · next hi =>
      obtain ⟨d, hd, -⟩ := h.sent.upSent i (by rw [hup]; exact List.mem_cons_self)
      rw [hi] at hd
      cases hd
    · next d hi => exact h.receive hup hi lost
  | decide card optionId =>
    simp only [World.step]
    split
    · exact h.decidePermission hs
    · exact h
  | learn card =>
    simp only [World.step]
    split
    · exact h.learn
    · exact h
  | enqueue i =>
    simp only [World.step]
    split
    · exact h
    next d hi =>
    split
    · next hst => exact h.enqueue hi hst.1 hst.2 hs
    · exact h
  | landed i => exact h.landed hs
  | rejected i => exact h.rejected
  | environment policyHost policy agentEvents => exact h.ofUi rfl rfl
  | linkLost => exact h.relink hs rfl rfl rfl rfl rfl rfl rfl
  | connect =>
    simp only [World.step]
    split
    · next hl =>
      refine h.relink (h.sent.down hl) rfl rfl rfl rfl rfl rfl ?_
      rw [World.told, World.frames, List.append_nil, List.filterMap_eq_nil_iff]
      intro frame hf
      obtain ⟨c, -, rfl⟩ := List.mem_map.mp hf
      rfl
    · exact h

theorem books_start (stored : Option HostId → Option ApprovalPolicy) : Books (start stored) := by
  refine ⟨⟨?_, ?_, ?_, ?_, ?_, ?_, ?_⟩, ⟨?_, ?_, ?_, ?_, ?_, ?_, ?_⟩, ⟨?_, ?_, ?_⟩⟩ <;>
    simp [start, World.told, World.frames]

/-- As long as nobody disputes a decision, the log is truthful. -/
theorem log_truthful (js : Js) (stored : Option HostId → Option ApprovalPolicy) (evs : List Event)
    (ha : Run.Along (World.step js) (Undisputed js) (start stored) evs) :
    LogTruthful (Run.run (World.step js) (start stored) evs) := by
  have hbooks : Books (Run.run (World.step js) (start stored) evs) :=
    ha.induction (books_start stored) fun _ _ h hs => h.step hs
  exact hbooks.truthful

/-- The user allows, the host applies it, and the decision is logged. -/
theorem log_truthful_allowed :
    Run.Along (World.step fileNameJs) (Undisputed fileNameJs) (start fun _ => none)
      (allowedRun ++ [.landed 0, .deliver]) ∧
    LogTruthful (Run.run (World.step fileNameJs) (start fun _ => none)
      (allowedRun ++ [.landed 0, .deliver])) := by
  have ha : Run.Along (World.step fileNameJs) (Undisputed fileNameJs) (start fun _ => none)
      (allowedRun ++ [.landed 0, .deliver]) := by
    decide +kernel
  exact ⟨ha, log_truthful fileNameJs _ _ ha⟩

/-- The user taps the option that rejects, and the log says that the request was allowed. -/
def rejectedRun : List Event :=
  [.connect, .environment (some "laptop") defaultPolicy fun _ => [], .raise runRequest false, .write,
    .deliver, .decide { no := 0, request := runRequest } (some "no"), .enqueue 0, .receive false,
    .landed 0]

theorem log_not_truthful :
    ¬ LogTruthful (Run.run (World.step fileNameJs) (start fun _ => none) rejectedRun) := by
  have hlog : (Run.run (World.step fileNameJs) (start fun _ => none) rejectedRun).ui.decisionLog.map
      DecisionLogEntry.source = [.manualAllow] := by
    decide +kernel
  have hdecs : ∀ d ∈ (Run.run (World.step fileNameJs) (start fun _ => none) rejectedRun).ui.decisions,
      d.source = .manualAllow ∧ d.card.request = runRequest ∧ d.optionId = some "no" := by
    decide +kernel
  rintro ⟨hall, -⟩
  obtain ⟨e, he, hsource⟩ :=
    List.mem_map.mp (hlog ▸ List.mem_cons_self : DecisionSource.manualAllow ∈ _)
  have htrue := hall e he
  rw [Truthful, if_neg (by rw [hsource]; decide)] at htrue
  obtain ⟨i, d, hi, -, -, hchosen, -⟩ := htrue
  obtain ⟨hds, hreq, hid⟩ := hdecs d (List.mem_of_getElem? hi)
  rw [Decision.Chosen, hds] at hchosen
  obtain ⟨option, hmem, hopt, hallows⟩ := hchosen
  rw [hreq] at hmem
  rw [hid] at hopt
  -- The only option of this id rejects.
  have hnone : ∀ o ∈ runRequest.options, some "no" = some o.optionId → allows o.kind = false := by
    decide
  rw [hnone option hmem hopt] at hallows
  cases hallows

end Cards

end Portty
