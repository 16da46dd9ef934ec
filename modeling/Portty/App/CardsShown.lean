import Portty.App.Cards

/-!
# No card is swallowed (`App.tsx`)

`cards_not_swallowed`: a request that waits at the host and was delivered is in the list, or has a
decision of this phone, or is about to be delivered again, as long as keys stand for one request
each (`KeysFit`).

`Fate card P fs` says whether the request is in the list after the frames `fs`. The invariant is
about the list after all frames that are on the way.
-/

namespace Portty

namespace Cards

open Policy Timeline AutoApprove Permission

/-! ## The condition and the result -/

/-- The request is in the list. -/
def Shown (ui : Ui) (card : Card) : Prop := ∃ x ∈ ui.permissions, x.Same card

/-- The decision is on its way, or was sent on this link. -/
def Decision.Holds (link : Option Nat) (d : Decision) : Prop :=
  d.status = .sending ∨
    ((d.status = .enqueued ∨ d.status = .landed) ∧ link = some d.card.connection)

/-- This phone has a decision for the request, which has not failed. -/
def Decided (w : World) (card : Card) : Prop :=
  ∃ d ∈ w.ui.decisions, d.card.Same card ∧ d.Holds w.link

/-- The frames that the phone has not read yet. -/
def World.frames (w : World) : List Frame := w.wire ++ w.queue

instance (ui : Ui) (card : Card) : Decidable (Shown ui card) :=
  inferInstanceAs (Decidable (∃ x ∈ _, _))

instance (link : Option Nat) (d : Decision) : Decidable (d.Holds link) :=
  inferInstanceAs (Decidable (_ ∨ (_ ∨ _) ∧ _))

instance (w : World) (card : Card) : Decidable (Decided w card) :=
  inferInstanceAs (Decidable (∃ d ∈ _, _ ∧ _))

/-- The request that the frame delivers. -/
def Frame.card : Frame → Option Card
  | .permission card => some card
  | _ => none

/-- The host has sent the request again, after a snapshot that took it from the list. -/
def OnTheWay (w : World) (card : Card) : Prop := ∃ x ∈ w.frames.filterMap Frame.card, x.Same card

instance (w : World) (card : Card) : Decidable (OnTheWay w card) :=
  inferInstanceAs (Decidable (∃ x ∈ _, _))

/-- The request was delivered on this link. -/
def Delivered (w : World) (card : Card) : Prop := ∃ x ∈ w.delivered, x.Same card

instance (w : World) (card : Card) : Decidable (Delivered w card) :=
  inferInstanceAs (Decidable (∃ x ∈ _, _))

/-- A request that waits and was delivered is in the list, or decided, or on the way again. -/
def NotSwallowed (w : World) : Prop :=
  ∀ card ∈ w.pending, Delivered w card → Shown w.ui card ∨ Decided w card ∨ OnTheWay w card

instance (w : World) : Decidable (NotSwallowed w) :=
  inferInstanceAs (Decidable (∀ card ∈ _, _ → _ ∨ _ ∨ _))

/-- The card that the next frame on the wire delivers. -/
def World.arriving (w : World) : Option Card := w.wire.head?.bind Frame.card

/-- Keys stand for one request each.

* A card is delivered under a key of `autoDecided` only if it has a decision itself.
* A decision that fails finds no card of another request under its key.
* No frame of a session is in the queue when the phone opens it. -/
def KeysFit (w : World) : Event → Prop
  | .deliver => ∀ card ∈ w.arriving, w.ui.phone.policyHost ≠ none →
    card.key ∈ w.ui.phone.autoDecided → Decided w card
  | .rejected i => ∀ d ∈ w.ui.decisions[i]?, ∀ x ∈ w.ui.permissions,
    x.key = d.card.key → x.Same d.card
  | .attach id _ => ∀ frame ∈ w.queue, frame.session ≠ id
  | _ => True

instance (w : World) : DecidablePred (KeysFit w) := fun ev =>
  match ev with
  | .deliver => inferInstanceAs (Decidable (∀ card ∈ w.arriving, _ → _ → _))
  | .rejected i => inferInstanceAs (Decidable (∀ d ∈ w.ui.decisions[i]?, ∀ x ∈ _, _ → _))
  | .attach _ _ => inferInstanceAs (Decidable (∀ frame ∈ w.queue, _))
  | .raise .. | .answer .. | .cancel .. | .expire _ | .removeSession .. | .resync .. | .write
  | .receive _ | .decide .. | .learn _ | .enqueue _ | .landed _ | .environment .. | .linkLost
  | .connect => .isTrue trivial

/-! ## What the frames do to a card -/

variable {card x : Card} {frame : Frame} {fs gs : List Frame} {P Q : Prop} {w w' : World}
  {ui ui' : Ui}
  {js : Js}

/-- The frame shows the request, or takes it from the list. -/
def Frame.effect (card : Card) : Frame → Option Bool
  | .permission x => if x.key = card.key then some (x.no = card.no) else none
  | .resolved x .. => if x.key = card.key then some false else none
  | .snapshot id _ | .removed id => if id = card.request.id then some false else none

theorem Frame.effect_eq_none (h : frame.session ≠ card.request.id) : frame.effect card = none := by
  cases frame with
  | permission x => exact if_neg fun hk => h (congrArg Prod.fst hk)
  | resolved x resolution resolver => exact if_neg fun hk => h (congrArg Prod.fst hk)
  | snapshot id batch => exact if_neg h
  | removed id => exact if_neg h

/-- Whether the request is in the list after the frames. -/
def Fate (card : Card) (P : Prop) : List Frame → Prop
  | [] => P
  | frame :: fs =>
    match frame.effect card with
    | none => Fate card P fs
    | some shown => Fate card (shown = true) fs

theorem Fate.mono (h : Fate card P fs) (hpq : P → Q) : Fate card Q fs := by
  induction fs generalizing P Q with
  | nil => exact hpq h
  | cons frame fs ih =>
    unfold Fate at h ⊢
    split
    · next he =>
      rw [he] at h
      exact ih h hpq
    · next he =>
      rw [he] at h
      exact h

theorem fate_append : Fate card P (fs ++ gs) ↔ Fate card (Fate card P fs) gs := by
  induction fs generalizing P with
  | nil => exact Iff.rfl
  | cons frame fs ih =>
    rw [List.cons_append, Fate, Fate]
    split
    · exact ih
    · exact ih

theorem fate_of_inert (h : ∀ frame ∈ fs, frame.effect card = none) : Fate card P fs ↔ P := by
  induction fs with
  | nil => exact Iff.rfl
  | cons frame fs ih =>
    rw [Fate, h frame List.mem_cons_self]
    exact ih fun f hf => h f (List.mem_cons_of_mem _ hf)

/-- Cards of different keys are all shown. -/
theorem fate_cards {l : List Card} (hk : (l.map Card.key).Nodup) (hc : card ∈ l) :
    Fate card P (l.map .permission) := by
  induction l generalizing P with
  | nil => cases hc
  | cons x l ih =>
    rw [List.map_cons, List.nodup_cons] at hk
    rw [List.map_cons, Fate]
    by_cases hx : x.key = card.key
    · -- It is this card, and no later one has its key.
      have hcx : card = x := by
        obtain rfl | hc := List.mem_cons.mp hc
        · rfl
        · exact absurd (hx ▸ List.mem_map_of_mem hc) hk.1
      have heffect : (Frame.permission x).effect card = some true := by
        simp [Frame.effect, hcx]
      rw [heffect]
      refine (fate_of_inert fun frame hf => ?_).mpr rfl
      obtain ⟨y, hy, rfl⟩ := List.mem_map.mp hf
      refine if_neg fun hyk => hk.1 ?_
      rw [hx, ← hyk]
      exact List.mem_map_of_mem hy
    · have hc : card ∈ l := by
        obtain rfl | hc := List.mem_cons.mp hc
        · exact absurd rfl hx
        · exact hc
      have heffect : (Frame.permission x).effect card = none := if_neg hx
      rw [heffect]
      exact ih hk.2 hc

/-- Only a card makes itself pending. -/
theorem Frame.effect_eq_true (h : frame.effect card = some true) :
    ∃ y, frame = .permission y ∧ y.Same card := by
  cases frame with
  | permission y =>
    simp only [Frame.effect] at h
    split at h
    · next hk => exact ⟨y, rfl, by simpa using h, hk⟩
    · cases h
  | resolved y resolution resolver =>
    simp only [Frame.effect] at h
    split at h <;> simp at h
  | snapshot id batch =>
    simp only [Frame.effect] at h
    split at h <;> simp at h
  | removed id =>
    simp only [Frame.effect] at h
    split at h <;> simp at h

/-- The request is in the list after the frames if one of them shows it or it is there before. -/
theorem Fate.shown_or_mem (h : Fate card P fs) :
    P ∨ ∃ y ∈ fs.filterMap Frame.card, y.Same card := by
  induction fs generalizing P with
  | nil => exact .inl h
  | cons frame fs ih =>
    have hmore : (∃ y ∈ fs.filterMap Frame.card, y.Same card) →
        ∃ y ∈ (frame :: fs).filterMap Frame.card, y.Same card := by
      rintro ⟨y, hy, hs⟩
      obtain ⟨f, hf, hfy⟩ := List.mem_filterMap.mp hy
      exact ⟨y, List.mem_filterMap.mpr ⟨f, List.mem_cons_of_mem _ hf, hfy⟩, hs⟩
    unfold Fate at h
    split at h
    · exact (ih h).imp_right hmore
    next shown he =>
    obtain hp | hmem := ih h
    · obtain ⟨y, rfl, hs⟩ := Frame.effect_eq_true (hp ▸ he)
      exact .inr ⟨y, List.mem_filterMap.mpr ⟨_, List.mem_cons_self, rfl⟩, hs⟩
    · exact .inr (hmore hmem)

/-! ## The invariant -/

/-- The request was delivered or will be. -/
def Known (w : World) (card : Card) : Prop := Delivered w card ∨ OnTheWay w card

/-- No frame that is on the way takes a request that waits from the list for good, and it will be in
the list or is decided. -/
structure Inv (w : World) : Prop where
  keys : (w.pending.map Card.key).Nodup
  older : ∀ card ∈ w.pending, card.no < w.next
  seen : ∀ card ∈ w.delivered, card.no < w.next
  sent : ∀ card ∈ w.frames.filterMap Frame.card, card.no < w.next
  listed : (w.ui.permissions.map Card.key).Nodup
  safe : ∀ card ∈ w.pending, Known w card →
    Fate card True w.frames ∧ (Fate card (Shown w.ui card) w.frames ∨ Decided w card)

theorem Inv.notSwallowed (h : Inv w) : NotSwallowed w := by
  intro card hc hd
  obtain hfate | hdec := (h.safe card hc (.inl hd)).2
  · obtain hs | hway := hfate.shown_or_mem
    · exact .inl hs
    · exact .inr (.inr hway)
  · exact .inr (.inl hdec)

/-- A step of the phone that takes no request from the list without a decision. -/
theorem Inv.ofUi (h : Inv w) (hp : w'.pending.Sublist w.pending) (hn : w'.next = w.next)
    (hd : w'.delivered = w.delivered) (hf : w'.frames = w.frames)
    (hl : (w'.ui.permissions.map Card.key).Nodup)
    (hs : ∀ card, Shown w.ui card → Shown w'.ui card ∨ Decided w' card)
    (hdec : ∀ card, Decided w card → Shown w'.ui card ∨ Decided w' card) : Inv w' where
  keys := h.keys.sublist (hp.map _)
  older card hc := hn ▸ h.older card (hp.subset hc)
  seen card hc := hn ▸ h.seen card (hd ▸ hc)
  sent card hc := hn ▸ h.sent card (hf ▸ hc)
  listed := hl
  safe card hc hk := by
    have hknown : Known w card := by
      unfold Known Delivered OnTheWay at hk ⊢
      rwa [hd, hf] at hk
    obtain ⟨hclean, hfate⟩ := h.safe card (hp.subset hc) hknown
    rw [hf]
    refine ⟨hclean, ?_⟩
    have hafter : Shown w'.ui card ∨ Decided w' card →
        Fate card (Shown w'.ui card) w.frames ∨ Decided w' card := by
      rintro (hshown | hdecided)
      · exact .inl (hclean.mono fun _ => hshown)
      · exact .inr hdecided
    obtain hfate | hdecided := hfate
    · by_cases hshown : Shown w.ui card
      · exact hafter (hs card hshown)
      · exact .inl (hfate.mono fun hp => absurd hp hshown)
    · exact hafter (hdec card hdecided)

/-- A step of the host: each request that waits is sent now, or the new frames do nothing to it. -/
theorem Inv.ofHost (h : Inv w) (hui : w'.ui = w.ui) (hlink : w'.link = w.link)
    (hd : w'.delivered = w.delivered) (hn : w.next ≤ w'.next)
    (hkeys : (w'.pending.map Card.key).Nodup) (holder : ∀ card ∈ w'.pending, card.no < w'.next)
    (hsent : ∀ card ∈ w'.frames.filterMap Frame.card, card.no < w'.next)
    (hsafe : ∀ card ∈ w'.pending, Known w' card → (∀ P, Fate card P w'.frames) ∨
      (card ∈ w.pending ∧ Known w card ∧ ∀ P, Fate card P w.frames → Fate card P w'.frames)) :
    Inv w' where
  keys := hkeys
  older := holder
  seen card hc := by
    have := h.seen card (hd ▸ hc)
    omega
  sent := hsent
  listed := hui ▸ h.listed
  safe card hc hk := by
    have hdecided : Decided w card → Decided w' card := by
      unfold Decided
      rw [hui, hlink]
      exact id
    obtain hall | ⟨hmem, hknown, hkeep⟩ := hsafe card hc hk
    · exact ⟨hall _, .inl (hall _)⟩
    · obtain ⟨hclean, hfate⟩ := h.safe card hmem hknown
      rw [hui]
      exact ⟨hkeep _ hclean, hfate.imp (hkeep _) hdecided⟩

theorem emit_cases (w : World) (frame : Frame) (lost : Bool) :
    w.emit frame lost = w ∨ w.emit frame lost = { w with queue := w.queue ++ [frame] } := by
  unfold World.emit
  split
  · exact .inl rfl
  · exact .inr rfl

theorem frames_append_queue (w : World) (gs : List Frame) :
    { w with queue := w.queue ++ gs }.frames = w.frames ++ gs := by
  simp only [World.frames, List.append_assoc]

theorem fate_snoc (h : frame.effect card = none) :
    Fate card P (fs ++ [frame]) ↔ Fate card P fs := by
  rw [fate_append]
  refine fate_of_inert fun f hf => ?_
  rw [List.mem_singleton.mp hf]
  exact h

/-- Requests leave the host, and the phone is told with a frame that is not about the others. -/
theorem Inv.drop (h : Inv w) {pending : List Card} (hp : pending.Sublist w.pending)
    (resolutions : List Resolution) (up : List Nat) (hcard : frame.card = none)
    (hinert : ∀ card ∈ pending, frame.effect card = none) (lost : Bool) :
    Inv ({ w with pending, resolutions, up }.emit frame lost) := by
  obtain heq | heq := emit_cases { w with pending, resolutions, up } frame lost
  · rw [heq]
    exact h.ofUi hp rfl rfl rfl h.listed (fun _ hs => .inl hs) fun _ hd => .inr hd
  · have hframes : ({ w with pending, resolutions, up }.emit frame lost).frames =
        w.frames ++ [frame] := by
      rw [heq]
      exact frames_append_queue _ _
    have hcards : (w.frames ++ [frame]).filterMap Frame.card = w.frames.filterMap Frame.card := by
      simp [hcard]
    refine h.ofHost ?_ ?_ ?_ ?_ ?_ ?_ ?_ ?_
    · rw [heq]
    · rw [heq]
    · rw [heq]
    · rw [heq]
    · rw [heq]
      exact h.keys.sublist (hp.map _)
    · rw [heq]
      exact fun card hc => h.older card (hp.subset hc)
    · rw [hframes, hcards, heq]
      exact h.sent
    · intro card hc hk
      have hmem : card ∈ pending := by
        rw [heq] at hc
        exact hc
      refine .inr ⟨hp.subset hmem, ?_, fun P hfate => ?_⟩
      · unfold Known Delivered OnTheWay at hk ⊢
        rw [hframes, hcards, heq] at hk
        exact hk
      · rw [hframes]
        exact (fate_snoc (hinert card hmem)).mpr hfate

/-! ## Steps of the host -/

theorem mem_filter_key {l : List Card} {key : Key} (h : card ∈ l.filter (·.key ≠ key)) :
    card ∈ l ∧ card.key ≠ key := by
  simpa using h

theorem Inv.settle (h : Inv w) (card : Card) (decision : Option Nat)
    (resolution : PermissionResolution) (resolver : PermissionResolver) (lost : Bool)
    (up : List Nat) : Inv ({ w with up }.settle card decision resolution resolver lost) := by
  refine h.drop List.filter_sublist _ up rfl (fun c hc => ?_) lost
  exact if_neg (mem_filter_key hc).2.symm

theorem Inv.resolve (h : Inv w) (key : Key) (optionId : Option String)
    (resolver : PermissionResolver)
    (decision : Option Nat) (lost : Bool) (up : List Nat) :
    Inv ({ w with up }.resolve key optionId resolver decision lost) := by
  unfold World.resolve
  split
  · exact h.ofUi (.refl _) rfl rfl rfl h.listed (fun _ hs => .inl hs) fun _ hd => .inr hd
  · exact h.settle _ decision _ resolver lost up

theorem Inv.cancel (h : Inv w) (key : Key) (lost : Bool) : Inv (w.cancel key lost) := by
  unfold World.cancel
  split
  · exact h
  · exact h.settle _ none _ _ lost w.up

theorem Inv.removeSession (h : Inv w) (id : Nat) (lost : Bool) :
    Inv ({ w with pending := w.pending.filter (·.request.id ≠ id) }.emit (.removed id) lost) := by
  refine h.drop List.filter_sublist w.resolutions w.up rfl (fun c hc => ?_) lost
  have hne : c.request.id ≠ id := by simpa using (List.mem_filter.mp hc).2
  exact if_neg hne.symm

/-- The new request has a number of its own, so that nothing is known of it. -/
theorem Inv.register (h : Inv w) (hno : card.no = w.next) :
    Inv { w with pending := w.pending.filter (·.key ≠ card.key) ++ [card], next := w.next + 1 } := by
  have hfresh : ¬ Known w card := by
    rintro (⟨x, hx, hsame⟩ | ⟨x, hx, hsame⟩)
    · have := h.seen x hx
      have := hsame.1
      omega
    · have := h.sent x hx
      have := hsame.1
      omega
  refine h.ofHost rfl rfl rfl (Nat.le_succ _) ?_ (fun c hc => ?_) (fun c hc => ?_) fun c hc hk => ?_
  · rw [List.map_append, List.nodup_append]
    refine ⟨h.keys.sublist (List.filter_sublist.map _), List.nodup_singleton _, ?_⟩
    rintro k hk k' hk' rfl
    obtain ⟨c, hc, rfl⟩ := List.mem_map.mp hk
    exact (mem_filter_key hc).2 (List.mem_singleton.mp hk')
  · obtain hc | hc := List.mem_append.mp hc
    · exact Nat.lt_succ_of_lt (h.older c (mem_filter_key hc).1)
    · rw [List.mem_singleton.mp hc, hno]
      exact Nat.lt_succ_self _
  · exact Nat.lt_succ_of_lt (h.sent c hc)
  · obtain hc | hc := List.mem_append.mp hc
    · exact .inr ⟨(mem_filter_key hc).1, hk, fun _ hfate => hfate⟩
    · rw [List.mem_singleton.mp hc] at hk
      exact absurd hk hfresh

/-- A card that still waits may be announced at any time. -/
theorem Inv.announce (h : Inv w) (hc : card ∈ w.pending) (lost : Bool) :
    Inv (w.emit (.permission card) lost) := by
  obtain heq | heq := emit_cases w (.permission card) lost
  · rwa [heq]
  rw [heq]
  have hframes := frames_append_queue w [.permission card]
  refine h.ofHost rfl rfl rfl (Nat.le_refl _) h.keys h.older (fun c hmem => ?_) fun c hmem hk => ?_
  · rw [hframes, List.filterMap_append] at hmem
    obtain hmem | hmem := List.mem_append.mp hmem
    · exact h.sent c hmem
    · obtain rfl : c = card := by simpa [Frame.card] using hmem
      exact h.older c hc
  rw [hframes]
  by_cases hkey : c.key = card.key
  · -- There is one request under a key.
    obtain rfl : c = card := List.inj_on_of_nodup_map h.keys hmem hc hkey
    left
    intro P
    rw [fate_append, Fate]
    simp [Frame.effect, Fate]
  · have heffect : (Frame.permission card).effect c = none := if_neg (Ne.symm hkey)
    refine .inr ⟨hmem, ?_, fun P hfate => (fate_snoc heffect).mpr hfate⟩
    obtain hseen | ⟨x, hx, hsame⟩ := hk
    · exact .inl hseen
    · rw [hframes, List.filterMap_append] at hx
      obtain hx | hx := List.mem_append.mp hx
      · exact .inr ⟨x, hx, hsame⟩
      · obtain rfl : x = card := by simpa [Frame.card] using hx
        exact absurd hsame.2.symm hkey

theorem Inv.raise (h : Inv w) (request : AgentPermission) (lost : Bool) :
    Inv (w.raise request lost) := by
  apply Inv.announce (h.register rfl)
  exact List.mem_append_right _ List.mem_cons_self

/-- The snapshot and the cards of a session are written at the end of what is on the way for it. -/
theorem Inv.replay (h : Inv w) (id : Nat) (batch : List AgentTimelineEvent) (fs gs : List Frame)
    (hui : w'.ui = w.ui) (hlink : w'.link = w.link) (hd : w'.delivered = w.delivered)
    (hn : w'.next = w.next) (hp : w'.pending = w.pending) (hframes : fs ++ gs = w.frames)
    (hframes' : w'.frames = fs ++ w.replay id batch ++ gs)
    (hgs : ∀ frame ∈ gs, frame.session ≠ id) : Inv w' := by
  have hcards : ∀ c ∈ w'.frames.filterMap Frame.card,
      c ∈ w.frames.filterMap Frame.card ∨ (c ∈ w.pending ∧ c.request.id = id) := by
    intro c hc
    rw [hframes', List.filterMap_append, List.filterMap_append] at hc
    rw [← hframes, List.filterMap_append]
    obtain hc | hc := List.mem_append.mp hc
    · obtain hc | hc := List.mem_append.mp hc
      · exact .inl (List.mem_append_left _ hc)
      · obtain ⟨f, hf, hfc⟩ := List.mem_filterMap.mp hc
        obtain rfl | hf := List.mem_cons.mp hf
        · cases hfc
        · obtain ⟨y, hy, rfl⟩ := List.mem_map.mp hf
          obtain rfl : y = c := by simpa [Frame.card] using hfc
          exact .inr (by simpa using hy)
    · exact .inl (List.mem_append_right _ hc)
  refine h.ofHost hui hlink hd (by omega) (hp ▸ h.keys) (fun c hc => ?_) (fun c hc => ?_) ?_
  · rw [hn]
    exact h.older c (hp ▸ hc)
  · rw [hn]
    obtain hc | ⟨hc, -⟩ := hcards c hc
    · exact h.sent c hc
    · exact h.older c hc
  intro c hc hk
  rw [hp] at hc
  by_cases hid : c.request.id = id
  · -- It is one of the cards, and what follows is about other sessions.
    left
    intro P
    have hinert : ∀ frame ∈ gs, frame.effect c = none :=
      fun f hf => Frame.effect_eq_none (hid ▸ hgs f hf)
    rw [hframes', fate_append, fate_of_inert hinert, fate_append, World.replay,
      ← List.singleton_append, fate_append]
    refine fate_cards (h.keys.sublist (List.filter_sublist.map _)) ?_
    simpa using ⟨hc, hid⟩
  · right
    refine ⟨hc, ?_, fun P hfate => ?_⟩
    · obtain hseen | ⟨x, hx, hsame⟩ := hk
      · left
        unfold Delivered at hseen ⊢
        rwa [hd] at hseen
      · obtain hx | ⟨-, hx⟩ := hcards x hx
        · exact .inr ⟨x, hx, hsame⟩
        · exact absurd ((congrArg Prod.fst hsame.2).symm.trans hx) hid
    · have hinert : ∀ frame ∈ w.replay id batch, frame.effect c = none := by
        intro f hf
        refine Frame.effect_eq_none fun hsession => hid ?_
        rw [← hsession]
        obtain rfl | hf := List.mem_cons.mp hf
        · rfl
        · obtain ⟨y, hy, rfl⟩ := List.mem_map.mp hf
          have hy : y.request.id = id := by simpa using (List.mem_filter.mp hy).2
          exact hy
      rw [← hframes, fate_append] at hfate
      rw [hframes', fate_append, fate_append, fate_of_inert hinert]
      exact hfate

/-- A new link begins with the cards that wait. -/
theorem Inv.connect (h : Inv w) (hl : w'.ui = w.ui) (hd : w'.delivered = []) (hn : w'.next = w.next)
    (hp : w'.pending = w.pending) (hf : w'.frames = w.pending.map .permission) : Inv w' where
  keys := hp ▸ h.keys
  older := hn ▸ hp ▸ h.older
  seen card hc := by
    rw [hd] at hc
    cases hc
  sent c hc := by
    rw [hf, List.filterMap_map] at hc
    obtain ⟨y, hy, hyc⟩ := List.mem_filterMap.mp hc
    obtain rfl : y = c := by simpa [Frame.card] using hyc
    exact hn ▸ h.older y hy
  listed := hl ▸ h.listed
  safe c hc _ := by
    rw [hf]
    exact ⟨fate_cards h.keys (hp ▸ hc), .inl (fate_cards h.keys (hp ▸ hc))⟩

/-! ## Steps of the phone -/

theorem Shown.dismiss {key : Key} (h : Shown ui card) (hk : card.key ≠ key) :
    Shown (ui.dismiss key) card := by
  obtain ⟨x, hx, hsame⟩ := h
  refine ⟨x, List.mem_filter.mpr ⟨hx, ?_⟩, hsame⟩
  simpa [hsame.2] using hk

theorem listed_dismiss (h : (ui.permissions.map Card.key).Nodup) (key : Key) :
    ((ui.dismiss key).permissions.map Card.key).Nodup :=
  h.sublist (List.filter_sublist.map _)

/-- The user's decision on a card. -/
theorem Inv.call (h : Inv w) (hx : x ∈ w.ui.permissions) (optionId : Option String)
    (source : DecisionSource) (policy : Option PolicyTier) :
    Inv { w with ui := (w.ui.dismiss x.key).call js x optionId source policy } := by
  refine h.ofUi (.refl _) rfl rfl rfl (listed_dismiss h.listed x.key) (fun c hs => ?_) fun c hd => ?_
  · by_cases hkey : c.key = x.key
    · obtain ⟨y, hy, hsame⟩ := hs
      obtain rfl : y = x := List.inj_on_of_nodup_map h.listed hy hx (hsame.2.trans hkey)
      exact .inr ⟨_, List.mem_append_right _ List.mem_cons_self, hsame, .inl rfl⟩
    · exact .inl (hs.dismiss hkey)
  · obtain ⟨d, hd, hsame⟩ := hd
    exact .inr ⟨d, List.mem_append_left _ hd, hsame⟩

theorem Inv.learn (h : Inv w) (hx : x ∈ w.ui.permissions) :
    Inv { w with ui := w.ui.learnExactPermission js x } := by
  unfold Ui.learnExactPermission
  split
  · exact h.call hx _ _ _
  · exact h

/-- A decision goes on. -/
theorem decided_setStatus {i : Nat} {status : Status} (hui : w'.ui.decisions =
      w.ui.decisions.modify i fun d => { d with status }) (hlink : w'.link = w.link)
    (hst : ∀ d, w.ui.decisions[i]? = some d → d.Holds w.link →
      Decision.Holds w.link { d with status }) (hd : Decided w card) : Decided w' card := by
  obtain ⟨d, hd, hsame, hholds⟩ := hd
  obtain ⟨j, hj⟩ := List.mem_iff_getElem?.mp hd
  by_cases hij : i = j
  · subst hij
    refine ⟨{ d with status }, List.mem_of_getElem? (i := i) ?_, hsame, hlink ▸ hst d hj hholds⟩
    rw [hui, List.getElem?_modify, hj]
    simp
  · refine ⟨d, List.mem_of_getElem? (i := j) ?_, hsame, hlink ▸ hholds⟩
    rw [hui, List.getElem?_modify, hj]
    simp [hij]

theorem Inv.setStatus (h : Inv w) {i : Nat} {status : Status}
    (hui : w'.ui.decisions = w.ui.decisions.modify i fun d => { d with status })
    (hper : w'.ui.permissions = w.ui.permissions) (hlink : w'.link = w.link)
    (hp : w'.pending = w.pending) (hn : w'.next = w.next) (hd : w'.delivered = w.delivered)
    (hf : w'.frames = w.frames)
    (hst : ∀ d, w.ui.decisions[i]? = some d → d.Holds w.link →
      Decision.Holds w.link { d with status }) : Inv w' := by
  refine h.ofUi (by rw [hp]) hn hd hf (by rw [hper]; exact h.listed) (fun c hs => ?_) fun c hd => ?_
  · left
    unfold Shown
    rwa [hper]
  · exact .inr (decided_setStatus hui hlink hst hd)

/-- A decision that arrives takes no other card from the list. -/
theorem Inv.landed (h : Inv w) (i : Nat) : Inv { w with ui := w.ui.landed js i } := by
  unfold Ui.landed
  split
  · exact h
  next d hi =>
  split
  · exact h
  next hst =>
  have hst : d.status = .enqueued := by simpa using hst
  have hholds : ∀ d', w.ui.decisions[i]? = some d' → d'.Holds w.link →
      Decision.Holds w.link { d' with status := .landed } := by
    intro d' hi' hd
    obtain rfl : d = d' := by simpa [hi] using hi'
    obtain hsend | ⟨-, hl⟩ := hd
    · simp [hst] at hsend
    · exact .inr ⟨.inr rfl, hl⟩
  dsimp only
  split
  · exact h.setStatus rfl rfl rfl rfl rfl rfl rfl hholds
  · split
    · exact h.setStatus rfl rfl rfl rfl rfl rfl rfl hholds
    · exact h.setStatus rfl rfl rfl rfl rfl rfl rfl hholds
  · exact h.setStatus rfl rfl rfl rfl rfl rfl rfl hholds

/-- A decision that fails puts its own card back. -/
theorem Inv.rejected (h : Inv w) (i : Nat) (hs : KeysFit w (.rejected i)) :
    Inv { w with ui := w.ui.rejected i } := by
  unfold Ui.rejected
  split
  · exact h
  next d hi =>
  split
  · exact h
  next hst =>
  obtain ⟨ui', hui'⟩ : ∃ ui', ui' = if d.source = .auto then
      (w.ui.setStatus i .failed).deleteAutoDecided d.card.key else w.ui.setStatus i .failed :=
    ⟨_, rfl⟩
  have hdecs : ui'.decisions = w.ui.decisions.modify i fun d => { d with status := .failed } := by
    rw [hui']
    split <;> rfl
  have hper : ui'.permissions = w.ui.permissions := by
    rw [hui']
    split <;> rfl
  dsimp only
  rw [← hui']
  -- A request that has no decision but this one is in the list afterwards.
  have hkept : ∀ c, Decided w c → d.card.Same c ∨ ∃ d' ∈ ui'.decisions, d'.card.Same c ∧
      d'.Holds w.link := by
    rintro c ⟨d', hd', hsame, hholds⟩
    obtain ⟨j, hj⟩ := List.mem_iff_getElem?.mp hd'
    by_cases hij : i = j
    · subst hij
      obtain rfl : d = d' := by simpa [hi] using hj
      exact .inl hsame
    · refine .inr ⟨d', List.mem_of_getElem? (i := j) ?_, hsame, hholds⟩
      rw [hdecs, List.getElem?_modify, hj]
      simp [hij]
  have hframe : ∀ ui'' : Ui, ui''.decisions = ui'.decisions →
      (∀ y ∈ w.ui.permissions, y ∈ ui''.permissions) → (ui''.permissions.map Card.key).Nodup →
      (∃ y ∈ ui''.permissions, y.Same d.card) → Inv { w with ui := ui'' } := by
    intro ui'' hd'' hmore hl'' hcard
    refine h.ofUi (.refl _) rfl rfl rfl hl'' (fun c hshown => ?_) fun c hdecided => ?_
    · obtain ⟨y, hy, hsame⟩ := hshown
      exact .inl ⟨y, hmore y hy, hsame⟩
    · obtain hsame | ⟨d', hd', hrest⟩ := hkept c hdecided
      · obtain ⟨y, hy, hyd⟩ := hcard
        exact .inl ⟨y, hy, hyd.1.trans hsame.1, hyd.2.trans hsame.2⟩
      · exact .inr ⟨d', hd''.symm ▸ hd', hrest⟩
  split
  · next hany =>
    obtain ⟨y, hy, hykey⟩ := List.any_eq_true.mp hany
    rw [hper] at hy
    refine hframe ui' rfl (fun _ hz => hper ▸ hz) (hper ▸ h.listed) ⟨y, hper ▸ hy, ?_⟩
    exact hs d (by simp [hi]) y hy (by simpa using hykey)
  · next hany =>
    refine hframe _ rfl (fun z hz => List.mem_append_left _ (hper ▸ hz)) ?_
      ⟨d.card, List.mem_append_right _ List.mem_cons_self, rfl, rfl⟩
    rw [List.map_append, List.nodup_append]
    refine ⟨hper ▸ h.listed, List.nodup_singleton _, ?_⟩
    rintro k hk k' hk' rfl
    obtain ⟨y, hy, hyk⟩ := List.mem_map.mp hk
    refine hany (List.any_eq_true.mpr ⟨y, hy, ?_⟩)
    rw [hyk, List.mem_singleton.mp hk']
    simp

/-! ## Frames that arrive -/

/-- The phone takes a frame, and does to the list what the frame says, or decides. -/
theorem Inv.take (h : Inv w) (hf : w.frames = frame :: w'.frames) (hp : w'.pending = w.pending)
    (hn : w'.next = w.next) (hseen : ∀ c ∈ w'.delivered, c ∈ w.delivered ∨ frame = .permission c)
    (hl : (w'.ui.permissions.map Card.key).Nodup)
    (hs : ∀ c, (frame.effect c).elim (Shown w.ui c) (· = true) → Shown w'.ui c ∨ Decided w' c)
    (hdec : ∀ c, Decided w c → Decided w' c) : Inv w' where
  keys := hp ▸ h.keys
  older := hn ▸ hp ▸ h.older
  seen c hc := by
    rw [hn]
    obtain hc | rfl := hseen c hc
    · exact h.seen c hc
    · exact h.sent c (by rw [hf]; exact List.mem_filterMap.mpr ⟨_, List.mem_cons_self, rfl⟩)
  sent c hc := by
    obtain ⟨f, hf', hfc⟩ := List.mem_filterMap.mp hc
    rw [hn]
    exact h.sent c (List.mem_filterMap.mpr ⟨f, by rw [hf]; exact List.mem_cons_of_mem _ hf', hfc⟩)
  listed := hl
  safe c hc hk := by
    have hway : ∀ y ∈ w'.frames.filterMap Frame.card, y ∈ w.frames.filterMap Frame.card := by
      intro y hy
      obtain ⟨f, hf', hfy⟩ := List.mem_filterMap.mp hy
      exact List.mem_filterMap.mpr ⟨f, by rw [hf]; exact List.mem_cons_of_mem _ hf', hfy⟩
    have hknown : Known w c := by
      obtain ⟨y, hy, hsame⟩ | ⟨y, hy, hsame⟩ := hk
      · obtain hy | rfl := hseen y hy
        · exact .inl ⟨y, hy, hsame⟩
        · refine .inr ⟨y, ?_, hsame⟩
          rw [hf]
          exact List.mem_filterMap.mpr ⟨_, List.mem_cons_self, rfl⟩
      · exact .inr ⟨y, hway y hy, hsame⟩
    obtain ⟨hclean, hfate⟩ := h.safe c (hp ▸ hc) hknown
    have hsplit : ∀ P, Fate c P w.frames ↔ Fate c ((frame.effect c).elim P (· = true)) w'.frames := by
      intro P
      rw [hf, Fate]
      cases frame.effect c <;> rfl
    have hclean' : Fate c True w'.frames := ((hsplit True).mp hclean).mono fun _ => trivial
    refine ⟨hclean', ?_⟩
    obtain hfate | hdecided := hfate
    · by_cases heff : (frame.effect c).elim (Shown w.ui c) (· = true)
      · obtain hshown | hdecided := hs c heff
        · exact .inl (hclean'.mono fun _ => hshown)
        · exact .inr hdecided
      · exact .inl (((hsplit _).mp hfate).mono fun hp => absurd hp heff)
    · exact .inr (hdec c hdecided)

theorem maybeAutoApprove_replay {p : Phone} {request : AgentPermission}
    (h : p.maybeAutoApprove js request = .replay) :
    p.policyHost ≠ none ∧ (request.id, request.toolCallId) ∈ p.autoDecided := by
  unfold Phone.maybeAutoApprove at h
  split at h
  · cases h
  next hhost =>
  split at h
  · next hkey => exact ⟨hhost, hkey⟩
  · dsimp only at h
    split at h
    · split at h <;> cases h
    · cases h

/-- A card that arrives is listed, unless it is decided at once. -/
theorem Inv.onPermission (h : Inv w) {connection : Nat} {wire : List Frame}
    (hw : w.wire = .permission x :: wire) (hs : KeysFit w .deliver) :
    Inv { w with
      wire, ui := w.ui.onPermission js { x with connection }, delivered := x :: w.delivered } := by
  have hf : w.frames = .permission x :: (wire ++ w.queue) := by
    rw [World.frames, hw, List.cons_append]
  have hseen : ∀ c ∈ x :: w.delivered, c ∈ w.delivered ∨ Frame.permission x = .permission c := by
    intro c hc
    obtain rfl | hc := List.mem_cons.mp hc
    · exact .inr rfl
    · exact .inl hc
  have heffect : ∀ c, c.key = x.key →
      ((Frame.permission x).effect c).elim (Shown w.ui c) (· = true) → x.Same c := by
    intro c hk he
    simp only [Frame.effect, hk, if_true, Option.elim, decide_eq_true_eq] at he
    exact ⟨he, hk.symm⟩
  have hother : ∀ c, c.key ≠ x.key →
      ((Frame.permission x).effect c).elim (Shown w.ui c) (· = true) → Shown w.ui c := by
    intro c hk he
    simpa [Frame.effect, hk.symm] using he
  unfold Ui.onPermission
  split
  · -- The key is taken for that of a decision on this request.
    next hv =>
    obtain ⟨hhost, hkey⟩ := maybeAutoApprove_replay hv
    have hdecided : Decided w x := hs x (by simp [World.arriving, hw, Frame.card]) hhost hkey
    refine h.take hf rfl rfl hseen h.listed (fun c he => ?_) fun c hd => hd
    by_cases hk : c.key = x.key
    · obtain ⟨d, hd, hsame, hholds⟩ := hdecided
      have hxc := heffect c hk he
      exact .inr ⟨d, hd, ⟨hsame.1.trans hxc.1, hsame.2.trans hxc.2⟩, hholds⟩
    · exact .inl (hother c hk he)
  · refine h.take hf rfl rfl hseen ?_ (fun c he => ?_) fun c hd => hd
    · dsimp only
      rw [List.map_append, List.nodup_append]
      refine ⟨listed_dismiss h.listed _, List.nodup_singleton _, ?_⟩
      rintro k hk k' hk' rfl
      obtain ⟨y, hy, hyk⟩ := List.mem_map.mp hk
      exact (mem_filter_key hy).2 (hyk.trans (List.mem_singleton.mp hk'))
    · left
      by_cases hk : c.key = x.key
      · exact ⟨{ x with connection }, List.mem_append_right _ List.mem_cons_self, heffect c hk he⟩
      · obtain ⟨y, hy, hsame⟩ := (hother c hk he).dismiss hk
        exact ⟨y, List.mem_append_left _ hy, hsame⟩
  · refine h.take hf rfl rfl hseen h.listed (fun c he => ?_) fun c hd => ?_
    · by_cases hk : c.key = x.key
      · exact .inr ⟨_, List.mem_append_right _ List.mem_cons_self, heffect c hk he, .inl rfl⟩
      · exact .inl (hother c hk he)
    · obtain ⟨d, hd, hrest⟩ := hd
      exact ⟨d, List.mem_append_left _ hd, hrest⟩

/-- A frame that takes cards from the list. -/
theorem Inv.takeCards (h : Inv w) (hf : w.frames = frame :: w'.frames) (hp : w'.pending = w.pending)
    (hn : w'.next = w.next) (hd : w'.delivered = w.delivered) (hlink : w'.link = w.link)
    (hdecs : w'.ui.decisions = w.ui.decisions) {p : Card → Bool}
    (hper : w'.ui.permissions = w.ui.permissions.filter p) (hcard : ∀ c, frame ≠ .permission c)
    (hs : ∀ c y, frame.effect c = none → y.Same c → p y = true) : Inv w' := by
  refine h.take hf hp hn (fun c hc => .inl (hd ▸ hc)) ?_ (fun c he => ?_) fun c hd => ?_
  · rw [hper]
    exact h.listed.sublist (List.filter_sublist.map _)
  · left
    cases heff : frame.effect c with
    | none =>
      rw [heff] at he
      obtain ⟨y, hy, hsame⟩ := he
      refine ⟨y, ?_, hsame⟩
      rw [hper]
      exact List.mem_filter.mpr ⟨hy, hs c y heff hsame⟩
    | some shown =>
      rw [heff] at he
      obtain ⟨y, rfl, -⟩ := Frame.effect_eq_true (heff.trans (congrArg some he))
      exact absurd rfl (hcard y)
  · unfold Decided
    rw [hdecs, hlink]
    exact hd

/-- The phone reads the next frame. -/
theorem Inv.deliver (h : Inv w) {connection : Nat} {wire : List Frame}
    (hw : w.wire = frame :: wire) (hs : KeysFit w .deliver) :
    Inv ({ w with wire }.onFrame js connection frame) := by
  have hf : w.frames = frame :: (wire ++ w.queue) := by
    rw [World.frames, hw, List.cons_append]
  cases frame with
  | permission x => exact h.onPermission hw hs
  | resolved y resolution resolver =>
    have hlog : ∀ ui : Ui, ui.decisions = w.ui.decisions → ui.permissions = w.ui.permissions →
        Inv { w with wire, ui := ui.dismiss y.key } := by
      intro ui hdecs hper
      refine h.takeCards hf rfl rfl rfl rfl hdecs (p := (·.key ≠ y.key)) (by rw [Ui.dismiss, hper])
        (fun _ => by simp) fun c z heff hsame => ?_
      have hne : y.key ≠ c.key := by
        intro hk
        simp [Frame.effect, hk] at heff
      simpa [hsame.2] using hne.symm
    simp only [World.onFrame, Ui.onPermissionResolved]
    split
    · exact hlog _ rfl rfl
    · split
      · exact hlog _ rfl rfl
      · exact hlog _ rfl rfl
  | snapshot id batch =>
    refine h.takeCards hf rfl rfl rfl rfl rfl (p := (·.request.id ≠ id)) rfl (fun _ => by simp)
      fun c z heff hsame => ?_
    have hne : id ≠ c.request.id := by
      intro hk
      simp [Frame.effect, hk] at heff
    have hid : z.request.id = c.request.id := congrArg Prod.fst hsame.2
    simpa [hid] using hne.symm
  | removed id =>
    refine h.takeCards hf rfl rfl rfl rfl rfl (p := (·.request.id ≠ id)) rfl (fun _ => by simp)
      fun c z heff hsame => ?_
    have hne : id ≠ c.request.id := by
      intro hk
      simp [Frame.effect, hk] at heff
    have hid : z.request.id = c.request.id := congrArg Prod.fst hsame.2
    simpa [hid] using hne.symm

/-! ## Whole runs -/

theorem Inv.linkLost (h : Inv w) :
    Inv { w with
      ui := w.ui.onLinkLost, link := none, wire := [], queue := [], up := [], delivered := [] } where
  keys := h.keys
  older := h.older
  seen _ hc := by cases hc
  sent _ hc := by cases hc
  listed := List.nodup_nil
  safe card _ hk := by
    obtain ⟨x, hx, -⟩ | ⟨x, hx, -⟩ := hk <;> cases hx

/-- One step. Only the three conditions of `KeysFit` are needed. -/
theorem Inv.step (h : Inv w) {ev : Event} (hs : KeysFit w ev) : Inv (w.step js ev) := by
  have hsame : ∀ w' : World, w'.ui = w.ui → w'.pending = w.pending → w'.next = w.next →
      w'.link = w.link → w'.delivered = w.delivered → w'.frames = w.frames → Inv w' := by
    intro w' hui hp hn hl hd hf
    refine h.ofUi (by rw [hp]) hn hd hf (by rw [hui]; exact h.listed) (fun c hs => ?_) fun c hd => ?_
    · exact .inl (hui ▸ hs)
    · right
      unfold Decided
      rwa [hui, hl]
  cases ev with
  | raise request lost => exact h.raise request lost
  | answer key optionId resolver lost => exact h.resolve key optionId resolver none lost w.up
  | cancel key lost => exact h.cancel key lost
  | expire key =>
    exact h.ofUi List.filter_sublist rfl rfl rfl h.listed (fun _ hs => .inl hs) fun _ hd => .inr hd
  | removeSession id lost => exact h.removeSession id lost
  | attach id batch =>
    simp only [World.step]
    split
    · exact h
    · exact h.replay id batch w.wire w.queue rfl rfl rfl rfl rfl rfl rfl hs
  | resync id batch =>
    simp only [World.step]
    split
    · exact h
    · refine h.replay id batch w.frames [] rfl rfl rfl rfl rfl (List.append_nil _) ?_
        fun _ hf => by cases hf
      rw [List.append_nil]
      exact frames_append_queue w _
  | write =>
    simp only [World.step]
    split
    · exact h
    · next frame queue hq =>
      refine hsame _ rfl rfl rfl rfl rfl ?_
      simp only [World.frames, hq, List.append_assoc, List.singleton_append]
  | deliver =>
    simp only [World.step]
    split
    · next connection frame wire hl hw => exact h.deliver hw hs
    · exact h
  | receive lost =>
    simp only [World.step]
    split
    · exact h
    next i up hup =>
    split
    · exact hsame _ rfl rfl rfl rfl rfl rfl
    · exact h.resolve _ _ _ _ lost up
  | decide card optionId =>
    simp only [World.step]
    split
    · next hx => exact h.call hx _ _ _
    · exact h
  | learn card =>
    simp only [World.step]
    split
    · next hx => exact h.learn hx
    · exact h
  | enqueue i =>
    simp only [World.step]
    split
    · exact h
    next d hi =>
    split
    · next hst =>
      refine h.setStatus rfl rfl rfl rfl rfl rfl rfl fun d' hi' _ => ?_
      obtain rfl : d = d' := by simpa [hi] using hi'
      exact .inr ⟨.inl rfl, hst.2⟩
    · exact h
  | landed i => exact h.landed i
  | rejected i => exact h.rejected i hs
  | environment policyHost policy agentEvents =>
    exact h.ofUi (.refl _) rfl rfl rfl h.listed (fun _ hs => .inl hs) fun _ hd => .inr hd
  | linkLost => exact h.linkLost
  | connect =>
    simp only [World.step]
    split
    · exact h.connect rfl rfl rfl rfl (by simp [World.frames])
    · exact h

theorem inv_start (stored : Option HostId → Option ApprovalPolicy) : Inv (start stored) where
  keys := List.nodup_nil
  older _ hc := by cases hc
  seen _ hc := by cases hc
  sent _ hc := by cases hc
  listed := List.nodup_nil
  safe _ hc := by cases hc

/-- As long as keys stand for one request each, no request that waits is swallowed. -/
theorem cards_not_swallowed (js : Js) (stored : Option HostId → Option ApprovalPolicy)
    (evs : List Event) (ha : Run.Along (World.step js) KeysFit (start stored) evs) :
    NotSwallowed (Run.run (World.step js) (start stored) evs) := by
  have hinv : Inv (Run.run (World.step js) (start stored) evs) :=
    ha.induction (inv_start stored) fun _ _ h hs => h.step hs
  exact hinv.notSwallowed

/-- The callback runs before the answer of the host arrives, and the next request under the same key
is shown. -/
theorem cards_not_swallowed_reused :
    Run.Along (World.step fileNameJs) KeysFit (start fun _ => none)
      (allowedRun ++ [.landed 0, .deliver, .raise runRequest false, .write, .deliver]) ∧
    NotSwallowed (Run.run (World.step fileNameJs) (start fun _ => none)
      (allowedRun ++ [.landed 0, .deliver, .raise runRequest false, .write, .deliver])) := by
  have ha : Run.Along (World.step fileNameJs) KeysFit (start fun _ => none)
      (allowedRun ++ [.landed 0, .deliver, .raise runRequest false, .write, .deliver]) := by
    decide +kernel
  exact ⟨ha, cards_not_swallowed fileNameJs _ _ ha⟩

/-- The answer of the host arrives before the callback runs, which then leaves its key behind: the
next request under the same key is never shown. -/
theorem card_swallowed :
    ¬ NotSwallowed (Run.run (World.step fileNameJs) (start fun _ => none)
      (allowedRun ++ [.deliver, .landed 0, .raise runRequest false, .write, .deliver])) := by
  decide +kernel

end Cards

end Portty
