import Portty.Phone.GenerationsInv

/-!
# What a generation can do to another

`generations_safe`: in every run whose steps meet the condition (`Meets`), no loop touches a newer
generation, decisions stay on the link of their card, every request ends and none waits on a map
that its loop has cleared, and a link that was taken receives no frame in a pass that starts after
that.

`windows_open`: without the condition, a request can wait for a link that has ended, a loop can tell
the user about a newer link, and a link that was taken can go on.
-/

namespace Portty

namespace Phone

namespace Generations

/-! ## The results -/

/-- The map whose sender the request waits for. -/
def Request.waitsOn (r : Request) : Option PendingMap :=
  match r.step with
  | .waiting => some r.map
  | .waitingListing => r.listing.map .listing
  | _ => none

/-- How many steps a request still has. -/
def Step.rank : Step → Nat
  | .looked => 5
  | .registering => 4
  | .queueing => 3
  | .waiting => 2
  | .waitingListing => 1
  | .ended _ => 0

/-- What the request itself does next, if nobody else does anything. -/
def Request.next (r : Request) (i : Nat) (full : Bool) : Option Event :=
  match r.step with
  | .looked => some (.registerUnpair i)
  | .registering => some (.registerListing i)
  | .queueing => some (.enqueue i full)
  | .waiting | .waitingListing => some (.timeout i)
  | .ended _ => none

/-- What no step does to a newer connection. -/
structure Safe (w : World) : Prop where
  /-- No loop of an older generation clears the connection or tells the user. -/
  older : ∀ (ev : Event) link (l : Link) current (n : Link), ev.loopOf = some link → w.links[link]? = some l →
    w.slot = some current → w.links[current]? = some n → l.id < n.id →
      (w.step ev).slot = w.slot ∧ (w.step ev).told = w.told
  distinct : (w.links.map Link.id).Nodup
  decisions : ∀ l ∈ w.links, ∀ card, .decision card ∈ l.outbound → card = l.id
  /-- A request comes nearer to its end with every step of its own, and nothing throws it back. -/
  ends : ∀ (i : Nat) (r : Request), w.requests[i]? = some r →
    (∀ ev, ∃ r' : Request, (w.step ev).requests[i]? = some r' ∧ r'.step.rank ≤ r.step.rank) ∧
      ∀ full ev, r.next i full = some ev →
        ∃ r' : Request, (w.step ev).requests[i]? = some r' ∧ r'.step.rank < r.step.rank
  /-- The loop of the link will still clear the map on which a request waits. -/
  waits : ∀ (i : Nat) (r : Request) (l : Link) m, w.requests[i]? = some r → r.waitsOn = some m → w.links[r.link]? = some l →
    (m, i) ∈ l.entries → l.loop.cleared m = false

/-- The loop of the link is in a pass over its branches. -/
def World.selecting (w : World) (link : Nat) : Bool := (w.links[link]?).any (·.loop = .selecting)

/-- The loop of the link takes a frame. -/
def receives (link : Nat) (w : World) : Event → Bool
  | .receive k _ => k = link && w.selecting link
  | _ => false

variable {w w' : World} {link i : Nat} {l : Link} {r : Request} {m : PendingMap}

/-! ## What the loop of a link changes -/

/-- Only the link and the slot, which is cleared. -/
structure OnlyLink (link : Nat) (w w' : World) : Prop where
  other : ∀ j, j ≠ link → w'.links[j]? = w.links[j]?
  length : w'.links.length = w.links.length
  requests : w'.requests = w.requests
  slot : w'.slot = w.slot ∨ w'.slot = none

theorem OnlyLink.refl : OnlyLink link w w := ⟨fun _ _ => rfl, rfl, rfl, .inl rfl⟩

theorem OnlyLink.setLink (f : Link → Link) : OnlyLink link w (w.setLink link f) :=
  ⟨fun _ hj => Table.modify_of_ne hj f, List.length_modify .., rfl, .inl rfl⟩

theorem OnlyLink.replied (l : Link) (m : PendingMap) (i : Nat) (ok : Bool) (loop : Loop) :
    OnlyLink link w ((w.reply link l m i ok).setLoop link loop) := by
  unfold World.reply
  split
  · refine ⟨fun j hj => ?_, ?_, rfl, .inl rfl⟩
    · exact (Table.modify_of_ne hj _).trans (Table.modify_of_ne hj _)
    · exact (List.length_modify ..).trans (List.length_modify ..)
  · exact .setLink _

/-- A loop writes to its own link only. -/
theorem onlyLink_onLoop (w : World) (link : Nat) (l : Link) (ev : Event) :
    OnlyLink link w (w.onLoop link l ev) := by
  cases ev with
  | apply _ =>
    simp only [World.onLoop]
    split
    · next frame _ =>
      cases frame with
      | commandResult | listing | unpairResult => exact .replied ..
      | last | other => exact .setLink _
    · exact .refl
  | clearMap _ =>
    simp only [World.onLoop]
    split
    · next rest _ =>
      cases rest with
      | nil => exact .setLink _
      | cons => exact .setLink _
    · exact .refl
  | remove _ =>
    simp only [World.onLoop]
    split
    · unfold World.removeConnectionIfCurrent
      split
      · exact .setLink _
      split
      · exact ⟨fun _ hj => Table.modify_of_ne hj _, List.length_modify .., rfl, .inr rfl⟩
      · exact .setLink _
    · exact .refl
  | emit _ =>
    simp only [World.onLoop]
    split
    · exact ⟨fun _ hj => Table.modify_of_ne hj _, List.length_modify .., rfl, .inl rfl⟩
    · exact .refl
  | poll _ | receive _ _ | hangUp _ | close _ =>
    simp only [World.onLoop]
    split
    · exact .setLink _
    · exact .refl
  | _ => exact .refl

/-- Only `remove` and `emit` reach beyond the link. -/
theorem slot_told_onLoop (w : World) (link : Nat) (l : Link) {ev : Event} (hr : ev ≠ .remove link)
    (he : ev ≠ .emit link) (hev : ev.loopOf = some link) :
    (w.onLoop link l ev).slot = w.slot ∧ (w.onLoop link l ev).told = w.told := by
  have hreply : ∀ m i ok loop, ((w.reply link l m i ok).setLoop link loop).slot = w.slot ∧
      ((w.reply link l m i ok).setLoop link loop).told = w.told := by
    intro m i ok loop
    unfold World.reply
    split <;> exact ⟨rfl, rfl⟩
  cases ev with
  | apply _ =>
    simp only [World.onLoop]
    split
    · next frame _ =>
      cases frame with
      | commandResult | listing | unpairResult => exact hreply ..
      | last | other => exact ⟨rfl, rfl⟩
    · exact ⟨rfl, rfl⟩
  | clearMap _ =>
    simp only [World.onLoop]
    split
    · next rest _ => cases rest <;> exact ⟨rfl, rfl⟩
    · exact ⟨rfl, rfl⟩
  | remove _ => exact absurd (congrArg Event.remove (Option.some.inj hev)) hr
  | emit _ => exact absurd (congrArg Event.emit (Option.some.inj hev)) he
  | poll _ | receive _ _ | hangUp _ | close _ =>
    simp only [World.onLoop]
    split <;> exact ⟨rfl, rfl⟩
  | _ => exact ⟨rfl, rfl⟩

/-- A loop of an older generation does not find its own connection in the slot. -/
theorem Inv.older (h : Inv w) {ev : Event} {current : Nat} {n : Link} (hev : ev.loopOf = some link)
    (hl : w.links[link]? = some l) (hs : w.slot = some current) (hn : w.links[current]? = some n)
    (hlt : l.id < n.id) : (w.step ev).slot = w.slot ∧ (w.step ev).told = w.told := by
  rw [step_loop w hev, hl, Option.elim_some]
  by_cases hremove : ev = .remove link
  · subst hremove
    simp only [World.onLoop]
    split
    · have hne : n.id ≠ l.id := by omega
      simp [World.removeConnectionIfCurrent, hs, hn, hne, World.setLoop, World.setLink]
    · exact ⟨rfl, rfl⟩
  by_cases hemit : ev = .emit link
  · subst hemit
    simp only [World.onLoop]
    split
    · next he =>
      have hnone := (h.links link l hl).emitting he
      rw [hs] at hnone
      cases hnone
    · exact ⟨rfl, rfl⟩
  · exact slot_told_onLoop w link l hremove hemit hev

/-! ## Requests end -/

/-- The request goes on to a step nearer to its end. -/
def Advances (w w' : World) (i : Nat) (r : Request) : Prop :=
  ∃ step : Step, w'.requests = w.requests.modify i (fun r => { r with step }) ∧ step.rank < r.step.rank

theorem Advances.rank (h : Advances w w' i r) (hr : w.requests[i]? = some r) :
    ∃ r' : Request, w'.requests[i]? = some r' ∧ r'.step.rank < r.step.rank := by
  obtain ⟨step, he, hlt⟩ := h
  rw [he]
  exact ⟨_, Table.modify_self hr _, hlt⟩

theorem advances_enqueue (w : World) (full : Bool) (hs : r.step = .queueing) :
    Advances w (w.enqueue i r full) i r := by
  unfold World.enqueue
  split
  · next hok =>
    obtain ⟨_, -, -, rfl⟩ := tryEnqueue_ok hok
    exact ⟨.waiting, rfl, by rw [hs]; decide⟩
  · next e _ => exact ⟨.ended e, rfl, by rw [hs]; exact Nat.zero_lt_succ _⟩

/-- A step of a request leaves it where it is, or takes it on. -/
theorem advances_onRequest (w : World) (i : Nat) (r : Request) (ev : Event) :
    (w.onRequest i r ev).requests = w.requests ∨ Advances w (w.onRequest i r ev) i r := by
  have hended : ∀ outcome, 0 < r.step.rank → Advances w (w.finish i r outcome) i r :=
    fun outcome hpos => ⟨.ended outcome, rfl, hpos⟩
  cases ev with
  | registerListing _ =>
    simp only [World.onRequest]
    split
    · next hs _ => exact .inr ⟨.queueing, rfl, by rw [hs]; decide⟩
    · exact .inl rfl
  | registerUnpair _ =>
    simp only [World.onRequest]
    split
    · next hs => exact .inr ⟨.queueing, rfl, by rw [hs]; decide⟩
    · exact .inl rfl
  | enqueue _ full =>
    simp only [World.onRequest]
    split
    · next hs => exact .inr (advances_enqueue w full hs)
    · exact .inl rfl
  | wake _ =>
    simp only [World.onRequest, World.wake]
    split
    · next hs =>
      have hpos : 0 < r.step.rank := by rw [hs]; decide
      split
      · split
        · exact .inr (hended _ hpos)
        · exact .inr ⟨.waitingListing, rfl, by rw [hs]; decide⟩
      split
      · exact .inr (hended _ hpos)
      split
      · exact .inl rfl
      · exact .inr (hended _ hpos)
    · next hs =>
      have hpos : 0 < r.step.rank := by rw [hs]; decide
      split
      · exact .inl rfl
      split
      · exact .inr (hended _ hpos)
      split
      · exact .inl rfl
      · exact .inr (hended _ hpos)
    · exact .inl rfl
  | timeout _ =>
    simp only [World.onRequest, World.timeout]
    split
    · next hs => exact .inr (hended _ (by rw [hs]; decide))
    · next hs => exact .inr (hended _ (by rw [hs]; decide))
    · exact .inl rfl
  | _ => exact .inl rfl

/-- A command adds at most one request. -/
theorem requests_onCommand (w : World) (ev : Event) :
    (w.onCommand ev).requests = w.requests ∨ ∃ r,
      (w.onCommand ev).requests = w.requests ++ [r] := by
  cases ev with
  | connect =>
    simp only [World.onCommand, World.connect]
    split
    · split <;> exact .inl rfl
    · exact .inl rfl
  | install | disconnect =>
    simp only [World.onCommand]
    split <;> exact .inl rfl
  | removeHost device =>
    simp only [World.onCommand, World.removeHost]
    split
    · split
      · exact .inl rfl
      · exact .inr ⟨_, rfl⟩
    · exact .inl rfl
  | removeTake forgotten =>
    simp only [World.onCommand, World.takeConnectionForPeer]
    split
    · split
      · split
        · split <;> exact .inl rfl
        · exact .inl rfl
      · exact .inl rfl
    · exact .inl rfl
  | request listing =>
    simp only [World.onCommand]
    split
    · exact .inl rfl
    · exact .inr ⟨_, rfl⟩
  | decide card =>
    simp only [World.onCommand, World.decide]
    split
    · exact .inl rfl
    · split <;> exact .inl rfl
  | _ => exact .inl rfl

theorem requests_drop (w : World) (t : Nat) (k : Taker) : (w.drop t k).requests = w.requests := by
  unfold World.drop
  dsimp only
  split <;> rfl

/-- What a decision that is queued leaves as it was. -/
theorem decision_keeps (w : World) (link : Nat) (p : Link → Packet) (full : Bool) :
    ((w.tryEnqueue link p full).toOption.getD w).requests = w.requests ∧
      ((w.tryEnqueue link p full).toOption.getD w).slot = w.slot ∧
      (((w.tryEnqueue link p full).toOption.getD w).links = w.links ∨
        ((w.tryEnqueue link p full).toOption.getD w).links =
          w.links.modify link fun l => { l with outbound := l.outbound ++ [p l] }) := by
  cases hok : w.tryEnqueue link p full with
  | error e => exact ⟨rfl, rfl, .inl rfl⟩
  | ok w' =>
    obtain ⟨_, -, -, rfl⟩ := tryEnqueue_ok hok
    exact ⟨rfl, rfl, .inr rfl⟩

/-- Nothing throws a request back. -/
theorem rank_steps {ev : Event} (hs : Steps w ev w') (hr : w.requests[i]? = some r) :
    ∃ r' : Request, w'.requests[i]? = some r' ∧ r'.step.rank ≤ r.step.rank := by
  have hsame : w'.requests = w.requests →
      ∃ r' : Request, w'.requests[i]? = some r' ∧ r'.step.rank ≤ r.step.rank :=
    fun he => ⟨r, he ▸ hr, Nat.le_refl _⟩
  cases hs with
  | idle | giveUp | start | spawn | clear => exact hsame rfl
  | drop => exact hsame (requests_drop _ _ _)
  | decision => exact hsame (decision_keeps _ _ _ _).1
  | @request j r₀ _ hev hr₀ =>
    obtain he | hadv := advances_onRequest w j r₀ ev
    · exact hsame he
    by_cases hj : i = j
    · subst hj
      obtain rfl := Option.some.inj (hr.symm.trans hr₀)
      obtain ⟨r', hr', hlt⟩ := hadv.rank hr
      exact ⟨r', hr', Nat.le_of_lt hlt⟩
    · obtain ⟨step, he, -⟩ := hadv
      rw [he, Table.modify_of_ne hj]
      exact ⟨r, hr, Nat.le_refl _⟩
  | loop _ _ => exact hsame (onlyLink_onLoop w _ _ ev).requests
  | command =>
    obtain he | ⟨r₀, he⟩ := requests_onCommand w ev
    · exact hsame he
    · rw [he]
      exact ⟨r, Table.concat_some hr r₀, Nat.le_refl _⟩

/-- Its own next step takes a request on. -/
theorem Inv.advances_next (h : Inv w) (hr : w.requests[i]? = some r) {full : Bool} {ev : Event}
    (hn : r.next i full = some ev) : Advances w (w.step ev) i r := by
  unfold Request.next at hn
  split at hn
  · next hs =>
    cases hn
    rw [step_request w rfl, hr, Option.elim_some, World.onRequest, if_pos hs]
    exact ⟨.queueing, rfl, by rw [hs]; decide⟩
  · next hs =>
    cases hn
    obtain ⟨of, hof⟩ := Option.isSome_iff_exists.mp (h.registering i r hr hs)
    rw [step_request w rfl, hr, Option.elim_some]
    simp only [World.onRequest, hs, hof]
    exact ⟨.queueing, rfl, by rw [hs]; decide⟩
  · next hs =>
    cases hn
    rw [step_request w rfl, hr, Option.elim_some, World.onRequest, if_pos hs]
    exact advances_enqueue w full hs
  · next hs =>
    cases hn
    rw [step_request w rfl, hr, Option.elim_some]
    simp only [World.onRequest, World.timeout, hs]
    exact ⟨.ended .timedOut, rfl, by rw [hs]; decide⟩
  · next hs =>
    cases hn
    rw [step_request w rfl, hr, Option.elim_some]
    simp only [World.onRequest, World.timeout, hs]
    exact ⟨.ended .timedOut, rfl, by rw [hs]; decide⟩
  · cases hn

theorem Inv.safe (h : Inv w) : Safe w where
  older _ _ _ _ _ hev hl hs hn hlt := h.older hev hl hs hn hlt
  distinct := h.distinct
  decisions l hmem card hd := by
    obtain ⟨link, hl⟩ := List.mem_iff_getElem?.mp hmem
    exact (h.links link l hl).decisions card hd
  ends i r hr := by
    refine ⟨fun ev => rank_steps (step_steps w ev) hr, fun full ev hn => ?_⟩
    exact (h.advances_next hr hn).rank hr
  waits i r l m hr hw hl hmem := by
    obtain ⟨r', hr', -, hold⟩ := (h.links r.link l hl).entries m i hmem
    obtain rfl := Option.some.inj (hr.symm.trans hr')
    by_contra hc
    have hq := (hold (by simpa using hc)).2
    unfold Request.waitsOn at hw
    split at hw
    · next hs => rw [hs] at hq; cases hq
    · next hs => rw [hs] at hq; cases hq
    · cases hw

/-! ## Frames of a link that was taken -/

theorem selecting_eq (w : World) (hl : w.links[link]? = some l) :
    w.selecting link = decide (l.loop = .selecting) := by
  rw [World.selecting, hl, Option.any_some]

/-- A change of a link that does not start a pass. -/
theorem selecting_modify {links : List Link} {j : Nat} {f : Link → Link}
    (hf : ∀ l, (f l).loop = .selecting → l.loop = .selecting)
    (h : ((links.modify j f)[link]?).any (·.loop = .selecting) = true) :
    (links[link]?).any (·.loop = .selecting) = true := by
  obtain ⟨l', hl', hs⟩ := (Option.any_eq_true _ _).mp h
  obtain ⟨rfl, l, hl, rfl⟩ | ⟨-, hl⟩ := Table.modify_cases hl'
  · rw [hl, Option.any_some]
    simpa using hf l (by simpa using hs)
  · rw [hl, Option.any_some]
    exact hs

/-- A new link has no loop yet. -/
theorem selecting_install {links : List Link} {n : Link} (hn : n.loop = .notStarted)
    (h : ((links ++ [n])[link]?).any (·.loop = .selecting) = true) :
    (links[link]?).any (·.loop = .selecting) = true := by
  obtain ⟨l, hl, hs⟩ := (Option.any_eq_true _ _).mp h
  obtain hl | ⟨-, rfl⟩ := Table.concat_cases hl
  · rw [hl, Option.any_some]
    exact hs
  · simp [hn] at hs

/-- Only a poll without a shutdown starts a pass, and a frame ends it. -/
theorem selecting_onLoop (w : World) (hl : w.links[link]? = some l) {ev : Event}
    (hev : ev.loopOf = some link) (hs : (w.onLoop link l ev).selecting link = true) :
    w.selecting link = true ∧ receives link w ev = false ∨
      ev = .poll link ∧ l.loop.live = true ∧ l.shutdown = false := by
  have hset : ∀ loop, (w.setLoop link loop).selecting link = true → loop = .selecting := by
    intro loop h
    rw [selecting_eq _ (Table.modify_self hl _)] at h
    exact of_decide_eq_true h
  have hreply : ∀ m i ok, ((w.reply link l m i ok).setLoop link .polling).selecting link = true →
      False := by
    intro m i ok h
    obtain ⟨l', hl', -⟩ := loop_reply w hl m i ok
    rw [selecting_eq _ (Table.modify_self hl' _)] at h
    cases of_decide_eq_true h
  cases ev with
  | poll _ =>
    obtain rfl := Option.some.inj hev
    simp only [World.onLoop] at hs
    split at hs
    · next hp =>
      cases hd : l.shutdown with
      | true =>
        rw [hd, if_pos rfl] at hs
        cases hset _ hs
      | false =>
        refine .inr ⟨rfl, ?_, rfl⟩
        rcases hp with hp | hp <;> rw [hp] <;> rfl
    · exact .inl ⟨hs, rfl⟩
  | receive _ frame =>
    obtain rfl := Option.some.inj hev
    simp only [World.onLoop] at hs
    split at hs
    · cases hset _ hs
    · next hne =>
      rw [selecting_eq w hl] at hs
      exact absurd (of_decide_eq_true hs) hne
  | apply _ =>
    simp only [World.onLoop] at hs
    split at hs
    · next frame _ =>
      cases frame with
      | commandResult | listing | unpairResult => exact (hreply _ _ _ hs).elim
      | last | other => cases hset _ hs
    · exact .inl ⟨hs, rfl⟩
  | clearMap _ =>
    simp only [World.onLoop] at hs
    split at hs
    · next rest _ =>
      cases rest with
      | nil => cases hset _ hs
      | cons =>
        rw [World.clearMap, selecting_eq _ (Table.modify_self hl _)] at hs
        cases of_decide_eq_true hs
    · exact .inl ⟨hs, rfl⟩
  | remove _ =>
    simp only [World.onLoop] at hs
    split at hs
    · unfold World.removeConnectionIfCurrent at hs
      split at hs
      · cases hset _ hs
      split at hs
      · cases hset _ hs
      · cases hset _ hs
    · exact .inl ⟨hs, rfl⟩
  | hangUp _ | close _ | emit _ =>
    simp only [World.onLoop] at hs
    split at hs
    · cases hset _ hs
    · exact .inl ⟨hs, rfl⟩
  | _ => cases hev

/-- What the other steps do to the links and the slot. -/
structure Outside (w w' : World) : Prop where
  slot : w'.slot = w.slot ∨ w'.slot = none ∨ w'.slot = some w.links.length
  length : w.links.length ≤ w'.links.length
  selecting : ∀ link, w'.selecting link = true → w.selecting link = true

theorem Outside.same (hs : w'.slot = w.slot ∨ w'.slot = none) (hl : w'.links = w.links) :
    Outside w w' := by
  refine ⟨hs.imp_right .inl, by rw [hl], fun link h => ?_⟩
  rw [World.selecting, hl] at h
  exact h

theorem Outside.modify {j : Nat} {f : Link → Link} (hs : w'.slot = w.slot)
    (hl : w'.links = w.links.modify j f) (hf : ∀ l, (f l).loop = .selecting → l.loop = .selecting) :
    Outside w w' := by
  refine ⟨.inl hs, by rw [hl, List.length_modify], fun link h => ?_⟩
  rw [World.selecting, hl] at h
  exact selecting_modify hf h

theorem Outside.finish (i : Nat) (r : Request) (outcome : Outcome) :
    Outside w (w.finish i r outcome) :=
  .modify rfl rfl fun _ h => h

/-- A request starts no loop and ends none. -/
theorem Outside.onRequest (i : Nat) (r : Request) (ev : Event) :
    Outside w (w.onRequest i r ev) := by
  have hsame : Outside w w := .same (.inl rfl) rfl
  cases ev with
  | registerListing _ | registerUnpair _ =>
    simp only [World.onRequest]
    split
    · exact .modify rfl rfl fun _ h => h
    · exact hsame
  | enqueue _ full =>
    simp only [World.onRequest]
    split
    · unfold World.enqueue
      split
      · next hok =>
        obtain ⟨_, -, -, rfl⟩ := tryEnqueue_ok hok
        exact .modify rfl rfl fun _ h => h
      · exact .finish ..
    · exact hsame
  | wake _ =>
    simp only [World.onRequest, World.wake]
    split
    · split
      · split
        · exact .finish ..
        · exact .same (.inl rfl) rfl
      split
      · exact .finish ..
      split
      · exact hsame
      · exact .finish ..
    · split
      · exact hsame
      split
      · exact .finish ..
      split
      · exact hsame
      · exact .finish ..
    · exact hsame
  | timeout _ =>
    simp only [World.onRequest, World.timeout]
    split
    · exact .finish ..
    · exact .finish ..
    · exact hsame
  | _ => exact hsame

theorem Outside.install (id : Nat) (peerDeviceId : DeviceId) (pairId : PairId) :
    Outside w (w.install id peerDeviceId pairId) := by
  refine ⟨.inr (.inr rfl), ?_, fun link h => selecting_install rfl h⟩
  simp [World.install]

/-- A command starts a loop at most. -/
theorem Outside.onCommand (ev : Event) : Outside w (w.onCommand ev) := by
  have hsame : Outside w w := .same (.inl rfl) rfl
  cases ev with
  | connect =>
    simp only [World.onCommand, World.connect]
    split
    · split
      · exact .same (.inl rfl) rfl
      · exact .same (.inr rfl) rfl
    · exact hsame
  | install peerDeviceId pairId =>
    simp only [World.onCommand]
    split
    · exact .install ..
    · exact hsame
  | disconnect =>
    simp only [World.onCommand]
    split
    · exact hsame
    · exact .same (.inr rfl) rfl
  | removeHost device =>
    simp only [World.onCommand, World.removeHost]
    split
    · split
      · exact .same (.inl rfl) rfl
      · exact .same (.inl rfl) rfl
    · exact hsame
  | removeTake forgotten =>
    simp only [World.onCommand, World.takeConnectionForPeer]
    split
    · split
      · split
        · split
          · exact .same (.inl rfl) rfl
          · exact .same (.inr rfl) rfl
        · exact .same (.inl rfl) rfl
      · exact hsame
    · exact hsame
  | request listing =>
    simp only [World.onCommand]
    split
    · exact hsame
    · exact .modify rfl rfl fun _ h => h
  | decide card =>
    simp only [World.onCommand, World.decide]
    split
    · exact hsame
    · split
      · exact .same (.inl rfl) rfl
      · exact hsame
  | _ => exact hsame

theorem Outside.drop (t : Nat) (k : Taker) : Outside w (w.drop t k) := by
  unfold World.drop
  dsimp only
  split
  · exact .modify rfl rfl fun _ h => h
  · exact .modify rfl rfl fun _ h => h
  · exact .modify rfl rfl fun _ h => h

/-- So do all steps that are not of a loop. -/
theorem Outside.steps {ev : Event} (hs : Steps w ev w') (hev : ev.loopOf = none) :
    Outside w w' := by
  cases hs with
  | idle | giveUp | start => exact .same (.inl rfl) rfl
  | spawn => exact .modify rfl rfl nofun
  | clear => exact .modify rfl rfl fun _ h => h
  | drop => exact .drop _ _
  | decision =>
    obtain ⟨-, hslot, hlinks | hlinks⟩ := decision_keeps _ _ _ _
    · exact .same (.inl hslot) hlinks
    · exact .modify hslot hlinks fun _ h => h
  | request => exact .onRequest ..
  | loop hl => rw [hev] at hl; cases hl
  | command => exact .onCommand _

/-- The link is out of `state`. -/
def Out (w : World) (link : Nat) : Prop := link < w.links.length ∧ w.slot ≠ some link

/-- It does not come back. -/
theorem Out.step (h : Out w link) (ev : Event) : Out (w.step ev) link := by
  cases hev : ev.loopOf with
  | none =>
    have ho := Outside.steps (step_steps w ev) hev
    refine ⟨Nat.lt_of_lt_of_le h.1 ho.length, ?_⟩
    obtain hs | hs | hs := ho.slot
    · rw [hs]
      exact h.2
    · rw [hs]
      nofun
    · rw [hs]
      have := h.1
      simp
      omega
  | some j =>
    rw [step_loop w hev]
    cases hl : w.links[j]? with
    | none => exact h
    | some l =>
      have ho := onlyLink_onLoop w j l ev
      refine ⟨ho.length ▸ h.1, ?_⟩
      rcases ho.slot with hs | hs
      · exact hs ▸ h.2
      · exact hs ▸ nofun

/-- A pass that starts after the link was taken ends its loop. -/
theorem Inv.receives_le (h : Inv w) (hout : Out w link) {ev : Event} (hm : Meets w ev) :
    (receives link w ev).toNat + ((w.step ev).selecting link).toNat ≤ (w.selecting link).toNat := by
  have hrec : receives link w ev = true → w.selecting link = true := by
    intro hr
    unfold receives at hr
    split at hr
    · exact (Bool.and_eq_true_iff.mp hr).2
    · cases hr
  suffices hsel : (w.step ev).selecting link = true → w.selecting link = true ∧ receives link w ev = false by
    cases hs : (w.step ev).selecting link with
    | true =>
      obtain ⟨hw, hr⟩ := hsel hs
      rw [hw, hr]
      decide
    | false =>
      cases hr : receives link w ev with
      | true => rw [hrec hr]; decide
      | false => exact Nat.zero_le _
  intro hs
  cases hev : ev.loopOf with
  | none =>
    refine ⟨(Outside.steps (step_steps w ev) hev).selecting link hs, ?_⟩
    cases ev with
    | receive => cases hev
    | _ => rfl
  | some j =>
    rw [step_loop w hev] at hs
    by_cases hj : link = j
    · subst hj
      obtain ⟨l, hl⟩ : ∃ l, w.links[link]? = some l := ⟨_, List.getElem?_eq_getElem hout.1⟩
      rw [hl, Option.elim_some] at hs
      obtain hsame | ⟨rfl, hlive, hd⟩ := selecting_onLoop w hl hev hs
      · exact hsame
      · -- It was taken, and who took it has dropped it.
        obtain hslot | hdrop | ⟨k, hk, hlink, hdropped⟩ := (h.links link _ hl).taken hlive
        · exact absurd hslot hout.2
        · rw [hd] at hdrop
          cases hdrop
        · rw [hm k hk hlink] at hdropped
          cases hdropped
    · cases hl : w.links[j]? with
      | none =>
        rw [hl, Option.elim_none] at hs
        refine ⟨hs, ?_⟩
        cases ev with
        | receive => obtain rfl := Option.some.inj hev; simp [receives, Ne.symm hj]
        | _ => rfl
      | some l =>
        rw [hl, Option.elim_some, World.selecting, (onlyLink_onLoop w j l ev).other link hj] at hs
        refine ⟨hs, ?_⟩
        cases ev with
        | receive => obtain rfl := Option.some.inj hev; simp [receives, Ne.symm hj]
        | _ => rfl

theorem inv_start : Inv {} :=
  ⟨nofun, nofun, List.nodup_nil, nofun, nofun, nofun, nofun, nofun⟩

/-- In every run whose steps are in none of the windows: what is said of every state (`Safe`), and
of a link that is out of `state`: its loop takes one more frame if it was in a pass, and none
otherwise. -/
theorem generations_safe (pre post : List Event) (h : Run.Along World.step Meets {} (pre ++ post)) :
    Safe (Run.run World.step {} pre) ∧
      ∀ link, Out (Run.run World.step {} pre) link →
        Run.count World.step (receives link) (Run.run World.step {} pre) post ≤
          ((Run.run World.step {} pre).selecting link).toNat := by
  obtain ⟨hpre, hpost⟩ := Run.along_append.mp h
  have hinv : Inv (Run.run World.step {} pre) :=
    hpre.induction inv_start fun _ _ hw hm => hw.step hm (step_steps _ _)
  refine ⟨hinv.safe, fun link hout => ?_⟩
  refine Run.Along.count_le (I := fun w => Inv w ∧ Out w link) (fun w => (w.selecting link).toNat) hpost
    ⟨hinv, hout⟩ (fun w ev hw hm => ?_) fun w ev hw hm => ?_
  · exact ⟨hw.1.step hm (step_steps _ _), hw.2.step ev⟩
  · exact hw.1.receives_le hw.2 hm

/-- A link is made, and its loop starts. -/
def sampleStart : List Event := [.connect, .start, .install ⟨1⟩ ⟨2⟩, .spawn, .poll 0]

/-- The reader is closed, and the loop clears the maps. -/
def sampleEnd : List Event := .hangUp 0 :: List.replicate 7 (.clearMap 0)

/-- A request waits; the user disconnects in the middle of a pass, and connects again. -/
theorem generations_safe_reconnect :
    let pre := sampleStart ++ [.request none, .enqueue 0 false, .disconnect]
    let post : List Event := [.receive 0 .other, .apply 0, .clear 0, .drop 0, .wake 0, .poll 0, .connect, .start,
      .install ⟨1⟩ ⟨3⟩, .spawn, .poll 1]
    Safe (Run.run World.step {} pre) ∧
      Run.count World.step (receives 0) (Run.run World.step {} pre) post ≤ 1 := by
  obtain ⟨hsafe, hcount⟩ := generations_safe
    (sampleStart ++ [.request none, .enqueue 0 false, .disconnect])
    [.receive 0 .other, .apply 0, .clear 0, .drop 0, .wake 0, .poll 0, .connect, .start,
      .install ⟨1⟩ ⟨3⟩, .spawn, .poll 1] (by decide)
  exact ⟨hsafe, hcount 0 ⟨by decide, by decide⟩⟩

/-- The loop has cleared its maps and closes the endpoint. A request is registered and queued, and
waits although no task is left that could clear its map. -/
def lateRequest : List Event :=
  sampleStart ++ sampleEnd ++ [.request none, .enqueue 0 false, .close 0, .remove 0, .emit 0]

/-- The loop has removed its `Connection`. Before it tells the user, a new link is made. -/
def lateEvent : List Event :=
  sampleStart ++ sampleEnd ++ [.close 0, .remove 0, .connect, .start, .install ⟨1⟩ ⟨3⟩]

/-- The `Connection` was taken, and is not dropped yet. -/
def lateDrop : List Event := sampleStart ++ [.receive 0 .other, .apply 0, .disconnect]

/-- A request waits on a link that has ended, with nobody to clear its map. A loop tells the user
about a disconnect while a newer generation is installed. A link that was taken outside of a pass
takes two more frames. -/
theorem windows_open :
    (¬ Safe (Run.run World.step {} lateRequest) ∧ (Run.run World.step {} lateRequest).slot = none ∧
      (Run.run World.step {} lateRequest).takers = []) ∧
    ¬ Safe (Run.run World.step {} lateEvent) ∧
    Out (Run.run World.step {} lateDrop) 0 ∧ (Run.run World.step {} lateDrop).selecting 0 = false ∧
      Run.count World.step (receives 0) (Run.run World.step {} lateDrop)
        [.poll 0, .receive 0 .other, .apply 0, .poll 0, .receive 0 .other] = 2 := by
  refine ⟨⟨fun h => ?_, by decide, by decide⟩, fun h => ?_, ⟨by decide, by decide⟩, by decide, by decide⟩
  · have := h.waits 0 _ _ .pending rfl rfl rfl (by decide)
    cases this
  · have := (h.older (.emit 0) 0 _ 1 _ rfl rfl rfl rfl (by decide)).2
    revert this
    decide

end Generations

end Phone

end Portty
