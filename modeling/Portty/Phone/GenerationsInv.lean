import Portty.Phone.Generations

/-!
# The invariant of the generations

Three windows are left open by the code, and `Meets` says that a step is in none of them:

* From the clean-up of a session loop to its return the queue still takes frames. A request that is
  registered there waits until its time is over.
* Between the removal of the `Connection` and the event for the user interface a newer generation
  can be installed.
* Between the `take` of a `Connection` and its drop the loop does not know that it was taken.
-/

namespace Portty

namespace Phone

namespace Generations

/-! ## The condition -/

/-- The loop has cleared the map. -/
def Loop.cleared (m : PendingMap) : Loop → Bool
  | .clearing rest => !rest.contains m
  | .closing | .removing | .emitting | .returned => true
  | _ => false

/-- The loop has cleared the map and not yet returned. -/
def InWindow (l : Link) (m : PendingMap) : Prop := l.loop.cleared m = true ∧ l.loop ≠ .returned

instance (l : Link) (m : PendingMap) : Decidable (InWindow l m) :=
  inferInstanceAs (Decidable (_ ∧ _))

/-- The step is in none of the windows. -/
def Meets (w : World) : Event → Prop
  | .request _ => ∀ link ∈ w.slot, ∀ l ∈ w.links[link]?, ¬ InWindow l .pending
  | .registerListing i => ∀ r ∈ w.requests[i]?, ∀ l ∈ w.links[r.link]?, ∀ of ∈ r.listing,
      ¬ InWindow l (.listing of)
  | .registerUnpair i => ∀ r ∈ w.requests[i]?, ∀ l ∈ w.links[r.link]?, ¬ InWindow l r.map
  | .install .. => ∀ l ∈ w.links, l.loop ≠ .emitting
  | .poll link => ∀ k ∈ w.takers, k.link = link → k.dropped = true
  | _ => True

instance decidableMeets (w : World) : (ev : Event) → Decidable (Meets w ev)
  | .request _ => inferInstanceAs (Decidable (∀ link ∈ w.slot, ∀ l ∈ w.links[link]?, _))
  | .registerListing i => inferInstanceAs (Decidable (∀ r ∈ w.requests[i]?, _))
  | .registerUnpair i => inferInstanceAs (Decidable (∀ r ∈ w.requests[i]?, _))
  | .install .. => inferInstanceAs (Decidable (∀ l ∈ w.links, l.loop ≠ .emitting))
  | .poll link => inferInstanceAs (Decidable (∀ k ∈ w.takers, k.link = link → k.dropped = true))
  | .connect | .giveUp | .start | .spawn | .disconnect | .removeHost _ | .removeTake _ | .clear _ | .drop _
  | .enqueue .. | .wake _ | .timeout _ | .decide _ | .enqueueDecision .. | .receive .. | .apply _
  | .hangUp _ | .clearMap _ | .close _ | .remove _ | .emit _ => .isTrue trivial

/-! ## The invariant -/

variable {w w' : World} {link i t : Nat} {l : Link} {r : Request} {k : Taker} {m : PendingMap}
  {slot : Option Nat} {takers : List Taker} {requests : List Request}

/-- It takes frames, or will. -/
def Loop.live : Loop → Bool
  | .notStarted | .polling | .selecting | .processing _ => true
  | _ => false

/-- The request has not put its frame on the link. -/
def Step.unqueued : Step → Bool
  | .looked | .registering | .queueing => true
  | _ => false

/-- What a link and its loop have is their own. -/
structure LinkOk (slot : Option Nat) (takers : List Taker) (requests : List Request) (link : Nat)
    (l : Link) : Prop where
  emitting : l.loop = .emitting → slot = none
  decisions : ∀ card, .decision card ∈ l.outbound → card = l.id
  entries : ∀ m i, (m, i) ∈ l.entries → ∃ r : Request, requests[i]? = some r ∧ r.link = link ∧
    (l.loop.cleared m = true → l.loop = .returned ∧ r.step.unqueued = true)
  taken : l.loop.live = true →
    slot = some link ∨ l.shutdown = true ∨ ∃ k ∈ takers, k.link = link ∧ k.dropped = false

/-- The links of all generations are kept apart. -/
structure Inv (w : World) : Prop where
  links : ∀ link l, w.links[link]? = some l → LinkOk w.slot w.takers w.requests link l
  deciding : ∀ link card, (link, card) ∈ w.deciding → ∃ l : Link, w.links[link]? = some l ∧ l.id = card
  distinct : (w.links.map Link.id).Nodup
  old : ∀ l ∈ w.links, l.id < w.nextConnectionId
  starting : ∀ id, w.connecting = .starting id → id < w.nextConnectionId ∧ (∀ l ∈ w.links, l.id < id) ∧
    w.slot = none
  dialing : ∀ t, w.connecting = .dialing t → w.slot = none
  installed : ∀ link, w.connecting = .installed link →
    ∀ l : Link, w.links[link]? = some l → l.loop = .notStarted
  registering : ∀ (i : Nat) (r : Request), w.requests[i]? = some r → r.step = .registering → r.listing.isSome = true

/-- What the invariant does not speak about. -/
theorem Inv.frame (h : Inv w) (lock : Option Holder) (replies : List (Nat × PendingMap × Bool))
    (told : List Teller) : Inv { w with lock, replies, told } :=
  ⟨h.links, h.deciding, h.distinct, h.old, h.starting, h.dialing, h.installed, h.registering⟩

/-- The command that connects is over. -/
theorem Inv.connectingFree (h : Inv w) : Inv { w with connecting := .free } :=
  ⟨h.links, h.deciding, h.distinct, h.old, nofun, nofun, nofun, h.registering⟩

theorem map_id_modify (links : List Link) {f : Link → Link} (hf : ∀ l, (f l).id = l.id)
    (link : Nat) :
    (links.modify link f).map Link.id = links.map Link.id := by
  apply List.ext_getElem?
  intro j
  rw [List.getElem?_map, List.getElem?_map, List.getElem?_modify]
  by_cases hj : link = j
  · cases links[j]? with
    | none => simp
    | some l => simp [hj, hf]
  · simp [hj]

theorem mem_modify {links : List Link} {f : Link → Link} (hl : l ∈ links.modify link f) :
    ∃ l₀ ∈ links, l = l₀ ∨ l = f l₀ := by
  obtain ⟨j, hj⟩ := List.mem_iff_getElem?.mp hl
  obtain ⟨-, l₀, hl₀, rfl⟩ | ⟨-, hl⟩ := Table.modify_cases hj
  · exact ⟨l₀, List.mem_of_getElem? hl₀, .inr rfl⟩
  · exact ⟨l, List.mem_of_getElem? hl, .inl rfl⟩

/-- One link is changed, with what the links depend on. -/
theorem Inv.setLinks (h : Inv w) (link : Nat) {f : Link → Link} (hid : ∀ l, (f l).id = l.id)
    (hstart : ∀ l, w.links[link]? = some l → w.connecting = .installed link → l.loop = .notStarted →
      (f l).loop = .notStarted)
    (hself : ∀ l, w.links[link]? = some l → LinkOk w.slot takers requests link (f l))
    (hother : ∀ j l, j ≠ link → w.links[j]? = some l → LinkOk w.slot takers requests j l)
    (hreg : ∀ (i : Nat) (r : Request), requests[i]? = some r → r.step = .registering → r.listing.isSome = true) :
    Inv { w with links := w.links.modify link f, takers, requests } := by
  have hold : ∀ l ∈ w.links.modify link f, ∃ l₀ ∈ w.links, l₀.id = l.id := by
    intro l hl
    obtain ⟨l₀, hl₀, rfl | rfl⟩ := mem_modify hl
    · exact ⟨l, hl₀, rfl⟩
    · exact ⟨l₀, hl₀, (hid l₀).symm⟩
  refine ⟨?_, ?_, ?_, ?_, ?_, h.dialing, ?_, hreg⟩
  · intro j l hl
    obtain ⟨rfl, l₀, hl₀, rfl⟩ | ⟨hne, hl⟩ := Table.modify_cases hl
    · exact hself l₀ hl₀
    · exact hother j l hne hl
  · intro j card hmem
    obtain ⟨l, hl, rfl⟩ := h.deciding j card hmem
    refine ⟨_, Table.modify_some hl link f, ?_⟩
    by_cases hj : j = link
    · rw [if_pos hj, hid]
    · rw [if_neg hj]
  · exact (map_id_modify w.links hid link).symm ▸ h.distinct
  · intro l hl
    obtain ⟨l₀, hl₀, he⟩ := hold l hl
    exact he ▸ h.old l₀ hl₀
  · intro id hc
    obtain ⟨hlt, hids, hslot⟩ := h.starting id hc
    refine ⟨hlt, fun l hl => ?_, hslot⟩
    obtain ⟨l₀, hl₀, he⟩ := hold l hl
    exact he ▸ hids l₀ hl₀
  · intro j hc l hl
    obtain ⟨rfl, l₀, hl₀, rfl⟩ | ⟨-, hl⟩ := Table.modify_cases hl
    · exact hstart l₀ hl₀ hc (h.installed j hc l₀ hl₀)
    · exact h.installed j hc l hl

theorem Inv.setLink (h : Inv w) (link : Nat) {f : Link → Link} (hid : ∀ l, (f l).id = l.id)
    (hstart : ∀ l, w.links[link]? = some l → w.connecting = .installed link → l.loop = .notStarted →
      (f l).loop = .notStarted)
    (hself : ∀ l, w.links[link]? = some l → LinkOk w.slot w.takers w.requests link (f l)) :
    Inv (w.setLink link f) :=
  h.setLinks link hid hstart hself (fun j l _ hl => h.links j l hl) h.registering

/-! ## Links, one by one -/

theorem LinkOk.withTakers (h : LinkOk slot takers requests link l) {takers' : List Taker}
    (ht : ∀ k ∈ takers, k.link = link → k.dropped = false →
      ∃ k' ∈ takers', k'.link = link ∧ k'.dropped = false) :
      LinkOk slot takers' requests link l := by
  refine ⟨h.emitting, h.decisions, h.entries, fun hlive => ?_⟩
  obtain hs | hs | ⟨k, hk, hl, hd⟩ := h.taken hlive
  · exact .inl hs
  · exact .inr (.inl hs)
  · exact .inr (.inr (ht k hk hl hd))

theorem LinkOk.withRequests (h : LinkOk slot takers requests link l) {requests' : List Request}
    (hr : ∀ m i r, (m, i) ∈ l.entries → requests[i]? = some r → r.link = link →
      ∃ r' : Request, requests'[i]? = some r' ∧ r'.link = link ∧
        (l.loop.cleared m = true → r.step.unqueued = true → r'.step.unqueued = true)) :
    LinkOk slot takers requests' link l := by
  refine ⟨h.emitting, h.decisions, fun m i hmem => ?_, h.taken⟩
  obtain ⟨r, hreq, hl, hc⟩ := h.entries m i hmem
  obtain ⟨r', hreq', hl', hq⟩ := hr m i r hmem hreq hl
  exact ⟨r', hreq', hl', fun hm => ⟨(hc hm).1, hq hm (hc hm).2⟩⟩

/-- Entries are taken out of the maps. -/
theorem LinkOk.shrink (h : LinkOk slot takers requests link l) {entries : List (PendingMap × Nat)}
    (hsub : ∀ e ∈ entries, e ∈ l.entries) : LinkOk slot takers requests link { l with entries } :=
  ⟨h.emitting, h.decisions, fun m i hmem => h.entries m i (hsub _ hmem), h.taken⟩

/-- The loop goes on. A map that it has cleared now, it had cleared before. -/
theorem LinkOk.setLoop (h : LinkOk slot takers requests link l) {loop : Loop}
    (he : loop = .emitting → slot = none) (hlive : loop.live = true → l.loop.live = true)
    (hclear : ∀ m, loop.cleared m = true → l.loop.cleared m = true ∧ l.loop ≠ .returned) :
    LinkOk slot takers requests link { l with loop } := by
  refine ⟨he, h.decisions, fun m i hmem => ?_, fun hl => h.taken (hlive hl)⟩
  obtain ⟨r, hreq, hl, hc⟩ := h.entries m i hmem
  refine ⟨r, hreq, hl, fun hm => ?_⟩
  obtain ⟨hold, hne⟩ := hclear m hm
  exact absurd (hc hold).1 hne

/-- A request is put into a map. -/
theorem LinkOk.register (h : LinkOk slot takers requests link l) (hr : requests[i]? = some r)
    (hl : r.link = link) (hq : r.step.unqueued = true) (hw : ¬ InWindow l m) :
    LinkOk slot takers requests link { l with entries := l.entries ++ [(m, i)] } := by
  refine ⟨h.emitting, h.decisions, fun m' i' hmem => ?_, h.taken⟩
  obtain hmem | hmem := List.mem_append.mp hmem
  · exact h.entries m' i' hmem
  · obtain ⟨rfl, rfl⟩ := Prod.mk.inj (List.mem_singleton.mp hmem)
    refine ⟨r, hr, hl, fun hc => ⟨?_, hq⟩⟩
    by_contra hne
    exact hw ⟨hc, hne⟩

theorem LinkOk.decided (h : LinkOk slot takers requests link l) {p : Packet}
    (hp : ∀ card, p = .decision card → card = l.id) :
    LinkOk slot takers requests link { l with outbound := l.outbound ++ [p] } := by
  refine ⟨h.emitting, fun card hmem => ?_, h.entries, h.taken⟩
  obtain hmem | hmem := List.mem_append.mp hmem
  · exact h.decisions card hmem
  · exact hp card (List.mem_singleton.mp hmem).symm

theorem contains_allMaps (m : PendingMap) : allMaps.contains m = true := by
  cases m with
  | pending => rfl
  | unpairPending => rfl
  | listing of => cases of <;> rfl

/-! ## Session loops -/

theorem Inv.setLoop (h : Inv w) (hl : w.links[link]? = some l) {loop : Loop}
    (hns : l.loop ≠ .notStarted) (he : loop = .emitting → w.slot = none)
    (hlive : loop.live = true → l.loop.live = true)
    (hclear : ∀ m, loop.cleared m = true → l.loop.cleared m = true ∧ l.loop ≠ .returned) :
    Inv (w.setLoop link loop) := by
  refine h.setLink link (fun _ => rfl) (fun l' hl' _ hn => ?_) fun l' hl' => ?_
  · obtain rfl := Option.some.inj (hl.symm.trans hl')
    exact absurd hn hns
  · obtain rfl := Option.some.inj (hl.symm.trans hl')
    exact (h.links link l hl).setLoop he hlive hclear

/-- The loop still takes frames, or begins to clear. -/
theorem Inv.setLive (h : Inv w) (hl : w.links[link]? = some l) {loop : Loop}
    (hns : l.loop ≠ .notStarted)
    (hlive : l.loop.live = true) (hc : ∀ m, loop.cleared m = false) :
    Inv (w.setLoop link loop) := by
  refine h.setLoop hl hns ?_ (fun _ => hlive) ?_
  · rintro rfl
    cases hc .pending
  · intro m hm
    rw [hc m] at hm
    cases hm

theorem cleared_allMaps (m : PendingMap) : (Loop.clearing allMaps).cleared m = false := by
  rw [Loop.cleared, contains_allMaps, Bool.not_true]

theorem Inv.reply (h : Inv w) (link : Nat) (l : Link) (m : PendingMap) (i : Nat) (ok : Bool) :
    Inv (w.reply link l m i ok) := by
  unfold World.reply
  split
  · have hset : Inv (w.setLink link fun l => { l with entries := l.entries.filter (· ≠ (m, i)) }) := by
      refine h.setLink link (fun _ => rfl) (fun _ _ _ hn => hn) fun l' hl' => ?_
      exact (h.links link l' hl').shrink fun e he => (List.mem_filter.mp he).1
    exact hset.frame _ _ _
  · exact h

theorem loop_reply (w : World) (hl : w.links[link]? = some l) (m : PendingMap) (i : Nat)
    (ok : Bool) :
    ∃ l', (w.reply link l m i ok).links[link]? = some l' ∧ l'.loop = l.loop := by
  unfold World.reply
  split
  · exact ⟨_, Table.modify_self hl _, rfl⟩
  · exact ⟨l, hl, rfl⟩

/-- A loop applies a frame to the maps of its own link. -/
theorem Inv.apply (h : Inv w) (hl : w.links[link]? = some l) {frame : HostFrame}
    (hp : l.loop = .processing frame) : Inv (w.apply link l frame) := by
  have hpolling : ∀ m i ok, Inv ((w.reply link l m i ok).setLoop link .polling) := by
    intro m i ok
    obtain ⟨l', hl', he⟩ := loop_reply w hl m i ok
    refine (h.reply link l m i ok).setLive hl' ?_ ?_ fun _ => rfl
    · rw [he, hp]
      nofun
    · rw [he, hp]
      rfl
  have hns : l.loop ≠ .notStarted := by rw [hp]; nofun
  have hlive : l.loop.live = true := by rw [hp]; rfl
  cases frame with
  | commandResult req ok => exact hpolling _ _ _
  | listing of req => exact hpolling _ _ _
  | unpairResult req pairId committed => exact hpolling _ _ _
  | last => exact h.setLive hl hns hlive cleared_allMaps
  | other => exact h.setLive hl hns hlive fun _ => rfl

/-- A loop that ends clears its own entries. -/
theorem Inv.clearMap (h : Inv w) (hl : w.links[link]? = some l) {rest : List PendingMap}
    (hc : l.loop = .clearing rest) : Inv (w.clearMap link rest) := by
  have hns : l.loop ≠ .notStarted := by rw [hc]; nofun
  cases rest with
  | nil =>
    refine h.setLoop hl hns nofun nofun fun m _ => ?_
    rw [hc]
    exact ⟨rfl, nofun⟩
  | cons map rest =>
    refine h.setLink link (fun _ => rfl) (fun l' hl' _ hn => ?_) fun l' hl' => ?_
    · obtain rfl := Option.some.inj (hl.symm.trans hl')
      exact absurd hn hns
    obtain rfl := Option.some.inj (hl.symm.trans hl')
    have hok := h.links link l hl
    refine ⟨nofun, hok.decisions, fun m i hmem => ?_, nofun⟩
    obtain ⟨hmem, hne⟩ := List.mem_filter.mp hmem
    obtain ⟨r, hreq, hlink, hold⟩ := hok.entries m i hmem
    refine ⟨r, hreq, hlink, fun hm => absurd (hold ?_).1 (by rw [hc]; nofun)⟩
    rw [hc]
    simp_all [Loop.cleared]

theorem Inv.link_unique (h : Inv w) {j : Nat} {n : Link} (hl : w.links[link]? = some l)
    (hn : w.links[j]? = some n) (hid : n.id = l.id) : j = link := by
  have hj : j < (w.links.map Link.id).length := by
    simpa using (List.getElem?_eq_some_iff.mp hn).1
  refine (List.getElem?_inj hj h.distinct).mp ?_
  rw [List.getElem?_map, List.getElem?_map, hn, hl, Option.map_some, Option.map_some, hid]

/-- The `Connection` is no longer in `state`. Whoever has taken it from a loop that goes on is a
taker. -/
theorem Inv.clearSlot (h : Inv w) {takers : List Taker} (hmem : ∀ k ∈ w.takers, k ∈ takers)
    (hs : ∀ j l, w.slot = some j → w.links[j]? = some l → l.loop.live = true →
      ∃ k ∈ takers, k.link = j ∧ k.dropped = false) : Inv { w with slot := none, takers } := by
  refine ⟨fun j l hl => ?_, h.deciding, h.distinct, h.old, fun id hc => ?_, fun _ _ => rfl, h.installed,
    h.registering⟩
  · have hok := h.links j l hl
    refine ⟨fun _ => rfl, hok.decisions, hok.entries, fun hlive => ?_⟩
    obtain hslot | hd | ⟨k, hk, he⟩ := hok.taken hlive
    · exact .inr (.inr (hs j l hslot hl hlive))
    · exact .inr (.inl hd)
    · exact .inr (.inr ⟨k, hmem k hk, he⟩)
  · obtain ⟨hlt, hids, -⟩ := h.starting id hc
    exact ⟨hlt, hids, rfl⟩

/-- The loop removes its own `Connection`, or none. -/
theorem Inv.removeConnectionIfCurrent (h : Inv w) (hl : w.links[link]? = some l)
    (hr : l.loop = .removing) : Inv (w.removeConnectionIfCurrent link l) := by
  have hns : l.loop ≠ .notStarted := by rw [hr]; nofun
  have hclear : ∀ m, l.loop.cleared m = true ∧ l.loop ≠ .returned := by
    intro m
    rw [hr]
    exact ⟨rfl, nofun⟩
  have hreturned : Inv (w.setLoop link .returned) :=
    h.setLoop hl hns nofun nofun fun m _ => hclear m
  unfold World.removeConnectionIfCurrent
  split
  · exact hreturned
  next current hslot =>
  split
  swap
  · exact hreturned
  next hid =>
  obtain ⟨n, hn, hid⟩ := (Option.any_eq_true _ _).mp hid
  obtain rfl : current = link := h.link_unique hl hn (by simpa using hid)
  have hgone : Inv { w with slot := none } := by
    refine h.clearSlot (fun _ hk => hk) fun j l' hj hl' hlive => ?_
    obtain rfl := Option.some.inj (hslot.symm.trans hj)
    obtain rfl := Option.some.inj (hl.symm.trans hl')
    rw [hr] at hlive
    cases hlive
  exact hgone.setLoop hl hns (fun _ => rfl) nofun fun m _ => hclear m

theorem Inv.onLoop (h : Inv w) (hl : w.links[link]? = some l) (ev : Event) :
    Inv (w.onLoop link l ev) := by
  cases ev with
  | poll _ =>
    simp only [World.onLoop]
    split
    · next hp =>
      have hns : l.loop ≠ .notStarted := by rcases hp with hp | hp <;> rw [hp] <;> nofun
      have hlive : l.loop.live = true := by rcases hp with hp | hp <;> rw [hp] <;> rfl
      split
      · exact h.setLive hl hns hlive cleared_allMaps
      · exact h.setLive hl hns hlive fun _ => rfl
    · exact h
  | receive _ frame =>
    simp only [World.onLoop]
    split
    · next hs => exact h.setLive hl (by rw [hs]; nofun) (by rw [hs]; rfl) fun _ => rfl
    · exact h
  | apply _ =>
    simp only [World.onLoop]
    split
    · next hp => exact h.apply hl hp
    · exact h
  | hangUp _ =>
    simp only [World.onLoop]
    split
    · next hs => exact h.setLive hl (by rw [hs]; nofun) (by rw [hs]; rfl) cleared_allMaps
    · exact h
  | clearMap _ =>
    simp only [World.onLoop]
    split
    · next hc => exact h.clearMap hl hc
    · exact h
  | close _ =>
    simp only [World.onLoop]
    split
    · next hc =>
      refine h.setLoop hl (by rw [hc]; nofun) nofun nofun fun m _ => ?_
      rw [hc]
      exact ⟨rfl, nofun⟩
    · exact h
  | remove _ =>
    simp only [World.onLoop]
    split
    · next hr => exact h.removeConnectionIfCurrent hl hr.1
    · exact h
  | emit _ =>
    simp only [World.onLoop]
    split
    · next he =>
      have hset : Inv (w.setLoop link .returned) := by
        refine h.setLoop hl (by rw [he]; nofun) nofun nofun fun m _ => ?_
        rw [he]
        exact ⟨rfl, nofun⟩
      exact hset.frame _ _ _
    · exact h
  | _ => exact h

/-! ## Commands -/

theorem Inv.take (h : Inv w) (hs : w.slot = some link) (command : Command) :
    Inv (w.take link command) := by
  refine h.clearSlot (fun _ hk => List.mem_append_left _ hk) fun j l hj _ _ => ?_
  obtain rfl := Option.some.inj (hs.symm.trans hj)
  exact ⟨{ link, command }, List.mem_append_right _ List.mem_cons_self, rfl, rfl⟩

theorem Inv.connect (h : Inv w) : Inv w.connect := by
  unfold World.connect
  split
  · next hs =>
    exact ⟨h.links, h.deciding, h.distinct, h.old, nofun, fun _ _ => hs, nofun, h.registering⟩
  · next link hs =>
    have htake := h.take hs .connect
    exact ⟨htake.links, htake.deciding, htake.distinct, htake.old, nofun, fun _ _ => rfl, nofun,
      htake.registering⟩

/-- A new generation. Nothing was installed, and no loop is about to tell the user. -/
theorem Inv.install (h : Inv w) {id : Nat} (hc : w.connecting = .starting id)
    (hm : ∀ l ∈ w.links, l.loop ≠ .emitting) (peerDeviceId : DeviceId) (pairId : PairId) :
    Inv (w.install id peerDeviceId pairId) := by
  obtain ⟨hlt, hids, hslot⟩ := h.starting id hc
  refine ⟨fun j l hl => ?_, fun j card hmem => ?_, ?_, fun l hl => ?_, nofun, nofun, fun j hj l hl => ?_,
    h.registering⟩
  · obtain hl | ⟨rfl, rfl⟩ := Table.concat_cases hl
    · have hok := h.links j l hl
      refine ⟨fun he => absurd he (hm l (List.mem_of_getElem? hl)), hok.decisions, hok.entries,
        fun hlive => .inr ?_⟩
      refine (hok.taken hlive).resolve_left ?_
      rw [hslot]
      nofun
    · exact ⟨nofun, fun _ hmem => absurd hmem List.not_mem_nil,
        fun _ _ hmem => absurd hmem List.not_mem_nil, fun _ => .inl rfl⟩
  · obtain ⟨l, hl, hid⟩ := h.deciding j card hmem
    exact ⟨l, Table.concat_some hl _, hid⟩
  · show ((w.links ++ [_]).map Link.id).Nodup
    rw [List.map_append, List.nodup_append]
    refine ⟨h.distinct, by simp, fun a ha b hb => ?_⟩
    obtain ⟨l, hl, rfl⟩ := List.mem_map.mp ha
    have hb : b = id := List.mem_singleton.mp hb
    rw [hb]
    exact Nat.ne_of_lt (hids l hl)
  · obtain hl | hl := List.mem_append.mp hl
    · exact h.old l hl
    · rw [List.mem_singleton.mp hl]
      exact hlt
  · obtain rfl := Connecting.installed.inj hj
    obtain hl | ⟨-, rfl⟩ := Table.concat_cases hl
    · have := (List.getElem?_eq_some_iff.mp hl).1
      omega
    · rfl

theorem Inv.spawn (h : Inv w) (hc : w.connecting = .installed link) :
    Inv { w.setLoop link .polling with connecting := .free } := by
  refine h.connectingFree.setLink link ?_ ?_ fun l hl => ?_
  · exact fun _ => rfl
  · exact fun _ _ hfree => nomatch hfree
  · have hns := h.installed link hc l hl
    refine (h.links link l hl).setLoop nofun (fun _ => ?_) nofun
    rw [hns]
    rfl

theorem linkOf_eq {device : DeviceId} (h : w.linkOf device = some link) : w.slot = some link :=
  (Option.filter_eq_some_iff.mp h).1

theorem Inv.takeConnectionForPeer (h : Inv w) (device : DeviceId) :
    Inv (w.takeConnectionForPeer device) := by
  unfold World.takeConnectionForPeer
  split
  · exact h.connectingFree
  · next hl =>
    have htake := h.take (linkOf_eq hl) .removeHost
    exact ⟨htake.links, htake.deciding, htake.distinct, htake.old, nofun, nofun, nofun,
      htake.registering⟩

/-- The takers are the same, but for what one of them has done. -/
theorem mem_set_taker {k' x : Taker} (ht : w.takers[t]? = some k) (hk' : k' ∈ w.takers) :
    k' = k ∨ k' ∈ w.takers.set t x := by
  obtain ⟨j, hj⟩ := List.mem_iff_getElem?.mp hk'
  by_cases hjt : t = j
  · subst hjt
    exact .inl (Option.some.inj (hj.symm.trans ht))
  · refine .inr (List.mem_of_getElem? (i := j) ?_)
    rw [List.getElem?_set_ne hjt, hj]

theorem mem_set_self {x : Taker} (ht : w.takers[t]? = some k) : x ∈ w.takers.set t x := by
  refine List.mem_of_getElem? (i := t) ?_
  rw [List.getElem?_set_self (List.getElem?_eq_some_iff.mp ht).1]

theorem Inv.clear (h : Inv w) (ht : w.takers[t]? = some k) : Inv (w.clear t k) := by
  have hok : ∀ j l, w.links[j]? = some l →
      LinkOk w.slot (w.takers.set t { k with cleared := true }) w.requests j l := by
    intro j l hl
    refine (h.links j l hl).withTakers fun k' hk' hlink hd => ?_
    obtain rfl | hmem := mem_set_taker ht hk'
    · exact ⟨_, mem_set_self ht, hlink, hd⟩
    · exact ⟨k', hmem, hlink, hd⟩
  refine h.setLinks k.link ?_ ?_ (fun l hl => ?_) (fun j l _ hl => hok j l hl) h.registering
  · exact fun _ => rfl
  · exact fun _ _ _ hn => hn
  · exact (hok k.link l hl).shrink fun e he => (List.mem_filter.mp he).1

/-- A connection that was taken is dropped. -/
theorem Inv.drop (h : Inv w) (ht : w.takers[t]? = some k) : Inv (w.drop t k) := by
  have hset : Inv { w with
      takers := w.takers.set t { k with dropped := true }
      links := w.links.modify k.link fun l => { l with shutdown := true } } := by
    refine h.setLinks k.link ?_ ?_ (fun l hl => ?_) (fun j l hne hl => ?_) h.registering
    · exact fun _ => rfl
    · exact fun _ _ _ hn => hn
    · have hok := h.links k.link l hl
      exact ⟨hok.emitting, hok.decisions, hok.entries, fun _ => .inr (.inl rfl)⟩
    · refine (h.links j l hl).withTakers fun k' hk' hlink hd => ?_
      obtain rfl | hmem := mem_set_taker ht hk'
      · exact absurd hlink.symm hne
      · exact ⟨k', hmem, hlink, hd⟩
  unfold World.drop
  dsimp only
  split
  · exact hset.frame _ _ _
  · exact hset.frame _ _ _
  · exact hset.connectingFree

/-! ## Requests -/

theorem Inv.setRequests (h : Inv w) {requests : List Request}
    (hlinks : ∀ j l, w.links[j]? = some l → LinkOk w.slot w.takers requests j l)
    (hreg : ∀ (i : Nat) (r : Request), requests[i]? = some r → r.step = .registering →
      r.listing.isSome = true) : Inv { w with requests } :=
  ⟨hlinks, h.deciding, h.distinct, h.old, h.starting, h.dialing, h.installed, hreg⟩

/-- A new request, at the end of the table. -/
theorem LinkOk.addRequest (h : LinkOk slot takers requests link l) (r : Request) :
    LinkOk slot takers (requests ++ [r]) link l :=
  h.withRequests fun _ _ r' _ hr' hl => ⟨r', Table.concat_some hr' r, hl, fun _ hq => hq⟩

theorem Inv.registering_add (h : Inv w) (hr : r.step = .registering → r.listing.isSome = true)
    (i : Nat)
    (r' : Request) (hi : (w.requests ++ [r])[i]? = some r') (hs : r'.step = .registering) :
    r'.listing.isSome = true := by
  obtain hi | ⟨-, rfl⟩ := Table.concat_cases hi
  · exact h.registering i r' hi hs
  · exact hr hs

theorem Inv.removeHost (h : Inv w) (device : DeviceId) : Inv (w.removeHost device) := by
  unfold World.removeHost
  split
  · exact ⟨h.links, h.deciding, h.distinct, h.old, nofun, nofun, nofun, h.registering⟩
  · exact ⟨fun j l hl => (h.links j l hl).addRequest _, h.deciding, h.distinct, h.old, nofun, nofun, nofun,
      h.registering_add nofun⟩

theorem Inv.request (h : Inv w) (hm : ∀ l, w.links[link]? = some l → ¬ InWindow l .pending)
    (listing : Option Listing) : Inv (w.request link listing) := by
  unfold World.request
  dsimp only
  refine Inv.frame (h.setLinks link ?_ ?_ (fun l hl => ?_) (fun j l _ hl => (h.links j l hl).addRequest _)
    (h.registering_add ?_)) _ _ _
  · exact fun _ => rfl
  · exact fun _ _ _ hn => hn
  · refine ((h.links link l hl).addRequest _).register List.getElem?_concat_length rfl ?_ (hm l hl)
    split <;> rfl
  · intro hs
    by_contra hnone
    simp [hnone] at hs

/-- One request goes on to another step. -/
theorem LinkOk.setRequest (h : LinkOk slot takers requests link l) (hr : requests[i]? = some r)
    (step : Step)
    (hq : ∀ m, (m, i) ∈ l.entries → l.loop.cleared m = true → step.unqueued = true) :
    LinkOk slot takers (requests.modify i fun r => { r with step }) link l := by
  refine h.withRequests fun m j r' hmem hr' hl => ⟨_, Table.modify_some hr' i _, ?_⟩
  by_cases hj : j = i
  · subst hj
    rw [if_pos rfl]
    exact ⟨hl, fun hc _ => hq m hmem hc⟩
  · rw [if_neg hj]
    exact ⟨hl, fun _ hold => hold⟩

theorem Inv.registering_set (h : Inv w) {step : Step} (hs : step ≠ .registering) (j : Nat)
    (r' : Request)
    (hj : (w.requests.modify i fun r => { r with step })[j]? = some r')
    (hreg : r'.step = .registering) : r'.listing.isSome = true := by
  obtain ⟨-, r, -, rfl⟩ | ⟨-, hj⟩ := Table.modify_cases hj
  · exact absurd hreg hs
  · exact h.registering j r' hj hreg

/-- A request is put into another map. -/
theorem Inv.registerNext (h : Inv w) (hr : w.requests[i]? = some r)
    (hm : ∀ l, w.links[r.link]? = some l → ¬ InWindow l m) :
    Inv ((w.register r.link m i).setRequest i .queueing) := by
  have hset : ∀ j l, w.links[j]? = some l →
      LinkOk w.slot w.takers (w.requests.modify i fun r => { r with step := .queueing }) j l :=
    fun j l hl => (h.links j l hl).setRequest hr .queueing fun _ _ _ => rfl
  refine h.setLinks r.link ?_ ?_ (fun l hl => ?_) (fun j l _ hl => hset j l hl) (h.registering_set nofun)
  · exact fun _ => rfl
  · exact fun _ _ _ hn => hn
  · exact (hset r.link l hl).register (Table.modify_self hr _) rfl rfl (hm l hl)

/-- The entries of a request are on its own link. -/
theorem Inv.entry_link (h : Inv w) (hr : w.requests[i]? = some r) (hl : w.links[link]? = some l)
    (hmem : (m, i) ∈ l.entries) : r.link = link := by
  obtain ⟨r', hr', hlink, -⟩ := (h.links link l hl).entries m i hmem
  obtain rfl := Option.some.inj (hr.symm.trans hr')
  exact hlink

theorem Inv.finish (h : Inv w) (hr : w.requests[i]? = some r) (outcome : Outcome) :
    Inv (w.finish i r outcome) := by
  refine h.setLinks r.link ?_ ?_ (fun l hl => ?_) (fun j l hne hl => ?_) (h.registering_set nofun)
  · exact fun _ => rfl
  · exact fun _ _ _ hn => hn
  · refine LinkOk.setRequest ?_ hr _ fun m hmem => ?_
    · exact (h.links r.link l hl).shrink fun e he => (List.mem_filter.mp he).1
    · have := (List.mem_filter.mp hmem).2
      simp at this
  · refine (h.links j l hl).setRequest hr _ fun m hmem => ?_
    exact absurd (h.entry_link hr hl hmem).symm hne

/-- `try_enqueue` fails, or the loop has not returned. -/
theorem tryEnqueue_ok {p : Link → Packet} {full : Bool} (h : w.tryEnqueue link p full = .ok w') :
    ∃ l, w.links[link]? = some l ∧ l.loop ≠ .returned ∧
      w' = w.setLink link fun l => { l with outbound := l.outbound ++ [p l] } := by
  unfold World.tryEnqueue at h
  split at h
  · cases h
  next l hl =>
  split at h
  · cases h
  next hne =>
  split at h
  · cases h
  · cases h
    exact ⟨l, hl, hne, rfl⟩

/-- A request puts its frame on the link that it looked up. -/
theorem Inv.enqueue (h : Inv w) (hr : w.requests[i]? = some r) (full : Bool) :
    Inv (w.enqueue i r full) := by
  unfold World.enqueue
  split
  · next w' hok =>
    obtain ⟨l, hl, hne, rfl⟩ := tryEnqueue_ok hok
    have hset : ∀ j l, w.links[j]? = some l →
        LinkOk w.slot w.takers (w.requests.modify i fun r => { r with step := .waiting }) j l := by
      intro j l' hl'
      refine (h.links j l' hl').setRequest hr .waiting fun m hmem hc => ?_
      -- A map that was cleared has no entry as long as the loop has not returned.
      obtain rfl := h.entry_link hr hl' hmem
      obtain rfl := Option.some.inj (hl.symm.trans hl')
      obtain ⟨_, _, _, hold⟩ := (h.links r.link l hl).entries m i hmem
      exact absurd (hold hc).1 hne
    refine h.setLinks r.link ?_ ?_ (fun l hl => ?_) (fun j l _ hl => hset j l hl) (h.registering_set nofun)
    · exact fun _ => rfl
    · exact fun _ _ _ hn => hn
    · refine (hset r.link l hl).decided fun card hp => ?_
      unfold World.packet at hp
      split at hp <;> cases hp
  · exact h.finish hr _

/-- A request that waits is answered, or its entry was cleared. -/
theorem Inv.wake (h : Inv w) (hr : w.requests[i]? = some r) : Inv (w.wake i r) := by
  unfold World.wake
  split
  · next hs =>
    split
    · split
      · exact h.finish hr _
      · refine h.setRequests (fun j l hl => ?_) (h.registering_set nofun)
        refine (h.links j l hl).setRequest hr _ fun m hmem hc => ?_
        -- It was queued, so its map is not one that was cleared.
        obtain ⟨r', hr', -, hold⟩ := (h.links j l hl).entries m i hmem
        obtain rfl := Option.some.inj (hr.symm.trans hr')
        have := (hold hc).2
        rw [hs] at this
        cases this
    split
    · exact h.finish hr _
    split
    · exact h
    · exact h.finish hr _
  · split
    · exact h
    split
    · exact h.finish hr _
    split
    · exact h
    · exact h.finish hr _
  · exact h

theorem Inv.timeout (h : Inv w) (hr : w.requests[i]? = some r) : Inv (w.timeout i r) := by
  unfold World.timeout
  split
  · exact h.finish hr _
  · exact h.finish hr _
  · exact h

theorem Inv.onRequest (h : Inv w) (hr : w.requests[i]? = some r) {ev : Event}
    (hev : ev.requestOf = some i)
    (hm : Meets w ev) : Inv (w.onRequest i r ev) := by
  cases ev with
  | registerListing j =>
    obtain rfl := Option.some.inj hev
    simp only [World.onRequest]
    split
    · next hlisting =>
      exact (h.registerNext hr fun l hl => hm r hr l hl _ hlisting).frame _ _ _
    · exact h
  | registerUnpair j =>
    obtain rfl := Option.some.inj hev
    simp only [World.onRequest]
    split
    · exact h.registerNext hr fun l hl => hm r hr l hl
    · exact h
  | enqueue j full =>
    simp only [World.onRequest]
    split
    · exact h.enqueue hr full
    · exact h
  | wake j => exact h.wake hr
  | timeout j => exact h.timeout hr
  | _ => cases hev

/-! ## Decisions -/

/-- A decision is for the link of its card. -/
theorem Inv.decide (h : Inv w) (card : Nat) : Inv (w.decide card) := by
  unfold World.decide
  split
  · exact h
  next link hs =>
  split
  · next hid =>
    refine ⟨h.links, fun j c hmem => ?_, h.distinct, h.old, h.starting, h.dialing, h.installed,
      h.registering⟩
    obtain hmem | hmem := List.mem_append.mp hmem
    · exact h.deciding j c hmem
    · obtain ⟨rfl, rfl⟩ := Prod.mk.inj (List.mem_singleton.mp hmem)
      obtain ⟨l, hl, hid⟩ := (Option.any_eq_true _ _).mp hid
      exact ⟨l, hl, by simpa using hid⟩
  · exact h

/-- The decision goes on the link of the card. -/
theorem Inv.enqueueDecision (h : Inv w) {card : Nat} (hd : (link, card) ∈ w.deciding)
    (deciding : List (Nat × Nat)) (hsub : ∀ x ∈ deciding, x ∈ w.deciding) (full : Bool) :
    Inv ((World.tryEnqueue { w with deciding } link (fun _ => .decision card) full).toOption.getD
      { w with deciding }) := by
  have hless : Inv { w with deciding } :=
    ⟨h.links, fun j c hmem => h.deciding j c (hsub _ hmem), h.distinct, h.old, h.starting, h.dialing,
      h.installed, h.registering⟩
  cases hok : World.tryEnqueue { w with deciding } link (fun _ => .decision card) full with
  | error e => exact hless
  | ok w' =>
    obtain ⟨l, hl, -, rfl⟩ := tryEnqueue_ok hok
    refine hless.setLink link ?_ ?_ fun l' hl' => ?_
    · exact fun _ => rfl
    · exact fun _ _ _ hn => hn
    · refine (h.links link l' hl').decided fun c hp => ?_
      obtain rfl := Packet.decision.inj hp
      obtain ⟨n, hn, rfl⟩ := h.deciding link card hd
      obtain rfl := Option.some.inj (hn.symm.trans hl')
      rfl

/-! ## Whole runs -/

theorem Inv.onCommand (h : Inv w) {ev : Event} (hm : Meets w ev) : Inv (w.onCommand ev) := by
  cases ev with
  | connect =>
    simp only [World.onCommand]
    split
    · exact h.connect
    · exact h
  | install peerDeviceId pairId =>
    simp only [World.onCommand]
    split
    · next hc => exact h.install hc hm _ _
    · exact h
  | disconnect =>
    simp only [World.onCommand]
    split
    · exact h
    · next hs => exact h.take hs _
  | removeHost device =>
    simp only [World.onCommand]
    split
    · exact h.removeHost device
    · exact h
  | removeTake forgotten =>
    simp only [World.onCommand]
    split
    · split
      · split
        · exact h.takeConnectionForPeer _
        · exact h.connectingFree
      · exact h
    · exact h
  | request listing =>
    simp only [World.onCommand]
    split
    · exact h
    · next link hs => exact h.request (hm link hs) listing
  | decide card => exact h.decide card
  | _ => exact h

/-- What a step can do. -/
inductive Steps (w : World) : Event → World → Prop where
  | idle (ev : Event) : Steps w ev w
  | giveUp : Steps w .giveUp { w with connecting := .free }
  | start {t : Option Nat} (hc : w.connecting = .dialing t) : Steps w .start
      { w with connecting := .starting w.nextConnectionId, nextConnectionId := w.nextConnectionId + 1 }
  | spawn {link : Nat} (hc : w.connecting = .installed link) :
      Steps w .spawn { w.setLoop link .polling with connecting := .free }
  | clear {t : Nat} {k : Taker} (ht : w.takers[t]? = some k) : Steps w (.clear t) (w.clear t k)
  | drop {t : Nat} {k : Taker} (ht : w.takers[t]? = some k) : Steps w (.drop t) (w.drop t k)
  | decision {i : Nat} {full : Bool} {link card : Nat} (hd : w.deciding[i]? = some (link, card)) :
      Steps w (.enqueueDecision i full)
        ((World.tryEnqueue { w with deciding := w.deciding.eraseIdx i } link (fun _ => .decision card)
          full).toOption.getD { w with deciding := w.deciding.eraseIdx i })
  | request {i : Nat} {r : Request} {ev : Event} (hev : ev.requestOf = some i)
      (hr : w.requests[i]? = some r) : Steps w ev (w.onRequest i r ev)
  | loop {link : Nat} {l : Link} {ev : Event} (hev : ev.loopOf = some link)
      (hl : w.links[link]? = some l) : Steps w ev (w.onLoop link l ev)
  | command (ev : Event) : Steps w ev (w.onCommand ev)

theorem step_request (w : World) {ev : Event} (hev : ev.requestOf = some i) :
    w.step ev = (w.requests[i]?).elim w fun r => w.onRequest i r ev := by
  cases ev <;> cases hev <;> simp only [World.step] <;> cases w.requests[i]? <;> rfl

theorem step_loop (w : World) {ev : Event} (hev : ev.loopOf = some link) :
    w.step ev = (w.links[link]?).elim w fun l => w.onLoop link l ev := by
  cases ev <;> cases hev <;> simp only [World.step] <;> cases w.links[link]? <;> rfl

/-- Every event is a step of a loop, a request or a command. -/
theorem step_steps (w : World) (ev : Event) : Steps w ev (w.step ev) := by
  cases hreq : ev.requestOf with
  | some i =>
    rw [step_request w hreq]
    cases hr : w.requests[i]? with
    | none => exact .idle ev
    | some r => exact .request hreq hr
  | none =>
    cases hloop : ev.loopOf with
    | some link =>
      rw [step_loop w hloop]
      cases hl : w.links[link]? with
      | none => exact .idle ev
      | some l => exact .loop hloop hl
    | none =>
      cases ev with
      | giveUp =>
        simp only [World.step]
        split
        · split
          · exact .giveUp
          · exact .idle _
        · exact .idle _
      | start =>
        simp only [World.step]
        split
        · next hc =>
          split
          · exact .start hc
          · exact .idle _
        · exact .idle _
      | spawn =>
        simp only [World.step]
        split
        · next hc => exact .spawn hc
        · exact .idle _
      | clear t =>
        simp only [World.step]
        split
        · next ht =>
          split
          · exact .idle _
          · exact .clear ht
        · exact .idle _
      | drop t =>
        simp only [World.step]
        split
        · next ht =>
          split
          · exact .drop ht
          · exact .idle _
        · exact .idle _
      | enqueueDecision i full =>
        simp only [World.step]
        split
        · next hd => exact .decision hd
        · exact .idle _
      | connect | install | disconnect | removeHost | removeTake | request | decide =>
        simp only [World.step]
        split
        · exact .command _
        · exact .idle _
      | _ => contradiction

theorem Inv.step (h : Inv w) {ev : Event} (hm : Meets w ev) (hs : Steps w ev w') : Inv w' := by
  cases hs with
  | idle => exact h
  | giveUp => exact h.connectingFree
  | start hc =>
    refine ⟨h.links, h.deciding, h.distinct, fun l hl => ?_, fun id hid => ?_, nofun, nofun,
      h.registering⟩
    · exact Nat.lt_succ_of_lt (h.old l hl)
    · obtain rfl := Connecting.starting.inj hid
      exact ⟨Nat.lt_succ_self _, h.old, h.dialing _ hc⟩
  | spawn hc => exact h.spawn hc
  | clear ht => exact h.clear ht
  | drop ht => exact h.drop ht
  | decision hd =>
    exact h.enqueueDecision (List.mem_of_getElem? hd) _ (fun x hx => List.mem_of_mem_eraseIdx hx) _
  | request hev hr => exact h.onRequest hr hev hm
  | loop hev hl => exact h.onLoop hl ev
  | command => exact h.onCommand hm

end Generations

end Phone

end Portty
