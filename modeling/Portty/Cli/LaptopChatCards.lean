import Portty.Cli.LaptopChat

/-!
# The cards of the laptop

What the laptop will have of a card is told by the messages on their way: by the last one of the
queue that is about the card, or, where none is, by what the laptop has (`CardInv`). A replay
announces the cards that are pending; it takes none away, so a resolution must not be lost while the
laptop has its card.

`CardInv.step`: every step that meets the conditions keeps this. `CardInv.cards_iff`: when all
messages are processed, the laptop has the cards that are pending.
-/

namespace Portty.Cli.LaptopChat

variable {ε : Type} {f : Feed ε} {w w' : World ε} {x : String} {i : Nat} {t : Task ε}
  {queue rest : List (ManagerEvent ε)} {m : ManagerEvent ε} {cards cards' : List PendingApproval}
  {card : PendingApproval}

/-- The card with the id. -/
abbrev view (x : String) (cards : List PendingApproval) : Option PendingApproval :=
  Rows.find (·.toolCallId) x cards

/-! ## Messages -/

/-- What the events tell of the cards. -/
def apply (cards : List PendingApproval) (queue : List (ManagerEvent ε)) : List PendingApproval :=
  queue.foldl tell cards

theorem apply_append (cards : List PendingApproval) (queue rest : List (ManagerEvent ε)) :
    apply cards (queue ++ rest) = apply (apply cards queue) rest := List.foldl_append

/-- What a message tells of its card. -/
def ManagerEvent.toldCard : ManagerEvent ε → Option PendingApproval
  | .agentPermission card => some card
  | _ => none

/-- An event changes the view of its own card only. -/
theorem view_tell (x : String) (cards : List PendingApproval) (m : ManagerEvent ε) :
    view x (tell cards m) = if m.about = some x then m.toldCard else view x cards := by
  cases m with
  | agentTimeline | other => rfl
  | agentPermission card =>
    show view x (Rows.put (·.toolCallId) card cards) = _
    rw [view, Rows.find_put]
    by_cases hx : x = card.toolCallId
    · simp [ManagerEvent.about, ManagerEvent.toldCard, hx]
    · simp [ManagerEvent.about, hx, Ne.symm hx]
  | agentPermissionResolved id =>
    show view x (Rows.remove (·.toolCallId) id cards) = _
    rw [view, Rows.find_remove]
    by_cases hx : x = id
    · simp [ManagerEvent.about, ManagerEvent.toldCard, hx]
    · simp [ManagerEvent.about, hx, Ne.symm hx]

/-- A queue without a message about the card. -/
theorem view_apply_of_not_mentions (h : ¬ Mentions x queue) :
    view x (apply cards queue) = view x cards := by
  induction queue generalizing cards with
  | nil => rfl
  | cons m queue ih =>
    have hm : m.about ≠ some x := fun he => h ⟨m, List.mem_cons_self, he⟩
    have hq : ¬ Mentions x queue := by
      rintro ⟨m', hm', he⟩
      exact h ⟨m', List.mem_cons_of_mem _ hm', he⟩
    show view x (apply (tell cards m) queue) = _
    rw [ih hq, view_tell, if_neg hm]

/-- A queue with one tells all of the card. -/
theorem view_apply_of_mentions (h : Mentions x queue) :
    view x (apply cards queue) = view x (apply cards' queue) := by
  induction queue generalizing cards cards' with
  | nil =>
    obtain ⟨m, hm, -⟩ := h
    cases hm
  | cons m queue ih =>
    show view x (apply (tell cards m) queue) = view x (apply (tell cards' m) queue)
    by_cases hq : Mentions x queue
    · exact ih hq
    · have hm : m.about = some x := by
        obtain ⟨m', hm', he⟩ := h
        rcases List.mem_cons.mp hm' with rfl | hm'
        · exact he
        · exact absurd ⟨m', hm', he⟩ hq
      rw [view_apply_of_not_mentions hq, view_apply_of_not_mentions hq, view_tell, view_tell,
        if_pos hm, if_pos hm]

theorem mentions_concat : Mentions x (queue ++ [m]) ↔ Mentions x queue ∨ m.about = some x := by
  simp [Mentions, or_and_right, exists_or]

theorem mentions_cons : Mentions x (m :: queue) ↔ m.about = some x ∨ Mentions x queue := by
  simp [Mentions]

/-! ## The invariant -/

/-- A task will send a message about the card. -/
def Busy (w : World ε) (x : String) : Prop :=
  (∃ card ∈ w.pending, card.toolCallId = x ∧ .announce card ∈ w.tasks) ∨
    ∃ ids, .emit ids ∈ w.tasks ∧ x ∈ ids

/-- The cards will be replayed. -/
def Due (w : World ε) : Prop := w.lagged = true ∨ w.phase ≠ .looping

/-- The cards of the broadcasts are those that are pending. -/
structure CardInv (w : World ε) : Prop where
  unique : Rows.Unique (·.toolCallId) w.pending
  unique_ahead : Rows.Unique (·.toolCallId) w.cardsAhead
  /-- The broadcasts have told what is pending. -/
  told : ∀ x, view x w.announced = view x w.pending ∨ Busy w x
  /-- The queue is the end of what was broadcast. -/
  queued : ∀ x, Mentions x w.queue → view x (apply [] w.queue) = view x w.announced
  shown : ∀ x, ¬ Mentions x w.queue → ¬ Due w → view x w.cardsAhead = view x w.announced ∨ Busy w x
  /-- A replay announces what is pending; what is not must not be there. -/
  gone : ∀ x, ¬ Mentions x w.queue → Due w → view x w.announced = none → view x w.cardsAhead = none ∨ Busy w x
  offline : w.phase = .none → w.queue = [] ∧ w.pipe = [] ∧ w.cards = []

theorem Quiescent.not_busy (h : Quiescent w) (x : String) : ¬ Busy w x := by
  rintro (⟨card, -, -, ht⟩ | ⟨ids, ht, hx⟩)
  · exact absurd (h.2.2.2.2 _ ht) nofun
  · have hset := h.2.2.2.2 _ ht
    cases ids with
    | nil => cases hx
    | cons id ids => cases hset

/-- When nothing is under way, the laptop shows what is pending. -/
theorem CardInv.view_eq (h : CardInv w) (hq : Quiescent w) (x : String) :
    view x w.cards = view x w.pending := by
  have hnot := hq.not_busy x
  obtain ⟨hphase, hqueue, hlag, hpipe, -⟩ := hq
  have hm : ¬ Mentions x w.queue := by
    rw [hqueue]
    rintro ⟨m, hm, -⟩
    cases hm
  have hdue : ¬ Due w := by
    rintro (hl | hp)
    · rw [hlag] at hl
      cases hl
    · exact hp hphase
  have hahead : w.cardsAhead = w.cards := by
    unfold World.cardsAhead
    rw [hpipe]
    rfl
  rw [← hahead, (h.shown x hm hdue).resolve_right hnot, (h.told x).resolve_right hnot]

/-- When all messages are processed, the laptop has the cards that are pending. -/
theorem CardInv.cards_iff (h : CardInv w) (hq : Quiescent w) (card : PendingApproval) :
    card ∈ w.cards ↔ card ∈ w.pending := by
  have hahead : w.cardsAhead = w.cards := by
    unfold World.cardsAhead
    rw [hq.2.2.2.1]
    rfl
  have hu : Rows.Unique (·.toolCallId) w.cards := hahead ▸ h.unique_ahead
  have hview := h.view_eq hq card.toolCallId
  constructor
  · intro hc
    have hf := (Rows.find_eq_some hu).mpr ⟨hc, rfl⟩
    exact ((Rows.find_eq_some h.unique).mp (hview.symm.trans hf)).1
  · intro hc
    have hf := (Rows.find_eq_some h.unique).mpr ⟨hc, rfl⟩
    exact ((Rows.find_eq_some hu).mp (hview.trans hf)).1

/-! ## Broadcasts -/

/-- What a broadcast does. -/
inductive Sent (w : World ε) (m : ManagerEvent ε) : World ε → Prop
  | offline (hp : w.phase = .none) : Sent w m { w with announced := tell w.announced m }
  | queued (hp : w.phase ≠ .none) :
    Sent w m
      { w with
        announced := tell w.announced m
        owed := w.owed ++ m.timeline
        queue := w.queue ++ [m] }
  | lost (hp : w.phase ≠ .none) (old : ManagerEvent ε) (rest : List (ManagerEvent ε)) (hq : w.queue = old :: rest)
    (hc : ¬ w.queue.length < capacity) :
    Sent w m
      { w with
        announced := tell w.announced m
        owed := w.owed ++ m.timeline
        queue := rest ++ [m]
        lagged := true
        dropped := w.dropped ++ old.timeline }

/-- A broadcast is queued; a full queue loses its oldest. -/
theorem broadcast_sent (w : World ε) (m : ManagerEvent ε) : Sent w m (w.broadcast m) := by
  unfold World.broadcast
  dsimp only
  split
  · exact .offline (by assumption)
  · rename_i hp
    split
    · rename_i hq
      have h := Sent.queued (m := m) hp
      rw [hq] at h
      exact h
    · rename_i old rest hq
      split
      · exact .queued hp
      · exact .lost hp old rest hq (by assumption)

theorem setTask_broadcast (w : World ε) (m : ManagerEvent ε) (i : Nat) (t : Task ε) :
    (w.broadcast m).setTask i t = (w.setTask i t).broadcast m := by
  unfold World.broadcast World.setTask
  dsimp only
  split
  · rfl
  · split
    · rfl
    · split <;> rfl

theorem Busy.mono {p : List PendingApproval} {ts : List (Task ε)} (h : Busy w x)
    (hp : ∀ card ∈ w.pending, card.toolCallId = x → card ∈ p) (ht : ∀ t ∈ w.tasks, t ∈ ts) :
    Busy { w with pending := p, tasks := ts } x := by
  rcases h with ⟨card, hc, hx, hm⟩ | ⟨ids, hm, hx⟩
  · exact .inl ⟨card, hp card hc hx, hx, ht _ hm⟩
  · exact .inr ⟨ids, ht _ hm, hx⟩

/-- A message is sent that tells what is then pending of its card. -/
theorem CardInv.send {p : List PendingApproval} {l : List (Task ε)} (h : CardInv w) (hk : Keeps w m)
    (hu : Rows.Unique (·.toolCallId) p)
    (hbusy : ∀ x, m.about ≠ some x → Busy w x → Busy { w with pending := p, tasks := l } x)
    (hpend : ∀ x, m.about ≠ some x → view x p = view x w.pending)
    (hself : ∀ x, m.about = some x → m.toldCard = view x p) :
    CardInv (World.broadcast { w with pending := p, tasks := l } m) := by
  have htold : ∀ x, view x (tell w.announced m) = view x p ∨
      Busy { w with pending := p, tasks := l } x := by
    intro x
    rw [view_tell]
    by_cases hx : m.about = some x
    · rw [if_pos hx]
      exact .inl (hself x hx)
    · rw [if_neg hx, hpend x hx]
      exact (h.told x).imp_right (hbusy x hx)
  have hmsg : ∀ x q, Mentions x (q ++ [m]) →
      (m.about ≠ some x → Mentions x q → view x (apply [] q) = view x w.announced) →
      view x (apply [] (q ++ [m])) = view x (tell w.announced m) := by
    intro x q hm hq
    rw [apply_append]
    show view x (tell (apply [] q) m) = _
    rw [view_tell, view_tell]
    by_cases hx : m.about = some x
    · rw [if_pos hx, if_pos hx]
    · rw [if_neg hx, if_neg hx]
      exact hq hx ((mentions_concat.mp hm).resolve_right hx)
  have hs := broadcast_sent { w with pending := p, tasks := l } m
  generalize World.broadcast { w with pending := p, tasks := l } m = w' at hs
  cases hs with
  | offline hp =>
    obtain ⟨hq, hpipe, hcards⟩ := h.offline hp
    have hahead : w.cardsAhead = [] := by
      unfold World.cardsAhead
      rw [hpipe, hcards]
      rfl
    exact
      { unique := hu
        unique_ahead := h.unique_ahead
        told := htold
        queued := by
          rintro x ⟨m', hm', -⟩
          rw [show _ = ([] : List (ManagerEvent ε)) from hq] at hm'
          cases hm'
        shown := fun x _ hdue => absurd (.inr (by rw [show _ = Phase.none from hp]; nofun)) hdue
        gone := by
          intro x _ _ _
          refine .inl ?_
          show view x w.cardsAhead = none
          rw [hahead]
          rfl
        offline := fun _ => ⟨hq, hpipe, hcards⟩ }
  | queued hp =>
    have hnot : ∀ x, ¬ Mentions x (w.queue ++ [m]) → m.about ≠ some x ∧ ¬ Mentions x w.queue := by
      intro x hm
      rw [mentions_concat, not_or] at hm
      exact hm.symm
    exact
      { unique := hu
        unique_ahead := h.unique_ahead
        told := htold
        queued := fun x hm => hmsg x w.queue hm fun _ hq => h.queued x hq
        shown := by
          intro x hm hdue
          obtain ⟨hx, hq⟩ := hnot x hm
          show view x w.cardsAhead = view x (tell w.announced m) ∨ _
          rw [view_tell, if_neg hx]
          exact (h.shown x hq hdue).imp_right (hbusy x hx)
        gone := by
          intro x hm hdue hn
          obtain ⟨hx, hq⟩ := hnot x hm
          have hn : view x (tell w.announced m) = none := hn
          rw [view_tell, if_neg hx] at hn
          exact (h.gone x hq hdue hn).imp_right (hbusy x hx)
        offline := fun hn => absurd hn hp }
  | lost hp old rest hq hc =>
    have hq : w.queue = old :: rest := hq
    exact
      { unique := hu
        unique_ahead := h.unique_ahead
        told := htold
        queued := by
          intro x hm
          refine hmsg x rest hm fun _ hr => ?_
          have hall := h.queued x (hq ▸ mentions_cons.mpr (.inr hr))
          rw [hq] at hall
          exact (view_apply_of_mentions hr).trans hall
        shown := fun x _ hdue => absurd (.inl rfl) hdue
        gone := by
          intro x hm _ hn
          rw [mentions_concat, not_or] at hm
          obtain ⟨hr, hx⟩ := hm
          have hn : view x (tell w.announced m) = none := hn
          rw [view_tell, if_neg hx] at hn
          show view x w.cardsAhead = none ∨ _
          by_cases hold : Mentions x w.queue
          · -- The only message about the card is lost. It has told that the card is gone.
            have hall := h.queued x hold
            rw [hq] at hold hall
            have habout := (mentions_cons.mp hold).resolve_right hr
            rw [hn] at hall
            change view x (apply (tell [] old) rest) = none at hall
            rw [view_apply_of_not_mentions hr, view_tell, if_pos habout] at hall
            cases old with
            | agentTimeline | other => cases habout
            | agentPermission card => cases hall
            | agentPermissionResolved id =>
              cases habout
              unfold Keeps at hk
              rw [hq] at hk
              rcases hk with hlt | hgone | hm
              · rw [← hq] at hlt
                exact absurd hlt hc
              · exact .inl (Rows.find_eq_none.mpr hgone)
              · exact absurd (mentions_concat.mp hm) (not_or.mpr ⟨hr, hx⟩)
          · by_cases hdue : Due w
            · exact (h.gone x hold hdue hn).imp_right (hbusy x hx)
            · rcases h.shown x hold hdue with hv | hb
              · exact .inl (hv.trans hn)
              · exact .inr (hbusy x hx hb)
        offline := fun hn => absurd hn hp }

/-! ## The other steps -/

/-- Nothing of the cards changes, and no task is done that has to tell of one. -/
theorem CardInv.of_same (h : CardInv w) (hpend : w'.pending = w.pending)
    (hann : w'.announced = w.announced)
    (hqueue : w'.queue = w.queue) (hahead : w'.cardsAhead = w.cardsAhead)
    (hlag : w'.lagged = w.lagged)
    (hphase : w'.phase = w.phase) (hoff : w'.phase = .none → w'.pipe = w.pipe ∧ w'.cards = w.cards)
    (hbusy : ∀ x, Busy w x → Busy w' x) : CardInv w' := by
  have hdue : Due w' ↔ Due w := by
    unfold Due
    rw [hlag, hphase]
  constructor
  · rw [hpend]
    exact h.unique
  · rw [hahead]
    exact h.unique_ahead
  · intro x
    rw [hann, hpend]
    exact (h.told x).imp_right (hbusy x)
  · intro x hm
    rw [hqueue] at hm ⊢
    rw [hann]
    exact h.queued x hm
  · intro x hm hd
    rw [hqueue] at hm
    rw [hahead, hann]
    exact (h.shown x hm (hdue.not.mp hd)).imp_right (hbusy x)
  · intro x hm hd hn
    rw [hqueue] at hm
    rw [hann] at hn
    rw [hahead]
    exact (h.gone x hm (hdue.mp hd) hn).imp_right (hbusy x)
  · intro hp
    obtain ⟨hpipe, hcards⟩ := hoff hp
    rw [hqueue, hpipe, hcards]
    exact h.offline (hphase ▸ hp)

/-- `pending` changes, and a task will tell of every card that does. -/
theorem CardInv.pend {p : List PendingApproval} {l : List (Task ε)} (h : CardInv w)
    (hu : Rows.Unique (·.toolCallId) p)
    (hbusy : ∀ x, Busy w x → Busy { w with pending := p, tasks := l } x)
    (hpend : ∀ x, view x p = view x w.pending ∨ Busy { w with pending := p, tasks := l } x) :
    CardInv { w with pending := p, tasks := l } where
  unique := hu
  unique_ahead := h.unique_ahead
  told := by
    intro x
    rcases hpend x with hx | hx
    · exact (h.told x).imp (fun ht => ht.trans hx.symm) (hbusy x)
    · exact .inr hx
  queued := h.queued
  shown := fun x hm hd => (h.shown x hm hd).imp_right (hbusy x)
  gone := fun x hm hd hn => (h.gone x hm hd hn).imp_right (hbusy x)
  offline := h.offline

theorem CardInv.spawn (h : CardInv w) (t : Task ε) : CardInv (w.spawn t) :=
  h.of_same rfl rfl rfl rfl rfl rfl (fun _ => ⟨rfl, rfl⟩) fun _ hb =>
    hb.mono (fun _ hc _ => hc) fun _ => List.mem_append_left _

/-- A new card is pending, and a task is to announce it. -/
theorem CardInv.request (h : CardInv w) (card : PendingApproval) : CardInv (w.request card) := by
  have hmem : Task.announce card ∈ w.tasks ++ [Task.announce card] :=
    List.mem_append_right _ (List.mem_singleton_self _)
  have hnew : Busy { w with
      pending := Rows.put (·.toolCallId) card w.pending
      tasks := w.tasks ++ [.announce card] } card.toolCallId :=
    .inl ⟨card, Rows.mem_put.mpr (.inl rfl), rfl, hmem⟩
  refine h.pend (h.unique.put card) (fun x hb => ?_) fun x => ?_
  · by_cases hx : x = card.toolCallId
    · exact hx ▸ hnew
    · refine hb.mono (fun c hc hcx => ?_) fun _ => List.mem_append_left _
      exact Rows.mem_put.mpr (.inr ⟨hc, fun he => hx (hcx.symm.trans he)⟩)
  · by_cases hx : x = card.toolCallId
    · exact .inr (hx ▸ hnew)
    · rw [view, Rows.find_put, if_neg hx]
      exact .inl rfl

/-- The cards that a cancel takes are still to be told. -/
theorem CardInv.cancel (h : CardInv w) : CardInv w.cancel := by
  have hmem : Task.emit (w.pending.map (·.toolCallId)) ∈ w.tasks ++ [.emit (w.pending.map (·.toolCallId))] :=
    List.mem_append_right _ (List.mem_singleton_self _)
  have hnew : ∀ card ∈ w.pending, Busy { w with
      pending := []
      tasks := w.tasks ++ [.emit (w.pending.map (·.toolCallId))] } card.toolCallId :=
    fun card hc => .inr ⟨_, hmem, List.mem_map_of_mem hc⟩
  refine h.pend List.nodup_nil (fun x hb => ?_) fun x => ?_
  · rcases hb with ⟨card, hc, rfl, -⟩ | ⟨ids, hm, hx⟩
    · exact hnew card hc
    · exact .inr ⟨ids, List.mem_append_left _ hm, hx⟩
  · cases hx : view x w.pending with
    | none => exact .inl rfl
    | some card =>
      have hk : card.toolCallId = x := Rows.key_of_find hx
      exact .inr (hk ▸ hnew card (Rows.mem_of_find hx))

theorem CardInv.reorder (h : CardInv w) {p : List PendingApproval} (hp : p.Perm w.pending) :
    CardInv { w with pending := p } := by
  have hu : Rows.Unique (·.toolCallId) p := (hp.map _).nodup_iff.mpr h.unique
  have hview : ∀ x, view x p = view x w.pending := by
    intro x
    cases hx : view x w.pending with
    | none => exact Rows.find_eq_none.mpr fun c hc => Rows.find_eq_none.mp hx c (hp.subset hc)
    | some card =>
      exact (Rows.find_eq_some hu).mpr ⟨hp.symm.subset (Rows.mem_of_find hx), Rows.key_of_find hx⟩
  refine h.pend (l := w.tasks) hu (fun x hb => ?_) fun x => .inl (hview x)
  exact hb.mono (fun _ hc _ => hp.symm.subset hc) fun _ ht => ht

/-- One card is answered, and told at once. -/
theorem CardInv.resolve (h : CardInv w) (hk : Keeps w (.agentPermissionResolved x)) :
    CardInv (w.resolve x) := by
  unfold World.resolve
  split
  · refine h.send (l := w.tasks) hk (h.unique.remove x) (fun y hy hb => ?_) (fun y hy => ?_) fun y hy => ?_
    · refine hb.mono (fun c hc hcy => Rows.mem_remove.mpr ⟨hc, ?_⟩) fun _ ht => ht
      rintro rfl
      exact hy (congrArg some hcy)
    · rw [view, Rows.find_remove, if_neg]
      rintro rfl
      exact hy rfl
    · cases hy
      rw [view, Rows.find_remove, if_pos rfl]
      rfl
  · exact h

/-- A task that has nothing to tell goes on. -/
theorem CardInv.retask (h : CardInv w) (hi : w.tasks[i]? = some t) (t' : Task ε)
    (ha : ∀ card, t ≠ .announce card) (he : ∀ ids, t = .emit ids → ids = []) :
    CardInv (w.setTask i t') := by
  refine h.of_same rfl rfl rfl rfl rfl rfl (fun _ => ⟨rfl, rfl⟩) fun x hb => ?_
  rcases hb with ⟨card, hc, hx, hm⟩ | ⟨ids, hm, hx⟩
  · exact .inl ⟨card, hc, hx, Table.mem_replace_of_ne hi hm (ha card).symm⟩
  · refine .inr ⟨ids, Table.mem_replace_of_ne hi hm ?_, hx⟩
    rintro rfl
    rw [he ids rfl] at hx
    cases hx

theorem CardInv.announce (h : CardInv w) (hi : w.tasks[i]? = some (.announce card))
    (hc : card ∈ w.pending)
    (hk : Keeps w (.agentPermission card)) :
    CardInv ((w.broadcast (.agentPermission card)).setTask i (.waiting card.toolCallId)) := by
  rw [setTask_broadcast]
  refine h.send (p := w.pending) hk h.unique (fun x hx hb => ?_) (fun x _ => rfl) fun x hx => ?_
  · rcases hb with ⟨c, hcp, hcx, hm⟩ | ⟨ids, hm, hxi⟩
    · refine .inl ⟨c, hcp, hcx, Table.mem_replace_of_ne hi hm ?_⟩
      rintro ⟨⟩
      exact hx (congrArg some hcx)
    · exact .inr ⟨ids, Table.mem_replace_of_ne hi hm nofun, hxi⟩
  · cases hx
    exact ((Rows.find_eq_some h.unique).mpr ⟨hc, rfl⟩).symm

/-- The task of a cancel tells the next card. -/
theorem CardInv.emit (h : CardInv w) {ids : List String}
    (hi : w.tasks[i]? = some (.emit (x :: ids)))
    (hc : ∀ card ∈ w.pending, card.toolCallId ≠ x) (hk : Keeps w (.agentPermissionResolved x)) :
    CardInv ((w.broadcast (.agentPermissionResolved x)).setTask i (.emit ids)) := by
  rw [setTask_broadcast]
  refine h.send (p := w.pending) hk h.unique (fun y hy hb => ?_) (fun y _ => rfl) fun y hy => ?_
  · rcases hb with ⟨c, hcp, hcx, hm⟩ | ⟨ids', hm, hyi⟩
    · exact .inl ⟨c, hcp, hcx, Table.mem_replace_of_ne hi hm nofun⟩
    · by_cases hself : (Task.emit ids' : Task ε) = .emit (x :: ids)
      · cases hself
        rcases List.mem_cons.mp hyi with rfl | hyi
        · exact absurd rfl hy
        · exact .inr ⟨ids, Table.mem_replace_self hi, hyi⟩
      · exact .inr ⟨ids', Table.mem_replace_of_ne hi hm hself, hyi⟩
  · cases hy
    exact (Rows.find_eq_none.mpr hc).symm

/-! ## The connection -/

theorem unique_showCard {l : List (HostToRelay ε)} (h : Rows.Unique (·.toolCallId) cards) :
    Rows.Unique (·.toolCallId) (l.foldl showCard cards) := by
  induction l generalizing cards with
  | nil => exact h
  | cons m l ih =>
    refine ih ?_
    cases m with
    | agentEvent => exact h
    | agentPermission card => exact h.put card
    | agentPermissionResolved id => exact h.remove id

theorem showCard_events (cards : List PendingApproval) (l : List (AgentTimelineEvent ε)) :
    (l.map HostToRelay.agentEvent).foldl showCard cards = cards := by
  induction l with
  | nil => rfl
  | cons e l ih => exact ih

/-- The replayed cards are there, and the others stay. -/
theorem view_showCard_cards (x : String) {p : List PendingApproval}
    (hp : Rows.Unique (·.toolCallId) p)
    (cards : List PendingApproval) :
    view x ((p.map (HostToRelay.agentPermission (ε := ε))).foldl showCard cards) =
      (view x p).or (view x cards) := by
  induction p generalizing cards with
  | nil => rfl
  | cons card p ih =>
    obtain ⟨hnot, hp⟩ := List.nodup_cons.mp hp
    show view x ((p.map HostToRelay.agentPermission).foldl showCard (Rows.put (·.toolCallId) card cards)) = _
    rw [ih hp, view, view, Rows.find_put]
    by_cases hx : x = card.toolCallId
    · have hnone : Rows.find (·.toolCallId) x p = none := by
        refine Rows.find_eq_none.mpr fun c hc hcx => hnot ?_
        exact List.mem_map.mpr ⟨c, hc, hcx.trans hx⟩
      rw [hnone, if_pos hx]
      simp [Rows.find, hx]
    · rw [if_neg hx]
      simp [Rows.find, Ne.symm hx]

theorem cardsAhead_append (w : World ε) (l : List (HostToRelay ε)) :
    World.cardsAhead { w with pipe := w.pipe ++ l } = l.foldl showCard w.cardsAhead :=
  List.foldl_append

/-- A replay of the events tells nothing of the cards. -/
theorem CardInv.replay (h : CardInv w) (hl : w.phase ≠ .looping)
    (owed : List (AgentTimelineEvent ε)) : CardInv (w.replay owed) := by
  have hahead : (w.replay owed).cardsAhead = w.cardsAhead :=
    (cardsAhead_append w _).trans (showCard_events _ _)
  constructor
  · exact h.unique
  · rw [hahead]
    exact h.unique_ahead
  · exact h.told
  · exact h.queued
  · intro x _ hd
    exact absurd (.inr nofun) hd
  · intro x hm _ hn
    rw [hahead]
    exact h.gone x hm (.inr hl) hn
  · exact nofun

/-- The cards of the replay are those that are pending now. -/
theorem CardInv.replayCards (h : CardInv w) (hp : w.phase = .replayCards) :
    CardInv { w with pipe := w.pipe ++ w.pending.map .agentPermission, phase := .looping } := by
  have hahead : World.cardsAhead { w with pipe := w.pipe ++ w.pending.map .agentPermission, phase := .looping } =
      (w.pending.map (HostToRelay.agentPermission (ε := ε))).foldl showCard w.cardsAhead :=
    cardsAhead_append w _
  have hdue : Due w := .inr (by rw [hp]; nofun)
  -- What is pending was replayed; what is not was not there.
  have hview : ∀ x, ¬ Mentions x w.queue → view x w.announced = view x w.pending →
      view x ((w.pending.map (HostToRelay.agentPermission (ε := ε))).foldl showCard w.cardsAhead) =
        view x w.announced ∨ Busy w x := by
    intro x hm ht
    rw [view_showCard_cards x h.unique, ht]
    cases hx : view x w.pending with
    | some card => exact .inl rfl
    | none => exact h.gone x hm hdue (ht.trans hx)
  constructor
  · exact h.unique
  · rw [hahead]
    exact unique_showCard h.unique_ahead
  · exact h.told
  · exact h.queued
  · intro x hm _
    rw [hahead]
    rcases h.told x with ht | hb
    · exact hview x hm ht
    · exact .inr hb
  · intro x hm _ hn
    rw [hahead]
    rcases h.told x with ht | hb
    · exact (hview x hm ht).imp_left fun hv => hv.trans hn
    · exact .inr hb
  · exact nofun

/-- The loop takes an event, or finds that it missed some. -/
theorem CardInv.recv (h : CardInv w) (hp : w.phase = .looping) : CardInv w.recv := by
  unfold World.recv
  split
  · rename_i hlag
    constructor
    · exact h.unique
    · exact h.unique_ahead
    · exact h.told
    · exact h.queued
    · intro x _ hd
      exact absurd (.inr nofun) hd
    · exact fun x hm _ hn => h.gone x hm (.inl hlag) hn
    · exact nofun
  · rename_i hlag
    split
    · exact h
    · rename_i m rest hq
      have hahead : World.cardsAhead { w with queue := rest, pipe := w.pipe ++ forward m } =
          tell w.cardsAhead m := List.foldl_append
      have hdue : ¬ Due w := by
        rintro (hl | hne)
        · exact hlag hl
        · exact hne hp
      constructor
      · exact h.unique
      · rw [hahead]
        exact unique_showCard h.unique_ahead
      · exact h.told
      · intro x hm
        have hall := h.queued x (hq ▸ mentions_cons.mpr (.inr hm))
        rw [hq] at hall
        exact (view_apply_of_mentions hm).trans hall
      · intro x hm _
        rw [hahead, view_tell]
        by_cases hx : m.about = some x
        · rw [if_pos hx]
          have hall := h.queued x (hq ▸ mentions_cons.mpr (.inl hx))
          rw [hq] at hall
          change view x (apply (tell [] m) rest) = _ at hall
          rw [view_apply_of_not_mentions hm, view_tell, if_pos hx] at hall
          exact .inl hall
        · rw [if_neg hx]
          refine h.shown x ?_ hdue
          rw [hq, mentions_cons, not_or]
          exact ⟨hx, hm⟩
      · exact fun x _ hd => absurd hd hdue
      · intro hn
        exact absurd (hp.symm.trans hn) nofun

theorem CardInv.conn (h : CardInv w) : CardInv w.conn := by
  unfold World.conn
  split
  · exact h
  · rename_i hp
    exact h.replay (by rw [hp]; nofun) _
  · rename_i hp
    exact h.replay (by rw [hp]; nofun) _
  · exact h.replayCards (by assumption)
  · exact h.recv (by assumption)

theorem CardInv.receive (h : CardInv w) : CardInv w.receive := by
  unfold World.receive
  split
  · exact h
  · rename_i m rest hpipe
    refine h.of_same rfl rfl rfl ?_ rfl rfl (fun hp => ?_) fun _ hb => hb
    · unfold World.cardsAhead
      rw [hpipe]
      rfl
    · obtain ⟨-, hnil, -⟩ := h.offline hp
      rw [hpipe] at hnil
      cases hnil

theorem CardInv.go (h : CardInv w) (hi : w.tasks[i]? = some t) (hm : t.Meets w i) :
    CardInv (w.go f i t) := by
  cases t with
  | drawn e =>
    exact CardInv.retask (w := { w with history := w.history.push f e })
      (h.of_same rfl rfl rfl rfl rfl rfl (fun _ => ⟨rfl, rfl⟩) fun _ hb => hb) hi _ nofun nofun
  | recorded e =>
    rw [World.go, setTask_broadcast]
    refine h.send (p := w.pending) hm.2 h.unique (fun x _ hb => ?_) (fun x _ => rfl) nofun
    rcases hb with ⟨c, hcp, hcx, hmem⟩ | ⟨ids, hmem, hx⟩
    · exact .inl ⟨c, hcp, hcx, Table.mem_replace_of_ne hi hmem nofun⟩
    · exact .inr ⟨ids, Table.mem_replace_of_ne hi hmem nofun, hx⟩
  | announce card => exact h.announce hi hm.1 hm.2
  | waiting id =>
    have hsame : Rows.remove (·.toolCallId) id w.pending = w.pending := Rows.remove_of_forall hm
    rw [World.go, hsame]
    exact h.retask hi _ nofun nofun
  | emit ids =>
    cases ids with
    | nil =>
      refine h.retask hi _ nofun ?_
      rintro _ ⟨⟩
      rfl
    | cons id ids => exact h.emit hi hm.1 hm.2
  | done => exact h

theorem CardInv.step (h : CardInv w) (f : Feed ε) {e : Event ε} (hm : Meets w e) :
    CardInv (w.step f e) := by
  cases e with
  | push event =>
    exact CardInv.spawn (w := { w with nextSeq := w.nextSeq + 1, allDrawn := w.allDrawn ++ [⟨w.nextSeq, event⟩] })
      (h.of_same rfl rfl rfl rfl rfl rfl (fun _ => ⟨rfl, rfl⟩) fun _ hb => hb) _
  | request card => exact h.request card
  | resolve id => exact h.resolve hm
  | cancel => exact h.cancel
  | reorder p =>
    rw [World.step]
    split
    · rename_i hp
      exact h.reorder (List.isPerm_iff.mp hp)
    · exact h
  | noise => exact h.send (p := w.pending) (l := w.tasks) hm h.unique (fun _ _ hb => hb) (fun _ _ => rfl) nofun
  | go i =>
    rw [World.step]
    cases hi : w.tasks[i]? with
    | none => exact h
    | some t => exact h.go hi (hm t hi)
  | connect =>
    rw [World.step]
    split
    · rename_i hp
      obtain ⟨hq, hpipe, hcards⟩ := h.offline hp
      have hahead : w.cardsAhead = [] := by
        unfold World.cardsAhead
        rw [hpipe, hcards]
        rfl
      constructor
      · exact h.unique
      · exact h.unique_ahead
      · exact h.told
      · exact h.queued
      · intro x _ hd
        exact absurd (.inr nofun) hd
      · intro x _ _ _
        refine .inl ?_
        show view x w.cardsAhead = none
        rw [hahead]
        rfl
      · exact nofun
    · exact h
  | conn => exact h.conn
  | receive => exact h.receive

theorem cardInv_start : CardInv ({} : World ε) where
  unique := List.nodup_nil
  unique_ahead := List.nodup_nil
  told := fun _ => .inl rfl
  queued := by
    rintro x ⟨m, hm, -⟩
    cases hm
  shown := fun _ _ _ => .inl rfl
  gone := fun _ _ _ _ => .inl rfl
  offline := fun _ => ⟨rfl, rfl, rfl⟩

end Portty.Cli.LaptopChat
