import Portty.Host.Sessions
import Portty.Lib.Broadcast
import Portty.Lib.Replica

/-!
# The sessions that a phone shows (`iroh_serve.rs`, `App.tsx`)

A connection subscribes to the events, takes a list, and then forwards what is announced, or a fresh
list when it has missed something. The phone sets its list to a list and follows an announcement.
Calls, announcements, the task that forwards and the loop that writes to the phone interleave in any
order.

* `Shown`: what holds between the sessions of the host and the list that the phone will have.
* `list_converges`: once nothing is under way, the phone shows the sessions of the host, and no
  others but those that were announced after they had been announced as gone.

Of a session the number and the title are here; kind, source and activity are not.
-/

namespace Portty.Host.Sessions

open World (Announced)

/-- The frames that change the list of the phone. -/
inductive Frame where
  | sessionList (sessions : List SessionInfo)
  | sessionAdded (info : SessionInfo)
  | sessionRemoved (id : SessionId)
  deriving DecidableEq

/-- What `serve` sends for an event of the manager. -/
def ManagerEvent.frames : ManagerEvent → List Frame
  | .added info => [.sessionAdded info]
  | .removed id => [.sessionRemoved id]
  | .other => []

/-- What the phone does with a frame (`onList`, `onAdded`, `onRemoved`). -/
def onFrame (sessions : List SessionInfo) : Frame → List SessionInfo
  | .sessionList list => list
  | .sessionAdded info =>
    if sessions.any fun s => s.id = info.id then sessions.map fun s => if s.id = info.id then info else s
    else sessions ++ [info]
  | .sessionRemoved id => sessions.filter fun s => s.id ≠ id

/-- The connection of a phone (`handle_client`), and its list. -/
structure Client where
  /-- The next event for the task that forwards. -/
  next : Nat
  /-- Events were missed, and the list is to be taken. -/
  lagged : Bool := false
  /-- `out_tx` -/
  queue : List Frame := []
  /-- The first list is taken. -/
  listed : Bool := false
  initialFrames : List Frame := []
  shown : List SessionInfo := []
  deriving DecidableEq

/-- The host and one client. -/
structure System where
  host : World
  client : Option Client := none

/-- What the host and the client do. -/
inductive Act where
  | host (e : Event)
  | connect
  | disconnect
  | takeList
  | receive
  | relist
  /-- The next frame is written, the initial ones first. -/
  | write
  /-- The phone renamed a session, and gets a list at once. -/
  | writeList

namespace Client

variable (w : World) (c : Client)

/-- `serve` has subscribed, and takes the list that it sends first. -/
def takeList : Client :=
  if c.listed then c else { c with listed := true, initialFrames := [.sessionList w.list] }

/-- `events.recv()` -/
def receive : Client :=
  if c.lagged then c
  else
    match Broadcast.recv eventsCapacity w.log c.next with
    | .empty => c
    | .lagged next => { c with next, lagged := true }
    | .value e next => { c with next, queue := c.queue ++ e.frames }

/-- After events were missed the list is sent again. -/
def relist : Client :=
  if c.lagged then { c with lagged := false, queue := c.queue ++ [.sessionList w.list] } else c

/-- A frame goes to the client, the first list before the events. -/
def write : Client :=
  if !c.listed then c
  else
    match c.initialFrames, c.queue with
    | f :: rest, _ => { c with initialFrames := rest, shown := onFrame c.shown f }
    | [], f :: rest => { c with queue := rest, shown := onFrame c.shown f }
    | [], [] => c

/-- An answer to a request for the list. -/
def writeList : Client :=
  if c.listed then { c with shown := onFrame c.shown (.sessionList w.list) } else c

end Client

/-- One step. -/
def System.step (s : System) : Act → System
  | .host e => { s with host := s.host.step e }
  | .connect => { s with client := some { next := s.host.log.length } }
  | .disconnect => { s with client := none }
  | .takeList => { s with client := s.client.map (·.takeList s.host) }
  | .receive => { s with client := s.client.map (·.receive s.host) }
  | .relist => { s with client := s.client.map (·.relist s.host) }
  | .write => { s with client := s.client.map (·.write) }
  | .writeList => { s with client := s.client.map (·.writeList s.host) }

/-! ## The list that the phone will have -/

/-- A frame for a list that is kept by number. -/
def Frame.msg : Frame → Replica.Msg SessionInfo SessionId
  | .sessionList list => .all list
  | .sessionAdded info => .put info
  | .sessionRemoved id => .take id

theorem onFrame_eq (sessions : List SessionInfo) (f : Frame) :
    onFrame sessions f = Replica.apply (·.id) sessions f.msg := by
  cases f <;> rfl

/-- Whether a session is shown once these frames are written, if it is shown now (`b`) or is not. -/
def after (id : SessionId) (frames : List Frame) (b : Bool) : Bool :=
  Replica.after SessionInfo.id id (frames.map Frame.msg) b

/-- Announced after it was announced as gone. -/
def Late (log : List ManagerEvent) (id : SessionId) : Prop :=
  ∃ pre post, log = pre ++ post ∧ .removed id ∈ pre ∧ Announced post id

namespace Client

/-- The client shows the session. -/
def shows (c : Client) (id : SessionId) : Bool := id ∈ c.shown.map (·.id)

/-- Whether a session will be shown once all frames are written. -/
def willShow (c : Client) (id : SessionId) : Bool :=
  after id (c.initialFrames ++ c.queue) (c.shows id)

end Client

/-- What the client has yet to receive. -/
def World.ahead (w : World) (c : Client) : List ManagerEvent := w.log.drop c.next

/-- Every session of the host will be shown, or the phone has yet to be told; what will be shown is
a session of the host, or the phone has yet to be told that it is gone, or was told too late that it
had come. Frames that are queued say as much themselves, since a list can be written ahead of them.
-/
structure Shown (w : World) (c : Client) : Prop where
  next : c.next ≤ w.log.length
  all : ∀ id ∈ w.sessions, w.Announcing id ∨ Announced (w.ahead c) id ∨ c.lagged = true ∨
    after id c.queue true = true ∧ (c.listed = true → c.willShow id = true)
  only : ∀ id, after id c.queue false = true ∨ c.listed = true ∧ c.willShow id = true →
    id ∈ w.sessions ∨ .removing id ∈ w.tasks ∨ .removed id ∈ w.ahead c ∨ Late w.log id ∨ c.lagged = true

variable {w w' : World} {c : Client} {id : SessionId} {frames frames' : List Frame} {b : Bool}
  {log es : List ManagerEvent} {s : System}

@[simp] theorem after_append :
    after id (frames ++ frames') b = after id frames' (after id frames b) := by
  rw [after, List.map_append, Replica.after_append]
  rfl

theorem after_cons (f : Frame) :
    after id (f :: frames) b = after id frames (f.msg.leaves SessionInfo.id id b) := rfl

theorem after_list (list : List SessionInfo) :
    after id [.sessionList list] b = decide (id ∈ list.map (·.id)) := rfl

theorem after_mono (h : after id frames false = true) (b : Bool) : after id frames b = true :=
  Replica.after_mono h b

theorem after_true (h : after id frames b = true) : after id frames true = true :=
  Replica.after_true h

theorem ids_list (w : World) : w.list.map (·.id) = w.sessions := by
  simp [World.list, World.info, Function.comp_def]

theorem mem_onFrame (sessions : List SessionInfo) (f : Frame) :
    decide (id ∈ (onFrame sessions f).map (·.id)) =
      f.msg.leaves SessionInfo.id id (decide (id ∈ sessions.map (·.id))) := by
  rw [onFrame_eq]
  exact Bool.eq_iff_iff.mpr (decide_eq_true_iff.trans (Replica.mem_apply sessions f.msg))

theorem Late.append (h : Late log id) (es : List ManagerEvent) : Late (log ++ es) id := by
  obtain ⟨pre, post, rfl, hpre, hpost⟩ := h
  exact ⟨pre, post ++ es, List.append_assoc _ _ _, hpre, World.announced_append.mpr (.inl hpost)⟩

/-- A step of the host. -/
theorem Shown.host (h : Shown w c) (hm : World.Moves w w' es) : Shown w' c := by
  have hahead : w'.ahead c = w.ahead c ++ es := by
    rw [World.ahead, hm.log, List.drop_append_of_le_length h.next]
    rfl
  refine ⟨?_, fun id hid => ?_, fun id hid => ?_⟩
  · rw [hm.log, List.length_append]
    exact Nat.le_add_right_of_le h.next
  · rw [hahead, World.announced_append]
    rcases hm.entered id hid with hid | hid
    · rcases h.all id hid with hid | hid | hid | hid
      · exact (hm.said id hid).imp_right fun hes => .inl (.inr hes)
      · exact .inr (.inl (.inl hid))
      · exact .inr (.inr (.inl hid))
      · exact .inr (.inr (.inr hid))
    · exact .inl hid
  · rw [hahead, hm.log]
    rcases h.only id hid with hid | hid | hid | hid | hid
    · exact (hm.left id hid).imp_right .inl
    · rcases hm.gone id hid with hid | hid
      · exact .inr (.inl hid)
      · exact .inr (.inr (.inl (List.mem_append_right _ hid)))
    · exact .inr (.inr (.inl (List.mem_append_left _ hid)))
    · exact .inr (.inr (.inr (.inl (hid.append es))))
    · exact .inr (.inr (.inr (.inr hid)))

theorem shown_connect (w : World) : Shown w { next := w.log.length } where
  next := Nat.le_refl _
  all _ _ := .inr (.inr (.inr ⟨rfl, nofun⟩))
  only _ h := h.elim nofun fun h => nomatch h.1

/-- The list is taken after the subscription, so nothing is missed. -/
theorem Shown.takeList (h : Shown w c) : Shown w (c.takeList w) := by
  rw [Client.takeList]
  split
  · exact h
  next hlisted =>
  have hwill : ∀ id, Client.willShow { c with listed := true, initialFrames := [.sessionList w.list] } id =
      after id c.queue (decide (id ∈ w.sessions)) := fun id => by
    rw [Client.willShow, after_append, after_list, ids_list]
  refine ⟨h.next, fun id hid => ?_, fun id hid => ?_⟩
  · rw [hwill, decide_eq_true hid]
    rcases h.all id hid with h | h | h | ⟨h, -⟩
    · exact .inl h
    · exact .inr (.inl h)
    · exact .inr (.inr (.inl h))
    · exact .inr (.inr (.inr ⟨h, fun _ => h⟩))
  · rw [hwill] at hid
    by_cases hmem : id ∈ w.sessions
    · exact .inl hmem
    · rw [decide_eq_false hmem] at hid
      exact h.only id (.inl (hid.elim (fun h => h) And.right))

/-- A list that is sent again makes up for what was missed. -/
theorem Shown.relist (h : Shown w c) : Shown w (c.relist w) := by
  rw [Client.relist]
  split
  · have hafter : ∀ id b, after id (c.queue ++ [.sessionList w.list]) b =
        decide (id ∈ w.sessions) := fun id b => by
      rw [after_append, after_list, ids_list]
    have hwill : ∀ id, Client.willShow { c with lagged := false, queue := c.queue ++ [.sessionList w.list] } id =
        decide (id ∈ w.sessions) := fun id => by
      rw [Client.willShow, after_append, hafter]
    refine ⟨h.next, fun id hid => ?_, fun id hid => .inl ?_⟩
    · rw [hafter, hwill, decide_eq_true hid]
      exact .inr (.inr (.inr ⟨rfl, fun _ => rfl⟩))
    · rw [hafter, hwill] at hid
      exact of_decide_eq_true (hid.elim (fun h => h) And.right)
  · exact h

/-- Frames that are written do what they said. -/
theorem Shown.write (h : Shown w c) : Shown w c.write := by
  rw [Client.write]
  split
  · exact h
  split
  next f rest hinitial =>
    have hwill : ∀ id, Client.willShow { c with initialFrames := rest, shown := onFrame c.shown f } id = c.willShow id := fun id => by
      rw [Client.willShow, Client.willShow, Client.shows, hinitial, mem_onFrame]
      rfl
    exact ⟨h.next, fun id hid => hwill id ▸ h.all id hid, fun id hid => h.only id (hwill id ▸ hid)⟩
  next f rest hinitial hqueue =>
    have hwill : ∀ id, Client.willShow { c with queue := rest, shown := onFrame c.shown f } id =
        c.willShow id := fun id => by
      rw [Client.willShow, Client.willShow, Client.shows, hinitial, hqueue, mem_onFrame]
      rfl
    refine ⟨h.next, fun id hid => ?_, fun id hid => ?_⟩
    · rw [hwill]
      refine (h.all id hid).imp_right (.imp_right (.imp_right (.imp_left fun hafter => ?_)))
      rw [hqueue, after_cons] at hafter
      exact after_true hafter
    · rw [hwill] at hid
      refine h.only id (hid.imp_left fun hafter => ?_)
      rw [hqueue, after_cons]
      exact after_mono hafter _
  · exact h

/-- A list that is written ahead of the queue. -/
theorem Shown.writeList (h : Shown w c) : Shown w (c.writeList w) := by
  rw [Client.writeList]
  split
  next hlisted =>
    have hwill : ∀ id, Client.willShow { c with shown := onFrame c.shown (.sessionList w.list) } id =
        after id c.queue (after id c.initialFrames (decide (id ∈ w.sessions))) := fun id => by
      rw [Client.willShow, after_append, Client.shows, onFrame, ids_list]
    have hold : ∀ id, c.willShow id = after id c.queue (after id c.initialFrames (c.shows id)) := fun id => by
      rw [Client.willShow, after_append]
    refine ⟨h.next, fun id hid => ?_, fun id hid => ?_⟩
    · rw [hwill, decide_eq_true hid]
      refine (h.all id hid).imp_right (.imp_right (.imp_right fun ⟨hqueue, hshown⟩ => ⟨hqueue, fun _ => ?_⟩))
      cases hinitial : after id c.initialFrames true with
      | true => exact hqueue
      | false =>
        have hshown := hshown hlisted
        rw [hold] at hshown
        cases hbefore : after id c.initialFrames (c.shows id) with
        | true => exact absurd (after_true hbefore) (by rw [hinitial]; exact nofun)
        | false => rwa [hbefore] at hshown
    · rw [hwill] at hid
      by_cases hmem : id ∈ w.sessions
      · exact .inl hmem
      rw [decide_eq_false hmem] at hid
      refine h.only id (hid.elim .inl fun ⟨_, hshown⟩ => ?_)
      cases hinitial : after id c.initialFrames false with
      | true =>
        rw [hinitial] at hshown
        refine .inr ⟨hlisted, ?_⟩
        rw [hold, after_mono hinitial]
        exact hshown
      | false =>
        rw [hinitial] at hshown
        exact .inl hshown
  · exact h

/-- An announcement is received. -/
theorem Shown.receive (h : Shown w c) (hinv : w.Inv) : Shown w (c.receive w) := by
  rw [Client.receive]
  split
  · exact h
  next hlagged =>
  split
  · exact h
  next next hrecv =>
    exact ⟨Broadcast.recv_lagged hrecv, fun _ _ => .inr (.inr (.inl rfl)), fun _ _ => .inr (.inr (.inr (.inr rfl)))⟩
  next e next hrecv =>
  obtain ⟨hle, hahead, hsplit⟩ := Broadcast.recv_value hrecv
  change w.ahead c = _ at hahead
  have hwill : ∀ id, Client.willShow { c with next, queue := c.queue ++ e.frames } id =
      after id e.frames (c.willShow id) :=
    fun id => by
      rw [Client.willShow, ← List.append_assoc, after_append]
      rfl
  refine ⟨hle, fun id hid => ?_, fun id hid => ?_⟩
  · have hkeeps : after id e.frames true = true := by
      cases e with
      | added info =>
        show (if info.id = id then true else true) = true
        rw [ite_self]
      | removed n =>
        have hne : n ≠ id := by
          rintro rfl
          exact World.not_mem_of_removed hinv (hsplit ▸ List.mem_append_right _ List.mem_cons_self) hid
        exact if_neg hne
      | other => rfl
    rw [hwill, after_append]
    rcases h.all id hid with hid | hid | hid | ⟨hqueue, hshown⟩
    · exact .inl hid
    · rw [hahead] at hid
      obtain ⟨title, hmem⟩ := hid
      rcases List.mem_cons.mp hmem with rfl | hmem
      · have hput : ∀ b, after id (ManagerEvent.added ⟨id, title⟩).frames b = true := fun b => if_pos rfl
        exact .inr (.inr (.inr ⟨hput _, fun _ => hput _⟩))
      · exact .inr (.inl ⟨title, hmem⟩)
    · exact absurd hid hlagged
    · refine .inr (.inr (.inr ⟨by rw [hqueue, hkeeps], fun hlisted => ?_⟩))
      rw [hshown hlisted, hkeeps]
  · rw [hwill, after_append] at hid
    have hold : (after id c.queue false = true ∨ c.listed = true ∧ c.willShow id = true) →
        e ≠ .removed id →
        id ∈ w.sessions ∨ .removing id ∈ w.tasks ∨ .removed id ∈ w.log.drop next ∨ Late w.log id ∨ c.lagged = true := by
      intro hid hne
      refine (h.only id hid).imp_right (.imp_right (.imp_left fun hmem => ?_))
      rw [hahead] at hmem
      exact (List.mem_cons.mp hmem).resolve_left fun he => hne he.symm
    cases e with
    | added info =>
      by_cases hinfo : info.id = id
      · subst hinfo
        have hknown :=
          hinv.announced info.id ⟨info.title, hsplit ▸ List.mem_append_right _ List.mem_cons_self⟩
        refine hknown.imp_right (.imp_right fun hremoved => ?_)
        rw [hsplit] at hremoved
        rcases List.mem_append.mp hremoved with hmem | hmem
        · exact .inr (.inl ⟨_, _, hsplit, hmem, info.title, List.mem_cons_self⟩)
        · exact .inl ((List.mem_cons.mp hmem).resolve_left nofun)
      · refine hold ?_ nofun
        have hsame : ∀ b, after id (ManagerEvent.added info).frames b = b := fun b => if_neg hinfo
        rwa [hsame, hsame] at hid
    | removed n =>
      by_cases hn : n = id
      · subst hn
        have hgone : ∀ b, after n (ManagerEvent.removed n).frames b = false := fun b => if_pos rfl
        rw [hgone, hgone] at hid
        exact hid.elim nofun fun h => nomatch h.2
      · refine hold ?_ fun he => hn (ManagerEvent.removed.inj he)
        have hsame : ∀ b, after id (ManagerEvent.removed n).frames b = b := fun b => if_neg hn
        rwa [hsame, hsame] at hid
    | other => exact hold hid nofun

/-! ## Every run -/

namespace System

/-- No client yet. -/
def start (maxSessions : Nat) : System := { host := World.start maxSessions }

/-- The invariant of the host, and what the client is owed. -/
structure Inv (s : System) : Prop where
  host : s.host.Inv
  client : ∀ c, s.client = some c → Shown s.host c

theorem Inv.map (h : Inv s) (f : Client → Client) (hf : ∀ c, Shown s.host c → Shown s.host (f c)) :
    Inv { s with client := s.client.map f } := by
  refine ⟨h.host, fun c hc => ?_⟩
  obtain ⟨c, hsome, rfl⟩ := Option.map_eq_some_iff.mp hc
  exact hf c (h.client c hsome)

theorem Inv.step (h : Inv s) (a : Act) : Inv (s.step a) := by
  cases a with
  | host e =>
    obtain ⟨es, hm⟩ := World.moves_step s.host e
    exact ⟨h.host.step e, fun c hc => (h.client c hc).host hm⟩
  | connect => exact ⟨h.host, fun c hc => Option.some.inj hc ▸ shown_connect _⟩
  | disconnect => exact ⟨h.host, nofun⟩
  | takeList => exact h.map _ fun _ => Shown.takeList
  | receive => exact h.map _ fun _ hc => hc.receive h.host
  | relist => exact h.map _ fun _ => Shown.relist
  | write => exact h.map _ fun _ => Shown.write
  | writeList => exact h.map _ fun _ => Shown.writeList

theorem inv_run (maxSessions : Nat) (acts : List Act) :
    Inv (Run.run step (start maxSessions) acts) :=
  Run.run_induction (I := fun _ (s : System) => s.Inv) ⟨World.inv_start maxSessions, nofun⟩ fun _ a _ _ h => h.step a

/-- Everything that was announced is written. -/
structure CaughtUp (w : World) (c : Client) : Prop where
  listed : c.listed = true
  lagged : c.lagged = false
  received : c.next = w.log.length
  initial : c.initialFrames = []
  queue : c.queue = []

/-- In every run, a phone that has caught up shows every session of the host but those not announced
yet, and it shows no other but those whose end is not announced yet and those announced after their
end. -/
theorem list_converges (maxSessions : Nat) (acts : List Act) (c : Client)
    (hclient : (Run.run step (start maxSessions) acts).client = some c)
    (hc : CaughtUp (Run.run step (start maxSessions) acts).host c) :
    let w := (Run.run step (start maxSessions) acts).host
    (∀ id ∈ w.sessions, id ∈ c.shown.map (·.id) ∨ w.Announcing id) ∧
      (∀ id ∈ c.shown.map (·.id), id ∈ w.sessions ∨ .removing id ∈ w.tasks ∨ Late w.log id) ∧
      (w.tasks = [] → (∀ id, ¬ Late w.log id) → ∀ id, id ∈ c.shown.map (·.id) ↔ id ∈ w.sessions) := by
  intro w
  have hshown : Shown w c := (inv_run maxSessions acts).client c hclient
  have hahead : w.ahead c = [] := by
    rw [World.ahead, hc.received]
    exact List.drop_length
  have hwill : ∀ id, c.willShow id = decide (id ∈ c.shown.map (·.id)) := fun id => by
    rw [Client.willShow, hc.initial, hc.queue]
    rfl
  have hall : ∀ id ∈ w.sessions, id ∈ c.shown.map (·.id) ∨ w.Announcing id := by
    intro id hid
    rcases hshown.all id hid with h | h | h | ⟨-, h⟩
    · exact .inr h
    · rw [hahead] at h
      exact absurd h World.not_announced_nil
    · rw [hc.lagged] at h
      cases h
    · exact .inl (of_decide_eq_true (hwill id ▸ h hc.listed))
  have honly : ∀ id ∈ c.shown.map (·.id), id ∈ w.sessions ∨ .removing id ∈ w.tasks ∨
      Late w.log id := by
    intro id hid
    rcases hshown.only id (.inr ⟨hc.listed, (hwill id).trans (decide_eq_true hid)⟩) with h | h | h | h | h
    · exact .inl h
    · exact .inr (.inl h)
    · rw [hahead] at h
      cases h
    · exact .inr (.inr h)
    · rw [hc.lagged] at h
      cases h
  refine ⟨hall, honly, fun htasks hlate id => ⟨fun hid => ?_, fun hid => ?_⟩⟩
  · rcases honly id hid with h | h | h
    · exact h
    · rw [htasks] at h
      cases h
    · exact absurd h (hlate id)
  · rcases hall id hid with h | ⟨agent, h⟩
    · exact h
    · rw [htasks] at h
      cases h

/-- A shell ends before it is announced. -/
def shortShell : List Act :=
  [.connect, .takeList, .write, .host (.spawn false none), .host (.advance (.reserved false "shell")),
    .host (.advance (.numbered false 1)), .host (.removeDead 1), .host (.advance (.removing 1)),
    .host (.advance (.inserted false 1)), .host (.advance .leaving), .receive, .receive, .write, .write]

/-- The phone that saw it. -/
def shortShellClient : Client :=
  { next := 2, listed := true, shown := [⟨1, "shell"⟩] }

theorem list_converges_short_shell :
    let w := (Run.run step (start 1) shortShell).host
    (∀ id ∈ w.sessions, id ∈ shortShellClient.shown.map (·.id) ∨ w.Announcing id) ∧
      (∀ id ∈ shortShellClient.shown.map (·.id), id ∈ w.sessions ∨ .removing id ∈ w.tasks ∨ Late w.log id) ∧
      (w.tasks = [] → (∀ id, ¬ Late w.log id) → ∀ id, id ∈ shortShellClient.shown.map (·.id) ↔ id ∈ w.sessions) :=
  list_converges 1 shortShell shortShellClient (by decide +kernel)
    ⟨by decide, by decide, by decide +kernel, by decide, by decide⟩

/-- It stays in the list of the phone. -/
example : (Run.run step (start 1) shortShell).host.sessions = [] ∧ (Run.run step (start 1) shortShell).host.tasks = [] ∧
    shortShellClient.shown = [⟨1, "shell"⟩] := by decide +kernel

end System

end Portty.Host.Sessions
