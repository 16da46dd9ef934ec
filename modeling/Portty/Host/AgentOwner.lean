import Portty.Lib.Run
import Portty.Lib.Table

/-!
# Who owns an agent conversation (`session.rs`)

`spawn_agent_with` chooses the conversation to resume before the session is registered, and takes it
under the lock of the sessions only if no session of the provider has it. The driver of the session
(`run_acp_session`) records the id of the conversation when the agent answers, and some calls later
the conversation that its next connection will reopen (`persist_tracked_acp_session`).

`one_owner`: no two sessions have one conversation, in every run in which no connection ends between
the record of a new conversation in place of a resumed one and its tracking. `two_owners`: else the
driver goes back to the conversation that it had left.
-/

namespace Portty.Host.AgentOwner

/-- The agents that can be started. -/
inductive AgentProvider where
  | claudeCode
  | openCode
  | codex
  | goose
  deriving DecidableEq, Repr

/-- What a spawn is to continue. -/
inductive AgentResume where
  | latest
  | fresh
  | session (id : String)
  deriving DecidableEq, Repr

/-- Where the driver of a session is. -/
inductive Phase where
  /-- Before a connection. -/
  | waiting
  /-- The setup of a connection that reads this conversation from `resume_state`. -/
  | setup (cached : Option String)
  /-- `acp_session_id` is recorded, and not tracked yet. -/
  | recorded (id : String)
  | established
  | ended
  deriving DecidableEq, Repr

/-- A session of an agent, and the conversation that it has. -/
structure Session where
  provider : Option AgentProvider
  /-- `acp_session_id` of the handle. -/
  acpSessionId : Option String
  /-- The conversation of `resume_state`. -/
  resume : Option String
  phase : Phase := .waiting
  everEstablished : Bool := false
  /-- It is in the map of the manager. -/
  registered : Bool := true
  deriving DecidableEq, Repr

/-- The sessions of the manager, by number, with those that were removed. -/
abbrev Manager := List Session

/-- What the sessions and their drivers do. -/
inductive Event where
  /-- `found` is what the cache or the list of the agent has for the request. -/
  | spawn (provider : Option AgentProvider) (resume : AgentResume) (found : Option String)
  | connect (i : Nat)
  /-- The agent has reopened the conversation. -/
  | reopened (i : Nat)
  /-- The agent has begun a new conversation. -/
  | created (i : Nat) (id : String)
  /-- `persist_tracked_acp_session` -/
  | persist (i : Nat)
  /-- The connection ends; the driver gives up or not. -/
  | lost (i : Nat) (giveUp : Bool)
  | kill (i : Nat)
  deriving Repr

namespace Manager

variable (w : Manager)

/-- The conversation to resume, before the check. -/
def cached (provider : Option AgentProvider) (resume : AgentResume) (found : Option String) :
    Option String :=
  match resume, provider with
  | .fresh, _ | _, none => none
  | .latest, some _ => found
  | .session id, some _ => found.map fun _ => id

/-- A registered session of the provider has the conversation. -/
def alreadyLive (provider : Option AgentProvider) (id : String) : Bool :=
  w.any fun s => s.registered && s.provider == provider && s.acpSessionId == some id

/-- The check and the registration are one step. -/
def spawnAgentWith (provider : Option AgentProvider) (resume : AgentResume)
    (found : Option String) :
    Manager :=
  let resume := (cached provider resume found).filter fun id => !w.alreadyLive provider id
  w ++ [{ provider, acpSessionId := resume, resume }]

/-- What a step of a driver does to its session. -/
def drive (f : Session → Session) (i : Nat) : Manager := w.modify i f

/-- The driver connects. -/
def connect (s : Session) : Session :=
  match s.phase with
  | .waiting => { s with phase := .setup s.resume }
  | _ => s

/-- The session has this conversation. -/
def record (s : Session) (id : String) : Session :=
  { s with acpSessionId := some id, phase := .recorded id }

/-- The agent has reopened the conversation that it was to resume. -/
def reopened (s : Session) : Session :=
  match s.phase with
  | .setup (some id) => record s id
  | _ => s

/-- The agent has begun a new one. -/
def created (id : String) (s : Session) : Session :=
  match s.phase with
  | .setup _ => record s id
  | _ => s

/-- Nothing is tracked for a session without a provider. -/
def persist (s : Session) : Session :=
  match s.phase with
  | .recorded id =>
    { s with
      resume := if s.provider.isSome then some id else s.resume
      phase := .established
      everEstablished := true }
  | _ => s

/-- The connection is lost, and the driver tries again or ends. -/
def lost (giveUp : Bool) (s : Session) : Session :=
  match s.phase with
  | .setup _ | .recorded _ | .established =>
    { s with phase := if s.everEstablished && !giveUp then .waiting else .ended }
  | _ => s

/-- The session gives its conversation up. -/
def kill (s : Session) : Session := { s with registered := false, acpSessionId := none }

/-- One event. -/
def step : Event → Manager
  | .spawn provider resume found => w.spawnAgentWith provider resume found
  | .connect i => w.drive connect i
  | .reopened i => w.drive reopened i
  | .created i id => w.drive (created id) i
  | .persist i => w.drive persist i
  | .lost i giveUp => w.drive (lost giveUp) i
  | .kill i => w.drive kill i

end Manager

open Manager

variable {w : Manager} {s : Session} {i j : Nat}

/-! ## Owners -/

/-- Two registered sessions of a provider do not have one conversation. -/
def OneOwner (w : Manager) : Prop :=
  ∀ (i j : Nat) (s t : Session) (id : String), w[i]? = some s → w[j]? = some t →
    s.registered = true → t.registered = true → s.provider = t.provider →
    s.acpSessionId = some id → t.acpSessionId = some id → i = j

/-- The agent issues an id that no session knows. -/
def Fresh (w : Manager) (id : String) : Prop :=
  ∀ s ∈ w, s.acpSessionId ≠ some id ∧ s.resume ≠ some id

/-- The driver has recorded a new conversation, and its next connection would reopen another one. -/
def Session.stale (s : Session) : Bool :=
  match s.phase, s.resume with
  | .recorded id, some old => s.everEstablished && id != old
  | _, _ => false

/-- New ids are fresh, and a connection does not end while its driver would go back. -/
def Meets (w : Manager) : Event → Prop
  | .created _ id => Fresh w id
  | .lost i giveUp => giveUp = true ∨ ∀ s ∈ w[i]?, s.stale = false
  | _ => True

instance (w : Manager) : (ev : Event) → Decidable (Meets w ev)
  | .created _ id => inferInstanceAs (Decidable (∀ s ∈ w, s.acpSessionId ≠ some id ∧ s.resume ≠ some id))
  | .lost i giveUp =>
    match h : w[i]? with
    | none => .isTrue (.inr fun s hs => by rw [h] at hs; cases hs)
    | some s =>
      if hg : giveUp = true ∨ s.stale = false then
        .isTrue (hg.imp_right fun hs t ht => by rw [h] at ht; cases ht; exact hs)
      else .isFalse fun hm => hg (hm.imp_right fun hs => hs s (by rw [h]; rfl))
  | .spawn .. | .connect _ | .reopened _ | .persist _ | .kill _ => .isTrue trivial

/-- The conversation that the next connection reopens is the one of the session. -/
def Session.Tracks (s : Session) : Prop :=
  match s.phase with
  | .waiting | .established => ∀ id, s.resume = some id → s.acpSessionId = some id
  | .setup cached => cached = s.resume ∧ ∀ id, s.resume = some id → s.acpSessionId = some id
  | .recorded id => s.acpSessionId = some id
  | .ended => True

/-- The conversation that is noted is the one that the driver has or will have. -/
structure Session.Ok (s : Session) : Prop where
  tracks : s.Tracks
  untracked : s.provider = none → s.resume = none

/-- No conversation has two sessions. -/
structure Inv (w : Manager) : Prop where
  owner : OneOwner w
  ok : ∀ s ∈ w, s.registered = true → s.Ok

/-- A step of a driver that keeps the conversation, or takes one that no other session has. -/
theorem Inv.drive (h : Inv w) {f : Session → Session} (hs : w[i]? = some s)
    (hprov : (f s).provider = s.provider) (hreg : (f s).registered = true → s.registered = true)
    (hid : ∀ id, (f s).registered = true → (f s).acpSessionId = some id →
      s.acpSessionId = some id ∨ ∀ t ∈ w, t.acpSessionId ≠ some id)
    (hok : (f s).registered = true → s.Ok → (f s).Ok) : Inv (w.drive f i) := by
  constructor
  · intro j k t u id ht' hu' htr hur hp hti hui
    rcases Table.modify_cases ht' with ⟨rfl, x, hx, rfl⟩ | ⟨hj, ht⟩ <;>
      rcases Table.modify_cases hu' with ⟨rfl, y, hy, rfl⟩ | ⟨hk, hu⟩
    · rfl
    · obtain rfl : s = x := Option.some.inj (hs.symm.trans hx)
      rcases hid id htr hti with hsame | hfree
      · exact h.owner _ _ s u id hs hu (hreg htr) hur (hprov ▸ hp) hsame hui
      · exact absurd hui (hfree u (List.mem_of_getElem? hu))
    · obtain rfl : s = y := Option.some.inj (hs.symm.trans hy)
      rcases hid id hur hui with hsame | hfree
      · exact h.owner _ _ t s id ht hs htr (hreg hur) (hp.trans hprov) hti hsame
      · exact absurd hti (hfree t (List.mem_of_getElem? ht))
    · exact h.owner j k t u id ht hu htr hur hp hti hui
  · intro t ht htr
    obtain ⟨j, hj⟩ := List.mem_iff_getElem?.mp ht
    rcases Table.modify_cases hj with ⟨rfl, x, hx, rfl⟩ | ⟨-, hj⟩
    · obtain rfl : s = x := Option.some.inj (hs.symm.trans hx)
      exact hok htr (h.ok s (List.mem_of_getElem? hs) (hreg htr))
    · exact h.ok t (List.mem_of_getElem? hj) htr

theorem drive_none {f : Session → Session} (hs : w[i]? = none) : w.drive f i = w :=
  List.modify_eq_self (List.getElem?_eq_none_iff.mp hs)

/-- A driver that changes nothing of its conversation. -/
theorem Inv.keep (h : Inv w) {f : Session → Session} (hprov : ∀ s, (f s).provider = s.provider)
    (hreg : ∀ s, (f s).registered = s.registered) (hid : ∀ s, (f s).acpSessionId = s.acpSessionId)
    (hok : ∀ s ∈ w[i]?, s.Ok → (f s).Ok) : Inv (w.drive f i) := by
  cases hs : w[i]? with
  | none => rwa [drive_none hs]
  | some s =>
    refine h.drive hs (hprov s) (fun hr => hreg s ▸ hr) (fun id _ he => .inl (hid s ▸ he)) fun _ => ?_
    exact hok s hs

theorem not_alreadyLive {provider : Option AgentProvider} {id : String}
    (h : w.alreadyLive provider id = false) (hs : s ∈ w) (hr : s.registered = true)
    (hp : s.provider = provider) : s.acpSessionId ≠ some id := by
  intro he
  have : w.alreadyLive provider id = true :=
    List.any_eq_true.mpr ⟨s, hs, by simp [hr, hp, he]⟩
  cases h.symm.trans this

/-- What is resumed, no other session owns. -/
theorem Inv.spawn (h : Inv w) (provider : Option AgentProvider) (resume : AgentResume)
    (found : Option String) : Inv (w.spawnAgentWith provider resume found) := by
  have hfree : ∀ id, (cached provider resume found).filter (fun id => !w.alreadyLive provider id) =
      some id →
      ∀ s ∈ w, s.registered = true → s.provider = provider → s.acpSessionId ≠ some id := by
    intro id hid s hs hr hp
    obtain ⟨-, hlive⟩ := Option.filter_eq_some_iff.mp hid
    exact not_alreadyLive (by simpa using hlive) hs hr hp
  constructor
  · intro j k t u id ht hu htr hur hp hti hui
    rcases Table.concat_cases ht with ht | ⟨rfl, rfl⟩ <;> rcases Table.concat_cases hu with hu | ⟨rfl, rfl⟩
    · exact h.owner j k t u id ht hu htr hur hp hti hui
    · exact absurd hti (hfree id hui t (List.mem_of_getElem? ht) htr hp)
    · exact absurd hui (hfree id hti u (List.mem_of_getElem? hu) hur hp.symm)
    · rfl
  · intro t ht htr
    rcases List.mem_append.mp ht with ht | ht
    · exact h.ok t ht htr
    · rw [List.mem_singleton.mp ht]
      refine ⟨fun id hid => hid, fun hp => ?_⟩
      have hnone : cached provider resume found = none := by
        rw [show provider = none from hp]
        cases resume <;> rfl
      simp [hnone]

theorem lost_resume (giveUp : Bool) (s : Session) : (lost giveUp s).resume = s.resume := by
  unfold lost; split <;> rfl

theorem lost_provider (giveUp : Bool) (s : Session) : (lost giveUp s).provider = s.provider := by
  unfold lost; split <;> rfl

/-- After the end of a connection the next one reopens the conversation of the session. -/
theorem lost_tracks {giveUp : Bool} (h : s.Tracks) (hs : giveUp = true ∨ s.stale = false) :
    (lost giveUp s).Tracks := by
  unfold lost
  split
  · rename_i hph
    rw [Session.Tracks, hph] at h
    by_cases hc : (s.everEstablished && !giveUp) = true <;> simp only [hc, ↓reduceIte, Bool.false_eq_true]
    · exact h.2
    · trivial
  · rename_i id hph
    rw [Session.Tracks, hph] at h
    by_cases hc : (s.everEstablished && !giveUp) = true <;> simp only [hc, ↓reduceIte, Bool.false_eq_true]
    · intro old hold
      obtain ⟨he, hg⟩ : s.everEstablished = true ∧ giveUp = false := by simpa using hc
      rcases hs with hs | hs
      · cases hg.symm.trans hs
      · rw [Session.stale, hph, hold] at hs
        obtain rfl : id = old := by simpa [he] using hs
        exact h
    · trivial
  · rename_i hph
    rw [Session.Tracks, hph] at h
    by_cases hc : (s.everEstablished && !giveUp) = true <;> simp only [hc, ↓reduceIte, Bool.false_eq_true]
    · exact h
    · trivial
  · exact h

theorem Inv.step (h : Inv w) {ev : Event} (hm : Meets w ev) : Inv (w.step ev) := by
  cases ev with
  | spawn provider resume found => exact h.spawn provider resume found
  | connect i =>
    refine h.keep (f := connect) ?_ ?_ ?_ ?_
    · intro s; unfold connect; split <;> rfl
    · intro s; unfold connect; split <;> rfl
    · intro s; unfold connect; split <;> rfl
    · intro s _ hok
      unfold connect
      split
      · rename_i hph
        have ht := hok.tracks
        rw [Session.Tracks, hph] at ht
        exact ⟨⟨rfl, ht⟩, hok.untracked⟩
      · exact hok
  | reopened i =>
    simp only [Manager.step]
    cases hs : w[i]? with
    | none => rwa [drive_none hs]
    | some s =>
      have hmem := List.mem_of_getElem? hs
      refine h.drive hs ?_ ?_ ?_ ?_
      · unfold reopened; split <;> rfl
      · unfold reopened; split <;> exact id
      · unfold reopened
        split
        · rename_i id hph
          intro id' hreg he
          have ht := (h.ok s hmem hreg).tracks
          rw [Session.Tracks, hph] at ht
          cases he
          exact .inl (ht.2 id ht.1.symm)
        · exact fun id _ he => .inl he
      · unfold reopened
        split
        · exact fun _ hok => ⟨rfl, hok.untracked⟩
        · exact fun _ hok => hok
  | created i id =>
    simp only [Manager.step]
    cases hs : w[i]? with
    | none => rwa [drive_none hs]
    | some s =>
      refine h.drive hs ?_ ?_ ?_ ?_
      · unfold created; split <;> rfl
      · unfold created; split <;> exact fun hr => hr
      · unfold created
        split
        · rintro id' - ⟨⟩
          exact .inr fun t ht => (hm t ht).1
        · exact fun id _ he => .inl he
      · unfold created
        split
        · exact fun _ hok => ⟨rfl, hok.untracked⟩
        · exact fun _ hok => hok
  | persist i =>
    refine h.keep (f := persist) ?_ ?_ ?_ ?_
    · intro s; unfold persist; split <;> rfl
    · intro s; unfold persist; split <;> rfl
    · intro s; unfold persist; split <;> rfl
    · intro s _ hok
      unfold persist
      split
      · rename_i id hph
        have ht := hok.tracks
        rw [Session.Tracks, hph] at ht
        cases hp : s.provider with
        | none =>
          have hnone := hok.untracked hp
          refine ⟨fun id' he => ?_, fun _ => hnone⟩
          simp [hnone] at he
        | some provider =>
          refine ⟨fun id' he => ?_, nofun⟩
          cases he
          exact ht
      · exact hok
  | lost i giveUp =>
    refine h.keep (f := lost giveUp) ?_ ?_ ?_ ?_
    · intro s; unfold lost; split <;> rfl
    · intro s; unfold lost; split <;> rfl
    · intro s; unfold lost; split <;> rfl
    · intro s hs hok
      have hback := lost_tracks hok.tracks (hm.imp_right fun hall => hall s hs)
      exact ⟨hback, fun hp => by rw [lost_resume]; exact hok.untracked (by rwa [lost_provider] at hp)⟩
  | kill i =>
    simp only [Manager.step]
    cases hs : w[i]? with
    | none => rwa [drive_none hs]
    | some s => exact h.drive hs rfl nofun nofun nofun

/-! ## The result -/

theorem inv_nil : Inv [] := by
  refine ⟨fun i j s t id hs => ?_, by simp⟩
  simp at hs

/-- No two sessions of a provider have one conversation. -/
theorem one_owner (evs : List Event) (h : Run.Along Manager.step Meets [] evs) :
    OneOwner (Run.run Manager.step [] evs) := by
  have hinv : Inv (Run.run Manager.step [] evs) :=
    h.induction inv_nil fun _ _ hw hm => hw.step hm
  exact hinv.owner

/-- A session resumes a conversation, and loses it to a new one that it has not tracked when its
connection ends; meanwhile another session has resumed it. -/
def leftRun (giveUp : Bool) : List Event :=
  [.spawn (some .codex) .latest (some "x"), .connect 0, .reopened 0, .persist 0, .lost 0 false,
    .connect 0, .created 0 "y", .spawn (some .codex) (.session "x") (some "x"), .lost 0 giveUp,
    .connect 0, .reopened 0]

theorem one_owner_given_up :
    Run.Along Manager.step Meets [] (leftRun true) ∧
      OneOwner (Run.run Manager.step [] (leftRun true)) :=
  ⟨by decide, one_owner (leftRun true) (by decide)⟩

/-- The driver goes back to the conversation that now belongs to the other session. -/
theorem two_owners : Fresh (Run.run Manager.step [] ((leftRun false).take 6)) "y" ∧
    ¬ OneOwner (Run.run Manager.step [] (leftRun false)) := by
  refine ⟨by unfold Fresh; decide, fun h => ?_⟩
  have hrun : Run.run Manager.step [] (leftRun false) =
      [{ provider := some .codex, acpSessionId := some "x", resume := some "x", phase := .recorded "x",
         everEstablished := true },
       { provider := some .codex, acpSessionId := some "x", resume := some "x" }] := by decide
  rw [hrun] at h
  have := h 0 1 _ _ "x" rfl rfl rfl rfl rfl rfl rfl
  omega

end Portty.Host.AgentOwner
