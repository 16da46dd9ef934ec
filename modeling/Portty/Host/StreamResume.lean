import Portty.Host.StreamCoherent

/-!
# Warm resume

`resume_output` sends what the phone has recorded for the session: the last sequence number and the
generation. `Exact` says that these describe the terminal, so that the delta which the host serves
completes it.

The number and the terminal are set by different frames. A `ScreenReset` clears the terminal and
leaves the number; the number comes after the snapshot. `SettledResume` are the resumes where they
agree: a sequence number has arrived since the last `ScreenReset`, nothing was skipped, and the
phone has not cleared the terminal itself to open the session; or where the host has the session and
answers with a reset (`AnsweredByReset`). A host that does not know the session ignores the command.
-/

namespace Portty

namespace Stream

open Scrollback Chunks

variable {w : World} {id : SessionId} {life : Nat}

/-- The terminal is the output of the session in the recorded lifetime up to the recorded number,
from where the snapshot started. The delta after this number completes it. -/
structure Exact (w : World) (life : Nat) (id : SessionId) : Prop where
  le : (w.phone.views id).lastSeq ≤ (w.outputs id (w.phone.views id).lastGeneration).length
  term : w.phone.term =
    (through (w.phone.views id).lastSeq (w.outputs id (w.phone.views id).lastGeneration)).drop
      (w.phone.views id).start
  delta : (w.phone.views id).lastGeneration = life → ∀ chunks throughSeq,
    (w.sessions life id).deltaSince (w.phone.views id).lastSeq = some (chunks, throughSeq) →
    w.phone.term ++ (chunks.map (·.bytes)).flatten =
      (w.sessions life id).out.flatten.drop (w.phone.views id).start

/-- The host answers the command that the phone sends now with a reset and a snapshot: the session
is a terminal of this lifetime, and whenever the handler takes the command, after any further steps,
and the session is still there, it writes a `ScreenReset`, the size and the snapshot. -/
structure AnsweredByReset (cap : Nat) (w : World) (life : Nat) (id : SessionId) : Prop where
  listed : (w.sessions life id).listed = true
  terminal : (w.sessions life id).agent = false
  answer : ∀ evs, let w' := Run.run (World.step cap) w evs
    (w'.sessions life id).listed = true → (w'.sessions life id).agent = false →
    (w'.handle life
      (.outputResume id (w.phone.views id).lastSeq (w.phone.views id).lastGeneration)).wire =
      w'.wire ++ [resetFrame id life (w'.sessions life id),
        .sessionSize id (w'.sessions life id).size] ++ snapshotFrames id (w'.sessions life id)

/-- What the phone sends when it resumes describes its terminal, or the host resets it. -/
def Resumes (cap : Nat) (w : World) (ev : Event) : Prop :=
  ev = .resumeOutput → ∀ life id, w.link = some life → w.phone.activeId = some id →
    Exact w life id ∨ AnsweredByReset cap w life id

/-- The number and the terminal agree; or the session is a terminal of the host, and the lifetime is
another one or the number is no longer in the ring. -/
def Settled (w : World) : Option Nat → Option SessionId → Prop
  | some life, some id =>
    ((w.phone.views id).whole ∧ (w.phone.views id).settled ∧ w.phone.cleared = false) ∨
    ((w.sessions life id).listed ∧ (w.sessions life id).agent = false) ∧
      ((w.phone.views id).lastGeneration ≠ life ∨
        (w.phone.views id).lastSeq + 1 < (w.sessions life id).ring.minFullSeq)
  | some _, none => True
  | none, _ => True

/-- The phone resumes only when this is settled. -/
def SettledResume (w : World) : Event → Prop
  | .resumeOutput => Settled w w.link w.phone.activeId
  | _ => True

instance : ∀ link activeId, Decidable (Settled w link activeId)
  | some _, some _ => inferInstanceAs (Decidable (_ ∨ _))
  | some _, none => .isTrue trivial
  | none, _ => .isTrue trivial

instance : ∀ ev, Decidable (SettledResume w ev)
  | .resumeOutput => inferInstanceAs (Decidable (Settled w w.link w.phone.activeId))
  | .opened .. | .closed .. | .resize .. | .draw .. | .publish .. | .connect _ | .linkLost
  | .attachTo _ | .leave | .detach | .pauseStream | .resumeStream | .handle | .forward | .notify
  | .write | .receive => .isTrue trivial

/-! ## The answer of the host -/

/-- The rings hold the end of the output, and of their oldest chunk at most the front is missing. -/
def Rings (w : World) : Prop :=
  ∀ life id, Holds (w.sessions life id).ring (w.sessions life id).out ∧
    FrontBound (w.sessions life id).ring

theorem rings_start : Rings {} :=
  fun _ _ => ⟨holds_nil, fun _ hf => by cases hf⟩

theorem send_sessions (w : World) (command : Command) :
    (w.send command).sessions = w.sessions := by
  unfold World.send
  split <;> rfl

theorem attach_sessions (w : World) (life : Nat) (id : SessionId) :
    (w.attach life id).sessions = w.sessions := by
  unfold World.attach
  dsimp only
  split
  · rfl
  split <;> rfl

theorem attachResume_sessions (w : World) (life : Nat) (id : SessionId)
    (afterSeq generation : Nat) :
    (w.attachResume life id afterSeq generation).sessions = w.sessions := by
  unfold World.attachResume
  dsimp only
  split
  · exact attach_sessions w life id
  split
  · exact attach_sessions w life id
  split
  · exact attach_sessions w life id
  · rfl

/-- A command leaves the sessions as they are. -/
theorem handle_sessions (w : World) (life : Nat) (command : Command) :
    (w.handle life command).sessions = w.sessions := by
  unfold World.handle
  split
  · split
    · exact attach_sessions _ life _
    · rfl
  · rfl
  · rfl
  · split
    · exact attach_sessions w life _
    · rfl
  · split
    · exact attachResume_sessions _ life _ _ _
    · rfl

theorem forward_sessions (w : World) (life : Nat) (f : Forwarder) :
    (w.forward life f).sessions = w.sessions := by
  unfold World.forward
  split
  · split <;> rfl
  · rfl

/-- The output and the ring of a session are as they were. -/
def SameOutput (s s' : Session) : Prop := s'.ring = s.ring ∧ s'.out = s.out

/-- A step leaves the output and the ring of a session, or publishes a chunk of it. -/
theorem sessions_step (cap : Nat) (w : World) (ev : Event) (life : Nat) (id : SessionId) :
    SameOutput (w.sessions life id) ((w.step cap ev).sessions life id) ∨
      (w.step cap ev).sessions life id = (w.sessions life id).publish cap := by
  have hsame {w' : World} (h : w'.sessions = w.sessions) :
      SameOutput (w.sessions life id) (w'.sessions life id) := by
    rw [h]
    exact ⟨rfl, rfl⟩
  have hupdate (life' : Nat) (id' : SessionId) (f : Session → Session)
      (hf : ∀ s, SameOutput s (f s)) :
      SameOutput (w.sessions life id) ((w.updateSession life' id' f).sessions life id) := by
    rw [updateSession_sessions]
    split
    next h =>
      obtain ⟨rfl, rfl⟩ := h
      exact hf _
    · exact ⟨rfl, rfl⟩
  cases ev with
  | opened life' id' agent =>
    exact .inl (hupdate life' id' (fun s => { s with listed := true, agent }) fun _ => ⟨rfl, rfl⟩)
  | closed life' id' =>
    exact .inl (hupdate life' id' (fun s => { s with listed := false }) fun _ => ⟨rfl, rfl⟩)
  | resize life' id' size =>
    exact .inl (hupdate life' id' (fun s => { s with size }) fun _ => ⟨rfl, rfl⟩)
  | draw life' id' bytes =>
    refine .inl (hupdate life' id' (fun s => s.draw bytes) fun s => ?_)
    unfold Session.draw
    split <;> exact ⟨rfl, rfl⟩
  | publish life' id' =>
    rw [World.step, updateSession_sessions]
    split
    next h =>
      obtain ⟨rfl, rfl⟩ := h
      exact .inr rfl
    · exact .inl ⟨rfl, rfl⟩
  | connect life' =>
    left
    apply hsame
    rw [World.step]
    split <;> rfl
  | linkLost | leave => exact .inl (hsame rfl)
  | attachTo id' => exact .inl (hsame (send_sessions _ _))
  | detach | pauseStream | resumeStream => exact .inl (hsame (send_sessions w _))
  | resumeOutput =>
    left
    apply hsame
    rw [World.step]
    split
    · rfl
    · exact send_sessions w _
  | handle =>
    left
    apply hsame
    rw [World.step]
    split
    · exact handle_sessions _ _ _
    · rfl
  | forward =>
    left
    apply hsame
    rw [World.step]
    split
    · exact forward_sessions w _ _
    · rfl
  | notify | write | receive =>
    left
    apply hsame
    rw [World.step]
    split <;> rfl

/-- What is out of a ring stays out of it. -/
theorem Rings.step (h : Rings w) (cap : Nat) (ev : Event) : Rings (w.step cap ev) ∧
    ∀ life id, (w.sessions life id).ring.minFullSeq ≤
      ((w.step cap ev).sessions life id).ring.minFullSeq := by
  have hone (life : Nat) (id : SessionId) :
      (Holds ((w.step cap ev).sessions life id).ring ((w.step cap ev).sessions life id).out ∧
        FrontBound ((w.step cap ev).sessions life id).ring) ∧
      (w.sessions life id).ring.minFullSeq ≤
        ((w.step cap ev).sessions life id).ring.minFullSeq := by
    obtain ⟨hholds, hfront⟩ := h life id
    obtain ⟨hring, hout⟩ | hpublish := sessions_step cap w ev life id
    · rw [hring, hout]
      exact ⟨⟨hholds, hfront⟩, Nat.le_refl _⟩
    · rw [hpublish]
      unfold Session.publish
      split
      · exact ⟨⟨hholds, hfront⟩, Nat.le_refl _⟩
      next bytes _ =>
        obtain ⟨hle, hfront'⟩ := hfront.push hholds bytes cap
        exact ⟨⟨hholds.push bytes cap, hfront'⟩, hle⟩
  exact ⟨fun life id => (hone life id).1, fun life id => (hone life id).2⟩

theorem Rings.run (h : Rings w) (cap : Nat) (evs : List Event) (life : Nat) (id : SessionId) :
    (w.sessions life id).ring.minFullSeq ≤
      ((Run.run (World.step cap) w evs).sessions life id).ring.minFullSeq := by
  induction evs generalizing w with
  | nil => exact Nat.le_refl _
  | cons ev evs ih =>
    obtain ⟨hstep, hle⟩ := h.step cap ev
    exact (hle life id).trans (ih hstep)

/-- Of another lifetime, or a number that is out of the ring: the handler writes a reset. -/
theorem handle_outputResume {afterSeq generation : Nat}
    (hlisted : (w.sessions life id).listed = true)
    (hterminal : (w.sessions life id).agent = false)
    (hold : generation ≠ life ∨ afterSeq + 1 < (w.sessions life id).ring.minFullSeq) :
    (w.handle life (.outputResume id afterSeq generation)).wire =
      w.wire ++ [resetFrame id life (w.sessions life id),
        .sessionSize id (w.sessions life id).size] ++ snapshotFrames id (w.sessions life id) := by
  have hattach : ({ w with viewed := id }.attach life id).wire =
      w.wire ++ [resetFrame id life (w.sessions life id),
        .sessionSize id (w.sessions life id).size] ++ snapshotFrames id (w.sessions life id) := by
    simp [World.attach, hlisted, hterminal]
  rw [World.handle, if_pos hlisted, World.attachResume, ← hattach]
  dsimp only
  split
  · rfl
  next hgen =>
  have hnone : (w.sessions life id).deltaSince afterSeq = none := by
    unfold Session.deltaSince ScrollbackRing.since
    simp [hold.resolve_left hgen]
  split
  · rfl
  · rw [hnone]

theorem Rings.answeredByReset (h : Rings w) (cap : Nat)
    (hlisted : (w.sessions life id).listed = true) (hterminal : (w.sessions life id).agent = false)
    (hold : (w.phone.views id).lastGeneration ≠ life ∨
      (w.phone.views id).lastSeq + 1 < (w.sessions life id).ring.minFullSeq) :
    AnsweredByReset cap w life id where
  listed := hlisted
  terminal := hterminal
  answer evs hl ht := handle_outputResume hl ht
    (hold.imp_right fun hlt => hlt.trans_le (h.run cap evs life id))

/-! ## Runs -/

theorem Inv.exact (h : Inv w) (ha : w.phone.activeId = some id)
    (hwhole : (w.phone.views id).whole) (hsettled : (w.phone.views id).settled)
    (hcleared : w.phone.cleared = false) (life : Nat) : Exact w life id := by
  have hok := h.views id
  obtain ⟨hle, hstart, hshown⟩ := hok.seq hwhole hsettled
  rw [← hok.generation hwhole] at hle hstart hshown
  have hterm := (h.term id ha hcleared).trans hshown
  refine ⟨hle, hterm, fun hgen chunks throughSeq hdelta => ?_⟩
  rw [hgen] at hle hstart hterm
  have hall := through_drop_append (k := (w.sessions life id).out.length) hle hstart
  rw [World.outputs, through_length, List.take_length] at hall
  rw [hterm, (Session.deltaSince_eq (h.ring life id) hdelta).1, numbered_bytes]
  exact hall.symm

/-- In every run of undisturbed steps with settled resumes, whatever link was lost when: what the
phone sends when it resumes describes its terminal, or the host resets it. -/
theorem resumes_exact (cap : Nat) (evs : List Event)
    (h : Run.Along (World.step cap) (fun w ev => Undisturbed w ev ∧ SettledResume w ev) {} evs) :
    Run.Along (World.step cap) (Resumes cap) {} evs := by
  refine h.of_invariant (I := fun w => Inv w ∧ Rings w) ⟨inv_start, rings_start⟩
    (fun _ ev hw hs => ⟨hw.1.step ev hs.1, (hw.2.step cap ev).1⟩) ?_
  intro w ev hw hs hev life id hl ha
  subst hev
  have hsettled := hs.2
  simp only [SettledResume, hl, ha] at hsettled
  obtain ⟨hwhole, hsettled, hcleared⟩ | ⟨⟨hlisted, hterminal⟩, hold⟩ := hsettled
  · exact .inl (hw.1.exact ha hwhole hsettled hcleared life)
  · exact .inr (hw.2.answeredByReset cap hlisted hterminal hold)

/-- The phone has the first byte and its number, and the link is lost before the second one arrives.
It connects again and resumes. -/
def reconnectedRun : List Event :=
  queuedRun ++ [.linkLost, .connect 1]

theorem resumes_exact_reconnected :
    Run.Along (World.step 4096) (Resumes 4096) {} (reconnectedRun ++ [.resumeOutput]) ∧
      ((Run.run (World.step 4096) {} reconnectedRun).sessions 1 1).deltaSince
        ((Run.run (World.step 4096) {} reconnectedRun).phone.views 1).lastSeq =
          some ([{ seq := 2, bytes := [2] }], 2) :=
  ⟨resumes_exact 4096 _ (by decide +kernel), by decide +kernel⟩

/-- The stream is resumed, and the link is lost after the `ScreenReset`. The terminal is empty, and
the phone has still recorded the first number. -/
def resetRun : List Event :=
  openedRun ++ [.pauseStream, .resumeStream, .handle, .handle, .receive, .linkLost, .connect 1]

theorem not_resumes_exact :
    ¬ Run.Along (World.step 4096) (Resumes 4096) {} (resetRun ++ [.resumeOutput]) := by
  intro h
  obtain hexact | hreset := h.step rfl 1 1 (by decide +kernel) (by decide +kernel)
  · have hterm := hexact.term
    revert hterm
    decide +kernel
  · have hwire := hreset.answer [] (by decide +kernel) (by decide +kernel)
    revert hwire
    decide +kernel

end Stream

end Portty
