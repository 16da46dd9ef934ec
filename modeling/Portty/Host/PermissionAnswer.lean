import Portty.Host.Permission

/-!
# Who answers a permission request

* **`Inv`** holds in every run: an entry of the map belongs to one handler, which still waits for
  it; an option on the way to the agent was chosen by a viewer; a request is answered once.
* **`Tidy`** holds in a run in which no request expires, no request is registered under an id that
  is in use, and no answer comes between the registration and the card (`Safe`): then the clean-up
  of a handler finds nothing, and a card that leaves the map was resolved.
* **`permissions_answered`** puts both together. `not_permissions_answered` has runs outside `Safe`.
-/

namespace Portty

namespace Permission

namespace State

variable {s s' : State} {C : Nat → String → Prop} {n : Nat} {h : Handler}

/-- What holds in every run. `C n opt` is what is known of an option `opt` that request `n` is
answered with. -/
structure Inv (C : Nat → String → Prop) (s : State) : Prop where
  /-- An entry belongs to a handler that has not got its decision. -/
  entry : ∀ (id : String) (e : PendingAgentPermission), s.pending.lookup id = some e →
    ∃ h : Handler, s.handlers[e.responder]? = some h ∧ h.request.toolCallId = id ∧
      e.options = h.request.offered ∧ h.oneshot = .empty ∧ h.phase ≠ .received
  /-- A handler that has not got its decision has an entry. -/
  waits : ∀ (n : Nat) (h : Handler), s.handlers[n]? = some h →
    h.phase = .registered ∨ h.phase = .waiting → h.oneshot = .empty →
    ∃ e : PendingAgentPermission, s.pending.lookup h.request.toolCallId = some e ∧ e.responder = n
  fresh : ∀ (n : Nat) (h : Handler), s.handlers[n]? = some h → h.phase = .received →
    h.oneshot = .empty
  chosen : ∀ (n : Nat) (h : Handler) (opt : String), s.handlers[n]? = some h → h.Chose opt →
    C n opt
  answers : ∀ (n : Nat) (h : Handler), s.handlers[n]? = some h →
    h.answers.length = if h.phase = .done then 1 else 0

theorem inv_start (workspaceScope : WorkspaceScope) : Inv C (start workspaceScope) where
  entry id e he := by simp [start] at he
  waits n h hn := by simp [start] at hn
  fresh n h hn := by simp [start] at hn
  chosen n h opt hn := by simp [start] at hn
  answers n h hn := by simp [start] at hn

/-- Two entries of one handler are one entry. -/
theorem Inv.responder_ne (hinv : Inv C s) {id id' : String} {e e' : PendingAgentPermission}
    (he : s.pending.lookup id = some e) (he' : s.pending.lookup id' = some e') (hne : id ≠ id') :
    e.responder ≠ e'.responder := by
  intro heq
  obtain ⟨h, hn, hid, -⟩ := hinv.entry id e he
  obtain ⟨h', hn', hid', -⟩ := hinv.entry id' e' he'
  rw [heq] at hn
  obtain rfl := Option.some.inj (hn.symm.trans hn')
  exact hne (hid.symm.trans hid')

/-- A handler goes on, from `h` to `h'`, as far as the invariant can tell. -/
structure Goes (C : Nat → String → Prop) (n : Nat) (h h' : Handler) : Prop where
  request : h'.request = h.request
  received : h'.phase = .received → h.phase = .received ∧ h'.oneshot = h.oneshot
  waits : h'.phase = .registered ∨ h'.phase = .waiting → h'.oneshot = .empty →
    (h.phase = .registered ∨ h.phase = .waiting) ∧ h.oneshot = .empty
  chosen : ∀ opt, h'.Chose opt → h.Chose opt ∨ C n opt
  answers : h'.answers.length = if h'.phase = .done then 1 else 0

/-- No entry is added. The handlers of the entries that stay are not told anything; those of the
entries that go are. -/
theorem Inv.mono (hinv : Inv C s)
    (hgoes : ∀ (n : Nat) (h' : Handler), s'.handlers[n]? = some h' →
      ∃ h, s.handlers[n]? = some h ∧ Goes C n h h')
    (hsub : ∀ (id : String) (e : PendingAgentPermission), s'.pending.lookup id = some e →
      s.pending.lookup id = some e)
    (hstay : ∀ (id : String) (e : PendingAgentPermission) (h : Handler),
      s'.pending.lookup id = some e → s.handlers[e.responder]? = some h →
      ∃ h', s'.handlers[e.responder]? = some h' ∧ h'.oneshot = h.oneshot)
    (hgone : ∀ (id : String) (e : PendingAgentPermission) (h' : Handler),
      s.pending.lookup id = some e → s'.handlers[e.responder]? = some h' →
      h'.oneshot = .empty → s'.pending.lookup id = some e) :
    Inv C s' where
  entry id e he := by
    obtain ⟨h, hn, hid, hopt, hempty, hp⟩ := hinv.entry id e (hsub id e he)
    obtain ⟨h', hn', hone⟩ := hstay id e h he hn
    obtain ⟨h₀, hn₀, hg⟩ := hgoes _ h' hn'
    obtain rfl := Option.some.inj (hn₀.symm.trans hn)
    refine ⟨h', hn', ?_, ?_, hone.trans hempty, fun hr => hp (hg.received hr).1⟩
    · rw [hg.request, hid]
    · rw [hg.request, hopt]
  waits n h' hn' hp hone := by
    obtain ⟨h, hn, hg⟩ := hgoes n h' hn'
    obtain ⟨hp₀, hone₀⟩ := hg.waits hp hone
    obtain ⟨e, he, rfl⟩ := hinv.waits n h hn hp₀ hone₀
    rw [hg.request]
    exact ⟨e, hgone _ e h' he hn' hone, rfl⟩
  fresh n h' hn' hp := by
    obtain ⟨h, hn, hg⟩ := hgoes n h' hn'
    obtain ⟨hp₀, hone⟩ := hg.received hp
    rw [hone, hinv.fresh n h hn hp₀]
  chosen n h' opt hn' hc := by
    obtain ⟨h, hn, hg⟩ := hgoes n h' hn'
    exact (hg.chosen opt hc).elim (hinv.chosen n h opt hn) id
  answers n h' hn' := by
    obtain ⟨h, -, hg⟩ := hgoes n h' hn'
    exact hg.answers

theorem Inv.goes_self (hinv : Inv C s) (hn : s.handlers[n]? = some h) : Goes C n h h :=
  ⟨rfl, fun hp => ⟨hp, rfl⟩, fun hp hone => ⟨hp, hone⟩, fun _ hc => .inl hc, hinv.answers n h hn⟩

theorem Inv.goes_close (hinv : Inv C s) (hn : s.handlers[n]? = some h)
    (hp : h.phase ≠ .received) : Goes C n h h.close where
  request := by simp
  received hr := absurd (by simpa using hr) hp
  waits _ hone := absurd hone (by simp)
  chosen opt hc := .inl hc.of_close
  answers := by simpa using hinv.answers n h hn

theorem Inv.goes_send (hinv : Inv C s) (hn : s.handlers[n]? = some h) (hp : h.phase ≠ .received)
    {d : Option String} (hC : ∀ opt, d = some opt → C n opt) : Goes C n h (h.send d) where
  request := by simp
  received hr := absurd (by simpa using hr) hp
  waits _ hone := absurd hone (by simp)
  chosen opt hc := hc.of_send.imp_right (hC opt)
  answers := by simpa using hinv.answers n h hn

/-- A handler that is dropped answers once. -/
theorem Goes.drop {h' : Handler} (hg : Goes C n h h') : Goes C n h h'.drop where
  request := by rw [Handler.drop_request, hg.request]
  received hr := by
    obtain ⟨-, hd⟩ | ⟨-, hd⟩ := h'.drop_phase_cases
    · simp [hd] at hr
    · rw [hd] at hr
      rw [Handler.drop_oneshot]
      exact hg.received hr
  waits hw hone := by
    obtain ⟨-, hd⟩ | ⟨-, hd⟩ := h'.drop_phase_cases
    · simp [hd] at hw
    · rw [hd] at hw
      exact hg.waits hw (by simpa using hone)
  chosen opt hc := hg.chosen opt hc.of_drop
  answers := by
    rw [Handler.drop_answers, hg.answers]
    obtain ⟨hp, hd⟩ | ⟨-, hd⟩ := h'.drop_phase_cases
    · simp [hp, hd]
    · rw [hd]

theorem lookup_erase_some {m : PendingMap} {id id' : String} {e : PendingAgentPermission} :
    (m.erase id).lookup id' = some e ↔ id' ≠ id ∧ m.lookup id' = some e := by
  by_cases h : id' = id
  · subst h
    simp
  · simp [AList.lookup_erase_ne h, h]

theorem isPending_iff : s.isPending n = true ↔
    ∃ id e, s.pending.lookup id = some e ∧ e.responder = n := by
  simp only [isPending, List.any_eq_true, decide_eq_true_eq]
  constructor
  · rintro ⟨⟨id, e⟩, hmem, hr⟩
    exact ⟨id, e, AList.mem_lookup_iff.mpr hmem, hr⟩
  · rintro ⟨id, e, he, hr⟩
    exact ⟨⟨id, e⟩, AList.mem_lookup_iff.mp he, hr⟩

/-- One entry leaves the map, and its handler is told. -/
theorem Inv.take (hinv : Inv C s) {id : String} {e : PendingAgentPermission}
    (he : s.pending.lookup id = some e) {f : Handler → Handler}
    (hf : ∀ h, s.handlers[e.responder]? = some h → h.phase ≠ .received →
      Goes C e.responder h (f h) ∧ (f h).oneshot ≠ .empty)
    (hh : s'.handlers = s.handlers.modify e.responder f)
    (hp : s'.pending = s.pending.erase id) : Inv C s' := by
  obtain ⟨h₀, hn₀, -, -, -, hr₀⟩ := hinv.entry id e he
  have hf₀ := hf h₀ hn₀ hr₀
  refine hinv.mono (fun n h' hn' => ?_) (fun id' e' he' => ?_) (fun id' e' h he' hn => ?_)
    (fun id' e' h' he' hn' hone => ?_)
  · rw [hh] at hn'
    obtain ⟨rfl, h, hn, rfl⟩ | ⟨-, hn⟩ := Table.modify_cases hn'
    · obtain rfl := Option.some.inj (hn.symm.trans hn₀)
      exact ⟨h, hn, hf₀.1⟩
    · exact ⟨h', hn, hinv.goes_self hn⟩
  · rw [hp] at he'
    exact (lookup_erase_some.mp he').2
  · rw [hp] at he'
    obtain ⟨hne, he'⟩ := lookup_erase_some.mp he'
    refine ⟨h, ?_, rfl⟩
    rw [hh, Table.modify_of_ne (hinv.responder_ne he' he hne), hn]
  · rw [hp]
    refine lookup_erase_some.mpr ⟨fun heq => ?_, he'⟩
    subst heq
    obtain rfl := Option.some.inj (he'.symm.trans he)
    rw [hh, Table.modify_self hn₀] at hn'
    obtain rfl := Option.some.inj hn'
    exact hf₀.2 hone

/-- All entries leave the map, and their handlers are told. -/
theorem Inv.takeAll (hinv : Inv C s) {f : Nat → Handler → Handler}
    (hf : ∀ n h, s.handlers[n]? = some h → Goes C n h (f n h))
    (hne : ∀ n h, s.isPending n = true → (f n h).oneshot ≠ .empty)
    (hh : s'.handlers = s.handlers.mapIdx f) (hp : s'.pending = ∅) : Inv C s' := by
  refine hinv.mono (fun n h' hn' => ?_) (fun id e he => ?_) (fun id e h he => ?_)
    (fun id e h' he hn' hone => ?_)
  · rw [hh, List.getElem?_mapIdx] at hn'
    obtain ⟨h, hn, rfl⟩ := Option.map_eq_some_iff.mp hn'
    exact ⟨h, hn, hf n h hn⟩
  · simp [hp] at he
  · simp [hp] at he
  · rw [hh, List.getElem?_mapIdx] at hn'
    obtain ⟨h, hn, rfl⟩ := Option.map_eq_some_iff.mp hn'
    exact absurd hone (hne _ h (isPending_iff.mpr ⟨id, e, he, rfl⟩))

/-- A handler goes on without touching the map. -/
theorem Inv.advance (hinv : Inv C s) {f : Handler → Handler}
    (hf : ∀ h, s.handlers[n]? = some h → Goes C n h (f h) ∧ (f h).oneshot = h.oneshot)
    (hh : s'.handlers = s.handlers.modify n f) (hp : s'.pending = s.pending) : Inv C s' := by
  refine hinv.mono (fun m h' hm' => ?_) (fun id e he => ?_) (fun id e h he hm => ?_)
    (fun id e h' he hm' hone => ?_)
  · rw [hh] at hm'
    obtain ⟨rfl, h, hm, rfl⟩ | ⟨-, hm⟩ := Table.modify_cases hm'
    · exact ⟨h, hm, (hf h hm).1⟩
    · exact ⟨h', hm, hinv.goes_self hm⟩
  · rwa [hp] at he
  · refine ⟨_, by rw [hh]; exact Table.modify_some hm n f, ?_⟩
    split
    · next heq => exact (hf h (heq ▸ hm)).2
    · rfl
  · rwa [hp]

/-- A request that arrives has no entry yet. -/
theorem Inv.concat (hinv : Inv C s) (req : Request) {new : Handler}
    (hnew : new = { request := req, phase := .received } ∨
      new = { request := req, phase := .done, answers := [.cancelled] })
    (hh : s'.handlers = s.handlers ++ [new]) (hp : s'.pending = s.pending) : Inv C s' where
  entry id e he := by
    obtain ⟨h, hn, hrest⟩ := hinv.entry id e (hp ▸ he)
    exact ⟨h, by rw [hh]; exact Table.concat_some hn new, hrest⟩
  waits n h hn hw hone := by
    rw [hh] at hn
    obtain hn | ⟨-, rfl⟩ := Table.concat_cases hn
    · rw [hp]
      exact hinv.waits n h hn hw hone
    · obtain rfl | rfl := hnew <;> simp at hw
  fresh n h hn hr := by
    rw [hh] at hn
    obtain hn | ⟨-, rfl⟩ := Table.concat_cases hn
    · exact hinv.fresh n h hn hr
    · obtain rfl | rfl := hnew <;> rfl
  chosen n h opt hn hc := by
    rw [hh] at hn
    obtain hn | ⟨-, rfl⟩ := Table.concat_cases hn
    · exact hinv.chosen n h opt hn hc
    · obtain rfl | rfl := hnew <;> simp [Handler.Chose] at hc
  answers n h hn := by
    rw [hh] at hn
    obtain hn | ⟨-, rfl⟩ := Table.concat_cases hn
    · exact hinv.answers n h hn
    · obtain rfl | rfl := hnew <;> rfl

theorem Inv.receive (hinv : Inv C s) (req : Request) : Inv C (s.receive req) := by
  unfold State.receive
  split
  · exact hinv
  split
  · exact hinv.concat req (.inr rfl) rfl rfl
  split
  · exact hinv.concat req (.inr rfl) rfl rfl
  · exact hinv.concat req (.inl rfl) rfl rfl

theorem Inv.discard (hinv : Inv C s) (id : String) : Inv C (s.discard id) := by
  unfold State.discard
  split
  · exact hinv
  · next e he =>
    exact hinv.take he (fun h hn hp => ⟨hinv.goes_close hn hp, by simp⟩) rfl rfl

@[simp] theorem lookup_discard (s : State) (id : String) :
    (s.discard id).pending.lookup id = none := by
  unfold State.discard
  split
  · assumption
  · simp

/-- Dropping an entry does not touch a handler without one. -/
theorem discard_handlers {id : String}
    (h : ∀ e, s.pending.lookup id = some e → e.responder ≠ n) :
    (s.discard id).handlers[n]? = s.handlers[n]? := by
  unfold State.discard
  split
  · rfl
  · next e he => exact Table.modify_of_ne (Ne.symm (h e he)) _

theorem discard_cases {id : String} {h' : Handler} (hn : (s.discard id).handlers[n]? = some h') :
    ∃ h, s.handlers[n]? = some h ∧ (h' = h ∨ h' = h.close) := by
  unfold State.discard at hn
  split at hn
  · exact ⟨h', hn, .inl rfl⟩
  · obtain ⟨rfl, h, hm, rfl⟩ | ⟨-, hm⟩ := Table.modify_cases hn
    · exact ⟨h, hm, .inr rfl⟩
    · exact ⟨h', hm, .inl rfl⟩

theorem Inv.responder_of_received (hinv : Inv C s) (hn : s.handlers[n]? = some h)
    (hp : h.phase = .received) {id : String} {e : PendingAgentPermission}
    (he : s.pending.lookup id = some e) : e.responder ≠ n := by
  rintro rfl
  obtain ⟨h', hn', -, -, -, hne⟩ := hinv.entry id e he
  obtain rfl := Option.some.inj (hn'.symm.trans hn)
  exact hne hp

/-- The entry is that of the new handler; one that it replaces is dropped. -/
theorem Inv.register (hinv : Inv C s) (hn : s.handlers[n]? = some h) (hp : h.phase = .received) :
    Inv C (s.register n h.request) := by
  have hd := hinv.discard h.request.toolCallId
  have hn₁ : (s.discard h.request.toolCallId).handlers[n]? = some h := by
    rw [discard_handlers fun e he => hinv.responder_of_received hn hp he, hn]
  have hself : (s.register n h.request).handlers[n]? = some { h with phase := .registered } :=
    Table.modify_self hn₁ _
  refine ⟨fun id e he => ?_, fun m g hm hw hone => ?_, fun m g hm hr => ?_, fun m g opt hm hc => ?_,
    fun m g hm => ?_⟩
  · by_cases hid : id = h.request.toolCallId
    · subst hid
      obtain rfl := Option.some.inj ((AList.lookup_insert _).symm.trans he)
      exact ⟨_, hself, rfl, rfl, hinv.fresh n h hn hp, by simp⟩
    · have he₁ : (s.discard h.request.toolCallId).pending.lookup id = some e := by
        rwa [← AList.lookup_insert_ne hid]
      obtain ⟨g, hg, hrest⟩ := hd.entry id e he₁
      refine ⟨g, ?_, hrest⟩
      exact (Table.modify_of_ne (hd.responder_of_received hn₁ hp he₁) _).trans hg
  · obtain ⟨rfl, g₀, hg₀, rfl⟩ | ⟨hne, hm⟩ := Table.modify_cases hm
    · obtain rfl := Option.some.inj (hg₀.symm.trans hn₁)
      exact ⟨_, AList.lookup_insert _, rfl⟩
    · obtain ⟨e, he, hr⟩ := hd.waits m g hm hw hone
      refine ⟨e, ?_, hr⟩
      have hid : g.request.toolCallId ≠ h.request.toolCallId := by
        intro heq
        rw [heq, lookup_discard] at he
        cases he
      exact (AList.lookup_insert_ne hid).trans he
  · obtain ⟨rfl, g₀, hg₀, rfl⟩ | ⟨-, hm⟩ := Table.modify_cases hm
    · simp at hr
    · exact hd.fresh m g hm hr
  · obtain ⟨rfl, g₀, hg₀, rfl⟩ | ⟨-, hm⟩ := Table.modify_cases hm
    · refine hd.chosen m g₀ opt hg₀ ?_
      obtain hc | hc | hc | hc := hc
      · exact .inl hc
      · simp at hc
      · simp at hc
      · exact .inr (.inr (.inr hc))
    · exact hd.chosen m g opt hm hc
  · obtain ⟨rfl, g₀, hg₀, rfl⟩ | ⟨-, hm⟩ := Table.modify_cases hm
    · obtain rfl := Option.some.inj (hg₀.symm.trans hn₁)
      have := hd.answers m g₀ hg₀
      simpa [hp] using this
    · exact hd.answers m g hm

/-- A handler that has registered goes to another phase, where it has not answered. -/
theorem Inv.goes_phase (hinv : Inv C s) (hn : s.handlers[n]? = some h) (hd : h.phase ≠ .done)
    {phase : HandlerPhase} (hp : phase ≠ .received ∧ phase ≠ .registered ∧ phase ≠ .done)
    (hw : phase = .waiting → h.phase = .registered ∨ h.phase = .waiting)
    (hc : ∀ opt, phase = .woken (some opt) ∨ phase = .responding (some opt) → h.Chose opt) :
    Goes C n h { h with phase } where
  request := rfl
  received hr := absurd hr hp.1
  waits hw' hone := ⟨hw (hw'.resolve_left hp.2.1), hone⟩
  chosen opt hc' := by
    refine .inl ?_
    obtain hc' | hc' | hc' | hc' := hc'
    · exact .inl hc'
    · exact hc opt (.inl hc')
    · exact hc opt (.inr hc')
    · exact .inr (.inr (.inr hc'))
  answers := by
    have := hinv.answers n h hn
    simpa [hd, hp.2.2] using this

/-- A handler goes on with what is in its channel. -/
theorem Inv.proceed (hinv : Inv C s) (elapsed : Bool) : Inv C (s.proceed n elapsed) := by
  unfold State.proceed
  split
  · exact hinv
  next h hn =>
  have hone : ∀ h', s.handlers[n]? = some h' → h' = h := fun h' hn' =>
    Option.some.inj (hn'.symm.trans hn)
  split
  · next hp => exact hinv.register hn hp
  · next hp =>
    refine hinv.advance (n := n) (fun h' hn' => ?_) rfl rfl
    obtain rfl := hone h' hn'
    refine ⟨hinv.goes_phase hn (by simp [hp]) ?_ ?_ ?_, rfl⟩
    · split <;> simp
    · exact fun _ => .inl hp
    · split <;> simp
  · next hp =>
    -- The handler wakes up with what is in its channel.
    have hwake : ∀ d : Option String, (∀ opt, d = some opt → h.Chose opt) →
        Inv C (s.updateHandler n fun h => { h with phase := .woken d }) := by
      intro d hd
      refine hinv.advance (n := n) (fun h' hn' => ?_) rfl rfl
      obtain rfl := hone h' hn'
      exact ⟨hinv.goes_phase hn (by simp [hp]) (by simp) (by simp) (by simpa using hd), rfl⟩
    split
    · next d hd =>
      refine hwake d fun opt ho => .inl ?_
      rw [hd, ho]
    · exact hwake none (by simp)
    · split
      · exact hwake none (by simp)
      · exact hinv
  · next d hp =>
    have hd := hinv.discard h.request.toolCallId
    refine hd.advance (n := n) (fun h' hn' => ?_) rfl rfl
    have hp' : h'.phase = .woken d := by
      obtain ⟨h₀, hn₀, rfl | rfl⟩ := discard_cases hn'
      · rw [hone h' hn₀, hp]
      · rw [hone h₀ hn₀, Handler.close_phase, hp]
    exact ⟨hd.goes_phase hn' (by simp [hp']) (by simp) (by simp)
      fun opt ho => .inr (.inl (by simpa [hp'] using ho)), rfl⟩
  · next d hp =>
    refine hinv.advance (n := n) (fun h' hn' => ?_) rfl rfl
    obtain rfl := hone h' hn'
    have hans : h'.answers = [] := by
      have := hinv.answers n h' hn
      simpa [hp] using this
    refine ⟨⟨rfl, by simp, by simp, fun opt hc => .inl ?_, by simp [hans]⟩, rfl⟩
    obtain hc | hc | hc | hc := hc
    · exact .inl hc
    · simp at hc
    · simp at hc
    · rw [hans, List.nil_append, List.mem_singleton] at hc
      cases d with
      | none => simp at hc
      | some opt' =>
        obtain rfl : opt = opt' := by simpa using hc
        exact .inr (.inr (.inl hp))
  · exact hinv
  · exact hinv

theorem Inv.resolvePermission (hinv : Inv C s) {id : String} {optionId : Option String}
    {resolver : PermissionResolver}
    (hC : ∀ (e : PendingAgentPermission) (h : Handler) (opt : String),
      s.pending.lookup id = some e → s.handlers[e.responder]? = some h →
      h.request.toolCallId = id → optionId = some opt →
      opt ∈ h.request.options.map (·.optionId) → C e.responder opt) :
    Inv C (s.resolvePermission id optionId resolver) := by
  unfold State.resolvePermission
  split
  · exact hinv
  next e he =>
  refine hinv.take he (fun h hn hp => ⟨hinv.goes_send hn hp fun opt ho => ?_, by simp⟩) rfl rfl
  obtain ⟨h', hn', hid, hopts, -⟩ := hinv.entry id e he
  obtain rfl := Option.some.inj (hn'.symm.trans hn)
  obtain ⟨hsome, hmem⟩ := permissionOutcome_some ho
  rw [hopts] at hmem
  exact hC e h' opt he hn' hid hsome (Request.mem_offered hmem)

/-- The phase of a handler with an entry. -/
theorem Inv.not_received (hinv : Inv C s) (hn : s.handlers[n]? = some h)
    (hi : s.isPending n = true) : h.phase ≠ .received := by
  intro hp
  obtain ⟨id, e, he, hr⟩ := isPending_iff.mp hi
  exact hinv.responder_of_received hn hp he hr

theorem Inv.cancelPendingPermissions (hinv : Inv C s) : Inv C s.cancelPendingPermissions := by
  refine hinv.takeAll (fun n h hn => ?_) (fun n h hi => ?_) rfl rfl
  · split
    · next hi => exact hinv.goes_send hn (hinv.not_received hn hi) (by simp)
    · exact hinv.goes_self hn
  · simp [hi]

theorem Inv.kill (hinv : Inv C s) : Inv C s.kill := by
  unfold State.kill
  split
  · refine hinv.takeAll (fun n h hn => Goes.drop ?_) (fun n h hi => ?_) rfl rfl
    · split
      · next hi => exact hinv.goes_close hn (hinv.not_received hn hi)
      · exact hinv.goes_self hn
    · simp [hi]
  · exact hinv

theorem Inv.dropAll (hinv : Inv C s) :
    Inv C { s with handlers := s.handlers.map Handler.drop } := by
  refine hinv.mono (fun n h' hn' => ?_) (fun _ _ he => he) (fun id e h he hn => ?_)
    (fun _ _ _ he _ _ => he)
  · simp only [List.getElem?_map] at hn'
    obtain ⟨h, hn, rfl⟩ := Option.map_eq_some_iff.mp hn'
    exact ⟨h, hn, (hinv.goes_self hn).drop⟩
  · exact ⟨h.drop, by simp [hn], by simp⟩

theorem Inv.connectionLost (hinv : Inv C s) (established : Bool) :
    Inv C (s.connectionLost established) := by
  have hd := hinv.dropAll
  unfold State.connectionLost
  split
  · exact hd.cancelPendingPermissions
  · exact ⟨hd.entry, hd.waits, hd.fresh, hd.chosen, hd.answers⟩

theorem Inv.step (hinv : Inv C s) {ev : Event}
    (hC : ∀ (id : String) (opt : String) (resolver : PermissionResolver)
      (e : PendingAgentPermission) (h : Handler), ev = .decide id (some opt) resolver →
      s.pending.lookup id = some e → s.handlers[e.responder]? = some h →
      h.request.toolCallId = id → opt ∈ h.request.options.map (·.optionId) → C e.responder opt) :
    Inv C (s.step ev) := by
  cases ev with
  | receive req => exact hinv.receive req
  | proceed n elapsed => exact hinv.proceed elapsed
  | decide id optionId resolver =>
    refine hinv.resolvePermission fun e h opt he hn hid ho hmem => ?_
    subst ho
    exact hC id opt resolver e h rfl he hn hid hmem
  | cancel => exact hinv.cancelPendingPermissions
  | kill => exact hinv.kill
  | connectionLost established => exact hinv.connectionLost established

/-! ## Runs without an expiry and without an id in use -/

/-- What a step must not do: let a request expire, register a request under an id that is in use, or
answer a request between its registration and its card. -/
def Safe (s : State) : Event → Prop
  | .receive _ => True
  | .proceed n elapsed => ∀ h ∈ s.handlers[n]?,
    (h.phase = .received → s.pending.lookup h.request.toolCallId = none ∧
      ∀ g ∈ s.handlers, g.unfinished = true → g.request.toolCallId ≠ h.request.toolCallId) ∧
    (h.phase = .waiting → h.oneshot = .empty → elapsed = false)
  | .decide id _ _ => ∀ e ∈ s.pending.lookup id, ∀ h ∈ s.handlers[e.responder]?,
    h.phase ≠ .registered
  | .cancel | .kill | .connectionLost _ => ∀ h ∈ s.handlers, h.phase ≠ .registered

instance (s : State) : DecidablePred s.Safe := fun ev =>
  match ev with
  | .receive _ => inferInstanceAs (Decidable True)
  | .proceed _ _ => inferInstanceAs (Decidable (∀ _ ∈ _, _))
  | .decide _ _ _ => inferInstanceAs (Decidable (∀ _ ∈ _, _))
  | .cancel => inferInstanceAs (Decidable (∀ _ ∈ _, _))
  | .kill => inferInstanceAs (Decidable (∀ _ ∈ _, _))
  | .connectionLost _ => inferInstanceAs (Decidable (∀ _ ∈ _, _))

/-- The event resolves the card of request `n`, or removes the session. -/
def Settles (x : Sent) (n : Nat) (id : String) : Prop :=
  (∃ resolution resolver, x = ⟨some n, .agentPermissionResolved id resolution resolver⟩) ∨
    x.event = .removed

/-- Every announced card is in the map, or was resolved later, or the session was removed later. -/
def Cards (s : State) : Prop :=
  ∀ (i n : Nat) (card : ToolCallCard) (options : List PermissionOption)
    (category : PermissionCategory) (scope : WorkspaceScope),
    s.log[i]? = some ⟨some n, .agentPermission card options category scope⟩ →
    (∃ e, s.pending.lookup card.toolCallId = some e ∧ e.responder = n) ∨
      ∃ j x, i < j ∧ s.log[j]? = some x ∧ Settles x n card.toolCallId

/-- The event puts up a card. -/
def Sent.isCard (x : Sent) : Bool :=
  match x.event with
  | .agentPermission _ _ _ _ => true
  | _ => false

/-- No card is announced, and entries that leave the map are settled. -/
theorem Cards.mono (hc : s.Cards) {new : List Sent} (hlog : s'.log = s.log ++ new)
    (hnew : ∀ x ∈ new, Sent.isCard x = false)
    (hleft : ∀ (id : String) (e : PendingAgentPermission), s.pending.lookup id = some e →
      s'.pending.lookup id = some e ∨ ∃ x ∈ new, Settles x e.responder id) : s'.Cards := by
  intro i n card options category scope hi
  rw [hlog, List.getElem?_append] at hi
  split at hi
  · next hlt =>
    obtain ⟨e, he, rfl⟩ | ⟨j, x, hij, hj, hx⟩ := hc i n card options category scope hi
    · obtain he' | ⟨x, hx, hset⟩ := hleft _ e he
      · exact .inl ⟨e, he', rfl⟩
      · obtain ⟨k, hk⟩ := List.mem_iff_getElem?.mp hx
        refine .inr ⟨s.log.length + k, x, by omega, ?_, hset⟩
        rw [hlog, List.getElem?_append_right (by omega), Nat.add_sub_cancel_left, hk]
    · refine .inr ⟨j, x, hij, ?_, hx⟩
      rw [hlog, List.getElem?_append_left (List.getElem?_eq_some_iff.mp hj).1, hj]
  · have := hnew _ (List.mem_of_getElem? hi)
    simp [Sent.isCard] at this

/-- What holds in every run of safe steps. -/
structure Tidy (s : State) : Prop where
  /-- A handler that will clean up an id is the one whose entry is there. -/
  owner : ∀ (id : String) (e : PendingAgentPermission) (n : Nat) (h : Handler),
    s.pending.lookup id = some e → s.handlers[n]? = some h → h.unfinished = true →
    h.request.toolCallId = id → e.responder = n
  registered : ∀ (n : Nat) (h : Handler), s.handlers[n]? = some h → h.phase = .registered →
    h.oneshot = .empty
  woken : ∀ (n : Nat) (h : Handler) (d : Option String), s.handlers[n]? = some h →
    h.phase = .woken d → h.oneshot ≠ .empty
  cards : s.Cards

theorem tidy_start (workspaceScope : WorkspaceScope) : Tidy (start workspaceScope) where
  owner id e n h he := by simp [start] at he
  registered n h hn := by simp [start] at hn
  woken n h d hn := by simp [start] at hn
  cards i n card options category scope hi := by simp [start] at hi

/-- A handler that will still clean up goes on. -/
structure Keeps (h h' : Handler) : Prop where
  request : h'.request = h.request
  unfinished : h.unfinished = true
  registered : h'.phase = .registered → h.phase = .registered ∧ h'.oneshot = h.oneshot
  woken : ∀ d, h'.phase = .woken d → h'.oneshot ≠ .empty

theorem Handler.unfinished_of_drop (hu : h.drop.unfinished = true) : h.unfinished = true := by
  obtain ⟨-, hd⟩ | ⟨-, hd⟩ := h.drop_phase_cases
  · simp [Handler.unfinished, hd] at hu
  · simpa [Handler.unfinished, hd] using hu

theorem Keeps.drop {h' : Handler} (hk : Keeps h h') : Keeps h h'.drop := by
  refine ⟨by rw [Handler.drop_request, hk.request], hk.unfinished, fun hr => ?_, fun d hw => ?_⟩
  · obtain ⟨-, hd⟩ | ⟨-, hd⟩ := h'.drop_phase_cases
    · simp [hd] at hr
    · rw [Handler.drop_oneshot]
      exact hk.registered (hd ▸ hr)
  · obtain ⟨-, hd⟩ | ⟨-, hd⟩ := h'.drop_phase_cases
    · simp [hd] at hw
    · rw [Handler.drop_oneshot]
      exact hk.woken d (hd ▸ hw)

theorem Tidy.mono (ht : Tidy s)
    (hkeeps : ∀ (n : Nat) (h' : Handler), s'.handlers[n]? = some h' → h'.unfinished = true →
      ∃ h, s.handlers[n]? = some h ∧ Keeps h h')
    (hsub : ∀ (id : String) (e : PendingAgentPermission), s'.pending.lookup id = some e →
      s.pending.lookup id = some e) (hcards : s'.Cards) : Tidy s' where
  owner id e n h' he hn' hu hid := by
    obtain ⟨h, hn, hk⟩ := hkeeps n h' hn' hu
    exact ht.owner id e n h (hsub id e he) hn hk.unfinished (by rw [← hk.request, hid])
  registered n h' hn' hp := by
    obtain ⟨h, hn, hk⟩ := hkeeps n h' hn' (by simp [Handler.unfinished, hp])
    obtain ⟨hp₀, hone⟩ := hk.registered hp
    rw [hone, ht.registered n h hn hp₀]
  woken n h' d hn' hp := by
    obtain ⟨h, -, hk⟩ := hkeeps n h' hn' (by simp [Handler.unfinished, hp])
    exact hk.woken d hp
  cards := hcards

theorem Tidy.keeps_self (ht : Tidy s) (hn : s.handlers[n]? = some h) (hu : h.unfinished = true) :
    Keeps h h :=
  ⟨rfl, hu, fun hp => ⟨hp, rfl⟩, fun d hp => ht.woken n h d hn hp⟩

/-- A handler that has woken up finds no entry under its id. -/
theorem Tidy.lookup_woken (ht : Tidy s) (hinv : Inv C s) (hn : s.handlers[n]? = some h)
    {d : Option String} (hp : h.phase = .woken d) :
    s.pending.lookup h.request.toolCallId = none := by
  by_contra hne
  obtain ⟨e, he⟩ := Option.ne_none_iff_exists'.mp hne
  obtain rfl := ht.owner _ e n h he hn (by simp [Handler.unfinished, hp]) rfl
  obtain ⟨h', hn', -, -, hone, -⟩ := hinv.entry _ e he
  obtain rfl := Option.some.inj (hn'.symm.trans hn)
  exact ht.woken _ h' d hn hp hone

theorem discard_of_none {id : String} (h : s.pending.lookup id = none) : s.discard id = s := by
  unfold State.discard
  rw [h]

/-- A request that arrives cleans up nothing yet. -/
theorem Tidy.receive (ht : Tidy s) (req : Request) : Tidy (s.receive req) := by
  have hconcat : ∀ (new : Handler) (s' : State), new.unfinished = false →
      s'.handlers = s.handlers ++ [new] → s'.pending = s.pending → s'.Cards → Tidy s' := by
    intro new s' hnew hh hp hc
    refine ht.mono (fun n h' hn' hu => ?_) (fun id e he => hp ▸ he) hc
    rw [hh] at hn'
    obtain hn | ⟨-, rfl⟩ := Table.concat_cases hn'
    · exact ⟨h', hn, ht.keeps_self hn hu⟩
    · simp [hnew] at hu
  have herror : ∀ (message : String) (hs : List Handler),
      Cards { s with handlers := hs, log := s.log ++ [⟨none, .error message⟩] } := by
    intro message hs
    refine ht.cards.mono rfl (fun x hx => ?_) fun id e he => .inl he
    obtain rfl := List.mem_singleton.mp hx
    rfl
  unfold State.receive
  split
  · exact ht
  split
  · exact hconcat _ _ rfl rfl rfl (herror _ _)
  split
  · exact hconcat _ _ rfl rfl rfl (herror _ _)
  · exact hconcat _ _ rfl rfl rfl ht.cards

/-- The id is free, so nobody else will clean it up. -/
theorem Tidy.register (ht : Tidy s) (hinv : Inv C s) (hn : s.handlers[n]? = some h)
    (hp : h.phase = .received) (hnone : s.pending.lookup h.request.toolCallId = none)
    (hfree : ∀ g ∈ s.handlers, g.unfinished = true →
      g.request.toolCallId ≠ h.request.toolCallId) : Tidy (s.register n h.request) := by
  unfold State.register
  rw [discard_of_none hnone]
  refine ⟨fun id e m g he hm hu hid => ?_, fun m g hm hr => ?_, fun m g d hm hw => ?_,
    fun i m card options category scope hi => ?_⟩
  · obtain ⟨rfl, g₀, hg₀, rfl⟩ | ⟨-, hm⟩ := Table.modify_cases hm
    · obtain rfl := Option.some.inj (hg₀.symm.trans hn)
      subst hid
      obtain rfl := Option.some.inj ((AList.lookup_insert _).symm.trans he)
      rfl
    · have hne : id ≠ h.request.toolCallId := by
        rw [← hid]
        exact hfree g (List.mem_of_getElem? hm) hu
      exact ht.owner id e m g ((AList.lookup_insert_ne hne).symm.trans he) hm hu hid
  · obtain ⟨rfl, g₀, hg₀, rfl⟩ | ⟨-, hm⟩ := Table.modify_cases hm
    · obtain rfl := Option.some.inj (hg₀.symm.trans hn)
      exact hinv.fresh m g₀ hn hp
    · exact ht.registered m g hm hr
  · obtain ⟨rfl, g₀, hg₀, rfl⟩ | ⟨-, hm⟩ := Table.modify_cases hm
    · simp at hw
    · exact ht.woken m g d hm hw
  · obtain ⟨e, he, hr⟩ | hset := ht.cards i m card options category scope hi
    · have hne : card.toolCallId ≠ h.request.toolCallId := by
        intro heq
        rw [heq, hnone] at he
        cases he
      exact .inl ⟨e, (AList.lookup_insert_ne hne).trans he, hr⟩
    · exact .inr hset

/-- A handler goes to another phase, and neither the map nor the log changes. -/
theorem Tidy.phase (ht : Tidy s) {f : Handler → Handler}
    (hf : ∀ h, s.handlers[n]? = some h → (f h).unfinished = true → Keeps h (f h)) :
    Tidy (s.updateHandler n f) := by
  refine ht.mono (fun m h' hm' hu => ?_) (fun id e he => he) ht.cards
  obtain ⟨rfl, h, hm, rfl⟩ | ⟨-, hm⟩ := Table.modify_cases hm'
  · exact ⟨h, hm, hf h hm hu⟩
  · exact ⟨h', hm, ht.keeps_self hm hu⟩

/-- The card is put up for an entry that is there. -/
theorem Tidy.announce (ht : Tidy s) (hinv : Inv C s) (hn : s.handlers[n]? = some h)
    (hp : h.phase = .registered) : Tidy (s.announce n h.request) := by
  have hphase : Tidy (s.updateHandler n fun h =>
      { h with phase := if s.ended then .dropped else .waiting }) := by
    refine ht.phase fun h' hn' hu => ?_
    obtain rfl := Option.some.inj (hn'.symm.trans hn)
    refine ⟨rfl, by simp [Handler.unfinished, hp], fun hr => ?_, fun d hw => ?_⟩
    · split at hr <;> cases hr
    · split at hw <;> cases hw
  refine ⟨hphase.owner, hphase.registered, hphase.woken, ?_⟩
  intro i m card options category scope hi
  obtain hi | ⟨-, hx⟩ := Table.concat_cases hi
  · obtain he | ⟨j, x, hij, hj, hx⟩ := ht.cards i m card options category scope hi
    · exact .inl he
    · exact .inr ⟨j, x, hij, Table.concat_some hj _, hx⟩
  · -- The new card: its entry is still there, since nobody has answered in between.
    obtain ⟨rfl, rfl⟩ : m = n ∧ card = h.request.card := by
      simp only [Sent.mk.injEq, Option.some.injEq, ManagerEvent.agentPermission.injEq] at hx
      exact ⟨hx.1, hx.2.1⟩
    exact .inl (hinv.waits m h hn (.inl hp) (ht.registered m h hn hp))

/-- A handler cleans up its own id. -/
theorem Tidy.proceed (ht : Tidy s) (hinv : Inv C s) {elapsed : Bool}
    (hs : s.Safe (.proceed n elapsed)) : Tidy (s.proceed n elapsed) := by
  unfold State.proceed
  split
  · exact ht
  next h hn =>
  obtain ⟨hreg, hexp⟩ := hs h hn
  have hone : ∀ h', s.handlers[n]? = some h' → h' = h := fun h' hn' =>
    Option.some.inj (hn'.symm.trans hn)
  have hwake : h.phase = .waiting → h.oneshot ≠ .empty → ∀ d : Option String,
      Tidy (s.updateHandler n fun h => { h with phase := .woken d }) := by
    intro hp hne d
    refine ht.phase fun h' hn' hu => ?_
    obtain rfl := hone h' hn'
    exact ⟨rfl, by simp [Handler.unfinished, hp], by simp, fun _ _ => hne⟩
  split
  · next hp => exact ht.register hinv hn hp (hreg hp).1 (hreg hp).2
  · next hp => exact ht.announce hinv hn hp
  · next hp =>
    split
    · next d hd => exact hwake hp (by simp [hd]) d
    · next hd => exact hwake hp (by simp [hd]) none
    · next hd =>
      rw [hexp hp hd]
      exact ht
  · next d hp =>
    rw [discard_of_none (ht.lookup_woken hinv hn hp)]
    exact ht.phase fun h' _ hu => by simp [Handler.unfinished] at hu
  · exact ht.phase fun h' _ hu => by simp [Handler.unfinished] at hu
  · exact ht
  · exact ht

/-- The entry goes, and its handler is told. -/
theorem Tidy.resolvePermission (ht : Tidy s) {id : String} {optionId : Option String}
    {resolver : PermissionResolver} (hs : s.Safe (.decide id optionId resolver)) :
    Tidy (s.resolvePermission id optionId resolver) := by
  unfold State.resolvePermission
  split
  · exact ht
  next e he =>
  refine ht.mono (fun m h' hm' hu => ?_) (fun id' e' he' => (lookup_erase_some.mp he').2)
    (ht.cards.mono rfl (fun x hx => ?_) fun id' e' he' => ?_)
  · obtain ⟨rfl, h, hm, rfl⟩ | ⟨-, hm⟩ := Table.modify_cases hm'
    · refine ⟨h, hm, by simp, by simpa [Handler.unfinished] using hu, fun hr => ?_, by simp⟩
      exact absurd (by simpa using hr) (hs e he h hm)
    · exact ⟨h', hm, ht.keeps_self hm hu⟩
  · obtain rfl := List.mem_singleton.mp hx
    rfl
  · by_cases hid : id' = id
    · subst hid
      obtain rfl := Option.some.inj (he'.symm.trans he)
      exact .inr ⟨_, List.mem_singleton_self _, .inl ⟨_, _, rfl⟩⟩
    · exact .inl (lookup_erase_some.mpr ⟨hid, he'⟩)

/-- All entries go, and their handlers are told. -/
theorem Tidy.cancelPendingPermissions (ht : Tidy s)
    (hs : ∀ h ∈ s.handlers, h.phase ≠ .registered) : Tidy s.cancelPendingPermissions := by
  refine ht.mono (fun m h' hm' hu => ?_) (fun id e he => ?_)
    (ht.cards.mono rfl (fun x hx => ?_) fun id e he => .inr ?_)
  · simp only [State.cancelPendingPermissions, List.getElem?_mapIdx] at hm'
    obtain ⟨h, hm, rfl⟩ := Option.map_eq_some_iff.mp hm'
    refine ⟨h, hm, ?_⟩
    have hne := hs h (List.mem_of_getElem? hm)
    split at hu
    · next hi =>
      rw [if_pos hi]
      refine ⟨by simp, by simpa [Handler.unfinished] using hu, fun hr => ?_, by simp⟩
      exact absurd (by simpa using hr) hne
    · next hi =>
      rw [if_neg hi]
      exact ht.keeps_self hm hu
  · simp [State.cancelPendingPermissions] at he
  · obtain ⟨entry, -, rfl⟩ := List.mem_map.mp hx
    rfl
  · exact ⟨_, List.mem_map.mpr ⟨⟨id, e⟩, AList.mem_lookup_iff.mp he, rfl⟩, .inl ⟨_, _, rfl⟩⟩

/-- The session goes, and all its entries. -/
theorem Tidy.kill (ht : Tidy s) (hs : ∀ h ∈ s.handlers, h.phase ≠ .registered) : Tidy s.kill := by
  unfold State.kill
  split
  · refine ht.mono (fun m h' hm' hu => ?_) (fun id e he => ?_)
      (ht.cards.mono rfl (fun x hx => ?_) fun id e he => .inr ?_)
    · simp only [List.getElem?_mapIdx] at hm'
      obtain ⟨h, hm, rfl⟩ := Option.map_eq_some_iff.mp hm'
      have hne := hs h (List.mem_of_getElem? hm)
      refine ⟨h, hm, Keeps.drop ?_⟩
      have hu' := Handler.unfinished_of_drop hu
      split at hu'
      · next hi =>
        rw [if_pos hi]
        refine ⟨by simp, by simpa [Handler.unfinished] using hu', fun hr => ?_, by simp⟩
        exact absurd (by simpa using hr) hne
      · next hi =>
        rw [if_neg hi]
        exact ht.keeps_self hm hu'
    · simp at he
    · obtain rfl := List.mem_singleton.mp hx
      rfl
    · exact ⟨_, List.mem_singleton_self _, .inr rfl⟩
  · exact ht

/-- The driver drops its handlers, and all entries go. -/
theorem Tidy.connectionLost (ht : Tidy s) (hs : ∀ h ∈ s.handlers, h.phase ≠ .registered)
    (established : Bool) : Tidy (s.connectionLost established) := by
  have hd : Tidy { s with handlers := s.handlers.map Handler.drop } := by
    refine ht.mono (fun m h' hm' hu => ?_) (fun _ _ he => he) ht.cards
    simp only [List.getElem?_map] at hm'
    obtain ⟨h, hm, rfl⟩ := Option.map_eq_some_iff.mp hm'
    exact ⟨h, hm, (ht.keeps_self hm (Handler.unfinished_of_drop hu)).drop⟩
  unfold State.connectionLost
  split
  · refine hd.cancelPendingPermissions fun h' hm' => ?_
    obtain ⟨h, hm, rfl⟩ := List.mem_map.mp hm'
    obtain ⟨-, hdrop⟩ | ⟨-, hdrop⟩ := h.drop_phase_cases
    · simp [hdrop]
    · rw [hdrop]
      exact hs h hm
  · exact ⟨hd.owner, hd.registered, hd.woken, hd.cards⟩

theorem Tidy.step (ht : Tidy s) (hinv : Inv C s) {ev : Event} (hs : s.Safe ev) :
    Tidy (s.step ev) := by
  cases ev with
  | receive req => exact ht.receive req
  | proceed n elapsed => exact ht.proceed hinv hs
  | decide id optionId resolver => exact ht.resolvePermission hs
  | cancel => exact ht.cancelPendingPermissions hs
  | kill => exact ht.kill hs
  | connectionLost established => exact ht.connectionLost hs established

/-! ## The completion of one request -/

/-- The step is one of the request of this entry, or ends all of them. -/
def Concerns (id : String) (e : PendingAgentPermission) : Event → Prop
  | .receive _ => False
  | .proceed n _ => e.responder = n
  | .decide id' _ _ => id = id'
  | .cancel | .kill | .connectionLost _ => True

/-- The other entries stay, and their handlers are not told anything. -/
def SparesOthers (s : State) (ev : Event) : Prop :=
  ∀ (id : String) (e : PendingAgentPermission), s.pending.lookup id = some e → ¬ Concerns id e ev →
    (s.step ev).pending.lookup id = some e ∧
      (s.step ev).handlers[e.responder]? = s.handlers[e.responder]?

/-- A safe step does not touch the other entries. -/
theorem Tidy.sparesOthers (ht : Tidy s) (hinv : Inv C s) {ev : Event} (hs : s.Safe ev) :
    SparesOthers s ev := by
  intro id e he hc
  cases ev with
  | receive req =>
    obtain ⟨h, hn, -⟩ := hinv.entry id e he
    simp only [State.step, State.receive]
    rw [hn]
    split
    · exact ⟨he, hn⟩
    split
    · exact ⟨he, Table.concat_some hn _⟩
    split
    · exact ⟨he, Table.concat_some hn _⟩
    · exact ⟨he, Table.concat_some hn _⟩
  | proceed n elapsed =>
    have hother : ∀ f, (s.updateHandler n f).handlers[e.responder]? = s.handlers[e.responder]? :=
      fun f => Table.modify_of_ne hc f
    simp only [State.step, State.proceed]
    split
    · exact ⟨he, rfl⟩
    next h hn =>
    obtain ⟨hreg, -⟩ := hs h hn
    split
    · next hp =>
      obtain ⟨hnone, -⟩ := hreg hp
      have hne : id ≠ h.request.toolCallId := by
        rintro rfl
        simp [hnone] at he
      simp only [State.register, discard_of_none hnone]
      exact ⟨(AList.lookup_insert_ne hne).trans he, hother _⟩
    · exact ⟨he, hother _⟩
    · split
      · exact ⟨he, hother _⟩
      · exact ⟨he, hother _⟩
      · split
        · exact ⟨he, hother _⟩
        · exact ⟨he, rfl⟩
    · next d hp =>
      rw [discard_of_none (ht.lookup_woken hinv hn hp)]
      exact ⟨he, hother _⟩
    · exact ⟨he, hother _⟩
    · exact ⟨he, rfl⟩
    · exact ⟨he, rfl⟩
  | decide id' optionId resolver =>
    simp only [State.step, State.resolvePermission]
    split
    · exact ⟨he, rfl⟩
    · next e' he' =>
      exact ⟨lookup_erase_some.mpr ⟨hc, he⟩, Table.modify_of_ne (hinv.responder_ne he he' hc) _⟩
  | cancel => exact absurd trivial hc
  | kill => exact absurd trivial hc
  | connectionLost established => exact absurd trivial hc

/-! ## A handler comes to its end -/

/-- How many steps the handler is from its answer. -/
def stepsLeft : HandlerPhase → Nat
  | .received => 5
  | .registered => 4
  | .waiting => 3
  | .woken _ => 2
  | .responding _ => 1
  | .done | .dropped => 0

/-- While the driver runs, a step of the handler whose time is over brings it nearer to its
answer. -/
theorem stepsLeft_proceed (hn : s.handlers[n]? = some h) (hd : h.phase ≠ .dropped)
    (he : s.ended = false) :
    ∃ h', (s.proceed n true).handlers[n]? = some h' ∧ h'.phase ≠ .dropped ∧
      stepsLeft h'.phase = stepsLeft h.phase - 1 ∧ (s.proceed n true).ended = false := by
  have hdiscard : ∀ id, ∃ g, (s.discard id).handlers[n]? = some g ∧
      (s.discard id).ended = false := by
    intro id
    unfold State.discard
    split
    · exact ⟨h, hn, he⟩
    · exact ⟨_, Table.modify_some hn _ _, he⟩
  unfold State.proceed
  rw [hn]
  simp only
  split
  · next hp =>
    obtain ⟨g, hg, he'⟩ := hdiscard h.request.toolCallId
    exact ⟨_, Table.modify_self hg _, by simp, by simp [stepsLeft, hp], he'⟩
  · next hp =>
    exact ⟨_, Table.modify_self hn _, by simp [he], by simp [stepsLeft, hp, he], he⟩
  · next hp =>
    split
    · exact ⟨_, Table.modify_self hn _, by simp, by simp [stepsLeft, hp], he⟩
    · exact ⟨_, Table.modify_self hn _, by simp, by simp [stepsLeft, hp], he⟩
    · exact ⟨_, Table.modify_self hn _, by simp, by simp [stepsLeft, hp], he⟩
  · next d hp =>
    obtain ⟨g, hg, he'⟩ := hdiscard h.request.toolCallId
    exact ⟨_, Table.modify_self hg _, by simp, by simp [stepsLeft, hp], he'⟩
  · next d hp => exact ⟨_, Table.modify_self hn _, by simp, by simp [stepsLeft, hp], he⟩
  · next hp => exact ⟨h, hn, by simp [hp], by simp [stepsLeft, hp], he⟩
  · next hp => exact absurd hp hd

theorem done_of_stepsLeft {phase : HandlerPhase} (h : stepsLeft phase = 0) (hd : phase ≠ .dropped) :
    phase = .done := by
  cases phase <;> simp_all [stepsLeft]

/-- The handler answers within five steps. -/
theorem exists_done (hn : s.handlers[n]? = some h) (hd : h.phase ≠ .dropped) (he : s.ended = false)
    {k : Nat} (hk : stepsLeft h.phase ≤ k) :
    ∃ h', (Run.run State.step s (List.replicate k (.proceed n true))).handlers[n]? = some h' ∧
      h'.phase = .done := by
  induction k generalizing s h with
  | zero => exact ⟨h, hn, done_of_stepsLeft (by omega) hd⟩
  | succ k ih =>
    obtain ⟨h', hn', hd', hleft, he'⟩ := stepsLeft_proceed hn hd he
    rw [List.replicate_succ, Run.run_cons]
    exact ih hn' hd' he' (by omega)

theorem stepsLeft_le (phase : HandlerPhase) : stepsLeft phase ≤ 5 := by
  cases phase <;> simp [stepsLeft]

end State

/-- A viewer chose `opt` while request `n` was the pending one under its id, and `opt` is an option
of the request. -/
def Chosen (scope : WorkspaceScope) (evs : List Event) (n : Nat) (opt : String) : Prop :=
  ∃ pre id resolver post e h, evs = pre ++ .decide id (some opt) resolver :: post ∧
    (run scope pre).pending.lookup id = some e ∧ e.responder = n ∧
    (run scope pre).handlers[n]? = some h ∧ h.request.toolCallId = id ∧
    opt ∈ h.request.options.map (·.optionId)

theorem inv_run (scope : WorkspaceScope) (evs : List Event) :
    State.Inv (Chosen scope evs) (run scope evs) := by
  refine Run.run_induction (I := fun _ s => State.Inv (Chosen scope evs) s)
    (State.inv_start scope) fun pre ev post he hinv => ?_
  refine hinv.step fun id opt resolver e h hev hlookup hn hid hmem => ?_
  subst hev
  exact ⟨pre, id, resolver, post, e, h, he, hlookup, rfl, hn, hid, hmem⟩

/-- What is asked of a run: an agent is told `Selected(opt)` only if a viewer chose `opt` for that
request; each request is answered once, and a handler that was not dropped with its connection can
always come to its answer; the completion of a request touches no other; every card that leaves
the map is resolved or removed with the session. -/
structure Answered (scope : WorkspaceScope) (evs : List Event) : Prop where
  selected : ∀ (n : Nat) (h : Handler) (opt : String), (run scope evs).handlers[n]? = some h →
    .selected opt ∈ h.answers → Chosen scope evs n opt
  once : ∀ (n : Nat) (h : Handler), (run scope evs).handlers[n]? = some h →
    h.answers.length = (if h.phase = .done then 1 else 0) ∧
    (h.phase ≠ .dropped → (run scope evs).ended = false →
      ∃ k h', (run scope (evs ++ List.replicate k (.proceed n true))).handlers[n]? = some h' ∧
        h'.answers.length = 1)
  spares : Run.Along State.step State.SparesOthers (start scope) evs
  cards : (run scope evs).Cards

/-- A run of safe steps answers its requests. -/
theorem permissions_answered (scope : WorkspaceScope) (evs : List Event)
    (hs : Run.Along State.step State.Safe (start scope) evs) : Answered scope evs where
  selected n h opt hn hmem := (inv_run scope evs).chosen n h opt hn (.inr (.inr (.inr hmem)))
  once n h hn := by
    refine ⟨(inv_run scope evs).answers n h hn, fun hd he => ?_⟩
    obtain ⟨h', hn', hdone⟩ := State.exists_done hn hd he (State.stepsLeft_le h.phase)
    have hrun : (run scope (evs ++ List.replicate 5 (.proceed n true))).handlers[n]? = some h' := by
      rw [run, Run.run_append]
      exact hn'
    refine ⟨5, h', hrun, ?_⟩
    rw [(inv_run scope _).answers n h' hrun, if_pos hdone]
  spares := by
    refine hs.of_invariant (I := fun s => s.Tidy ∧ s.Inv fun _ _ => True)
      ⟨State.tidy_start scope, State.inv_start scope⟩ (fun s ev hI hsafe => ?_)
      fun s ev hI hsafe => hI.1.sparesOthers hI.2 hsafe
    exact ⟨hI.1.step hI.2 hsafe, hI.2.step fun _ _ _ _ _ _ _ _ _ _ => trivial⟩
  cards := by
    have := hs.induction (I := fun s => s.Tidy ∧ s.Inv fun _ _ => True)
      ⟨State.tidy_start scope, State.inv_start scope⟩ fun s ev hI hsafe =>
        ⟨hI.1.step hI.2 hsafe, hI.2.step fun _ _ _ _ _ _ _ _ _ _ => trivial⟩
    exact this.1.cards

/-- A request to edit, with one option. -/
def editRequest : Request :=
  { toolCallId := "t1"
    title := some "edit"
    kind := some .edit
    options := [{ optionId := "allow", name := "Allow", kind := .allowOnce }] }

/-- Two requests in a row under one id; the viewer allows the first and the turn is cancelled
before the second is answered. -/
def twoRequests : List Event :=
  [.receive editRequest, .proceed 0 false, .proceed 0 false, .decide "t1" (some "allow") .phone,
    .proceed 0 false, .proceed 0 false, .proceed 0 false,
    .receive editRequest, .proceed 1 false, .proceed 1 false, .cancel, .proceed 1 false,
    .proceed 1 false, .proceed 1 false]

theorem permissions_answered_two_requests :
    ((run .project twoRequests).handlers.map (·.answers)) = [[.selected "allow"], [.cancelled]] ∧
      Answered .project twoRequests :=
  ⟨by decide, permissions_answered .project twoRequests (by decide)⟩

/-- The time of the request is over before anybody answers. -/
def expired : List Event :=
  [.receive editRequest, .proceed 0 false, .proceed 0 false, .proceed 0 true, .proceed 0 false]

/-- The agent asks again under the id of a request that is still pending. -/
def reused : List Event :=
  [.receive editRequest, .proceed 0 false, .proceed 0 false,
    .receive editRequest, .proceed 1 false, .proceed 1 false, .proceed 0 false]

/-- An expired card is never resolved. And a request whose id was used again takes the new request
with it when it cleans up. -/
theorem not_permissions_answered :
    ¬ Answered .project expired ∧ ¬ Answered .project (reused ++ [.proceed 0 false]) := by
  constructor
  · intro h
    have hcard := h.cards 0 0 editRequest.card editRequest.offered .write .project (by decide)
    have hp : (run .project expired).pending.lookup "t1" = none := by decide
    have hl : (run .project expired).log.length = 1 := by decide
    obtain ⟨e, he, -⟩ | ⟨j, x, hj, hx, -⟩ := hcard
    · cases hp.symm.trans he
    · have := (List.getElem?_eq_some_iff.mp hx).1
      omega
  · intro h
    have hp : (run .project reused).pending.lookup "t1" = some
        { responder := 1, toolCall := editRequest.card, options := editRequest.offered,
          category := .write } := by decide
    have hp' : ((run .project reused).step (.proceed 0 false)).pending.lookup "t1" = none := by
      decide
    have hspares := (h.spares.step "t1" _ hp (by simp [State.Concerns])).1
    cases hp'.symm.trans hspares

end Permission

end Portty
