import Mathlib.Data.List.Sort
import Portty.Host.AgentOwner
import Portty.Lib.Run
import Portty.Lib.Table

/-!
# The cache of agent conversations (`session.rs`)

A driver persists its conversation with tasks on the blocking pool, and `kill` prunes it with
another one. The tasks exclude each other (`ACP_CACHE_LOCK`) and run in any order.

Every task reads the file, changes the entries and replaces the file. The calls can fail (`Io`): a
file that cannot be read counts as empty, and a failed write is only logged, or dropped by the
prune.

`closed_conversation_discarded`: in every run in which no write of the conversation waits when the
prune runs, the prune's own write reaches the file, and no write is queued after the kill, the cache
has no entry for it when the tasks queued up to the kill have run. `closed_conversation_returns`: a
write that runs after the prune brings it back.

The size of the file in bytes is a parameter (`size`).
-/

namespace Portty.Host.AgentCache

open AgentOwner (AgentProvider)

/-! ## The file -/

/-- An entry of the cache. -/
structure CachedAcpSession where
  provider : AgentProvider
  cwd : String
  acpSessionId : String
  firstPromptLabel : Option String
  lastActiveAtUnixMs : Nat
  deriving DecidableEq, Repr

/-- The entries of the file. -/
abbrev Cache := List CachedAcpSession

/-- The conversation of an entry. -/
abbrev CachedAcpSession.key (e : CachedAcpSession) : AgentProvider × String :=
  (e.provider, e.acpSessionId)

/-- The largest file that is written or read. -/
def maxAcpCacheBytes : Nat := 8 * 1024 * 1024

/-- The most entries that are written. -/
def maxCachedAcpSessions : Nat := 64

/-- How the write of the cache ends. -/
inductive WriteOutcome where
  | ok
  /-- The directory, the temporary file or the rename fails: the file is as it was. -/
  | failed
  /-- The file is replaced, and its permissions cannot be set. -/
  | failedReplaced
  deriving DecidableEq, Repr

/-- How the calls of one task on the file end. -/
structure Io where
  /-- The file can be read and parsed. -/
  readable : Bool := true
  write : WriteOutcome := .ok
  deriving DecidableEq, Repr

section file

variable (size : Cache → Nat)

/-- A file that is too large is ignored, and one that cannot be read is empty. -/
def readAcpCacheUnlocked (readable : Bool) (file : Cache) : Cache :=
  if size file > maxAcpCacheBytes then [] else if readable then file else []

/-- The oldest entries are dropped until the file is small enough. -/
def fit (entries : Cache) : Nat → Cache
  | 0 => entries
  | n + 1 =>
    if size entries ≤ maxAcpCacheBytes ∨ entries.length ≤ 1 then entries
    else fit entries.dropLast n

/-- The entries that are written: the newest ones. -/
def written (entries : Cache) : Cache :=
  let sorted := entries.insertionSort fun a b => b.lastActiveAtUnixMs ≤ a.lastActiveAtUnixMs
  let kept := sorted.take maxCachedAcpSessions
  fit size kept kept.length

/-- The result, and the file afterwards. -/
def writeAcpCacheUnlocked (o : WriteOutcome) (entries file : Cache) : Except Unit Unit × Cache :=
  match o with
  | .ok => (.ok (), written size entries)
  | .failed => (.error (), file)
  | .failedReplaced => (.error (), written size entries)

/-- An earlier label of the first prompt wins. A failed write is logged. -/
def writeCachedAcpSession (io : Io) (cached : CachedAcpSession) (file : Cache) : Cache :=
  let entries := readAcpCacheUnlocked size io.readable file
  let original := (entries.find? (·.key = cached.key)).bind (·.firstPromptLabel)
  let cached := { cached with firstPromptLabel := original <|> cached.firstPromptLabel }
  (writeAcpCacheUnlocked size io.write (entries.filter (·.key ≠ cached.key) ++ [cached]) file).2

/-- The result of the write is dropped. -/
def pruneCachedAcpSession (io : Io) (provider : Option AgentProvider) (sessionId : String)
    (file : Cache) : Cache :=
  match provider with
  | none => file
  | some provider =>
    (writeAcpCacheUnlocked size io.write
      ((readAcpCacheUnlocked size io.readable file).filter (·.key ≠ (provider, sessionId))) file).2

/-- The last of the entries that were active latest. -/
def maxByLastActive (entries : Cache) : Option CachedAcpSession :=
  entries.foldl (fun best e =>
    match best with
    | some b => if b.lastActiveAtUnixMs ≤ e.lastActiveAtUnixMs then some e else some b
    | none => some e) none

/-- What `AgentResume::Latest` selects. -/
def cachedAcpSession (readable : Bool) (provider : Option AgentProvider) (cwd : String)
    (file : Cache) : Option CachedAcpSession :=
  provider.bind fun provider =>
    maxByLastActive ((readAcpCacheUnlocked size readable file).filter fun e =>
      e.provider = provider ∧ e.cwd = cwd)

/-! ## Sessions and tasks -/

/-- A task of the blocking pool. -/
inductive Task where
  | write (cached : CachedAcpSession)
  | prune (provider : Option AgentProvider) (sessionId : String)
  deriving DecidableEq, Repr

/-- A session of an agent with its driver. -/
structure Session where
  provider : Option AgentProvider
  cwd : String
  /-- `acp_session_id` of the handle. -/
  acpSessionId : Option String
  /-- The id that the driver works with. -/
  sessionId : Option String := none
  registered : Bool := true
  /-- The driver has stopped. -/
  stopped : Bool := false
  deriving DecidableEq, Repr

/-- The sessions, the tasks on the pool, and the file. -/
structure World where
  sessions : List Session := []
  /-- The tasks in the order in which they were queued; `true` if a task has run. -/
  tasks : List (Task × Bool) := []
  file : Cache := []
  /-- The conversations that were closed, with the number of tasks queued up to then. -/
  closed : List ((AgentProvider × String) × Nat) := []
  deriving Repr

/-- What happens, in any order. -/
inductive Event where
  | spawn (provider : Option AgentProvider) (cwd : String) (cached : Option String)
  /-- The driver records its conversation. -/
  | record (i : Nat) (id : String)
  /-- The driver learns that the agent has forgotten a conversation. -/
  | forgotten (i : Nat) (id : String) (io : Io)
  /-- `persist_tracked_acp_session` -/
  | persist (i : Nat) (label : Option String) (now : Nat)
  /-- The driver ends, or its abort takes effect. -/
  | stop (i : Nat)
  | kill (i : Nat)
  /-- A task runs. -/
  | run (k : Nat) (io : Io)
  deriving Repr

namespace World

variable (w : World)

/-- The handle and the driver have this conversation. -/
def record (i : Nat) (id : String) : World :=
  { w with sessions := w.sessions.modify i fun s =>
      if s.stopped then s else { s with acpSessionId := some id, sessionId := some id } }

/-- The entry of a session that has a conversation. -/
def buildCached (s : Session) (label : Option String) (now : Nat) : Option CachedAcpSession :=
  match s.provider, s.sessionId with
  | some provider, some id => some ⟨provider, s.cwd, id, label, now⟩
  | _, _ => none

/-- The write is queued; it takes what the session has now. -/
def persist (s : Session) (label : Option String) (now : Nat) : World :=
  if s.stopped then w else
  match buildCached s label now with
  | some cached => { w with tasks := w.tasks ++ [(.write cached, false)] }
  | none => w

/-- `kill` removes the session, asks its driver to stop and queues the prune. -/
def kill (i : Nat) (s : Session) : World :=
  if s.registered then
    let w := { w with sessions := w.sessions.modify i fun s => { s with registered := false, acpSessionId := none } }
    match s.acpSessionId with
    | none => w
    | some id =>
      { w with
        tasks := w.tasks ++ [(.prune s.provider id, false)]
        closed := w.closed ++ (s.provider.toList.map fun provider => ((provider, id), w.tasks.length + 1)) }
  else w

/-- A task that waits runs, and its calls end like `io`. -/
def runTask (k : Nat) (t : Task) (io : Io) : World :=
  { w with
    tasks := w.tasks.modify k fun t => (t.1, true)
    file := match t with
      | .write cached => writeCachedAcpSession size io cached w.file
      | .prune provider id => pruneCachedAcpSession size io provider id w.file }

/-- One event. -/
def step : Event → World
  | .spawn provider cwd cached => { w with sessions := w.sessions ++ [⟨provider, cwd, cached, none, true, false⟩] }
  | .record i id => w.record i id
  | .forgotten i id io => (w.sessions[i]?).elim w fun s =>
    { w with file := pruneCachedAcpSession size io s.provider id w.file }
  | .persist i label now => (w.sessions[i]?).elim w fun s => w.persist s label now
  | .stop i => { w with sessions := w.sessions.modify i fun s => { s with stopped := true } }
  | .kill i => (w.sessions[i]?).elim w fun s => w.kill i s
  | .run k io =>
    match w.tasks[k]? with
    | some (t, false) => runTask size w k t io
    | _ => w

end World

end file

/-! ## What the file has -/

variable {size : Cache → Nat} {w : World} {e : CachedAcpSession} {file : Cache} {i k : Nat}
  {conversation : AgentProvider × String}

/-- The file has no entry for the conversation. -/
def Absent (conversation : AgentProvider × String) (file : Cache) : Prop :=
  ∀ e ∈ file, e.key ≠ conversation

theorem mem_readAcpCacheUnlocked {readable : Bool}
    (h : e ∈ readAcpCacheUnlocked size readable file) : e ∈ file := by
  unfold readAcpCacheUnlocked at h
  split at h
  · cases h
  split at h
  · exact h
  · cases h

theorem mem_fit {n : Nat} {entries : Cache} (h : e ∈ fit size entries n) : e ∈ entries := by
  induction n generalizing entries with
  | zero => exact h
  | succ n ih =>
    unfold fit at h
    split at h
    · exact h
    · exact List.dropLast_subset _ (ih h)

theorem mem_written {entries : Cache} (h : e ∈ written size entries) : e ∈ entries := by
  have htake := List.mem_of_mem_take (mem_fit h)
  exact (List.mem_insertionSort _).mp htake

/-- The file has entries that were written, or it is as it was. -/
theorem mem_writeAcpCacheUnlocked {o : WriteOutcome} {entries : Cache}
    (h : e ∈ (writeAcpCacheUnlocked size o entries file).2) :
    e ∈ entries ∨ o = .failed ∧ e ∈ file := by
  cases o with
  | ok | failedReplaced => exact .inl (mem_written h)
  | failed => exact .inr ⟨rfl, h⟩

theorem Absent.write (h : Absent conversation file) (io : Io) {cached : CachedAcpSession}
    (hne : cached.key ≠ conversation) :
    Absent conversation (writeCachedAcpSession size io cached file) := by
  intro e he
  rcases mem_writeAcpCacheUnlocked he with he | ⟨-, he⟩
  · rcases List.mem_append.mp he with he | he
    · exact h e (mem_readAcpCacheUnlocked (List.mem_filter.mp he).1)
    · rw [List.mem_singleton.mp he]
      exact hne
  · exact h e he

theorem Absent.prune (h : Absent conversation file) (io : Io) (provider : Option AgentProvider)
    (id : String) :
    Absent conversation (pruneCachedAcpSession size io provider id file) := by
  cases provider with
  | none => exact h
  | some provider =>
    intro e he
    rcases mem_writeAcpCacheUnlocked he with he | ⟨-, he⟩
    · exact h e (mem_readAcpCacheUnlocked (List.mem_filter.mp he).1)
    · exact h e he

/-- A prune whose write reaches the file. -/
theorem absent_prune {io : Io} (hio : io.write ≠ .failed) (provider : AgentProvider) (id : String) :
    Absent (provider, id) (pruneCachedAcpSession size io (some provider) id file) := by
  intro e he
  rcases mem_writeAcpCacheUnlocked he with he | ⟨hf, -⟩
  · exact of_decide_eq_true (List.mem_filter.mp he).2
  · exact absurd hf hio

/-- The newest entry is one of them. -/
theorem mem_maxByLastActive {entries : Cache} (h : maxByLastActive entries = some e) :
    e ∈ entries := by
  -- The best entry so far is an entry of the list.
  suffices hgen : ∀ (l : Cache) (best : Option CachedAcpSession), (∀ b ∈ best, b ∈ entries) →
      (∀ b ∈ l, b ∈ entries) → l.foldl (fun best e =>
        match best with
        | some b => if b.lastActiveAtUnixMs ≤ e.lastActiveAtUnixMs then some e else some b
        | none => some e) best = some e → e ∈ entries from
    hgen entries none nofun (fun _ hb => hb) h
  intro l
  induction l with
  | nil => exact fun best hbest _ he => hbest e he
  | cons x l ih =>
    intro best hbest hl he
    refine ih _ ?_ (fun b hb => hl b (List.mem_cons_of_mem _ hb)) he
    intro b hb
    cases best with
    | none =>
      cases hb
      exact hl x List.mem_cons_self
    | some old =>
      dsimp only at hb
      split at hb
      · cases hb
        exact hl x List.mem_cons_self
      · exact hbest b hb

theorem Absent.latest (h : Absent conversation file) {readable : Bool}
    {provider : Option AgentProvider} {cwd : String}
    (he : cachedAcpSession size readable provider cwd file = some e) : e.key ≠ conversation := by
  obtain ⟨p, -, hmax⟩ := Option.bind_eq_some_iff.mp he
  exact h e (mem_readAcpCacheUnlocked (List.mem_filter.mp (mem_maxByLastActive hmax)).1)

/-! ## Closed conversations -/

/-- When the tasks that were queued up to its close have run, a closed conversation is not in the
file, and is not selected as the latest. -/
def Discarded (size : Cache → Nat) (w : World) : Prop :=
  ∀ c ∈ w.closed, (∀ k < c.2, ∃ t, w.tasks[k]? = some (t, true)) →
    Absent c.1 w.file ∧ ∀ (readable : Bool) (provider : Option AgentProvider) (cwd : String),
      ∀ e ∈ cachedAcpSession size readable provider cwd w.file, e.key ≠ c.1

/-- No write of the conversation waits. -/
def NoWrite (w : World) (conversation : AgentProvider × String) : Prop :=
  ∀ t ∈ w.tasks, ∀ cached, t = (.write cached, false) → cached.key ≠ conversation

/-- A prune runs when no write of its conversation waits, and its own write reaches the file; and
nothing is queued for a closed conversation. -/
def Meets (w : World) : Event → Prop
  | .run k io => ∀ t ∈ w.tasks[k]?, ∀ provider id, t = (.prune (some provider) id, false) →
      NoWrite w (provider, id) ∧ io.write ≠ .failed
  | .persist i label now => ∀ s ∈ w.sessions[i]?, ∀ cached ∈ World.buildCached s label now,
      ∀ c ∈ w.closed, c.1 ≠ cached.key
  | _ => True

/-- A closed conversation waits for its prune, or it is gone for good. -/
def Gone (w : World) (c : (AgentProvider × String) × Nat) : Prop :=
  ∃ n, c.2 = n + 1 ∧ ∃ b, w.tasks[n]? = some (.prune (some c.1.1) c.1.2, b) ∧
    (b = true → Absent c.1 w.file ∧ NoWrite w c.1)

/-- What was closed is gone once the tasks up to then have run. -/
def Inv (w : World) : Prop := ∀ c ∈ w.closed, Gone w c

theorem Gone.sessions {c : (AgentProvider × String) × Nat} (h : Gone w c)
    (sessions : List Session) :
    Gone { w with sessions } c := h

/-- A task is queued. -/
theorem Gone.queue {c : (AgentProvider × String) × Nat} (h : Gone w c) {t : Task}
    (ht : ∀ cached, t = .write cached → cached.key ≠ c.1) :
    Gone { w with tasks := w.tasks ++ [(t, false)] } c := by
  obtain ⟨n, hn, b, hb, hgone⟩ := h
  refine ⟨n, hn, b, Table.concat_some hb _, fun hb' => ⟨(hgone hb').1, ?_⟩⟩
  intro t' ht' cached he
  rcases List.mem_append.mp ht' with ht' | ht'
  · exact (hgone hb').2 t' ht' cached he
  · rw [List.mem_singleton.mp ht'] at he
    exact ht cached (Prod.mk.inj he).1

theorem Inv.persist (h : Inv w) {s : Session} {label : Option String} {now : Nat}
    (hm : ∀ cached ∈ World.buildCached s label now, ∀ c ∈ w.closed, c.1 ≠ cached.key) :
    Inv (w.persist s label now) := by
  unfold World.persist
  split
  · exact h
  · split
    · rename_i cached hc
      intro c hmem
      refine (h c hmem).queue ?_
      rintro cached' ⟨⟩
      exact (hm cached hc c hmem).symm
    · exact h

/-- A kill closes the conversation, and queues its prune. -/
theorem Inv.kill (h : Inv w) (i : Nat) (s : Session) : Inv (w.kill i s) := by
  unfold World.kill
  split
  · cases s.acpSessionId with
    | none => exact h
    | some id =>
      intro c hc
      rcases List.mem_append.mp hc with hc | hc
      · exact (h c hc).queue (t := .prune s.provider id) nofun
      · cases hp : s.provider with
        | none => rw [hp] at hc; cases hc
        | some provider =>
          rw [hp] at hc
          rw [List.mem_singleton.mp hc]
          exact ⟨w.tasks.length, rfl, false, List.getElem?_concat_length, nofun⟩
  · exact h

/-- Running a task leaves no more writes to wait. -/
theorem NoWrite.run (h : NoWrite w conversation) (k : Nat) (file : Cache) :
    NoWrite { w with tasks := w.tasks.modify k fun t => (t.1, true), file } conversation := by
  intro t ht cached he
  obtain ⟨j, hj⟩ := List.mem_iff_getElem?.mp ht
  rcases Table.modify_cases hj with ⟨-, x, -, rfl⟩ | ⟨-, hj⟩
  · cases (Prod.mk.inj he).2
  · exact h t (List.mem_of_getElem? hj) cached he

/-- A task runs. A prune has no write behind it, and its own reaches the file. -/
theorem Inv.runTask (h : Inv w) {t : Task} {io : Io} (hk : w.tasks[k]? = some (t, false))
    (hm : ∀ provider id, t = .prune (some provider) id →
      NoWrite w (provider, id) ∧ io.write ≠ .failed) :
    Inv (World.runTask size w k t io) := by
  intro c hc
  obtain ⟨n, hn, b, hb, hgone⟩ := h c hc
  by_cases hnk : n = k
  · subst hnk
    have ht : t = .prune (some c.1.1) c.1.2 := (Prod.mk.inj (Option.some.inj (hk.symm.trans hb))).1
    subst ht
    obtain ⟨hnone, hio⟩ := hm c.1.1 c.1.2 rfl
    refine ⟨n, hn, true, ?_, fun _ => ⟨absent_prune hio c.1.1 c.1.2, ?_⟩⟩
    · exact Table.modify_self hb _
    · exact hnone.run n _
  · refine ⟨n, hn, b, (Table.modify_of_ne hnk _).trans hb, fun hb' => ⟨?_, (hgone hb').2.run k _⟩⟩
    cases t with
    | write cached =>
      exact (hgone hb').1.write io ((hgone hb').2 _ (List.mem_of_getElem? hk) cached rfl)
    | prune provider id => exact (hgone hb').1.prune io provider id

theorem Inv.step (h : Inv w) {ev : Event} (hm : Meets w ev) : Inv (w.step size ev) := by
  cases ev with
  | spawn provider cwd cached => exact fun c hc => (h c hc).sessions _
  | record i id => exact fun c hc => (h c hc).sessions _
  | stop i => exact fun c hc => (h c hc).sessions _
  | forgotten i id io =>
    simp only [World.step]
    cases hs : w.sessions[i]? with
    | none => exact h
    | some s =>
      intro c hc
      obtain ⟨n, hn, b, hb, hgone⟩ := h c hc
      exact ⟨n, hn, b, hb, fun hb' => ⟨(hgone hb').1.prune io s.provider id, (hgone hb').2⟩⟩
  | persist i label now =>
    simp only [World.step]
    cases hs : w.sessions[i]? with
    | none => exact h
    | some s => exact h.persist (hm s hs)
  | kill i =>
    simp only [World.step]
    cases hs : w.sessions[i]? with
    | none => exact h
    | some s => exact h.kill i s
  | run k io =>
    simp only [World.step]
    split
    · rename_i t hk
      refine h.runTask hk fun provider id ht => ?_
      exact hm (t, false) hk provider id (by rw [ht])
    · exact h

theorem Inv.discarded (h : Inv w) : Discarded size w := by
  intro c hc hrun
  obtain ⟨n, hn, b, hb, hgone⟩ := h c hc
  obtain ⟨t, ht⟩ := hrun n (by omega)
  have hbt : b = true := (Prod.mk.inj (Option.some.inj (hb.symm.trans ht))).2
  have habsent := (hgone hbt).1
  exact ⟨habsent, fun _ _ _ e he => habsent.latest he⟩

/-- A closed conversation is discarded, if its prune comes last and can write. -/
theorem closed_conversation_discarded (size : Cache → Nat) (file : Cache) (evs : List Event)
    (h : Run.Along (World.step size) Meets { file } evs) :
    Discarded size (Run.run (World.step size) { file } evs) := by
  have hinv : Inv (Run.run (World.step size) { file } evs) :=
    h.induction (I := Inv) nofun fun _ _ hw hm => hw.step hm
  exact hinv.discarded

/-- A session with a queued write is closed; `order` is the order in which the two tasks run. -/
def closeRun (order : List Nat) : List Event :=
  [.spawn (some .codex) "/w" none, .record 0 "x", .persist 0 none 1, .kill 0] ++
    order.map fun k => .run k {}

/-- The write runs before the prune. -/
theorem closed_conversation_discarded_in_order :
    Discarded List.length (Run.run (World.step List.length) {} (closeRun [0, 1])) := by
  refine closed_conversation_discarded List.length [] (closeRun [0, 1]) ?_
  simp [closeRun, Run.Along, World.step, Meets, World.record, World.persist, World.kill,
    World.buildCached, World.runTask, NoWrite]

/-- The prune runs first, and the write brings the conversation back. -/
theorem closed_conversation_returns :
    let w := Run.run (World.step List.length) {} (closeRun [1, 0])
    w.tasks.map (·.2) = [true, true] ∧
      (cachedAcpSession List.length true (some .codex) "/w" w.file).map (·.key) = some (.codex, "x") ∧
      ¬ Discarded List.length w := by
  refine ⟨by decide, by decide, fun h => ?_⟩
  have hclosed : ((.codex, "x"), 2) ∈ (Run.run (World.step List.length) {} (closeRun [1, 0])).closed := by
    decide
  have hrun : ∀ k < 2, ∃ t, (Run.run (World.step List.length) {} (closeRun [1, 0])).tasks[k]? =
      some (t, true) := by
    intro k hk
    match k, hk with
    | 0, _ => exact ⟨.write ⟨.codex, "/w", "x", none, 1⟩, by decide⟩
    | 1, _ => exact ⟨.prune (some .codex) "x", by decide⟩
  have habsent := (h _ hclosed hrun).1
  exact habsent ⟨.codex, "/w", "x", none, 1⟩ (by decide) rfl

end Portty.Host.AgentCache
