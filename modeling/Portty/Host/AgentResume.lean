import Mathlib.Algebra.GroupWithZero.Nat
import Portty.Host.AgentCache
import Portty.Host.Permission
import Portty.Host.Timestamp

/-!
# Resuming a listed conversation (`session.rs`)

A listing of a provider reads the cache, takes what the adapter of the provider reports, or a report
of the last seconds, puts that into the index of discovered conversations (`remember`), and sends
the rows. A resume has the directory and the id of a row; the host looks up the provider in the
cache, or else in the index, launches it, and looks up the conversation again before the session is
registered. Listings, resumes and all that writes the cache interleave.

* `row_provider`: the rows of a listing are the provider's.
* `listed_recorded`: a row is in the cache that the listing has read, or in the index when it is
  sent.
* `resume_of_listed`: which of the sessions that resumes have started are the provider's with the
  conversation.
* `other_provider_started`: the first entry of the cache with the id decides.

A cache that cannot be read or is too large is empty.
-/

namespace Portty.Host.AgentResume

open AgentOwner (AgentProvider Manager)
open AgentTurn (trim)
open Permission (takeBytes maxAgentShortTextBytes)

/-- An entry of the cache, with the title that a listing shows. -/
structure CachedAcpSession extends AgentCache.CachedAcpSession where
  title : String
  deriving DecidableEq, Repr

/-- A conversation that an agent has reported. -/
structure DiscoveredAcpSession where
  provider : AgentProvider
  cwd : String
  acpSessionId : String
  title : String
  lastActiveAtUnixMs : Option Nat
  deriving DecidableEq, Repr

/-- A row of a listing. -/
structure AgentSessionSummary where
  acpSessionId : String
  provider : AgentProvider
  title : String
  label : Option String
  lastActiveAtUnixMs : Nat
  deriving DecidableEq, Repr

/-- What an agent says of a conversation. -/
structure SessionInfo where
  sessionId : String
  cwd : String
  title : Option String
  updatedAt : Option String
  deriving DecidableEq, Repr

/-- The rows of a listing, and the conversations that are taken of a report. -/
def maxListedAgentSessions : Nat := 50

/-- The reports that are kept. -/
def maxMemoizedProbes : Nat := 8

/-- The entries of the index. -/
def maxDiscoveredAcpSessions : Nat := 256

/-- `ACP_SESSION_LIST_TTL`, in nanoseconds. -/
def acpSessionListTtl : Nat := 30 * 10 ^ 9

/-! ## The report of an agent -/

/-- The first of `str::lines`. -/
def firstLine (text : List Char) : List Char :=
  let line := text.takeWhile (· ≠ '\n')
  if line.getLast? = some '\r' ∧ line.length < text.length then line.dropLast else line

/-- The first line, trimmed and cut to 80 bytes. -/
def clampCacheLabel (text : List Char) : String :=
  let label := trim (firstLine text)
  if 80 < (String.ofList label).utf8ByteSize then String.ofList (takeBytes (80 - "…".utf8ByteSize) label) ++ "…"
  else String.ofList label

/-- The conversations with a usable id, each once. -/
def firstOfEach (seen : List String) : List SessionInfo → List SessionInfo
  | [] => []
  | info :: listed =>
    if info.sessionId = "" ∨ maxAgentShortTextBytes < info.sessionId.utf8ByteSize ∨ info.sessionId ∈ seen then
      firstOfEach seen listed
    else info :: firstOfEach (info.sessionId :: seen) listed

/-- A time that is not one is none. -/
def unixMs (text : String) : Option Nat :=
  match Timestamp.unixMsFromRfc3339 text.toList with
  | .returns ms => some ms
  | .leaves | .panics => none

variable (canonicalize : String → Option String)

/-- The conversations of a report that are of the directory, once it is resolved. -/
def discoveredFromSessionInfos (provider : AgentProvider) (cwd : String)
    (listed : List SessionInfo) :
    List DiscoveredAcpSession :=
  let target := (canonicalize cwd).getD cwd
  let usable := firstOfEach [] (listed.filter fun info => canonicalize info.cwd = some target)
  (usable.map fun info =>
    { provider, cwd
      acpSessionId := info.sessionId
      title := (((info.title.map fun title => trim title.toList).filter (· ≠ [])).map clampCacheLabel).getD "conversation"
      lastActiveAtUnixMs := info.updatedAt.bind unixMs }).take maxListedAgentSessions

/-- `listed` has the pages of the agent, and is empty where the probe fails. -/
def probeAgentSessions (provider : AgentProvider) (cwd : String) (listed : List SessionInfo) :
    List DiscoveredAcpSession :=
  discoveredFromSessionInfos canonicalize provider cwd (listed.take maxListedAgentSessions)

/-- A report of an adapter, and when it was taken. -/
structure ProbeMemo where
  provider : AgentProvider
  cwd : String
  takenAt : Nat
  sessions : List DiscoveredAcpSession
  deriving DecidableEq, Repr

/-- The reports, the oldest one first. -/
abbrev ProbeMemos := List ProbeMemo

namespace ProbeMemos

/-- A report of the last seconds. -/
def get (memos : ProbeMemos) (provider : AgentProvider) (cwd : String) (now : Nat) :
    Option (List DiscoveredAcpSession) :=
  (memos.find? fun memo => memo.provider = provider ∧ memo.cwd = cwd ∧ now - memo.takenAt < acpSessionListTtl).map (·.sessions)

/-- A report replaces the one of the same provider and directory. -/
def store (memos : ProbeMemos) (memo : ProbeMemo) : ProbeMemos :=
  let memos :=
    (memos.filter fun entry => ¬ (entry.provider = memo.provider ∧ entry.cwd = memo.cwd)) ++ [memo]
  memos.drop (memos.length - maxMemoizedProbes)

end ProbeMemos

/-! ## What the host has of conversations -/

/-- What `read_acp_cache_unlocked` gives, and the index of discovered conversations. -/
structure Records where
  cache : List CachedAcpSession
  discovered : List DiscoveredAcpSession := []
  deriving DecidableEq, Repr

/-- An entry takes the place of the one of the same provider, directory and id. -/
def rememberOne (index : List DiscoveredAcpSession) (session : DiscoveredAcpSession) :
    List DiscoveredAcpSession :=
  (index.filter fun entry =>
    ¬ (entry.provider = session.provider ∧ entry.cwd = session.cwd ∧ entry.acpSessionId = session.acpSessionId)) ++ [session]

/-- The entries of a report go to the end of the index, which drops its oldest ones. -/
def remember (index sessions : List DiscoveredAcpSession) : List DiscoveredAcpSession :=
  let index := sessions.foldl rememberOne index
  index.drop (index.length - maxDiscoveredAcpSessions)

/-- Providers that have one id in one directory are not told apart. -/
def find (index : List DiscoveredAcpSession) (cwd acpSessionId : String) :
    Option DiscoveredAcpSession :=
  match index.filter fun entry => entry.cwd = cwd ∧ entry.acpSessionId = acpSessionId with
  | [] => none
  | first :: rest => if rest.any (·.provider ≠ first.provider) then none else some first

/-- The entries of a directory, the newest one first. -/
def selectSessionsForCwd (entries : List CachedAcpSession) (cwd : String) : List CachedAcpSession :=
  (entries.filter (·.cwd = cwd)).insertionSort fun a b => b.lastActiveAtUnixMs ≤ a.lastActiveAtUnixMs

/-- The first entry with the directory and the id, of any provider. -/
def selectSessionById (entries : List CachedAcpSession) (cwd acpSessionId : String) :
    Option CachedAcpSession :=
  entries.find? fun entry => entry.cwd = cwd ∧ entry.acpSessionId = acpSessionId

/-- The cache is asked first, then the index. -/
def resumableConversation (records : Records) (cwd acpSessionId : String) :
    Option CachedAcpSession :=
  (selectSessionById records.cache cwd acpSessionId).or
    ((find records.discovered cwd acpSessionId).map fun entry =>
      { provider := entry.provider
        cwd := entry.cwd
        acpSessionId := entry.acpSessionId
        title := entry.title
        firstPromptLabel := none
        lastActiveAtUnixMs := entry.lastActiveAtUnixMs.getD 0 })

/-! ## Rows -/

/-- The row of an entry of the cache, with the label of its first prompt. -/
def CachedAcpSession.row (entry : CachedAcpSession) : AgentSessionSummary :=
  ⟨entry.acpSessionId, entry.provider, entry.title, entry.firstPromptLabel, entry.lastActiveAtUnixMs⟩

/-- The row of a discovered conversation; an unknown time is 0. -/
def DiscoveredAcpSession.row (entry : DiscoveredAcpSession) : AgentSessionSummary :=
  ⟨entry.acpSessionId, entry.provider, entry.title, none, entry.lastActiveAtUnixMs.getD 0⟩

/-- The first row with the id takes the later time. -/
def mergeRow (rows : List AgentSessionSummary) (entry : DiscoveredAcpSession) :
    List AgentSessionSummary :=
  match rows.findIdx? (·.acpSessionId = entry.acpSessionId) with
  | some i => rows.modify i fun row =>
      { row with lastActiveAtUnixMs := max row.lastActiveAtUnixMs (entry.lastActiveAtUnixMs.getD 0) }
  | none => rows ++ [entry.row]

/-- The rows of the cache, with what the report adds, the newest one first. -/
def mergeAgentSessions (provider : AgentProvider) (cached : List CachedAcpSession)
    (discovered : List DiscoveredAcpSession) :
    List AgentSessionSummary :=
  let rows := discovered.foldl mergeRow ((cached.filter (·.provider = provider)).map (·.row))
  (rows.insertionSort fun a b => b.lastActiveAtUnixMs ≤ a.lastActiveAtUnixMs).take maxListedAgentSessions

/-! ## Listings and resumes -/

/-- Where a listing is. -/
inductive Phase where
  /-- The cache has been read. -/
  | cached
  /-- There is no report of the last seconds, and the slot for a probe is awaited. -/
  | waiting
  /-- It has the slot. -/
  | probing
  | learned (discovered : List DiscoveredAcpSession)
  | sent (rows : List AgentSessionSummary)
  deriving DecidableEq, Repr

/-- `list_agent_sessions_for`, or `list_agent_sessions` where no provider is named. -/
structure Listing where
  provider : Option AgentProvider
  cwd : String
  cached : List CachedAcpSession
  phase : Phase
  deriving DecidableEq, Repr

/-- What the phone was sent. -/
def Listing.rows (l : Listing) : List AgentSessionSummary :=
  match l.phase with
  | .sent rows => rows
  | _ => []

/-- A resume is refused, or a session is started with a conversation to reopen, if any. -/
inductive Outcome where
  | refused
  | started (provider : AgentProvider) (title cwd : String) (conversation : Option String)
  deriving DecidableEq, Repr

/-- A resume of a row, and what the host had when it looked. -/
structure Resume where
  /-- The row, and the directory of its listing. -/
  row : AgentSessionSummary
  cwd : String
  /-- What the host had at the lookup, and when the session was registered. -/
  lookup : Records
  launch : Records := ⟨[], []⟩
  live : Manager := []
  outcome : Option Outcome := none

/-- The records of the host, its sessions, the listings and the resumes. -/
structure World where
  records : Records
  probes : ProbeMemos := []
  sessions : Manager := []
  listings : List Listing := []
  resumes : List Resume := []

/-- What happens at the host, in any order. -/
inductive Event where
  /-- The cache is written. -/
  | wrote (cache : List CachedAcpSession)
  /-- Sessions are started in other ways, are driven, and end. -/
  | session (event : AgentOwner.Event)
  | list (provider : Option AgentProvider) (cwd : String)
  /-- A listing looks for a report of the last seconds. -/
  | memo (k now : Nat)
  /-- A listing gets the slot, or has waited too long. -/
  | slot (k now : Nat)
  | busy (k : Nat)
  | probed (k now : Nat) (listed : List SessionInfo)
  | send (k : Nat)
  /-- The phone resumes a row of a listing. -/
  | resume (k n : Nat)
  /-- The session of a resume is registered, if its adapter is there and the host has room. -/
  | launch (j : Nat) (possible : Bool)

namespace World

variable (w : World)

/-- A listing begins, and reads the cache. One without a provider is done with that. -/
def list (provider : Option AgentProvider) (cwd : String) : World :=
  let cached := selectSessionsForCwd w.records.cache cwd
  let phase := if provider.isNone then .sent (cached.map (·.row)) else .cached
  { w with listings := w.listings ++ [⟨provider, cwd, cached, phase⟩] }

/-- A listing goes on. -/
def setPhase (k : Nat) (phase : Phase) : World :=
  { w with listings := w.listings.modify k fun l => { l with phase } }

/-- A look into the memos. -/
def consult (k now : Nat) (provider : AgentProvider) (cwd : String) (missed : Phase) : World :=
  w.setPhase k (((ProbeMemos.get w.probes provider cwd now).map Phase.learned).getD missed)

/-- The adapter has answered: the report is kept, and the listing has it. -/
def probed (k now : Nat) (provider : AgentProvider) (cwd : String) (listed : List SessionInfo) :
    World :=
  let fresh := probeAgentSessions canonicalize provider cwd listed
  { w.setPhase k (.learned fresh) with probes := ProbeMemos.store w.probes ⟨provider, cwd, now, fresh⟩ }

/-- The report goes into the index, and the rows to the phone. -/
def send (k : Nat) (provider : AgentProvider) (cached : List CachedAcpSession)
    (discovered : List DiscoveredAcpSession) : World :=
  { w.setPhase k (.sent (mergeAgentSessions provider cached discovered)) with
    records := { w.records with discovered := remember w.records.discovered discovered } }

/-- `resume_agent_session`, up to the launch. -/
def resumeAgentSession (row : AgentSessionSummary) (cwd : String) : World :=
  let found := resumableConversation w.records cwd row.acpSessionId
  { w with resumes := w.resumes ++ [{ row, cwd, lookup := w.records
                                      outcome := if found.isNone then some .refused else none }] }

/-- `spawn_agent_with` for a resume. -/
def spawn (j : Nat) (r : Resume) (entry : CachedAcpSession) : World :=
  let found := (resumableConversation w.records r.cwd r.row.acpSessionId).map (·.acpSessionId)
  let sessions :=
    w.sessions.spawnAgentWith (some entry.provider) (.session r.row.acpSessionId) found
  let conversation := sessions.getLast?.bind (·.acpSessionId)
  { w with
    sessions
    resumes := w.resumes.modify j fun r => { r with
      launch := w.records
      live := w.sessions
      outcome := some (.started entry.provider entry.title r.cwd conversation) } }

/-- The session of a resume is started with the entry that the lookup has found. -/
def launch (j : Nat) (possible : Bool) (r : Resume) : World :=
  match r.outcome, resumableConversation r.lookup r.cwd r.row.acpSessionId with
  | none, some entry =>
    if possible then w.spawn j r entry
    else { w with resumes := w.resumes.modify j fun r => { r with outcome := some .refused } }
  | _, _ => w

/-- One event. -/
def step : World → Event → World
  | w, .wrote cache => { w with records := { w.records with cache } }
  | w, .session event => { w with sessions := w.sessions.step event }
  | w, .list provider cwd => w.list provider cwd
  | w, .memo k now =>
    match w.listings[k]? with
    | some ⟨some provider, cwd, _, .cached⟩ => w.consult k now provider cwd .waiting
    | _ => w
  | w, .slot k now =>
    match w.listings[k]? with
    | some ⟨some provider, cwd, _, .waiting⟩ => w.consult k now provider cwd .probing
    | _ => w
  | w, .busy k =>
    match w.listings[k]? with
    | some ⟨some provider, _, cached, .waiting⟩ => w.setPhase k (.sent (mergeAgentSessions provider cached []))
    | _ => w
  | w, .probed k now listed =>
    match w.listings[k]? with
    | some ⟨some provider, cwd, _, .probing⟩ => w.probed canonicalize k now provider cwd listed
    | _ => w
  | w, .send k =>
    match w.listings[k]? with
    | some ⟨some provider, _, cached, .learned discovered⟩ => w.send k provider cached discovered
    | _ => w
  | w, .resume k n =>
    match w.listings[k]? with
    | some l => (l.rows[n]?).elim w fun row => w.resumeAgentSession row l.cwd
    | none => w
  | w, .launch j possible => (w.resumes[j]?).elim w fun r => w.launch j possible r

end World

/-- The world when the host has started. -/
def World.boot (cache : List CachedAcpSession) : World := { records := { cache } }

/-! ## What a lookup finds -/

variable {canonicalize} {records : Records} {index : List DiscoveredAcpSession}
  {d : DiscoveredAcpSession}
  {entry : CachedAcpSession} {provider : AgentProvider} {cwd id : String}

/-- The first entry of the cache with the directory and the id is the provider's; without one, no
other provider has them in the index. -/
structure Records.Owned (records : Records) (provider : AgentProvider) (cwd id : String) : Prop where
  cached : ∀ e ∈ (records.cache.filter fun e => e.cwd = cwd ∧ e.acpSessionId = id).head?, e.provider = provider
  discovered : (∀ e ∈ records.cache, ¬ (e.cwd = cwd ∧ e.acpSessionId = id)) →
    ∀ d ∈ records.discovered, d.cwd = cwd ∧ d.acpSessionId = id → d.provider = provider

/-- The cache has the conversation, or the index has it for one provider. -/
def Records.Has (records : Records) (cwd id : String) : Prop :=
  (∃ e ∈ records.cache, e.cwd = cwd ∧ e.acpSessionId = id) ∨
    ∃ d ∈ records.discovered, (d.cwd = cwd ∧ d.acpSessionId = id) ∧
      ∀ other ∈ records.discovered, other.cwd = cwd ∧ other.acpSessionId = id → other.provider = d.provider

/-- What the index answers is the only provider's. -/
theorem find_spec (h : find index cwd id = some d) :
    d ∈ index ∧ (d.cwd = cwd ∧ d.acpSessionId = id) ∧
      ∀ other ∈ index, other.cwd = cwd ∧ other.acpSessionId = id → other.provider = d.provider := by
  unfold find at h
  split at h
  · cases h
  · next first rest hf =>
    have hmem : ∀ e, e ∈ index ∧ (e.cwd = cwd ∧ e.acpSessionId = id) ↔ e ∈ first :: rest := by
      intro e
      rw [← hf, List.mem_filter, decide_eq_true_iff]
    split at h
    · cases h
    · next hany =>
      obtain rfl := Option.some.inj h
      obtain ⟨hd, hat⟩ := (hmem first).mpr (List.mem_cons_self ..)
      refine ⟨hd, hat, fun other ho hoat => ?_⟩
      rcases List.mem_cons.mp ((hmem other).mp ⟨ho, hoat⟩) with rfl | hrest
      · rfl
      · by_contra hne
        exact hany (List.any_eq_true.mpr ⟨other, hrest, decide_eq_true hne⟩)

/-- Where the index has an entry and it is not found, another provider has the same id. -/
theorem find_eq_none (h : find index cwd id = none) (hd : d ∈ index)
    (hat : d.cwd = cwd ∧ d.acpSessionId = id) :
    ∃ other ∈ index, (other.cwd = cwd ∧ other.acpSessionId = id) ∧ other.provider ≠ d.provider := by
  have hmem : ∀ e, e ∈ index ∧ (e.cwd = cwd ∧ e.acpSessionId = id) ↔
      e ∈ index.filter fun e => e.cwd = cwd ∧ e.acpSessionId = id := by
    intro e
    rw [List.mem_filter, decide_eq_true_iff]
  unfold find at h
  split at h
  · next hf => exact absurd ((hmem d).mp ⟨hd, hat⟩) (by rw [hf]; exact List.not_mem_nil)
  · next first rest hf =>
    rw [hf] at hmem
    split at h
    · next hany =>
      obtain ⟨other, ho, hne⟩ := List.any_eq_true.mp hany
      obtain ⟨hfirst, hfat⟩ := (hmem first).mpr (List.mem_cons_self ..)
      obtain ⟨hother, hoat⟩ := (hmem other).mpr (List.mem_cons_of_mem _ ho)
      by_cases he : first.provider = d.provider
      · exact ⟨other, hother, hoat, fun h => of_decide_eq_true hne (h.trans he.symm)⟩
      · exact ⟨first, hfirst, hfat, he⟩
    · cases h

/-- The entry is of the provider that owns the conversation. -/
theorem resumable_owned (h : resumableConversation records cwd id = some entry)
    (provider : AgentProvider) :
    entry.provider = provider ↔ records.Owned provider cwd id := by
  unfold resumableConversation selectSessionById at h
  rw [← List.head?_filter] at h
  cases hc : (records.cache.filter fun e => e.cwd = cwd ∧ e.acpSessionId = id).head? with
  | some e =>
    rw [hc, Option.some_or] at h
    obtain rfl := Option.some.inj h
    have he := List.mem_filter.mp (List.mem_of_mem_head? hc)
    constructor
    · intro hp
      refine ⟨fun e' he' => ?_, fun hno => absurd (of_decide_eq_true he.2) (hno e he.1)⟩
      rw [hc] at he'
      exact Option.some.inj he' ▸ hp
    · exact fun ho => ho.cached e hc
  | none =>
    rw [hc, Option.none_or] at h
    obtain ⟨d, hd, rfl⟩ := Option.map_eq_some_iff.mp h
    obtain ⟨hmem, hat, honly⟩ := find_spec hd
    have hno : ∀ e ∈ records.cache, ¬ (e.cwd = cwd ∧ e.acpSessionId = id) := fun e he hat =>
      List.filter_eq_nil_iff.mp (List.head?_eq_none_iff.mp hc) e he (decide_eq_true hat)
    constructor
    · intro hp
      refine ⟨fun e he => ?_, fun _ other ho hoat => (honly other ho hoat).trans hp⟩
      rw [hc] at he
      cases he
    · exact fun ho => ho.discovered hno d hmem hat

/-- There is an entry if any record has the conversation. -/
theorem resumable_has : (resumableConversation records cwd id).isSome ↔ records.Has cwd id := by
  unfold resumableConversation selectSessionById
  cases hc : records.cache.find? fun e => e.cwd = cwd ∧ e.acpSessionId = id with
  | some e =>
    have hat : e.cwd = cwd ∧ e.acpSessionId = id := by simpa using List.find?_some hc
    exact ⟨fun _ => .inl ⟨e, List.mem_of_find?_eq_some hc, hat⟩, fun _ => rfl⟩
  | none =>
    have hno : ¬ ∃ e ∈ records.cache, e.cwd = cwd ∧ e.acpSessionId = id := fun ⟨e, he, hat⟩ =>
      List.find?_eq_none.mp hc e he (decide_eq_true hat)
    rw [Option.none_or, Option.isSome_map]
    constructor
    · intro h
      obtain ⟨d, hd⟩ := Option.isSome_iff_exists.mp h
      exact .inr ⟨d, find_spec hd⟩
    · rintro (hcached | ⟨d, hd, hat, honly⟩)
      · exact absurd hcached hno
      · rw [Option.isSome_iff_ne_none]
        intro hnone
        obtain ⟨other, ho, hoat, hne⟩ := find_eq_none hnone hd hat
        exact hne (honly other ho hoat)

/-! ## Listings -/

variable {w : World} {k j now : Nat} {phase : Phase} {l : Listing} {r : Resume}

/-- A report is of one provider and one directory. -/
structure Of (provider : AgentProvider) (cwd : String) (ds : List DiscoveredAcpSession) : Prop where
  own : ∀ d ∈ ds, d.provider = provider ∧ d.cwd = cwd
  length_le : ds.length ≤ maxListedAgentSessions

/-- What a listing has is of its provider. -/
def Phase.Of (provider : AgentProvider) (cwd : String) : Phase → Prop
  | .cached | .waiting | .probing => True
  | .learned ds => AgentResume.Of provider cwd ds
  | .sent rows => ∀ row ∈ rows, row.provider = provider

/-- What a listing of a provider has is the provider's. -/
def Listing.Ok (l : Listing) : Prop :=
  ∀ provider, l.provider = some provider → l.phase.Of provider l.cwd

/-- Each report is of its provider and directory. -/
def MemosOk (memos : ProbeMemos) : Prop := ∀ memo ∈ memos, Of memo.provider memo.cwd memo.sessions

theorem probe_of (listed : List SessionInfo) :
    Of provider cwd (probeAgentSessions canonicalize provider cwd listed) := by
  refine ⟨fun d hd => ?_, List.length_take_le _ _⟩
  obtain ⟨info, -, rfl⟩ := List.mem_map.mp (List.mem_of_mem_take hd)
  exact ⟨rfl, rfl⟩

theorem get_of {memos : ProbeMemos} (h : MemosOk memos) {ds : List DiscoveredAcpSession}
    (hg : memos.get provider cwd now = some ds) : Of provider cwd ds := by
  obtain ⟨memo, hm, rfl⟩ := Option.map_eq_some_iff.mp hg
  have hfit : memo.provider = provider ∧ memo.cwd = cwd ∧
      now - memo.takenAt < acpSessionListTtl := by
    simpa using List.find?_some hm
  obtain ⟨rfl, rfl, -⟩ := hfit
  exact h memo (List.mem_of_find?_eq_some hm)

theorem MemosOk.store {memos : ProbeMemos} (h : MemosOk memos) {memo : ProbeMemo}
    (hm : Of memo.provider memo.cwd memo.sessions) :
    MemosOk (memos.store memo) := by
  intro m hmem
  rcases List.mem_append.mp (List.mem_of_mem_drop hmem) with hold | hnew
  · exact h m (List.mem_filter.mp hold).1
  · exact List.mem_singleton.mp hnew ▸ hm

theorem merge_row {rows : List AgentSessionSummary} (h : ∀ row ∈ rows, row.provider = provider)
    (hd : d.provider = provider) : ∀ row ∈ mergeRow rows d, row.provider = provider := by
  unfold mergeRow
  split
  · intro row hrow
    obtain ⟨i, hi⟩ := List.mem_iff_getElem?.mp hrow
    rcases Table.modify_cases hi with ⟨-, old, hold, rfl⟩ | ⟨-, hold⟩
    · exact h old (List.mem_of_getElem? hold)
    · exact h row (List.mem_of_getElem? hold)
  · intro row hrow
    rcases List.mem_append.mp hrow with hold | hnew
    · exact h row hold
    · exact List.mem_singleton.mp hnew ▸ hd

/-- The rows of a provider's listing are the provider's. -/
theorem row_provider (cached : List CachedAcpSession) {ds : List DiscoveredAcpSession}
    (hds : Of provider cwd ds) :
    ∀ row ∈ mergeAgentSessions provider cached ds, row.provider = provider := by
  have hcached : ∀ row ∈ (cached.filter (·.provider = provider)).map (·.row),
      row.provider = provider := by
    intro row hrow
    obtain ⟨e, he, rfl⟩ := List.mem_map.mp hrow
    exact of_decide_eq_true (List.mem_filter.mp he).2
  have hmerged : ∀ (ds : List DiscoveredAcpSession) (rows : List AgentSessionSummary),
      (∀ d ∈ ds, d.provider = provider) →
      (∀ row ∈ rows, row.provider = provider) → ∀ row ∈ ds.foldl mergeRow rows, row.provider = provider := by
    intro ds
    induction ds with
    | nil => exact fun _ _ h => h
    | cons d ds ih =>
      intro rows hof h
      exact ih _ (fun d' hd' => hof d' (List.mem_cons_of_mem _ hd')) (merge_row h (hof d (List.mem_cons_self ..)))
  intro row hrow
  exact hmerged ds _ (fun d hd => (hds.own d hd).1) hcached row ((List.mem_insertionSort _).mp (List.mem_of_mem_take hrow))

theorem mergeRow_id {rows : List AgentSessionSummary} {row : AgentSessionSummary}
    (h : row ∈ mergeRow rows d) :
    row.acpSessionId = d.acpSessionId ∨ ∃ old ∈ rows, row.acpSessionId = old.acpSessionId := by
  unfold mergeRow at h
  split at h
  · obtain ⟨i, hi⟩ := List.mem_iff_getElem?.mp h
    rcases Table.modify_cases hi with ⟨-, old, hold, rfl⟩ | ⟨-, hold⟩
    · exact .inr ⟨old, List.mem_of_getElem? hold, rfl⟩
    · exact .inr ⟨row, List.mem_of_getElem? hold, rfl⟩
  · rcases List.mem_append.mp h with hold | hnew
    · exact .inr ⟨row, hold, rfl⟩
    · exact .inl (List.mem_singleton.mp hnew ▸ rfl)

/-- A row is of an entry of the cache, or of the report. -/
theorem row_id (cached : List CachedAcpSession) {ds : List DiscoveredAcpSession}
    {row : AgentSessionSummary}
    (h : row ∈ mergeAgentSessions provider cached ds) :
    (∃ e ∈ cached, e.provider = provider ∧ e.acpSessionId = row.acpSessionId) ∨ ∃ d ∈ ds,
      d.acpSessionId = row.acpSessionId := by
  have hmerged : ∀ (ds : List DiscoveredAcpSession) (rows : List AgentSessionSummary),
      ∀ row ∈ ds.foldl mergeRow rows,
      (∃ old ∈ rows, row.acpSessionId = old.acpSessionId) ∨ ∃ d ∈ ds, d.acpSessionId = row.acpSessionId := by
    intro ds
    induction ds with
    | nil => exact fun rows row hrow => .inl ⟨row, hrow, rfl⟩
    | cons d ds ih =>
      intro rows row hrow
      rcases ih _ row hrow with ⟨mid, hmid, he⟩ | ⟨d', hd', he⟩
      · rcases mergeRow_id hmid with hd | ⟨old, hold, hid⟩
        · exact .inr ⟨d, List.mem_cons_self .., (he.trans hd).symm⟩
        · exact .inl ⟨old, hold, he.trans hid⟩
      · exact .inr ⟨d', List.mem_cons_of_mem _ hd', he⟩
  refine (hmerged ds _ row ((List.mem_insertionSort _).mp (List.mem_of_mem_take h))).imp_left fun ⟨old, hold, he⟩ => ?_
  obtain ⟨e, hmem, rfl⟩ := List.mem_map.mp hold
  obtain ⟨hcached, hp⟩ := List.mem_filter.mp hmem
  exact ⟨e, hcached, of_decide_eq_true hp, he.symm⟩

/-- The entries of the index for a conversation of a provider. -/
def SameKey (d d' : DiscoveredAcpSession) : Prop :=
  d.provider = d'.provider ∧ d.cwd = d'.cwd ∧ d.acpSessionId = d'.acpSessionId

/-- The index drops its oldest entries, and has all of a report that fits into it. -/
theorem remember_has (index : List DiscoveredAcpSession) {ds : List DiscoveredAcpSession}
    (hlen : ds.length ≤ maxDiscoveredAcpSessions) (hd : d ∈ ds) :
    ∃ d' ∈ remember index ds, SameKey d' d := by
  have htail : ∀ ds : List DiscoveredAcpSession, ∃ kept tail,
      ds.foldl rememberOne index = kept ++ tail ∧
      tail.length ≤ ds.length ∧ ∀ d ∈ ds, ∃ d' ∈ tail, SameKey d' d := by
    intro ds
    induction ds using List.reverseRecOn with
    | nil => exact ⟨index, [], (List.append_nil _).symm, Nat.le_refl _, List.forall_mem_nil _⟩
    | append_singleton ds s ih =>
      obtain ⟨kept, tail, he, hle, hkeys⟩ := ih
      rw [List.foldl_append, List.foldl_cons, List.foldl_nil, he, rememberOne, List.filter_append,
        List.append_assoc]
      refine ⟨_, _, rfl, ?_, fun d hd => ?_⟩
      · rw [List.length_append, List.length_append]
        exact Nat.add_le_add_right (Nat.le_trans (List.length_filter_le _ _) hle) _
      · rcases List.mem_append.mp hd with hold | hnew
        · obtain ⟨d', hd', hsame⟩ := hkeys d hold
          by_cases hs : SameKey d' s
          · exact ⟨s, List.mem_append_right _ (List.mem_singleton.mpr rfl), hs.1.symm.trans hsame.1,
              hs.2.1.symm.trans hsame.2.1, hs.2.2.symm.trans hsame.2.2⟩
          · exact ⟨d', List.mem_append_left _ (List.mem_filter.mpr ⟨hd', decide_eq_true hs⟩), hsame⟩
        · exact ⟨s, List.mem_append_right _ (List.mem_singleton.mpr rfl), List.mem_singleton.mp hnew ▸ ⟨rfl, rfl, rfl⟩⟩
  obtain ⟨kept, tail, he, hle, hkeys⟩ := htail ds
  obtain ⟨d', hd', hsame⟩ := hkeys d hd
  refine ⟨d', ?_, hsame⟩
  rw [remember, he, List.length_append, List.drop_append_of_le_length (by omega)]
  exact List.mem_append_right _ hd'

/-! ## Resumes -/

/-- What a resume that has started a session has taken from the records. -/
def Resume.Ok (r : Resume) : Prop := ∀ provider title cwd conversation,
  r.outcome = some (.started provider title cwd conversation) → cwd = r.cwd ∧
    (∃ entry, resumableConversation r.lookup r.cwd r.row.acpSessionId = some entry ∧ entry.provider = provider) ∧
    conversation = ((resumableConversation r.launch r.cwd r.row.acpSessionId).map fun _ => r.row.acpSessionId).filter
      fun id => !r.live.alreadyLive (some provider) id

/-- The resume is of a row that a listing has sent. -/
def Resume.Listed (listings : List Listing) (r : Resume) : Prop :=
  ∃ l ∈ listings, l.cwd = r.cwd ∧ r.row ∈ l.rows

/-- What holds of the reports, the listings and the resumes. -/
structure Inv (w : World) : Prop where
  memos : MemosOk w.probes
  listings : ∀ l ∈ w.listings, l.Ok
  resumes : ∀ r ∈ w.resumes, r.Ok
  listed : ∀ r ∈ w.resumes, r.Listed w.listings

theorem Resume.Listed.setPhase (hl : w.listings[k]? = some l) (hrows : l.rows = [])
    (h : r.Listed w.listings) :
    r.Listed (w.setPhase k phase).listings := by
  obtain ⟨x, hx, hcwd, hrow⟩ := h
  obtain ⟨i, hi⟩ := List.mem_iff_getElem?.mp hx
  have hne : i ≠ k := by
    rintro rfl
    obtain rfl := Option.some.inj (hl.symm.trans hi)
    rw [hrows] at hrow
    cases hrow
  exact ⟨x, List.mem_of_getElem? ((Table.modify_of_ne hne _).trans hi), hcwd, hrow⟩

theorem Inv.setPhase (h : Inv w) (hl : w.listings[k]? = some l) (hrows : l.rows = [])
    (hp : ∀ provider, l.provider = some provider → phase.Of provider l.cwd) :
    Inv (w.setPhase k phase) where
  memos := h.memos
  listings x hx := by
    obtain ⟨i, hi⟩ := List.mem_iff_getElem?.mp hx
    rcases Table.modify_cases hi with ⟨rfl, y, hy, rfl⟩ | ⟨-, hold⟩
    · obtain rfl := Option.some.inj (hl.symm.trans hy)
      exact hp
    · exact h.listings x (List.mem_of_getElem? hold)
  resumes := h.resumes
  listed r hr := (h.listed r hr).setPhase hl hrows

/-- A list is made of the records. -/
theorem Inv.list (h : Inv w) (provider : Option AgentProvider) (cwd : String) :
    Inv (w.list provider cwd) where
  memos := h.memos
  listings x hx := by
    rcases List.mem_append.mp hx with hold | hnew
    · exact h.listings x hold
    · obtain rfl := List.mem_singleton.mp hnew
      intro p hp
      obtain rfl : provider = some p := hp
      exact trivial
  resumes := h.resumes
  listed r hr := by
    obtain ⟨l, hl, hof⟩ := h.listed r hr
    exact ⟨l, List.mem_append_left _ hl, hof⟩

theorem Inv.consult (h : Inv w) {cached : List CachedAcpSession} {missed : Phase}
    (hl : w.listings[k]? = some ⟨some provider, cwd, cached, phase⟩)
    (hrows : Listing.rows ⟨some provider, cwd, cached, phase⟩ = [])
    (hmissed : ∀ p, missed.Of p cwd) : Inv (w.consult k now provider cwd missed) := by
  refine h.setPhase hl hrows fun p hp => ?_
  obtain rfl := Option.some.inj hp
  cases hg : ProbeMemos.get w.probes provider cwd now with
  | none => exact hmissed provider
  | some ds => exact get_of h.memos hg

/-- One resume takes its outcome. -/
theorem Inv.outcome (h : Inv w) {f : Resume → Resume} (hr : w.resumes[j]? = some r)
    (hrow : (f r).row = r.row)
    (hcwd : (f r).cwd = r.cwd) (hok : (f r).Ok) (sessions : Manager) :
    Inv { w with sessions, resumes := w.resumes.modify j f } where
  memos := h.memos
  listings := h.listings
  resumes x hx := by
    obtain ⟨i, hi⟩ := List.mem_iff_getElem?.mp hx
    rcases Table.modify_cases hi with ⟨rfl, y, hy, rfl⟩ | ⟨-, hold⟩
    · exact Option.some.inj (hr.symm.trans hy) ▸ hok
    · exact h.resumes x (List.mem_of_getElem? hold)
  listed x hx := by
    obtain ⟨i, hi⟩ := List.mem_iff_getElem?.mp hx
    rcases Table.modify_cases hi with ⟨rfl, y, hy, rfl⟩ | ⟨-, hold⟩
    · obtain rfl := Option.some.inj (hr.symm.trans hy)
      obtain ⟨l, hl, hlcwd, hlrow⟩ := h.listed r (List.mem_of_getElem? hr)
      exact ⟨l, hl, hlcwd.trans hcwd.symm, hrow ▸ hlrow⟩
    · exact h.listed x (List.mem_of_getElem? hold)

/-- The conversation that the new session has. -/
theorem spawn_conversation (sessions : Manager) (provider : AgentProvider) (id : String)
    (found : Option String) :
    (sessions.spawnAgentWith (some provider) (.session id) found).getLast?.bind (·.acpSessionId) =
      (found.map fun _ => id).filter fun id => !sessions.alreadyLive (some provider) id := by
  rw [Manager.spawnAgentWith, List.getLast?_concat]
  rfl

theorem Inv.launch (h : Inv w) (possible : Bool) (hr : w.resumes[j]? = some r) :
    Inv (w.launch j possible r) := by
  unfold World.launch
  split
  · next entry hnone hentry =>
    split
    · refine h.outcome hr rfl rfl ?_ _
      rintro _ _ _ _ ⟨⟩
      refine ⟨rfl, ⟨entry, hentry, rfl⟩, ?_⟩
      rw [spawn_conversation, Option.map_map]
      rfl
    · exact h.outcome hr rfl rfl (by rintro _ _ _ _ ⟨⟩) w.sessions
  · exact h

theorem Inv.step (h : Inv w) (ev : Event) : Inv (w.step canonicalize ev) := by
  cases ev with
  | wrote | session => exact ⟨h.memos, h.listings, h.resumes, h.listed⟩
  | list provider cwd => exact h.list provider cwd
  | memo k now =>
    dsimp only [World.step]
    split
    · next hl => exact h.consult hl rfl fun _ => trivial
    · exact h
  | slot k now =>
    dsimp only [World.step]
    split
    · next hl => exact h.consult hl rfl fun _ => trivial
    · exact h
  | busy k =>
    dsimp only [World.step]
    split
    · next provider cwd cached hl =>
      refine h.setPhase hl rfl fun p hp => ?_
      obtain rfl := Option.some.inj hp
      have hof : Of provider cwd [] := ⟨List.forall_mem_nil _, Nat.zero_le _⟩
      exact row_provider cached hof
    · exact h
  | probed k now listed =>
    dsimp only [World.step]
    split
    · next provider cwd cached hl =>
      have hof : Of provider cwd (probeAgentSessions canonicalize provider cwd listed) :=
        probe_of listed
      have hset : Inv (w.setPhase k (.learned (probeAgentSessions canonicalize provider cwd listed))) := by
        refine h.setPhase hl rfl fun p hp => ?_
        obtain rfl := Option.some.inj hp
        exact hof
      exact ⟨h.memos.store hof, hset.listings, hset.resumes, hset.listed⟩
    · exact h
  | send k =>
    dsimp only [World.step]
    split
    · next provider cwd cached ds hl =>
      have hof : Of provider cwd ds := h.listings _ (List.mem_of_getElem? hl) provider rfl
      have hset : Inv (w.setPhase k (.sent (mergeAgentSessions provider cached ds))) := by
        refine h.setPhase hl rfl fun p hp => ?_
        obtain rfl := Option.some.inj hp
        exact row_provider cached hof
      exact ⟨hset.memos, hset.listings, hset.resumes, hset.listed⟩
    · exact h
  | resume k n =>
    dsimp only [World.step]
    split
    · next l hl =>
      cases hrow : l.rows[n]? with
      | none => exact h
      | some row =>
        refine ⟨h.memos, h.listings, fun r hr => ?_, fun r hr => ?_⟩
        · rcases List.mem_append.mp hr with hold | hnew
          · exact h.resumes r hold
          · obtain rfl := List.mem_singleton.mp hnew
            intro _ _ _ _ ho
            dsimp only at ho
            split at ho <;> cases ho
        · rcases List.mem_append.mp hr with hold | hnew
          · exact h.listed r hold
          · obtain rfl := List.mem_singleton.mp hnew
            exact ⟨l, List.mem_of_getElem? hl, rfl, List.mem_of_getElem? hrow⟩
    · exact h
  | launch j possible =>
    show Inv (w.resumes[j]?.elim w _)
    cases hr : w.resumes[j]? with
    | none => exact h
    | some r => exact h.launch possible hr

theorem inv_run (cache : List CachedAcpSession) (events : List Event) :
    Inv (Run.run (World.step canonicalize) (World.boot cache) events) := by
  have hboot : Inv (World.boot cache) :=
    ⟨List.forall_mem_nil _, List.forall_mem_nil _, List.forall_mem_nil _, List.forall_mem_nil _⟩
  exact Run.run_induction (I := fun _ => Inv) hboot fun _ ev _ _ h => h.step ev

theorem sent_discovered {cached : List CachedAcpSession} {ds : List DiscoveredAcpSession}
    (hl : w.listings[k]? = some ⟨some provider, cwd, cached, .learned ds⟩) :
    (w.step canonicalize (.send k)).records.discovered = remember w.records.discovered ds := by
  simp only [World.step, hl, World.send]

/-- When the rows of a report are sent, the host has a record of each. -/
theorem listed_recorded (cache : List CachedAcpSession) (events : List Event)
    {cached : List CachedAcpSession}
    {ds : List DiscoveredAcpSession} :
    let w := Run.run (World.step canonicalize) (World.boot cache) events
    w.listings[k]? = some ⟨some provider, cwd, cached, .learned ds⟩ → ∀ row ∈ mergeAgentSessions provider cached ds,
      (∃ e ∈ cached, e.provider = provider ∧ e.acpSessionId = row.acpSessionId) ∨
        ∃ d ∈ (w.step canonicalize (.send k)).records.discovered,
          d.provider = provider ∧ d.cwd = cwd ∧ d.acpSessionId = row.acpSessionId := by
  intro w hl row hrow
  have hof : Of provider cwd ds :=
    (inv_run cache events).listings _ (List.mem_of_getElem? hl) provider rfl
  refine (row_id cached hrow).imp_right fun ⟨d, hd, he⟩ => ?_
  have hlen : ds.length ≤ maxDiscoveredAcpSessions := Nat.le_trans hof.length_le (by decide)
  obtain ⟨d', hd', hp, hcwd, hid⟩ := remember_has w.records.discovered hlen hd
  obtain ⟨hdp, hdcwd⟩ := hof.own d hd
  refine ⟨d', ?_, hp.trans hdp, hcwd.trans hdcwd, hid.trans he⟩
  rw [sent_discovered hl]
  exact hd'

theorem listed_recorded_probed :
    let w := Run.run (World.step some) (World.boot []) [.list (some .openCode) "/w", .memo 0 0,
      .slot 0 0, .probed 0 0 [⟨"s", "/w", some "a", none⟩]]
    ∀ row ∈ mergeAgentSessions .openCode [] [⟨.openCode, "/w", "s", "a", none⟩],
      (∃ e ∈ ([] : List CachedAcpSession), e.provider = .openCode ∧ e.acpSessionId = row.acpSessionId) ∨
        ∃ d ∈ (w.step some (.send 0)).records.discovered,
          d.provider = .openCode ∧ d.cwd = "/w" ∧ d.acpSessionId = row.acpSessionId :=
  listed_recorded [] _ (by decide +kernel)

/-! ## Which sessions are the listed conversations -/

/-- No live session of the provider has the conversation. -/
def Free (sessions : Manager) (provider : AgentProvider) (id : String) : Prop :=
  ∀ s ∈ sessions, s.registered = true → s.provider = some provider → s.acpSessionId ≠ some id

theorem alreadyLive_iff {sessions : Manager} :
    sessions.alreadyLive (some provider) id = false ↔ Free sessions provider id := by
  rw [Manager.alreadyLive, List.any_eq_false]
  refine forall₂_congr fun s _ => ?_
  simp only [Bool.and_eq_true, beq_iff_eq]
  tauto

/-- A session that a resume has started is of the provider that listed the row, with the row's
conversation. -/
theorem resume_of_listed (cache : List CachedAcpSession) (events : List Event) :
    let w := Run.run (World.step canonicalize) (World.boot cache) events
    ∀ r ∈ w.resumes,
      (∃ l ∈ w.listings, l.cwd = r.cwd ∧ r.row ∈ l.rows ∧ ∀ provider, l.provider = some provider → r.row.provider = provider) ∧
      ∀ provider title cwd conversation, r.outcome = some (.started provider title cwd conversation) →
        ((provider = r.row.provider ∧ cwd = r.cwd ∧ conversation = some r.row.acpSessionId) ↔
          r.lookup.Owned r.row.provider r.cwd r.row.acpSessionId ∧ r.launch.Has r.cwd r.row.acpSessionId ∧
            Free r.live r.row.provider r.row.acpSessionId) := by
  intro w r hr
  have hinv : Inv w := inv_run cache events
  constructor
  · obtain ⟨l, hl, hcwd, hrow⟩ := hinv.listed r hr
    refine ⟨l, hl, hcwd, hrow, fun provider hp => ?_⟩
    have hok := hinv.listings l hl provider hp
    unfold Listing.rows at hrow
    split at hrow
    · next rows hsent =>
      rw [hsent] at hok
      exact hok _ hrow
    · cases hrow
  · intro provider title cwd conversation ho
    obtain ⟨rfl, ⟨entry, hentry, rfl⟩, rfl⟩ := hinv.resumes r hr _ _ _ _ ho
    have hconversation : ((resumableConversation r.launch r.cwd r.row.acpSessionId).map fun _ => r.row.acpSessionId).filter
        (fun id => !r.live.alreadyLive (some entry.provider) id) = some r.row.acpSessionId ↔
          r.launch.Has r.cwd r.row.acpSessionId ∧ Free r.live entry.provider r.row.acpSessionId := by
      rw [← resumable_has, ← alreadyLive_iff]
      cases resumableConversation r.launch r.cwd r.row.acpSessionId <;> simp
    rw [resumable_owned hentry, hconversation]
    constructor
    · rintro ⟨hp, -, hhas, hfree⟩
      exact ⟨hp, hhas, (resumable_owned hentry _).mpr hp ▸ hfree⟩
    · rintro ⟨hp, hhas, hfree⟩
      exact ⟨hp, rfl, hhas, (resumable_owned hentry _).mpr hp ▸ hfree⟩

/-- The newest conversation with the id is the provider's. -/
theorem resume_of_listed_newest :
    let claude : CachedAcpSession := ⟨⟨.claudeCode, "/w", "s", none, 1⟩, "a"⟩
    let openCode : CachedAcpSession := ⟨⟨.openCode, "/w", "s", none, 2⟩, "b"⟩
    let w := Run.run (World.step some) (World.boot [openCode, claude])
      [.list (some .openCode) "/w", .memo 0 0, .busy 0, .resume 0 0, .launch 0 true]
    ∃ r ∈ w.resumes, r.outcome = some (.started .openCode "b" "/w" (some "s")) ∧
      r.lookup.Owned .openCode "/w" "s" ∧ r.launch.Has "/w" "s" ∧ Free r.live .openCode "s" := by
  intro claude openCode w
  have hr : w.resumes[0]? = some ⟨⟨"s", .openCode, "b", none, 2⟩, "/w", ⟨[openCode, claude], []⟩, ⟨[openCode, claude], []⟩, [],
      some (.started .openCode "b" "/w" (some "s"))⟩ := rfl
  have hmem := List.mem_of_getElem? hr
  exact ⟨_, hmem, rfl, ((@resume_of_listed some [openCode, claude] _ _ hmem).2 _ _ _ _ rfl).mp ⟨rfl, rfl, rfl⟩⟩

/-- Two agents have one id in one directory, and the entry of the other one is the first. -/
theorem other_provider_started :
    ¬ ∀ (canonicalize : String → Option String) (cache : List CachedAcpSession)
    (events : List Event),
      ∀ r ∈ (Run.run (World.step canonicalize) (World.boot cache) events).resumes,
        ∀ provider title cwd conversation,
        r.outcome = some (.started provider title cwd conversation) →
          provider = r.row.provider ∧ cwd = r.cwd ∧ conversation = some r.row.acpSessionId := by
  intro h
  let cache : List CachedAcpSession :=
    [⟨⟨.claudeCode, "/w", "s", none, 2⟩, "a"⟩, ⟨⟨.openCode, "/w", "s", none, 1⟩, "b"⟩]
  let w := Run.run (World.step some) (World.boot cache)
    [.list (some .openCode) "/w", .memo 0 0, .busy 0, .resume 0 0, .launch 0 true]
  have hr : w.resumes[0]? = some ⟨⟨"s", .openCode, "b", none, 1⟩, "/w", ⟨cache, []⟩, ⟨cache, []⟩, [],
      some (.started .claudeCode "a" "/w" (some "s"))⟩ := rfl
  have hother := (h some cache _ _ (List.mem_of_getElem? hr) _ _ _ _ rfl).1
  exact absurd hother (by decide)

end Portty.Host.AgentResume
