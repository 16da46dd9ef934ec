import Mathlib.Data.List.Sort
import Portty.Lib.FixedWindow
import Portty.Lib.Table

/-!
# The push relay (`push-relay/src/main.rs`)

The relay keeps a table of registrations, by pseudonym of the host and registration id, and rings
the devices of a pseudonym. A request is a task that goes on from one lock to the next; tasks
overlap at their locks and while they wait for the provider. `Instant::now()` reads `clock`, which
`tick` moves on.

The fields `calls` and `wakes` record what the limiter of the tokens was asked and which sends have
started.
-/

namespace Portty.PushRelay

/-! ## Constants, in nanoseconds -/

/-- Times are in nanoseconds. -/
def second : Nat := 1000000000

/-- The longest sealed blob of a registration, in hexadecimal digits. -/
def maxBlobBytes : Nat := 4096

/-- The debounce of a host: a wake sooner after the last one is answered without a push. -/
def minWakeInterval : Nat := 3 * second

/-- The label that is hashed before the secret, so that a pseudonym is not the plain hash of it. -/
def hostHandleContext : List UInt8 :=
  "portty-push-host-handle-v2".toList.map fun c => UInt8.ofNat c.toNat

/-- Rows of the table, over all hosts. -/
def maxDevices : Nat := 10000

/-- The most registrations of a pseudonym. -/
def maxDevicesPerHost : Nat := 32

/-- A row that was not refreshed for that long is dead. -/
def registrationTtl : Nat := 30 * 24 * 60 * 60 * second

/-- This part of the table is dropped when it is full. -/
def reclaimFraction : Nat := 10

/-- How long a wake to the provider can take. -/
def providerTimeout : Nat := 10 * second

/-- Calls of the providers at one time, over all hosts. -/
def providerConcurrency : Nat := 32

/-- The window of the limit for each IP address. -/
def rateLimitWindow : Nat := 60 * second

/-- The most requests of an address in a window. -/
def rateLimitMax : Nat := 60

/-- Hosts with which one device token can be registered. -/
def maxPseudonymsPerToken : Nat := 8

/-- The window in which the pushes to a token are counted. -/
def wakeBudgetWindow : Nat := 300 * second

/-- Pushes to one token in a window. -/
def wakeBudgetMax : Nat := 60

/-! ## Requests -/

/-- Who delivers a push to the phone. -/
inductive Provider where
  | apns
  | fcm
  deriving DecidableEq, Repr

/-- A row of the table, with its key. -/
structure Device where
  hostPseudonym : String
  registrationId : String
  provider : Provider
  deviceToken : String
  sealedWakeBlob : String
  refreshed : Nat
  deriving DecidableEq, Repr

/-- The table has one row for a registration of a host. -/
def Device.key (d : Device) : String × String := (d.hostPseudonym, d.registrationId)

/-- The body of a registration. -/
structure RegisterRequest where
  hostPseudonym : String
  registrationId : String
  provider : Provider
  deviceToken : String
  sealedWakeBlob : String
  deriving DecidableEq, Repr

/-- The headers that the relay reads. -/
structure Headers where
  authorization : Option String := none
  /-- `x-portty-host-authorization` -/
  hostAuthorization : Option String := none
  deriving DecidableEq, Repr

/-- Who may register: with the token of the administrator and the secret of the host, or with the
secret alone. -/
inductive RegistrationAuth where
  | admin (token : String)
  | open
  deriving DecidableEq, Repr

/-- The answers of the relay. -/
inductive StatusCode where
  | noContent
  | badRequest
  | unauthorized
  | forbidden
  | notFound
  | tooManyRequests
  | badGateway
  | serviceUnavailable
  deriving DecidableEq, Repr

/-- A digit in either case. -/
def hexDigit (c : Char) : Option Nat :=
  if 48 ≤ c.toNat ∧ c.toNat ≤ 57 then some (c.toNat - 48)
  else if 97 ≤ c.toNat ∧ c.toNat ≤ 102 then some (c.toNat - 87)
  else if 65 ≤ c.toNat ∧ c.toNat ≤ 70 then some (c.toNat - 55)
  else none

/-- `hex::decode` -/
def hexDecode : List Char → Option (List UInt8)
  | [] => some []
  | [_] => none
  | a :: b :: rest => do
    let high ← hexDigit a
    let low ← hexDigit b
    let bytes ← hexDecode rest
    pure (UInt8.ofNat (16 * high + low) :: bytes)

/-- `hex::encode` -/
def hexEncode (bytes : List UInt8) : String :=
  String.ofList (bytes.flatMap fun b => [Nat.digitChar (b.toNat / 16), Nat.digitChar (b.toNat % 16)])

/-- 64 hexadecimal digits. -/
def validId (value : String) : Bool :=
  value.utf8ByteSize = 64 && value.toList.all fun c => (hexDigit c).isSome

/-- Registrations are named like hosts. -/
def validRegistrationId (value : String) : Bool := validId value

/-- Not too long, and hexadecimal. -/
def validBlob (value : String) : Bool :=
  value.utf8ByteSize ≤ maxBlobBytes && value.toList.all fun c => (hexDigit c).isSome

/-- The token after `Bearer `, which is compared exactly. -/
def bearer (headers : Headers) : Option String := do
  let value ← headers.authorization
  if "Bearer ".toList.isPrefixOf value.toList then some (String.ofList (value.toList.drop 7)) else none

/-- The hash and the mode of the relay. -/
structure Config where
  sha256 : List UInt8 → List UInt8
  registration : RegistrationAuth

namespace Config

variable (c : Config)

/-- The presented secret is the one whose hash is the pseudonym. -/
def hostSecretMatches (presented hostPseudonym : String) : Bool :=
  match hexDecode presented.toList with
  | none => false
  | some secret =>
    if secret.length ≠ 32 || !validId hostPseudonym then false
    else hexEncode (c.sha256 (hostHandleContext ++ secret)) = hostPseudonym

/-- The proof in the `Authorization` header. -/
def hostBearerMatches (headers : Headers) (hostPseudonym : String) : Bool :=
  (bearer headers).any (c.hostSecretMatches · hostPseudonym)

/-- The proof in the second header, next to the token of the administrator. -/
def hostRegistrationProofMatches (headers : Headers) (hostPseudonym : String) : Bool :=
  headers.hostAuthorization.any (c.hostSecretMatches · hostPseudonym)

/-- Whether a registration is allowed. -/
def authorized (headers : Headers) (hostPseudonym : String) : Bool :=
  match c.registration, bearer headers with
  | .admin token, some presented => presented = token && c.hostRegistrationProofMatches headers hostPseudonym
  | .open, some _ => c.hostBearerMatches headers hostPseudonym
  | _, none => false

end Config

/-! ## The table of devices -/

/-- A row that was refreshed within the time to live. -/
def live (now : Nat) (d : Device) : Bool := now - d.refreshed < registrationTtl

/-- How many rows a full table loses. -/
def dropCount : Nat := max (maxDevices / reclaimFraction) 1

/-- The keys of the least recently refreshed devices. -/
def oldest (devices : List Device) : List (String × String) :=
  ((devices.insertionSort fun d d' => d.refreshed ≤ d'.refreshed).take dropCount).map (·.key)

/-- Dead rows go first; then, if the table is still full, the oldest ones. -/
def reclaimRegistrations (devices : List Device) (now : Nat) : List Device :=
  let devices := devices.filter (live now)
  if devices.length < maxDevices then devices else devices.filter fun d => d.key ∉ oldest devices

/-- The rows of a host. -/
def hostCount (devices : List Device) (hostPseudonym : String) : Nat :=
  devices.countP (·.hostPseudonym = hostPseudonym)

/-- The other pseudonyms that have the token. -/
def pseudonymsForToken (devices : List Device) (deviceToken hostPseudonym : String) : List String :=
  ((devices.filter fun d => d.deviceToken = deviceToken && d.hostPseudonym ≠ hostPseudonym).map
    (·.hostPseudonym)).dedup

/-- The row of a request. -/
def RegisterRequest.device (r : RegisterRequest) (now : Nat) : Device :=
  ⟨r.hostPseudonym, r.registrationId, r.provider, r.deviceToken, r.sealedWakeBlob, now⟩

/-- `register`, while it has the lock of the table. -/
def registerLocked (devices : List Device) (request : RegisterRequest) (now : Nat) :
    StatusCode × List Device :=
  let isNew := (Rows.find (·.key) (request.hostPseudonym, request.registrationId) devices).isNone
  let devices := if isNew then reclaimRegistrations devices now else devices
  if isNew && (maxDevices ≤ devices.length || maxDevicesPerHost ≤ hostCount devices request.hostPseudonym) then
    (.serviceUnavailable, devices)
  else if maxPseudonymsPerToken ≤
      (pseudonymsForToken devices request.deviceToken request.hostPseudonym).length then
    (.forbidden, devices)
  else (.noContent, Rows.put (·.key) (request.device now) devices)

/-- A wake refreshes the rows of its host. -/
def stamp (hostPseudonym : String) (now : Nat) (d : Device) : Device :=
  if d.hostPseudonym = hostPseudonym then { d with refreshed := now } else d

/-! ## Tasks -/

/-- A request and where it is. -/
inductive Task where
  /-- Before the lock of the table. -/
  | register (headers : Headers) (request : RegisterRequest) (now : Nat)
  | wake (headers : Headers) (hostPseudonym : String) (now : Nat)
  /-- Before the lock of `last_wake`. -/
  | waking (hostPseudonym : String) (devices : List Device)
  /-- Before `now` is read for the loop. -/
  | woken (devices : List Device)
  | looping (now : Nat) (devices : List Device) (delivered : Bool)
  /-- The send has started at `started`. -/
  | sending (started : Nat) (now : Nat) (devices : List Device) (delivered : Bool)
  /-- Before the first lock of the table. -/
  | revoke (headers : Headers) (hostPseudonym registrationId : String)
  /-- Before the second lock of the table. -/
  | revoked (hostPseudonym : String)
  /-- Before the lock of `last_wake`. -/
  | forget (hostPseudonym : String)
  | notify
  | notifying (started : Nat)
  | done (status : StatusCode)
  deriving DecidableEq, Repr

/-- Addresses only need to be told apart. -/
abbrev IpAddr := Nat

/-- The relay, the requests that are under way, and the pushes that were made. -/
structure World where
  clock : Nat := 0
  devices : List Device := []
  lastWake : List (String × Nat) := []
  ipHits : List (FixedWindow.Hit IpAddr) := []
  tokenHits : List (FixedWindow.Hit String) := []
  providerSlots : Nat := providerConcurrency
  tasks : List Task := []
  calls : List (String × Nat × Bool) := []
  wakes : List (String × Nat) := []
  deriving Repr

/-- What happens at the relay: time passes, requests come in, and each task goes on at any
moment. -/
inductive Event where
  | tick (d : Nat)
  /-- A map lists its rows in any order. -/
  | reorder (devices : List Device)
  | register (ip : IpAddr) (headers : Headers) (request : RegisterRequest)
  | wake (ip : IpAddr) (headers : Headers) (hostPseudonym : String)
  | revoke (headers : Headers) (hostPseudonym registrationId : String)
  /-- A task goes on. -/
  | go (i : Nat)
  /-- The provider answers. -/
  | sent (i : Nat) (ok : Bool)
  deriving Repr

namespace World

variable (c : Config) (w : World)

/-- A request becomes a task. -/
def spawn (t : Task) : World := { w with tasks := w.tasks ++ [t] }

/-- A task goes on. -/
def setTask (i : Nat) (t : Task) : World := { w with tasks := w.tasks.modify i fun _ => t }

/-- `register`, before the lock: it is refused, or has the table to change. -/
def registerTask (headers : Headers) (request : RegisterRequest) : Task :=
  if !c.authorized headers request.hostPseudonym then .done .unauthorized
  else if !validId request.hostPseudonym || !validRegistrationId request.registrationId ||
      request.deviceToken.isEmpty || request.deviceToken.utf8ByteSize > 4096 ||
      !validBlob request.sealedWakeBlob then .done .badRequest
  else .register headers request w.clock

/-- `wake`, before the lock. -/
def wakeTask (headers : Headers) (hostPseudonym : String) : Task :=
  if !c.hostBearerMatches headers hostPseudonym then .done .unauthorized
  else .wake headers hostPseudonym w.clock

/-- `revoke`, before the lock. A wrong id is refused like a wrong secret. -/
def revokeTask (headers : Headers) (hostPseudonym registrationId : String) : Task :=
  if !c.hostBearerMatches headers hostPseudonym || !validRegistrationId registrationId then .done .unauthorized
  else .revoke headers hostPseudonym registrationId

/-- The limiter of the addresses comes before everything else. -/
def arrive (ip : IpAddr) (t : Task) : World :=
  let (ok, ipHits) := FixedWindow.allow rateLimitWindow rateLimitMax w.ipHits ip w.clock
  { w with ipHits }.spawn (if ok then t else .done .tooManyRequests)

/-- `wake`, while it has the lock of the table. -/
def lookUp (i : Nat) (hostPseudonym : String) (now : Nat) : World :=
  let devices := w.devices.map (stamp hostPseudonym now)
  let mine := devices.filter (·.hostPseudonym = hostPseudonym)
  { w with devices }.setTask i (if mine = [] then .done .notFound else .waking hostPseudonym mine)

/-- The last wake of the host was within the debounce. -/
def throttled (hostPseudonym : String) : Bool :=
  (Rows.find (·.1) hostPseudonym w.lastWake).any fun last => w.clock - last.2 < minWakeInterval

/-- `wake`, while it has the lock of `last_wake`. -/
def throttle (i : Nat) (hostPseudonym : String) (devices : List Device) : World :=
  if w.throttled hostPseudonym then w.setTask i (.done .tooManyRequests)
  else { w with lastWake := Rows.put (·.1) (hostPseudonym, w.clock) w.lastWake }.setTask i (.woken devices)

/-- One device of the loop of `wake`. -/
def ring (i : Nat) (now : Nat) (device : Device) (rest : List Device) (delivered : Bool) : World :=
  let (ok, tokenHits) :=
    FixedWindow.allow wakeBudgetWindow wakeBudgetMax w.tokenHits device.deviceToken now
  let w := { w with tokenHits, calls := w.calls ++ [(device.deviceToken, now, ok)] }
  if !ok || w.providerSlots = 0 then w.setTask i (.looping now rest delivered)
  else
    { w with
      providerSlots := w.providerSlots - 1
      wakes := (device.deviceToken, w.clock) :: w.wakes }.setTask i (.sending w.clock now rest delivered)

/-- `revoke`, while it has the lock of the table for the first time. -/
def removeDevice (i : Nat) (hostPseudonym registrationId : String) : World :=
  match Rows.find (·.key) (hostPseudonym, registrationId) w.devices with
  | none => w.setTask i (.done .notFound)
  | some _ =>
    { w with devices := Rows.remove (·.key) (hostPseudonym, registrationId) w.devices }.setTask i
      (.revoked hostPseudonym)

/-- The call of the provider at the end of `revoke`. -/
def notifyRevoked (i : Nat) : World :=
  if w.providerSlots = 0 then w.setTask i (.done .serviceUnavailable)
  else { w with providerSlots := w.providerSlots - 1 }.setTask i (.notifying w.clock)

/-- A task takes its next step. -/
def go (i : Nat) : Task → World
  | .register _ request now =>
    let (status, devices) := registerLocked w.devices request now
    { w with devices }.setTask i (.done status)
  | .wake _ hostPseudonym now => w.lookUp i hostPseudonym now
  | .waking hostPseudonym devices => w.throttle i hostPseudonym devices
  | .woken devices => w.setTask i (.looping w.clock devices false)
  | .looping _ [] delivered => w.setTask i (.done (if delivered then .noContent else .badGateway))
  | .looping now (device :: rest) delivered => w.ring i now device rest delivered
  | .revoke _ hostPseudonym registrationId => w.removeDevice i hostPseudonym registrationId
  | .revoked hostPseudonym =>
    w.setTask i (if w.devices.any (·.hostPseudonym = hostPseudonym) then .notify else .forget hostPseudonym)
  | .forget hostPseudonym =>
    { w with lastWake := Rows.remove (·.1) hostPseudonym w.lastWake }.setTask i .notify
  | .notify => w.notifyRevoked i
  | .sending .. | .notifying _ | .done _ => w

/-- The provider has answered, and the slot is free again. -/
def answered (i : Nat) (ok : Bool) : Task → World
  | .sending _ now devices delivered =>
    { w with providerSlots := w.providerSlots + 1 }.setTask i (.looping now devices (delivered || ok))
  | .notifying _ =>
    { w with providerSlots := w.providerSlots + 1 }.setTask i (.done (if ok then .noContent else .badGateway))
  | _ => w

/-- One event. -/
def step : Event → World
  | .tick d => { w with clock := w.clock + d }
  | .reorder devices => if devices.isPerm w.devices then { w with devices } else w
  | .register ip headers request => w.arrive ip (w.registerTask c headers request)
  | .wake ip headers hostPseudonym => w.arrive ip (w.wakeTask c headers hostPseudonym)
  | .revoke headers hostPseudonym registrationId => w.spawn (revokeTask c headers hostPseudonym registrationId)
  | .go i => (w.tasks[i]?).elim w (w.go i)
  | .sent i ok => (w.tasks[i]?).elim w (w.answered i ok)

end World

/-! ## How a request arrives -/

/-- The task of a request that was refused, or that has proved its secret. -/
inductive Arrives (c : Config) (w : World) : Task → Prop
  | done (status : StatusCode) : Arrives c w (.done status)
  | register (headers : Headers) (request : RegisterRequest)
    (h : c.authorized headers request.hostPseudonym = true) : Arrives c w (.register headers request w.clock)
  | wake (headers : Headers) (host : String) (h : c.hostBearerMatches headers host = true) :
    Arrives c w (.wake headers host w.clock)
  | revoke (headers : Headers) (host id : String) (h : c.hostBearerMatches headers host = true) :
    Arrives c w (.revoke headers host id)

theorem registerTask_arrives (c : Config) (w : World) (headers : Headers)
    (request : RegisterRequest) :
    Arrives c w (w.registerTask c headers request) := by
  unfold World.registerTask
  split
  · exact .done _
  · split
    · exact .done _
    · rename_i hauth _
      exact .register headers request (by simpa using hauth)

theorem wakeTask_arrives (c : Config) (w : World) (headers : Headers) (host : String) :
    Arrives c w (w.wakeTask c headers host) := by
  unfold World.wakeTask
  split
  · exact .done _
  · rename_i hauth
    exact .wake headers host (by simpa using hauth)

theorem revokeTask_arrives (c : Config) (w : World) (headers : Headers) (host id : String) :
    Arrives c w (World.revokeTask c headers host id) := by
  unfold World.revokeTask
  split
  · exact .done _
  · rename_i hauth
    rw [Bool.or_eq_true, not_or] at hauth
    exact .revoke headers host id (by simpa using hauth.1)

theorem arrive_arrives {c : Config} {w : World} {t : Task} (ht : Arrives c w t) (ip : IpAddr) :
    ∃ ipHits t', Arrives c w t' ∧ w.arrive ip t = { w with ipHits }.spawn t' := by
  unfold World.arrive
  dsimp only
  refine ⟨_, _, ?_, rfl⟩
  split
  · exact ht
  · exact .done _

/-! ## Three hosts -/

/-- A host with the bytes of its secret all the same, and its pseudonym. -/
structure Host where
  byte : UInt8
  hostPseudonym : String

/-- A host whose secret is one byte repeated, with its pseudonym; so are the next two. -/
def laptop : Host := ⟨0xab, "387d4c9384c28f6915c5d3a5a494f4a730dd3a0d044b582ba19872fdac841807"⟩

/-- The desktop. -/
def desktop : Host := ⟨0xcd, "5c5e95b23226ee31f128200ac5f8d622da2db6c21f3bbc0f506c71e511887d6e"⟩

/-- The server. -/
def server : Host := ⟨0xef, "99d0560adb6ae291fb2be4e34df1c8bf4f75fce52a161b371ab1cb033def1e32"⟩

/-- The 32 bytes of the secret. -/
def Host.secret (h : Host) : List UInt8 := List.replicate 32 h.byte

/-- What the host sends with a request. -/
def Host.headers (h : Host) : Headers := { authorization := some ("Bearer " ++ hexEncode h.secret) }

/-- A registration of a device with the host. -/
def Host.request (h : Host) (registrationId token : String) : RegisterRequest :=
  ⟨h.hostPseudonym, registrationId, .apns, token, "00"⟩

/-- An open relay, with the hashes of the three secrets. -/
def openRelay : Config where
  sha256 bytes :=
    (([laptop, desktop, server].find? fun h => hostHandleContext ++ h.secret = bytes).bind fun h =>
      hexDecode h.hostPseudonym.toList).getD []
  registration := .open

/-- A registration id. -/
def registrationId (n : Nat) : String := hexEncode (List.replicate 31 0 ++ [UInt8.ofNat n])

end Portty.PushRelay
