import Portty.Lib.Rows
import Portty.Lib.Run
import Portty.Lib.Table
import Portty.Transport.CredentialStore

/-!
# Push registrations and the pairing (`push.rs`)

A phone registers for push through its connection (`PushRegister`); the host stores the registration
and forwards it to the relay. A revocation of the pair removes it from both (`notify_revoked`), and
`register_all` forwards all stored registrations again. Each of these is a task that takes the lock
of the registry, gives it back and then calls the relay.

The file of the registry is written under the lock, and the write can fail (`StoreOutcome`):
`upsert` and `remove` then take the change in memory back, `register_all` does not. The host can be
started again, and then has the registrations of the file.

`registrations_follow_pairing`: in every run whose steps meet `Meets`, when all tasks have finished,
no registration of a device that is not paired is left, in memory, in the file or at the relay, and
those made since a device was paired are there. `revoked_registration_left`: a revocation that fails
for a later device leaves the registration of an earlier one.

New registration ids are random 256-bit values, here new numbers.
-/

namespace Portty.Host.PushRegistry

/-- A row of the registry. -/
structure Registration where
  registrationId : Nat
  device : DeviceId
  token : String
  deriving DecidableEq, Repr

/-- How a write of the registry file ends. -/
inductive StoreOutcome where
  | ok
  /-- An error, and the file is as it was. -/
  | notWritten
  /-- The file is replaced, and its directory cannot be synced. -/
  | notSynced
  deriving DecidableEq, Repr

/-- The caller is told of a failure: a missing sync is an error only of a `Required` write. -/
def StoreOutcome.fails : Durability → StoreOutcome → Bool
  | _, .ok => false
  | _, .notWritten => true
  | .required, .notSynced => true
  | .bestEffort, .notSynced => false

/-- A task and where it is. -/
inductive Task where
  /-- A `PushRegister` frame was taken. -/
  | pushRegister (device : DeviceId) (token : String)
  /-- `register_with_relay` of a registration that was stored. -/
  | registering (reg : Registration)
  | notifyRevoked (device : DeviceId)
  /-- The call of the relay for a registration that was removed. -/
  | revoking (registrationId : Nat)
  | registerAll
  /-- `register_all` has read the peers that are paired. -/
  | retaining (live : List DeviceId)
  /-- `register_all` has taken its copy of the registrations. -/
  | reregistering (regs : List Registration)
  | done
  deriving DecidableEq, Repr

/-- The pairings, the registry with its file, the relay and the tasks. -/
structure World where
  /-- `known_devices` of the peer store. -/
  paired : List DeviceId := []
  /-- The registry in memory. -/
  entries : List Registration := []
  /-- The registry on disk. -/
  file : List Registration := []
  relay : List Registration := []
  tasks : List Task := []
  nextId : Nat := 0
  /-- The devices that have registered since they were paired. -/
  registered : List DeviceId := []
  deriving Repr

/-- What happens at the host, in any order. -/
inductive Event where
  | pair (device : DeviceId)
  | frame (device : DeviceId) (token : String)
  | unpairSelf (device : DeviceId)
  /-- `RevokeDevices`, of which the revocation of one device can fail. -/
  | revokeDevices (devices : List DeviceId) (fails : Option DeviceId)
  | registerAll
  /-- A task goes on; a write of the file ends like `o`. -/
  | go (i : Nat) (o : StoreOutcome)
  /-- `register_all` cannot read the peer store. -/
  | unreadable (i : Nat)
  /-- The host is started again: its tasks are gone, and it loads the file. -/
  | restart
  deriving Repr

namespace World

variable (w : World)

/-- `PeerStore::revoke` -/
def revoke (device : DeviceId) : World :=
  { w with
    paired := w.paired.filter (· ≠ device)
    registered := w.registered.filter (· ≠ device) }

/-- A task is started. -/
def spawn (t : Task) : World := { w with tasks := w.tasks ++ [t] }

/-- The devices are revoked one by one. -/
def revokeAll (devices : List DeviceId) : World := devices.foldl revoke w

/-- A task is started for each device. -/
def spawnAll (devices : List DeviceId) : World :=
  { w with tasks := w.tasks ++ devices.map .notifyRevoked }

/-- The devices that are revoked before the one that fails. -/
def before (devices : List DeviceId) (fails : DeviceId) : List DeviceId :=
  devices.takeWhile (· ≠ fails)

/-- A request that fails for one device returns at once, and the notices of those before it are not
sent. -/
def revokeDevices (devices : List DeviceId) (fails : Option DeviceId) : World :=
  if devices = [] ∨ devices.length > 256 then w else
  let devices := devices.eraseDups
  match fails with
  | some device =>
    if device ∈ devices then w.revokeAll (before devices device)
    else (w.revokeAll devices).spawnAll devices
  | none => (w.revokeAll devices).spawnAll devices

/-- `persist`: the file afterwards. -/
def persist (entries : List Registration) (o : StoreOutcome) : World :=
  { w with file := if o = .notWritten then w.file else entries }

/-- The registration of a device as it is stored: an entry keeps its id. -/
def stored (device : DeviceId) (token : String) : Registration :=
  ⟨((Rows.find (·.device) device w.entries).map (·.registrationId)).getD w.nextId, device, token⟩

/-- `PushRegistry::upsert`; after a failed write the entry before is back in memory. -/
def upsert (device : DeviceId) (token : String) (o : StoreOutcome) : Option Registration × World :=
  let reg := w.stored device token
  let entries := Rows.put (·.device) reg w.entries
  let w := { w.persist entries o with nextId := w.nextId + 1 }
  if o.fails .bestEffort then (none, w)
  else (some reg, { w with
    entries
    registered := if device ∈ w.paired then device :: w.registered else w.registered })

/-- `PushRegistry::remove`; after a failed write the entry is back in memory. -/
def remove (device : DeviceId) (o : StoreOutcome) : Option Registration × World :=
  match Rows.find (·.device) device w.entries with
  | none => (none, w)
  | some reg =>
    let entries := Rows.remove (·.device) device w.entries
    let w := w.persist entries o
    if o.fails .required then (none, w) else (some reg, { w with entries })

/-- `PushRegistry::retain_live_peers`, and the write of what is left if something was dropped. -/
def retainLivePeers (live : List DeviceId) (o : StoreOutcome) : World :=
  let entries := w.entries.filter fun reg => live.contains reg.device
  if entries.length = w.entries.length then w else { w.persist entries o with entries }

/-- The relay has the registration. -/
def relayRegister (reg : Registration) : World :=
  { w with relay := Rows.put (·.registrationId) reg w.relay }

/-- The relay has it no more. -/
def relayRevoke (id : Nat) : World := { w with relay := Rows.remove (·.registrationId) id w.relay }

/-- A task goes on. -/
def setTask (i : Nat) (t : Task) : World := { w with tasks := w.tasks.modify i fun _ => t }

/-- A task goes on; a write of the file ends like `o`. -/
def go (i : Nat) (o : StoreOutcome) : Task → World
  | .pushRegister device token =>
    match w.upsert device token o with
    | (some reg, w) => w.setTask i (.registering reg)
    | (none, w) => w.setTask i .done
  | .registering reg => (w.relayRegister reg).setTask i .done
  | .notifyRevoked device =>
    match w.remove device o with
    | (some reg, w) => w.setTask i (.revoking reg.registrationId)
    | (none, w) => w.setTask i .done
  | .revoking id => (w.relayRevoke id).setTask i .done
  | .registerAll => w.setTask i (.retaining w.paired)
  | .retaining live =>
    let w := w.retainLivePeers live o
    w.setTask i (.reregistering w.entries)
  | .reregistering [] => w.setTask i .done
  | .reregistering (reg :: regs) => (w.relayRegister reg).setTask i (.reregistering regs)
  | .done => w

/-- One event. -/
def step : Event → World
  | .pair device => { w with paired := device :: w.paired }
  | .frame device token => w.spawn (.pushRegister device token)
  | .unpairSelf device => (w.revoke device).spawn (.notifyRevoked device)
  | .revokeDevices devices fails => w.revokeDevices devices fails
  | .registerAll => w.spawn .registerAll
  | .go i o => (w.tasks[i]?).elim w (w.go i o)
  | .unreadable i => if w.tasks[i]? = some .registerAll then w.setTask i .done else w
  | .restart => { w with entries := w.file, tasks := [] }

end World

/-! ## What is left when the tasks have finished -/

/-- No registration of a device that is not paired is left, and none of a paired device was dropped.
-/
def Follows (w : World) : Prop :=
  (∀ device ∉ w.paired, (∀ reg ∈ w.entries, reg.device ≠ device) ∧
    (∀ reg ∈ w.file, reg.device ≠ device) ∧ ∀ reg ∈ w.relay, reg.device ≠ device) ∧
  ∀ device ∈ w.registered, ∃ reg ∈ w.entries, reg.device = device ∧ reg ∈ w.file ∧
    ∃ sent ∈ w.relay, sent.registrationId = reg.registrationId

/-- No task has anything to do. -/
def Finished (w : World) : Prop := ∀ t ∈ w.tasks, t = .done

/-- The registration is still in the registry. -/
def Kept (w : World) (id : Nat) : Prop := ∃ reg ∈ w.entries, reg.registrationId = id

/-- What the steps of a task have to find: a phone registers while it is paired, or is not stored; a
registration reaches the relay while it is in the registry; a removed registration is not one that
was made since the device was paired again, and the file without it is written; and `register_all`
has nothing to drop. -/
def Task.Meets (w : World) (o : StoreOutcome) : Task → Prop
  | .pushRegister device _ => o = .notWritten ∨ device ∈ w.paired
  | .registering reg => Kept w reg.registrationId
  | .notifyRevoked device =>
    device ∉ w.registered ∧ (o = .ok ∨ ∀ reg ∈ w.entries, reg.device ≠ device)
  | .retaining live => ∀ reg ∈ w.entries, reg.device ∈ live
  | .reregistering (reg :: _) => Kept w reg.registrationId
  | _ => True

/-- A request fails only before a device was revoked by it, and the host is started again only when
no task is under way. -/
def Meets (w : World) : Event → Prop
  | .go i o => ∀ t ∈ w.tasks[i]?, t.Meets w o
  | .revokeDevices devices fails => ∀ device ∈ fails, World.before devices.eraseDups device = []
  | .restart => Finished w
  | _ => True

instance (w : World) (id : Nat) : Decidable (Kept w id) :=
  inferInstanceAs (Decidable (∃ reg ∈ w.entries, reg.registrationId = id))

instance (w : World) (o : StoreOutcome) : (t : Task) → Decidable (t.Meets w o)
  | .pushRegister device _ => inferInstanceAs (Decidable (o = .notWritten ∨ device ∈ w.paired))
  | .registering reg | .reregistering (reg :: _) =>
    inferInstanceAs (Decidable (Kept w reg.registrationId))
  | .notifyRevoked device => inferInstanceAs (Decidable
      (device ∉ w.registered ∧ (o = .ok ∨ ∀ reg ∈ w.entries, reg.device ≠ device)))
  | .retaining live => inferInstanceAs (Decidable (∀ reg ∈ w.entries, reg.device ∈ live))
  | .revoking _ | .registerAll | .reregistering [] | .done => isTrue trivial

instance (w : World) : Decidable (Finished w) :=
  inferInstanceAs (Decidable (∀ t ∈ w.tasks, t = .done))

instance (w : World) : (e : Event) → Decidable (Meets w e)
  | .go i o => inferInstanceAs (Decidable (∀ t ∈ w.tasks[i]?, t.Meets w o))
  | .revokeDevices devices fails =>
    inferInstanceAs (Decidable (∀ device ∈ fails, World.before devices.eraseDups device = []))
  | .restart => inferInstanceAs (Decidable (Finished w))
  | .pair _ | .frame _ _ | .unpairSelf _ | .registerAll | .unreadable _ => isTrue trivial

/-! ## The invariant -/

variable {w : World} {device : DeviceId} {reg : Registration} {i : Nat} {t t' : Task}

/-- The registrations that a task is to forward. -/
def Task.regs : Task → List Registration
  | .registering reg => [reg]
  | .reregistering regs => regs
  | _ => []

/-- All registrations that are anywhere. -/
def Somewhere (w : World) (reg : Registration) : Prop :=
  reg ∈ w.entries ∨ reg ∈ w.relay ∨ ∃ t ∈ w.tasks, reg ∈ t.regs

/-- What holds of the registry, the relay and the tasks. -/
structure Inv (w : World) : Prop where
  unique : Rows.Unique (·.device) w.entries
  disk : w.file = w.entries
  /-- An id is of one device. -/
  named : ∀ reg, Somewhere w reg → reg.registrationId < w.nextId ∧ ∀ reg', Somewhere w reg' →
    reg.registrationId = reg'.registrationId → reg.device = reg'.device
  revoking : ∀ id, .revoking id ∈ w.tasks → id < w.nextId ∧ ¬ Kept w id
  /-- A stored registration is wanted, or a task will remove it. -/
  wanted : ∀ reg ∈ w.entries, reg.device ∈ w.registered ∨ .notifyRevoked reg.device ∈ w.tasks
  /-- A registration of the relay is stored, or a task will revoke it. -/
  stored : ∀ reg ∈ w.relay, Kept w reg.registrationId ∨ .revoking reg.registrationId ∈ w.tasks
  paired : ∀ device ∈ w.registered, device ∈ w.paired
  /-- A wanted registration is stored, and at the relay or on the way. -/
  held : ∀ device ∈ w.registered, ∃ reg ∈ w.entries, reg.device = device ∧
    ((∃ sent ∈ w.relay, sent.registrationId = reg.registrationId) ∨
      ∃ sent, .registering sent ∈ w.tasks ∧ sent.registrationId = reg.registrationId)

/-- The entry with an id is the one of its device. -/
theorem Inv.eq_of_id (h : Inv w) {q : Registration} (hreg : reg ∈ w.entries) (hq : q ∈ w.entries)
    (he : reg.registrationId = q.registrationId) : reg = q :=
  h.unique.eq hreg hq ((h.named reg (.inl hreg)).2 q (.inl hq) he)

/-- Where no registration is new, every id still is of one device. -/
theorem Inv.named_of (h : Inv w) {w' : World} (hnext : w.nextId ≤ w'.nextId)
    (hsome : ∀ q, Somewhere w' q → Somewhere w q) (reg : Registration) (hreg : Somewhere w' reg) :
    reg.registrationId < w'.nextId ∧ ∀ reg', Somewhere w' reg' →
      reg.registrationId = reg'.registrationId → reg.device = reg'.device := by
  obtain ⟨hlt, hdev⟩ := h.named reg (hsome reg hreg)
  exact ⟨hlt.trans_le hnext, fun reg' hreg' => hdev reg' (hsome reg' hreg')⟩

/-- When all tasks are done, the registrations follow the pairs. -/
theorem Inv.finished (h : Inv w) (hf : Finished w) : Follows w := by
  have hent : ∀ reg ∈ w.entries, reg.device ∈ w.paired := by
    intro reg hreg
    rcases h.wanted reg hreg with hr | hr
    · exact h.paired _ hr
    · cases hf _ hr
  constructor
  · intro device hd
    have hgone : ∀ reg ∈ w.entries, reg.device ≠ device := fun reg hreg he =>
      hd (he ▸ hent reg hreg)
    refine ⟨hgone, h.disk ▸ hgone, fun reg hreg he => ?_⟩
    rcases h.stored reg hreg with ⟨q, hq, hid⟩ | hr
    · have hdev := (h.named q (.inl hq)).2 reg (.inr (.inl hreg)) hid
      exact hd (he ▸ hdev ▸ hent q hq)
    · cases hf _ hr
  · intro device hd
    obtain ⟨reg, hreg, he, hsent | ⟨sent, hs, -⟩⟩ := h.held device hd
    · exact ⟨reg, hreg, he, h.disk ▸ hreg, hsent⟩
    · cases hf _ hs

/-! ## Steps -/

/-- Tasks that have nothing of their own. -/
def Task.idle : Task → Bool
  | .registering _ | .reregistering _ | .revoking _ => false
  | _ => true

theorem Task.regs_of_idle (h : t.idle = true) : t.regs = [] := by
  cases t <;> first | rfl | cases h

/-- A task that has not begun changes nothing. -/
theorem Inv.spawn (h : Inv w) (ht : t.idle = true) : Inv (w.spawn t) := by
  have hsome : ∀ reg, Somewhere (w.spawn t) reg → Somewhere w reg := by
    rintro reg (hr | hr | ⟨t', ht', hr⟩)
    · exact .inl hr
    · exact .inr (.inl hr)
    · rcases List.mem_append.mp ht' with ht' | ht'
      · exact .inr (.inr ⟨t', ht', hr⟩)
      · rw [List.mem_singleton.mp ht', t.regs_of_idle ht] at hr
        cases hr
  exact
    { unique := h.unique
      disk := h.disk
      named := h.named_of le_rfl hsome
      revoking := by
        intro id hid
        rcases List.mem_append.mp hid with hid | hid
        · exact h.revoking id hid
        · rw [← List.mem_singleton.mp hid] at ht
          cases ht
      wanted := fun reg hr => (h.wanted reg hr).imp_right (List.mem_append_left _)
      stored := fun reg hr => (h.stored reg hr).imp_right (List.mem_append_left _)
      paired := h.paired
      held := by
        intro device hd
        obtain ⟨reg, hr, he, hsent | ⟨sent, hs, hid⟩⟩ := h.held device hd
        · exact ⟨reg, hr, he, .inl hsent⟩
        · exact ⟨reg, hr, he, .inr ⟨sent, List.mem_append_left _ hs, hid⟩⟩ }

theorem revokeAll_eq (w : World) (devices : List DeviceId) :
    w.revokeAll devices =
      { w with
        paired := w.paired.filter (· ∉ devices)
        registered := w.registered.filter (· ∉ devices) } := by
  induction devices generalizing w with
  | nil => simp [World.revokeAll]
  | cons device devices ih =>
    have hcons : w.revokeAll (device :: devices) = (w.revoke device).revokeAll devices := rfl
    rw [hcons, ih]
    simp only [World.revoke, List.filter_filter, List.mem_cons, not_or]
    congr 1 <;>
    · refine List.filter_congr fun x _ => ?_
      by_cases hx : x = device <;> simp [hx]

/-- The pairs of the devices are revoked, and their registrations will be removed. -/
theorem Inv.revokeAll (h : Inv w) (devices : List DeviceId) :
    Inv ((w.revokeAll devices).spawnAll devices) := by
  rw [revokeAll_eq]
  have hsome : ∀ reg, Somewhere (World.spawnAll { w with
      paired := w.paired.filter (· ∉ devices)
      registered := w.registered.filter (· ∉ devices) } devices) reg → Somewhere w reg := by
    rintro reg (hr | hr | ⟨t', ht', hr⟩)
    · exact .inl hr
    · exact .inr (.inl hr)
    · rcases List.mem_append.mp ht' with ht' | ht'
      · exact .inr (.inr ⟨t', ht', hr⟩)
      · obtain ⟨device, -, rfl⟩ := List.mem_map.mp ht'
        cases hr
  exact
    { unique := h.unique
      disk := h.disk
      named := h.named_of le_rfl hsome
      revoking := by
        intro id hid
        rcases List.mem_append.mp hid with hid | hid
        · exact h.revoking id hid
        · obtain ⟨device, -, he⟩ := List.mem_map.mp hid
          cases he
      wanted := by
        intro reg hr
        by_cases hd : reg.device ∈ devices
        · exact .inr (List.mem_append_right _ (List.mem_map_of_mem hd))
        · rcases h.wanted reg hr with hw | hw
          · exact .inl (List.mem_filter.mpr ⟨hw, by simpa using hd⟩)
          · exact .inr (List.mem_append_left _ hw)
      stored := fun reg hr => (h.stored reg hr).imp_right (List.mem_append_left _)
      paired := by
        intro device hd
        obtain ⟨hd, hnot⟩ := List.mem_filter.mp hd
        exact List.mem_filter.mpr ⟨h.paired device hd, hnot⟩
      held := by
        intro device hd
        obtain ⟨reg, hr, he, hsent | ⟨sent, hs, hid⟩⟩ := h.held device (List.mem_filter.mp hd).1
        · exact ⟨reg, hr, he, .inl hsent⟩
        · exact ⟨reg, hr, he, .inr ⟨sent, List.mem_append_left _ hs, hid⟩⟩ }

theorem Inv.revokeDevices (h : Inv w) {devices : List DeviceId} {fails : Option DeviceId}
    (hm : ∀ device ∈ fails, World.before devices.eraseDups device = []) :
    Inv (w.revokeDevices devices fails) := by
  unfold World.revokeDevices
  split
  · exact h
  · dsimp only
    split
    · rename_i device
      split
      · rw [hm device rfl]
        exact h
      · exact h.revokeAll _
    · exact h.revokeAll _

/-- A task goes on without touching the registrations. -/
theorem Inv.retask (h : Inv w) {old : Task} (hi : w.tasks[i]? = some old)
    (hregs : ∀ reg ∈ t.regs, Somewhere w reg) (ht : ∀ id, t ≠ .revoking id)
    (hnotify : ∀ device, old = .notifyRevoked device → ∀ reg ∈ w.entries, reg.device ≠ device)
    (hrevoke : ∀ id, old = .revoking id → ∀ reg ∈ w.relay, reg.registrationId ≠ id)
    (hcall : ∀ reg, old = .registering reg → ∃ sent ∈ w.relay, sent.registrationId = reg.registrationId) :
    Inv (w.setTask i t) := by
  have hsome : ∀ reg, Somewhere (w.setTask i t) reg → Somewhere w reg := by
    rintro reg (hr | hr | ⟨t', ht', hr⟩)
    · exact .inl hr
    · exact .inr (.inl hr)
    · rcases Table.mem_replace ht' with ht' | rfl
      · exact .inr (.inr ⟨t', ht', hr⟩)
      · exact hregs reg hr
  exact
    { unique := h.unique
      disk := h.disk
      named := h.named_of le_rfl hsome
      revoking := by
        intro id hid
        rcases Table.mem_replace hid with hid | hid
        · exact h.revoking id hid
        · exact absurd hid.symm (ht id)
      wanted := by
        intro reg hr
        rcases h.wanted reg hr with hw | hw
        · exact .inl hw
        · refine .inr (Table.mem_replace_of_ne hi hw ?_)
          rintro rfl
          exact hnotify _ rfl reg hr rfl
      stored := by
        intro reg hr
        rcases h.stored reg hr with hw | hw
        · exact .inl hw
        · refine .inr (Table.mem_replace_of_ne hi hw ?_)
          rintro rfl
          exact hrevoke _ rfl reg hr rfl
      paired := h.paired
      held := by
        intro device hd
        obtain ⟨reg, hr, he, hsent | ⟨sent, hs, hid⟩⟩ := h.held device hd
        · exact ⟨reg, hr, he, .inl hsent⟩
        · by_cases hold : Task.registering sent = old
          · obtain ⟨sent', hs', hid'⟩ := hcall sent hold.symm
            exact ⟨reg, hr, he, .inl ⟨sent', hs', hid'.trans hid⟩⟩
          · exact ⟨reg, hr, he, .inr ⟨sent, Table.mem_replace_of_ne hi hs hold, hid⟩⟩ }

/-- A registration that is stored reaches the relay. -/
theorem Inv.relayRegister (h : Inv w) (hs : Somewhere w reg) (hk : Kept w reg.registrationId) :
    Inv (w.relayRegister reg) := by
  have hsome : ∀ q, Somewhere (w.relayRegister reg) q → Somewhere w q := by
    rintro q (hq | hq | hq)
    · exact .inl hq
    · rcases Rows.mem_put.mp hq with rfl | ⟨hq, -⟩
      · exact hs
      · exact .inr (.inl hq)
    · exact .inr (.inr hq)
  have hids : ∀ id, (∃ sent ∈ w.relay, sent.registrationId = id) →
      ∃ sent ∈ (w.relayRegister reg).relay, sent.registrationId = id := by
    rintro id ⟨sent, hs', rfl⟩
    by_cases hid : sent.registrationId = reg.registrationId
    · exact ⟨reg, Rows.mem_put.mpr (.inl rfl), hid.symm⟩
    · exact ⟨sent, Rows.mem_put.mpr (.inr ⟨hs', hid⟩), rfl⟩
  exact
    { unique := h.unique
      disk := h.disk
      named := h.named_of le_rfl hsome
      revoking := h.revoking
      wanted := h.wanted
      stored := by
        intro q hq
        rcases Rows.mem_put.mp hq with rfl | ⟨hq, -⟩
        · exact .inl hk
        · exact h.stored q hq
      paired := h.paired
      held := by
        intro device hd
        obtain ⟨q, hq, he, hsent | hsent⟩ := h.held device hd
        · exact ⟨q, hq, he, .inl (hids _ hsent)⟩
        · exact ⟨q, hq, he, .inr hsent⟩ }

theorem relayRegister_mem (w : World) (reg : Registration) :
    ∃ sent ∈ (w.relayRegister reg).relay, sent.registrationId = reg.registrationId :=
  ⟨reg, Rows.mem_put.mpr (.inl rfl), rfl⟩

theorem Inv.pair (h : Inv w) (device : DeviceId) : Inv { w with paired := device :: w.paired } :=
  { h with paired := fun d hd => List.mem_cons_of_mem _ (h.paired d hd) }

/-- The registration of a device is stored, in memory and in the file. -/
def World.store (w : World) (device : DeviceId) (token : String) : World :=
  { w with
    entries := Rows.put (·.device) (w.stored device token) w.entries
    file := Rows.put (·.device) (w.stored device token) w.entries
    nextId := w.nextId + 1
    registered := if device ∈ w.paired then device :: w.registered else w.registered }

/-- `upsert` stores the registration, or changes nothing. -/
theorem upsert_cases (w : World) (device : DeviceId) (token : String) (o : StoreOutcome) :
    (o = .notWritten ∧ w.upsert device token o = (none, { w with nextId := w.nextId + 1 })) ∨
      o ≠ .notWritten ∧ w.upsert device token o =
        (some (w.stored device token), w.store device token) := by
  cases o with
  | notWritten => exact .inl ⟨rfl, rfl⟩
  | ok | notSynced => exact .inr ⟨nofun, rfl⟩

theorem Inv.skipId (h : Inv w) : Inv { w with nextId := w.nextId + 1 } where
  unique := h.unique
  disk := h.disk
  named := h.named_of (Nat.le_succ _) fun _ hr => hr
  revoking id hid := ⟨(h.revoking id hid).1.trans (Nat.lt_succ_self _), (h.revoking id hid).2⟩
  wanted := h.wanted
  stored := h.stored
  paired := h.paired
  held := h.held

/-- The id of the new entry is the one of the old entry of the device, or a new one. -/
theorem upsert_id (w : World) (device : DeviceId) (token : String) :
    (∃ old ∈ w.entries, old.device = device ∧
      w.stored device token = ⟨old.registrationId, device, token⟩) ∨
    (∀ reg ∈ w.entries, reg.device ≠ device) ∧
      w.stored device token = ⟨w.nextId, device, token⟩ := by
  unfold World.stored
  cases hf : Rows.find (·.device) device w.entries with
  | some old => exact .inl ⟨old, Rows.mem_of_find hf, Rows.key_of_find hf, rfl⟩
  | none => exact .inr ⟨Rows.find_eq_none.mp hf, rfl⟩

theorem upsert_device (w : World) (device : DeviceId) (token : String) :
    (w.stored device token).device = device := rfl

/-- What is stored afterwards, by its id. -/
theorem kept_upsert (h : Inv w) (device : DeviceId) (token : String) {id : Nat} :
    Kept (w.store device token) id ↔ Kept w id ∨
      id = (w.stored device token).registrationId := by
  constructor
  · rintro ⟨q, hq, rfl⟩
    rcases Rows.mem_put.mp hq with rfl | ⟨hq, -⟩
    · exact .inr rfl
    · exact .inl ⟨q, hq, rfl⟩
  · rintro (⟨q, hq, rfl⟩ | rfl)
    · by_cases hd : q.device = device
      · refine ⟨w.stored device token, Rows.mem_put.mpr (.inl rfl), ?_⟩
        rcases upsert_id w device token with ⟨old, hold, hdev, he⟩ | ⟨hnone, -⟩
        · rw [he, h.unique.eq hq hold (hd.trans hdev.symm)]
        · exact absurd hd (hnone q hq)
      · exact ⟨q, Rows.mem_put.mpr (.inr ⟨hq, hd⟩), rfl⟩
    · exact ⟨_, Rows.mem_put.mpr (.inl rfl), rfl⟩

/-- The id of the stored registration is below the next one, and no other device has it. -/
theorem Inv.stored_id (h : Inv w) (device : DeviceId) (token : String) :
    (w.stored device token).registrationId < w.nextId + 1 ∧
      ∀ q, Somewhere w q → q.registrationId = (w.stored device token).registrationId →
        q.device = device := by
  rcases upsert_id w device token with ⟨old, hold, hdev, he⟩ | ⟨-, he⟩
  · rw [he]
    exact ⟨(h.named old (.inl hold)).1.trans (Nat.lt_succ_self _),
      fun q hq hid => ((h.named q hq).2 old (.inl hold) hid).trans hdev⟩
  · rw [he]
    exact ⟨Nat.lt_succ_self _, fun q hq hid => absurd hid (h.named q hq).1.ne⟩

/-- No task revokes the id of the stored registration. -/
theorem Inv.stored_not_revoking (h : Inv w) (device : DeviceId) (token : String) :
    .revoking (w.stored device token).registrationId ∉ w.tasks := by
  intro hr
  rcases upsert_id w device token with ⟨old, hold, -, he⟩ | ⟨-, he⟩
  · rw [he] at hr
    exact (h.revoking _ hr).2 ⟨old, hold, rfl⟩
  · rw [he] at hr
    exact absurd (h.revoking _ hr).1 (lt_irrefl _)

/-- A phone registers while it is paired. -/
theorem Inv.upsert (h : Inv w) {token : String}
    (hi : w.tasks[i]? = some (.pushRegister device token))
    (hp : device ∈ w.paired) :
    Inv ((w.store device token).setTask i (.registering (w.stored device token))) := by
  obtain ⟨reg, hreg⟩ : ∃ reg, reg = w.stored device token := ⟨_, rfl⟩
  have hdev : reg.device = device := hreg ▸ upsert_device w device token
  rw [← hreg]
  have hregd : (w.store device token).registered = device :: w.registered := if_pos hp
  have hent : ∀ q, q ∈ (w.store device token).entries ↔ q = reg ∨ q ∈ w.entries ∧
      q.device ≠ device := by
    intro q
    rw [hreg]
    exact Rows.mem_put
  have hold : ∀ t, t ∈ w.tasks → t ≠ .pushRegister device token →
      t ∈ ((w.store device token).setTask i (.registering reg)).tasks :=
    fun t ht hne => Table.mem_replace_of_ne hi ht hne
  have hsome : ∀ q, Somewhere ((w.store device token).setTask i (.registering reg)) q →
      Somewhere w q ∨ q = reg := by
    rintro q (hq | hq | ⟨t, ht, hq⟩)
    · rcases (hent q).mp hq with rfl | ⟨hq, -⟩
      · exact .inr rfl
      · exact .inl (.inl hq)
    · exact .inl (.inr (.inl hq))
    · rcases Table.mem_replace ht with ht | rfl
      · exact .inl (.inr (.inr ⟨t, ht, hq⟩))
      · exact .inr (List.mem_singleton.mp hq)
  obtain ⟨hlt, hid⟩ := h.stored_id device token
  rw [← hreg] at hlt hid
  exact
    { unique := h.unique.put _
      disk := rfl
      named := by
        intro q hq
        rcases hsome q hq with hw | rfl
        · refine ⟨(h.named q hw).1.trans (Nat.lt_succ_self _), fun q' hq' he => ?_⟩
          rcases hsome q' hq' with hw' | rfl
          · exact (h.named q hw).2 q' hw' he
          · exact (hid q hw he).trans hdev.symm
        · refine ⟨hlt, fun q' hq' he => ?_⟩
          rcases hsome q' hq' with hw' | rfl
          · exact hdev.trans (hid q' hw' he.symm).symm
          · rfl
      revoking := by
        intro id hr
        rcases Table.mem_replace hr with hr | hr
        · refine ⟨(h.revoking id hr).1.trans (Nat.lt_succ_self _), fun hk => ?_⟩
          rcases (kept_upsert h device token).mp hk with hk | rfl
          · exact (h.revoking id hr).2 hk
          · exact h.stored_not_revoking device token hr
        · cases hr
      wanted := by
        intro q hq
        rcases (hent q).mp hq with rfl | ⟨hq, -⟩
        · refine .inl ?_
          show q.device ∈ (w.store device token).registered
          rw [hregd, hdev]
          exact List.mem_cons_self
        · rcases h.wanted q hq with hw | hw
          · refine .inl ?_
            show q.device ∈ (w.store device token).registered
            rw [hregd]
            exact List.mem_cons_of_mem _ hw
          · exact .inr (hold _ hw nofun)
      stored := by
        intro q hq
        rcases h.stored q hq with hk | hr
        · exact .inl ((kept_upsert h device token).mpr (.inl hk))
        · exact .inr (hold _ hr nofun)
      paired := by
        intro d hd
        change d ∈ (w.store device token).registered at hd
        rw [hregd] at hd
        rcases List.mem_cons.mp hd with rfl | hd
        · exact hp
        · exact h.paired d hd
      held := by
        intro d hd
        change d ∈ (w.store device token).registered at hd
        rw [hregd] at hd
        by_cases hne : d = device
        · exact ⟨reg, (hent reg).mpr (.inl rfl), hdev.trans hne.symm,
            .inr ⟨reg, Table.mem_replace_self hi, rfl⟩⟩
        · obtain ⟨q, hq, he, hsent | ⟨sent, hs, hid'⟩⟩ :=
            h.held d ((List.mem_cons.mp hd).resolve_left hne)
          · exact ⟨q, (hent q).mpr (.inr ⟨hq, he ▸ hne⟩), he, .inl hsent⟩
          · exact ⟨q, (hent q).mpr (.inr ⟨hq, he ▸ hne⟩), he, .inr ⟨sent, hold _ hs nofun, hid'⟩⟩ }

/-- The registration of a device that has not registered since it was paired is removed. -/
theorem Inv.remove (h : Inv w) (hi : w.tasks[i]? = some (.notifyRevoked device))
    (hf : Rows.find (·.device) device w.entries = some reg) (hd : device ∉ w.registered) :
    Inv ({ w with
      entries := Rows.remove (·.device) device w.entries
      file := Rows.remove (·.device) device w.entries }.setTask i
        (.revoking reg.registrationId)) := by
  have hmem := Rows.mem_of_find hf
  have hdev : reg.device = device := Rows.key_of_find hf
  have hold : ∀ t, t ∈ w.tasks → t ≠ .notifyRevoked device →
      t ∈ ({ w with
        entries := Rows.remove (·.device) device w.entries
        file := Rows.remove (·.device) device w.entries }.setTask i
          (.revoking reg.registrationId)).tasks :=
    fun t ht hne => Table.mem_replace_of_ne hi ht hne
  have hsome : ∀ q, Somewhere ({ w with
      entries := Rows.remove (·.device) device w.entries
      file := Rows.remove (·.device) device w.entries }.setTask i
        (.revoking reg.registrationId)) q → Somewhere w q := by
    rintro q (hq | hq | ⟨t, ht, hq⟩)
    · exact .inl (Rows.mem_remove.mp hq).1
    · exact .inr (.inl hq)
    · rcases Table.mem_replace ht with ht | rfl
      · exact .inr (.inr ⟨t, ht, hq⟩)
      · cases hq
  exact
    { unique := h.unique.remove _
      disk := rfl
      named := h.named_of le_rfl hsome
      revoking := by
        intro id hr
        rcases Table.mem_replace hr with hr | hr
        · refine ⟨(h.revoking id hr).1, ?_⟩
          rintro ⟨q, hq, he⟩
          exact (h.revoking id hr).2 ⟨q, (Rows.mem_remove.mp hq).1, he⟩
        · cases hr
          refine ⟨(h.named reg (.inl hmem)).1, ?_⟩
          rintro ⟨q, hq, he⟩
          obtain ⟨hq, hne⟩ := Rows.mem_remove.mp hq
          exact hne (h.eq_of_id hq hmem he ▸ hdev)
      wanted := by
        intro q hq
        obtain ⟨hq, hne⟩ := Rows.mem_remove.mp hq
        refine (h.wanted q hq).imp_right fun hw => hold _ hw fun he => hne ?_
        exact Task.notifyRevoked.inj he
      stored := by
        intro q hq
        rcases h.stored q hq with ⟨p, hp, he⟩ | hr
        · by_cases hpd : p.device = device
          · have hpr : p = reg := h.unique.eq hp hmem (hpd.trans hdev.symm)
            rw [← he, hpr]
            exact .inr (Table.mem_replace_self hi)
          · exact .inl ⟨p, Rows.mem_remove.mpr ⟨hp, hpd⟩, he⟩
        · exact .inr (hold _ hr nofun)
      paired := h.paired
      held := by
        intro d hreg
        obtain ⟨q, hq, he, hsent⟩ := h.held d hreg
        have hne : q.device ≠ device := by
          rintro hqd
          exact hd (hqd ▸ he ▸ hreg)
        refine ⟨q, Rows.mem_remove.mpr ⟨hq, hne⟩, he, hsent.imp_right ?_⟩
        rintro ⟨sent, hs, hid⟩
        exact ⟨sent, hold _ hs nofun, hid⟩ }

/-- The relay forgets a registration that is stored no longer. -/
theorem Inv.relayRevoke (h : Inv w) {id : Nat} (hk : ¬ Kept w id) : Inv (w.relayRevoke id) := by
  have hsome : ∀ q, Somewhere (w.relayRevoke id) q → Somewhere w q :=
    fun q hq => hq.imp_right (Or.imp_left fun hq => (Rows.mem_remove.mp hq).1)
  exact
    { unique := h.unique
      disk := h.disk
      named := h.named_of le_rfl hsome
      revoking := h.revoking
      wanted := h.wanted
      stored := fun q hq => h.stored q (Rows.mem_remove.mp hq).1
      paired := h.paired
      held := by
        intro d hd
        obtain ⟨q, hq, he, hsent⟩ := h.held d hd
        refine ⟨q, hq, he, hsent.imp_left ?_⟩
        rintro ⟨sent, hs, hid⟩
        refine ⟨sent, Rows.mem_remove.mpr ⟨hs, fun hne => hk ⟨q, hq, ?_⟩⟩, hid⟩
        exact hid.symm.trans hne }

/-- Nothing is dropped where all stored devices are in the list. -/
theorem retainLivePeers_self {live : List DeviceId} (hm : ∀ reg ∈ w.entries, reg.device ∈ live)
    (o : StoreOutcome) : w.retainLivePeers live o = w := by
  have hall : (w.entries.filter fun reg => live.contains reg.device) = w.entries := by
    rw [List.filter_eq_self]
    intro reg hreg
    simpa using hm reg hreg
  unfold World.retainLivePeers
  rw [hall, if_pos rfl]

theorem Inv.goNotifyRevoked (h : Inv w) {o : StoreOutcome}
    (hi : w.tasks[i]? = some (.notifyRevoked device))
    (hm : (Task.notifyRevoked device).Meets w o) : Inv (w.go i o (.notifyRevoked device)) := by
  obtain ⟨hd, ho⟩ := hm
  simp only [World.go, World.remove]
  cases hf : Rows.find (·.device) device w.entries with
  | some reg =>
    obtain rfl : o = .ok := ho.resolve_right fun hnone =>
      hnone reg (Rows.mem_of_find hf) (Rows.key_of_find hf)
    exact h.remove hi hf hd
  | none =>
    refine h.retask hi (by simp [Task.regs]) (by simp) ?_ (by simp) (by simp)
    rintro _ ⟨⟩
    exact Rows.find_eq_none.mp hf

theorem Inv.goPushRegister (h : Inv w) {o : StoreOutcome} {token : String}
    (hi : w.tasks[i]? = some (.pushRegister device token))
    (hm : (Task.pushRegister device token).Meets w o) :
    Inv (w.go i o (.pushRegister device token)) := by
  rw [World.go]
  rcases upsert_cases w device token o with ⟨-, he⟩ | ⟨ho, he⟩
  · rw [he]
    exact h.skipId.retask hi nofun nofun nofun nofun nofun
  · rw [he]
    exact h.upsert hi (hm.resolve_left ho)

theorem Inv.go (h : Inv w) {o : StoreOutcome} (hi : w.tasks[i]? = some t) (hm : t.Meets w o) :
    Inv (w.go i o t) := by
  have hmem := List.mem_of_getElem? hi
  cases t with
  | pushRegister device token => exact h.goPushRegister hi hm
  | registering reg =>
    have hs : Somewhere w reg := .inr (.inr ⟨_, hmem, List.mem_singleton_self _⟩)
    refine (h.relayRegister hs hm).retask hi nofun nofun nofun nofun ?_
    rintro _ ⟨⟩
    exact relayRegister_mem w reg
  | notifyRevoked device => exact h.goNotifyRevoked hi hm
  | revoking id =>
    refine (h.relayRevoke (h.revoking id hmem).2).retask hi nofun nofun nofun ?_ nofun
    rintro _ ⟨⟩ reg hreg
    exact (Rows.mem_remove.mp hreg).2
  | registerAll => exact h.retask hi nofun nofun nofun nofun nofun
  | retaining live =>
    simp only [World.go, retainLivePeers_self hm]
    exact h.retask hi (fun reg hreg => .inl hreg) nofun nofun nofun nofun
  | reregistering regs =>
    cases regs with
    | nil => exact h.retask hi nofun nofun nofun nofun nofun
    | cons reg regs =>
      have hs : Somewhere w reg := .inr (.inr ⟨_, hmem, List.mem_cons_self⟩)
      refine (h.relayRegister hs hm).retask hi (fun q hq => ?_) nofun nofun nofun nofun
      exact .inr (.inr ⟨_, hmem, List.mem_cons_of_mem _ hq⟩)
  | done => exact h

/-- The host is started again when no task is under way. -/
theorem Inv.restart (h : Inv w) (hf : Finished w) :
    Inv { w with entries := w.file, tasks := [] } := by
  rw [h.disk]
  have hsome : ∀ reg, Somewhere { w with tasks := [], file := w.entries } reg →
      Somewhere w reg := by
    rintro reg (hr | hr | ⟨t, ht, -⟩)
    · exact .inl hr
    · exact .inr (.inl hr)
    · cases ht
  exact
    { unique := h.unique
      disk := rfl
      named := h.named_of le_rfl hsome
      revoking := nofun
      wanted := fun reg hr => (h.wanted reg hr).imp_right fun ht => by cases hf _ ht
      stored := fun reg hr => (h.stored reg hr).imp_right fun ht => by cases hf _ ht
      paired := h.paired
      held := by
        intro device hd
        obtain ⟨reg, hr, he, hsent | ⟨sent, hs, -⟩⟩ := h.held device hd
        · exact ⟨reg, hr, he, .inl hsent⟩
        · cases hf _ hs }

theorem Inv.step (h : Inv w) (e : Event) (hm : Meets w e) : Inv (w.step e) := by
  cases e with
  | pair device => exact h.pair device
  | frame device token => exact h.spawn rfl
  | unpairSelf device => exact h.revokeAll [device]
  | revokeDevices devices fails => exact h.revokeDevices hm
  | registerAll => exact h.spawn rfl
  | go i o =>
    show Inv ((w.tasks[i]?).elim w (w.go i o))
    cases hi : w.tasks[i]? with
    | none => exact h
    | some t => exact h.go hi (hm t hi)
  | unreadable i =>
    show Inv (if w.tasks[i]? = some .registerAll then w.setTask i .done else w)
    split
    · rename_i hi
      exact h.retask hi nofun nofun nofun nofun nofun
    · exact h
  | restart => exact h.restart hm

/-- At first nothing is registered. -/
theorem inv_empty : Inv {} where
  unique := List.nodup_nil
  disk := rfl
  named := by
    rintro reg (hr | hr | ⟨t, ht, -⟩)
    · cases hr
    · cases hr
    · cases ht
  revoking := nofun
  wanted := nofun
  stored := nofun
  paired := nofun
  held := nofun

/-- Where every step of a run meets `Meets`, the registrations follow the pairing when all tasks
have finished. -/
theorem registrations_follow_pairing (events : List Event)
    (h : Run.Along World.step Meets {} events)
    (hf : Finished (Run.run World.step {} events)) : Follows (Run.run World.step {} events) :=
  (h.induction inv_empty fun _ e hi hm => hi.step e hm).finished hf

/-- Two devices are paired, and the first one registers. -/
def registered : List Event :=
  [.pair ⟨1⟩, .pair ⟨2⟩, .frame ⟨1⟩ "t", .go 0 .ok, .go 0 .ok]

/-- The host is started again and forwards the registration, a new token cannot be stored, and both
devices are revoked. -/
theorem registrations_follow_pairing_revoked :
    let events := registered ++ [.restart, .registerAll, .go 0 .ok, .go 0 .ok, .go 0 .ok, .go 0 .ok,
      .frame ⟨1⟩ "u", .go 1 .notWritten, .revokeDevices [⟨1⟩, ⟨2⟩] none, .go 2 .ok, .go 2 .ok,
      .go 3 .ok]
    Finished (Run.run World.step {} events) ∧ Follows (Run.run World.step {} events) :=
  ⟨by decide, registrations_follow_pairing _ (by decide) (by decide)⟩

/-- The request fails for the second device; the registration of the first one stays, which is
revoked. -/
theorem revoked_registration_left :
    let w := Run.run World.step {} (registered ++ [.revokeDevices [⟨1⟩, ⟨2⟩] (some ⟨2⟩)])
    w.paired = [⟨2⟩] ∧ w.entries = [⟨0, ⟨1⟩, "t"⟩] ∧ w.file = [⟨0, ⟨1⟩, "t"⟩] ∧
      w.relay = [⟨0, ⟨1⟩, "t"⟩] ∧ Finished w ∧ ¬ Follows w := by
  refine ⟨by decide, by decide, by decide, by decide, by decide, fun h => ?_⟩
  have hgone := (h.1 ⟨1⟩ (by decide)).1 ⟨0, ⟨1⟩, "t"⟩ (by decide)
  exact hgone rfl

end Portty.Host.PushRegistry
