import Portty.Transport.HandshakeAgree
import Portty.Transport.HandshakePool
import Portty.Transport.PeersRefine

/-!
# Connections of a host (`accept_loop` in `iroh_serve.rs`)

A connection observes the peer store and the pairing state, runs the server handshake, waits for the
human, claims the enrollment opportunity and commits. Each of these is a step of its own, and the
steps of any number of connections come in any order, between rotations, openings and whatever
changes the store.

The commit is `hostCommit`, which is what `commit_host_handshake` does when no call of the store
fails (`commitHostHandshake_refines`). A commit whose calls fail is a `drop` of the connection and a
`reload` of whatever the failure has left.

* `Host.step`, `HostEvent`: the steps.
* `Claim`, `Connection.born`, `Host.openings`, `Host.bumps`: ghost values, which no step reads.
* `one_device_per_opening`: a fresh pair that is committed has claimed the open window whose secrets
  it was proved against, and no two have claimed the same opening, as long as no device that has a
  token is paired by a secret. Such a device is never gated (`paired_outside_window`).
-/

namespace Portty

open Handshake Run ServerHandshake

variable {C : Crypto}

/-- The handshake that `accept_loop` builds. -/
def acceptHandshake (deviceId : DeviceId) (displayName : String) (store : PeerStore)
    (snapshot : PairingSnapshot) (device : DeviceId) (nodeId : String) : ServerHandshake :=
  ServerHandshake.withFirstPair
    { deviceId, displayName
      rateLimitKey := nodeId
      resumptionTokens := store.tokens
      graceTokens := store.graceTokens
      authenticatedDevice := some device
      authenticatedDeviceRevoked := (store.revocationMarker device).isSome }
    snapshot

/-- What `accept_loop` asks the store to commit. -/
def commitOf (C : Crypto) (observedToken : Option ResumptionToken)
    (observedRevocation : Option EventId) (r : Finished) : HandshakeCommit :=
  { ticket := none
    token := C.deriveReconnectToken r.session
    resumed := r.resumed
    candidatePairId := (C.derivePairMaterial r.session).1
    candidateEventKey := (C.derivePairMaterial r.session).2
    observedRevocation, observedToken }

/-- The token that the device has shown. -/
def resumedWith (r : Finished) : ResumedWith :=
  if r.previousToken then .previousToken else .currentToken

/-- A successful claim: the number of openings before it, and the state and the time of it. -/
structure Claim where
  opening : Nat
  state : PairingState
  now : Nat

/-- Where the task of a connection is. After the proof it has the result and the first-pair key that
matched, if one did. -/
inductive Phase where
  | handshaking (s : ServerState)
  | proved (r : Finished) (key : Option Bytes)
  | claimed (r : Finished) (key : Option Bytes)
  | committed (r : Finished) (key : Option Bytes)
  | ended

/-- A connection, with what was read of the store when it began. -/
structure Connection where
  device : DeviceId
  handshake : ServerHandshake
  observedToken : Option ResumptionToken
  observedRevocation : Option EventId
  phase : Phase := .handshaking .awaitingHello
  /-- The number of openings and claims before the connection. -/
  born : Nat
  claim : Option Claim := none

/-- The windows, the store and the connections. -/
structure Host where
  deviceId : DeviceId
  displayName : String
  locks : Locks
  store : PeerStore
  connections : List Connection := []
  openings : Nat := 0
  /-- The number of openings and claims. -/
  bumps : Nat := 0

/-- What the connections and the owner do, in any order. -/
inductive HostEvent (C : Crypto) where
  /-- A connection of an authenticated device; `nodeId` is what it is rate limited by. -/
  | accept (device : DeviceId) (nodeId : String) (now : Nat)
  | receive (i : Nat) (entropy : Entropy C) (message : HandshakeMessage)
  /-- The human has answered, and the opportunity is claimed if there is one. -/
  | claim (i : Nat) (now : Nat) (confirmed : Bool)
  | commit (i : Nat)
  /-- The connection ends: a timeout, a limit, a failed call of the store. -/
  | drop (i : Nat)
  /-- Anything else that changes the peer store. -/
  | reload (store : PeerStore)
  | rotate (secrets : List PairingSecret) (now dur : Nat)
  | «open» (now dur : Nat)
  | poison (window limiter : Bool)

namespace Host

variable (σ : Host)

/-- The pairing state, behind its lock. -/
def pairing : PairingState := σ.locks.pairingState.value

/-- The pairing state changes. -/
def withPairing (s : PairingState) : Host := { σ with locks.pairingState.value := s }

/-- The connection number `i` changes. -/
def withConnection (i : Nat) (x : Connection) : Host :=
  { σ with connections := σ.connections.set i x }

/-- What a connection observes when it starts. -/
def newConnection (device : DeviceId) (nodeId : String) (now : Nat) : Connection :=
  { device
    handshake := acceptHandshake σ.deviceId σ.displayName σ.store (σ.pairing.snapshot now) device
      nodeId
    observedToken := σ.store.tokens.lookup device
    observedRevocation := σ.store.revocationMarker device
    born := σ.bumps }

/-- The snapshot is taken with `unwrap`, so a poisoned lock ends the task. -/
def accept (device : DeviceId) (nodeId : String) (now : Nat) : Host :=
  if σ.locks.pairingState.poisoned then σ
  else { σ with connections := σ.connections ++ [σ.newConnection device nodeId now] }

/-- The first-pair key that a proof matches. -/
def matchedKey (C : Crypto) (h : ServerHandshake) : ServerState → HandshakeMessage → Option Bytes
  | .sentChallenge c, .pairingProof proof => h.matchedFirstPair C c ⟨proof⟩
  | _, _ => none

/-- Where the task is after the answer of the handshake. Every refusal ends it. -/
def afterStep (x : Connection) (s' : ServerState) (key : Option Bytes) :
    Except SyncError Outcome → Phase
  | .ok (.send (.pairingFailed _)) => .ended
  | .ok (.send _) => .handshaking s'
  | .ok (.done r) => if r.peerDeviceId = x.device then .proved r key else .ended
  | .ok (.failed _) => .ended
  | .error _ => .ended

/-- A message of a handshake. -/
def receive (i : Nat) (x : Connection) (s : ServerState) (entropy : Entropy C)
    (message : HandshakeMessage) : Host :=
  let (answer, s', locks) := x.handshake.step s σ.locks entropy message
  let phase := afterStep x s' (matchedKey C x.handshake s message) answer
  { σ with locks }.withConnection i { x with phase }

/-- A first pair has to be confirmed, and a proof with an epoch has to claim it. -/
def claim (i : Nat) (x : Connection) (r : Finished) (key : Option Bytes) (now : Nat)
    (confirmed : Bool) : Host :=
  if !r.resumed && !confirmed then σ.withConnection i { x with phase := .ended }
  else
    match r.enrollmentEpoch with
    | none => σ.withConnection i { x with phase := .claimed r key }
    | some epoch =>
      if σ.locks.pairingState.poisoned then σ.withConnection i { x with phase := .ended }
      else
        match σ.pairing.consumeFirstPair now epoch with
        | (false, _) => σ.withConnection i { x with phase := .ended }
        | (true, s) =>
          { σ.withPairing s with bumps := σ.bumps + 1 }.withConnection i
            { x with phase := .claimed r key, claim := some ⟨σ.openings, σ.pairing, now⟩ }

/-- The end of a handshake, under the lock of the store. -/
def commit (C : Crypto) (i : Nat) (x : Connection) (r : Finished) (key : Option Bytes) : Host :=
  match σ.store.hostCommit r.peerDeviceId
      (commitOf C x.observedToken x.observedRevocation r) (resumedWith r) with
  | (.ok _, store) => { σ with store }.withConnection i { x with phase := .committed r key }
  | (.error _, _) => σ.withConnection i { x with phase := .ended }

/-- One event. -/
def step (σ : Host) : HostEvent C → Host
  | .accept device nodeId now => σ.accept device nodeId now
  | .receive i entropy message =>
    match σ.connections[i]? with
    | some x =>
      match x.phase with
      | .handshaking s => σ.receive i x s entropy message
      | _ => σ
    | none => σ
  | .claim i now confirmed =>
    match σ.connections[i]? with
    | some x =>
      match x.phase with
      | .proved r key => σ.claim i x r key now confirmed
      | _ => σ
    | none => σ
  | .commit i =>
    match σ.connections[i]? with
    | some x =>
      match x.phase with
      | .claimed r key => σ.commit C i x r key
      | _ => σ
    | none => σ
  | .drop i =>
    match σ.connections[i]? with
    | some x =>
      match x.phase with
      | .committed _ _ => σ
      | _ => σ.withConnection i { x with phase := .ended }
    | none => σ
  | .reload store => { σ with store }
  | .rotate secrets now dur =>
    { σ.withPairing (σ.pairing.rotate secrets now dur) with
      openings := σ.openings + 1, bumps := σ.bumps + 1 }
  | .open now dur =>
    { σ.withPairing (σ.pairing.open now dur) with
      openings := σ.openings + 1, bumps := σ.bumps + 1 }
  | .poison window limiter =>
    { σ with
      locks.pairingState.poisoned := σ.locks.pairingState.poisoned || window
      locks.rateLimiter.poisoned := σ.locks.rateLimiter.poisoned || limiter }

/-- The event is the proof of an armed secret by a device for which a token is held, which proves
neither that token nor the previous one. -/
def fallsBack (σ : Host) : HostEvent C → Bool
  | .receive i _ (.pairingProof proof) =>
    match σ.connections[i]? with
    | some x =>
      match x.phase with
      | .handshaking (.sentChallenge c) =>
        c.authToken.isSome && !tokenVerified C c ⟨proof⟩ && !graceVerified C c ⟨proof⟩ &&
          x.handshake.pairingSecrets.any fun secret =>
            C.verifyProofWithKey (C.firstPairKey secret) c.nonce c.transcript ⟨proof⟩
      | _ => false
    | none => false
  | _ => false

end Host

/-! ## What every run keeps -/

/-- The window that was claimed was open, and its secrets were those of the handshake. -/
structure Claim.Takes (a : Claim) (h : ServerHandshake) : Prop where
  isOpen : a.state.isOpen a.now = true
  secrets : a.state.secrets = h.pairingSecrets
  unclaimed : ∃ e, h.snapshotEpoch = some e ∧ (a.state.consumeFirstPair a.now e).1 = true

/-- The key is the first-pair key of a secret of the handshake. -/
def ByArmed (C : Crypto) (h : ServerHandshake) (key : Option Bytes) : Prop :=
  ∃ secret ∈ h.pairingSecrets, key = some (C.firstPairKey secret)

/-- A first pair has passed the gate, has a key of an armed secret, and takes its window. -/
def Connection.PhaseOk (C : Crypto) (x : Connection) : Phase → Prop
  | .handshaking (.sentChallenge c) => c.authToken = none →
      ∃ e, c.enrollmentEpoch = some e ∧ x.handshake.snapshotEpoch = some e
  | .handshaking _ | .ended => True
  | .proved r key => r.resumed = false → ByArmed C x.handshake key ∧
      ∃ e, r.enrollmentEpoch = some e ∧ x.handshake.snapshotEpoch = some e
  | .claimed r key | .committed r key => r.resumed = false → ByArmed C x.handshake key ∧
      ∃ a, x.claim = some a ∧ a.Takes x.handshake

/-- The connection is committed as a fresh pair, by the key. -/
def Connection.Enrolled (x : Connection) (key : Option Bytes) : Prop :=
  ∃ r, x.phase = .committed r key ∧ r.resumed = false

namespace Host

/-- The second host is not before the first one. -/
structure Later (σ σ' : Host) : Prop where
  bumps : σ.bumps ≤ σ'.bumps
  secrets : σ'.bumps = σ.bumps → σ'.pairing.secrets = σ.pairing.secrets
  openings : σ.openings ≤ σ'.openings
  closed : σ'.openings = σ.openings → σ.pairing.window.openUntil = none →
    σ'.pairing.window.openUntil = none

/-- What holds of a connection of a host whose window has started with the epoch `e₀`. -/
structure ConnOk (C : Crypto) (e₀ : BitVec 64) (σ : Host) (x : Connection) : Prop where
  windowed : x.handshake.windowed = true
  exempt : x.handshake.enrollmentExemptDevice = none
  born : x.born ≤ σ.bumps
  snapshot : ∀ e, x.handshake.snapshotEpoch = some e → e = e₀ + BitVec.ofNat 64 x.born
  secrets : x.born = σ.bumps → σ.pairing.secrets = x.handshake.pairingSecrets
  claim : ∀ a, x.claim = some a → a.opening ≤ σ.openings ∧
    (a.opening = σ.openings → σ.pairing.window.openUntil = none)
  phase : x.PhaseOk C x.phase

/-- The epoch counts the openings, and none is claimed twice. -/
structure Inv (C : Crypto) (e₀ : BitVec 64) (σ : Host) : Prop where
  epoch : σ.pairing.window.epoch = e₀ + BitVec.ofNat 64 σ.bumps
  connections : ∀ x ∈ σ.connections, ConnOk C e₀ σ x
  /-- No opening is claimed twice. -/
  unique : ∀ (i j : Nat) (x y : Connection) (a b : Claim), σ.connections[i]? = some x →
    σ.connections[j]? = some y → x.claim = some a → y.claim = some b → a.opening = b.opening → i = j

variable {e₀ : BitVec 64} {σ σ' : Host} {x x' : Connection} {i : Nat}

/-- What a connection knows of a window stays true when the windows go on. -/
theorem ConnOk.later (h : ConnOk C e₀ σ x) (hl : Later σ σ') : ConnOk C e₀ σ' x where
  windowed := h.windowed
  exempt := h.exempt
  born := Nat.le_trans h.born hl.bumps
  snapshot := h.snapshot
  secrets hb := by
    have hb' : σ'.bumps = σ.bumps := by have := h.born; have := hl.bumps; omega
    rw [hl.secrets hb', h.secrets (hb.trans hb')]
  claim a ha := by
    obtain ⟨h₁, h₂⟩ := h.claim a ha
    have := hl.openings
    exact ⟨by omega, fun he => hl.closed (by omega) (h₂ (by omega))⟩
  phase := h.phase

/-- The window keeps its opportunity. -/
theorem Later.of_same (hs : PairingState.SameOpportunity σ.pairing σ'.pairing)
    (hb : σ'.bumps = σ.bumps) (ho : σ'.openings = σ.openings) : Later σ σ' where
  bumps := Nat.le_of_eq hb.symm
  secrets _ := hs.secrets
  openings := Nat.le_of_eq ho.symm
  closed _ hn := hs.openUntil.trans hn

/-- One connection changes, and takes no opening that another has claimed. -/
theorem Inv.set (h : Inv C e₀ σ) (x' : Connection) (hl : Later σ σ')
    (hi : σ.connections[i]? = some x) (hc : σ'.connections = σ.connections.set i x')
    (he : σ'.pairing.window.epoch = e₀ + BitVec.ofNat 64 σ'.bumps) (hx : ConnOk C e₀ σ' x')
    (hu : ∀ (j : Nat) (y : Connection) (a b : Claim), j ≠ i → σ.connections[j]? = some y →
      x'.claim = some a → y.claim = some b → a.opening ≠ b.opening) : Inv C e₀ σ' where
  epoch := he
  connections y hy := by
    rw [hc] at hy
    rcases List.mem_or_eq_of_mem_set hy with hy | rfl
    · exact (h.connections y hy).later hl
    · exact hx
  unique j k y z a b hj hk ha hb hab := by
    have hlt := (List.getElem?_eq_some_iff.mp hi).1
    rw [hc] at hj hk
    by_cases hji : i = j
    · subst hji
      by_cases hki : i = k
      · exact hki
      · rw [List.getElem?_set_self hlt] at hj
        rw [List.getElem?_set_ne hki] at hk
        cases hj
        exact absurd hab (hu k z a b (Ne.symm hki) hk ha hb)
    · rw [List.getElem?_set_ne hji] at hj
      by_cases hki : i = k
      · subst hki
        rw [List.getElem?_set_self hlt] at hk
        cases hk
        exact absurd hab.symm (hu j y b a (Ne.symm hji) hj hb ha)
      · rw [List.getElem?_set_ne hki] at hk
        exact h.unique j k y z a b hj hk ha hb hab

/-- No connection changes. -/
theorem Inv.later (h : Inv C e₀ σ) (hl : Later σ σ') (hc : σ'.connections = σ.connections)
    (he : σ'.pairing.window.epoch = e₀ + BitVec.ofNat 64 σ'.bumps) : Inv C e₀ σ' where
  epoch := he
  connections x hx := (h.connections x (hc ▸ hx)).later hl
  unique := hc ▸ h.unique

/-- The connection keeps its claim. -/
theorem Inv.set_same_claim (h : Inv C e₀ σ) (hi : σ.connections[i]? = some x)
    (hc : σ'.connections = σ.connections.set i x') (hcl : x'.claim = x.claim)
    (hs : PairingState.SameOpportunity σ.pairing σ'.pairing) (hb : σ'.bumps = σ.bumps)
    (ho : σ'.openings = σ.openings) (hx : ConnOk C e₀ σ x → ConnOk C e₀ σ x') : Inv C e₀ σ' := by
  have hl := Later.of_same hs hb ho
  refine h.set x' hl hi hc (by rw [hs.epoch, hb, h.epoch])
    ((hx (h.connections x (List.mem_of_getElem? hi))).later hl) ?_
  intro j y a b hji hj ha hb' hab
  exact hji (h.unique j i y x b a hj hi hb' (hcl ▸ ha) hab.symm)

/-! ## One step -/

theorem ConnOk.withPhase (h : ConnOk C e₀ σ x) {phase : Phase} (hp : x.PhaseOk C phase) :
    ConnOk C e₀ σ { x with phase } :=
  ⟨h.windowed, h.exempt, h.born, h.snapshot, h.secrets, h.claim, hp⟩

/-- Only the phase of one connection changes. -/
theorem inv_withPhase (h : Inv C e₀ σ) (hi : σ.connections[i]? = some x) {phase : Phase}
    (hp : ConnOk C e₀ σ x → x.PhaseOk C phase) :
    Inv C e₀ (σ.withConnection i { x with phase }) :=
  h.set_same_claim hi rfl rfl (.refl _) rfl rfl fun hx => hx.withPhase (hp hx)

/-- The phase after a message, unless a device with a token proves a secret. -/
theorem phaseOk_afterStep (hx : ConnOk C e₀ σ x) {s : ServerState} (hph : x.phase = .handshaking s)
    (entropy : Entropy C) (m : HandshakeMessage)
    (hf : ∀ c proof, s = .sentChallenge c → m = .pairingProof proof →
      tokenVerified C c ⟨proof⟩ = false → graceVerified C c ⟨proof⟩ = false →
      (x.handshake.matchedFirstPair C c ⟨proof⟩).isSome = true → c.authToken = none) :
    x.PhaseOk C (afterStep x (x.handshake.step s σ.locks entropy m).2.1
      (matchedKey C x.handshake s m) (x.handshake.step s σ.locks entropy m).1) := by
  rcases x.handshake.step_cases s σ.locks entropy m with
    ⟨device, version, name, eph, rfl, rfl, hr⟩ | ⟨c, proof, rfl, rfl, hr⟩ | hr
  · rw [hr]
    rcases x.handshake.stepHello_cases σ.locks entropy device version name eph with
      ⟨reason, locks, hh⟩ | ⟨locks, hh⟩ | ⟨-, epoch, locks₁, _, ecdh, key, he, -, -, -, hh⟩
    · rw [hh]; trivial
    · rw [hh]; trivial
    · rw [hh]
      intro hnone
      have hfirst : x.handshake.isFirstPair device = true := by
        rw [isFirstPair]; exact Option.isNone_iff_eq_none.mpr hnone
      obtain ⟨e, rfl⟩ := enroll_firstPair he hx.windowed hfirst (by simp [hx.exempt])
      rcases x.handshake.enroll_cases σ.locks entropy.now device with ⟨-, hn⟩ | ⟨-, -, hg⟩
      · exact absurd (by rw [he]) (hn e)
      · exact ⟨e, rfl, (PairingState.gateFirstPair_eq_allow (hg e (by rw [he]))).1⟩
  · rw [hr]
    rcases x.handshake.stepProof_cases C c σ.locks proof with ⟨r, hp⟩ | ⟨reason, hp⟩
    · obtain ⟨hv, rfl⟩ := stepProof_done (r := r) (by rw [hp])
      rw [hp]
      simp only [afterStep]
      split
      · intro hres
        obtain ⟨ht, hg⟩ := Bool.or_eq_false_iff.mp hres
        have hm : (x.handshake.matchedFirstPair C c ⟨proof⟩).isSome = true := by
          simpa [verified, ht, hg] using hv
        have hauth := hf c proof rfl rfl ht hg hm
        obtain ⟨key, hkey⟩ := Option.isSome_iff_exists.mp hm
        obtain ⟨secret, hs, hk, -⟩ := firstPairKey_of_matched hkey
        have hphase := hx.phase
        rw [hph] at hphase
        obtain ⟨e, he, hsnap⟩ := hphase hauth
        refine ⟨⟨secret, hs, by rw [matchedKey, hkey, hk]⟩, e, ?_, hsnap⟩
        simp [finished, hauth, he]
      · trivial
    · rw [hp]; trivial
  · rw [hr]; trivial

/-- A message, unless it falls back to a fresh pairing. -/
theorem inv_receive (h : Inv C e₀ σ) (entropy : Entropy C) (m : HandshakeMessage)
    (hf : σ.fallsBack (.receive i entropy m) = false) :
    Inv C e₀ (σ.step (.receive i entropy m)) := by
  simp only [step]
  cases hi : σ.connections[i]? with
  | none => exact h
  | some x =>
    dsimp only
    cases hph : x.phase with
    | handshaking s =>
      refine h.set_same_claim hi rfl rfl (x.handshake.step_sameOpportunity s σ.locks entropy m) rfl
        rfl fun hx => hx.withPhase (phaseOk_afterStep hx hph entropy m ?_)
      rintro c proof rfl rfl ht hg hm
      obtain ⟨key, hkey⟩ := Option.isSome_iff_exists.mp hm
      obtain ⟨secret, hs, rfl, hv⟩ := firstPairKey_of_matched hkey
      simp only [fallsBack, hi, hph, ht, hg, Bool.not_false, Bool.and_true,
        Bool.and_eq_false_iff] at hf
      rcases hf with hf | hf
      · simpa using hf
      · exact absurd hv (by simpa using List.any_eq_false.mp hf secret hs)
    | _ => exact h

/-- Two counters below `2^64` that give the same epoch are equal. -/
theorem eq_of_epoch (e₀ : BitVec 64) {m n : Nat} (hm : m < 2 ^ 64) (hn : n < 2 ^ 64)
    (h : e₀ + BitVec.ofNat 64 m = e₀ + BitVec.ofNat 64 n) : m = n := by
  have h' := congrArg BitVec.toNat ((BitVec.add_right_inj e₀).mp h)
  rwa [BitVec.toNat_ofNat, BitVec.toNat_ofNat, Nat.mod_eq_of_lt hm, Nat.mod_eq_of_lt hn] at h'

/-- A successful claim takes the window of the connection's own snapshot. -/
theorem takes_of_consume (h : Inv C e₀ σ) (hx : ConnOk C e₀ σ x) (hb : σ.bumps < 2 ^ 64)
    {e : BitVec 64} {now : Nat} (hs : x.handshake.snapshotEpoch = some e)
    (hc : (σ.pairing.consumeFirstPair now e).1 = true) :
    Claim.Takes ⟨σ.openings, σ.pairing, now⟩ x.handshake := by
  obtain ⟨hopen, he⟩ := PairingState.consumeFirstPair_eq_true hc
  have hborn : x.born = σ.bumps := by
    refine eq_of_epoch e₀ (Nat.lt_of_le_of_lt hx.born hb) hb ?_
    rw [← hx.snapshot e hs, ← h.epoch, he]
  exact ⟨hopen, hx.secrets hborn, e, hs, hc⟩

/-- Of two connections that saw the same opening only one claims it. -/
theorem inv_claim (h : Inv C e₀ σ) (hb : σ.bumps < 2 ^ 64) (now : Nat) (confirmed : Bool) :
    Inv C e₀ (σ.step (C := C) (.claim i now confirmed)) := by
  simp only [step]
  cases hi : σ.connections[i]? with
  | none => exact h
  | some x =>
    have hx := h.connections x (List.mem_of_getElem? hi)
    dsimp only
    cases hph : x.phase with
    | proved r key =>
      have hproved := hx.phase
      rw [hph] at hproved
      simp only [claim]
      split
      · exact inv_withPhase h hi fun _ => trivial
      cases hepoch : r.enrollmentEpoch with
      | none =>
        refine inv_withPhase h hi fun _ hres => ?_
        obtain ⟨-, e, he, -⟩ := hproved hres
        exact nomatch hepoch.symm.trans he
      | some e =>
        dsimp only
        split
        · exact inv_withPhase h hi fun _ => trivial
        split
        · exact inv_withPhase h hi fun _ => trivial
        rename_i s hcons
        have hc : (σ.pairing.consumeFirstPair now e).1 = true := by rw [hcons]
        obtain ⟨hopen, -⟩ := PairingState.consumeFirstPair_eq_true hc
        have hstep : σ.pairing.step now (.consume e) = s := by rw [PairingState.step, hcons]
        have hclosed : s.window.openUntil = none := by
          rw [← hstep]; exact PairingState.openUntil_of_claims hc
        refine h.set
          { x with phase := .claimed r key, claim := some ⟨σ.openings, σ.pairing, now⟩ }
          ⟨Nat.le_succ _, fun hn => absurd hn (Nat.succ_ne_self _), Nat.le_refl _,
            fun _ _ => hclosed⟩
          hi rfl ?_ ⟨hx.windowed, hx.exempt, Nat.le_succ_of_le hx.born, hx.snapshot, ?_, ?_, ?_⟩ ?_
        · show s.window.epoch = _
          have := PairingState.step_epoch σ.pairing now (.consume e)
          rw [hstep, PairingState.claims, hc, h.epoch] at this
          rw [this]
          show _ = e₀ + BitVec.ofNat 64 (σ.bumps + 1)
          rw [BitVec.ofNat_add, ← BitVec.add_assoc]
          rfl
        · intro hn
          have := hx.born
          exact absurd hn (by show x.born ≠ σ.bumps + 1; omega)
        · rintro a ⟨⟩
          exact ⟨Nat.le_refl _, fun _ => hclosed⟩
        · intro hres
          obtain ⟨harmed, e', he', hsnap⟩ := hproved hres
          obtain rfl : e = e' := Option.some.inj (hepoch.symm.trans he')
          exact ⟨harmed, _, rfl, takes_of_consume h hx hb hsnap hc⟩
        · rintro j y a b hji hj ⟨⟩ hyb hab
          obtain ⟨-, hyc⟩ := (h.connections y (List.mem_of_getElem? hj)).claim b hyb
          have hnone := hyc hab.symm
          rw [PairingState.isOpen, EnrollmentWindow.isOpen, hnone] at hopen
          cases hopen
    | _ => exact h

/-- A commit touches no window. -/
theorem inv_commit (h : Inv C e₀ σ) : Inv C e₀ (σ.step (C := C) (.commit i)) := by
  simp only [step]
  cases hi : σ.connections[i]? with
  | none => exact h
  | some x =>
    dsimp only
    cases hph : x.phase with
    | claimed r key =>
      simp only [commit]
      split
      · refine h.set_same_claim hi rfl rfl (.refl _) rfl rfl fun hx => hx.withPhase ?_
        have hphase := hx.phase
        rwa [hph] at hphase
      · exact inv_withPhase h hi fun _ => trivial
    | _ => exact h

/-- A new connection has claimed nothing. -/
theorem inv_accept (h : Inv C e₀ σ) (device : DeviceId) (nodeId : String) (now : Nat) :
    Inv C e₀ (σ.accept device nodeId now) := by
  unfold accept
  split
  · exact h
  refine ⟨h.epoch, fun x hx => ?_, fun i j x y a b hi hj ha hb hab => ?_⟩
  · rcases List.mem_append.mp hx with hx | hx
    · exact (h.connections x hx).later ⟨Nat.le_refl _, fun _ => rfl, Nat.le_refl _, fun _ => id⟩
    · obtain rfl := List.mem_singleton.mp hx
      refine ⟨rfl, rfl, Nat.le_refl _, fun e he => ?_, fun _ => rfl, nofun, trivial⟩
      have he' : σ.pairing.window.currentEpoch now = some e := he
      rw [EnrollmentWindow.currentEpoch] at he'
      split at he'
      · rw [← Option.some.inj he']; exact h.epoch
      · cases he'
  · -- the new connection has no claim
    have hold : ∀ (k : Nat) (z : Connection) (c : Claim),
        (σ.connections ++ [σ.newConnection device nodeId now])[k]? = some z →
          z.claim = some c → σ.connections[k]? = some z := by
      intro k z c hk hc
      by_cases hlt : k < σ.connections.length
      · rwa [List.getElem?_append_left hlt] at hk
      · rw [List.getElem?_append_right (Nat.le_of_not_lt hlt)] at hk
        obtain rfl := List.mem_singleton.mp (List.mem_of_getElem? hk)
        cases hc
    exact h.unique i j x y a b (hold i x a hi ha) (hold j y b hj hb) ha hb hab

/-- An opening starts a new opportunity. -/
theorem inv_opens (h : Inv C e₀ σ) (s : PairingState)
    (hs : s.window.epoch = σ.pairing.window.epoch + 1) :
    Inv C e₀ { σ.withPairing s with openings := σ.openings + 1, bumps := σ.bumps + 1 } := by
  refine h.later ⟨Nat.le_succ _, fun hn => absurd hn (Nat.succ_ne_self _), Nat.le_succ _,
    fun hn => absurd hn (Nat.succ_ne_self _)⟩ rfl ?_
  show s.window.epoch = e₀ + BitVec.ofNat 64 (σ.bumps + 1)
  rw [hs, h.epoch, BitVec.ofNat_add, ← BitVec.add_assoc]
  rfl

/-- One event. No epoch comes round, and nothing falls back. -/
theorem inv_step (h : Inv C e₀ σ) (hb : σ.bumps < 2 ^ 64) {ev : HostEvent C}
    (hf : σ.fallsBack ev = false) : Inv C e₀ (σ.step ev) := by
  cases ev with
  | accept device nodeId now => exact inv_accept h device nodeId now
  | receive i entropy m => exact inv_receive h entropy m hf
  | claim i now confirmed => exact inv_claim h hb now confirmed
  | commit i => exact inv_commit h
  | drop i =>
    simp only [step]
    cases hi : σ.connections[i]? with
    | none => exact h
    | some x =>
      dsimp only
      cases hph : x.phase with
      | committed r key => exact h
      | _ => exact inv_withPhase h hi fun _ => trivial
  | reload store => exact h.later (.of_same (.refl _) rfl rfl) rfl h.epoch
  | rotate secrets now dur => exact inv_opens h _ rfl
  | «open» now dur => exact inv_opens h _ rfl
  | poison window limiter => exact h.later (.of_same (.refl _) rfl rfl) rfl h.epoch

theorem bumps_commit (σ : Host) (i : Nat) (x : Connection) (r : Finished) (key : Option Bytes) :
    (σ.commit C i x r key).bumps = σ.bumps := by
  unfold commit
  split <;> rfl

theorem bumps_le_claim (σ : Host) (i : Nat) (x : Connection) (r : Finished) (key : Option Bytes)
    (now : Nat) (confirmed : Bool) : σ.bumps ≤ (σ.claim i x r key now confirmed).bumps := by
  unfold claim
  split
  · exact Nat.le_refl _
  split
  · exact Nat.le_refl _
  split
  · exact Nat.le_refl _
  split
  · exact Nat.le_refl _
  · exact Nat.le_succ _

/-- The number of openings and claims does not shrink. -/
theorem bumps_le_step (σ : Host) (ev : HostEvent C) : σ.bumps ≤ (σ.step ev).bumps := by
  cases ev with
  | accept device nodeId now => simp only [step, accept]; split <;> exact Nat.le_refl _
  | rotate secrets now dur => exact Nat.le_succ _
  | «open» now dur => exact Nat.le_succ _
  | reload store => exact Nat.le_refl _
  | poison window limiter => exact Nat.le_refl _
  | receive i entropy message =>
    simp only [step]
    split
    · split <;> exact Nat.le_refl _
    · exact Nat.le_refl _
  | claim i now confirmed =>
    simp only [step]
    split
    · split
      · exact bumps_le_claim σ i _ _ _ now confirmed
      · exact Nat.le_refl _
    · exact Nat.le_refl _
  | commit i =>
    simp only [step]
    split
    · split
      · exact (bumps_commit σ i _ _ _).ge
      · exact Nat.le_refl _
    · exact Nat.le_refl _
  | drop i =>
    simp only [step]
    split
    · split <;> exact Nat.le_refl _
    · exact Nat.le_refl _

theorem bumps_le_run (σ : Host) (evs : List (HostEvent C)) : σ.bumps ≤ (run step σ evs).bumps :=
  run_induction (I := fun _ (σ' : Host) => σ.bumps ≤ σ'.bumps) (Nat.le_refl _)
    fun _ ev _ _ h => Nat.le_trans h (bumps_le_step _ ev)

/-- A host that has no connection yet. -/
def boot (deviceId : DeviceId) (displayName : String) (locks : Locks) (store : PeerStore) : Host :=
  { deviceId, displayName, locks, store }

theorem inv_boot (C : Crypto) (deviceId : DeviceId) (displayName : String) (locks : Locks)
    (store : PeerStore) :
    Inv C locks.pairingState.value.window.epoch (boot deviceId displayName locks store) where
  epoch := by simp [boot, pairing]
  connections x hx := by cases hx
  unique i j x y a b hi := by simp [boot] at hi

theorem inv_run (h : Inv C e₀ σ) {evs : List (HostEvent C)} (hf : count step fallsBack σ evs = 0)
    (hb : (run step σ evs).bumps < 2 ^ 64) : Inv C e₀ (run step σ evs) := by
  refine run_induction (I := fun _ => Inv C e₀) h fun pre ev post he hpre => ?_
  refine inv_step hpre (Nat.lt_of_le_of_lt ?_ hb) (of_count_eq_zero hf he)
  rw [he, run_append]
  exact bumps_le_run _ _

/-- In every run in which no device with a token is paired by a secret, with fewer than `2^64`
openings and claims: a fresh pair that is committed was proved against a secret of the window that
its connection has claimed, which was open and not claimed before; and no other fresh pair has
claimed the same opening. -/
theorem one_device_per_opening (deviceId : DeviceId) (displayName : String) (locks : Locks)
    (store : PeerStore) (evs : List (HostEvent C))
    (hf : count step fallsBack (boot deviceId displayName locks store) evs = 0)
    (hb : (run step (boot deviceId displayName locks store) evs).bumps < 2 ^ 64) (σ : Host)
    (hσ : σ = run step (boot deviceId displayName locks store) evs) (i : Nat) (x : Connection)
    (key : Option Bytes) (hi : σ.connections[i]? = some x) (hx : x.Enrolled key) :
    ∃ a, x.claim = some a ∧ a.state.isOpen a.now = true ∧
      (∃ e, (a.state.consumeFirstPair a.now e).1 = true) ∧
      (∃ secret ∈ a.state.secrets, key = some (C.firstPairKey secret)) ∧
      ∀ (j : Nat) (y : Connection) (key' : Option Bytes) (b : Claim), σ.connections[j]? = some y →
        y.Enrolled key' → y.claim = some b → b.opening = a.opening → j = i := by
  have h := inv_run (inv_boot C deviceId displayName locks store) hf hb
  rw [← hσ] at h
  obtain ⟨r, hph, hres⟩ := hx
  have hphase := (h.connections x (List.mem_of_getElem? hi)).phase
  rw [hph] at hphase
  obtain ⟨⟨secret, hs, hk⟩, a, ha, htakes⟩ := hphase hres
  obtain ⟨e, -, he⟩ := htakes.unclaimed
  refine ⟨a, ha, htakes.isOpen, ⟨e, he⟩, ⟨secret, htakes.secrets ▸ hs, hk⟩, ?_⟩
  intro j y key' b hj _ hb' hab
  exact h.unique j i y x b a hj hi hb' ha hab

section Runs

/-- A host with one armed secret and a closed window, that holds a token for a device or not. -/
def hostWith (token : Option ResumptionToken) : Host :=
  boot ⟨1⟩ "host" ⟨⟨{}, false⟩, ⟨.new [.ticket 8], false⟩⟩
    { map := match token with
        | some token => (∅ : FMap DeviceId PeerRecord).insert ⟨2⟩ ⟨none, token⟩
        | none => ∅
      pairState := ∅, revocations := ∅, grace := ∅, lastConnected := none }

/-- The device proves the secret, and is confirmed and committed. -/
def pairRun : List (HostEvent Crypto.affine) :=
  [.accept ⟨2⟩ "node" 1,
    .receive 0 ⟨1, 1, ⟨7⟩, (4 : BitVec 256)⟩ (.hello ⟨2⟩ protocolVersion "phone" 3),
    .receive 0 ⟨1, 1, ⟨7⟩, (4 : BitVec 256)⟩ (.pairingProof (Crypto.affine.proofFromKey
      (Crypto.affine.firstPairKey (.ticket 8)) ⟨7⟩ (buildTranscript 3 4)).bytes),
    .claim 0 2 true,
    .commit 0]

/-- The first connection is committed as a fresh pair, and has a claim or not. -/
def enrolledFirst (σ : Host) (claimed : Bool) : Bool :=
  σ.connections[0]?.any fun x =>
    match x.phase with
    | .committed r _ => !r.resumed && x.claim.isSome == claimed
    | _ => false

theorem exists_of_enrolledFirst {claimed : Bool} (h : σ.enrolledFirst claimed = true) :
    ∃ x key, σ.connections[0]? = some x ∧ x.Enrolled key ∧ x.claim.isSome = claimed := by
  obtain ⟨x, hx, h⟩ := (Option.any_eq_true _ _).mp h
  split at h
  · rename_i r key hph
    simp only [Bool.and_eq_true, Bool.not_eq_true', beq_iff_eq] at h
    exact ⟨x, key, hx, ⟨r, hph, h.1⟩, h.2⟩
  · cases h

/-- A device without a token pairs in the open window. -/
theorem one_device_per_opening_first_pair :
    ∃ x key a, (run step (hostWith none) (.open 0 enrollmentWindow :: pairRun)).connections[0]? =
        some x ∧ x.Enrolled key ∧ x.claim = some a ∧ a.state.isOpen a.now = true := by
  obtain ⟨x, key, hx, hen, -⟩ := exists_of_enrolledFirst (by decide +kernel :
    enrolledFirst (run step (hostWith none) (.open 0 enrollmentWindow :: pairRun)) true = true)
  obtain ⟨a, ha, hopen, -⟩ := one_device_per_opening ⟨1⟩ "host" _ _
    (.open 0 enrollmentWindow :: pairRun) (by decide +kernel) (by decide +kernel) _ rfl 0 x key hx
    hen
  exact ⟨x, key, a, hx, hen, ha, hopen⟩

/-- A device with a token pairs by the secret although the window was never open, and claims
nothing. -/
theorem paired_outside_window :
    ∃ x key, (run step (hostWith (some ⟨5⟩)) pairRun).connections[0]? = some x ∧
      x.Enrolled key ∧ x.claim = none ∧
      (run step (hostWith (some ⟨5⟩)) pairRun).openings = 0 ∧
      (hostWith (some ⟨5⟩)).pairing.window.openUntil = none := by
  obtain ⟨x, key, hx, hen, hc⟩ := exists_of_enrolledFirst (by decide +kernel :
    enrolledFirst (run step (hostWith (some ⟨5⟩)) pairRun) false = true)
  exact ⟨x, key, hx, hen, by simpa using hc, by decide +kernel, rfl⟩

end Runs

end Host

end Portty
