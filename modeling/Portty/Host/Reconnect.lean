import Mathlib.Data.List.Chain
import Portty.Host.Accept
import Portty.Lib.Rotation

/-!
# Reconnects of one phone

For every connection the host loads its peer store again, runs the handshake with `tokens` and
`grace_tokens`, and commits through `commit_host_handshake`. The phone shows the credential it has,
and saves the new token or misses it. No call of the store fails.

The host's tokens for the device rotate as `Rotation.State` does (`reconnect_refines`), so a phone
that does not miss two rotations in a row is always accepted, the host accepts the last two tokens
at most, and the previous token is used up by the reconnect that shows it
(`grace_heals_one_rotation`). A device that has a token has no enrollment opportunity to claim.
-/

namespace Portty

open Records Handshake ServerHandshake PeerStore Run

variable {C : Crypto} {B : Type} [Postcard B]

/-- The phone, and the host with its records. -/
structure World (B : Type) where
  hostId : DeviceId
  hostName : String
  device : DeviceId
  deviceName : String
  nodeId : String
  locks : Locks
  disk : Disk RecordName B
  /-- The token that the phone has. -/
  phone : ResumptionToken
  /-- Every token that was the device's current one, the last one first (ghost). -/
  history : List ResumptionToken

/-- One connection: the readings of both sides, what the host has armed, what the human says if
asked and when the opportunity is claimed if there is one, and whether the phone saves its new
token. -/
structure Reconnect (C : Crypto) where
  eph : C.Scalar
  entropy₁ : Entropy C
  entropy₂ : Entropy C
  snapshot : PairingSnapshot
  confirmed : Bool
  claimTime : Nat
  saved : Bool

namespace World

variable (w : World B) (x : Reconnect C) (credential : ClientCredential)

/-- The store that the records decode to. -/
def load : Except IoError PeerStore := ((loadFrom (B := B)).exec [] w.disk).1

/-- The handshake of the host that has loaded `s`. -/
def handshake (s : PeerStore) (snapshot : PairingSnapshot) : ServerHandshake :=
  acceptHandshake w.hostId w.hostName s snapshot w.device w.nodeId

/-- The locks after the Hello of the phone. -/
def helloLocks (s : PeerStore) : Locks :=
  ((w.handshake s x.snapshot).step .awaitingHello w.locks x.entropy₁
    ((ClientHandshake.withCredential w.device w.deviceName credential).start x.eph).1).2.2

/-- The messages up to the proof, if it is accepted. -/
def attempt (s : PeerStore) : Option (Finished × ClientHandshake C) :=
  exchange (.withCredential w.device w.deviceName credential) x.eph (w.handshake s x.snapshot)
    w.locks x.entropy₁ (w.helloLocks x credential s) x.entropy₂

/-- A first pair has to be confirmed, and a proof with an epoch has to claim it. -/
def claim (r : Finished) (locks : Locks) : Option Locks :=
  if !r.resumed && !x.confirmed then none
  else
    match r.enrollmentEpoch with
    | none => some locks
    | some epoch =>
      if locks.pairingState.poisoned then none
      else
        match locks.pairingState.value.consumeFirstPair x.claimTime epoch with
        | (false, _) => none
        | (true, s) => some { locks with pairingState.value := s }

/-- The token that the phone derives when it is told that the host has committed. -/
def newToken (client : ClientHandshake C) : ResumptionToken :=
  match (client.step (.pairingOk w.hostId w.hostName)).1 with
  | .ok (.done r) => C.deriveReconnectToken r.session
  | _ => w.phone

/-- What the host commits. -/
def commitment (s : PeerStore) (r : Finished) : HandshakeCommit :=
  commitOf C (s.tokens.lookup w.device) (s.revocationMarker w.device) r

/-- The commit of the host, on its records. -/
def commitOutcome (s : PeerStore) (r : Finished) :
    (Except IoError PairId × PeerStore) × Disk RecordName B × List (Records.Outcome IoError) :=
  (s.commitHostHandshake r.peerDeviceId (w.commitment (C := C) s r) (resumedWith r)).exec [] w.disk

/-- A connection: the result, if it is committed. -/
def connect : Option Finished × World B :=
  match w.load with
  | .error _ => (none, w)
  | .ok s =>
    match w.attempt x credential s with
    | none => (none, { w with locks := w.helloLocks x credential s })
    | some (r, client) =>
      let locks := (w.handshake s x.snapshot).recordSuccess (w.helloLocks x credential s)
      match claim x r locks with
      | none => (none, { w with locks })
      | some locks =>
        match w.commitOutcome (C := C) s r with
        | ((.error _, _), disk, _) => (none, { w with locks, disk })
        | ((.ok _, _), disk, _) => (some r,
            { w with
              locks, disk
              phone := if x.saved then w.newToken client else w.phone
              history := C.deriveReconnectToken r.session :: w.history })

/-- The phone shows the token that it has. -/
def reconnect : Option Finished × World B := w.connect x (.resume w.phone)

/-- What a reconnect leaves. -/
def step (w : World B) (x : Reconnect C) : World B := (w.reconnect x).2

/-- The host would resume the device for the token, in some handshake with it. -/
def Resumes (C : Crypto) (t : ResumptionToken) : Prop :=
  ∃ s name snapshot, ∃ eph : C.Scalar, ∃ locks₁ entropy₁ locks₂ entropy₂ r client,
    w.load = .ok s ∧ exchange (.withCredential w.device name (.resume t)) eph
      (w.handshake s snapshot) locks₁ entropy₁ locks₂ entropy₂ = some (r, client) ∧ r.resumed = true

/-! ## One connection -/

/-- The host's tokens for the device are those of the state. -/
structure Tracks (w : World B) (st : Rotation.State ResumptionToken) : Prop where
  loaded : ∃ s, w.load = .ok s ∧ s.token w.device = some st.current ∧
    s.graceTokens.lookup w.device = st.grace
  history : w.history = st.history
  wf : st.Wf

/-- The limiter knows nothing of the phone. -/
structure Unlimited (w : World B) : Prop where
  poisoned : w.locks.rateLimiter.poisoned = false
  absent : w.locks.rateLimiter.value.perKey.lookup w.nodeId = none

/-- What was shown. -/
def use (r : Finished) : Rotation.Use :=
  if r.previousToken then .previous else if r.resumed then .current else .fresh

variable {w x credential} {s : PeerStore} {r : Finished} {client : ClientHandshake C}
  {st : Rotation.State ResumptionToken}

omit [Postcard B] in
/-- A commit right after the load is not refused. -/
theorem refusal_commitment (hr : r.resumed = true → ∃ t, s.token w.device = some t) :
    s.refusal w.device (w.commitment (C := C) s r) = none := by
  rw [refusal_eq_none_iff]
  cases hres : r.resumed with
  | false => simp [commitment, commitOf, hres]
  | true =>
    obtain ⟨t, ht⟩ := hr hres
    have hmap := ht
    unfold token at hmap
    split at hmap
    · cases hmap
    obtain ⟨entry, he, hte⟩ := Option.map_eq_some_iff.mp hmap
    rw [commitment, commitOf, hres, if_pos rfl, lookup_tokens, ht, tokenIsUnchanged_iff]
    exact ⟨Bool.eq_false_iff.mpr ‹_›, entry, he, by rw [hte]⟩

omit [Postcard B] in
/-- Which token is the previous one after the commit. -/
theorem graceTokens_commitment (hr : r.resumed = true → ∃ t, s.token w.device = some t) :
    (s.hostCommit w.device (w.commitment (C := C) s r) (resumedWith r)).2.graceTokens.lookup
      w.device = match use r with
        | .current => s.token w.device
        | .previous | .fresh => none := by
  have href := refusal_commitment (C := C) hr
  cases hp : r.previousToken with
  | true =>
    have hw : resumedWith r = .previousToken := if_pos hp
    rw [graceTokens_hostCommit_none href (.inr hw), use, if_pos hp]
  | false =>
    cases hres : r.resumed with
    | false => simp [graceTokens_hostCommit_none href (.inl hres), use, hp, hres]
    | true =>
      obtain ⟨t, ht⟩ := hr hres
      have ho : (w.commitment (C := C) s r).observedToken = some t :=
        (lookup_tokens s w.device).trans ht
      have hw : resumedWith r = .currentToken := by simp [resumedWith, hp]
      rw [hw, graceTokens_hostCommit_current href hres ho]
      simp [use, hp, hres, ht]

/-- The commit succeeds, and the records that it leaves are loaded with the new token and the
previous one. -/
theorem commitOutcome_eq (hl : w.load = .ok s) (hd : r.peerDeviceId = w.device)
    (hr : r.resumed = true → ∃ t, s.token w.device = some t) :
    ∃ pairId s₁ disk s', w.commitOutcome (C := C) s r = ((.ok pairId, s₁), disk, []) ∧
      ((loadFrom (B := B)).exec [] disk).1 = .ok s' ∧
      s'.token w.device = some (C.deriveReconnectToken r.session) ∧
      s'.graceTokens.lookup w.device = match use r with
        | .current => s.token w.device
        | .previous | .fresh => none := by
  have href := refusal_commitment (C := C) hr
  obtain ⟨disk, hc, hloaded⟩ := commitHostHandshake_refines s w.device
    (w.commitment (C := C) s r) (resumedWith r) w.disk (loaded_of_loadFrom hl)
  obtain ⟨last, hlast⟩ := loadFrom_of_loaded hloaded
  obtain ⟨pairId, hok⟩ : ∃ pairId,
      (s.hostCommit w.device (w.commitment (C := C) s r) (resumedWith r)).1 = .ok pairId := by
    rw [hostCommit, href]
    cases (w.commitment (C := C) s r).resumed <;> exact ⟨_, rfl⟩
  refine ⟨pairId, (s.hostCommit w.device (w.commitment (C := C) s r) (resumedWith r)).2, disk, _,
    ?_, hlast, token_hostCommit href, graceTokens_commitment hr⟩
  rw [commitOutcome, hd, hc, ← hok]

omit [Postcard B] in
/-- The phone derives the token that the host has committed. -/
theorem newToken_eq (hc : client.state = .sentProof (some r.session)) :
    w.newToken client = C.deriveReconnectToken r.session := by
  unfold newToken ClientHandshake.step
  rw [hc]
  rfl

/-- A connection changes the locks only, or is committed. -/
theorem connect_cases (hdh : C.DhCommutes) (hinj : C.ProofInjective) (x : Reconnect C)
    (credential : ClientCredential) (hl : w.load = .ok s) :
    (∃ locks, w.connect x credential = (none, { w with locks }) ∧
      ∀ r client, w.attempt x credential s = some (r, client) →
        claim x r ((w.handshake s x.snapshot).recordSuccess (w.helloLocks x credential s)) = none) ∨
    ∃ r client w', w.attempt x credential s = some (r, client) ∧
      w.connect x credential = (some r, w') ∧
      claim x r ((w.handshake s x.snapshot).recordSuccess (w.helloLocks x credential s)) =
        some w'.locks ∧
      w'.device = w.device ∧ w'.nodeId = w.nodeId ∧
      w'.phone = (if x.saved then C.deriveReconnectToken r.session else w.phone) ∧
      w'.history = C.deriveReconnectToken r.session :: w.history ∧
      ∃ s', w'.load = .ok s' ∧ s'.token w.device = some (C.deriveReconnectToken r.session) ∧
        s'.graceTokens.lookup w.device = match use r with
          | .current => s.token w.device
          | .previous | .fresh => none := by
  unfold connect
  rw [hl]
  dsimp only
  cases ha : w.attempt x credential s with
  | none => exact .inl ⟨_, rfl, fun _ _ h => absurd h (Option.some_ne_none _).symm⟩
  | some y =>
    obtain ⟨r, client⟩ := y
    dsimp only
    cases hcl : claim x r ((w.handshake s x.snapshot).recordSuccess
        (w.helloLocks x credential s)) with
    | none => exact .inl ⟨_, rfl, fun _ _ h => by cases h; exact hcl⟩
    | some locks =>
      obtain ⟨hd, hstate⟩ := exchange_session hdh hinj ha
      obtain ⟨pairId, s₁, disk, s', hc, hload⟩ := commitOutcome_eq (C := C) hl hd fun hr => by
        obtain ⟨t, ht⟩ := lookup_of_resumed hdh ha hr
        exact ⟨t, (lookup_tokens s w.device).symm.trans ht⟩
      refine .inr ⟨r, client,
        { w with
          locks, disk
          phone := if x.saved then C.deriveReconnectToken r.session else w.phone
          history := C.deriveReconnectToken r.session :: w.history },
        rfl, ?_, hcl, rfl, rfl, rfl, rfl, s', hload⟩
      dsimp only
      rw [hc, newToken_eq hstate]

/-- A fresh pair starts with its own token, and no previous one. -/
theorem connect_fresh (hdh : C.DhCommutes) (hinj : C.ProofInjective) {w' : World B}
    (hc : w.connect x credential = (some r, w')) (hr : r.resumed = false) (hs : x.saved = true) :
    w'.Tracks ⟨w'.phone, none, w'.history⟩ := by
  cases hl : w.load with
  | error e => simp [connect, hl] at hc
  | ok s =>
    rcases connect_cases hdh hinj x credential hl with
      ⟨locks, hn, -⟩ | ⟨r', client, w'', -, hk, -, hd, -, hphone, hhistory, s', hload, ht, hg⟩
    · cases hn.symm.trans hc
    · cases hk.symm.trans hc
      rw [hs, if_pos rfl] at hphone
      refine ⟨⟨s', hload, ?_, ?_⟩, rfl, ?_, nofun⟩
      · rw [hd, ht, hphone]
      · rw [hd, hg, use, hr]
        cases r.previousToken <;> rfl
      · rw [hhistory, hphone]
        rfl

/-- A reconnect that is not committed changes nothing of the tokens. One that is rotates them: by
the current token or the previous one, if the phone has been resumed. -/
theorem reconnect_refines (hdh : C.DhCommutes) (hinj : C.ProofInjective) (x : Reconnect C)
    (ht : w.Tracks st) :
    ((w.reconnect x).1 = none ∧ (w.step x).Tracks st ∧ (w.step x).phone = w.phone) ∨
    ∃ r, (w.reconnect x).1 = some r ∧
      (w.step x).Tracks (st.rotate (use r) (C.deriveReconnectToken r.session)) ∧
      (w.step x).phone = (if x.saved then C.deriveReconnectToken r.session else w.phone) ∧
      (use r = .current → w.phone = st.current) ∧
      (use r = .previous → st.grace = some w.phone ∧ w.phone ≠ st.current) := by
  obtain ⟨⟨s, hl, hcur, hgr⟩, hhist, hwf⟩ := ht
  rw [step, reconnect]
  rcases connect_cases hdh hinj x (.resume w.phone) hl with
    ⟨locks, hn, -⟩ | ⟨r, client, w', ha, hk, -, hd, -, hphone, hhistory, s', hload, ht', hg⟩
  · rw [hn]
    exact .inl ⟨rfl, ⟨⟨s, hl, hcur, hgr⟩, hhist, hwf⟩, rfl⟩
  · have hlookup : (w.handshake s x.snapshot).resumptionTokens.lookup w.device =
        some st.current := (lookup_tokens s w.device).trans hcur
    obtain ⟨hprev, hres⟩ := exchange_resume hdh hinj ha
    rw [hk]
    refine .inr ⟨r, rfl, ⟨⟨s', hload, ?_, ?_⟩, ?_, hwf.rotate _ _⟩, hphone, fun hu => ?_,
      fun hu => ?_⟩
    · rw [hd, ht']
      rfl
    · rw [hd, hg, hcur]
      cases use r <;> rfl
    · rw [hhistory, hhist]
      rfl
    · unfold use at hu
      split at hu
      · cases hu
      split at hu
      · have := hres (Bool.eq_false_iff.mpr ‹_›) ‹_›
        exact Option.some.inj (this.symm.trans hlookup)
      · cases hu
    · unfold use at hu
      split at hu
      · obtain ⟨hg', hne⟩ := hprev ‹_›
        exact ⟨hgr.symm.trans hg', fun h => hne (by rw [hlookup, h])⟩
      · split at hu <;> cases hu

/-- The claim is of the shared window only. -/
theorem claim_rateLimiter {locks locks' : Locks} (hc : claim x r locks = some locks') :
    locks'.rateLimiter = locks.rateLimiter := by
  unfold claim at hc
  split at hc
  · cases hc
  split at hc
  · cases hc
    rfl
  split at hc
  · cases hc
  split at hc <;> cases hc
  rfl

/-- A connection that is committed clears the limiter of the phone. -/
theorem connect_unlimited (hdh : C.DhCommutes) (hinj : C.ProofInjective) {w' : World B}
    (hc : w.connect x credential = (some r, w')) : w'.Unlimited := by
  cases hl : w.load with
  | error e => simp [connect, hl] at hc
  | ok s =>
    rcases connect_cases hdh hinj x credential hl with
      ⟨locks, hn, -⟩ | ⟨r', client, w'', ha, hk, hclaim, -, hnode, -⟩
    · cases hn.symm.trans hc
    · cases hk.symm.trans hc
      have hsound : (w.helloLocks x credential s).rateLimiter.poisoned = false :=
        exchange_poisoned ha
      obtain ⟨hp, hk⟩ := recordSuccess_absent (h := w.handshake s x.snapshot) hsound
      rw [← claim_rateLimiter hclaim] at hp hk
      exact ⟨hp, by rw [hnode]; exact hk⟩

/-- A phone that has a token that is accepted is resumed. -/
theorem reconnect_accepts (hdh : C.DhCommutes) (hinj : C.ProofInjective)
    (hne : C.diffieHellman x.entropy₁.ephemeral (C.publicKey x.eph) ≠ 0) (ht : w.Tracks st)
    (hu : w.Unlimited) (ha : st.Accepts w.phone) :
    ∃ r, (w.reconnect x).1 = some r ∧ r.resumed = true := by
  obtain ⟨s, hl, hcur, hgr⟩ := ht.loaded
  have hlookup : (w.handshake s x.snapshot).resumptionTokens.lookup w.device =
      some st.current := (lookup_tokens s w.device).trans hcur
  obtain ⟨hv, hres⟩ := verified_of_token x.eph x.entropy₁ w.deviceName hlookup
    (ha.imp id hgr.trans)
  obtain ⟨r, client, hattempt, hres⟩ : ∃ r client,
      w.attempt x (.resume w.phone) s = some (r, client) ∧ r.resumed = true :=
    ⟨_, _, (exchange_eq hdh hne (by rintro d ⟨⟩; rfl) hlookup
      (limited_of_absent hu.poisoned hu.absent) hv).1, hres⟩
  have hepoch := enrollmentEpoch_of_lookup hdh hattempt hlookup
  rcases connect_cases hdh hinj x (.resume w.phone) hl with
    ⟨locks, -, hno⟩ | ⟨r', client', w', hattempt', hk, -⟩
  · have := hno r client hattempt
    simp [claim, hres, hepoch] at this
  · cases hattempt.symm.trans hattempt'
    exact ⟨r, by rw [reconnect, hk], hres⟩

/-! ## Runs -/

/-- A phone that has its last token, or saves the next one after it has missed one, is resumed, and
has one of the two after it. -/
theorem step_holds (hdh : C.DhCommutes) (hinj : C.ProofInjective)
    (hne : C.diffieHellman x.entropy₁.ephemeral (C.publicKey x.eph) ≠ 0) (ht : w.Tracks st)
    (hu : w.Unlimited) {missed : Bool} (hh : st.Holds w.phone missed)
    (hm : missed = true → x.saved = true) :
    (∃ r, (w.reconnect x).1 = some r ∧ r.resumed = true) ∧ (w.step x).Unlimited ∧
      ∃ st', (w.step x).Tracks st' ∧ st'.Holds (w.step x).phone !x.saved := by
  obtain ⟨r, hr, hres⟩ := reconnect_accepts hdh hinj hne ht hu hh.accepts
  have hunl : (w.step x).Unlimited := connect_unlimited hdh hinj (Prod.ext hr rfl)
  rcases reconnect_refines hdh hinj x ht with ⟨hn, -⟩ | ⟨r', hr', ht', hphone, -, hprev⟩
  · cases hn.symm.trans hr
  · cases hr.symm.trans hr'
    refine ⟨⟨r, hr, hres⟩, hunl, _, ht', ?_⟩
    cases hs : x.saved with
    | true =>
      rw [hphone, hs, if_pos rfl]
      exact Rotation.State.holds_new _ _ _
    | false =>
      -- the rotation is missed, so the phone had the current token, which is tried first
      obtain rfl : missed = false := by
        cases missed with
        | true => exact absurd (hs.symm.trans (hm rfl)) Bool.false_ne_true
        | false => rfl
      rw [hphone, hs, if_neg Bool.false_ne_true]
      cases hx : use r with
      | current => exact hh.miss _
      | previous => exact absurd hh (hprev hx).2
      | fresh =>
        rw [use, hres] at hx
        split at hx <;> cases hx

/-- The token of one of two reconnects in a row is saved. -/
def OneSaved (a b : Reconnect C) : Prop := a.saved = true ∨ b.saved = true

instance : DecidableRel (OneSaved (C := C)) := fun _ _ => inferInstanceAs (Decidable (_ ∨ _))

theorem OneSaved.next {a b : Reconnect C} (h : OneSaved a b) (hm : (!a.saved) = true) :
    b.saved = true := h.resolve_left (by simpa using hm)

theorem accepted_of_isChain (hdh : C.DhCommutes) (hinj : C.ProofInjective) {xs : List (Reconnect C)}
    (hne : ∀ x ∈ xs, C.diffieHellman x.entropy₁.ephemeral (C.publicKey x.eph) ≠ 0)
    (hx : (x :: xs).IsChain OneSaved) (ht : w.Tracks st) (hu : w.Unlimited)
    (hh : st.Holds w.phone !x.saved) {pre post : List (Reconnect C)} {y : Reconnect C}
    (he : xs = pre ++ y :: post) :
    ∃ r, ((run step w pre).reconnect y).1 = some r ∧ r.resumed = true := by
  induction pre generalizing w st x xs with
  | nil =>
    subst he
    have hm := (List.isChain_cons_cons.mp hx).1
    exact (step_holds hdh hinj (hne y List.mem_cons_self) ht hu hh hm.next).1
  | cons z pre ih =>
    subst he
    obtain ⟨hm, hx⟩ := List.isChain_cons_cons.mp hx
    obtain ⟨-, hu', st', ht', hh'⟩ :=
      step_holds hdh hinj (hne z List.mem_cons_self) ht hu hh hm.next
    exact ih (fun x hx => hne x (List.mem_cons_of_mem _ hx)) hx ht' hu' hh' rfl

theorem tracks_run (hdh : C.DhCommutes) (hinj : C.ProofInjective) (ht : w.Tracks st)
    (xs : List (Reconnect C)) : ∃ st', (run step w xs).Tracks st' := by
  induction xs generalizing w st with
  | nil => exact ⟨st, ht⟩
  | cons x xs ih =>
    rcases reconnect_refines hdh hinj x ht with ⟨-, ht', -⟩ | ⟨r, -, ht', -⟩ <;> exact ih ht'

/-- Only the current token and the previous one are resumed. -/
theorem Tracks.accepts_of_resumes (hdh : C.DhCommutes) (hinj : C.ProofInjective) (ht : w.Tracks st)
    {t : ResumptionToken} (hr : w.Resumes C t) : st.Accepts t := by
  obtain ⟨s, hl, hcur, hgr⟩ := ht.loaded
  obtain ⟨s', _, _, _, _, _, _, _, r, _, hl', he, hres⟩ := hr
  cases hl.symm.trans hl'
  obtain ⟨hprev, hres'⟩ := exchange_resume hdh hinj he
  cases hp : r.previousToken with
  | true => exact .inr (hgr.symm.trans (hprev hp).1)
  | false =>
    have hlookup := (lookup_tokens s w.device).symm.trans (hres' hp hres)
    exact .inl (Option.some.inj (hlookup.symm.trans hcur))

/-- The history only grows. -/
theorem history_suffix_run (hdh : C.DhCommutes) (hinj : C.ProofInjective) (ht : w.Tracks st)
    (xs : List (Reconnect C)) : w.history <:+ (run step w xs).history := by
  induction xs generalizing w st with
  | nil => exact List.suffix_rfl
  | cons x xs ih =>
    rcases reconnect_refines hdh hinj x ht with ⟨-, ht', -⟩ | ⟨r, -, ht', -⟩
    · have := ih ht'
      rwa [ht'.history, ← ht.history] at this
    · have := ih ht'
      rw [ht'.history] at this
      rw [ht.history]
      exact (List.suffix_cons _ _).trans this

/-- A token that is retired stays so, if no token is derived twice. -/
theorem retired_run (hdh : C.DhCommutes) (hinj : C.ProofInjective) (ht : w.Tracks st)
    {t : ResumptionToken} (hr : st.Retired t) {xs : List (Reconnect C)}
    (hn : (run step w xs).history.Nodup) :
    ∃ st', (run step w xs).Tracks st' ∧ st'.Retired t := by
  induction xs generalizing w st with
  | nil => exact ⟨st, ht, hr⟩
  | cons x xs ih =>
    rcases reconnect_refines hdh hinj x ht with ⟨-, ht', -⟩ | ⟨r, -, ht', -⟩
    · exact ih ht' hr hn
    · have hnew : (C.deriveReconnectToken r.session :: st.history).Nodup := by
        have := (history_suffix_run hdh hinj ht' xs).sublist.nodup hn
        rwa [ht'.history] at this
      exact ih ht' (hr.rotate _ (List.nodup_cons.mp hnew).1) hn

/-- A fresh pair whose token the phone saves, and any reconnects after it.

* If of two reconnects in a row one is saved, the phone is resumed at every reconnect.
* The host resumes the device for its current token and the one that was current before it only.
* The token of a reconnect that is committed as one by the previous token is never resumed again, if
  no token is derived twice. -/
theorem grace_heals_one_rotation (hdh : C.DhCommutes) (hinj : C.ProofInjective) (w₀ w : World B)
    (secret : PairingSecret) (x₀ : Reconnect C) (r₀ : Finished)
    (h₀ : w₀.connect x₀ (.firstPair secret) = (some r₀, w)) (hr₀ : r₀.resumed = false)
    (hs₀ : x₀.saved = true) (xs : List (Reconnect C)) :
    ((∀ x ∈ xs, C.diffieHellman x.entropy₁.ephemeral (C.publicKey x.eph) ≠ 0) →
      xs.IsChain OneSaved → ∀ pre x post, xs = pre ++ x :: post →
        ∃ r, ((run step w pre).reconnect x).1 = some r ∧ r.resumed = true) ∧
    (∃ s current, (run step w xs).load = .ok s ∧ s.token (run step w xs).device = some current ∧
      (run step w xs).history.head? = some current) ∧
    (∀ t, (run step w xs).Resumes C t → t ∈ (run step w xs).history.take 2) ∧
    ((run step w xs).history.Nodup → ∀ pre x post r, xs = pre ++ x :: post →
      ((run step w pre).reconnect x).1 = some r → r.previousToken = true →
        ¬ (run step w xs).Resumes C (run step w pre).phone) := by
  have ht := connect_fresh hdh hinj h₀ hr₀ hs₀
  obtain ⟨st, htracks⟩ := tracks_run hdh hinj ht xs
  refine ⟨fun hne hx pre x post he => ?_, ?_, fun t hr => ?_,
    fun hn pre x post r he hr hprev hres => ?_⟩
  · have hx₀ : (x₀ :: xs).IsChain OneSaved := by
      cases xs with
      | nil => exact .singleton x₀
      | cons y ys => exact .cons_cons (.inl hs₀) hx
    refine accepted_of_isChain hdh hinj hne hx₀ ht (connect_unlimited hdh hinj h₀) ?_ he
    rw [hs₀]
    rfl
  · obtain ⟨s, hl, hcur, -⟩ := htracks.loaded
    refine ⟨s, st.current, hl, hcur, ?_⟩
    rw [htracks.history, List.head?_eq_getElem?, htracks.wf.current]
  · rw [htracks.history]
    exact (htracks.accepts_of_resumes hdh hinj hr).mem_take htracks.wf
  · subst he
    obtain ⟨st₁, ht₁⟩ := tracks_run hdh hinj ht pre
    rcases reconnect_refines hdh hinj x ht₁ with ⟨hnone, -⟩ | ⟨r', hr', ht₂, -, -, hgrace⟩
    · cases hnone.symm.trans hr
    · cases hr.symm.trans hr'
      have hu : use r = .previous := if_pos hprev
      rw [run_append, run_cons] at hn hres
      have hnew : (C.deriveReconnectToken r.session :: st₁.history).Nodup := by
        have := (history_suffix_run hdh hinj ht₂ post).sublist.nodup hn
        rwa [ht₂.history] at this
      have hretired : (st₁.rotate .previous (C.deriveReconnectToken r.session)).Retired
          (run step w pre).phone :=
        Rotation.State.retired_of_previous
          (List.mem_of_getElem? (ht₁.wf.grace _ (hgrace hu).1)) (List.nodup_cons.mp hnew).1
      rw [hu] at ht₂
      obtain ⟨st₂, ht₃, hretired⟩ := retired_run hdh hinj ht₂ hretired hn
      exact hretired.2 (ht₃.accepts_of_resumes hdh hinj hres)

/-- A host that has opened its window for one secret, and a phone that has no token. -/
def unpaired : World Blob where
  hostId := ⟨1⟩
  hostName := "host"
  device := ⟨2⟩
  deviceName := "phone"
  nodeId := "node"
  locks := ⟨⟨{}, false⟩, ⟨(PairingState.new [.manual 9]).open 0 (secs 300), false⟩⟩
  disk := Blob.empty
  phone := ⟨0⟩
  history := []

/-- A connection whose random values are from `n`. -/
def nth (n : BitVec 256) (saved : Bool) : Reconnect Crypto.affine where
  eph := n
  entropy₁ := ⟨0, 0, ⟨n⟩, (4 : BitVec 256)⟩
  entropy₂ := ⟨0, 0, ⟨n⟩, (4 : BitVec 256)⟩
  snapshot := ((PairingState.new [.manual 9]).open 0 (secs 300)).snapshot 0
  confirmed := true
  claimTime := 0
  saved

/-- The phone pairs. -/
def firstPair : Option Finished × World Blob :=
  unpaired.connect (nth 7 true) (.firstPair (.manual 9))

/-- The phone misses the first rotation: the next reconnect is by the previous token, which is then
used up. -/
theorem grace_heals_one_rotation_missed_once :
    (∃ r, ((run step firstPair.2 [nth 8 false]).reconnect (nth 9 true)).1 = some r ∧
      r.resumed = true ∧ r.previousToken = true) ∧
    ¬ (run step firstPair.2 [nth 8 false, nth 9 true]).Resumes Crypto.affine firstPair.2.phone := by
  obtain ⟨r₀, h₀, hr₀⟩ := (Option.any_eq_true _ _).mp
    (by decide +kernel : firstPair.1.any (!·.resumed) = true)
  obtain ⟨r, hr, hprev⟩ := (Option.any_eq_true _ _).mp
    (by decide +kernel : ((run step firstPair.2 [nth 8 false]).reconnect (nth 9 true)).1.any
      (·.previousToken) = true)
  have hpair : firstPair = (some r₀, firstPair.2) := by rw [← h₀]
  have hphone : (run step firstPair.2 [nth 8 false]).phone = firstPair.2.phone := by
    decide +kernel
  obtain ⟨haccepted, -, -, hretired⟩ := grace_heals_one_rotation Crypto.affine_dhCommutes
    Crypto.affine_proofInjective unpaired firstPair.2 (.manual 9) (nth 7 true) r₀
    hpair (by simpa using hr₀) rfl [nth 8 false, nth 9 true]
  obtain ⟨r', hr', hres⟩ := haccepted (by decide +kernel) (by decide +kernel) [nth 8 false]
    (nth 9 true) [] rfl
  cases hr.symm.trans hr'
  refine ⟨⟨r, hr, hres, hprev⟩, ?_⟩
  rw [← hphone]
  exact hretired (by decide +kernel) [nth 8 false] (nth 9 true) [] r rfl hr hprev

end World

end Portty
