import Portty.PushRelay.RelayTable

/-!
# Refused registrations of the push relay

`register` makes room for a new key before it looks at the bound of the host and at that of the
token. A request that is refused takes the expired rows out of the table; where the table is full
without them, it takes the oldest tenth of the others too (`Thins`). `refused_registration`: in all
other cases a refusal leaves every live row.
-/

namespace Portty.PushRelay

variable {devices left rows : List Device} {d : Device} {request : RegisterRequest} {now : Nat}

/-- No row is new, and those that are gone had expired. -/
structure OnlyExpired (devices left : List Device) (now : Nat) : Prop where
  sublist : left.Sublist devices
  live : ∀ d ∈ devices, live now d = true → d ∈ left

/-- One of the bounds refuses a new key. -/
def Capped (rows : List Device) (request : RegisterRequest) : Prop :=
  maxDevices ≤ rows.length ∨ maxDevicesPerHost ≤ hostCount rows request.hostPseudonym ∨
    maxPseudonymsPerToken ≤ (pseudonymsForToken rows request.deviceToken request.hostPseudonym).length

/-- The table is full of live rows, and the request of a new key is refused also without the oldest
of them. -/
structure Thins (devices : List Device) (request : RegisterRequest) (now : Nat) : Prop where
  isNew : Rows.find (·.key) (request.hostPseudonym, request.registrationId) devices = none
  full : maxDevices ≤ (devices.filter (live now)).length
  capped : Capped (reclaimRegistrations devices now) request

theorem registerLocked_known
    (h : (Rows.find (·.key) (request.hostPseudonym, request.registrationId) devices).isSome)
    (hs : (registerLocked devices request now).1 ≠ .noContent) :
    (registerLocked devices request now).2 = devices := by
  obtain ⟨d, hd⟩ := Option.isSome_iff_exists.mp h
  unfold registerLocked at hs ⊢
  simp only [hd, Option.isNone_some, Bool.false_and, Bool.false_eq_true, if_false] at hs ⊢
  by_cases htok : maxPseudonymsPerToken ≤
      (pseudonymsForToken devices request.deviceToken request.hostPseudonym).length
  · rw [if_pos htok]
  · rw [if_neg htok] at hs
    exact absurd rfl hs

/-- A new row is refused exactly when a limit is reached, and then nothing changes. -/
theorem registerLocked_new (now : Nat)
    (h : Rows.find (·.key) (request.hostPseudonym, request.registrationId) devices = none) :
    ((registerLocked devices request now).1 ≠ .noContent ↔ Capped (reclaimRegistrations devices now) request) ∧
      (Capped (reclaimRegistrations devices now) request →
        (registerLocked devices request now).2 = reclaimRegistrations devices now) := by
  unfold registerLocked Capped
  simp only [h, Option.isNone_none, Bool.true_and, if_true, Bool.or_eq_true, decide_eq_true_eq]
  by_cases hcap : maxDevices ≤ (reclaimRegistrations devices now).length ∨
      maxDevicesPerHost ≤ hostCount (reclaimRegistrations devices now) request.hostPseudonym
  · rw [if_pos hcap]
    simp only [ne_eq, reduceCtorEq, not_false_eq_true, true_iff, implies_true, and_true]
    grind
  · rw [if_neg hcap]
    by_cases htok : maxPseudonymsPerToken ≤ (pseudonymsForToken (reclaimRegistrations devices now)
        request.deviceToken request.hostPseudonym).length
    · rw [if_pos htok]
      simp [htok]
    · rw [if_neg htok]
      simp only [not_or] at hcap
      simp [hcap.1, hcap.2, htok]

/-- A full table loses a live row. -/
theorem exists_thinned (h : maxDevices ≤ (devices.filter (live now)).length) :
    ∃ d ∈ devices, live now d = true ∧ d ∉ reclaimRegistrations devices now := by
  obtain ⟨d, rest, hsorted⟩ : ∃ d rest,
      (devices.filter (live now)).insertionSort (fun d d' => d.refreshed ≤ d'.refreshed) = d :: rest := by
    refine List.exists_cons_of_ne_nil fun hnil => ?_
    have hlen := List.length_insertionSort (fun d d' : Device => d.refreshed ≤ d'.refreshed) (devices.filter (live now))
    rw [hnil, List.length_nil] at hlen
    rw [← hlen] at h
    exact absurd h (by decide)
  have hmem : d ∈ devices.filter (live now) := by
    rw [← List.mem_insertionSort (fun d d' : Device => d.refreshed ≤ d'.refreshed), hsorted]
    exact List.mem_cons_self
  have hold : d.key ∈ oldest (devices.filter (live now)) := by
    rw [oldest, hsorted, show dropCount = 999 + 1 from rfl, List.take_succ_cons]
    exact List.mem_cons_self
  obtain ⟨hd, hlive⟩ := List.mem_filter.mp hmem
  refine ⟨d, hd, hlive, fun hkept => ?_⟩
  obtain hlt | hnot := (mem_reclaim.mp hkept).2.2
  · omega
  · exact hnot hold

/-- A request that is refused before the lock changes nothing. One that is refused under the lock
leaves every live row, unless it has thinned a full table. -/
theorem refused_registration (c : Config) (w : World) (ip : IpAddr) (headers : Headers)
    (request : RegisterRequest)
    (i now : Nat) :
    (w.step c (.register ip headers request)).devices = w.devices ∧
      (((registerLocked w.devices request now).1 ≠ .noContent →
          OnlyExpired w.devices (w.go i (.register headers request now)).devices now) ↔
        ¬ Thins w.devices request now) := by
  refine ⟨rfl, ?_⟩
  show (_ → OnlyExpired w.devices (registerLocked w.devices request now).2 now) ↔ _
  constructor
  · intro h hthins
    obtain ⟨hstatus, hleft⟩ := registerLocked_new now hthins.isNew
    obtain ⟨d, hd, hlive, hgone⟩ := exists_thinned hthins.full
    refine hgone ?_
    rw [← hleft hthins.capped]
    exact (h (hstatus.mpr hthins.capped)).live d hd hlive
  · intro hnot hs
    cases hf : Rows.find (·.key) (request.hostPseudonym, request.registrationId) w.devices with
    | some d =>
      rw [registerLocked_known (by rw [hf]; rfl) hs]
      exact ⟨List.Sublist.refl _, fun _ hd _ => hd⟩
    | none =>
      obtain ⟨hstatus, hleft⟩ := registerLocked_new now hf
      have hcap := hstatus.mp hs
      have hroom : (w.devices.filter (live now)).length < maxDevices := by
        by_contra hfull
        exact hnot ⟨hf, not_lt.mp hfull, hcap⟩
      rw [hleft hcap]
      exact ⟨reclaim_sublist _ _, fun d hd hlive => mem_reclaim.mpr ⟨hd, hlive, .inl hroom⟩⟩

/-! ## A full table -/

/-- A pseudonym or an id of 64 characters. -/
def hexId (n : Nat) : String :=
  String.ofList ([n / 1000 % 10, n / 100 % 10, n / 10 % 10, n % 10].map Nat.digitChar ++ List.replicate 60 '0')

theorem digitChar_injective : ∀ m < 10, ∀ n < 10, Nat.digitChar m = Nat.digitChar n → m = n := by
  decide

theorem hexId_injective {m n : Nat} (hm : m < 10000) (hn : n < 10000) (h : hexId m = hexId n) :
    m = n := by
  have hchars := List.append_cancel_right (String.ofList_injective h)
  simp only [List.map_cons, List.map_nil, List.cons.injEq, and_true] at hchars
  obtain ⟨h₁, h₂, h₃, h₄⟩ := hchars
  have h₁ := digitChar_injective _ (by omega) _ (by omega) h₁
  have h₂ := digitChar_injective _ (by omega) _ (by omega) h₂
  have h₃ := digitChar_injective _ (by omega) _ (by omega) h₃
  have h₄ := digitChar_injective _ (by omega) _ (by omega) h₄
  omega

/-- The `n`-th registration; each pseudonym has 32 of them. -/
def fullRow (n : Nat) : Device := ⟨hexId (n / 32), hexId n, .fcm, hexId n, "", n⟩

/-- As many live registrations as the table takes. -/
def fullTable : List Device := (List.range maxDevices).map fullRow

/-- Another device of the pseudonym of the rows from 9952 on, which has all it may have. -/
def oneTooMany : RegisterRequest := ⟨hexId 311, hexId 0, .fcm, hexId 0, ""⟩

theorem mem_fullTable {n : Nat} (h : n < maxDevices) : fullRow n ∈ fullTable :=
  List.mem_map_of_mem (List.mem_range.mpr h)

theorem fullTable_live : fullTable.filter (live maxDevices) = fullTable := by
  rw [List.filter_eq_self]
  intro d hd
  obtain ⟨n, -, rfl⟩ := List.mem_map.mp hd
  have hle : maxDevices - n < registrationTtl := Nat.lt_of_le_of_lt (Nat.sub_le _ _) (by decide)
  exact decide_eq_true hle

theorem oldest_fullTable :
    oldest fullTable = (List.range dropCount).map fun n => (fullRow n).key := by
  have hsorted : fullTable.Pairwise fun d d' => d.refreshed ≤ d'.refreshed :=
    List.pairwise_map.mpr (List.pairwise_lt_range.imp Nat.le_of_lt)
  rw [oldest, List.Pairwise.insertionSort_eq hsorted, fullTable, ← List.map_take, List.take_range,
    List.map_map]
  rfl

theorem fullTable_new :
    Rows.find (·.key) (oneTooMany.hostPseudonym, oneTooMany.registrationId) fullTable = none := by
  rw [Rows.find_eq_none]
  intro d hd hkey
  obtain ⟨n, hn, rfl⟩ := List.mem_map.mp hd
  have hn : n < 10000 := List.mem_range.mp hn
  have hhost := hexId_injective (by omega) (by omega) (congrArg Prod.fst hkey)
  have hid := hexId_injective hn (by omega) (congrArg Prod.snd hkey)
  omega

theorem fullTable_kept {n : Nat} (hlt : n < maxDevices) (hle : dropCount ≤ n) :
    fullRow n ∈ reclaimRegistrations fullTable maxDevices := by
  have hmem := mem_fullTable hlt
  have hlive := hmem
  rw [← fullTable_live] at hlive
  refine mem_reclaim.mpr ⟨hmem, List.of_mem_filter hlive, .inr fun hold => ?_⟩
  rw [fullTable_live, oldest_fullTable] at hold
  obtain ⟨m, hm, hkey⟩ := List.mem_map.mp hold
  have hm := List.mem_range.mp hm
  have hmn :=
    hexId_injective (Nat.lt_trans (Nat.lt_of_lt_of_le hm hle) hlt) hlt (congrArg Prod.snd hkey)
  omega

/-- A full table without old rows. -/
theorem fullTable_capped : Capped (reclaimRegistrations fullTable maxDevices) oneTooMany := by
  refine .inr (.inl ?_)
  have hsub : (List.range maxDevicesPerHost).map (fun n => fullRow (9952 + n)) ⊆
      (reclaimRegistrations fullTable maxDevices).filter (·.hostPseudonym = oneTooMany.hostPseudonym) := by
    intro d hd
    obtain ⟨n, hn, rfl⟩ := List.mem_map.mp hd
    have hn : n < 32 := List.mem_range.mp hn
    have hhost : (9952 + n) / 32 = 311 := by omega
    refine List.mem_filter.mpr ⟨fullTable_kept (by simp only [maxDevices]; omega)
      (Nat.le_trans (by decide : dropCount ≤ 9952) (Nat.le_add_right _ _)), ?_⟩
    simp only [fullRow, hhost, oneTooMany, decide_true]
  have hnodup : ((List.range maxDevicesPerHost).map fun n => fullRow (9952 + n)).Nodup := by
    refine List.Nodup.map_on (fun m hm n hn h => ?_) List.nodup_range
    have hrefreshed : 9952 + m = 9952 + n := congrArg Device.refreshed h
    omega
  have hlen := (List.subperm_of_subset hnodup hsub).length_le
  rw [List.length_map, List.length_range, ← List.countP_eq_length_filter] at hlen
  exact hlen

/-- A request that its bound refuses throws out the oldest registration of another pseudonym. -/
theorem refused_registration_evicts :
    (registerLocked fullTable oneTooMany maxDevices).1 ≠ .noContent ∧
    fullRow 0 ∈ fullTable ∧ live maxDevices (fullRow 0) = true ∧
    fullRow 0 ∉ (registerLocked fullTable oneTooMany maxDevices).2 := by
  obtain ⟨hstatus, hleft⟩ := registerLocked_new maxDevices fullTable_new
  refine ⟨hstatus.mpr fullTable_capped, mem_fullTable (by decide), by decide, ?_⟩
  rw [hleft fullTable_capped]
  intro hkept
  obtain hlt | hnot := (mem_reclaim.mp hkept).2.2
  · rw [fullTable_live, fullTable, List.length_map, List.length_range] at hlt
    exact Nat.lt_irrefl _ hlt
  · rw [fullTable_live, oldest_fullTable] at hnot
    exact hnot (List.mem_map_of_mem (List.mem_range.mpr (by decide)))

end Portty.PushRelay
