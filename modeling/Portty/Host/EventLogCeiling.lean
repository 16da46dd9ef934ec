import Portty.Host.EventLog
import Portty.Lib.Run
import Portty.Lib.Table

/-!
# The ceiling of the event logs (`AcpEventLogger`, `session.rs`)

Loggers are created, write and are dropped in any order.

* `Core.open_step`, `Core.rotate_step`, `Core.write_step`, `Core.drop_core`, `Core.new_step`: the
  operations of a logger.
* `event_log_ceiling`: the ceiling, the size of a segment and the live segments, in every run.
* `event_log_newest`: which records are left, in every run.
-/

namespace Portty.Host.EventLog

variable {d d' : Disk} {files : List File} {f g : File} {l l' : Logger} {s t : String}
  {live : String → Option Logger}
  {i c : Nat} {r : Text} {segments init pre post : List File}

/-! ## The operations of a logger -/

/-- The logger of `s` has written one of its files. -/
theorem Core.put (h : Core d live) (hs : f.path.session = s) (hi : segmentOf f.path.name = some i)
    (hle : f.bytes ≤ acpEventSegmentBytes) (hturns : Turns (put (owned s d.files) f))
    (hfiles : d'.files = put d.files f)
    (hcap : d'.active.length ≤ acpEventTotalBytes / acpEventSegmentBytes)
    (hactive : ∀ p, p ∈ d'.active ↔ ∃ l₁, Function.update live s (some l') p.session = some l₁ ∧ l₁.path = p)
    (hlive : LiveIn (put d.files f) s l') : Core d' (Function.update live s (some l')) where
  files := hfiles ▸ h.files.put hs hi hle hturns
  cap := hcap
  active := hactive
  live t l hl := by
    rw [hfiles]
    exact h.live_put hs (fun l hl => Option.some.inj hl ▸ hlive) t l hl

theorem Core.spares_put (h : Core d live) (hs : f.path.session = s) (ht : t ≠ s)
    (hl : live t = some l) (hg : g ∈ d.files)
    (hp : g.path = l.path) : g ∈ EventLog.put d.files f := by
  refine mem_put.mpr (.inl ⟨hg, fun he => ht ?_⟩)
  rw [← hs, ← he, hp]
  exact (h.live t l hl).session.symm

theorem Core.put_step (h : Core d live) (hcore : Core d' (Function.update live s (some l')))
    (hs : f.path.session = s)
    (hfiles : d'.files = EventLog.put d.files f)
    (hkeeps : remaining s d'.files <:+ remaining s d.files) :
    Step s d live d' (Function.update live s (some l')) where
  core := hcore
  others t ht := Function.update_of_ne ht _ _
  spares t ht l hl g hg hp := hfiles ▸ h.spares_put hs ht hl hg hp
  keeps t := by
    by_cases ht : f.path.session = t
    · exact (hs.symm.trans ht) ▸ hkeeps
    · rw [hfiles]
      exact (remaining_put_of_ne ht).symm ▸ List.suffix_refl _

/-- The first segment that a logger opens. -/
theorem Core.open_step (h : Core d live) (ho : Opened d l true d' l')
    (hl : l = ⟨s, d.newestSegment s, 0, false, none⟩) :
    live s = none ∧ Step s d live d' (Function.update live s (some l')) := by
  have hsession : l.session = s := by rw [hl]
  have hclosed : l.activePath = none := by rw [hl]
  have hsegment : l.segment = d.newestSegment s := by rw [hl]
  have hfree : l.path ∉ d.active := ho.free.resolve_left (by rw [hclosed]; exact nofun)
  have hlen : d'.active.length ≤ acpEventTotalBytes / acpEventSegmentBytes :=
    Nat.le_trans ho.length_le (Nat.succ_le_of_lt (Nat.lt_of_le_of_lt (List.length_filter_le _ _) (ho.room hclosed)))
  have hnone : live s = none := by
    rw [Option.eq_none_iff_forall_ne_some]
    intro l₀ hl₀
    have hlive := h.live s l₀ hl₀
    obtain ⟨init, f, hown, hp, -⟩ := hlive.last
    refine hfree ((h.active _).mpr ⟨l₀, by rw [show l.path.session = s from hsession]; exact hl₀, ?_⟩)
    rw [Logger.path, Logger.path, hsession, hlive.session, hsegment, Disk.newestSegment, hown,
      List.getLast?_concat, Option.bind_some, hlive.index hp, Option.getD_some]
  have hactive := h.active_open ho hsession (fun l₀ hl₀ => by rw [hnone] at hl₀; cases hl₀) (fun p hp => by rw [hclosed] at hp; cases hp)
  refine ⟨hnone, ?_⟩
  cases hlast : (owned s d.files).getLast? with
  | none =>
    have hown : owned s d.files = [] := List.getLast?_eq_none_iff.mp hlast
    have hzero : l.segment = 0 := by rw [hsegment, Disk.newestSegment, hlast]; rfl
    have hi : segmentOf l.path.name = some 0 := by
      rw [Logger.path, hzero]
      exact segmentOf_segmentName (by decide)
    have hnew : ∀ x ∈ d.files, x.path ≠ l.path := by
      intro x hx hp
      have hmem : x ∈ owned s d.files :=
        mem_owned.mpr ⟨hx, by rw [hp]; exact hsession, by rw [hp, hi]; rfl⟩
      rw [hown] at hmem
      cases hmem
    have hput : d'.files = EventLog.put d.files ⟨l.path, 0, []⟩ := by
      rw [ho.files, Disk.openFile, List.any_eq_false.mpr fun x hx => by simpa using hnew x hx]
      rfl
    have hturns : Turns (EventLog.put (owned s d.files) ⟨l.path, 0, []⟩) := by
      rw [hown]
      exact ⟨[], _, rfl, List.forall_mem_nil _, List.isChain_singleton _⟩
    have hfiles' := h.files.put (f := ⟨l.path, 0, []⟩) hsession hi (Nat.zero_le _) hturns
    have hlive : LiveIn (EventLog.put d.files ⟨l.path, 0, []⟩) s l' :=
      { session := ho.session.trans hsession
        file := ho.file
        activePath := ho.path ▸ ho.activePath
        lt := by rw [ho.segment, hzero]; decide
        last := by
          refine ⟨[], ⟨l.path, 0, []⟩, by rw [owned_put hsession hi, hown]; rfl, ho.path.symm, ?_⟩
          rw [ho.bytes, hput, if_pos rfl, find_path hfiles'.nodup (mem_put.mpr (.inr rfl))]
          rfl }
    have hcore :=
      h.put (f := ⟨l.path, 0, []⟩) hsession hi (Nat.zero_le _) hturns hput hlen hactive hlive
    refine h.put_step hcore hsession hput ?_
    rw [hput, hfiles'.remaining_eq, owned_put hsession hi, hown]
    exact List.nil_suffix
  | some f =>
    obtain ⟨init, hown⟩ := List.getLast?_eq_some_iff.mp hlast
    obtain ⟨hf, hfs, hfi⟩ := mem_owned.mp (hown ▸ List.mem_append_right _ (List.mem_singleton.mpr rfl) : f ∈ owned s d.files)
    obtain ⟨i, hi⟩ := Option.isSome_iff_exists.mp hfi
    obtain ⟨hlt, hname⟩ := segmentOf_eq_some hi
    have hseg : l.segment = i := by
      rw [hsegment, Disk.newestSegment, hlast, Option.bind_some, hi, Option.getD_some]
    have hpath : f.path = l.path := by
      rw [Logger.path, hsession, hseg, hname, ← hfs]
    have hsame : d'.files = d.files := by
      rw [ho.files, Disk.openFile, List.any_eq_true.mpr ⟨f, hf, decide_eq_true hpath⟩]
      rfl
    have hlive : LiveIn d.files s l' :=
      { session := ho.session.trans hsession
        file := ho.file
        activePath := ho.path ▸ ho.activePath
        lt := by rw [ho.segment, hseg]; exact hlt
        last := by
          refine ⟨init, f, hown, hpath.trans ho.path.symm, ?_⟩
          rw [ho.bytes, hsame, if_pos rfl, ← hpath, find_path h.files.nodup hf]
          rfl }
    refine ⟨⟨hsame ▸ h.files, hlen, hactive, fun t l₁ hl₁ => ?_⟩, fun t ht => Function.update_of_ne ht _ _,
      fun _ _ _ _ g hg _ => hsame ▸ hg, fun t => hsame ▸ List.suffix_refl _⟩
    rw [hsame]
    by_cases ht : t = s
    · subst ht
      rw [Function.update_self] at hl₁
      exact Option.some.inj hl₁ ▸ hlive
    · rw [Function.update_of_ne ht] at hl₁
      exact h.live t l₁ hl₁

theorem filter_path (h : ((pre ++ g :: post).map (·.path)).Nodup) :
    (pre ++ g :: post).filter (·.path ≠ g.path) = pre ++ post := by
  rw [List.map_append, List.map_cons, List.nodup_middle, List.nodup_cons] at h
  have hne : ∀ x ∈ pre ++ post, decide (x.path ≠ g.path) = true := fun x hx =>
    decide_eq_true fun he => h.1 (he ▸ List.map_append ▸ List.mem_map_of_mem hx)
  rw [List.filter_append, List.filter_cons_of_neg (by simp), ← List.filter_append,
    List.filter_eq_self.mpr hne]

/-- The next segment is begun, in place of the oldest if it was there. -/
theorem Turns.next (h : Turns segments) (hnodup : (segments.map (·.path)).Nodup)
    (hsession : ∀ x ∈ segments, x.path.session = s)
    (hlast : segments = init ++ [f]) (hf : segmentOf f.path.name = some c)
    (hg : segmentOf g.path.name = some ((c + 1) % acpEventSegments)) (hempty : g.records = []) :
    Turns (put segments g) ∧ (put segments g).flatMap (·.records) <:+ segments.flatMap (·.records) := by
  have hfg : f.path ≠ g.path := by
    intro he
    rw [he, hg] at hf
    have hc := (segmentOf_eq_some (he ▸ hg : segmentOf f.path.name = _)).1
    have hf := Option.some.inj hf
    rw [acpEventSegments] at hf
    omega
  by_cases hin : ∃ x ∈ segments, x.path = g.path
  · obtain ⟨x, hx, hp⟩ := hin
    obtain ⟨pre, post, hsplit⟩ := List.append_of_mem hx
    have hfilter : segments.filter (·.path ≠ g.path) = pre ++ post := by
      rw [hsplit] at hnodup ⊢
      exact hp ▸ filter_path hnodup
    obtain ⟨hpre, hturns⟩ := h.before_next hnodup hsession hlast hf (hp ▸ hg) hsplit
    have hpost : post.getLast? = some f := by
      have hend := congrArg List.getLast? (hsplit.symm.trans hlast)
      rw [List.getLast?_concat, List.getLast?_append_of_ne_nil _ (List.cons_ne_nil _ _)] at hend
      cases post with
      | nil => exact absurd (Option.some.inj hend ▸ hp) hfg
      | cons y post => exact hend
    obtain ⟨post, rfl⟩ := List.getLast?_eq_some_iff.mp hpost
    rw [EventLog.put, hfilter]
    refine ⟨?_, ?_⟩
    · rw [← List.append_assoc] at hturns ⊢
      exact hturns.concat hf hg
    · have hnil : pre.flatMap (·.records) = [] := List.flatMap_eq_nil_iff.mpr hpre
      have hbefore : (pre ++ x :: (post ++ [f])).flatMap (·.records) =
          x.records ++ (post ++ [f]).flatMap (·.records) := by
        rw [List.flatMap_append, hnil, List.nil_append, List.flatMap_cons]
      have hafter : (pre ++ (post ++ [f]) ++ [g]).flatMap (·.records) =
          (post ++ [f]).flatMap (·.records) := by
        rw [List.flatMap_append, List.flatMap_append, hnil, List.nil_append, List.flatMap_singleton,
          hempty, List.append_nil]
      rw [hsplit, hbefore, hafter]
      exact List.suffix_append _ _
  · have hfilter : segments.filter (·.path ≠ g.path) = segments :=
      List.filter_eq_self.mpr fun x hx => decide_eq_true fun he => hin ⟨x, hx, he⟩
    rw [EventLog.put, hfilter]
    refine ⟨?_, ?_⟩
    · rw [hlast] at h ⊢
      exact h.concat hf hg
    · have hsame : (segments ++ [g]).flatMap (·.records) = segments.flatMap (·.records) := by
        rw [List.flatMap_append, List.flatMap_singleton, hempty, List.append_nil]
      exact hsame ▸ List.suffix_refl _

theorem openSegment_of_free (append : Bool) (hopen : l.activePath ≠ none)
    (hfree : l.path ∉ d.active) :
    ∃ d' l', d.openSegment l append = some (d', l') := by
  rw [Disk.openSegment, if_neg fun h => hopen h.1, if_neg fun h => hfree h.2]
  exact ⟨_, _, rfl⟩

/-- A logger begins the next segment. -/
theorem Core.rotate_step (h : Core d live) (hl : live s = some l) :
    ∃ d' l', d.rotateSegment l = (d', l', true) ∧ l'.bytes = 0 ∧
      Step s d live d' (Function.update live s (some l')) ∧
      (d'.files.map (full d'.active)).sum ≤ acpEventTotalBytes := by
  have hlive := h.live s l hl
  obtain ⟨init, f, hown, hp, -⟩ := hlive.last
  have hin : l.path ∈ d.active :=
    (h.active _).mpr ⟨l, by rw [show l.path.session = s from hlive.session]; exact hl, rfl⟩
  generalize hnext : ({ l with file := false, segment := (l.segment + 1) % acpEventSegments } : Logger) = next
  have hsession : next.session = s := by rw [← hnext]; exact hlive.session
  have hactivePath : next.activePath = some l.path := by rw [← hnext]; exact hlive.activePath
  have hsegment : next.segment = (l.segment + 1) % acpEventSegments := by rw [← hnext]
  have hi : segmentOf next.path.name = some ((l.segment + 1) % acpEventSegments) := by
    rw [Logger.path, hsegment]
    exact segmentOf_segmentName (next_lt _)
  have hfree : next.path ∉ d.active := by
    intro hmem
    obtain ⟨l₁, hl₁, hpath⟩ := (h.active _).mp hmem
    rw [show next.path.session = s from hsession, hl] at hl₁
    obtain rfl := Option.some.inj hl₁
    have hsame := hlive.index hp
    rw [hp, hpath, hi] at hsame
    have hsame := Option.some.inj hsame
    have hlt := hlive.lt
    rw [acpEventSegments] at hsame hlt
    omega
  obtain ⟨d', l', hopen⟩ :=
    openSegment_of_free false (by rw [hactivePath]; exact Option.some_ne_none _) hfree
  have ho := openSegment_eq_some hopen
  have hlen : d'.active.length ≤ acpEventTotalBytes / acpEventSegmentBytes := by
    have hlt : (d.active.filter (next.activePath ≠ some ·)).length < d.active.length := by
      refine List.length_filter_lt_length_iff_exists.mpr ⟨l.path, hin, ?_⟩
      rw [hactivePath]
      simp
    have hcap := h.cap
    have hle := ho.length_le
    omega
  have hactive := h.active_open ho hsession (fun l₀ hl₀ => by rw [hl] at hl₀; rw [hactivePath, Option.some.inj hl₀])
    (fun p hpath => by rw [hactivePath] at hpath; rw [← Option.some.inj hpath]; exact hlive.session)
  have hput : d'.files = EventLog.put d.files ⟨next.path, 0, []⟩ := by rw [ho.files]; rfl
  obtain ⟨hturns, hkeeps⟩ := (h.files.turns s).next (g := ⟨next.path, 0, []⟩) (h.files.owned_nodup s) owned_session hown
    (hlive.index hp) hi rfl
  have hnew : LiveIn (EventLog.put d.files ⟨next.path, 0, []⟩) s l' :=
    { session := ho.session.trans hsession
      file := ho.file
      activePath := ho.path ▸ ho.activePath
      lt := by rw [ho.segment, hsegment]; exact next_lt _
      last := ⟨_, ⟨next.path, 0, []⟩, owned_put hsession hi, ho.path.symm, ho.bytes.symm⟩ }
  have hcore :=
    h.put (f := ⟨next.path, 0, []⟩) hsession hi (Nat.zero_le _) hturns hput hlen hactive hnew
  have hstep := h.put_step hcore hsession hput (by
    rw [hcore.files.remaining_eq, h.files.remaining_eq, hput, owned_put hsession hi]
    exact hkeeps)
  refine ⟨d'.prune, l', ?_, ho.bytes, hstep.trans (hcore.prune_step s), hcore.prune_ceiling⟩
  rw [Disk.rotateSegment, hnext]
  rw [hopen]

/-- The live segment gets a record. -/
theorem Core.append_step (h : Core d live) (hl : live s = some l)
    (hle : l.bytes + (byteLen r + 1) ≤ acpEventSegmentBytes) :
    let d' := d.append l.path r
    Core d' (Function.update live s (some { l with bytes := l.bytes + (byteLen r + 1) })) ∧
      (∀ t, t ≠ s → ∀ l₀, live t = some l₀ → ∀ g ∈ d.files, g.path = l₀.path → g ∈ d'.files) ∧
      remaining s d'.files = remaining s d.files ++ [r] ∧ (∀ t, t ≠ s → remaining t d'.files = remaining t d.files) ∧
      (d'.files.map (full d'.active)).sum = (d.files.map (full d.active)).sum := by
  intro d'
  have hlive := h.live s l hl
  obtain ⟨init, f, hown, hp, hb⟩ := hlive.last
  have hmem : f ∈ owned s d.files := hown ▸ List.mem_append_right _ (List.mem_singleton.mpr rfl)
  obtain ⟨hf, hs, -⟩ := mem_owned.mp hmem
  have hi := hlive.index hp
  have hin : f.path ∈ d.active := (h.active _).mpr ⟨l, hs ▸ hl, hp.symm⟩
  generalize hg : ({ f with bytes := f.bytes + (byteLen r + 1), records := f.records ++ [r] } : File) = g
  have hgp : g.path = f.path := by rw [← hg]
  have hgb : g.bytes = l.bytes + (byteLen r + 1) := by rw [← hg, ← hb]
  have hgr : g.records = f.records ++ [r] := by rw [← hg]
  have hd' : d' = { d with files := EventLog.put d.files g } := by
    rw [← hg]
    simp only [d', Disk.append, ← hp, find_path h.files.nodup hf]
  have hgs : g.path.session = s := by rw [hgp]; exact hs
  have hgi : segmentOf g.path.name = some l.segment := by rw [hgp]; exact hi
  have hput : EventLog.put (owned s d.files) g = init ++ [g] := by
    have hnodup := h.files.owned_nodup s
    rw [hown] at hnodup ⊢
    rw [EventLog.put, hgp, filter_path hnodup, List.append_nil]
  have hturns : Turns (EventLog.put (owned s d.files) g) := by
    rw [hput]
    exact (hown ▸ h.files.turns s).write hgp
  have hgle : g.bytes ≤ acpEventSegmentBytes := hgb ▸ hle
  have hcore : Core d' (Function.update live s (some { l with bytes := l.bytes + (byteLen r + 1) })) := by
    refine h.put hgs hgi hgle hturns (by rw [hd']) (by rw [hd']; exact h.cap) (fun p => ?_) ?_
    · rw [hd']
      by_cases hps : p.session = s
      · rw [hps, Function.update_self, h.active, hps, hl]
        constructor
        · rintro ⟨l₁, hl₁, hpath⟩
          exact ⟨_, rfl, (congrArg Logger.path (Option.some.inj hl₁)).trans hpath⟩
        · rintro ⟨l₁, hl₁, hpath⟩
          exact ⟨l, rfl, (congrArg Logger.path (Option.some.inj hl₁)).trans hpath⟩
      · rw [Function.update_of_ne hps, h.active]
    · exact
        { session := hlive.session
          file := hlive.file
          activePath := hlive.activePath
          lt := hlive.lt
          last := ⟨init, g, by rw [owned_put hgs hgi, hput], hgp.trans hp, hgb⟩ }
  refine ⟨hcore, fun t ht l₀ hl₀ x hx hpath => ?_, ?_, fun t ht => ?_, ?_⟩
  · rw [hd']
    exact h.spares_put hgs ht hl₀ hx hpath
  · rw [hcore.files.remaining_eq, h.files.remaining_eq, hd', owned_put hgs hgi, hput, hown,
      List.flatMap_append, List.flatMap_append, List.flatMap_singleton, List.flatMap_singleton, hgr,
      List.append_assoc]
  · rw [hd', remaining_put_of_ne (hgs ▸ ht.symm)]
  · obtain ⟨pre, post, hsplit⟩ := List.append_of_mem hf
    have hnodup := h.files.nodup
    rw [hsplit] at hnodup
    have hsame : full d.active g = full d.active f := by
      rw [full, full, hgp, if_pos hin, if_pos hin]
    rw [hd', EventLog.put, hgp, hsplit, filter_path hnodup]
    simp only [List.map_append, List.map_cons, List.map_nil, List.sum_append, List.sum_cons,
      List.sum_nil, hsame]
    omega

/-- A logger writes a record. -/
theorem Core.write_step (h : Core d live) (hl : live s = some l)
    (hr : byteLen r + 1 ≤ acpEventSegmentBytes)
    (hsum : (d.files.map (full d.active)).sum ≤ acpEventTotalBytes) :
    ∃ d' l', d.writeFrame l r = (d', l') ∧ Core d' (Function.update live s (some l')) ∧
      (∀ t, t ≠ s → ∀ l₀, live t = some l₀ → ∀ g ∈ d.files, g.path = l₀.path → g ∈ d'.files) ∧
      (∃ kept, kept <:+ remaining s d.files ∧ remaining s d'.files = kept ++ [r]) ∧
      (∀ t, t ≠ s → remaining t d'.files <:+ remaining t d.files) ∧
      (d'.files.map (full d'.active)).sum ≤ acpEventTotalBytes := by
  by_cases hfull : 0 < l.bytes ∧ acpEventSegmentBytes < l.bytes + (byteLen r + 1)
  · obtain ⟨d₁, l₁, hrotate, hzero, hstep, hceiling⟩ := h.rotate_step hl
    have hl₁ : Function.update live s (some l₁) s = some l₁ := Function.update_self ..
    have hopen : l₁.file = true := (hstep.core.live s l₁ hl₁).file
    obtain ⟨hcore, hspares, hwrite, hothers, hsame⟩ :=
      hstep.core.append_step (r := r) hl₁ (by rw [hzero, Nat.zero_add]; exact hr)
    rw [Function.update_idem] at hcore
    refine ⟨d₁.append l₁.path r, { l₁ with bytes := l₁.bytes + (byteLen r + 1) }, ?_, hcore, ?_,
      ⟨_, hstep.keeps s, hwrite⟩, ?_, ?_⟩
    · rw [Disk.writeFrame, if_pos hfull, hrotate]
      simp only [hopen, Bool.and_self, if_true]
    · exact fun t ht l₀ hl₀ g hg hp => hspares t ht l₀ ((hstep.others t ht).trans hl₀) g (hstep.spares t ht l₀ hl₀ g hg hp) hp
    · exact fun t ht => hothers t ht ▸ hstep.keeps t
    · exact hsame ▸ hceiling
  · have hle : l.bytes + (byteLen r + 1) ≤ acpEventSegmentBytes := by omega
    obtain ⟨hcore, hspares, hwrite, hothers, hsame⟩ := h.append_step (r := r) hl hle
    refine ⟨d.append l.path r, { l with bytes := l.bytes + (byteLen r + 1) }, ?_, hcore, hspares,
      ⟨_, List.suffix_refl _, hwrite⟩, fun t ht => hothers t ht ▸ List.suffix_refl _, hsame ▸ hsum⟩
    rw [Disk.writeFrame, if_neg hfull]
    simp only [(h.live s l hl).file, Bool.and_self, if_true]

/-- A logger is dropped. -/
theorem Core.drop_core (h : Core d live) (hl : live s = some l) :
    Core (d.drop l) (Function.update live s none) := by
  have hlive := h.live s l hl
  have hmem : ∀ p, p ∈ (d.drop l).active ↔ p ∈ d.active ∧ p ≠ l.path := fun p => by
    rw [Disk.drop, List.mem_filter, decide_eq_true_iff, hlive.activePath, ne_eq, ne_eq,
      Option.some_inj, eq_comm]
  refine ⟨h.files, Nat.le_trans (List.length_filter_le _ _) h.cap, fun p => ?_, fun t l₁ hl₁ => ?_⟩
  · rw [hmem, h.active]
    by_cases hp : p.session = s
    · rw [hp, Function.update_self, hl]
      constructor
      · rintro ⟨⟨l₁, hl₁, rfl⟩, hne⟩
        exact absurd (congrArg Logger.path (Option.some.inj hl₁).symm) hne
      · rintro ⟨l₁, hl₁, -⟩
        cases hl₁
    · rw [Function.update_of_ne hp]
      refine and_iff_left ?_
      rintro rfl
      exact hp hlive.session
  · by_cases ht : t = s
    · subst ht
      rw [Function.update_self] at hl₁
      cases hl₁
    · rw [Function.update_of_ne ht] at hl₁
      exact h.live t l₁ hl₁

theorem sum_full_mono {active active' : List Path}
    (hle : ∀ f ∈ files, f.bytes ≤ acpEventSegmentBytes)
    (hsub : active' ⊆ active) : (files.map (full active')).sum ≤ (files.map (full active)).sum := by
  refine List.sum_le_sum fun f hf => ?_
  rw [full, full]
  split_ifs with h h' h'
  · exact Nat.le_refl _
  · exact absurd (hsub h) h'
  · exact hle f hf
  · exact Nat.le_refl _

/-- A logger is created, or there is no room for one or the session has one. -/
theorem Core.new_step (h : Core d live) (s : String) :
    d.newIn s = (d, none) ∨ ∃ d' l, d.newIn s = (d', some l) ∧ live s = none ∧
      Step s d live d' (Function.update live s (some l)) ∧
        (d'.files.map (full d'.active)).sum ≤ acpEventTotalBytes := by
  cases hopen : d.openSegment ⟨s, d.newestSegment s, 0, false, none⟩ true with
  | none => exact .inl (by rw [Disk.newIn, hopen])
  | some opened =>
    obtain ⟨d₁, l₁⟩ := opened
    obtain ⟨hnone, hstep⟩ := h.open_step (openSegment_eq_some hopen) rfl
    refine .inr ?_
    by_cases hfull : acpEventSegmentBytes ≤ l₁.bytes
    · obtain ⟨d₂, l₂, hrotate, -, hstep', -⟩ := hstep.core.rotate_step (Function.update_self ..)
      rw [Function.update_idem] at hstep'
      have hboth := hstep.trans hstep'
      refine ⟨d₂.prune, l₂, ?_, hnone, hboth.trans (hboth.core.prune_step s), hboth.core.prune_ceiling⟩
      rw [Disk.newIn, hopen]
      simp only [if_pos hfull, hrotate]
    · refine ⟨d₁.prune, l₁, ?_, hnone, hstep.trans (hstep.core.prune_step s), hstep.core.prune_ceiling⟩
      rw [Disk.newIn, hopen]
      simp only [if_neg hfull]

/-! ## Runs -/

/-- The segments that earlier processes left. -/
structure Left where
  files : List File
  nodup : (files.map (·.path)).Nodup
  segment : ∀ f ∈ files, isAcpEventSegment f.path.name = true
  le : ∀ f ∈ files, f.bytes ≤ acpEventSegmentBytes
  records : ∀ f ∈ files, f.records = []

/-- The loggers begin with the files that are there. -/
def Left.world (b : Left) : World := { disk := ⟨b.files, []⟩ }

namespace World

/-- The segments that are open. -/
def livePaths (w : World) : List Path := w.loggers.filterMap (Option.map Logger.path)

/-- What was logged for a session. -/
def logsOf (s : String) (w : World) : List Text := (w.logged.filter (·.1 = s)).map (·.2)

end World

/-- The logger that an event is of. -/
def Event.isOf (j : Nat) : Event → Prop
  | .new _ => False
  | .write i .. => i = j
  | .drop i => i = j

/-- The disk is what the loggers of the sessions make it. -/
structure Holds (w : World) (live : String → Option Logger) : Prop where
  core : Core w.disk live
  listed : ∀ s l, live s = some l ↔ some l ∈ w.loggers ∧ l.session = s
  single : ∀ (i j : Nat) (l l' : Logger), w.loggers[i]? = some (some l) → w.loggers[j]? = some (some l') →
    l.session = l'.session → i = j
  kept : ∀ s, remaining s w.disk.files <:+ w.logsOf s
  ceiling : w.loggers ≠ [] → (w.disk.files.map (full w.disk.active)).sum ≤ acpEventTotalBytes

variable {w : World} {j : Nat} {e : Event}

/-- The files that another run of the host has left. -/
theorem Left.holds (b : Left) : Holds b.world fun _ => none where
  core :=
    { files :=
        { nodup := b.nodup
          segment := b.segment
          le := b.le
          plain := fun f hf _ => b.records f hf
          turns := fun _ => ⟨_, [], (List.append_nil _).symm, fun f hf => b.records f (mem_owned.mp hf).1, List.isChain_nil⟩ }
      cap := Nat.zero_le _
      active := fun p => ⟨fun h => (List.not_mem_nil h).elim, nofun⟩
      live := nofun }
  listed _ _ := ⟨nofun, fun h => (List.not_mem_nil h.1).elim⟩
  single _ _ _ _ h := by cases h
  kept s := by
    have hnil : remaining s b.files = [] :=
      List.flatMap_eq_nil_iff.mpr fun f hf => b.records f (List.mem_filter.mp hf).1
    exact hnil ▸ List.nil_suffix
  ceiling h := absurd rfl h

theorem Holds.live_of (h : Holds w live) (hj : w.loggers[j]? = some (some l)) :
    live l.session = some l :=
  (h.listed _ _).mpr ⟨List.mem_of_getElem? hj, rfl⟩

/-- A live logger is replaced, or dropped. -/
theorem Holds.listed_modify (h : Holds w live) (hj : w.loggers[j]? = some (some l))
    {x : Option Logger}
    (hx : ∀ l', x = some l' → l'.session = l.session) (s : String) (l' : Logger) :
    Function.update live l.session x s = some l' ↔ some l' ∈ w.loggers.modify j (fun _ => x) ∧
      l'.session = s := by
  constructor
  · intro hl'
    by_cases hs : s = l.session
    · rw [hs, Function.update_self] at hl'
      exact ⟨hl' ▸ Table.mem_replace_self hj, by rw [hs, hx l' hl']⟩
    · rw [Function.update_of_ne hs] at hl'
      obtain ⟨hmem, rfl⟩ := (h.listed _ _).mp hl'
      exact ⟨Table.mem_replace_of_ne hj hmem fun he => hs (congrArg Logger.session (Option.some.inj he)), rfl⟩
  · rintro ⟨hmem, rfl⟩
    obtain ⟨i, hi⟩ := List.mem_iff_getElem?.mp hmem
    rcases Table.modify_cases hi with ⟨-, -, -, he⟩ | ⟨hne, hi⟩
    · rw [hx l' he.symm, Function.update_self, he]
    · rw [Function.update_of_ne fun he => hne (h.single i j l' l hi hj he), h.live_of hi]

theorem Holds.single_modify (h : Holds w live) (hj : w.loggers[j]? = some (some l))
    {x : Option Logger}
    (hx : ∀ l', x = some l' → l'.session = l.session) (i k : Nat) (l₁ l₂ : Logger)
    (h₁ : (w.loggers.modify j fun _ => x)[i]? = some (some l₁))
    (h₂ : (w.loggers.modify j fun _ => x)[k]? = some (some l₂))
    (he : l₁.session = l₂.session) : i = k := by
  rcases Table.modify_cases h₁ with ⟨hi, -, -, h₁⟩ | ⟨-, h₁⟩ <;> rcases Table.modify_cases h₂ with ⟨hk, -, -, h₂⟩ | ⟨-, h₂⟩
  · rw [hi, hk]
  · exact hi ▸ h.single _ _ _ _ hj h₂ ((hx _ h₁.symm).symm.trans he)
  · exact hk ▸ h.single _ _ _ _ h₁ hj (he.trans (hx _ h₂.symm))
  · exact h.single _ _ _ _ h₁ h₂ he

theorem logsOf_write (w : World) (r : Text) (l : Logger) (s : String) :
    (w.write j l r).logsOf s = w.logsOf s ++ if l.session = s then [r] else [] := by
  rw [World.logsOf, World.logsOf, World.write, List.filter_append, List.map_append]
  by_cases hs : l.session = s
  · rw [if_pos hs, List.filter_cons_of_pos (by simpa using hs)]
    rfl
  · rw [if_neg hs, List.filter_cons_of_neg (by simpa using hs)]
    rfl

/-- The files of the loggers that an event is not of are as they were. -/
def Spares (w w' : World) (e : Event) : Prop :=
  ∀ i l, ¬ e.isOf i → w.loggers[i]? = some (some l) → ∀ f ∈ w.disk.files, f.path = l.path → f ∈ w'.disk.files

/-- A record goes to the segment of its own logger. -/
theorem Holds.write (h : Holds w live) (hj : w.loggers[j]? = some (some l))
    (hr : byteLen r + 1 ≤ acpEventSegmentBytes) :
    (∃ live', Holds (w.write j l r) live') ∧
      (∀ i l₀, i ≠ j → w.loggers[i]? = some (some l₀) → ∀ f ∈ w.disk.files, f.path = l₀.path → f ∈ (w.write j l r).disk.files) ∧
      ∃ kept, remaining l.session (w.write j l r).disk.files = kept ++ [r] := by
  have hne : w.loggers ≠ [] := List.ne_nil_of_mem (List.mem_of_getElem? hj)
  obtain ⟨d', l', heq, hcore, hspares, ⟨kept, hkept, hlast⟩, hothers, hsum⟩ :=
    h.core.write_step (h.live_of hj) hr (h.ceiling hne)
  have hlogger : (w.disk.writeFrame l r).2 = l' := by rw [heq]
  have hdisk : (w.disk.writeFrame l r).1 = d' := by rw [heq]
  have hsession : ∀ l₁, some l' = some l₁ → l₁.session = l.session := by
    rintro l₁ he
    rw [← Option.some.inj he]
    exact (hcore.live l.session l' (Function.update_self ..)).session
  refine ⟨⟨Function.update live l.session (some l'), ?_, ?_, ?_, fun s => ?_, fun _ => ?_⟩, ?_, kept, ?_⟩
  · rw [World.write, hdisk]
    exact hcore
  · rw [World.write, hlogger]
    exact h.listed_modify hj hsession
  · rw [World.write, hlogger]
    exact h.single_modify hj hsession
  · rw [logsOf_write, World.write, hdisk]
    by_cases hs : l.session = s
    · subst hs
      rw [if_pos rfl, hlast]
      exact List.suffix_append_self_iff.mpr (hkept.trans (h.kept _))
    · rw [if_neg hs, List.append_nil]
      exact (hothers s (Ne.symm hs)).trans (h.kept s)
  · rw [World.write, hdisk]
    exact hsum
  · intro i l₀ hi hl₀ f hf hp
    rw [World.write, hdisk]
    exact hspares l₀.session (fun he => hi (h.single _ _ _ _ hl₀ hj he)) l₀ (h.live_of hl₀) f hf hp
  · rw [World.write, hdisk]
    exact hlast

/-- A logger of a session takes the place of the one before it. -/
theorem Holds.new (h : Holds w live) (s : String) :
    (∃ live', Holds (w.new s) live') ∧ Spares w (w.new s) (.new s) := by
  rcases h.core.new_step s with hnew | ⟨d', l, hnew, hnone, hstep, hsum⟩
  · have hsame : w.new s = w := by rw [World.new, hnew]
    rw [hsame]
    exact ⟨⟨live, h⟩, fun _ _ _ _ f hf _ => hf⟩
  have hw : w.new s = { w with disk := d', loggers := w.loggers ++ [some l] } := by
    rw [World.new, hnew]
  have hsession : l.session = s := (hstep.core.live s l (Function.update_self ..)).session
  have hfree : ∀ l₀, some l₀ ∈ w.loggers → l₀.session ≠ s := by
    intro l₀ hmem he
    rw [(h.listed s l₀).mpr ⟨hmem, he⟩] at hnone
    cases hnone
  rw [hw]
  refine ⟨⟨Function.update live s (some l), hstep.core, fun t l' => ?_, ?_, fun t => (hstep.keeps t).trans (h.kept t),
    fun _ => hsum⟩, ?_⟩
  · rw [List.mem_append, List.mem_singleton, or_and_right]
    by_cases ht : t = s
    · subst ht
      rw [Function.update_self, Option.some_inj, Option.some_inj]
      constructor
      · rintro rfl
        exact .inr ⟨rfl, hsession⟩
      · rintro (⟨hmem, he⟩ | ⟨rfl, -⟩)
        · exact absurd he (hfree l' hmem)
        · rfl
    · rw [Function.update_of_ne ht, h.listed]
      refine ⟨.inl, ?_⟩
      rintro (hl' | ⟨he, rfl⟩)
      · exact hl'
      · exact absurd (Option.some.inj he ▸ hsession) ht
  · intro i j l₁ l₂ h₁ h₂ he
    rcases Table.concat_cases h₁ with h₁ | ⟨hi, h₁⟩ <;> rcases Table.concat_cases h₂ with h₂ | ⟨hj, h₂⟩
    · exact h.single i j l₁ l₂ h₁ h₂ he
    · exact absurd (he.trans (Option.some.inj h₂ ▸ hsession)) (hfree l₁ (List.mem_of_getElem? h₁))
    · exact absurd (he.symm.trans (Option.some.inj h₁ ▸ hsession)) (hfree l₂ (List.mem_of_getElem? h₂))
    · rw [hi, hj]
  · intro i l₀ _ hi f hf hp
    have hl₀ := h.live_of hi
    exact hstep.spares _ (hfree l₀ (List.mem_of_getElem? hi)) l₀ hl₀ f hf hp

theorem Holds.drop (h : Holds w live) (hj : w.loggers[j]? = some (some l)) :
    ∃ live', Holds { w with disk := w.disk.drop l, loggers := w.loggers.modify j fun _ => none } live' := by
  have hne : w.loggers ≠ [] := List.ne_nil_of_mem (List.mem_of_getElem? hj)
  refine ⟨Function.update live l.session none, h.core.drop_core (h.live_of hj), h.listed_modify hj nofun,
    h.single_modify hj nofun, h.kept, fun _ => ?_⟩
  exact Nat.le_trans (sum_full_mono h.core.files.le (List.filter_sublist.subset)) (h.ceiling hne)

theorem Holds.step (h : Holds w live) (e : Event) :
    (∃ live', Holds (w.step e) live') ∧ Spares w (w.step e) e := by
  have hsame : (∃ live', Holds w live') ∧ Spares w w e := ⟨⟨live, h⟩, fun _ _ _ _ f hf _ => hf⟩
  cases e with
  | new s => exact h.new s
  | write j atUnixMs direction line =>
    rw [World.step]
    split
    next l hj =>
      obtain ⟨hholds, hspares, -⟩ := h.write hj (record_le atUnixMs direction line)
      exact ⟨hholds, fun i l₀ hi => hspares i l₀ fun he => hi he.symm⟩
    · exact hsame
  | drop j =>
    rw [World.step]
    split
    next l hj => exact ⟨h.drop hj, fun _ _ _ _ f hf _ => hf⟩
    · exact hsame

theorem Left.holds_run (b : Left) (events : List Event) :
    ∃ live, Holds (Run.run World.step b.world events) live :=
  Run.run_induction (I := fun _ w => ∃ live, Holds w live) ⟨_, b.holds⟩ fun _ e _ _ ⟨_, h⟩ => (h.step e).1

theorem Holds.mem_livePaths (h : Holds w live) (p : Path) :
    p ∈ w.disk.active ↔ p ∈ w.livePaths := by
  rw [h.core.active, World.livePaths, List.mem_filterMap]
  constructor
  · rintro ⟨l, hl, hp⟩
    exact ⟨some l, ((h.listed _ _).mp hl).1, congrArg some hp⟩
  · rintro ⟨l, hmem, hp⟩
    obtain ⟨l, rfl, rfl⟩ := Option.map_eq_some_iff.mp hp
    exact ⟨l, (h.listed _ _).mpr ⟨hmem, rfl⟩, rfl⟩

/-- In every run (the calls on the files succeed) no segment is larger than its bound, and from the
first logger on all of them, with those that are being written at full size, stay under the ceiling.
What is being written is not deleted for another session. -/
theorem event_log_ceiling (b : Left) (events : List Event) :
    let w := Run.run World.step b.world events
    (∀ f ∈ w.disk.files, f.bytes ≤ acpEventSegmentBytes) ∧
      (w.loggers ≠ [] → (w.disk.files.map (full w.livePaths)).sum ≤ acpEventTotalBytes) ∧
      ∀ i l, w.loggers[i]? = some (some l) → (∃ f ∈ w.disk.files, f.path = l.path ∧ f.bytes = l.bytes) ∧
        ∀ e : Event, ¬ e.isOf i → ∀ f ∈ w.disk.files, f.path = l.path → f ∈ (w.step e).disk.files := by
  intro w
  obtain ⟨live, h⟩ := b.holds_run events
  refine ⟨h.core.files.le, fun hne => ?_, fun i l hi =>
    ⟨(h.core.live _ _ (h.live_of hi)).exists_file, fun e he => (h.step e).2 i l he hi⟩⟩
  have hfull : full w.livePaths = full w.disk.active := by
    funext f
    rw [full, full, if_congr (h.mem_livePaths f.path) rfl rfl]
  exact hfull ▸ h.ceiling hne

/-- In every run (the calls on the files succeed, and later writes have later times) what a session
has is the newest of what was logged for it, in order, and a record that was just written is there. -/
theorem event_log_newest (b : Left) (events : List Event) :
    let w := Run.run World.step b.world events
    (∀ s, remaining s w.disk.files <:+ w.logsOf s) ∧
      ∀ j l, w.loggers[j]? = some (some l) → ∀ atUnixMs direction line, ∃ kept,
        remaining l.session (w.step (.write j atUnixMs direction line)).disk.files = kept ++ [record atUnixMs direction line] := by
  intro w
  obtain ⟨live, h⟩ := b.holds_run events
  refine ⟨h.kept, fun j l hj atUnixMs direction line => ?_⟩
  obtain ⟨-, -, hlast⟩ := h.write hj (record_le atUnixMs direction line)
  rw [World.step, hj]
  exact hlast

end Portty.Host.EventLog
