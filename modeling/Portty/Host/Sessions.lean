import Portty.Host.Permission
import Portty.Lib.Run

/-!
# The sessions of a host (`session.rs`)

A session takes a permit, then a number, then it is put in the map, then it is announced; whoever
takes it out of the map announces that, and the permit goes back after it. Each of these is a step
of its own here, so that the calls of all clients interleave: a shell can be gone before it is
announced.

* `World.Inv`: what holds between the permits, the map, the calls under way and the announcements.
* `registry_bounded`: after any run.
-/

namespace Portty.Host.Sessions

open Permission (takeBytes)

/-- The longest title. -/
def maxTitleBytes : Nat := 256

/-- A longer title is cut at a character. -/
def clampTitle (title : String) : String :=
  if maxTitleBytes < title.utf8ByteSize then String.ofList (takeBytes maxTitleBytes title.toList) else title

/-- The numbers of sessions. -/
abbrev SessionId := Nat

/-- What a list says of a session. -/
structure SessionInfo where
  id : SessionId
  title : String
  deriving DecidableEq

/-- What the phones are told. -/
inductive ManagerEvent where
  | added (info : SessionInfo)
  | removed (id : SessionId)
  /-- Activity, cards and timelines of agents, sizes. -/
  | other
  deriving DecidableEq

/-- The capacity of `events_tx`. -/
def eventsCapacity : Nat := 64

/-- A call under way, by what it has done. -/
inductive Task where
  /-- It holds a permit. -/
  | reserved (agent : Bool) (title : String)
  | numbered (agent : Bool) (id : SessionId)
  /-- The session is in the map with the permit, and not announced. -/
  | inserted (agent : Bool) (id : SessionId)
  /-- The session is out of the map, which is not announced. -/
  | removing (id : SessionId)
  /-- The permit of the session is not back yet. -/
  | leaving
  deriving DecidableEq

/-- The registry with its permits, and the tasks that start and end sessions. -/
structure World where
  maxSessions : Nat
  /-- The permits that are left. -/
  slots : Nat
  nextId : SessionId := 1
  sessions : List SessionId := []
  /-- The title of each session, also of those that are out of the map. -/
  titles : SessionId → String := fun _ => ""
  /-- The agents that run. -/
  drivers : List SessionId := []
  tasks : List Task := []
  /-- All that was sent on `events_tx`. -/
  log : List ManagerEvent := []

/-- What happens in the registry, in any order. -/
inductive Event where
  /-- `spawn_shell` and `register_adopted`, or `spawn_agent_with`. -/
  | spawn (agent : Bool) (title : Option String)
  | advance (task : Task)
  /-- The terminal or its shell does not start. -/
  | fail (id : SessionId)
  /-- `full`: the session is adopted, and the queue to its relay is full. -/
  | kill (id : SessionId) (full : Bool)
  | removeDead (id : SessionId)
  | rename (id : SessionId) (title : String)
  /-- An agent names its session. -/
  | retitle (id : SessionId) (title : String)
  /-- An agent ends, or stops after it was aborted. -/
  | stop (id : SessionId)
  | emit

namespace World

/-- A host without sessions. -/
def start (maxSessions : Nat) : World := { maxSessions, slots := maxSessions }

variable (w : World)

/-- What is said of a session now. -/
def info (id : SessionId) : SessionInfo := ⟨id, w.titles id⟩

/-- The sessions that are in the map. -/
def list : List SessionInfo := w.sessions.map w.info

/-- A permit is taken, or the spawn is refused. -/
def reserveCapacity : Except String World :=
  if w.slots = 0 then
    .error ("session limit reached (" ++ toString w.maxSessions ++ "); close a session first")
  else .ok { w with slots := w.slots - 1 }

/-- A session begins with a permit. -/
def spawn (agent : Bool) (title : Option String) : Except String World := do
  let w ← w.reserveCapacity
  return { w with
    tasks := w.tasks ++ [.reserved agent (clampTitle (title.getD (if agent then "agent" else "shell")))] }

/-- The next step of a call, which is no longer among `tasks`. -/
def advanced : Task → World
  | .reserved agent title => { w with
      nextId := w.nextId + 1
      titles := Function.update w.titles w.nextId title
      tasks := w.tasks ++ [.numbered agent w.nextId] }
  | .numbered agent id => { w with
      sessions := w.sessions ++ [id]
      tasks := w.tasks ++ [.inserted agent id] }
  | .inserted agent id => { w with
      log := w.log ++ [.added (w.info id)]
      drivers := if agent then id :: w.drivers else w.drivers }
  | .removing id => { w with
      log := w.log ++ [.removed id]
      tasks := w.tasks ++ [.leaving] }
  | .leaving => { w with slots := w.slots + 1 }

/-- A task takes its next step. -/
def advance (task : Task) : World :=
  if task ∈ w.tasks then ({ w with tasks := w.tasks.erase task } : World).advanced task else w

/-- A shell that does not start gives its permit back. -/
def fail (id : SessionId) : World :=
  if Task.numbered false id ∈ w.tasks then
    { w with tasks := w.tasks.erase (.numbered false id), slots := w.slots + 1 }
  else w

/-- The entry is taken out of the map. -/
def remove (id : SessionId) : World :=
  { w with sessions := w.sessions.erase id, tasks := w.tasks ++ [.removing id] }

/-- A session is taken out, unless the queue to its relay is full. -/
def kill (id : SessionId) (full : Bool) : World × Bool :=
  if id ∉ w.sessions then (w, false)
  else if full then (w, false)
  else (w.remove id, true)

/-- A session whose shell has ended is taken out. -/
def removeDead (id : SessionId) : World := if id ∈ w.sessions then w.remove id else w

/-- A session in the map gets another title. -/
def rename (id : SessionId) (title : String) : World × Bool :=
  if id ∈ w.sessions then ({ w with titles := Function.update w.titles id (clampTitle title) }, true) else (w, false)

/-- `reduce_session_update`, for a title. -/
def retitle (id : SessionId) (title : String) : World :=
  if id ∈ w.drivers then
    let w := { w with titles := Function.update w.titles id (clampTitle title) }
    { w with log := w.log ++ [.added (w.info id)] }
  else w

/-- One event. -/
def step : Event → World
  | .spawn agent title => (w.spawn agent title).toOption.getD w
  | .advance task => w.advance task
  | .fail id => w.fail id
  | .kill id full => (w.kill id full).1
  | .removeDead id => w.removeDead id
  | .rename id title => (w.rename id title).1
  | .retitle id title => w.retitle id title
  | .stop id => { w with drivers := w.drivers.erase id }
  | .emit => { w with log := w.log ++ [.other] }

end World

/-! ## Permits and numbers -/

/-- The permit is with the task and not with a session of the map. -/
def Task.holdsPermit : Task → Bool
  | .reserved .. | .numbered .. | .removing _ | .leaving => true
  | .inserted .. => false

/-- The call has the number, and the session is not in the map. -/
def Task.holds (id : SessionId) : Task → Bool
  | .numbered _ id' => id' = id
  | .removing id' => id' = id
  | .reserved .. | .inserted .. | .leaving => false

variable {w w' : World} {id : SessionId} {title : String} {agent : Bool} {given : Option String}
  {task : Task} {tasks : List Task}

namespace World

/-- Where a number is: with a call, in the map, or announced as gone. -/
def lives (w : World) (id : SessionId) : Nat :=
  w.tasks.countP (Task.holds id) + w.sessions.count id + w.log.count (.removed id)

/-- The session is in the map, and its announcement is due. -/
def Announcing (w : World) (id : SessionId) : Prop := ∃ agent, Task.inserted agent id ∈ w.tasks

/-- The phones were told of the session. -/
def Announced (log : List ManagerEvent) (id : SessionId) : Prop :=
  ∃ title, ManagerEvent.added ⟨id, title⟩ ∈ log

/-- The session was in the map once. -/
def Known (w : World) (id : SessionId) : Prop :=
  id ∈ w.sessions ∨ Task.removing id ∈ w.tasks ∨ .removed id ∈ w.log

/-- What holds of the permits, the numbers and the announcements. -/
structure Inv (w : World) : Prop where
  permits : w.slots + w.sessions.length + w.tasks.countP Task.holdsPermit = w.maxSessions
  fresh : ∀ id, w.nextId ≤ id → w.lives id = 0
  once : ∀ id, w.lives id ≤ 1
  announcing : ∀ id, w.Announcing id → w.Known id
  announced : ∀ id, Announced w.log id → w.Known id
  driven : ∀ id ∈ w.drivers, w.Known id
  due : ∀ id ∈ w.sessions, w.Announcing id ∨ Announced w.log id

end World

theorem countP_erase (p : Task → Bool) (h : task ∈ tasks) :
    tasks.countP p = (tasks.erase task).countP p + (p task).toNat := by
  rw [(List.perm_cons_erase h).countP_eq p, List.countP_cons]
  cases p task <;> rfl

/-- A title is cut to its bytes, between two characters. -/
theorem utf8ByteSize_clampTitle (title : String) :
    (clampTitle title).utf8ByteSize ≤ maxTitleBytes := by
  have htake : ∀ (chs : List Char) n, (String.ofList (takeBytes n chs)).utf8ByteSize ≤ n := by
    intro chs
    induction chs with
    | nil => exact fun n => Nat.zero_le n
    | cons ch chs ih =>
      intro n
      rw [takeBytes]
      split
      next hle =>
        have hrest := ih (n - ch.utf8Size)
        rw [String.ofList_cons, String.utf8ByteSize_append, String.utf8ByteSize_singleton]
        omega
      · exact Nat.zero_le n
  rw [clampTitle]
  split
  · exact htake _ _
  next hle => exact Nat.le_of_not_lt hle

namespace World

/-! ### What a step does to permits and numbers -/

/-- The permits add up, and no number but the next one gets a place. -/
structure Counted (w w' : World) : Prop where
  permits : w'.slots + w'.sessions.length + w'.tasks.countP Task.holdsPermit =
    w.slots + w.sessions.length + w.tasks.countP Task.holdsPermit
  maxSessions : w'.maxSessions = w.maxSessions
  nextId : w.nextId ≤ w'.nextId
  lives : ∀ id, w'.lives id ≤ w.lives id ∨ id = w.nextId ∧ w.nextId < w'.nextId ∧ w'.lives id ≤ w.lives id + 1

/-- A step that changes no permit and no place of a number. -/
theorem Counted.of_log {titles : SessionId → String} {drivers : List SessionId}
    {log : List ManagerEvent}
    (h : ∀ id, log.count (.removed id) = w.log.count (.removed id)) :
    Counted w { w with titles, drivers, log } where
  permits := rfl
  maxSessions := rfl
  nextId := Nat.le_refl _
  lives id := .inl (by rw [World.lives, World.lives, h])

theorem Counted.refl (w : World) : Counted w w := .of_log fun _ => rfl

theorem spawn_cases (h : w.spawn agent given = .ok w') :
    0 < w.slots ∧ ∃ title, title.utf8ByteSize ≤ maxTitleBytes ∧
      w' = { w with slots := w.slots - 1, tasks := w.tasks ++ [.reserved agent title] } := by
  rw [World.spawn, reserveCapacity] at h
  split at h
  · cases h
  next hslots => exact ⟨Nat.pos_of_ne_zero hslots, _, utf8ByteSize_clampTitle _, (Except.ok.inj h).symm⟩

theorem counted_spawn (h : 0 < w.slots) (agent : Bool) (title : String) :
    Counted w { w with slots := w.slots - 1, tasks := w.tasks ++ [.reserved agent title] } where
  permits := by
    simp only [List.countP_append, List.countP_singleton, Task.holdsPermit, if_true]
    omega
  maxSessions := rfl
  nextId := Nat.le_refl _
  lives id := by
    simp [World.lives, Task.holds]

/-- One step of a call. -/
theorem counted_advance (h : task ∈ w.tasks) :
    Counted w (({ w with tasks := w.tasks.erase task } : World).advanced task) := by
  have hpermits := countP_erase Task.holdsPermit h
  have hholds := fun id => countP_erase (Task.holds id) h
  cases task with
  | reserved agent title =>
    refine ⟨?_, rfl, Nat.le_succ _, fun id => ?_⟩
    · simp only [advanced, List.countP_append, List.countP_singleton, Task.holdsPermit, if_true,
        Bool.toNat_true] at hpermits ⊢
      omega
    · have hid := hholds id
      simp only [advanced, World.lives, List.countP_append, List.countP_singleton, Task.holds,
        Bool.toNat_false, decide_eq_true_eq] at hid ⊢
      by_cases hnext : w.nextId = id
      · rw [if_pos hnext]
        exact .inr ⟨hnext.symm, Nat.lt_succ_self _, by omega⟩
      · rw [if_neg hnext]
        exact .inl (by omega)
  | numbered agent n =>
    refine ⟨?_, rfl, Nat.le_refl _, fun id => .inl ?_⟩
    · simp only [advanced, List.countP_append, List.countP_singleton, Task.holdsPermit,
        Bool.toNat_true, List.length_append, List.length_singleton] at hpermits ⊢
      simp only [Bool.false_eq_true, if_false]
      omega
    · have hid := hholds id
      simp only [advanced, World.lives, List.countP_append, List.countP_singleton, Task.holds,
        List.count_append, List.count_singleton] at hid ⊢
      by_cases hn : n = id <;> simp [hn] at hid ⊢ <;> omega
  | inserted agent n =>
    refine ⟨?_, rfl, Nat.le_refl _, fun id => .inl ?_⟩
    · simp only [advanced, Task.holdsPermit, Bool.toNat_false] at hpermits ⊢
      omega
    · have hid := hholds id
      simp only [advanced, World.lives, Task.holds, Bool.toNat_false, List.count_append,
        List.count_singleton] at hid ⊢
      simp
      omega
  | removing n =>
    refine ⟨?_, rfl, Nat.le_refl _, fun id => .inl ?_⟩
    · simp only [advanced, List.countP_append, List.countP_singleton, Task.holdsPermit, if_true,
        Bool.toNat_true] at hpermits ⊢
      omega
    · have hid := hholds id
      simp only [advanced, World.lives, List.countP_append, List.countP_singleton, Task.holds,
        List.count_append, List.count_singleton] at hid ⊢
      by_cases hn : n = id <;> simp [hn] at hid ⊢ <;> omega
  | leaving =>
    refine ⟨?_, rfl, Nat.le_refl _, fun id => .inl ?_⟩
    · simp only [advanced, Task.holdsPermit, Bool.toNat_true] at hpermits ⊢
      omega
    · have hid := hholds id
      simp only [advanced, World.lives, Task.holds, Bool.toNat_false] at hid ⊢
      omega

theorem counted_fail (h : Task.numbered false id ∈ w.tasks) :
    Counted w { w with tasks := w.tasks.erase (.numbered false id), slots := w.slots + 1 } where
  permits := by
    have hpermits := countP_erase Task.holdsPermit h
    simp only [Task.holdsPermit, Bool.toNat_true] at hpermits
    dsimp only
    omega
  maxSessions := rfl
  nextId := Nat.le_refl _
  lives n := by
    have hholds := countP_erase (Task.holds n) h
    simp only [World.lives]
    exact .inl (by omega)

/-- A session that leaves gives its permit back. -/
theorem counted_remove (h : id ∈ w.sessions) : Counted w (w.remove id) where
  permits := by
    have hlen := List.length_erase_of_mem h
    have hpos := List.length_pos_of_mem h
    simp only [remove, List.countP_append, List.countP_singleton, Task.holdsPermit, if_true]
    omega
  maxSessions := rfl
  nextId := Nat.le_refl _
  lives n := by
    have hcount : (w.sessions.erase id).count n = w.sessions.count n - if id == n then 1 else 0 :=
      List.count_erase
    have hpos := List.count_pos_iff.mpr h
    simp only [World.lives, remove, List.countP_append, List.countP_singleton, Task.holds,
      decide_eq_true_eq]
    refine .inl ?_
    by_cases hn : id = n
    · subst hn
      simp only [beq_self_eq_true, if_true] at hcount ⊢
      omega
    · rw [if_neg hn]
      simp only [beq_iff_eq, hn, if_false] at hcount
      omega

/-- The permits add up in every step. -/
theorem counted_step (w : World) (e : Event) : Counted w (w.step e) := by
  cases e with
  | spawn agent given =>
    rw [step]
    cases hspawn : w.spawn agent given with
    | error => exact .refl w
    | ok w' =>
      obtain ⟨hslots, title, -, rfl⟩ := spawn_cases hspawn
      exact counted_spawn hslots agent title
  | advance task =>
    rw [step, advance]
    split
    next h => exact counted_advance h
    · exact .refl w
  | fail id =>
    rw [step, World.fail]
    split
    next h => exact counted_fail h
    · exact .refl w
  | kill id full =>
    rw [step, kill]
    split
    · exact .refl w
    next h =>
    split
    · exact .refl w
    · exact counted_remove (not_not.mp h)
  | removeDead id =>
    rw [step, removeDead]
    split
    next h => exact counted_remove h
    · exact .refl w
  | rename id title =>
    rw [step, rename]
    split
    · exact .of_log fun _ => rfl
    · exact .refl w
  | retitle id title =>
    rw [step, retitle]
    split
    · exact .of_log fun n => by simp
    · exact .refl w
  | stop id => exact .of_log fun _ => rfl
  | emit => exact .of_log fun n => by simp

/-! ### What a step does to the map and says about it -/

/-- `es` is sent. Who enters the map is to be announced, who leaves it is to be announced as gone,
and a call under way is done only when it has said so. -/
structure Moves (w w' : World) (es : List ManagerEvent) : Prop where
  log : w'.log = w.log ++ es
  entered : ∀ id ∈ w'.sessions, id ∈ w.sessions ∨ w'.Announcing id
  said : ∀ id, w.Announcing id → w'.Announcing id ∨ Announced es id
  left : ∀ id ∈ w.sessions, id ∈ w'.sessions ∨ .removing id ∈ w'.tasks
  gone : ∀ id, .removing id ∈ w.tasks → .removing id ∈ w'.tasks ∨ .removed id ∈ es
  announcing : ∀ id, w'.Announcing id → w.Announcing id ∨ id ∈ w'.sessions
  announced : ∀ id, Announced es id → w.Announcing id ∨ id ∈ w.drivers
  driven : ∀ id ∈ w'.drivers, id ∈ w.drivers ∨ w.Announcing id

theorem not_announced_nil : ¬ Announced [] id := fun ⟨_, h⟩ => nomatch h

theorem Moves.refl (w : World) : Moves w w [] where
  log := (List.append_nil _).symm
  entered _ h := .inl h
  said _ h := .inl h
  left _ h := .inl h
  gone _ h := .inl h
  announcing _ h := .inl h
  announced _ h := absurd h not_announced_nil
  driven _ h := .inl h

theorem mem_erase_other {t : Task} (h : t ∈ tasks) (hne : t ≠ task) : t ∈ tasks.erase task :=
  (List.mem_erase_of_ne hne).mpr h

theorem mem_erase_append {t : Task} {new : List Task} (h : t ∈ tasks) (hne : t ≠ task) :
    t ∈ tasks.erase task ++ new :=
  List.mem_append_left _ (mem_erase_other h hne)

/-- A step that changes no more than calls that say nothing of a session. -/
theorem Moves.of_tasks {slots nextId : Nat} {titles : SessionId → String}
    (hsub : ∀ agent id, .inserted agent id ∈ tasks ↔ .inserted agent id ∈ w.tasks)
    (hgone : ∀ id, .removing id ∈ w.tasks → .removing id ∈ tasks) :
    Moves w { w with slots, nextId, titles, tasks } [] where
  log := (List.append_nil _).symm
  entered _ h := .inl h
  said _ h := .inl (h.imp fun agent => (hsub agent _).mpr)
  left _ h := .inl h
  gone id h := .inl (hgone id h)
  announcing _ h := .inl (h.imp fun agent => (hsub agent _).mp)
  announced _ h := absurd h not_announced_nil
  driven _ h := .inl h

/-- What the next step of a call announces. -/
theorem moves_advance (h : task ∈ w.tasks) :
    ∃ es, Moves w (({ w with tasks := w.tasks.erase task } : World).advanced task) es := by
  cases task with
  | reserved agent title =>
    refine ⟨[], Moves.of_tasks (fun agent' id => ?_) fun id hid => mem_erase_append hid nofun⟩
    simp [List.mem_erase_of_ne]
  | numbered agent n =>
    refine ⟨[], ⟨(List.append_nil _).symm, fun id hid => ?_, fun id hid => .inl ?_,
      fun id hid => .inl (List.mem_append_left _ hid),
      fun id hid => .inl (mem_erase_append hid nofun), fun id hid => ?_, fun id hid => absurd hid not_announced_nil,
      fun _ hid => .inl hid⟩⟩
    · refine (List.mem_append.mp hid).imp_right fun hid => ⟨agent, ?_⟩
      rw [List.mem_singleton.mp hid]
      exact List.mem_append_right _ (List.mem_singleton_self _)
    · exact hid.imp fun agent' hmem => mem_erase_append hmem nofun
    · obtain ⟨agent', hmem⟩ := hid
      rcases List.mem_append.mp hmem with hmem | hmem
      · exact .inl ⟨agent', List.mem_of_mem_erase hmem⟩
      · cases List.mem_singleton.mp hmem
        exact .inr (List.mem_append_right _ (List.mem_singleton_self _))
  | inserted agent n =>
    refine ⟨[.added (w.info n)], ⟨rfl, fun _ hid => .inl hid, fun id hid => ?_, fun _ hid => .inl hid,
      fun id hid => .inl (mem_erase_other hid nofun),
      fun id hid => .inl (hid.imp fun _ hmem => List.mem_of_mem_erase hmem), fun id hid => .inl ?_, fun id hid => ?_⟩⟩
    · by_cases hn : id = n
      · subst hn
        exact .inr ⟨_, List.mem_singleton_self _⟩
      · obtain ⟨agent', hmem⟩ := hid
        exact .inl ⟨agent', (List.mem_erase_of_ne (by simp [hn])).mpr hmem⟩
    · obtain ⟨title, hmem⟩ := hid
      cases List.mem_singleton.mp hmem
      exact ⟨agent, h⟩
    · simp only [advanced] at hid
      split at hid
      · exact (List.mem_cons.mp hid).elim (fun hn => .inr (hn ▸ ⟨agent, h⟩)) .inl
      · exact .inl hid
  | removing n =>
    refine ⟨[.removed n], ⟨rfl, fun _ hid => .inl hid, fun id hid => .inl (hid.imp fun _ hmem => mem_erase_append hmem nofun),
      fun _ hid => .inl hid, fun id hid => ?_, fun id hid => .inl ?_, fun id hid => ?_, fun _ hid => .inl hid⟩⟩
    · by_cases hn : id = n
      · exact .inr (List.mem_singleton.mpr (by rw [hn]))
      · exact .inl (mem_erase_append hid (by simp [hn]))
    · obtain ⟨agent', hmem⟩ := hid
      rcases List.mem_append.mp hmem with hmem | hmem
      · exact ⟨agent', List.mem_of_mem_erase hmem⟩
      · cases List.mem_singleton.mp hmem
    · obtain ⟨title, hmem⟩ := hid
      cases List.mem_singleton.mp hmem
  | leaving =>
    exact ⟨[], Moves.of_tasks (fun agent' id => ⟨List.mem_of_mem_erase, fun hid => mem_erase_other hid nofun⟩)
      fun id hid => mem_erase_other hid nofun⟩

/-- A removal is announced by its task, later. -/
theorem moves_remove (w : World) (id : SessionId) : Moves w (w.remove id) [] where
  log := (List.append_nil _).symm
  entered _ hn := .inl (List.mem_of_mem_erase hn)
  said _ hn := .inl (hn.imp fun _ => List.mem_append_left _)
  left n hn := by
    by_cases hne : n = id
    · exact .inr (List.mem_append_right _ (List.mem_singleton.mpr (by rw [hne])))
    · exact .inl ((List.mem_erase_of_ne hne).mpr hn)
  gone _ hn := .inl (List.mem_append_left _ hn)
  announcing n hn := by
    obtain ⟨agent, hmem⟩ := hn
    rcases List.mem_append.mp hmem with hmem | hmem
    · exact .inl ⟨agent, hmem⟩
    · cases List.mem_singleton.mp hmem
  announced _ hn := absurd hn not_announced_nil
  driven _ hn := .inl hn

/-- What one step announces. -/
theorem moves_step (w : World) (e : Event) : ∃ es, Moves w (w.step e) es := by
  cases e with
  | spawn agent given =>
    rw [step]
    cases hspawn : w.spawn agent given with
    | error => exact ⟨[], .refl w⟩
    | ok w' =>
      obtain ⟨-, title, -, rfl⟩ := spawn_cases hspawn
      exact ⟨[], Moves.of_tasks (fun agent' id => by simp) fun id hid => List.mem_append_left _ hid⟩
  | advance task =>
    rw [step, advance]
    split
    next h => exact moves_advance h
    · exact ⟨[], .refl w⟩
  | fail id =>
    rw [step, World.fail]
    split
    · exact ⟨[], Moves.of_tasks (fun agent' n => ⟨List.mem_of_mem_erase, fun hn => mem_erase_other hn nofun⟩)
        fun n hn => mem_erase_other hn nofun⟩
    · exact ⟨[], .refl w⟩
  | kill id full =>
    rw [step, kill]
    split
    · exact ⟨[], .refl w⟩
    split
    · exact ⟨[], .refl w⟩
    · exact ⟨[], moves_remove w id⟩
  | removeDead id =>
    rw [step, removeDead]
    split
    · exact ⟨[], moves_remove w id⟩
    · exact ⟨[], .refl w⟩
  | rename id title =>
    rw [step, rename]
    split
    · exact ⟨[], Moves.of_tasks (fun _ _ => Iff.rfl) fun _ hn => hn⟩
    · exact ⟨[], .refl w⟩
  | retitle id title =>
    rw [step, retitle]
    split
    next h =>
      refine ⟨[_], ⟨rfl, fun _ hn => .inl hn, fun _ hn => .inl hn, fun _ hn => .inl hn, fun _ hn => .inl hn,
        fun _ hn => .inl hn,
        fun n hn => .inr ?_, fun _ hn => .inl hn⟩⟩
      obtain ⟨title', hmem⟩ := hn
      cases List.mem_singleton.mp hmem
      exact h
    · exact ⟨[], .refl w⟩
  | stop id =>
    exact ⟨[], (List.append_nil _).symm, fun _ hn => .inl hn, fun _ hn => .inl hn, fun _ hn => .inl hn, fun _ hn => .inl hn,
      fun _ hn => .inl hn, fun _ hn => absurd hn not_announced_nil, fun n hn => .inl (List.mem_of_mem_erase hn)⟩
  | emit =>
    refine ⟨[.other], rfl, fun _ hn => .inl hn, fun _ hn => .inl hn, fun _ hn => .inl hn, fun _ hn => .inl hn,
      fun _ hn => .inl hn, fun n hn => ?_, fun _ hn => .inl hn⟩
    obtain ⟨title, hmem⟩ := hn
    cases List.mem_singleton.mp hmem

end World

namespace World

/-! ## Every run -/

theorem Known.step {es : List ManagerEvent} (hm : Moves w w' es) (h : w.Known id) :
    w'.Known id := by
  rcases h with h | h | h
  · exact (hm.left id h).elim .inl fun h => .inr (.inl h)
  · exact (hm.gone id h).elim (fun h => .inr (.inl h)) fun h => .inr (.inr (hm.log ▸ List.mem_append_right _ h))
  · exact .inr (.inr (hm.log ▸ List.mem_append_left _ h))

theorem announced_append {es : List ManagerEvent} {log : List ManagerEvent} :
    Announced (log ++ es) id ↔ Announced log id ∨ Announced es id := by
  simp only [Announced, List.mem_append, exists_or]

/-- The titles that are kept, and those of the calls under way. -/
structure Short (w : World) : Prop where
  tasks : ∀ agent title, .reserved agent title ∈ w.tasks → title.utf8ByteSize ≤ maxTitleBytes
  titles : ∀ id, (w.titles id).utf8ByteSize ≤ maxTitleBytes

theorem Short.update (h : Short w) (id : SessionId) (hle : title.utf8ByteSize ≤ maxTitleBytes)
    (n : SessionId) :
    (Function.update w.titles id title n).utf8ByteSize ≤ maxTitleBytes := by
  rw [Function.update_apply]
  split
  · exact hle
  · exact h.titles n

theorem Short.advanced (h : Short w) (htask : task ∈ w.tasks) :
    Short (({ w with tasks := w.tasks.erase task } : World).advanced task) := by
  have hold : ∀ agent title, .reserved agent title ∈ w.tasks.erase task →
      title.utf8ByteSize ≤ maxTitleBytes :=
    fun agent title hmem => h.tasks agent title (List.mem_of_mem_erase hmem)
  cases task with
  | reserved agent title =>
    refine ⟨fun agent' title' hmem => hold agent' title' ?_, h.update _ (h.tasks agent title htask)⟩
    simpa [World.advanced] using hmem
  | numbered agent id => exact ⟨fun agent' title' hmem => hold agent' title' (by simpa [World.advanced] using hmem), h.titles⟩
  | removing id => exact ⟨fun agent' title' hmem => hold agent' title' (by simpa [World.advanced] using hmem), h.titles⟩
  | inserted agent id => exact ⟨hold, h.titles⟩
  | leaving => exact ⟨hold, h.titles⟩

theorem Short.remove (h : Short w) (id : SessionId) : Short (w.remove id) :=
  ⟨fun agent title hmem => h.tasks agent title (by simpa [World.remove] using hmem), h.titles⟩

/-- A title is cut before it is kept. -/
theorem Short.step (h : Short w) (e : Event) : Short (w.step e) := by
  cases e with
  | spawn agent given =>
    rw [World.step]
    cases hspawn : w.spawn agent given with
    | error => exact h
    | ok w' =>
      obtain ⟨-, title, hle, rfl⟩ := spawn_cases hspawn
      refine ⟨fun agent' title' hmem => ?_, h.titles⟩
      rcases List.mem_append.mp hmem with hmem | hmem
      · exact h.tasks agent' title' hmem
      · cases List.mem_singleton.mp hmem
        exact hle
  | advance task =>
    rw [World.step, advance]
    split
    next htask => exact h.advanced htask
    · exact h
  | fail id =>
    rw [World.step, World.fail]
    split
    · exact ⟨fun agent title hmem => h.tasks agent title (List.mem_of_mem_erase hmem), h.titles⟩
    · exact h
  | kill id full =>
    rw [World.step, kill]
    split
    · exact h
    split
    · exact h
    · exact h.remove id
  | removeDead id =>
    rw [World.step, removeDead]
    split
    · exact h.remove id
    · exact h
  | rename id title =>
    rw [World.step, rename]
    split
    · exact ⟨h.tasks, h.update id (utf8ByteSize_clampTitle title)⟩
    · exact h
  | retitle id title =>
    rw [World.step, retitle]
    split
    · exact ⟨h.tasks, h.update id (utf8ByteSize_clampTitle title)⟩
    · exact h
  | stop id => exact ⟨h.tasks, h.titles⟩
  | emit => exact ⟨h.tasks, h.titles⟩

theorem Inv.step (h : w.Inv) (e : Event) : (w.step e).Inv := by
  have hc := counted_step w e
  obtain ⟨es, hm⟩ := moves_step w e
  refine ⟨?_, fun id hid => ?_, fun id => ?_, fun id hid => ?_, fun id hid => ?_, fun id hid => ?_, fun id hid => ?_⟩
  · rw [hc.permits, hc.maxSessions, h.permits]
  · have hold := h.fresh id (Nat.le_trans hc.nextId hid)
    rcases hc.lives id with hlives | ⟨hnext, hlt, -⟩
    · omega
    · exact absurd (Nat.lt_of_lt_of_le hlt hid) (hnext ▸ Nat.lt_irrefl _)
  · rcases hc.lives id with hlives | ⟨hnext, -, hlives⟩
    · exact Nat.le_trans hlives (h.once id)
    · have hold := h.fresh id (Nat.le_of_eq hnext.symm)
      omega
  · rcases hm.announcing id hid with hid | hid
    · exact (h.announcing id hid).step hm
    · exact .inl hid
  · rw [hm.log, announced_append] at hid
    rcases hid with hid | hid
    · exact (h.announced id hid).step hm
    · rcases hm.announced id hid with hid | hid
      · exact (h.announcing id hid).step hm
      · exact (h.driven id hid).step hm
  · rcases hm.driven id hid with hid | hid
    · exact (h.driven id hid).step hm
    · exact (h.announcing id hid).step hm
  · rw [hm.log, announced_append]
    rcases hm.entered id hid with hid | hid
    · rcases h.due id hid with hid | hid
      · exact (hm.said id hid).imp_right .inr
      · exact .inr (.inl hid)
    · exact .inl hid

theorem inv_start (maxSessions : Nat) : (start maxSessions).Inv where
  permits := rfl
  fresh _ _ := rfl
  once _ := Nat.zero_le _
  announcing _ h := nomatch h.choose_spec
  announced _ h := absurd h not_announced_nil
  driven _ h := nomatch h
  due _ h := nomatch h

theorem inv_run (maxSessions : Nat) (events : List Event) :
    (Run.run step (start maxSessions) events).Inv :=
  Run.run_induction (I := fun _ (w : World) => w.Inv) (inv_start maxSessions) fun _ e _ _ h => h.step e

theorem short_run (maxSessions : Nat) (events : List Event) :
    Short (Run.run step (start maxSessions) events) :=
  Run.run_induction (I := fun _ (w : World) => Short w) ⟨fun _ _ h => (nomatch h),
    fun _ => Nat.zero_le _⟩ fun _ e _ _ h => h.step e

theorem not_mem_of_removed (h : w.Inv) (hid : .removed id ∈ w.log) : id ∉ w.sessions := by
  intro hmem
  have honce := h.once id
  have hlog := List.count_pos_iff.mpr hid
  have hsessions := List.count_pos_iff.mpr hmem
  rw [lives] at honce
  omega

/-- After any run of any calls: the permits that are left, those of the sessions in the map and
those of the calls under way are all there are, so that no more sessions are in the map than
allowed; a new one is refused exactly if no permit is left; no number is given twice or comes back
after it was announced as gone; and what is listed has a short title. -/
theorem registry_bounded (maxSessions : Nat) (events : List Event) (agent : Bool)
    (given : Option String) :
    let w := Run.run step (start maxSessions) events
    w.slots + w.sessions.length + w.tasks.countP Task.holdsPermit = maxSessions ∧ w.sessions.Nodup ∧
      (∀ id ∈ w.sessions, id < w.nextId ∧ .removed id ∉ w.log) ∧ (∀ id, w.log.count (.removed id) ≤ 1) ∧
      (∀ info ∈ w.list, info.title.utf8ByteSize ≤ maxTitleBytes) ∧
      ((w.spawn agent given).toOption = none ↔ w.sessions.length + w.tasks.countP Task.holdsPermit = maxSessions) := by
  intro w
  have h : w.Inv := inv_run maxSessions events
  have hmax : w.maxSessions = maxSessions := by
    refine Run.run_induction (I := fun _ (w : World) => w.maxSessions = maxSessions) rfl fun _ e _ _ h => ?_
    exact (counted_step _ e).maxSessions.trans h
  have hpermits := hmax ▸ h.permits
  refine ⟨hpermits, List.nodup_iff_count_le_one.mpr fun id => ?_, fun id hid => ⟨?_, fun hlog => not_mem_of_removed h hlog hid⟩,
    fun id => ?_, fun info hinfo => ?_, ?_⟩
  · have honce := h.once id
    rw [lives] at honce
    omega
  · by_contra hle
    have hfresh := h.fresh id (Nat.le_of_not_lt hle)
    have hpos := List.count_pos_iff.mpr hid
    rw [lives] at hfresh
    omega
  · have honce := h.once id
    rw [lives] at honce
    omega
  · obtain ⟨id, -, rfl⟩ := List.mem_map.mp hinfo
    exact (short_run maxSessions events).titles id
  · have hspawn : (w.spawn agent given).toOption = none ↔ w.slots = 0 := by
      rw [World.spawn, reserveCapacity]
      split
      next hslots => exact ⟨fun _ => hslots, fun _ => rfl⟩
      next hslots => exact ⟨nofun, fun h => absurd h hslots⟩
    rw [hspawn]
    omega

end World

end Portty.Host.Sessions
