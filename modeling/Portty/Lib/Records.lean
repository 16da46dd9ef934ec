import Mathlib.Logic.Function.Basic
import Mathlib.Tactic

/-!
# Programs over a store of named records

A program (`Prog`) reads, writes and removes records by name, and does pure computation between
these calls. The store has, for each record, the content that a read sees and the content that is
certain to survive a crash (`Slot`).

* **Calls can fail** (`Outcome`): a failed call leaves the record as it was, or already changed. The
  outcomes of a program's calls are given as a list (`exec`); a call past its end succeeds.
* **Crashes** (`after`, `crash`): the program stops before one of its calls, and each record keeps
  its content or goes back to the durable one (`Fate`).
* **Properties of contents** (`keeps`): if every content of every record satisfies `P` and the
  program writes only contents that do, this holds at every crash point and after every crash
  (`keeps_after`, `AllBoth.crash`). Such a proof does not mention the store.
* **One record** (`spares`, `follows`): a program that does not write a record leaves it as it is;
  without failures, what a program leaves in a record is computed from that record alone.
* **Ignored failures** (`makes`): a program that ignores the failures of one record makes the same
  calls whatever they are, so a crash point is a prefix of a list of calls (`makes_after`).
-/

namespace Records

variable {N B ε α β : Type}

/-- How a store call ends: it succeeds, or it fails with the record as before, or it fails with the
record already changed (a read has no effect in any case). -/
inductive Outcome (ε : Type) where
  | ok
  | failedOld (e : ε)
  | failedNew (e : ε)
  deriving DecidableEq, Repr

/-- The call failed. -/
def Outcome.failed : Outcome ε → Bool
  | .ok => false
  | .failedOld _ | .failedNew _ => true

/-- The call failed with the record already changed. -/
def Outcome.leftNew : Outcome ε → Bool
  | .failedNew _ => true
  | .ok | .failedOld _ => false

/-- What the caller of a write or a removal is told. -/
def Outcome.reply : Outcome ε → Except ε Unit
  | .ok => .ok ()
  | .failedOld e | .failedNew e => .error e

/-- What the caller of a read is told. -/
def Outcome.replyRead (c : Option B) : Outcome ε → Except ε (Option B)
  | .ok => .ok c
  | .failedOld e | .failedNew e => .error e

@[simp] theorem Outcome.failed_ok : (.ok : Outcome ε).failed = false := rfl
@[simp] theorem Outcome.failed_failedOld (e : ε) : (Outcome.failedOld e).failed = true := rfl
@[simp] theorem Outcome.failed_failedNew (e : ε) : (Outcome.failedNew e).failed = true := rfl
@[simp] theorem Outcome.leftNew_ok : (.ok : Outcome ε).leftNew = false := rfl
@[simp] theorem Outcome.leftNew_failedOld (e : ε) : (Outcome.failedOld e).leftNew = false := rfl
@[simp] theorem Outcome.leftNew_failedNew (e : ε) : (Outcome.failedNew e).leftNew = true := rfl

/-- One record: its content, and the content that a crash cannot take away. -/
structure Slot (B : Type) where
  current : Option B
  durable : Option B
  deriving DecidableEq, Repr

/-- A write of `b` that, if it succeeds, is durable only if `sync`. -/
def Slot.write (s : Slot B) (b : B) (sync : Bool) : Outcome ε → Slot B
  | .ok => ⟨some b, if sync then some b else s.durable⟩
  | .failedOld _ => s
  | .failedNew _ => ⟨some b, s.durable⟩

theorem Slot.current_write (s : Slot B) (b : B) (sync : Bool) (o : Outcome ε) :
    (s.write b sync o).current = if o.failed && !o.leftNew then s.current else some b := by
  cases o <;> rfl

/-- A removal, durable if it succeeds. -/
def Slot.remove (s : Slot B) : Outcome ε → Slot B
  | .ok => ⟨none, none⟩
  | .failedOld _ => s
  | .failedNew _ => ⟨none, s.durable⟩

/-- The records by name. -/
abbrev Disk (N B : Type) := N → Slot B

/-- A program over the store with results in `α`. -/
inductive Prog (N B ε α : Type) where
  | ret (a : α)
  | read (n : N) (k : Except ε (Option B) → Prog N B ε α)
  | write (n : N) (b : B) (sync : Bool) (k : Except ε Unit → Prog N B ε α)
  | remove (n : N) (k : Except ε Unit → Prog N B ε α)

namespace Prog

/-- What comes after a program. -/
def bind : Prog N B ε α → (α → Prog N B ε β) → Prog N B ε β
  | ret a, f => f a
  | read n k, f => read n fun r => (k r).bind f
  | write n b s k, f => write n b s fun r => (k r).bind f
  | remove n k, f => remove n fun r => (k r).bind f

instance : Monad (Prog N B ε) where
  pure := ret
  bind := bind

@[simp] theorem pure_eq (a : α) : (pure a : Prog N B ε α) = ret a := rfl
@[simp] theorem ret_bind (a : α) (f : α → Prog N B ε β) : (ret a >>= f) = f a := rfl
@[simp] theorem read_bind (n : N) (k : Except ε (Option B) → Prog N B ε α)
    (f : α → Prog N B ε β) : (read n k >>= f) = read n fun r => k r >>= f := rfl

variable [DecidableEq N]

/-- Run a program: its result, the store after it and the outcomes it has not used. -/
def exec : Prog N B ε α → List (Outcome ε) → Disk N B → α × Disk N B × List (Outcome ε)
  | ret a, os, d => (a, d, os)
  | read n k, os, d => (k ((os.headD .ok).replyRead (d n).current)).exec os.tail d
  | write n b s k, os, d =>
    (k (os.headD .ok).reply).exec os.tail (Function.update d n ((d n).write b s (os.headD .ok)))
  | remove n k, os, d =>
    (k (os.headD .ok).reply).exec os.tail (Function.update d n ((d n).remove (os.headD .ok)))

/-- The store after the first `i` calls of a program. -/
def after : Nat → Prog N B ε α → List (Outcome ε) → Disk N B → Disk N B
  | 0, _, _, d => d
  | _ + 1, ret _, _, d => d
  | i + 1, read n k, os, d => after i (k ((os.headD .ok).replyRead (d n).current)) os.tail d
  | i + 1, write n b s k, os, d =>
    after i (k (os.headD .ok).reply) os.tail
      (Function.update d n ((d n).write b s (os.headD .ok)))
  | i + 1, remove n k, os, d =>
    after i (k (os.headD .ok).reply) os.tail
      (Function.update d n ((d n).remove (os.headD .ok)))

theorem exec_bind (p : Prog N B ε α) (f : α → Prog N B ε β) (os : List (Outcome ε))
    (d : Disk N B) :
    (p >>= f).exec os d = (f (p.exec os d).1).exec (p.exec os d).2.2 (p.exec os d).2.1 := by
  induction p generalizing os d with
  | ret a => rfl
  | read n k ih => exact ih _ _ _
  | write n b s k ih => exact ih _ _ _
  | remove n k ih => exact ih _ _ _

end Prog

/-! ## Crashes -/

/-- What a crash does to one record. A record that survives may be durable from then on, or not. -/
inductive Fate where
  | kept
  | settled
  | reverted
  deriving DecidableEq, Repr

/-- The record after a crash. -/
def Slot.crash (s : Slot B) : Fate → Slot B
  | .kept => s
  | .settled => ⟨s.current, s.current⟩
  | .reverted => ⟨s.durable, s.durable⟩

/-- The store after a crash: each record on its own. -/
def crash (f : N → Fate) (d : Disk N B) : Disk N B := fun n => (d n).crash (f n)

/-- Both contents of a record satisfy `P`. -/
def Slot.Both (P : Option B → Prop) (s : Slot B) : Prop := P s.current ∧ P s.durable

theorem Slot.Both.crash {P : Option B → Prop} {s : Slot B} (h : s.Both P) (f : Fate) :
    (s.crash f).Both P := by
  cases f
  · exact h
  · exact ⟨h.1, h.1⟩
  · exact ⟨h.2, h.2⟩

/-- A successful write keeps a property of both contents that the new content has. -/
theorem Slot.Both.write {P : Option B → Prop} {s : Slot B} (h : s.Both P) {b : B} (hb : P (some b))
    (sync : Bool) : (s.write b sync (.ok : Outcome ε)).Both P := by
  cases sync
  · exact ⟨hb, h.2⟩
  · exact ⟨hb, hb⟩

theorem Slot.Both.remove {P : Option B → Prop} {s : Slot B} (hb : P none) :
    (s.remove (.ok : Outcome ε)).Both P := ⟨hb, hb⟩

/-! ## Properties of all contents -/

/-- Every content of every record satisfies `P`. -/
def AllBoth (P : N → Option B → Prop) (d : Disk N B) : Prop := ∀ n, (d n).Both (P n)

theorem AllBoth.crash {P : N → Option B → Prop} {d : Disk N B} (h : AllBoth P d)
    (f : N → Fate) : AllBoth P (crash f d) := fun n => (h n).crash (f n)

namespace Prog

/-- The program, if its calls succeed, writes only contents that satisfy `P` and its result
satisfies `Q`. A read may find any content that satisfies `P`. -/
def keeps (P : N → Option B → Prop) (Q : α → Prop) : Prog N B ε α → Prop
  | ret a => Q a
  | read n k => ∀ c, P n c → (k (.ok c)).keeps P Q
  | write n b _ k => P n (some b) ∧ (k (.ok ())).keeps P Q
  | remove n k => P n none ∧ (k (.ok ())).keeps P Q

section Keeps

variable {P : N → Option B → Prop} {Q : α → Prop}

theorem keeps_mono {R : α → Prop} {p : Prog N B ε α} (h : p.keeps P Q) (hQ : ∀ a, Q a → R a) :
    p.keeps P R := by
  induction p with
  | ret a => exact hQ a h
  | read n k ih => exact fun c hc => ih _ (h c hc)
  | write n b s k ih => exact ⟨h.1, ih _ h.2⟩
  | remove n k ih => exact ⟨h.1, ih _ h.2⟩

theorem keeps_bind {R : β → Prop} {p : Prog N B ε α} {f : α → Prog N B ε β}
    (h : p.keeps P fun a => (f a).keeps P R) : (p >>= f).keeps P R := by
  induction p with
  | ret a => exact h
  | read n k ih => exact fun c hc => ih _ (h c hc)
  | write n b s k ih => exact ⟨h.1, ih _ h.2⟩
  | remove n k ih => exact ⟨h.1, ih _ h.2⟩

variable [DecidableEq N]

theorem AllBoth.update {d : Disk N B} (h : AllBoth P d) {n : N} {s : Slot B} (hs : s.Both (P n)) :
    AllBoth P (Function.update d n s) := by
  intro m
  by_cases hm : m = n
  · subst hm; rw [Function.update_self]; exact hs
  · rw [Function.update_of_ne hm]; exact h m

theorem keeps_after {p : Prog N B ε α} {d : Disk N B} (h : p.keeps P Q) (hd : AllBoth P d)
    (i : Nat) : AllBoth P (after i p [] d) := by
  induction i generalizing p d with
  | zero => exact hd
  | succ i ih =>
    cases p with
    | ret a => exact hd
    | read n k => exact ih (h _ (hd n).1) hd
    | write n b s k => exact ih h.2 (AllBoth.update hd ((hd n).write h.1 s))
    | remove n k => exact ih h.2 (AllBoth.update hd (Slot.Both.remove h.1))

theorem keeps_exec {p : Prog N B ε α} {d : Disk N B} (h : p.keeps P Q) (hd : AllBoth P d) :
    AllBoth P (p.exec [] d).2.1 ∧ Q (p.exec [] d).1 := by
  induction p generalizing d with
  | ret a => exact ⟨hd, h⟩
  | read n k ih => exact ih _ (h _ (hd n).1) hd
  | write n b s k ih => exact ih _ h.2 (AllBoth.update hd ((hd n).write h.1 s))
  | remove n k ih => exact ih _ h.2 (AllBoth.update hd (Slot.Both.remove h.1))

end Keeps

/-! ## Records that a program leaves alone -/

/-- Whatever its calls reply, the program changes no content of the record `n`, and its result
satisfies `Q`. -/
def spares (n : N) (Q : α → Prop) : Prog N B ε α → Prop
  | ret a => Q a
  | read _ k => ∀ r, (k r).spares n Q
  | write m _ _ k => m ≠ n ∧ ∀ r, (k r).spares n Q
  | remove m k => m ≠ n ∧ ∀ r, (k r).spares n Q

theorem spares_mono {n : N} {Q R : α → Prop} {p : Prog N B ε α} (h : p.spares n Q)
    (hQ : ∀ a, Q a → R a) : p.spares n R := by
  induction p with
  | ret a => exact hQ a h
  | read m k ih => exact fun r => ih r (h r)
  | write m b s k ih => exact ⟨h.1, fun r => ih r (h.2 r)⟩
  | remove m k ih => exact ⟨h.1, fun r => ih r (h.2 r)⟩

theorem spares_bind {n : N} {Q : α → Prop} {R : β → Prop} {p : Prog N B ε α}
    {f : α → Prog N B ε β} (hp : p.spares n Q) (hf : ∀ a, Q a → (f a).spares n R) :
    (p >>= f).spares n R := by
  induction p with
  | ret a => exact hf a hp
  | read m k ih => exact fun r => ih r (hp r)
  | write m b s k ih => exact ⟨hp.1, fun r => ih r (hp.2 r)⟩
  | remove m k ih => exact ⟨hp.1, fun r => ih r (hp.2 r)⟩

theorem spares_exec [DecidableEq N] {n : N} {Q : α → Prop} {p : Prog N B ε α}
    (h : p.spares n Q) (os : List (Outcome ε)) (d : Disk N B) :
    Q (p.exec os d).1 ∧ (p.exec os d).2.1 n = d n := by
  induction p generalizing os d with
  | ret a => exact ⟨h, rfl⟩
  | read m k ih => exact ih _ (h _) _ _
  | write m b s k ih =>
    obtain ⟨hQ, hd⟩ := ih _ (h.2 (os.headD .ok).reply) os.tail
      (Function.update d m ((d m).write b s (os.headD .ok)))
    exact ⟨hQ, hd.trans (Function.update_of_ne h.1.symm _ _)⟩
  | remove m k ih =>
    obtain ⟨hQ, hd⟩ := ih _ (h.2 (os.headD .ok).reply) os.tail
      (Function.update d m ((d m).remove (os.headD .ok)))
    exact ⟨hQ, hd.trans (Function.update_of_ne h.1.symm _ _)⟩

/-- Run without failures from the content `c` of the record `n`, the program's result and the
content that it leaves in `n` satisfy `Q`, whatever it reads from the other records. -/
def follows [DecidableEq N] (n : N) (Q : α → Option B → Prop) : Prog N B ε α → Option B → Prop
  | ret a, c => Q a c
  | read m k, c => if m = n then (k (.ok c)).follows n Q c else ∀ r, (k r).follows n Q c
  | write m b _ k, c => (k (.ok ())).follows n Q (if m = n then some b else c)
  | remove m k, c => (k (.ok ())).follows n Q (if m = n then none else c)

theorem follows_bind [DecidableEq N] {n : N} {Q : α → Option B → Prop} {R : β → Option B → Prop}
    {p : Prog N B ε α} {f : α → Prog N B ε β} {c : Option B} (hp : p.follows n Q c)
    (hf : ∀ a c, Q a c → (f a).follows n R c) : (p >>= f).follows n R c := by
  induction p generalizing c with
  | ret a => exact hf a c hp
  | read m k ih =>
    simp only [read_bind, follows] at hp ⊢
    split
    · rw [if_pos ‹_›] at hp
      exact ih _ hp
    · rw [if_neg ‹_›] at hp
      exact fun r => ih r (hp r)
  | write m b s k ih => exact ih _ hp
  | remove m k ih => exact ih _ hp

/-- A program that follows a record ends with what the record has. -/
theorem follows_exec [DecidableEq N] {n : N} {Q : α → Option B → Prop} {p : Prog N B ε α}
    {d : Disk N B} (h : p.follows n Q (d n).current) :
    Q (p.exec [] d).1 ((p.exec [] d).2.1 n).current := by
  induction p generalizing d with
  | ret a => exact h
  | read m k ih =>
    simp only [follows] at h
    split at h
    · subst_vars
      exact ih _ h
    · exact ih _ (h _)
  | write m b s k ih =>
    refine ih (.ok ()) (d := Function.update d m ((d m).write b s .ok)) ?_
    by_cases hm : m = n
    · subst hm
      simpa [follows, Slot.write] using h
    · simpa [follows, hm, Function.update_of_ne (Ne.symm hm)] using h
  | remove m k ih =>
    refine ih (.ok ()) (d := Function.update d m ((d m).remove .ok)) ?_
    by_cases hm : m = n
    · subst hm
      simpa [follows, Slot.remove] using h
    · simpa [follows, hm, Function.update_of_ne (Ne.symm hm)] using h

/-! ## Programs that start with durable writes -/

/-- The program starts with the durable writes `ws` and continues as `q` if they succeed. -/
def StartsWith : List (N × B) → Prog N B ε α → Prog N B ε α → Prop
  | [], p, q => p = q
  | w :: ws, p, q => ∃ k, p = .write w.1 w.2 true k ∧ StartsWith ws (k (.ok ())) q

theorem StartsWith.bind {ws : List (N × B)} {p q : Prog N B ε α} (h : StartsWith ws p q)
    (f : α → Prog N B ε β) : StartsWith ws (p >>= f) (q >>= f) := by
  induction ws generalizing p with
  | nil => exact congrArg (· >>= f) h
  | cons w ws ih =>
    obtain ⟨k, rfl, hk⟩ := h
    exact ⟨_, rfl, ih hk⟩

variable [DecidableEq N]

/-- The records after durable writes. -/
def written (ws : List (N × B)) (d : Disk N B) : Disk N B :=
  ws.foldl (fun d w => Function.update d w.1 ⟨some w.2, some w.2⟩) d

theorem StartsWith.exec {ws : List (N × B)} {p q : Prog N B ε α} (h : StartsWith ws p q)
    (d : Disk N B) : p.exec [] d = q.exec [] (written ws d) := by
  induction ws generalizing p d with
  | nil => cases h; rfl
  | cons w ws ih =>
    obtain ⟨k, rfl, hk⟩ := h
    exact ih hk _

/-- A crash finds the first writes, or the records at a crash point of the rest. -/
theorem StartsWith.after {ws : List (N × B)} {p q : Prog N B ε α} (h : StartsWith ws p q)
    (i : Nat) (d : Disk N B) :
    p.after i [] d = if i < ws.length then written (ws.take i) d
      else q.after (i - ws.length) [] (written ws d) := by
  induction ws generalizing p d i with
  | nil => cases h; simp [written]
  | cons w ws ih =>
    obtain ⟨k, rfl, hk⟩ := h
    cases i with
    | zero => simp [written, Prog.after]
    | succ i =>
      have hi := ih hk i (Function.update d w.1 ⟨some w.2, some w.2⟩)
      simpa [written, Prog.after, Outcome.reply, Slot.write] using hi

theorem AllBoth.written {P : N → Option B → Prop} {d : Disk N B} (h : AllBoth P d)
    {ws : List (N × B)} (hw : ∀ w ∈ ws, P w.1 (some w.2)) : AllBoth P (written ws d) := by
  induction ws generalizing d with
  | nil => exact h
  | cons w ws ih =>
    have hw₀ := hw w List.mem_cons_self
    exact ih (AllBoth.update h ⟨hw₀, hw₀⟩) fun v hv => hw v (List.mem_cons_of_mem _ hv)

end Prog

/-! ## Programs with calls whose failure is ignored -/

/-- A call that changes a record. -/
inductive Call (N B : Type) where
  | write (n : N) (b : B) (sync : Bool)
  | remove (n : N)
  deriving DecidableEq, Repr

namespace Call

/-- The record of a call. -/
def name : Call N B → N
  | write n _ _ | remove n => n

variable [DecidableEq N]

/-- The records after the call. -/
def perform (o : Outcome ε) (d : Disk N B) : Call N B → Disk N B
  | write n b s => Function.update d n ((d n).write b s o)
  | remove n => Function.update d n ((d n).remove o)

/-- The records after calls of which those on `n` end with `o` and the others succeed. -/
def performAll (n : N) (o : Outcome ε) (cs : List (Call N B)) (d : Disk N B) : Disk N B :=
  cs.foldl (fun d c => c.perform (if c.name = n then o else .ok) d) d

end Call

namespace Prog

/-- The program makes the calls `cs` and returns `a`, as long as the calls on records other than
`n` succeed. What the calls on `n` reply makes no difference. -/
def makes (n : N) (a : α) : List (Call N B) → Prog N B ε α → Prop
  | [], p => p = ret a
  | .write m b s :: cs, p =>
    ∃ k, p = .write m b s k ∧ ∀ r, (m = n ∨ r = .ok ()) → makes n a cs (k r)
  | .remove m :: cs, p =>
    ∃ k, p = .remove m k ∧ ∀ r, (m = n ∨ r = .ok ()) → makes n a cs (k r)

theorem makes_bind {n : N} {a : α} {b : β} {cs cs' : List (Call N B)} {p : Prog N B ε α}
    {f : α → Prog N B ε β} (hp : p.makes n a cs) (hf : (f a).makes n b cs') :
    (p >>= f).makes n b (cs ++ cs') := by
  induction cs generalizing p with
  | nil => cases hp; exact hf
  | cons c cs ih =>
    cases c with
    | write m b s =>
      obtain ⟨k, rfl, hk⟩ := hp
      exact ⟨_, rfl, fun r hr => ih (hk r hr)⟩
    | remove m =>
      obtain ⟨k, rfl, hk⟩ := hp
      exact ⟨_, rfl, fun r hr => ih (hk r hr)⟩

theorem makes_bind_ret {n : N} {a : α} {b : β} {cs : List (Call N B)} {p : Prog N B ε α}
    {f : α → Prog N B ε β} (hp : p.makes n a cs) (hf : f a = .ret b) :
    (p >>= f).makes n b cs := by
  have h := makes_bind hp (show (f a).makes n b [] from hf)
  rwa [List.append_nil] at h

variable [DecidableEq N]

/-- The outcomes of a run in which the calls on `n` end with `o` and the others succeed. -/
def onlyOn (n : N) (o : Outcome ε) : Prog N B ε α → Disk N B → List (Outcome ε)
  | ret _, _ => []
  | read m k, d =>
    let x := if m = n then o else .ok
    x :: (k (x.replyRead (d m).current)).onlyOn n o d
  | write m b s k, d =>
    let x := if m = n then o else .ok
    x :: (k x.reply).onlyOn n o (Function.update d m ((d m).write b s x))
  | remove m k, d =>
    let x := if m = n then o else .ok
    x :: (k x.reply).onlyOn n o (Function.update d m ((d m).remove x))

theorem reply_ok_or {n m : N} (o : Outcome ε) :
    m = n ∨ (if m = n then o else .ok).reply = .ok () := by
  by_cases h : m = n
  · exact .inl h
  · rw [if_neg h]
    exact .inr rfl

theorem makes_exec {n : N} {a : α} {cs : List (Call N B)} {p : Prog N B ε α}
    (h : p.makes n a cs) (o : Outcome ε) (d : Disk N B) :
    p.exec (p.onlyOn n o d) d = (a, Call.performAll n o cs d, []) := by
  induction cs generalizing p d with
  | nil => cases h; rfl
  | cons c cs ih =>
    cases c with
    | write m b s =>
      obtain ⟨k, rfl, hk⟩ := h
      exact ih (hk _ (reply_ok_or o)) _
    | remove m =>
      obtain ⟨k, rfl, hk⟩ := h
      exact ih (hk _ (reply_ok_or o)) _

/-- A program that was stopped has made a start of its calls. -/
theorem makes_after {n : N} {a : α} {cs : List (Call N B)} {p : Prog N B ε α}
    (h : p.makes n a cs) (o : Outcome ε) (d : Disk N B) (i : Nat) :
    p.after i (p.onlyOn n o d) d = Call.performAll n o (cs.take i) d := by
  induction cs generalizing p d i with
  | nil => cases h; cases i <;> simp [Prog.after, Call.performAll]
  | cons c cs ih =>
    cases i with
    | zero => cases p <;> rfl
    | succ i =>
      cases c with
      | write m b s =>
        obtain ⟨k, rfl, hk⟩ := h
        exact ih (hk _ (reply_ok_or o)) _ i
      | remove m =>
        obtain ⟨k, rfl, hk⟩ := h
        exact ih (hk _ (reply_ok_or o)) _ i

end Prog

end Records
