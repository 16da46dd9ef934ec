import Portty.Lib.Records
import Portty.Transport.Types

/-!
# The credential store (`credential_store.rs`)

`CredentialStore` is a store of named records; a `write` says how durable it must be
(`Durability`), a `remove` is always durable. The trait is `Records.Prog`: code that calls it is a
program over the records (`StoreM`), and what a call can do, with a crash after it, is the
library's (`Portty/Lib/Records.lean`).

`postcard` is outside the repository. `Codec` is what the code uses of it: `from_bytes` of what
`to_allocvec` gave is the value (`Codec.fromBytes_toAllocvec`). Nothing is assumed about other
bytes, which may decode to anything or not at all. `to_allocvec` cannot fail on these types.
-/

namespace Portty

open Records

/-- The records of the store. -/
inductive RecordName where
  | identity
  | peers
  | lastHost
  | pairState
  | revocations
  | grace
  deriving DecidableEq, Repr

/-- How durable a write must be before it may report success. -/
inductive Durability where
  | bestEffort
  | required
  deriving DecidableEq, Repr

/-- A successful write is durable if the level is `Required`. -/
def Durability.sync : Durability → Bool
  | .bestEffort => false
  | .required => true

/-- `std::io::ErrorKind`, as far as the code makes one itself. -/
inductive ErrorKind where
  | permissionDenied
  | invalidData
  | other
  deriving DecidableEq, Repr

/-- `std::io::Error`. -/
structure IoError where
  kind : ErrorKind
  msg : String
  deriving DecidableEq, Repr

/-- `postcard` for one type (module doc). -/
class Codec (B α : Type) where
  toAllocvec : α → B
  fromBytes : B → Option α
  fromBytes_toAllocvec : ∀ a, fromBytes (toAllocvec a) = some a

attribute [simp] Codec.fromBytes_toAllocvec

/-- Code over the credential store. -/
abbrev StoreM (B α : Type) := Prog RecordName B IoError α

namespace StoreM

variable {B α β : Type}

/-- `CredentialStore::read`. -/
def read (n : RecordName) : StoreM B (Except IoError (Option B)) := Prog.read n .ret

/-- `CredentialStore::write`. -/
def write (n : RecordName) (b : B) (durability : Durability) : StoreM B (Except IoError Unit) :=
  Prog.write n b durability.sync .ret

/-- `CredentialStore::remove`. -/
def remove (n : RecordName) : StoreM B (Except IoError Unit) := Prog.remove n .ret

/-- The operator `?`: return early with the error. -/
def andThen (m : StoreM B (Except IoError α)) (f : α → StoreM B (Except IoError β)) :
    StoreM B (Except IoError β) := do
  match ← m with
  | .error e => return .error e
  | .ok a => f a

theorem keeps_write {P : RecordName → Option B → Prop} {Q : α → Prop} {n : RecordName} {b : B}
    {dur : Durability} {f : Except IoError Unit → StoreM B α} (hb : P n (some b))
    (hf : (f (.ok ())).keeps P Q) : (write n b dur >>= f).keeps P Q := ⟨hb, hf⟩

/-- A write of another record. -/
theorem spares_write {Q : α → Prop} {n m : RecordName} {b : B} {dur : Durability}
    {f : Except IoError Unit → StoreM B α} (hm : m ≠ n) (hf : ∀ r, (f r).spares n Q) :
    (write m b dur >>= f).spares n Q := ⟨hm, hf⟩

theorem follows_write {Q : α → Option B → Prop} {n m : RecordName} {b : B} {c : Option B}
    {dur : Durability} {f : Except IoError Unit → StoreM B α} (hm : m ≠ n)
    (hf : (f (.ok ())).follows n Q c) : (write m b dur >>= f).follows n Q c := by
  show Prog.follows n Q _ (if m = n then some b else c)
  rw [if_neg hm]
  exact hf

end StoreM

end Portty
