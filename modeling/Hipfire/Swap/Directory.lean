import Hipfire.Base.Run
/-!
# Directory — a swap directory and the stores that open it

The file system is the directory's names, the inode its lock file is bound to and the exclusive lock of each inode.  A
construction of `SwapStore` and a `Drop` are the sequences of system calls the source makes, and any number of them run
interleaved, each at its own phase.  A spill file carries the store that wrote it.
-/
namespace Hipfire.Swap

/-- A spill file: `key.snap`, or `key.snap.tmp` until it is renamed. -/
structure Spill where
  key : Nat
  temp : Bool
  deriving DecidableEq, Repr

/-- What a store keeps about its directory. -/
structure SwapStore where
  createdDir : Bool
  /-- The inode of the lock file it locked; none where the lock file could not be opened. -/
  lock : Option Nat
  /-- The disk budget is not zero. -/
  diskTier : Bool
  /-- The keys whose snapshots are on disk. -/
  entries : List Nat
  deriving DecidableEq, Repr

/-- Where a construction, or the store it made, stands.  In a sweep of the spill files the names are listed once, then
removed one at a time. -/
inductive Phase
  | absent
  | checked (existed : Bool)
  | prepared (createdDir diskTier : Bool)
  | opened (createdDir diskTier : Bool) (file : Nat)
  | cleaning (store : SwapStore) (names : Option (List Spill))
  | live (store : SwapStore)
  | dropping (store : SwapStore) (names : Option (List Spill))
  | released (createdDir : Bool)
  | unlinked (createdDir : Bool)
  deriving DecidableEq, Repr

/-- The lock file that is open. -/
def Phase.file : Phase → Option Nat
  | .opened _ _ file => some file
  | .cleaning store _ | .live store | .dropping store _ => store.lock
  | _ => none

/-- The store, from the end of `lock_dir` until `Drop` lets the lock go. -/
def Phase.store : Phase → Option SwapStore
  | .cleaning store _ | .live store | .dropping store _ => some store
  | _ => none

/-- Constructed, and the lock not yet released by `Drop`. -/
def Phase.isLive : Phase → Bool
  | .live _ | .dropping _ _ => true
  | _ => false

structure World where
  dir : Bool
  lockName : Option Nat
  locks : Nat → Option Nat
  nextInode : Nat
  files : AList (fun _ : Spill => Nat)
  phase : Nat → Phase

def World.goto (w : World) (p : Nat) (phase : Phase) : World := { w with phase := Function.update w.phase p phase }

/-- Closing a locked file gives its lock up. -/
def World.unlock (w : World) : Option Nat → World
  | some file => { w with locks := Function.update w.locks file none }
  | none => w

/-- The system calls of a construction, of a live store and of `Drop`. -/
inductive Event
  /-- `prepare_dir` looks whether the directory is there. -/
  | stat
  /-- It creates a missing directory and makes it private, or gives the disk tier up. -/
  | prepare (diskTier : Bool)
  /-- The construction fails before it has the lock file open. -/
  | fail
  | openLock
  /-- The lock file cannot be opened for want of permission. -/
  | openDenied
  | tryLock
  /-- One call of `remove_spill_files`. -/
  | sweep
  | writeTemp (key : Nat)
  | discardTemp (key : Nat)
  | publish (key : Nat)
  | readSpill (key : Nat)
  | removeSpill (key : Nat)
  | drop
  | release
  | unlinkLock
  | removeDir
  /-- The process ends without `Drop`. -/
  | die
  deriving DecidableEq, Repr

def openLock (createdDir diskTier : Bool) (p : Nat) (w : World) : World :=
  if w.dir then
    match w.lockName with
    | some file => w.goto p (.opened createdDir diskTier file)
    | none =>
      { w with lockName := some w.nextInode, nextInode := w.nextInode + 1 }.goto p (.opened createdDir diskTier w.nextInode)
  else w.goto p .absent

def tryLock (createdDir diskTier : Bool) (file p : Nat) (w : World) : World :=
  if (w.locks file).isSome then w.goto p .absent
  else { w with locks := Function.update w.locks file (some p) }.goto p (.cleaning ⟨createdDir, some file, diskTier, []⟩ none)

/-- One call of `remove_spill_files`: the listing, or the removal of the next name; `next` once no name is left. -/
def removeSpillFiles (again : Option (List Spill) → Phase) (next : Phase) (names : Option (List Spill)) (p : Nat)
    (w : World) : World :=
  match names with
  | none => w.goto p (again (some w.files.keys))
  | some (n :: names) => { w with files := w.files.erase n }.goto p (again (some names))
  | some [] => w.goto p next

/-- A snapshot is written to a new temporary file, a stale one unlinked first. -/
def writeTemp (key : Nat) (store : SwapStore) (p : Nat) (w : World) : World :=
  if store.diskTier && w.dir then { w with files := w.files.insert ⟨key, true⟩ p } else w

/-- The temporary file takes its place; the file that had the name is gone. -/
def publish (key : Nat) (store : SwapStore) (p : Nat) (w : World) : World :=
  match w.files.lookup ⟨key, true⟩ with
  | some writer =>
    { w with files := (w.files.erase (Spill.mk key true)).insert ⟨key, false⟩ writer }.goto p
      (.live { store with entries := key :: store.entries })
  | none => w

/-- `drop_key`, an eviction, or the end of `take`. -/
def removeSpill (key : Nat) (store : SwapStore) (p : Nat) (w : World) : World :=
  if key ∈ store.entries then
    { w with files := w.files.erase ⟨key, false⟩ }.goto p (.live { store with entries := store.entries.erase key })
  else w

def removeDir (createdDir : Bool) (p : Nat) (w : World) : World :=
  -- only an empty directory can be removed
  if createdDir && w.lockName.isNone && w.files.keys.isEmpty then { w with dir := false }.goto p .absent else w.goto p .absent

/-- One system call of process `p`; a call that its phase does not make does nothing. -/
def exec (p : Nat) (e : Event) (w : World) : World :=
  match e, w.phase p with
  | .stat, .absent => w.goto p (.checked w.dir)
  | .prepare diskTier, .checked existed => { w with dir := w.dir || !existed }.goto p (.prepared (!existed) diskTier)
  | .fail, .checked _ => w.goto p .absent
  | .fail, .prepared _ _ => w.goto p .absent
  | .openLock, .prepared createdDir diskTier => openLock createdDir diskTier p w
  | .openDenied, .prepared createdDir _ => w.goto p (.cleaning ⟨createdDir, none, false, []⟩ none)
  | .tryLock, .opened createdDir diskTier file => tryLock createdDir diskTier file p w
  | .sweep, .cleaning store names => removeSpillFiles (.cleaning store) (.live store) names p w
  | .writeTemp key, .live store => writeTemp key store p w
  | .discardTemp key, .live _ => { w with files := w.files.erase ⟨key, true⟩ }
  | .publish key, .live store => publish key store p w
  | .removeSpill key, .live store => removeSpill key store p w
  | .drop, .live store => w.goto p (.dropping store none)
  | .sweep, .dropping store names => removeSpillFiles (.dropping store) (.dropping store (some [])) names p w
  | .release, .dropping store (some []) => (w.unlock store.lock).goto p (.released store.createdDir)
  | .unlinkLock, .released createdDir => { w with lockName := none }.goto p (.unlinked createdDir)
  | .removeDir, .unlinked createdDir => removeDir createdDir p w
  | .die, phase => (w.unlock (phase.store.bind (·.lock))).goto p .absent
  | _, _ => w

/-- An interleaving: which process makes its next call, and which call it is. -/
def run : List (Nat × Event) → World → World := runAll fun c => exec c.1 c.2

/-- The spill files that a call reads, replaces or deletes. -/
def touched (p : Nat) (e : Event) (w : World) : List Spill :=
  match e, w.phase p with
  | .sweep, .cleaning _ (some (n :: _)) => [n]
  | .sweep, .dropping _ (some (n :: _)) => [n]
  | .writeTemp key, .live store => if store.diskTier then [⟨key, true⟩] else []
  | .discardTemp key, .live _ => [⟨key, true⟩]
  | .publish key, .live _ => [⟨key, true⟩, ⟨key, false⟩]
  | .readSpill key, .live store => if key ∈ store.entries then [⟨key, false⟩] else []
  | .removeSpill key, .live store => if key ∈ store.entries then [⟨key, false⟩] else []
  | _, _ => []

end Hipfire.Swap
