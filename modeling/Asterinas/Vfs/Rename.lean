import Asterinas.Vfs.Dentry

/-!
# Renames as steps

`DirDentry::rename` of `fs/vfs/path/dentry.rs`, cut at the points where other calls can run: the
name and then the parent of each of the two directories are read, the locks of the children are
taken one after the other, the names are resolved, the checks are made, the file system renames, and
the dentries are updated.  The other operations take the lock of their directory and run in one
step.
-/

namespace Asterinas.Vfs

open Framework

/-- The arguments of `DirDentry::rename`. -/
structure Rename where
  oldDir : ℕ
  oldName : Name
  newDir : ℕ
  newName : Name
  mode : RenameMode
  deriving DecidableEq

/-- Where a call stands. -/
inductive Stage
  | ready
  /-- The name of the old directory has been read, and its parent has not. -/
  | readingOld (name : List Byte)
  /-- The key of the old directory has been read. -/
  | keyed (thisKey : DentryKey)
  /-- The name of the new directory has been read too, and its parent has not. -/
  | readingNew (thisKey : DentryKey) (name : List Byte)
  /-- Some locks are held, and others are still to be taken, in this order. -/
  | locking (held todo : List ℕ)
  | locked
  | resolvedOld (old : ℕ)
  | resolved (old : ℕ) (new : Option ℕ)
  /-- The mode, the cycle and the permissions have been checked. -/
  | checked (old : ℕ) (new : Option ℕ)
  /-- The file system has renamed. -/
  | renamed (old : ℕ) (new : Option ℕ)
  | done (result : Except Error Unit)
  | panicked

namespace Tree

variable {σ : Type} (env : Env σ) (t : Tree) (fs : σ)

/-- `DirDentry::resolve_child_for_rename`: the dentry of a name, which must not be a mount point. -/
def resolveChildForRename (dir : ℕ) (name : Name) : Tree × Except Error ℕ :=
  match t.findValid env fs dir name with
  | (t, some entry) =>
    if entry.isMountpoint env then
      (t, .error (.withMessage .ebusy "dentry is mountpoint"))
    else
      match entry with
      | .positive dentry => (t, .ok dentry)
      | .negative => (t, .error (.withMessage .enoent "found a negative dentry"))
  | (t, none) =>
    match env.lookup fs (t.inode dir) name with
    | .ok inode => (t.insertNewChild env fs dir name inode, .ok t.dentries.length)
    | .error error => (t, .error error)

end Tree

namespace Rename

variable {σ : Type} (env : Env σ) (t : Tree) (fs : σ) (r : Rename)

/-- The directories whose children are locked. -/
def dirs : List ℕ := if r.oldDir = r.newDir then [r.oldDir] else [r.oldDir, r.newDir]

/-- What `rename` does before it takes a lock. -/
def start : Stage :=
  if isDotOrDotdot r.oldName then
    .done (.error (.withMessage .ebusy "old_name is . or .."))
  else if isDotOrDotdot r.newName then
    if r.mode = .noReplace then
      .done (.error (.withMessage .eexist "new_name is . or .."))
    else
      .done (.error (.withMessage .ebusy "new_name is . or .."))
  else if env.namelen < r.oldName.1.length ∨ env.namelen < r.newName.1.length then
    .done (.error (.withMessage .enametoolong "old_name or new_name is too long"))
  else if r.oldDir = r.newDir then
    if r.oldName = r.newName then
      match r.mode with
      | .replace | .exchange => .done (.ok ())
      | .noReplace => .done (.error (.withMessage .eexist "the new path already exists"))
    else
      .locking [] [r.oldDir]
  else
    -- `write_lock_children_on_two_dentries` reads the key of the old directory first, and
    -- `DentryKey::new` the name before the parent.
    .readingOld (t.name r.oldDir)

/-- `write_lock_children_on_two_dentries` when it has the keys: the order of the locks. -/
def order (thisKey otherKey : DentryKey) : Stage :=
  if thisKey.order < otherKey.order then
    .locking [] [r.oldDir, r.newDir]
  else if otherKey.order < thisKey.order then
    .locking [] [r.newDir, r.oldDir]
  else
    .panicked

/-- The old name is resolved. -/
def resolveOld : Tree × Stage :=
  match t.resolveChildForRename env fs r.oldDir r.oldName with
  | (t, .ok old) => (t, .resolvedOld old)
  | (t, .error error) => (t, .done (.error error))

/-- The new name is resolved; nothing is done when both names have the same inode. -/
def resolveNew (old : ℕ) : Tree × Stage :=
  match t.resolveChildForRename env fs r.newDir r.newName with
  | (t, .ok new) =>
    if t.inode old = t.inode new then (t, .done (.ok ())) else (t, .resolved old (some new))
  | (t, .error error) =>
    if error.errno = .enoent then (t, .resolved old none) else (t, .done (.error error))

/-- `DirDentry::check_rename_mode`: the new name is absent, or there, as the mode asks. -/
def checkRenameMode (new : Option ℕ) : Except Error Unit :=
  if r.mode = .noReplace ∧ new.isSome then
    .error (.withMessage .eexist "the new path already exists")
  else if r.mode = .exchange ∧ new.isNone then
    .error (.withMessage .enoent "the new path does not exist")
  else
    .ok ()

/-- The first test of `check_rename_cycle`. -/
def newPathIsInside (fuel old : ℕ) : Option Bool :=
  if t.isDir old then t.isEqualOrDescendantOf old fuel r.newDir else some false

/-- The second test of `check_rename_cycle`. -/
def oldPathIsInside (fuel : ℕ) : Option ℕ → Option Bool
  | some new =>
    if r.mode = .exchange ∧ t.isDir new then t.isEqualOrDescendantOf new fuel r.oldDir
      else some false
  | none => some false

/-- `DirDentry::check_rename_cycle`, if its walks take at most `fuel` rounds. -/
def checkRenameCycle (fuel old : ℕ) (new : Option ℕ) : Option (Except Error Unit) :=
  match r.newPathIsInside t fuel old with
  | none => none
  | some true => some (.error (.withMessage .einval "the new path is inside the old directory"))
  | some false =>
    match r.oldPathIsInside t fuel new with
    | none => none
    | some true => some (.error (.withMessage .einval "the old path is inside the new directory"))
    | some false => some (.ok ())

/-- The permissions for a rename in one directory. -/
def checkSameDir (old : ℕ) (new : Option ℕ) : Except Error Unit := do
  if ← env.hasStickyBit fs (t.inode r.oldDir) then
    env.checkStickyBitPermission fs (t.inode r.oldDir) (t.inode old)
    match new with
    | some new => env.checkStickyBitPermission fs (t.inode r.oldDir) (t.inode new)
    | none => .ok ()

/-- The permissions for a rename between two directories. -/
def checkTwoDirs (old : ℕ) (new : Option ℕ) : Except Error Unit := do
  t.checkSticky env fs r.oldDir (t.inode old)
  let isSticky ← env.hasStickyBit fs (t.inode r.newDir)
  match new with
  | some new =>
    if isSticky then env.checkStickyBitPermission fs (t.inode r.newDir) (t.inode new) else .ok ()
  | none => .ok ()
  if t.isDir old then
    env.checkWritePermission fs (t.inode old)
  match new with
  | some new =>
    if r.mode = .exchange ∧ t.isDir new then env.checkWritePermission fs (t.inode new) else .ok ()
  | none => .ok ()

/-- The checks when both names are resolved.  A walk that does not end leaves the call where it
is. -/
def check (fuel old : ℕ) (new : Option ℕ) : Stage :=
  match r.checkRenameMode new with
  | .error error => .done (.error error)
  | .ok () =>
    if r.oldDir = r.newDir then
      match r.checkSameDir env t fs old new with
      | .error error => .done (.error error)
      | .ok () => .checked old new
    else
      match r.checkRenameCycle t fuel old new with
      | none => .resolved old new
      | some (.error error) => .done (.error error)
      | some (.ok ()) =>
        match r.checkTwoDirs env t fs old new with
        | .error error => .done (.error error)
        | .ok () => .checked old new

/-- The file system renames. -/
def renameInFs (old : ℕ) (new : Option ℕ) : σ × Stage :=
  match env.rename fs (t.inode r.oldDir) (t.name old) (t.inode r.newDir) r.newName r.mode with
  | (fs, .ok ()) => (fs, .renamed old new)
  | (fs, .error error) => (fs, .done (.error error))

/-- The old dentry gets the new name, and nothing has the old one. -/
def updateReplace (old : ℕ) : Option Tree := do
  let t := t.setChildren r.oldDir ((t.children r.oldDir).delete r.oldName)
  let t ← t.setNameAndParent old r.newName r.newDir
  return t.insertPositiveChild env fs r.newDir r.newName old

/-- The two dentries exchange their names. -/
def updateExchange (old new : ℕ) : Option Tree := do
  let t ← t.setNameAndParent old r.newName r.newDir
  let t ← t.setNameAndParent new r.oldName r.oldDir
  let t := t.insertPositiveChild env fs r.newDir r.newName old
  return t.insertPositiveChild env fs r.oldDir r.oldName new

/-- The updates of the dentries; what is unwrapped in the source is there, or the call panics. -/
def update (old : ℕ) (new : Option ℕ) : Tree × Stage :=
  match match r.mode with
    | .replace | .noReplace => r.updateReplace env t fs old
    | .exchange => new.bind fun new => r.updateExchange env t fs old new with
  | some t => (t, .done (.ok ()))
  | none => (t, .panicked)

end Rename

/-! ### Calls -/

/-- What a task asks of the dentry cache. -/
inductive Request
  | lookupChild (dir : ℕ) (name : Name)
  | createChild (dir : ℕ) (name : Name)
  | mknod (dir : ℕ) (name : Name) (type : InodeType)
  | link (dir oldDentry : ℕ) (name : Name)
  | unlink (dir : ℕ) (name : Name)
  | rmdir (dir : ℕ) (name : Name)
  | rename (r : Rename)

namespace Request

variable {σ : Type} (env : Env σ) (t : Tree) (fs : σ)

/-- The directories of a request. -/
def dirs : Request → List ℕ
  | lookupChild dir _ | createChild dir _ | mknod dir _ _ | link dir _ _ | unlink dir _
      | rmdir dir _ =>
    [dir]
  | rename r => r.dirs

/-- What a request does that is not a rename, while it has the lock of its directory. -/
def body : Request → Tree × σ × Except Error Unit
  | lookupChild dir name =>
    ((t.lookupChild env fs dir name).map id fun r => (fs, r.map fun _ => ()))
  | createChild dir name => (t.createChild env fs dir name).map id (Prod.map id (·.map fun _ => ()))
  | mknod dir name type => (t.mknod env fs dir name type).map id (Prod.map id (·.map fun _ => ()))
  | link dir oldDentry name =>
    (t.link env fs dir oldDentry name).map id (Prod.map id (·.map fun _ => ()))
  | unlink dir name => t.unlink env fs dir name
  | rmdir dir name => t.rmdir env fs dir name
  | rename _ => (t, fs, .ok ())

end Request

/-- A call: its request and where it stands. -/
structure Call where
  request : Request
  stage : Stage

namespace Call

variable {σ : Type} (env : Env σ) (fuel : ℕ) (free : ℕ → Bool)

/-- The directories whose children the call has locked. -/
def holds (c : Call) : List ℕ :=
  match c.stage with
  | .locking held _ => held
  | .locked | .resolvedOld _ | .resolved _ _ | .checked _ _ | .renamed _ _ => c.request.dirs
  | _ => []

/-- The next step of a call; `free` tells which directories are not locked. -/
def step (t : Tree) (fs : σ) (c : Call) : Tree × σ × Stage :=
  match c.stage, c.request with
  | .ready, request =>
    if request.dirs.all t.isDir then
      match request with
      | .rename r => (t, fs, r.start env t)
      | request => (t, fs, .locking [] request.dirs)
    else
      let notDir := .withMessage .enotdir "the dentry is not related to a directory inode"
      (t, fs, .done (.error notDir))
  | .readingOld name, .rename r => (t, fs, .keyed ⟨name, t.parentPtr r.oldDir⟩)
  | .keyed thisKey, .rename r => (t, fs, .readingNew thisKey (t.name r.newDir))
  | .readingNew thisKey name, .rename r => (t, fs, r.order thisKey ⟨name, t.parentPtr r.newDir⟩)
  | .locking held (dir :: todo), _ =>
    if free dir then
      (t, fs, if todo = [] then .locked else .locking (held ++ [dir]) todo)
    else
      (t, fs, c.stage)
  | .locked, .rename r => ((r.resolveOld env t fs).map id (fs, ·))
  | .locked, request => (request.body env t fs).map id (Prod.map id Stage.done)
  | .resolvedOld old, .rename r => ((r.resolveNew env t fs old).map id (fs, ·))
  | .resolved old new, .rename r => (t, fs, r.check env t fs fuel old new)
  | .checked old new, .rename r => (t, r.renameInFs env t fs old new)
  | .renamed old new, .rename r => ((r.update env t fs old new).map id (fs, ·))
  | stage, _ => (t, fs, stage)

end Call

end Asterinas.Vfs
