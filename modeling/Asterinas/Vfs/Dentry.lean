import Asterinas.Basic
import Asterinas.Framework.OrderedMap

/-!
# The dentry cache

`fs/vfs/path/dentry.rs`: the dentries of a file system, each with its name and parent, and, for a
directory, with the children that are cached.  A dentry is known by its number in the order of
creation, which stands for its address.

What the functions ask the file system, the mounts and the credentials of the thread is an `Env`
over the state of the file system.  Each function here runs while the lock of the children of its
directory is held.
-/

namespace Asterinas.Vfs

open Framework

/-! ### Names -/

/-- A byte of a name. -/
abbrev Byte := Fin 256

/-- The byte `/`. -/
def slash : Byte := 47

/-- `DOT_BYTE`: the byte `.`. -/
def dotByte : Byte := 46

/-- The name of an entry of a directory, which has no slash. -/
abbrev Name := { bytes : List Byte // slash ∉ bytes }

/-- `is_dot`: the name of the directory itself. -/
def isDot (name : Name) : Bool := name.1 == [dotByte]

/-- `is_dotdot`: the name of its parent. -/
def isDotdot (name : Name) : Bool := name.1 == [dotByte, dotByte]

/-- `is_dot_or_dotdot`: a name that is not an entry of the file system. -/
def isDotOrDotdot (name : Name) : Bool := isDot name || isDotdot name

/-! ### Inodes -/

/-- `InodeType`: the kinds of files. -/
inductive InodeType
  | unknown
  | namedPipe
  | charDevice
  | dir
  | blockDevice
  | file
  | symLink
  | socket
  deriving DecidableEq

/-- An inode: its address and its type. -/
structure Inode where
  ptr : ℕ
  type : InodeType
  deriving DecidableEq

/-- `RenameMode`: what a rename does with the new name. -/
inductive RenameMode
  | replace
  | noReplace
  | exchange
  deriving DecidableEq

/-- `RevalidationPolicy`: which cached names of a directory the file system has to confirm. -/
structure RevalidationPolicy where
  revalidateExists : Bool
  revalidateAbsent : Bool
  deriving DecidableEq

/-- What the dentry cache asks its surroundings, where `σ` is the state of the file system. -/
structure Env (σ : Type) where
  namelen : ℕ
  isMountpoint : ℕ → Bool
  lookup : σ → Inode → Name → Except Error Inode
  revalidationPolicy : Inode → RevalidationPolicy
  revalidateExists : σ → Inode → Name → Inode → Bool
  revalidateAbsent : σ → Inode → Name → Bool
  hasStickyBit : σ → Inode → Except Error Bool
  checkStickyBitPermission : σ → Inode → Inode → Except Error Unit
  /-- `check_permission(Permission::MAY_WRITE)`. -/
  checkWritePermission : σ → Inode → Except Error Unit
  /-- `CapSet::MKNOD` of the thread. -/
  mknodCapable : Except Error Unit
  metadata : σ → Inode → Except Error Unit
  create : σ → Inode → Name → σ × Except Error Inode
  mknod : σ → Inode → Name → InodeType → σ × Except Error Inode
  link : σ → Inode → Inode → Name → σ × Except Error Unit
  unlink : σ → Inode → Name → σ × Except Error Unit
  rmdir : σ → Inode → Name → σ × Except Error Unit
  /-- The file system takes the old name from the dentry that is renamed. -/
  rename : σ → Inode → List Byte → Inode → Name → RenameMode → σ × Except Error Unit

/-! ### Cached children -/

/-- `CachedDentry`: a name that is there, with its dentry, or one that is known to be absent. -/
inductive CachedDentry
  | positive (dentry : ℕ)
  | negative
  deriving DecidableEq

/-- `CachedDentry::is_mountpoint`. -/
def CachedDentry.isMountpoint {σ : Type} (env : Env σ) : CachedDentry → Bool
  | positive dentry => env.isMountpoint dentry
  | negative => false

/-- `DentryChildren`: the cached names of a directory, with the number of insertions. -/
structure DentryChildren where
  entries : OrderedMap Name CachedDentry
  insertCount : ℕ
  deriving DecidableEq

namespace DentryChildren

/-- `DentryChildren::new`: nothing is cached. -/
def new : DentryChildren := ⟨.empty, 0⟩

section

variable (children : DentryChildren) (name : Name)

/-- `DentryChildren::find`: what is cached of a name. -/
def find : Option CachedDentry := children.entries.get? name

/-- `DentryChildren::insert_positive`: the name has a dentry. -/
def insertPositive (dentry : ℕ) : DentryChildren :=
  { children with entries := children.entries.insert name (.positive dentry) }

/-- `DentryChildren::insert_negative`: the name is absent. -/
def insertNegative : DentryChildren :=
  { children with entries := children.entries.insert name .negative }

/-- `DentryChildren::delete`: a positive entry becomes a negative one. -/
def delete : DentryChildren :=
  match children.find name with
  | some (.positive _) => children.insertNegative name
  | _ => children

/-- `DentryChildren::remove`: nothing is known of the name. -/
def remove : DentryChildren :=
  { children with entries := children.entries.erase name }

end

/-- `DentryChildren::revalidate_positive_entries`: the names that do not exist any more are
forgotten. -/
def revalidatePositiveEntries (children : DentryChildren) (stillExists : Name → ℕ → Bool) :
    DentryChildren :=
  { children with entries := children.entries.filter fun name entry =>
      match entry with
      | .positive dentry => stillExists name dentry
      | .negative => true }

end DentryChildren

/-! ### Dentries -/

/-- `NameAndParent`: where a dentry is, if it is anywhere. -/
inductive NameAndParent
  | root
  | named (name : Name) (parent : ℕ)
  | anonymous (parent : ℕ)
  | pseudo (name : List Byte)
  deriving DecidableEq

namespace NameAndParent

/-- `NameAndParent::name`: the name, or a slash for a dentry that has none. -/
def name : NameAndParent → List Byte
  | root => [slash]
  | named name _ => name.1
  | anonymous _ => [slash]
  | pseudo name => name

/-- `NameAndParent::parent`: the directory that a dentry is in. -/
def parent : NameAndParent → Option ℕ
  | named _ parent => some parent
  | anonymous parent => some parent
  | root | pseudo _ => none

end NameAndParent

/-- `Dentry`, with the children and the policy of its `DentryDirState`, which only a directory
uses. -/
structure Dentry where
  inode : Inode
  nameAndParent : NameAndParent
  children : DentryChildren
  revalidationPolicy : RevalidationPolicy
  deriving DecidableEq

/-- `DentryKey`: the name and the address of the parent, by which locks are ordered. -/
structure DentryKey where
  name : List Byte
  parentPtr : ℕ
  deriving DecidableEq

/-- The order of the keys. -/
def DentryKey.order (key : DentryKey) : List Byte ×ₗ ℕ := toLex (key.name, key.parentPtr)

/-- All dentries that were made. -/
structure Tree where
  dentries : List Dentry
  deriving DecidableEq

namespace Tree

variable {σ : Type} (env : Env σ) (t : Tree) (fs : σ)

section

variable (d : ℕ)

/-- The inode of a dentry. -/
def inode : Inode := (t.dentries[d]?).elim ⟨0, .unknown⟩ (·.inode)

/-- The name and the parent of a dentry. -/
def nameAndParent : NameAndParent := (t.dentries[d]?).elim .root (·.nameAndParent)

/-- `Dentry::name`: the name that a dentry has now. -/
def name : List Byte := (t.nameAndParent d).name

/-- `Dentry::parent`: the parent that a dentry has now. -/
def parent : Option ℕ := (t.nameAndParent d).parent

/-- The cached children of a directory. -/
def children : DentryChildren := (t.dentries[d]?).elim .new (·.children)

/-- The revalidation policy of a directory. -/
def revalidationPolicy : RevalidationPolicy :=
  (t.dentries[d]?).elim ⟨false, false⟩ (·.revalidationPolicy)

/-- `Dentry::as_dir_dentry_or_err`, as a test. -/
def isDir : Bool := (t.inode d).type == .dir

/-- The pointer in the key of a dentry: its parent, or the dentry itself. -/
def parentPtr : ℕ := (t.parent d).getD d

/-- `DentryKey::new` when nothing happens between its two reads. -/
def key : DentryKey := ⟨t.name d, t.parentPtr d⟩

end

/-- `Dentry::is_equal_or_descendant_of`, if the walk takes at most `fuel` rounds. -/
def isEqualOrDescendantOf (ancestor : ℕ) : ℕ → ℕ → Option Bool
  | 0, _ => none
  | fuel + 1, node =>
    if node = ancestor then
      some true
    else
      match t.parent node with
      | some parent => isEqualOrDescendantOf ancestor fuel parent
      | none => some false

/-- The loop of `Dentry::path_name`, if it takes at most `fuel` rounds. -/
def pathNameFrom : ℕ → ℕ → List Byte → Option (List Byte)
  | 0, _, _ => none
  | fuel + 1, currentDir, pathName =>
    match t.parent currentDir with
    | some parentDir =>
      let parentName := t.name parentDir
      pathNameFrom fuel parentDir
        (if parentName ≠ [slash] then parentName ++ slash :: pathName else parentName ++ pathName)
    | none => some pathName

/-- `Dentry::path_name`: the names from the root down to a dentry; `none` is a walk that does not
end. -/
def pathName (fuel d : ℕ) : Option (List Byte) := t.pathNameFrom fuel d (t.name d)

/-! ### Changes -/

/-- The children of a directory change. -/
def setChildren (d : ℕ) (children : DentryChildren) : Tree :=
  ⟨t.dentries.modify d fun dentry => { dentry with children := children }⟩

/-- `NameAndParent::set`. -/
def setNameAndParent (d : ℕ) (name : Name) (parent : ℕ) : Option Tree :=
  match t.nameAndParent d with
  | .named _ _ =>
    some ⟨t.dentries.modify d fun dentry => { dentry with nameAndParent := .named name parent }⟩
  | _ => none

/-- `Dentry::new_root`: the tree of a file system that has just been mounted. -/
def newRoot (inode : Inode) : Tree := ⟨[⟨inode, .root, .new, env.revalidationPolicy inode⟩]⟩

/-- `Dentry::new` for a named child, which gets the next number. -/
def newNamed (inode : Inode) (name : Name) (parent : ℕ) : Tree :=
  ⟨t.dentries ++ [⟨inode, .named name parent, .new, env.revalidationPolicy inode⟩]⟩

section

variable (dir : ℕ)

/-- `DirDentry::revalidate_cached_entry`: the file system confirms the entry, if the policy asks it
to. -/
def revalidateCachedEntry (name : Name) (entry : CachedDentry) : Bool :=
  let policy := t.revalidationPolicy dir
  match entry with
  | .positive dentry =>
    if policy.revalidateExists then env.revalidateExists fs (t.inode dir) name (t.inode dentry)
      else true
  | .negative =>
    if policy.revalidateAbsent then env.revalidateAbsent fs (t.inode dir) name else true

/-- `DirDentry::revalidate_positive_children_if_needed`: every so many insertions, the entries are
confirmed. -/
def revalidatePositiveChildrenIfNeeded (children : DentryChildren) : DentryChildren :=
  if !(t.revalidationPolicy dir).revalidateExists then
    children
  else
    let children := { children with insertCount := (children.insertCount + 1) % 2 ^ 64 }
    if children.insertCount % 1024 ≠ 0 ∨ children.entries.entries.length ≤ 1024 then
      children
    else
      children.revalidatePositiveEntries fun name dentry =>
        env.revalidateExists fs (t.inode dir) name (t.inode dentry)

section

variable (name : Name)

/-- `DirDentry::insert_positive_child`: a dentry is cached under a name. -/
def insertPositiveChild (child : ℕ) : Tree :=
  t.setChildren dir
    (t.revalidatePositiveChildrenIfNeeded env fs dir ((t.children dir).insertPositive name child))

/-- A dentry is made for an inode and cached. -/
def insertNewChild (inode : Inode) : Tree :=
  (t.newNamed env inode name dir).insertPositiveChild env fs dir name t.dentries.length

/-- The entry of a name in the cache, when it is still valid; an entry that is not is removed. -/
def findValid : Tree × Option CachedDentry :=
  match (t.children dir).find name with
  | some entry =>
    if t.revalidateCachedEntry env fs dir name entry then
      (t, some entry)
    else
      (t.setChildren dir ((t.children dir).remove name), none)
  | none => (t, none)

/-! ### Operations on one directory -/

/-- `DirDentry::lookup_child`: the cache is asked and then the file system, whose answer is
cached. -/
def lookupChild : Tree × Except Error ℕ :=
  match t.findValid env fs dir name with
  | (t, some (.positive dentry)) => (t, .ok dentry)
  | (t, some .negative) => (t, .error (.withMessage .enoent "found a negative dentry"))
  | (t, none) =>
    match env.lookup fs (t.inode dir) name with
    | .ok inode => (t.insertNewChild env fs dir name inode, .ok t.dentries.length)
    | .error error =>
      if error.errno = .enoent then
        (t.setChildren dir ((t.children dir).insertNegative name), .error error)
      else
        (t, .error error)

/-- `DirDentry::validate_child_absent`: a name that is to be created does not exist. -/
def validateChildAbsent : Tree × Except Error Unit :=
  let existsAlready : Except Error Unit := .error (.withMessage .eexist "the dentry already exists")
  match t.findValid env fs dir name with
  | (t, some (.positive _)) => (t, existsAlready)
  | (t, some .negative) => (t, .ok ())
  | (t, none) =>
    match env.lookup fs (t.inode dir) name with
    | .ok inode => (t.insertNewChild env fs dir name inode, existsAlready)
    | .error error => if error.errno = .enoent then (t, .ok ()) else (t, .error error)

/-- `create_child`, `mknod` and `link`, which differ in what they ask of the file system. -/
def addChild (make : σ → σ × Except Error Inode) : Tree × σ × Except Error ℕ :=
  match t.validateChildAbsent env fs dir name with
  | (t, .error error) => (t, fs, .error error)
  | (t, .ok ()) =>
    match make fs with
    | (fs, .ok inode) => (t.insertNewChild env fs dir name inode, fs, .ok t.dentries.length)
    | (fs, .error error) => (t, fs, .error error)

/-- `DirDentry::create_child`: a name for a new file. -/
def createChild : Tree × σ × Except Error ℕ :=
  t.addChild env fs dir name fun fs => env.create fs (t.inode dir) name

end

end

/-- `DirDentry::check_mknod_capability`: devices are for the privileged. -/
def checkMknodCapability (type : InodeType) : Except Error Unit :=
  if type = .charDevice ∨ type = .blockDevice then env.mknodCapable else .ok ()

/-- `DirDentry::mknod`: a name for a new special file. -/
def mknod (dir : ℕ) (name : Name) (type : InodeType) : Tree × σ × Except Error ℕ :=
  t.addChild env fs dir name fun fs =>
    match checkMknodCapability env type with
    | .ok () => env.mknod fs (t.inode dir) name type
    | .error error => (fs, .error error)

/-- `DirDentry::link`: another name for a file. -/
def link (dir oldDentry : ℕ) (name : Name) : Tree × σ × Except Error ℕ :=
  t.addChild env fs dir name fun fs =>
    match env.link fs (t.inode dir) (t.inode oldDentry) name with
    | (fs, .ok ()) => (fs, .ok (t.inode oldDentry))
    | (fs, .error error) => (fs, .error error)

/-- The sticky bit of a directory, for the removal of an inode. -/
def checkSticky (dir : ℕ) (child : Inode) : Except Error Unit := do
  if ← env.hasStickyBit fs (t.inode dir) then
    env.checkStickyBitPermission fs (t.inode dir) child

/-- What `remove_child` does when it has the inode of the child, which may be cached. -/
def removeFound (dir : ℕ) (name : Name) (child : Inode) (isCached : Bool)
    (removeChildFn : σ → Inode → Name → σ × Except Error Unit) : Tree × σ × Except Error Inode :=
  match t.checkSticky env fs dir child with
  | .error error => (t, fs, .error error)
  | .ok () =>
    match removeChildFn fs (t.inode dir) name with
    | (fs, .error error) => (t, fs, .error error)
    | (fs, .ok ()) =>
      (if isCached then t.setChildren dir ((t.children dir).delete name) else t, fs, .ok child)

/-- `DirDentry::remove_child`, which gives the inode of the child.  A child that is not cached gets
a dentry that nobody else sees. -/
def removeChild (dir : ℕ) (name : Name) (removeChildFn : σ → Inode → Name → σ × Except Error Unit) :
    Tree × σ × Except Error Inode :=
  match t.findValid env fs dir name with
  | (t, some entry) =>
    if entry.isMountpoint env then
      (t, fs, .error (.withMessage .ebusy "dentry is mountpoint"))
    else
      match entry with
      | .positive dentry => t.removeFound env fs dir name (t.inode dentry) true removeChildFn
      | .negative => (t, fs, .error (.withMessage .enoent "found a negative dentry"))
  | (t, none) =>
    match env.lookup fs (t.inode dir) name with
    | .ok inode => t.removeFound env fs dir name inode false removeChildFn
    | .error error => (t, fs, .error error)

/-- What `unlink` and `rmdir` do after `remove_child`: they ask for the metadata of the child. -/
def afterRemoval : Tree × σ × Except Error Inode → Tree × σ × Except Error Unit
  | (t, fs, .ok child) => (t, fs, env.metadata fs child)
  | (t, fs, .error error) => (t, fs, .error error)

/-- `DirDentry::unlink`: a name that is not a directory's goes. -/
def unlink (dir : ℕ) (name : Name) : Tree × σ × Except Error Unit :=
  if isDotOrDotdot name then
    (t, fs, .error (.withMessage .eisdir "unlink on . or .."))
  else
    afterRemoval env (t.removeChild env fs dir name env.unlink)

/-- `DirDentry::rmdir`: the name of an empty directory goes. -/
def rmdir (dir : ℕ) (name : Name) : Tree × σ × Except Error Unit :=
  if isDot name then
    (t, fs, .error (.withMessage .einval "rmdir on ."))
  else if isDotdot name then
    (t, fs, .error (.withMessage .enotempty "rmdir on .."))
  else
    afterRemoval env (t.removeChild env fs dir name env.rmdir)

end Tree

end Asterinas.Vfs
