import OperatingSystem.Lib.PartialRun
import OperatingSystem.Filesys.Processes

/-!
# The operations of the module

The functions of `module_interface.h`, the dispatch of `ramdisk_ioctl`, and
the step function of a system in which any process issues any operation. Every
operation returns its return value and the new state.
-/

namespace OperatingSystem.Filesys

open ByteMemory

variable {area : Area}

/-! ## Operations -/

/-- The 16 bytes of a directory entry. The bytes between the end of the name
and the inode index are whatever the fresh memory held. -/
def entryBytes (name : List UInt8) (inodeIndex : ℕ) (fresh : ℕ → UInt8) : List UInt8 :=
  (name ++ [0] ++ (List.range (13 - name.length)).map fun k ↦ fresh (name.length + 1 + k)) ++
    leBytes 2 inodeIndex

def rdPwd (cur : Process) (s : State area) : List UInt8 × State area :=
  ((getFDT cur s).1.curPath, (getFDT cur s).2)

/-- The part of `create` after the pathname was accepted: append the entry to
the parent directory, then take the inode. -/
def createEntry (st : Store area) (des : ℕ) (childfile : List UInt8) (mode : ℤ)
    (type : ObjectType) (fresh : ℕ → UInt8) : Option (ℤ × Store area) := do
  let para := entryBytes childfile st.superblock.firstFreeInode fresh
  let parent ← st.inodeAt des
  let (ret, _, st) ← writeFile st des (toInt parent.size) para 'c'
  if ret = ERROR then some (ERROR, st)
  else do
    let st ← allocateInode st des mode (if type = .dir then .dir else .reg)
    some (SUCCESS, st)

def create (cur : Process) (pathname : List UInt8) (mode : ℤ) (type : ObjectType)
    (fresh : ℕ → UInt8) (s : State area) : Option (ℤ × State area) :=
  if s.store.superblock.freeBlockNumber < 1 ∨ s.store.superblock.freeInodeNumber < 1 then
    some (ERROR, s)
  else do
    let (fdt, s) := getFDT cur s
    match ← lookupNew s.store fdt pathname with
    | none => some (ERROR, s)
    | some (des, childfile) => do
        let (ret, store) ← createEntry s.store des childfile mode type fresh
        some (ret, { s with store := store })

def rdCreat (cur : Process) (pathname : List UInt8) (mode : ℤ) (fresh : ℕ → UInt8)
    (s : State area) : Option (ℤ × State area) :=
  create cur pathname mode .reg fresh s

def rdMkdir (cur : Process) (pathname : List UInt8) (fresh : ℕ → UInt8)
    (s : State area) : Option (ℤ × State area) :=
  create cur pathname 1 .dir fresh s

/-- `for (temppathp -= 2; *temppathp != '/'; temppathp--);` and the increment
after it: from the index `t` of the terminator to the index after the last
slash before `t - 1`. -/
def backUp (temppath : List UInt8) (t : ℕ) : Option ℕ :=
  let before := temppath.take (t - 1)
  let skipped := before.reverse.findIdx (· = 47)
  if skipped < before.length then some (before.length - skipped) else none

def backUps (temppath : List UInt8) : ℕ → ℕ → Option ℕ
  | 0, t => some t
  | back + 1, t => (backUp temppath t).bind fun t ↦ backUps temppath back t

/-- The path that `rd_open` builds in `temppath[1024]` for `cur_path`. -/
def buildPath (curPath pathname : List UInt8) : Option (List UInt8) := do
  let temppath := if curPath = [47] then curPath else curPath ++ [47]
  let (back, _) := stripBack pathname
  let t ← backUps temppath back temppath.length
  let b := 3 * back
  let b := if [46, 47].isPrefixOf pathname then b + 2 else b
  let (b, t) := if [47].isPrefixOf pathname then (b + 1, 1) else (b, t)
  let path := temppath.take t ++ pathname.drop b
  if temppath.length < 1024 ∧ path.length < 1024 then some path else none

/-- The check of the access right in `rd_open`. -/
def AccessDenied (mode flag : ℤ) : Prop :=
  (mode = 0 ∧ (flag = 1 ∨ flag = 2)) ∨ (mode = 2 ∧ (flag = 0 ∨ flag = 1))

instance (mode flag : ℤ) : Decidable (AccessDenied mode flag) :=
  inferInstanceAs (Decidable (_ ∨ _))

def rdOpen (cur : Process) (pathname : List UInt8) (flag : ℤ) (s : State area) :
    Option (ℤ × State area) := do
  let (fdt, s) := getFDT cur s
  -- `strcpy(backup, pathname)` into `backup[1024]`
  if 1024 ≤ pathname.length then none
  else
    match ← lookup s.store fdt pathname with
    | none => some (ERROR, s)
    | some (_, i) => do
        let opened ← isOpen s.fdtList i
        if opened = ERROR then some (ERROR, s)
        else do
          let ino ← s.store.inodeAt i
          if AccessDenied ino.mode flag then some (ERROR, s)
          else do
            let path ← buildPath fdt.curPath pathname
            if ino.type = .dir then
              some (0, s.setFDT { fdt with fileObjects := [⟨i, 0⟩], curPath := path })
            else
              some (fdt.fileObjects.length,
                s.setFDT { fdt with fileObjects := fdt.fileObjects ++ [⟨i, 0⟩], curPath := path })

def cutPath (curPath : List UInt8) : Option (List UInt8) :=
  if curPath = [] then none
  else some (curPath.take (curPath.length - curPath.tail.reverse.findIdx (· = 47)))

def rdClose (cur : Process) (fd : ℤ) (s : State area) : Option (ℤ × State area) := do
  let (fdt, s) := getFDT cur s
  if fd = 0 then do
    let head ← fdt.fileObjects.head?
    if head.inodeIndex = 0 then some (ERROR, s)
    else do
      let ino ← s.store.inodeAt head.inodeIndex
      let path ← cutPath fdt.curPath
      let fileObjects := ⟨ino.parentIndex, 0⟩ :: fdt.fileObjects.tail
      some (SUCCESS, s.setFDT { fdt with fileObjects := fileObjects, curPath := path })
  -- a negative `fd` and the length of the list itself dereference `NULL`
  else if fd < 0 then none
  else if fdt.fileObjects.length < fd then some (ERROR, s)
  else if fdt.fileObjects.length = fd then none
  else some (SUCCESS, s.setFDT { fdt with fileObjects := fdt.fileObjects.eraseIdx fd.toNat })

/-- The list walk of `rd_read`, `rd_write` and `rd_lseek`. A negative `fd` ends
at the head. -/
def FDT.fileObject (fdt : FDT) (fd : ℤ) : Option FileObject :=
  if fd = 0 then none else fdt.fileObjects[fd.toNat]?

def FDT.setPosition (fdt : FDT) (fd : ℤ) (fo : FileObject) (position : ℤ) : FDT :=
  { fdt with fileObjects := fdt.fileObjects.set fd.toNat { fo with position := position } }

/-- What `rd_read` does to the output buffer: the bytes copied to its start,
and the index at which it stored the NUL. -/
structure ReadResult where
  ret : ℤ
  bytes : List UInt8
  nulAt : Option ℤ
  deriving DecidableEq

/-- The copy loop of `rd_read`. Every round copies at least one byte, so
`readBytes` rounds are enough. -/
def readLoop (st : Store area) (ino : MyInode) (numBytes : ℤ) :
    ℕ → ℕ → ℤ → List UInt8 → Option ReadResult
  | _, 0, _, output => some ⟨numBytes, output, some numBytes⟩
  | 0, _ + 1, _, _ => none
  | fuel + 1, readBytes + 1, position, output => do
      let readPointer ← getBlockpointer st position ino
      if readPointer = 0 then some ⟨ERROR, output, some numBytes⟩
      else do
        let remain := blockSize - (position.tmod blockSize).toNat
        let iterationRead := min (readBytes + 1) remain
        if area.Holds readPointer iterationRead then
          readLoop st ino numBytes fuel (readBytes + 1 - iterationRead) (position + remain)
            (output ++ ByteMemory.readBytes st.space readPointer iterationRead)
        else none

/-- `rd_read` after it found the file object. Position and length are compared
with the size as unsigned numbers. -/
def readFile (st : Store area) (ino : MyInode) (position numBytes : ℤ) : Option ReadResult :=
  if ino.size = 0 then some ⟨ERROR, [], none⟩
  else if ino.location 0 = 0 then some ⟨ERROR, [], none⟩
  else
    let position := if toUInt32 position ≥ ino.size then 0 else position
    let left := toUInt32 (ino.size - position)
    let readBytes := toInt (if left < toUInt32 numBytes then left else toUInt32 numBytes)
    readLoop st ino readBytes readBytes.toNat readBytes.toNat position []

def rdRead (cur : Process) (fd numBytes : ℤ) (s : State area) :
    Option (ReadResult × State area) := do
  let (fdt, s) := getFDT cur s
  match fdt.fileObject fd with
  | none => some (⟨ERROR, [], none⟩, s)
  | some fo => do
      let ino ← s.store.inodeAt fo.inodeIndex
      let r ← readFile s.store ino fo.position numBytes
      some (r, s)

def rdWrite (cur : Process) (fd : ℤ) (input : List UInt8) (s : State area) :
    Option (ℤ × State area) := do
  let (fdt, s) := getFDT cur s
  match fdt.fileObject fd with
  | none => some (ERROR, s)
  | some fo => do
      let (ret, position, store) ← writeFile s.store fo.inodeIndex fo.position input 'w'
      some (ret, { s with store := store }.setFDT (fdt.setPosition fd fo position))

def rdLseek (cur : Process) (fd position : ℤ) (s : State area) : Option (ℤ × State area) := do
  let (fdt, s) := getFDT cur s
  match fdt.fileObject fd with
  | none => some (ERROR, s)
  | some fo => do
      let ino ← s.store.inodeAt fo.inodeIndex
      let position := if toInt ino.size < position then toInt ino.size else position
      some (SUCCESS, s.setFDT (fdt.setPosition fd fo position))

def rdUnlink (cur : Process) (pathname : List UInt8) (s : State area) :
    Option (ℤ × State area) :=
  if pathname = [47] then some (ERROR, s)
  else do
    let (fdt, s) := getFDT cur s
    match ← lookup s.store fdt pathname with
    | none => some (ERROR, s)
    | some (childfile, i) => do
        let ino ← s.store.inodeAt i
        if ino.type = .dir ∧ ino.size > 0 then some (ERROR, s)
        else do
          let opened ← isOpen s.fdtList i
          if opened = ERROR then some (ERROR, s)
          else do
            let store ← freeInode s.store childfile i
            some (SUCCESS, { s with store := store })

def rdChmod (cur : Process) (pathname : List UInt8) (mode : ℤ) (s : State area) :
    Option (ℤ × State area) := do
  let (fdt, s) := getFDT cur s
  match ← lookup s.store fdt pathname with
  | none => some (ERROR, s)
  | some (_, i) => do
      let ino ← s.store.inodeAt i
      some (SUCCESS, { s with store := s.store.setInode i { ino with mode := mode } })

/-! ## The system -/

inductive Call where
  | pwd
  | creat (pathname : CString) (mode : ℤ) (fresh : ℕ → UInt8)
  | mkdir (pathname : CString) (fresh : ℕ → UInt8)
  | openPath (pathname : CString) (flag : ℤ)
  | close (fd : ℤ)
  | read (fd numBytes : ℤ)
  | write (fd : ℤ) (input : List UInt8)
  | lseek (fd position : ℤ)
  | unlink (pathname : CString)
  | chmod (pathname : CString) (mode : ℤ)

structure Event where
  cur : Process
  call : Call

/-- The return value of a call and the bytes it delivers. -/
structure Reply where
  ret : ℤ
  output : List UInt8
  deriving DecidableEq

def replyOnly (r : ℤ × State area) : Reply × State area := (⟨r.1, []⟩, r.2)

/-- The dispatch of `ramdisk_ioctl`. `IOCTL_PWD` copies the path into
`current_path[100]`. -/
def ramdiskIoctl (s : State area) (e : Event) : Option (Reply × State area) :=
  match e.call with
  | .pwd =>
      if (rdPwd e.cur s).1.length < 100 then
        some (⟨SUCCESS, (rdPwd e.cur s).1⟩, (rdPwd e.cur s).2)
      else none
  | .creat pathname mode fresh =>
      (rdCreat e.cur pathname.chars mode fresh s).map replyOnly
  | .mkdir pathname fresh => (rdMkdir e.cur pathname.chars fresh s).map replyOnly
  | .openPath pathname flag => (rdOpen e.cur pathname.chars flag s).map replyOnly
  | .close fd => (rdClose e.cur fd s).map replyOnly
  | .read fd numBytes =>
      (rdRead e.cur fd numBytes s).map fun r ↦ (⟨r.1.ret, r.1.bytes⟩, r.2)
  | .write fd input => (rdWrite e.cur fd input s).map replyOnly
  | .lseek fd position => (rdLseek e.cur fd position s).map replyOnly
  | .unlink pathname => (rdUnlink e.cur pathname.chars s).map replyOnly
  | .chmod pathname mode => (rdChmod e.cur pathname.chars mode s).map replyOnly

def step (s : State area) (e : Event) : Option (State area) := (ramdiskIoctl s e).map Prod.snd

/-! ## Sample calls -/

def sampleProcess : Process := ⟨100, 1⟩

def sampleName : CString := ⟨[102], by decide⟩

def secondName : CString := ⟨[103], by decide⟩

def sampleCalls (calls : List Call) : List Event := calls.map fun call ↦ ⟨sampleProcess, call⟩

end OperatingSystem.Filesys
