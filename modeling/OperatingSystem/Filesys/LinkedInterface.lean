import OperatingSystem.Filesys.Interface
import OperatingSystem.Filesys.TableHeap

/-!
# The operations on the tables in memory

`isOpen` and the functions of `module_interface.h` as they go through the linked lists of the
tables, with the blocks that they take by `vmalloc` and give back by `vfree`. What they do to
the RAM disk is the same as on the lists.
-/

namespace OperatingSystem.Filesys

/-! ## Pointers -/

/-- A read through a pointer to a file object. -/
def Heap.deref (heap : Heap) (p : ℕ) : Option (FileObject × ℕ) :=
  if p = 0 then none else heap.fileObject p

namespace TableHeap

def vfree (p : ℕ) (σ : TableHeap) : Option TableHeap :=
  if p ∈ σ.heap then some { σ with heap := σ.heap.erase p } else none

/-- Assignments to the members of the file object at `p` but `next`. -/
def setObject (p : ℕ) (fo : FileObject) (σ : TableHeap) : Option TableHeap :=
  (σ.heap.deref p).map fun (_, next) ↦ σ.store p (.fileObject fo next)

def setObjectNext (p next : ℕ) (σ : TableHeap) : Option TableHeap :=
  (σ.heap.deref p).map fun (fo, _) ↦ σ.store p (.fileObject fo next)

/-! ## Loops -/

def findObject (heap : Heap) (inodeIndex : ℕ) : ℕ → ℕ → Option ℤ
  | 0, _ => none
  | fuel + 1, fo =>
      if fo = 0 then some SUCCESS
      else do
        let (object, next) ← heap.fileObject fo
        if object.inodeIndex = inodeIndex then some ERROR
        else findObject heap inodeIndex fuel next

/-- `isOpen` goes through the first table of the list. -/
def isOpen (inodeIndex : ℕ) (σ : TableHeap) : Option ℤ := do
  let (fdt, _) ← σ.heap.fdt σ.fdtListHead
  findObject σ.heap inodeIndex (σ.heap.keys.card + 1) fdt.fileObjectListHead

/-- `for (i = 0; i < fd; i++)` from a file object on: `fomer` and `file_object_t` behind it.
The inner `none` stands for the return of `ERROR`. -/
def walk (heap : Heap) : ℕ → ℕ → ℕ → Option (Option (ℕ × ℕ))
  | 0, fomer, fo => some (some (fomer, fo))
  | rounds + 1, _, fo =>
      if fo = 0 then some none
      else do
        let (_, next) ← heap.fileObject fo
        walk heap rounds fo next

/-- The loop of `rd_open` to the last file object, with the number `fd` of its rounds. -/
def lastObject (heap : Heap) : ℕ → ℕ → ℕ → Option (ℕ × ℕ)
  | 0, _, _ => none
  | fuel + 1, fo, fd => do
      let (_, next) ← heap.deref fo
      if next ≠ 0 then lastObject heap fuel next (fd + 1) else some (fo, fd)

/-- `for (i = strlen(cur_path); i > 0; i--)` to the last slash but a first one. -/
def lastSlash (bytes : List UInt8) : ℕ → ℕ
  | 0 => 0
  | i + 1 => if bytes[i + 1]? = some 47 then i + 1 else lastSlash bytes i

/-! ## Parts of the operations -/

/-- What `read_pathname` and `rd_open` read of a table: the first file object and the path. -/
def pathFields (p : ℕ) (σ : TableHeap) : Option FDT := do
  let (fdt, _) ← σ.heap.fdt p
  let (head, _) ← σ.heap.deref fdt.fileObjectListHead
  let path ← σ.heap.string fdt.curPath
  some ⟨fdt.pid, [head], path⟩

/-- The file object that `rd_read`, `rd_write` and `rd_lseek` go to. -/
def objectAt (p : ℕ) (fd : ℤ) (σ : TableHeap) : Option (Option ℕ) := do
  let (fdt, _) ← σ.heap.fdt p
  if fd = 0 then some none
  else
    match ← walk σ.heap fd.toNat 0 fdt.fileObjectListHead with
    | none => some none
    | some (_, fo) => some (if fo = 0 then none else some fo)

/-- A new file object behind the last one. -/
def appendObject (A : Allocator) (last : ℕ) (fo : FileObject) (σ : TableHeap) :
    Option TableHeap := do
  let (new, σ) := σ.alloc A (.fileObject newFileObject 0)
  let σ ← σ.setObjectNext last new
  let σ ← σ.setObject new fo
  σ.setObjectNext new 0

/-- `rd_open` loads the inode into the table. A directory takes the place of the first file
object, whose `next` becomes `NULL` with it. -/
def loadObject (A : Allocator) (p i : ℕ) (type : ObjectType) (σ : TableHeap) :
    Option (ℕ × TableHeap) := do
  let (fdt, _) ← σ.heap.fdt p
  if type = .dir then do
    let σ ← σ.setObject fdt.fileObjectListHead ⟨i, 0⟩
    let σ ← σ.setObjectNext fdt.fileObjectListHead 0
    some (0, σ)
  else do
    let (last, fd) ← lastObject σ.heap (σ.heap.keys.card + 1) fdt.fileObjectListHead 0
    let σ ← σ.appendObject A last ⟨i, 0⟩
    some (fd + 1, σ)

/-- `rd_open` frees the path of the table and copies the new one. -/
def replacePath (A : Allocator) (p : ℕ) (path : List UInt8) (σ : TableHeap) :
    Option TableHeap := do
  let (fdt, _) ← σ.heap.fdt p
  let σ ← σ.vfree fdt.curPath
  let (curPath, σ) := σ.alloc A (.chars (List.replicate (path.length + 1) 0))
  let σ ← σ.setFDT p fun fdt ↦ { fdt with curPath := curPath }
  σ.strcpy curPath path

/-- `rd_close` cuts the path of the table in its place. -/
def cutCurPath (p : ℕ) (σ : TableHeap) : Option TableHeap := do
  let (fdt, _) ← σ.heap.fdt p
  let path ← σ.heap.string fdt.curPath
  match σ.heap.lookup fdt.curPath with
  | some (.chars bytes) =>
      let i := lastSlash bytes path.length
      if i + 1 < bytes.length then
        some (σ.store fdt.curPath (.chars (bytes.set (i + 1) 0)))
      else none
  | _ => none

/-- `fomer->next = file_object_t->next` and the `vfree` behind it. -/
def unlinkObject (fomer fo : ℕ) (σ : TableHeap) : Option TableHeap := do
  let (_, next) ← σ.heap.deref fo
  let σ ← σ.setObjectNext fomer next
  σ.vfree fo

end TableHeap

/-! ## Operations -/

/-- The RAM disk and the memory of the tables. -/
structure LinkedState (area : Area) where
  store : Store area
  tables : TableHeap

namespace LinkedState

variable {area : Area}

def loaded (area : Area) : LinkedState area := ⟨(initState area).store, .loaded⟩

def rdPwd (A : Allocator) (cur : Process) (l : LinkedState area) :
    Option (List UInt8 × LinkedState area) := do
  let (p, σ) ← l.tables.getFDT A cur
  let (fdt, _) ← σ.heap.fdt p
  let path ← σ.heap.string fdt.curPath
  some (path, ⟨l.store, σ⟩)

def create (A : Allocator) (cur : Process) (pathname : List UInt8) (mode : ℤ)
    (type : ObjectType) (fresh : ℕ → UInt8) (l : LinkedState area) :
    Option (ℤ × LinkedState area) :=
  if l.store.superblock.freeBlockNumber < 1 ∨ l.store.superblock.freeInodeNumber < 1 then
    some (ERROR, l)
  else do
    let (p, σ) ← l.tables.getFDT A cur
    let fdt ← σ.pathFields p
    match ← lookupNew l.store fdt pathname with
    | none => some (ERROR, ⟨l.store, σ⟩)
    | some (des, childfile) => do
        let (ret, store) ← createEntry l.store des childfile mode type fresh
        some (ret, ⟨store, σ⟩)

def rdOpen (A : Allocator) (cur : Process) (pathname : List UInt8) (flag : ℤ)
    (l : LinkedState area) : Option (ℤ × LinkedState area) := do
  let (p, σ) ← l.tables.getFDT A cur
  if 1024 ≤ pathname.length then none
  else do
    let fdt ← σ.pathFields p
    match ← lookup l.store fdt pathname with
    | none => some (ERROR, ⟨l.store, σ⟩)
    | some (_, i) => do
        let opened ← σ.isOpen i
        if opened = ERROR then some (ERROR, ⟨l.store, σ⟩)
        else do
          let ino ← l.store.inodeAt i
          if AccessDenied ino.mode flag then some (ERROR, ⟨l.store, σ⟩)
          else do
            let (fd, σ) ← σ.loadObject A p i ino.type
            let path ← buildPath fdt.curPath pathname
            let σ ← σ.replacePath A p path
            some (fd, ⟨l.store, σ⟩)

def rdClose (A : Allocator) (cur : Process) (fd : ℤ) (l : LinkedState area) :
    Option (ℤ × LinkedState area) := do
  let (p, σ) ← l.tables.getFDT A cur
  let (fdt, _) ← σ.heap.fdt p
  if fd = 0 then do
    let (head, _) ← σ.heap.deref fdt.fileObjectListHead
    if head.inodeIndex = 0 then some (ERROR, ⟨l.store, σ⟩)
    else do
      let closeInode ← l.store.inodeAt head.inodeIndex
      let σ ← σ.setObject fdt.fileObjectListHead ⟨closeInode.parentIndex, 0⟩
      let σ ← σ.cutCurPath p
      some (SUCCESS, ⟨l.store, σ⟩)
  else
    match ← TableHeap.walk σ.heap fd.toNat 0 fdt.fileObjectListHead with
    | none => some (ERROR, ⟨l.store, σ⟩)
    | some (fomer, fo) => do
        let σ ← σ.unlinkObject fomer fo
        some (SUCCESS, ⟨l.store, σ⟩)

def rdRead (A : Allocator) (cur : Process) (fd numBytes : ℤ) (l : LinkedState area) :
    Option (ReadResult × LinkedState area) := do
  let (p, σ) ← l.tables.getFDT A cur
  match ← σ.objectAt p fd with
  | none => some (⟨ERROR, [], none⟩, ⟨l.store, σ⟩)
  | some a => do
      let (fo, _) ← σ.heap.deref a
      let ino ← l.store.inodeAt fo.inodeIndex
      let r ← readFile l.store ino fo.position numBytes
      some (r, ⟨l.store, σ⟩)

def rdWrite (A : Allocator) (cur : Process) (fd : ℤ) (input : List UInt8)
    (l : LinkedState area) : Option (ℤ × LinkedState area) := do
  let (p, σ) ← l.tables.getFDT A cur
  match ← σ.objectAt p fd with
  | none => some (ERROR, ⟨l.store, σ⟩)
  | some a => do
      let (fo, _) ← σ.heap.deref a
      let (ret, position, store) ← writeFile l.store fo.inodeIndex fo.position input 'w'
      let σ ← σ.setObject a { fo with position := position }
      some (ret, ⟨store, σ⟩)

def rdLseek (A : Allocator) (cur : Process) (fd position : ℤ) (l : LinkedState area) :
    Option (ℤ × LinkedState area) := do
  let (p, σ) ← l.tables.getFDT A cur
  match ← σ.objectAt p fd with
  | none => some (ERROR, ⟨l.store, σ⟩)
  | some a => do
      let (fo, _) ← σ.heap.deref a
      let ino ← l.store.inodeAt fo.inodeIndex
      let position := if toInt ino.size < position then toInt ino.size else position
      let σ ← σ.setObject a { fo with position := position }
      some (SUCCESS, ⟨l.store, σ⟩)

def rdUnlink (A : Allocator) (cur : Process) (pathname : List UInt8) (l : LinkedState area) :
    Option (ℤ × LinkedState area) :=
  if pathname = [47] then some (ERROR, l)
  else do
    let (p, σ) ← l.tables.getFDT A cur
    let fdt ← σ.pathFields p
    match ← lookup l.store fdt pathname with
    | none => some (ERROR, ⟨l.store, σ⟩)
    | some (childfile, i) => do
        let ino ← l.store.inodeAt i
        if ino.type = .dir ∧ ino.size > 0 then some (ERROR, ⟨l.store, σ⟩)
        else do
          let opened ← σ.isOpen i
          if opened = ERROR then some (ERROR, ⟨l.store, σ⟩)
          else do
            let store ← freeInode l.store childfile i
            some (SUCCESS, ⟨store, σ⟩)

def rdChmod (A : Allocator) (cur : Process) (pathname : List UInt8) (mode : ℤ)
    (l : LinkedState area) : Option (ℤ × LinkedState area) := do
  let (p, σ) ← l.tables.getFDT A cur
  let fdt ← σ.pathFields p
  match ← lookup l.store fdt pathname with
  | none => some (ERROR, ⟨l.store, σ⟩)
  | some (_, i) => do
      let ino ← l.store.inodeAt i
      some (SUCCESS, ⟨l.store.setInode i { ino with mode := mode }, σ⟩)

def replyOnly (r : ℤ × LinkedState area) : Reply × LinkedState area := (⟨r.1, []⟩, r.2)

def ramdiskIoctl (A : Allocator) (l : LinkedState area) (e : Event) :
    Option (Reply × LinkedState area) :=
  match e.call with
  | .pwd =>
      (rdPwd A e.cur l).bind fun (path, l) ↦
        if path.length < 100 then some (⟨SUCCESS, path⟩, l) else none
  | .creat pathname mode fresh =>
      (create A e.cur pathname.chars mode .reg fresh l).map replyOnly
  | .mkdir pathname fresh => (create A e.cur pathname.chars 1 .dir fresh l).map replyOnly
  | .openPath pathname flag => (rdOpen A e.cur pathname.chars flag l).map replyOnly
  | .close fd => (rdClose A e.cur fd l).map replyOnly
  | .read fd numBytes =>
      (rdRead A e.cur fd numBytes l).map fun r ↦ (⟨r.1.ret, r.1.bytes⟩, r.2)
  | .write fd input => (rdWrite A e.cur fd input l).map replyOnly
  | .lseek fd position => (rdLseek A e.cur fd position l).map replyOnly
  | .unlink pathname => (rdUnlink A e.cur pathname.chars l).map replyOnly
  | .chmod pathname mode => (rdChmod A e.cur pathname.chars mode l).map replyOnly

end LinkedState

end OperatingSystem.Filesys
