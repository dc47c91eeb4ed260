import OperatingSystem.Lib.LinkedList
import OperatingSystem.Filesys.Processes

/-!
# File descriptor tables in memory

`create_FDT` and `get_FDT` on the linked lists that they build with `vmalloc`. A pointer is
the address of a block; each block holds a `struct FDT_m`, a `struct file_object_m` or the
characters of a `cur_path`.
-/

namespace OperatingSystem.Filesys

open LinkedList

/-! ## Blocks -/

structure FDTFields where
  pid : ℤ
  fileObjectListHead : ℕ
  curPath : ℕ
  deriving DecidableEq

inductive Block
  | fdt (fields : FDTFields) (next : ℕ)
  | fileObject (fo : FileObject) (next : ℕ)
  | chars (bytes : List UInt8)
  deriving DecidableEq

abbrev Heap := Finmap fun _ : ℕ ↦ Block

def Heap.fdt (heap : Heap) (p : ℕ) : Option (FDTFields × ℕ) :=
  match heap.lookup p with
  | some (.fdt fields next) => some (fields, next)
  | _ => none

def Heap.fileObject (heap : Heap) (p : ℕ) : Option (FileObject × ℕ) :=
  match heap.lookup p with
  | some (.fileObject fo next) => some (fo, next)
  | _ => none

/-- The string at the start of a block; without a NUL in the block it runs past the end. -/
def Heap.string (heap : Heap) (p : ℕ) : Option (List UInt8) :=
  match heap.lookup p with
  | some (.chars bytes) => if 0 ∈ bytes then some (bytes.takeWhile (· ≠ 0)) else none
  | _ => none

/-- `vmalloc`, where it succeeds. Each call returns a pointer to a new block. -/
structure Allocator where
  vmalloc : ℕ → Heap → ℕ
  ne_null : ∀ calls heap, vmalloc calls heap ≠ 0
  fresh : ∀ calls heap, vmalloc calls heap ∉ heap

/-- The memory of the tables, with the number of the calls of `vmalloc` so far. -/
structure TableHeap where
  heap : Heap
  calls : ℕ
  fdtListHead : ℕ

namespace TableHeap

/-- The state when the module is loaded. -/
def loaded : TableHeap := ⟨∅, 0, 0⟩

def store (p : ℕ) (block : Block) (σ : TableHeap) : TableHeap :=
  { σ with heap := σ.heap.insert p block }

/-- A new block. What is in it at first is never read. -/
def alloc (A : Allocator) (block : Block) (σ : TableHeap) : ℕ × TableHeap :=
  let p := A.vmalloc σ.calls σ.heap
  (p, { σ.store p block with calls := σ.calls + 1 })

def newFields : FDTFields := ⟨0, 0, 0⟩

def newFileObject : FileObject := ⟨0, 0⟩

/-- Assignments to members of the table at `p`. -/
def setFDT (p : ℕ) (f : FDTFields → FDTFields) (σ : TableHeap) : Option TableHeap :=
  (σ.heap.fdt p).map fun (fields, next) ↦ σ.store p (.fdt (f fields) next)

def setNext (p next : ℕ) (σ : TableHeap) : Option TableHeap :=
  (σ.heap.fdt p).map fun (fields, _) ↦ σ.store p (.fdt fields next)

/-- `strcpy` of a string to the block at `p`. -/
def strcpy (p : ℕ) (s : List UInt8) (σ : TableHeap) : Option TableHeap :=
  match σ.heap.lookup p with
  | some (.chars bytes) =>
      if s.length < bytes.length then
        some (σ.store p (.chars (s ++ 0 :: bytes.drop (s.length + 1))))
      else none
  | _ => none

/-! ## The functions -/

/-- The assignments to a new table, the same in both functions: a copy of `path` in a block
of the given size, and a block for the first file object. -/
def fillFDT (A : Allocator) (newFDT : ℕ) (pid : ℤ) (path : List UInt8) (size : ℕ)
    (σ : TableHeap) : Option (ℕ × TableHeap) := do
  let σ ← σ.setFDT newFDT fun fdt ↦ { fdt with pid := pid }
  let (curPath, σ) := σ.alloc A (.chars (List.replicate size 0))
  let σ ← σ.setFDT newFDT fun fdt ↦ { fdt with curPath := curPath }
  let σ ← σ.strcpy curPath path
  let σ ← σ.setNext newFDT 0
  let (newFo, σ) := σ.alloc A (.fileObject newFileObject 0)
  let σ ← σ.setFDT newFDT fun fdt ↦ { fdt with fileObjectListHead := newFo }
  some (newFo, σ)

def createFDT (A : Allocator) (cur : Process) (σ : TableHeap) : Option (ℕ × TableHeap) := do
  let (newFDT, σ) := σ.alloc A (.fdt newFields 0)
  let (newFo, σ) ← σ.fillFDT A newFDT cur.pid [47] 2
  some (newFDT, σ.store newFo (.fileObject ⟨0, 0⟩ 0))

/-- The loop through the list: `cFDT_ptr`, `lFDT_ptr` and `pFDT_ptr` behind it. -/
def search (heap : Heap) (cpid ppid : ℤ) : ℕ → ℕ → ℕ → ℕ → Option (ℕ × ℕ × ℕ)
  | 0, _, _, _ => none
  | fuel + 1, cFDT, lFDT, pFDT =>
      if cFDT = 0 then some (cFDT, lFDT, pFDT)
      else do
        let (fdt, next) ← heap.fdt cFDT
        if fdt.pid = cpid then some (cFDT, lFDT, pFDT)
        else search heap cpid ppid fuel next cFDT (if fdt.pid = ppid then cFDT else pFDT)

/-- The loop that copies the file objects, and the copy of the last one behind it. -/
def copyObjects (A : Allocator) : ℕ → ℕ → ℕ → TableHeap → Option TableHeap
  | 0, _, _, _ => none
  | fuel + 1, newFo, pFo, σ => do
      let (fo, next) ← σ.heap.fileObject pFo
      if next ≠ 0 then
        let σ := σ.store newFo (.fileObject fo next)
        let (newNext, σ) := σ.alloc A (.fileObject newFileObject 0)
        let σ := σ.store newFo (.fileObject fo newNext)
        copyObjects A fuel newNext next σ
      else some (σ.store newFo (.fileObject fo 0))

/-- The copy of the parent's table behind the last table of the list. -/
def copyFDT (A : Allocator) (cur : Process) (lFDT pFDT : ℕ) (σ : TableHeap) :
    Option (ℕ × TableHeap) := do
  let (newFDT, σ) := σ.alloc A (.fdt newFields 0)
  let σ ← σ.setNext lFDT newFDT
  let (parent, _) ← σ.heap.fdt pFDT
  let path ← σ.heap.string parent.curPath
  let (newFo, σ) ← σ.fillFDT A newFDT cur.pid path (path.length + 1)
  let σ ← copyObjects A (σ.heap.keys.card + 1) newFo parent.fileObjectListHead σ
  some (newFDT, σ)

/-- `get_FDT`. The loops end after at most as many rounds as there are blocks. -/
def getFDT (A : Allocator) (cur : Process) (σ : TableHeap) : Option (ℕ × TableHeap) :=
  if σ.fdtListHead = 0 then do
    let (newFDT, σ) ← σ.createFDT A cur
    some (newFDT, { σ with fdtListHead := newFDT })
  else do
    let (cFDT, lFDT, pFDT) ←
      search σ.heap cur.pid cur.ppid (σ.heap.keys.card + 1) σ.fdtListHead 0 0
    if cFDT ≠ 0 then some (cFDT, σ)
    else if pFDT = 0 then do
      let (newFDT, σ) ← σ.createFDT A cur
      let σ ← σ.setNext lFDT newFDT
      some (newFDT, σ)
    else σ.copyFDT A cur lFDT pFDT

end TableHeap

end OperatingSystem.Filesys
