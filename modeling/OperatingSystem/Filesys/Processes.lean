import OperatingSystem.Filesys.Files

/-!
# File descriptor tables and pathnames

`isOpen`, `create_FDT`, `get_FDT` and `read_pathname`, and the part of the
operations that resolves a pathname to a directory and an inode.
-/

namespace OperatingSystem.Filesys

variable {area : Area}

/-! ## File descriptor tables -/

/-- `isOpen` searches the first table of the list, whatever table it is given. -/
def isOpen (fdtList : List FDT) (inodeIndex : ℕ) : Option ℤ :=
  fdtList.head?.map fun fdt ↦
    if ∃ fo ∈ fdt.fileObjects, fo.inodeIndex = inodeIndex then ERROR else SUCCESS

def createFDT (cur : Process) : FDT where
  pid := cur.pid
  fileObjects := [⟨0, 0⟩]
  curPath := [47]

/-- The table that `get_FDT` appends for a process it does not know: a copy of
the parent's table, if the list holds one. -/
def newFDT (cur : Process) (fdtList : List FDT) : FDT :=
  match (fdtList.filter fun fdt ↦ fdt.pid = cur.ppid).getLast? with
  | none => createFDT cur
  | some parent => { parent with pid := cur.pid }

def getFDT (cur : Process) (s : State area) : FDT × State area :=
  match s.fdtList.find? fun fdt ↦ fdt.pid = cur.pid with
  | some fdt => (fdt, s)
  | none =>
      (newFDT cur s.fdtList, { s with fdtList := s.fdtList ++ [newFDT cur s.fdtList] })

def State.setFDT (s : State area) (fdt : FDT) : State area :=
  { s with
    fdtList := s.fdtList.set (s.fdtList.findIdx fun t ↦ t.pid = fdt.pid) fdt }

/-! ## Pathnames -/

def layerCheck (pathname : List UInt8) : ℕ := pathname.count 47

/-- What `read_pathname` reports. After `ERROR` the caller's `childfile` is
still uninitialised. -/
inductive ParsedPath where
  | error
  | parsed (desIndex : ℕ) (parentlist : List (List UInt8)) (childfile : List UInt8)

/-- Strip the leading `"../"` and count them. -/
def stripBack : List UInt8 → ℕ × List UInt8
  | 46 :: 46 :: 47 :: rest => ((stripBack rest).1 + 1, (stripBack rest).2)
  | pn => (0, pn)

/-- Follow `parent_index` the given number of times. -/
def climb (st : Store area) : ℕ → ℕ → Option ℕ
  | 0, i => some i
  | back + 1, i => (st.inodeAt i).bind fun ino ↦ climb st back ino.parentIndex

/-- Cut the pathname at every `'/'`: the pieces before a slash and the rest. -/
def partition : List UInt8 → List (List UInt8) × List UInt8
  | [] => ([], [])
  | c :: cs =>
      if c = 47 then ([] :: (partition cs).1, (partition cs).2)
      else
        match partition cs with
        | ([], last) => ([], c :: last)
        | (piece :: pieces, last) => ((c :: piece) :: pieces, last)

def skipPrefix (pre pn : List UInt8) : List UInt8 :=
  if pre.isPrefixOf pn then pn.drop pre.length else pn

def readPathname (st : Store area) (fdt : FDT) (pathname : List UInt8) : Option ParsedPath := do
  let head ← fdt.fileObjects.head?
  let (back, pn) := stripBack pathname
  if back > 0 ∧ back > layerCheck fdt.curPath then some .error
  else do
    let desIndex ← climb st back head.inodeIndex
    let pn := skipPrefix [46, 47] pn
    let desIndex := if [47].isPrefixOf pn then 0 else desIndex
    let (parentlist, childfile) := partition (skipPrefix [47] pn)
    -- `parentlist` has 20 slots; a further slash writes past its end
    if parentlist.length ≤ 20 then some (.parsed desIndex parentlist childfile) else none

/-- The loop by which every operation resolves `parentlist` from `desIndex`.
It ends at a `NULL` slot, and reads past the array if all 20 are filled. -/
def walkParents (st : Store area) : List (List UInt8) → ℕ → ℕ → ℤ → Option (ℤ × ℤ)
  | [], slot, desIndex, position => if slot < 20 then some (desIndex, position) else none
  | name :: names, slot, desIndex, position => do
      let r ← isExist st name desIndex position
      if r.ans = ERROR then some (ERROR, r.directoryIndex)
      else walkParents st names (slot + 1) r.ans.toNat r.directoryIndex

/-- The steps that every operation with a pathname begins with. The inner
`none` stands for the operation returning `ERROR`; otherwise the directory, the
last component and `*position`. -/
def resolve (st : Store area) (fdt : FDT) (pathname : List UInt8) :
    Option (Option (ℕ × List UInt8 × ℤ)) := do
  match ← readPathname st fdt pathname with
  | .error => none
  | .parsed desIndex parentlist childfile =>
      let (des, position) ← walkParents st parentlist 0 desIndex (-1)
      if des = ERROR then some none
      else some (some (des.toNat, childfile, position))

/-- The steps that `rd_open`, `rd_unlink` and `rd_chmod` share: the last
component and the inode it names. The length check that the first two make
before `isExist` is the first check of `isExist`. -/
def lookup (st : Store area) (fdt : FDT) (pathname : List UInt8) :
    Option (Option (List UInt8 × ℕ)) := do
  match ← resolve st fdt pathname with
  | none => some none
  | some (des, childfile, position) => do
      let r ← isExist st childfile des position
      if r.ans = ERROR then some none else some (some (childfile, r.ans.toNat))

/-- The checks of `create` on the pathname: the parent directory and the name
of the new entry. -/
def lookupNew (st : Store area) (fdt : FDT) (pathname : List UInt8) :
    Option (Option (ℕ × List UInt8)) := do
  match ← resolve st fdt pathname with
  | none => some none
  | some (des, childfile, position) =>
      if childfile.length > 13 then some none
      else do
        let r ← isExist st childfile des position
        if r.ans ≠ ERROR then some none else some (some (des, childfile))

/-! ## Lemmas on tables -/

@[simp] theorem newFDT_pid (cur : Process) (fdtList : List FDT) :
    (newFDT cur fdtList).pid = cur.pid := by
  unfold newFDT
  split <;> rfl

@[simp] theorem getFDT_pid (cur : Process) (s : State area) :
    (getFDT cur s).1.pid = cur.pid := by
  unfold getFDT
  split
  · next fdt h => simpa using List.find?_some h
  · exact newFDT_pid cur s.fdtList

@[simp] theorem getFDT_store (cur : Process) (s : State area) :
    (getFDT cur s).2.store = s.store := by
  unfold getFDT
  split <;> rfl

@[simp] theorem setFDT_store (s : State area) (fdt : FDT) :
    (s.setFDT fdt).store = s.store := rfl

theorem find?_getFDT (cur : Process) (s : State area) :
    (getFDT cur s).2.fdtList.find? (fun t ↦ t.pid = cur.pid) = some (getFDT cur s).1 := by
  unfold getFDT
  split
  · next fdt h => exact h
  · next h => simp [List.find?_append, h]

theorem getFDT_of_find? {cur : Process} {s : State area} {fdt : FDT}
    (h : s.fdtList.find? (fun t ↦ t.pid = cur.pid) = some fdt) :
    getFDT cur s = (fdt, s) := by
  simp [getFDT, h]

theorem find?_set_findIdx {p : FDT → Bool} {fdtList : List FDT} {old fdt : FDT}
    (hold : fdtList.find? p = some old) (hp : p fdt = true) :
    (fdtList.set (fdtList.findIdx p) fdt).find? p = some fdt := by
  induction fdtList with
  | nil => simp at hold
  | cons t ts ih =>
      by_cases ht : p t = true
      · simp [List.findIdx_cons, ht, hp]
      · simp only [List.find?_cons, ht] at hold
        simp [List.findIdx_cons, ht, ih hold]

theorem find?_setFDT {cur : Process} {s : State area} {old fdt : FDT}
    (hold : s.fdtList.find? (fun t ↦ t.pid = cur.pid) = some old) (hpid : fdt.pid = cur.pid) :
    (s.setFDT fdt).fdtList.find? (fun t ↦ t.pid = cur.pid) = some fdt := by
  simp only [State.setFDT, hpid]
  exact find?_set_findIdx hold (by simpa using hpid)

theorem getFDT_setFDT {cur : Process} {s : State area} {fdt : FDT} (hpid : fdt.pid = cur.pid) :
    getFDT cur ((getFDT cur s).2.setFDT fdt) = (fdt, (getFDT cur s).2.setFDT fdt) :=
  getFDT_of_find? (find?_setFDT (find?_getFDT cur s) hpid)

end OperatingSystem.Filesys
