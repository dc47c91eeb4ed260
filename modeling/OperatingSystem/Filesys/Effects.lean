import OperatingSystem.Filesys.Frames

/-!
# The effect of a call on the disk

A call first resolves its pathname or descriptor and then does one thing to
the disk. `diskOp` is the first phase, a function of the state before the
call; `diskOp_of_step` says that the step function runs exactly this operation
on the disk. Facts about the disk are proved by cases on the operation.
-/

namespace OperatingSystem.Filesys

variable {area : Area}

inductive DiskOp where
  | nothing
  | write (i : ℕ) (position : ℤ) (input : List UInt8)
  | create (des : ℕ) (name : List UInt8) (mode : ℤ) (type : ObjectType) (fresh : ℕ → UInt8)
  | unlink (name : List UInt8) (i : ℕ)
  | chmod (i : ℕ) (mode : ℤ)

def DiskOp.run (st : Store area) : DiskOp → Option (Store area)
  | .nothing => some st
  | .write i position input => (writeFile st i position input 'w').map fun r ↦ r.2.2
  | .create des name mode type fresh =>
      (createEntry st des name mode type fresh).map Prod.snd
  | .unlink name i => freeInode st name i
  | .chmod i mode => some (st.setInode i { st.inode i with mode := mode })

def createOp (cur : Process) (pathname : List UInt8) (mode : ℤ) (type : ObjectType)
    (fresh : ℕ → UInt8) (s : State area) : Option DiskOp :=
  if s.store.superblock.freeBlockNumber < 1 ∨ s.store.superblock.freeInodeNumber < 1 then
    some .nothing
  else do
    match ← lookupNew s.store (getFDT cur s).1 pathname with
    | none => some .nothing
    | some (des, childfile) => some (.create des childfile mode type fresh)

def unlinkOp (cur : Process) (pathname : List UInt8) (s : State area) : Option DiskOp :=
  if pathname = [47] then some .nothing
  else do
    match ← lookup s.store (getFDT cur s).1 pathname with
    | none => some .nothing
    | some (childfile, i) => do
        let ino ← s.store.inodeAt i
        if ino.type = .dir ∧ ino.size > 0 then some .nothing
        else do
          let opened ← isOpen (getFDT cur s).2.fdtList i
          if opened = ERROR then some .nothing else some (.unlink childfile i)

def chmodOp (cur : Process) (pathname : List UInt8) (mode : ℤ) (s : State area) :
    Option DiskOp := do
  match ← lookup s.store (getFDT cur s).1 pathname with
  | none => some .nothing
  | some (_, i) => do
      let _ ← s.store.inodeAt i
      some (.chmod i mode)

/-- What a call asks of the disk. -/
def diskOp (s : State area) (e : Event) : Option DiskOp :=
  match e.call with
  | .creat pathname mode fresh => createOp e.cur pathname.chars mode .reg fresh s
  | .mkdir pathname fresh => createOp e.cur pathname.chars 1 .dir fresh s
  | .write fd input =>
      match (getFDT e.cur s).1.fileObject fd with
      | none => some .nothing
      | some fo => some (.write fo.inodeIndex fo.position input)
  | .unlink pathname => unlinkOp e.cur pathname.chars s
  | .chmod pathname mode => chmodOp e.cur pathname.chars mode s
  | _ => some .nothing

/-- The two phases of `create` on the disk: the entry is written behind the
last one of the parent, then the inode is taken. -/
theorem createEntry_cases {st st' : Store area} {des : ℕ} {name : List UInt8} {mode ret : ℤ}
    {type : ObjectType} {fresh : ℕ → UInt8}
    (h : createEntry st des name mode type fresh = some (ret, st')) :
    ∃ ret' pos st₁, writeFile st des (toInt (st.inode des).size)
        (entryBytes name st.superblock.firstFreeInode fresh) 'c' = some (ret', pos, st₁) ∧
      ((ret' = ERROR ∧ ret = ERROR ∧ st' = st₁) ∨
        (ret' ≠ ERROR ∧ ret = SUCCESS ∧
          allocateInode st₁ des mode (if type = .dir then .dir else .reg) = some st')) := by
  obtain ⟨parent, hparent, h⟩ := Option.bind_eq_some_iff.mp h
  obtain ⟨-, rfl⟩ := Store.inodeAt_eq_some hparent
  obtain ⟨⟨ret', pos, st₁⟩, hw, h⟩ := Option.bind_eq_some_iff.mp h
  refine ⟨ret', pos, st₁, hw, ?_⟩
  dsimp only at h
  split at h
  · next hret =>
    cases h
    exact .inl ⟨hret, rfl, rfl⟩
  · next hret =>
    obtain ⟨st₂, ha, h⟩ := Option.bind_eq_some_iff.mp h
    cases h
    exact .inr ⟨hret, rfl, ha⟩

/-- `create` fails by one of its checks, or writes the entry into the directory
that its pathname names. -/
theorem create_cases {cur : Process} {pathname : List UInt8} {mode ret : ℤ}
    {type : ObjectType} {fresh : ℕ → UInt8} {s s' : State area}
    (h : create cur pathname mode type fresh s = some (ret, s')) :
    (ret = ERROR ∧ createOp cur pathname mode type fresh s = some .nothing ∧
        s'.store = s.store) ∨
      ∃ des name, lookupNew s.store (getFDT cur s).1 pathname = some (some (des, name)) ∧
        createOp cur pathname mode type fresh s = some (.create des name mode type fresh) ∧
        createEntry s.store des name mode type fresh = some (ret, s'.store) ∧
        s'.fdtList = (getFDT cur s).2.fdtList := by
  simp only [create] at h
  split at h
  · next hfull =>
    cases h
    exact .inl ⟨rfl, if_pos hfull, rfl⟩
  · next hfull =>
    obtain ⟨target, htarget, h⟩ := Option.bind_eq_some_iff.mp h
    simp only [getFDT_store] at htarget h
    rcases target with _ | ⟨des, name⟩
    · cases h
      refine .inl ⟨rfl, ?_, getFDT_store cur s⟩
      rw [createOp, if_neg hfull]
      simp [htarget]
    · obtain ⟨⟨ret', st'⟩, hentry, h⟩ := Option.bind_eq_some_iff.mp h
      cases h
      refine .inr ⟨des, name, htarget, ?_, hentry, rfl⟩
      rw [createOp, if_neg hfull]
      simp [htarget]

theorem createOp_of_create {cur : Process} {pathname : List UInt8} {mode : ℤ}
    {type : ObjectType} {fresh : ℕ → UInt8} {s s' : State area} {ret : ℤ}
    (h : create cur pathname mode type fresh s = some (ret, s')) :
    ∃ op, createOp cur pathname mode type fresh s = some op ∧
      op.run s.store = some s'.store := by
  rcases create_cases h with ⟨-, hop, hstore⟩ | ⟨des, name, -, hop, hentry, -⟩
  · exact ⟨_, hop, by simp [DiskOp.run, hstore]⟩
  · exact ⟨_, hop, by simp [DiskOp.run, hentry]⟩

/-- `rd_unlink` fails by one of its checks, or frees the inode that its
pathname names. -/
theorem rdUnlink_cases {cur : Process} {pathname : List UInt8} {ret : ℤ} {s s' : State area}
    (h : rdUnlink cur pathname s = some (ret, s')) :
    (ret = ERROR ∧ unlinkOp cur pathname s = some .nothing ∧ s'.store = s.store ∧
        (pathname = [47] ∨ ∀ name i,
          lookup s.store (getFDT cur s).1 pathname = some (some (name, i)) →
          ((s.store.inode i).type = .dir ∧ (s.store.inode i).size > 0) ∨
            isOpen (getFDT cur s).2.fdtList i = some ERROR)) ∨
      (ret = SUCCESS ∧ pathname ≠ [47] ∧ ∃ name i,
        unlinkOp cur pathname s = some (.unlink name i) ∧
        lookup s.store (getFDT cur s).1 pathname = some (some (name, i)) ∧ i < inodeListNum ∧
          ¬ ((s.store.inode i).type = .dir ∧ (s.store.inode i).size > 0) ∧
          isOpen (getFDT cur s).2.fdtList i ≠ some ERROR ∧
          freeInode s.store name i = some s'.store ∧ s'.fdtList = (getFDT cur s).2.fdtList) := by
  simp only [rdUnlink] at h
  split at h
  · next hroot =>
    cases h
    exact .inl ⟨rfl, by simp [unlinkOp, hroot], rfl, .inl hroot⟩
  · next hroot =>
    obtain ⟨target, htarget, h⟩ := Option.bind_eq_some_iff.mp h
    rw [getFDT_store] at htarget
    rcases target with _ | ⟨name, i⟩
    · cases h
      refine .inl ⟨rfl, by simp [unlinkOp, hroot, htarget], getFDT_store cur s, .inr ?_⟩
      intro name i hlookup
      cases htarget.symm.trans hlookup
    · obtain ⟨ino, hino, h⟩ := Option.bind_eq_some_iff.mp h
      rw [getFDT_store] at hino
      obtain ⟨hi, hrecord⟩ := Store.inodeAt_eq_some hino
      split at h
      · next hdir =>
        cases h
        refine .inl ⟨rfl, by simp [unlinkOp, hroot, htarget, hino, hdir], getFDT_store cur s,
          .inr ?_⟩
        intro name' i' hlookup
        cases htarget.symm.trans hlookup
        exact .inl (hrecord ▸ hdir)
      · next hdir =>
        obtain ⟨opened, hopened, h⟩ := Option.bind_eq_some_iff.mp h
        split at h
        · next herror =>
          cases h
          refine .inl ⟨rfl, by simp [unlinkOp, hroot, htarget, hino, hopened, herror],
            getFDT_store cur s, .inr ?_⟩
          intro name' i' hlookup
          cases htarget.symm.trans hlookup
          rw [← herror]
          exact .inr hopened
        · next hne =>
          obtain ⟨st', hfree, h⟩ := Option.bind_eq_some_iff.mp h
          rw [getFDT_store] at hfree
          cases h
          refine .inr ⟨rfl, hroot, name, i,
            by simp [unlinkOp, hroot, htarget, hino, hdir, hopened, hne], htarget, hi,
            hrecord ▸ hdir, ?_, hfree, rfl⟩
          rw [hopened]
          exact fun heq ↦ hne (Option.some.inj heq)

theorem unlinkOp_of_rdUnlink {cur : Process} {pathname : List UInt8} {s s' : State area}
    {ret : ℤ} (h : rdUnlink cur pathname s = some (ret, s')) :
    ∃ op, unlinkOp cur pathname s = some op ∧ op.run s.store = some s'.store := by
  rcases rdUnlink_cases h with ⟨-, hop, hstore, -⟩ | ⟨-, -, name, i, hop, hfreed⟩
  · exact ⟨_, hop, by simp [DiskOp.run, hstore]⟩
  · exact ⟨_, hop, hfreed.2.2.2.2.1⟩

theorem rdUnlink_eq_success {cur : Process} {pathname : List UInt8} {s s' : State area}
    (h : rdUnlink cur pathname s = some (SUCCESS, s')) :
    ∃ name i, lookup s.store (getFDT cur s).1 pathname = some (some (name, i)) ∧
      i < inodeListNum ∧ isOpen (getFDT cur s).2.fdtList i ≠ some ERROR ∧
      freeInode s.store name i = some s'.store ∧ s'.fdtList = (getFDT cur s).2.fdtList := by
  rcases rdUnlink_cases h with ⟨herror, -⟩ | ⟨-, hfreed⟩
  · cases herror
  · obtain ⟨-, name, i, -, hlookup, hi, -, hclosed, hfree, htables⟩ := hfreed
    exact ⟨name, i, hlookup, hi, hclosed, hfree, htables⟩

theorem chmodOp_of_rdChmod {cur : Process} {pathname : List UInt8} {mode : ℤ}
    {s s' : State area} {ret : ℤ} (h : rdChmod cur pathname mode s = some (ret, s')) :
    ∃ op, chmodOp cur pathname mode s = some op ∧ op.run s.store = some s'.store := by
  simp only [rdChmod, getFDT_store] at h
  obtain ⟨target, htarget, h⟩ := Option.bind_eq_some_iff.mp h
  rcases target with _ | ⟨childfile, i⟩
  · cases h
    exact ⟨.nothing, by simp [chmodOp, htarget], by simp [DiskOp.run]⟩
  · obtain ⟨ino, hino, h⟩ := Option.bind_eq_some_iff.mp h
    obtain ⟨-, rfl⟩ := Store.inodeAt_eq_some hino
    cases h
    exact ⟨.chmod i mode, by simp [chmodOp, htarget, hino], by simp [DiskOp.run]⟩

theorem rdOpen_store {cur : Process} {pathname : List UInt8} {flag : ℤ} {s s' : State area}
    {ret : ℤ} (h : rdOpen cur pathname flag s = some (ret, s')) : s'.store = s.store := by
  simp only [rdOpen] at h
  split at h
  · cases h
  · obtain ⟨target, -, h⟩ := Option.bind_eq_some_iff.mp h
    rcases target with _ | ⟨childfile, i⟩
    · cases h
      simp
    · obtain ⟨opened, -, h⟩ := Option.bind_eq_some_iff.mp h
      split at h
      · cases h
        simp
      · obtain ⟨ino, -, h⟩ := Option.bind_eq_some_iff.mp h
        split at h
        · cases h
          simp
        · obtain ⟨path, -, h⟩ := Option.bind_eq_some_iff.mp h
          split at h <;> cases h <;> simp

theorem rdClose_store {cur : Process} {fd : ℤ} {s s' : State area} {ret : ℤ}
    (h : rdClose cur fd s = some (ret, s')) : s'.store = s.store := by
  simp only [rdClose] at h
  split at h
  · obtain ⟨head, -, h⟩ := Option.bind_eq_some_iff.mp h
    split at h
    · cases h
      simp
    · obtain ⟨ino, -, h⟩ := Option.bind_eq_some_iff.mp h
      obtain ⟨path, -, h⟩ := Option.bind_eq_some_iff.mp h
      cases h
      simp
  · split at h
    · cases h
    · split at h
      · cases h
        simp
      · split at h <;> cases h
        simp

theorem rdRead_store {cur : Process} {fd numBytes : ℤ} {s s' : State area} {r : ReadResult}
    (h : rdRead cur fd numBytes s = some (r, s')) : s'.store = s.store := by
  simp only [rdRead] at h
  split at h
  · cases h
    simp
  · obtain ⟨ino, -, h⟩ := Option.bind_eq_some_iff.mp h
    obtain ⟨r', -, h⟩ := Option.bind_eq_some_iff.mp h
    cases h
    simp

theorem rdLseek_store {cur : Process} {fd position : ℤ} {s s' : State area} {ret : ℤ}
    (h : rdLseek cur fd position s = some (ret, s')) : s'.store = s.store := by
  simp only [rdLseek] at h
  split at h
  · cases h
    simp
  · obtain ⟨ino, -, h⟩ := Option.bind_eq_some_iff.mp h
    cases h
    simp

/-- `rd_write` fails without a file object, or writes at its position and moves
it. -/
theorem rdWrite_cases {cur : Process} {fd ret : ℤ} {input : List UInt8} {s s' : State area}
    (h : rdWrite cur fd input s = some (ret, s')) :
    ((getFDT cur s).1.fileObject fd = none ∧ ret = ERROR ∧ s' = (getFDT cur s).2) ∨
      ∃ fo pos st, (getFDT cur s).1.fileObject fd = some fo ∧
        writeFile s.store fo.inodeIndex fo.position input 'w' = some (ret, pos, st) ∧
        s' = { (getFDT cur s).2 with store := st }.setFDT
          ((getFDT cur s).1.setPosition fd fo pos) := by
  simp only [rdWrite] at h
  split at h
  · next hfo =>
    cases h
    exact .inl ⟨hfo, rfl, rfl⟩
  · next fo hfo =>
    obtain ⟨⟨ret', pos', st'⟩, hwrite, h⟩ := Option.bind_eq_some_iff.mp h
    cases h
    rw [getFDT_store] at hwrite
    exact .inr ⟨fo, pos', st', hfo, hwrite, rfl⟩

theorem writeOp_of_rdWrite {cur : Process} {fd : ℤ} {input : List UInt8} {s s' : State area}
    {ret : ℤ} (h : rdWrite cur fd input s = some (ret, s')) :
    (match (getFDT cur s).1.fileObject fd with
      | none => DiskOp.nothing
      | some fo => .write fo.inodeIndex fo.position input).run s.store = some s'.store := by
  rcases rdWrite_cases h with ⟨hfo, -, rfl⟩ | ⟨fo, pos, st, hfo, hwrite, rfl⟩
  · simp [hfo, DiskOp.run]
  · simp [hfo, DiskOp.run, hwrite]

/-- Every step of the system runs, on the disk, the operation that its call
resolves to in the state before. -/
theorem diskOp_of_step {s s' : State area} {e : Event} (h : step s e = some s') :
    ∃ op, diskOp s e = some op ∧ op.run s.store = some s'.store := by
  obtain ⟨⟨reply, s''⟩, hioctl, rfl⟩ := Option.map_eq_some_iff.mp h
  rcases e with ⟨cur, call⟩
  cases call with
  | pwd =>
      simp only [ramdiskIoctl] at hioctl
      split at hioctl <;> cases hioctl
      exact ⟨.nothing, rfl, by simp [DiskOp.run, rdPwd]⟩
  | creat pathname mode fresh =>
      obtain ⟨r, hr, hreply⟩ := Option.map_eq_some_iff.mp hioctl
      cases hreply
      exact createOp_of_create hr
  | mkdir pathname fresh =>
      obtain ⟨r, hr, hreply⟩ := Option.map_eq_some_iff.mp hioctl
      cases hreply
      exact createOp_of_create hr
  | openPath pathname flag =>
      obtain ⟨r, hr, hreply⟩ := Option.map_eq_some_iff.mp hioctl
      cases hreply
      exact ⟨.nothing, rfl, by simp [DiskOp.run, rdOpen_store hr]⟩
  | close fd =>
      obtain ⟨r, hr, hreply⟩ := Option.map_eq_some_iff.mp hioctl
      cases hreply
      exact ⟨.nothing, rfl, by simp [DiskOp.run, rdClose_store hr]⟩
  | read fd numBytes =>
      obtain ⟨r, hr, hreply⟩ := Option.map_eq_some_iff.mp hioctl
      cases hreply
      exact ⟨.nothing, rfl, by simp [DiskOp.run, rdRead_store hr]⟩
  | write fd input =>
      obtain ⟨r, hr, hreply⟩ := Option.map_eq_some_iff.mp hioctl
      cases hreply
      refine ⟨_, ?_, writeOp_of_rdWrite hr⟩
      simp only [diskOp]
      split <;> rfl
  | lseek fd position =>
      obtain ⟨r, hr, hreply⟩ := Option.map_eq_some_iff.mp hioctl
      cases hreply
      exact ⟨.nothing, rfl, by simp [DiskOp.run, rdLseek_store hr]⟩
  | unlink pathname =>
      obtain ⟨r, hr, hreply⟩ := Option.map_eq_some_iff.mp hioctl
      cases hreply
      exact unlinkOp_of_rdUnlink hr
  | chmod pathname mode =>
      obtain ⟨r, hr, hreply⟩ := Option.map_eq_some_iff.mp hioctl
      cases hreply
      exact chmodOp_of_rdChmod hr

theorem createOp_ne_unlink {cur : Process} {pathname name : List UInt8} {mode : ℤ}
    {type : ObjectType} {fresh : ℕ → UInt8} {s : State area} {i : ℕ} :
    createOp cur pathname mode type fresh s ≠ some (.unlink name i) := by
  intro h
  simp only [createOp] at h
  split at h
  · cases h
  · obtain ⟨target, -, h⟩ := Option.bind_eq_some_iff.mp h
    rcases target with _ | ⟨des, childfile⟩ <;> cases h

/-- Only `rd_unlink` frees an inode. -/
theorem diskOp_eq_unlink {s : State area} {e : Event} {name : List UInt8} {i : ℕ}
    (h : diskOp s e = some (.unlink name i)) :
    ∃ pathname, e.call = .unlink pathname ∧
      unlinkOp e.cur pathname.chars s = some (.unlink name i) := by
  obtain ⟨cur, call⟩ := e
  cases call with
  | creat pathname mode fresh => exact (createOp_ne_unlink h).elim
  | mkdir pathname fresh => exact (createOp_ne_unlink h).elim
  | write fd input =>
      simp only [diskOp] at h
      split at h <;> cases h
  | unlink pathname => exact ⟨pathname, rfl, h⟩
  | chmod pathname mode =>
      simp only [diskOp, chmodOp] at h
      obtain ⟨target, -, h⟩ := Option.bind_eq_some_iff.mp h
      rcases target with _ | ⟨childfile, j⟩
      · cases h
      · obtain ⟨ino, -, h⟩ := Option.bind_eq_some_iff.mp h
        cases h
  | _ => cases h

theorem unlinkOp_eq_unlink {cur : Process} {pathname name : List UInt8} {s : State area} {i : ℕ}
    (h : unlinkOp cur pathname s = some (.unlink name i)) :
    pathname ≠ [47] ∧ lookup s.store (getFDT cur s).1 pathname = some (some (name, i)) ∧
      i < inodeListNum ∧ ¬ ((s.store.inode i).type = .dir ∧ (s.store.inode i).size > 0) := by
  simp only [unlinkOp] at h
  split at h
  · cases h
  · next hroot =>
    obtain ⟨target, htarget, h⟩ := Option.bind_eq_some_iff.mp h
    rcases target with _ | ⟨childfile, j⟩
    · cases h
    · obtain ⟨ino, hino, h⟩ := Option.bind_eq_some_iff.mp h
      obtain ⟨hj, rfl⟩ := Store.inodeAt_eq_some hino
      split at h
      · cases h
      · next hempty =>
        obtain ⟨opened, -, h⟩ := Option.bind_eq_some_iff.mp h
        split at h <;> cases h
        exact ⟨hroot, htarget, hj, hempty⟩

theorem unlink_lt {s : State area} {e : Event} {name : List UInt8} {i : ℕ}
    (h : diskOp s e = some (.unlink name i)) : i < inodeListNum := by
  obtain ⟨pathname, -, h⟩ := diskOp_eq_unlink h
  exact (unlinkOp_eq_unlink h).2.2.1

/-- An entry is written for the directory and the name that a pathname resolves
to. -/
theorem diskOp_eq_create {s : State area} {e : Event} {des : ℕ} {name : List UInt8} {mode : ℤ}
    {type : ObjectType} {fresh : ℕ → UInt8}
    (h : diskOp s e = some (.create des name mode type fresh)) :
    ∃ pathname : CString,
      lookupNew s.store (getFDT e.cur s).1 pathname.chars = some (some (des, name)) := by
  have hcreate : ∀ {cur : Process} {pathname : List UInt8} {mode' : ℤ} {type' : ObjectType}
      {fresh' : ℕ → UInt8}, createOp cur pathname mode' type' fresh' s =
        some (.create des name mode type fresh) →
      lookupNew s.store (getFDT cur s).1 pathname = some (some (des, name)) := by
    intro cur pathname mode' type' fresh' h
    simp only [createOp] at h
    split at h
    · cases h
    · obtain ⟨target, htarget, h⟩ := Option.bind_eq_some_iff.mp h
      rcases target with _ | ⟨des', name'⟩ <;> cases h
      exact htarget
  obtain ⟨cur, call⟩ := e
  cases call with
  | creat pathname mode' fresh' => exact ⟨pathname, hcreate h⟩
  | mkdir pathname fresh' => exact ⟨pathname, hcreate h⟩
  | write fd input =>
      simp only [diskOp] at h
      split at h <;> cases h
  | unlink pathname =>
      simp only [diskOp, unlinkOp] at h
      split at h
      · cases h
      · obtain ⟨target, -, h⟩ := Option.bind_eq_some_iff.mp h
        rcases target with _ | ⟨childfile, j⟩
        · cases h
        · obtain ⟨ino, -, h⟩ := Option.bind_eq_some_iff.mp h
          split at h
          · cases h
          · obtain ⟨opened, -, h⟩ := Option.bind_eq_some_iff.mp h
            split at h <;> cases h
  | chmod pathname mode' =>
      simp only [diskOp, chmodOp] at h
      obtain ⟨target, -, h⟩ := Option.bind_eq_some_iff.mp h
      rcases target with _ | ⟨childfile, j⟩
      · cases h
      · obtain ⟨ino, -, h⟩ := Option.bind_eq_some_iff.mp h
        cases h
  | _ => cases h

end OperatingSystem.Filesys
