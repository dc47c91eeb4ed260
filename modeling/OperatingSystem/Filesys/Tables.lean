import OperatingSystem.Filesys.Effects

/-!
# What the operations do to the tables

The descriptor table that the caller has after an operation, as a function of
the one it had before. Only `rd_open`, `rd_close`, `rd_write` and `rd_lseek`
change a table, and only the table of their caller.
-/

namespace OperatingSystem.Filesys

variable {area : Area}

/-- The table that `get_FDT` gives to a process. -/
def State.table (s : State area) (cur : Process) : FDT := (getFDT cur s).1

/-- The list of tables once the caller has one. -/
def State.tables (s : State area) (cur : Process) : List FDT := (getFDT cur s).2.fdtList

theorem table_congr {s t : State area} (h : s.fdtList = t.fdtList) (cur : Process) :
    s.table cur = t.table cur := by
  simp only [State.table, getFDT, h]
  split <;> rfl

theorem table_mem_tables (s : State area) (cur : Process) : s.table cur ∈ s.tables cur :=
  List.mem_of_find?_eq_some (find?_getFDT cur s)

/-- What holds of every table of the list holds of the caller's, which may be a
new copy. -/
theorem table_of_forall {s : State area} {P : List FileObject → List UInt8 → Prop}
    (h : ∀ fdt ∈ s.fdtList, P fdt.fileObjects fdt.curPath) (hnew : P [⟨0, 0⟩] [47])
    (cur : Process) : P (s.table cur).fileObjects (s.table cur).curPath := by
  rw [State.table, getFDT]
  split
  · next fdt hfdt => exact h fdt (List.mem_of_find?_eq_some hfdt)
  · rw [newFDT]
    split
    · exact hnew
    · next parent hparent =>
      exact h parent (List.mem_filter.mp (List.mem_of_getLast? hparent)).1

theorem mem_tables {s : State area} {fdt : FDT} (h : fdt ∈ s.fdtList) (cur : Process) :
    fdt ∈ s.tables cur := by
  rw [State.tables, getFDT]
  split
  · exact h
  · exact List.mem_append_left _ h

/-- The list in which the caller has a table holds the old tables and his. -/
theorem mem_tables_cases {s : State area} {cur : Process} {fdt : FDT} (h : fdt ∈ s.tables cur) :
    fdt ∈ s.fdtList ∨ fdt = s.table cur := by
  rw [State.tables, getFDT] at h
  rw [State.table, getFDT]
  split at h
  · exact .inl h
  · exact (List.mem_append.mp h).imp_right List.mem_singleton.mp

theorem table_of_tables {s s' : State area} {cur : Process} (h : s'.fdtList = s.tables cur) :
    s'.table cur = s.table cur := by
  have hfind := find?_getFDT cur s
  have hself := getFDT_of_find? hfind
  rw [table_congr (t := (getFDT cur s).2) h, State.table, hself]
  rfl

theorem table_setFDT {s : State area} {cur : Process} {fdt : FDT} (h : fdt.pid = cur.pid) :
    ((getFDT cur s).2.setFDT fdt).table cur = fdt := by
  rw [State.table, getFDT_setFDT h]

theorem isOpen_ne_error {fdtList : List FDT} {i : ℕ} {opened : ℤ}
    (h : isOpen fdtList i = some opened) (hne : opened ≠ ERROR) :
    isOpen fdtList i = some SUCCESS := by
  obtain ⟨head, hhead, heq⟩ := Option.map_eq_some_iff.mp h
  split at heq
  · exact (hne heq.symm).elim
  · rw [h, ← heq]

/-- `rd_open` fails by one of its checks and leaves the table, or reaches its
end with the inode that the pathname names. -/
theorem rdOpen_cases {cur : Process} {pathname : List UInt8} {flag ret : ℤ} {s s' : State area}
    (h : rdOpen cur pathname flag s = some (ret, s')) :
    (ret = ERROR ∧ s'.table cur = s.table cur ∧ ∀ name i,
        lookup s.store (s.table cur) pathname = some (some (name, i)) →
        isOpen (s.tables cur) i = some ERROR ∨ AccessDenied (s.store.inode i).mode flag) ∨
      ∃ name i path, lookup s.store (s.table cur) pathname = some (some (name, i)) ∧
        buildPath (s.table cur).curPath pathname = some path ∧
        i < inodeListNum ∧ isOpen (s.tables cur) i = some SUCCESS ∧
        ¬ AccessDenied (s.store.inode i).mode flag ∧
        (((s.store.inode i).type = .dir ∧ ret = 0 ∧
            s'.table cur = { s.table cur with fileObjects := [⟨i, 0⟩], curPath := path }) ∨
          ((s.store.inode i).type ≠ .dir ∧ ret = (s.table cur).fileObjects.length ∧
            s'.table cur =
              { s.table cur with
                fileObjects := (s.table cur).fileObjects ++ [⟨i, 0⟩], curPath := path })) := by
  have hsame : (getFDT cur s).2.table cur = s.table cur := table_of_tables rfl
  simp only [rdOpen] at h
  split at h
  · cases h
  · obtain ⟨target, htarget, h⟩ := Option.bind_eq_some_iff.mp h
    rw [getFDT_store] at htarget
    rcases target with _ | ⟨name, i⟩
    · cases h
      refine .inl ⟨rfl, hsame, ?_⟩
      intro name i hlookup
      cases htarget.symm.trans hlookup
    · have hunique : ∀ name' i', lookup s.store (s.table cur) pathname =
          some (some (name', i')) → i' = i := by
        intro name' i' hlookup
        cases htarget.symm.trans hlookup
        rfl
      obtain ⟨opened, hopened, h⟩ := Option.bind_eq_some_iff.mp h
      split at h
      · next herror =>
        cases h
        refine .inl ⟨rfl, hsame, fun name' i' hlookup ↦ .inl ?_⟩
        rw [hunique name' i' hlookup, ← herror]
        exact hopened
      · next hne =>
        obtain ⟨ino, hino, h⟩ := Option.bind_eq_some_iff.mp h
        rw [getFDT_store] at hino
        obtain ⟨hi, rfl⟩ := Store.inodeAt_eq_some hino
        split at h
        · next haccess =>
          cases h
          refine .inl ⟨rfl, hsame, fun name' i' hlookup ↦ .inr ?_⟩
          rw [hunique name' i' hlookup]
          exact haccess
        · next haccess =>
          obtain ⟨path, hpath, h⟩ := Option.bind_eq_some_iff.mp h
          refine .inr ⟨name, i, path, htarget, hpath, hi, isOpen_ne_error hopened hne, haccess, ?_⟩
          split at h
          · next htype =>
            cases h
            exact .inl ⟨htype, rfl, table_setFDT (getFDT_pid cur s)⟩
          · next htype =>
            cases h
            exact .inr ⟨htype, rfl, table_setFDT (getFDT_pid cur s)⟩

/-- `rd_close` fails, goes to the parent of the current directory, or unlinks the file object
at the position `fd`. -/
theorem rdClose_cases {cur : Process} {fd ret : ℤ} {s s' : State area}
    (h : rdClose cur fd s = some (ret, s')) :
    (ret = ERROR ∧ s'.table cur = s.table cur ∧
        (fd = 0 ∨ (s.table cur).fileObjects.length < fd)) ∨
      (fd = 0 ∧ ret = SUCCESS ∧ ∃ head path, (s.table cur).fileObjects.head? = some head ∧
        head.inodeIndex ≠ 0 ∧ cutPath (s.table cur).curPath = some path ∧
        s'.table cur =
          { s.table cur with
            fileObjects := ⟨(s.store.inode head.inodeIndex).parentIndex, 0⟩ ::
              (s.table cur).fileObjects.tail
            curPath := path }) ∨
      (0 < fd ∧ fd < (s.table cur).fileObjects.length ∧ ret = SUCCESS ∧
        s'.table cur =
          { s.table cur with
            fileObjects := (s.table cur).fileObjects.eraseIdx fd.toNat }) := by
  have hsame : (getFDT cur s).2.table cur = s.table cur := table_of_tables rfl
  simp only [rdClose] at h
  split at h
  · next hzero =>
    obtain ⟨head, hhead, h⟩ := Option.bind_eq_some_iff.mp h
    split at h
    · cases h
      exact .inl ⟨rfl, hsame, .inl hzero⟩
    · next hne =>
      obtain ⟨ino, hino, h⟩ := Option.bind_eq_some_iff.mp h
      obtain ⟨path, hpath, h⟩ := Option.bind_eq_some_iff.mp h
      rw [getFDT_store] at hino
      obtain ⟨-, rfl⟩ := Store.inodeAt_eq_some hino
      cases h
      exact .inr (.inl ⟨hzero, rfl, head, path, hhead, hne, hpath,
        table_setFDT (getFDT_pid cur s)⟩)
  · split at h
    · cases h
    · split at h
      · next hlong =>
        cases h
        exact .inl ⟨rfl, hsame, .inr hlong⟩
      · split at h
        · cases h
        · next hzero hneg hlong hlength =>
          cases h
          refine .inr (.inr ⟨by omega, ?_, rfl, table_setFDT (getFDT_pid cur s)⟩)
          simp only [State.table]
          omega

/-- `rd_write` and `rd_lseek` move the position of their own descriptor. -/
theorem rdWrite_table {cur : Process} {fd ret : ℤ} {input : List UInt8} {s s' : State area}
    (h : rdWrite cur fd input s = some (ret, s')) :
    s'.table cur = s.table cur ∨ ∃ fo position, (s.table cur).fileObject fd = some fo ∧
      s'.table cur = (s.table cur).setPosition fd fo position := by
  simp only [rdWrite] at h
  split at h
  · cases h
    exact .inl (table_of_tables rfl)
  · next fo hfo =>
    obtain ⟨⟨ret', position, store⟩, -, h⟩ := Option.bind_eq_some_iff.mp h
    cases h
    refine .inr ⟨fo, position, hfo, ?_⟩
    have hpid : ((s.table cur).setPosition fd fo position).pid = cur.pid := getFDT_pid cur s
    refine Eq.trans (table_congr ?_ cur) (table_setFDT (s := s) hpid)
    rfl

theorem rdLseek_table {cur : Process} {fd ret position : ℤ} {s s' : State area}
    (h : rdLseek cur fd position s = some (ret, s')) :
    s'.table cur = s.table cur ∨ ∃ fo position', (s.table cur).fileObject fd = some fo ∧
      s'.table cur = (s.table cur).setPosition fd fo position' := by
  simp only [rdLseek] at h
  split at h
  · cases h
    exact .inl (table_of_tables rfl)
  · next fo hfo =>
    obtain ⟨ino, -, h⟩ := Option.bind_eq_some_iff.mp h
    cases h
    exact .inr ⟨fo, if toInt ino.size < position then toInt ino.size else position, hfo,
      table_setFDT (getFDT_pid cur s)⟩

/-! ## File objects of a table -/

theorem fileObject_of_pos (fdt : FDT) {fd : ℕ} (h : 1 ≤ fd) :
    fdt.fileObject fd = fdt.fileObjects[fd]? := by
  have hne : (fd : ℤ) ≠ 0 := by omega
  rw [FDT.fileObject, if_neg hne, Int.toNat_natCast]

theorem fileObject_setPosition {fdt : FDT} {fd position : ℤ} {fo : FileObject} {k : ℕ}
    (hfo : fdt.fileObject fd = some fo) (hk : 1 ≤ k) :
    (fdt.setPosition fd fo position).fileObject k =
      if fd = k then some { fo with position := position } else fdt.fileObject k := by
  have hlt : fd.toNat < fdt.fileObjects.length := by
    simp only [FDT.fileObject] at hfo
    split at hfo
    · cases hfo
    · exact (List.getElem?_eq_some_iff.mp hfo).1
  rw [fileObject_of_pos _ hk, fileObject_of_pos _ hk, FDT.setPosition]
  by_cases heq : fd = k
  · have hnat : fd.toNat = k := by omega
    rw [hnat] at hlt
    simp [heq, hlt]
  · have hnat : fd.toNat ≠ k := by omega
    simp [heq, List.getElem?_set_ne hnat]

/-! ## Operations that leave the tables -/

theorem rdRead_fdtList {cur : Process} {fd numBytes : ℤ} {r : ReadResult} {s s' : State area}
    (h : rdRead cur fd numBytes s = some (r, s')) : s'.fdtList = s.tables cur := by
  simp only [rdRead] at h
  split at h
  · cases h
    rfl
  · obtain ⟨ino, -, h⟩ := Option.bind_eq_some_iff.mp h
    obtain ⟨r', -, h⟩ := Option.bind_eq_some_iff.mp h
    cases h
    rfl

theorem create_fdtList {cur : Process} {pathname : List UInt8} {mode ret : ℤ}
    {type : ObjectType} {fresh : ℕ → UInt8} {s s' : State area}
    (h : create cur pathname mode type fresh s = some (ret, s')) :
    s'.fdtList = s.fdtList ∨ s'.fdtList = s.tables cur := by
  simp only [create] at h
  split at h
  · cases h
    exact .inl rfl
  · obtain ⟨target, -, h⟩ := Option.bind_eq_some_iff.mp h
    rcases target with _ | ⟨des, childfile⟩
    · cases h
      exact .inr rfl
    · obtain ⟨r, -, h⟩ := Option.bind_eq_some_iff.mp h
      cases h
      exact .inr rfl

theorem rdUnlink_fdtList {cur : Process} {pathname : List UInt8} {ret : ℤ} {s s' : State area}
    (h : rdUnlink cur pathname s = some (ret, s')) :
    s'.fdtList = s.fdtList ∨ s'.fdtList = s.tables cur := by
  simp only [rdUnlink] at h
  split at h
  · cases h
    exact .inl rfl
  · obtain ⟨target, -, h⟩ := Option.bind_eq_some_iff.mp h
    rcases target with _ | ⟨childfile, i⟩
    · cases h
      exact .inr rfl
    · obtain ⟨ino, -, h⟩ := Option.bind_eq_some_iff.mp h
      split at h
      · cases h
        exact .inr rfl
      · obtain ⟨opened, -, h⟩ := Option.bind_eq_some_iff.mp h
        split at h
        · cases h
          exact .inr rfl
        · obtain ⟨store, -, h⟩ := Option.bind_eq_some_iff.mp h
          cases h
          exact .inr rfl

theorem rdChmod_fdtList {cur : Process} {pathname : List UInt8} {mode ret : ℤ}
    {s s' : State area} (h : rdChmod cur pathname mode s = some (ret, s')) :
    s'.fdtList = s.tables cur := by
  simp only [rdChmod] at h
  obtain ⟨target, -, h⟩ := Option.bind_eq_some_iff.mp h
  rcases target with _ | ⟨childfile, i⟩
  · cases h
    rfl
  · obtain ⟨ino, -, h⟩ := Option.bind_eq_some_iff.mp h
    cases h
    rfl

theorem table_of_fdtList {s s' : State area} {cur : Process}
    (h : s'.fdtList = s.fdtList ∨ s'.fdtList = s.tables cur) : s'.table cur = s.table cur := by
  rcases h with h | h
  · exact table_congr h cur
  · exact table_of_tables h

/-! ## The list of tables -/

/-- The list changes at most in the table of the caller, which may be new. -/
def OnlyOwnTable (s : State area) (cur : Process) (s' : State area) : Prop :=
  s'.fdtList = s.fdtList ∨ s'.fdtList = s.tables cur ∨
    ∃ fdt, fdt.pid = cur.pid ∧ s'.fdtList = ((getFDT cur s).2.setFDT fdt).fdtList

theorem OnlyOwnTable.of_setFDT {s s' : State area} {cur : Process} {fdt : FDT}
    (hlist : s'.fdtList = ((getFDT cur s).2.setFDT fdt).fdtList) (hpid : fdt.pid = cur.pid) :
    OnlyOwnTable s cur s' := .inr (.inr ⟨fdt, hpid, hlist⟩)

theorem OnlyOwnTable.of_kept {s s' : State area} {cur : Process}
    (h : s'.fdtList = s.fdtList ∨ s'.fdtList = s.tables cur) : OnlyOwnTable s cur s' :=
  h.imp_right .inl

theorem rdOpen_fdtList {cur : Process} {pathname : List UInt8} {flag ret : ℤ} {s s' : State area}
    (h : rdOpen cur pathname flag s = some (ret, s')) : OnlyOwnTable s cur s' := by
  simp only [rdOpen] at h
  split at h
  · cases h
  · obtain ⟨target, -, h⟩ := Option.bind_eq_some_iff.mp h
    rcases target with _ | ⟨name, i⟩
    · cases h
      exact .inr (.inl rfl)
    · obtain ⟨opened, -, h⟩ := Option.bind_eq_some_iff.mp h
      split at h
      · cases h
        exact .inr (.inl rfl)
      · obtain ⟨ino, -, h⟩ := Option.bind_eq_some_iff.mp h
        split at h
        · cases h
          exact .inr (.inl rfl)
        · obtain ⟨path, -, h⟩ := Option.bind_eq_some_iff.mp h
          split at h
          · cases h
            exact .of_setFDT rfl (getFDT_pid cur s)
          · cases h
            exact .of_setFDT rfl (getFDT_pid cur s)

theorem rdClose_fdtList {cur : Process} {fd ret : ℤ} {s s' : State area}
    (h : rdClose cur fd s = some (ret, s')) : OnlyOwnTable s cur s' := by
  simp only [rdClose] at h
  split at h
  · obtain ⟨head, -, h⟩ := Option.bind_eq_some_iff.mp h
    split at h
    · cases h
      exact .inr (.inl rfl)
    · obtain ⟨ino, -, h⟩ := Option.bind_eq_some_iff.mp h
      obtain ⟨path, -, h⟩ := Option.bind_eq_some_iff.mp h
      cases h
      exact .of_setFDT rfl (getFDT_pid cur s)
  · split at h
    · cases h
    · split at h
      · cases h
        exact .inr (.inl rfl)
      · split at h
        · cases h
        · cases h
          exact .of_setFDT rfl (getFDT_pid cur s)

theorem rdWrite_fdtList {cur : Process} {fd ret : ℤ} {input : List UInt8} {s s' : State area}
    (h : rdWrite cur fd input s = some (ret, s')) : OnlyOwnTable s cur s' := by
  simp only [rdWrite] at h
  split at h
  · cases h
    exact .inr (.inl rfl)
  · next fo hfo =>
    obtain ⟨⟨ret', position, store⟩, -, h⟩ := Option.bind_eq_some_iff.mp h
    cases h
    exact .of_setFDT rfl (show ((s.table cur).setPosition fd fo position).pid = _ from
      getFDT_pid cur s)

theorem rdLseek_fdtList {cur : Process} {fd ret position : ℤ} {s s' : State area}
    (h : rdLseek cur fd position s = some (ret, s')) : OnlyOwnTable s cur s' := by
  simp only [rdLseek] at h
  split at h
  · cases h
    exact .inr (.inl rfl)
  · obtain ⟨ino, -, h⟩ := Option.bind_eq_some_iff.mp h
    cases h
    exact .of_setFDT rfl (getFDT_pid cur s)

theorem ramdiskIoctl_fdtList {s : State area} {e : Event} {r : Reply × State area}
    (h : ramdiskIoctl s e = some r) : OnlyOwnTable s e.cur r.2 := by
  obtain ⟨cur, call⟩ := e
  cases call with
  | pwd =>
      simp only [ramdiskIoctl] at h
      split at h <;> cases h
      exact .inr (.inl rfl)
  | creat pathname mode fresh =>
      obtain ⟨r', hr, rfl⟩ := Option.map_eq_some_iff.mp h
      exact .of_kept (create_fdtList hr)
  | mkdir pathname fresh =>
      obtain ⟨r', hr, rfl⟩ := Option.map_eq_some_iff.mp h
      exact .of_kept (create_fdtList hr)
  | openPath pathname flag =>
      obtain ⟨r', hr, rfl⟩ := Option.map_eq_some_iff.mp h
      exact rdOpen_fdtList hr
  | close fd =>
      obtain ⟨r', hr, rfl⟩ := Option.map_eq_some_iff.mp h
      exact rdClose_fdtList hr
  | read fd numBytes =>
      obtain ⟨r', hr, rfl⟩ := Option.map_eq_some_iff.mp h
      exact .inr (.inl (rdRead_fdtList hr))
  | write fd input =>
      obtain ⟨r', hr, rfl⟩ := Option.map_eq_some_iff.mp h
      exact rdWrite_fdtList hr
  | lseek fd position =>
      obtain ⟨r', hr, rfl⟩ := Option.map_eq_some_iff.mp h
      exact rdLseek_fdtList hr
  | unlink pathname =>
      obtain ⟨r', hr, rfl⟩ := Option.map_eq_some_iff.mp h
      exact .of_kept (rdUnlink_fdtList hr)
  | chmod pathname mode =>
      obtain ⟨r', hr, rfl⟩ := Option.map_eq_some_iff.mp h
      exact .inr (.inl (rdChmod_fdtList hr))

/-- A table of the new list was in the old one, is the table that `get_FDT`
gives to the caller, or is the caller's new table. -/
theorem OnlyOwnTable.mem {s s' : State area} {cur : Process} {fdt : FDT}
    (h : OnlyOwnTable s cur s') (hmem : fdt ∈ s'.fdtList) :
    fdt ∈ s.fdtList ∨ fdt = s.table cur ∨ fdt = s'.table cur := by
  rcases h with heq | heq | ⟨own, hpid, heq⟩
  · rw [heq] at hmem
    exact .inl hmem
  · rw [heq] at hmem
    exact (mem_tables_cases hmem).imp_right .inl
  · have hown : s'.table cur = own := (table_congr heq cur).trans (table_setFDT hpid)
    rw [heq] at hmem
    rcases List.mem_or_eq_of_mem_set hmem with hold | rfl
    · exact (mem_tables_cases hold).imp_right .inl
    · exact .inr (.inr hown.symm)

end OperatingSystem.Filesys
