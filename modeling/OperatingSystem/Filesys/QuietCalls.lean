import OperatingSystem.Lib.Interleaving
import OperatingSystem.Filesys.InvalidDescriptors

/-!
# Calls that only touch the caller's table

`rd_pwd`, `rd_read`, `rd_lseek` and `rd_close` read the RAM disk and change no table but the
caller's. Once the processes have their tables, it does not matter how such calls of different
processes are interleaved.
-/

namespace OperatingSystem.Filesys

open Interleaving

variable {area : Area} {s : State area} {fdt fdt' : FDT} {cur : Process}

def Call.Quiet : Call → Prop
  | .pwd | .close _ | .read _ _ | .lseek _ _ => True
  | _ => False

/-! ## Two tables -/

theorem findIdx_set {α : Type*} {p q : α → Bool} {xs : List α} {x : α}
    (hpq : ∀ y, p y = true → q y = false) (hx : q x = false) :
    (xs.set (xs.findIdx p) x).findIdx q = xs.findIdx q := by
  induction xs with
  | nil => rfl
  | cons y ys ih =>
      by_cases hy : p y = true
      · rw [List.findIdx_cons, hy, cond_true, List.set_cons_zero, List.findIdx_cons, hx,
          List.findIdx_cons, hpq y hy]
      · rw [Bool.not_eq_true] at hy
        rw [List.findIdx_cons, hy, cond_false, List.set_cons_succ, List.findIdx_cons, ih,
          ← List.findIdx_cons]

theorem find?_set {α : Type*} {p q : α → Bool} {xs : List α} {x : α}
    (hpq : ∀ y, p y = true → q y = false) (hx : q x = false) :
    (xs.set (xs.findIdx p) x).find? q = xs.find? q := by
  induction xs with
  | nil => rfl
  | cons y ys ih =>
      by_cases hy : p y = true
      · rw [List.findIdx_cons, hy, cond_true, List.set_cons_zero,
          List.find?_cons_of_neg (by simp [hx]),
          List.find?_cons_of_neg (by simp [hpq y hy])]
      · rw [Bool.not_eq_true] at hy
        rw [List.findIdx_cons, hy, cond_false, List.set_cons_succ, List.find?_cons, List.find?_cons,
          ih]

theorem pid_apart {i j : ℤ} (hne : i ≠ j) (t : FDT) (h : decide (t.pid = i) = true) :
    decide (t.pid = j) = false :=
  decide_eq_false fun hj ↦ hne ((of_decide_eq_true h).symm.trans hj)

/-- Tables of different processes may be stored in either order. -/
theorem setFDT_comm (hne : fdt.pid ≠ fdt'.pid) :
    (s.setFDT fdt).setFDT fdt' = (s.setFDT fdt').setFDT fdt := by
  have hfdt := @findIdx_set _ _ _ s.fdtList _ (pid_apart hne) (decide_eq_false hne)
  have hfdt' := @findIdx_set _ _ _ s.fdtList _ (pid_apart hne.symm) (decide_eq_false hne.symm)
  rw [State.setFDT, State.setFDT, State.setFDT, State.setFDT, hfdt, hfdt']
  refine congrArg (State.mk s.store) ?_
  by_cases hlt : s.fdtList.findIdx (fun t ↦ t.pid = fdt.pid) < s.fdtList.length
  · refine List.set_comm _ _ fun heq ↦ ?_
    have hfound := List.findIdx_getElem (w := hlt)
    have hfound' := List.findIdx_getElem (w := heq ▸ hlt)
    simp only [← heq] at hfound'
    exact hne ((of_decide_eq_true hfound).symm.trans (of_decide_eq_true hfound'))
  · rw [List.set_eq_of_length_le (not_lt.mp hlt)]
    exact (List.set_eq_of_length_le (List.length_set.trans_le (not_lt.mp hlt))).symm

theorem find?_setFDT_ne {pid : ℤ} (hne : fdt.pid ≠ pid) :
    (s.setFDT fdt).fdtList.find? (fun t ↦ t.pid = pid) =
      s.fdtList.find? fun t ↦ t.pid = pid :=
  find?_set (pid_apart hne) (decide_eq_false hne)

/-! ## One call -/

/-- What a call answers and makes of the caller's table, in a state with no other table. -/
def alone (st : Store area) (e : Event) (fdt : FDT) : Option (Reply × FDT) :=
  (ramdiskIoctl ⟨st, [fdt]⟩ e).map fun r ↦ (r.1, r.2.table e.cur)

theorem alone_pid {st : Store area} {e : Event} {r : Reply × FDT} (h : alone st e fdt = some r) :
    r.2.pid = e.cur.pid := by
  obtain ⟨t, -, rfl⟩ := Option.map_eq_some_iff.mp h
  exact getFDT_pid e.cur t.2

/-- Beside other tables the call does the same. -/
theorem Call.Quiet.ramdiskIoctl_eq {call : Call} (h : call.Quiet)
    (hfdt : s.fdtList.find? (fun t ↦ t.pid = cur.pid) = some fdt) :
    ramdiskIoctl s ⟨cur, call⟩ =
      (alone s.store ⟨cur, call⟩ fdt).map fun r ↦ (r.1, s.setFDT r.2) := by
  have hget := getFDT_of_find? hfdt
  have hfound := List.find?_some hfdt
  have hpid : fdt.pid = cur.pid := of_decide_eq_true hfound
  have hone : getFDT cur (⟨s.store, [fdt]⟩ : State area) = (fdt, ⟨s.store, [fdt]⟩) :=
    getFDT_of_find? (by simp [hpid])
  have hsame : s.setFDT fdt = s := by
    have hself := setFDT_table s cur
    rwa [State.table, hget] at hself
  have htable : State.table (⟨s.store, [fdt]⟩ : State area) cur = fdt := congrArg Prod.fst hone
  have hset : ∀ new : FDT, new.pid = cur.pid →
      ((⟨s.store, [fdt]⟩ : State area).setFDT new).table cur = new := fun new hnew ↦ by
    have hstored := table_setFDT (s := (⟨s.store, [fdt]⟩ : State area)) hnew
    rwa [hone] at hstored
  cases call with
  | pwd =>
      simp only [ramdiskIoctl, alone, rdPwd, hget, hone]
      split
      · simp [htable, hsame]
      · rfl
  | close fd =>
      simp only [ramdiskIoctl, alone, rdClose, hget, hone, Option.bind_eq_bind]
      by_cases hfd : fd = 0
      · rw [if_pos hfd, if_pos hfd]
        cases fdt.fileObjects.head? with
        | none => rfl
        | some head =>
            rw [Option.bind_some, Option.bind_some]
            split
            · simp [replyOnly, htable, hsame]
            · cases s.store.inodeAt head.inodeIndex with
              | none => rfl
              | some ino =>
                  cases cutPath fdt.curPath with
                  | none => rfl
                  | some path => simp [replyOnly, hset, hpid]
      · rw [if_neg hfd, if_neg hfd]
        split
        · rfl
        · split
          · simp [replyOnly, htable, hsame]
          · split
            · rfl
            · simp [replyOnly, hset, hpid]
  | read fd numBytes =>
      simp only [ramdiskIoctl, alone, rdRead, hget, hone, Option.bind_eq_bind]
      cases fdt.fileObject fd with
      | none => simp [htable, hsame]
      | some fo =>
          dsimp only
          cases s.store.inodeAt fo.inodeIndex with
          | none => rfl
          | some ino =>
              simp only [Option.bind_some]
              cases readFile s.store ino fo.position numBytes with
              | none => rfl
              | some r => simp [htable, hsame]
  | lseek fd position =>
      simp only [ramdiskIoctl, alone, rdLseek, hget, hone, Option.bind_eq_bind]
      cases fdt.fileObject fd with
      | none => simp [replyOnly, htable, hsame]
      | some fo =>
          dsimp only
          cases s.store.inodeAt fo.inodeIndex with
          | none => rfl
          | some ino => simp [replyOnly, hset, FDT.setPosition, hpid]
  | _ => exact h.elim

/-! ## Runs -/

/-- The processes that have a table. -/
def State.HasTable (s : State area) (cur : Process) : Prop :=
  ∃ fdt, s.fdtList.find? (fun t ↦ t.pid = cur.pid) = some fdt

theorem State.HasTable.setFDT (h : s.HasTable cur) (fdt : FDT) : (s.setFDT fdt).HasTable cur := by
  obtain ⟨old, hold⟩ := h
  by_cases hpid : fdt.pid = cur.pid
  · exact ⟨fdt, find?_setFDT hold hpid⟩
  · exact ⟨old, (find?_setFDT_ne hpid).trans hold⟩

theorem quiet_hasTable {e : Event} {r : Reply × State area} (hquiet : e.call.Quiet)
    (he : s.HasTable e.cur) (h : ramdiskIoctl s e = some r) (hcur : s.HasTable cur) :
    r.2.HasTable cur := by
  obtain ⟨fdt, hfdt⟩ := he
  rw [hquiet.ramdiskIoctl_eq hfdt] at h
  obtain ⟨t, -, rfl⟩ := Option.map_eq_some_iff.mp h
  exact hcur.setFDT t.2

/-- Quiet calls of different processes commute. -/
theorem quiet_commute {e e' : Event} (hquiet : e.call.Quiet) (hquiet' : e'.call.Quiet)
    (he : s.HasTable e.cur) (he' : s.HasTable e'.cur) (hne : e.cur.pid ≠ e'.cur.pid) :
    Commutes ramdiskIoctl s e e' := by
  obtain ⟨fdt, hfdt⟩ := he
  obtain ⟨fdt', hfdt'⟩ := he'
  have hnext : ∀ r, alone s.store e fdt = some r → ramdiskIoctl (s.setFDT r.2) e' =
      (alone s.store e' fdt').map fun t ↦ (t.1, (s.setFDT r.2).setFDT t.2) := fun r hr ↦
    hquiet'.ramdiskIoctl_eq ((find?_setFDT_ne ((alone_pid hr).trans_ne hne)).trans hfdt')
  have hnext' : ∀ r, alone s.store e' fdt' = some r → ramdiskIoctl (s.setFDT r.2) e =
      (alone s.store e fdt).map fun t ↦ (t.1, (s.setFDT r.2).setFDT t.2) := fun r hr ↦
    hquiet.ramdiskIoctl_eq ((find?_setFDT_ne ((alone_pid hr).trans_ne hne.symm)).trans hfdt)
  rw [Commutes, hquiet.ramdiskIoctl_eq hfdt, hquiet'.ramdiskIoctl_eq hfdt']
  cases hx : alone s.store e fdt with
  | none =>
      cases hy : alone s.store e' fdt' with
      | none => rfl
      | some r => simp [hnext' r hy, hx]
  | some r =>
      cases hy : alone s.store e' fdt' with
      | none => simp [hnext r hx, hy]
      | some r' =>
          have hpids : r.2.pid ≠ r'.2.pid := by
            rw [alone_pid hx, alone_pid hy]
            exact hne
          simp [hnext r hx, hnext' r' hy, hx, hy, setFDT_comm hpids]

/-- Runs of quiet calls of processes that have their tables: what each process is answered and
the state at the end depend only on the calls of each process in their order. -/
theorem quiet_interleaving {s : State area} {events events' : List Event}
    (hquiet : ∀ e ∈ events, e.call.Quiet ∧ s.HasTable e.cur)
    (hquiet' : ∀ e ∈ events', e.call.Quiet ∧ s.HasTable e.cur)
    (h : ∀ pid, project (·.cur.pid) pid events = project (·.cur.pid) pid events') :
    outcome (·.cur.pid) ramdiskIoctl s events = outcome (·.cur.pid) ramdiskIoctl s events' := by
  refine outcome_eq_of_project (I := fun t : State area ↦ ∀ cur, s.HasTable cur → t.HasTable cur)
    (C := fun e : Event ↦ e.call.Quiet ∧ s.HasTable e.cur) ?_ ?_ hquiet hquiet' h fun _ ht ↦ ht
  · intro t e e' ht he he' hne
    exact quiet_commute he.1 he'.1 (ht _ he.2) (ht _ he'.2) hne
  · intro t e r ht he hr cur hcur
    exact quiet_hasTable he.1 (ht _ he.2) hr (ht cur hcur)

/-- A process writes to a file that it opens, and its child opens another one. -/
def sharedCalls : List Event :=
  [⟨⟨1, 0⟩, .creat sampleName 2 fun _ ↦ 0⟩, ⟨⟨1, 0⟩, .creat secondName 2 fun _ ↦ 0⟩,
    ⟨⟨1, 0⟩, .openPath sampleName 2⟩, ⟨⟨1, 0⟩, .write 1 [104, 105]⟩,
    ⟨⟨2, 1⟩, .openPath secondName 2⟩]

def quietCalls : List Event :=
  [⟨⟨1, 0⟩, .lseek 1 0⟩, ⟨⟨2, 1⟩, .lseek 1 1⟩, ⟨⟨1, 0⟩, .read 1 2⟩, ⟨⟨2, 1⟩, .read 1 1⟩,
    ⟨⟨1, 0⟩, .close 1⟩, ⟨⟨2, 1⟩, .close 2⟩]

def quietCallsApart : List Event :=
  [⟨⟨2, 1⟩, .lseek 1 1⟩, ⟨⟨2, 1⟩, .read 1 1⟩, ⟨⟨2, 1⟩, .close 2⟩, ⟨⟨1, 0⟩, .lseek 1 0⟩,
    ⟨⟨1, 0⟩, .read 1 2⟩, ⟨⟨1, 0⟩, .close 1⟩]

/-- The child has a position of its own in the file that its parent had opened. -/
theorem quiet_interleaving_open : ∃ s,
    PartialRun.run step (initState sampleArea) sharedCalls = some s ∧
      (outcome (·.cur.pid) ramdiskIoctl s quietCalls).map (fun r ↦ (r.1 1, r.1 2)) =
        some ([⟨0, []⟩, ⟨2, [104, 105]⟩, ⟨0, []⟩], [⟨0, []⟩, ⟨1, [105]⟩, ⟨0, []⟩]) ∧
      outcome (·.cur.pid) ramdiskIoctl s quietCalls =
        outcome (·.cur.pid) ramdiskIoctl s quietCallsApart := by
  have hopened : (PartialRun.run step (initState sampleArea) sharedCalls).map (fun s ↦
      ((s.fdtList.find? fun t ↦ t.pid = 1).isSome, (s.fdtList.find? fun t ↦ t.pid = 2).isSome,
        (outcome (·.cur.pid) ramdiskIoctl s quietCalls).map fun r ↦ (r.1 1, r.1 2))) =
      some (true, true,
        some ([⟨0, []⟩, ⟨2, [104, 105]⟩, ⟨0, []⟩], [⟨0, []⟩, ⟨1, [105]⟩, ⟨0, []⟩])) := by
    decide +kernel
  obtain ⟨s, hrun, hs⟩ := Option.map_eq_some_iff.mp hopened
  have hparent : s.HasTable ⟨1, 0⟩ := Option.isSome_iff_exists.mp (congrArg Prod.fst hs)
  have hchild : s.HasTable ⟨2, 1⟩ := Option.isSome_iff_exists.mp (congrArg (·.2.1) hs)
  refine ⟨s, hrun, congrArg (·.2.2) hs, quiet_interleaving ?_ ?_ fun pid ↦ ?_⟩
  · simp [quietCalls, Call.Quiet, hparent, hchild]
  · simp [quietCallsApart, Call.Quiet, hparent, hchild]
  · by_cases hone : pid = 1
    · subst hone
      rfl
    · by_cases htwo : pid = 2
      · subst htwo
        rfl
      · rw [project_eq_nil, project_eq_nil] <;>
          simp [quietCalls, quietCallsApart, Ne.symm hone, Ne.symm htwo]

end OperatingSystem.Filesys
