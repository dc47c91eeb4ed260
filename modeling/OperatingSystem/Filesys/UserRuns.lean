import OperatingSystem.Filesys.UserInterface

/-!
# Runs of user programs

Whatever the programs call, the module runs a sequence of its own operations, with names
that `check_pathname` accepts and with the three permissions and flags that it knows.
-/

namespace OperatingSystem.Filesys.UserInterface

open ByteMemory

variable {area : Area} {fuel : ℕ} {cur : Process} {opened ret : ℤ} {s s' : UserSystem area}

/-- The calls that the functions let through. -/
def Admitted : Call → Prop
  | .pwd => False
  | .creat pathname mode _ | .chmod pathname mode | .openPath pathname mode =>
      BeginsName pathname.chars ∧ (mode = 0 ∨ mode = 1 ∨ mode = 2)
  | .mkdir pathname _ | .unlink pathname => BeginsName pathname.chars
  | .close _ | .read .. | .write .. | .lseek .. => True

/-- The descriptor of `/proc/Ramdisk` that a process holds. -/
def UserSystem.device (s : UserSystem area) (cur : Process) : ℤ := (s.users cur.pid).openedRandisk

/-- Nothing, or one operation of the module. -/
inductive Told (cur : Process) (s s' : UserSystem area) : Prop
  | nothing (kernel : s'.kernel = s.kernel) (sent : s'.sent = s.sent)
  | call (call : Call) (reply : Reply) (admitted : Admitted call)
      (device : s'.device cur ≠ ERROR)
      (kernel : ramdiskIoctl s.kernel ⟨cur, call⟩ = some (reply, s'.kernel))
      (sent : s'.sent = s.sent ++ [⟨cur, call⟩])

/-- A call concerns its own process and tells the module at most one thing. -/
structure Tells (cur : Process) (s s' : UserSystem area) : Prop where
  told : Told cur s s'
  others : ∀ pid ≠ cur.pid, s'.users pid = s.users pid

/-! ## Names -/

section Names

variable {m m' : ℕ → UInt8} {p q dst src n : ℕ}

/-- The last loop of the check leaves the first character and replaces nothing but blanks. -/
theorem cutBlanks_cases (n : ℕ) (m : ℕ → UInt8) (q : ℕ) :
    cutBlanks p n m q = m q ∨ p < q ∧ m q = 32 := by
  induction n generalizing m with
  | zero => exact .inl rfl
  | succ n ih =>
      rw [cutBlanks]
      by_cases hblank : m (p + (n + 1)) = 32
      · have hbyte : Function.update m (p + (n + 1)) 0 q = m q ∨ p < q ∧ m q = 32 := by
          by_cases hq : q = p + (n + 1)
          · exact .inr ⟨by omega, hq ▸ hblank⟩
          · exact .inl (Function.update_of_ne hq _ _)
        have hnul : ¬ IsNameChar (Function.update m (p + (n + 1)) 0 (p + (n + 1))) := by
          rw [Function.update_self]
          decide
        rw [if_pos hblank, if_neg hnul]
        rcases ih (Function.update m (p + (n + 1)) 0) with hsame | ⟨hlt, hold⟩
        · rwa [hsame]
        · rcases hbyte with hbyte | hbyte
          · exact .inr ⟨hlt, hbyte ▸ hold⟩
          · exact .inr hbyte
      · rw [if_neg hblank]
        split
        · exact .inl rfl
        · exact ih m

/-- The first three bytes of a copy, as far as the string goes. -/
theorem strcpy_front (h : strcpy fuel m dst src = some m') :
    m' dst = m src ∧ (m src ≠ 0 → m' (dst + 1) = m (src + 1)) ∧
      (m src ≠ 0 → m (src + 1) ≠ 0 → m' (dst + 2) = m (src + 2)) := by
  obtain ⟨n, hstring, hcopied⟩ := strcpy_eq_some h
  have hnul := hstring.nul
  rw [length_readBytes] at hnul
  have hlong : ∀ k, (∀ l < k, m (src + l) ≠ 0) → k ≤ n := by
    intro k hne
    by_contra hlt
    exact hne n (by omega) hnul
  refine ⟨hcopied 0 (Nat.zero_le n), fun hne ↦ hcopied 1 (hlong 1 ?_), fun hne hne' ↦
    hcopied 2 (hlong 2 ?_)⟩
  · intro l hl
    obtain rfl : l = 0 := by omega
    exact hne
  · intro l hl
    obtain rfl | rfl : l = 0 ∨ l = 1 := by omega
    · exact hne
    · exact hne'

theorem skipBlanks_le (h : skipBlanks m fuel p = some q) : p ≤ q := by
  induction fuel generalizing p with
  | zero => cases h
  | succ fuel ih =>
      rw [skipBlanks] at h
      split at h
      · exact (Nat.le_succ p).trans (ih h)
      · cases h
        exact le_rfl

/-- A check that succeeds: where the name began, the memory in which it was moved to the
front, and the length that the last loop starts from. -/
theorem checkPathname_success (h : checkPathname fuel m p = some (ret, m')) (hret : ret ≠ ERROR) :
    ∃ q m₁ n, m q ≠ 0 ∧ IsNameChar (m q) ∧
      ¬ (m q = 46 ∧ ((m (q + 1) ≠ 46 ∧ m (q + 1) ≠ 47) ∨ (m (q + 1) = 46 ∧ m (q + 2) ≠ 47))) ∧
      (q = p ∧ m₁ = m ∨ p < q ∧ strcpy fuel m p q = some m₁) ∧ m' = cutBlanks p n m₁ := by
  obtain ⟨q, hskip, h⟩ := Option.bind_eq_some_iff.mp h
  split at h
  · cases h
    exact (hret rfl).elim
  · next hend =>
    split at h
    · cases h
      exact (hret rfl).elim
    · next hchar =>
      split at h
      · cases h
        exact (hret rfl).elim
      · next hdots =>
        dsimp only at h
        split at h
        · next hmoved =>
          obtain ⟨m₁, hcopy, h⟩ := Option.bind_eq_some_iff.mp h
          obtain ⟨n, -, h⟩ := Option.bind_eq_some_iff.mp h
          cases h
          have hlt := (skipBlanks_le hskip).lt_of_ne hmoved.symm
          exact ⟨q, m₁, n, hend, not_not.mp hchar, hdots, .inr ⟨hlt, hcopy⟩, rfl⟩
        · next hsame =>
          obtain ⟨m₁, hm₁, h⟩ := Option.bind_eq_some_iff.mp h
          obtain ⟨n, -, h⟩ := Option.bind_eq_some_iff.mp h
          cases hm₁
          cases h
          exact ⟨q, m, n, hend, not_not.mp hchar, hdots, .inl ⟨not_not.mp hsame, rfl⟩, rfl⟩

theorem beginsName_of_checked {t : List UInt8} (h : checkPathname fuel m p = some (ret, m'))
    (hret : ret ≠ ERROR) (ht : StringAt m' p t) : BeginsName t := by
  obtain ⟨q, m₁, n, hend, hchar, hdots, hmoved, rfl⟩ := checkPathname_success h hret
  have hfront : m₁ p = m q ∧ (m q ≠ 0 → m₁ (p + 1) = m (q + 1)) ∧
      (m q ≠ 0 → m (q + 1) ≠ 0 → m₁ (p + 2) = m (q + 2)) := by
    rcases hmoved with ⟨rfl, rfl⟩ | ⟨hlt, hcopy⟩
    · exact ⟨rfl, fun _ ↦ rfl, fun _ _ ↦ rfl⟩
    · exact strcpy_front hcopy
  have hbyte : ∀ {k : ℕ} {c : UInt8}, m₁ (p + k) = c → c ≠ 32 →
      cutBlanks p n m₁ (p + k) = c := fun {k c} hc hblank ↦ by
    rcases cutBlanks_cases n m₁ (p + k) with hsame | ⟨-, hold⟩
    · exact hsame.trans hc
    · exact (hblank (hc.symm.trans hold)).elim
  have hfirst : cutBlanks p n m₁ p = m q :=
    (cutBlanks_cases n m₁ p).elim (fun hsame ↦ hsame.trans hfront.1)
      fun hlt ↦ (Nat.lt_irrefl p hlt.1).elim
  refine (beginsName_iff ht).mpr ⟨hfirst ▸ hend, hfirst ▸ hchar, ?_⟩
  rw [hfirst]
  rintro ⟨hdot, hrest⟩
  have hsecond : m (q + 1) = 46 ∨ m (q + 1) = 47 := by
    by_contra hother
    exact hdots ⟨hdot, .inl (not_or.mp hother)⟩
  rcases hsecond with hdot' | hslash
  · have hthird : m (q + 2) = 47 := by
      by_contra hother
      exact hdots ⟨hdot, .inr ⟨hdot', hother⟩⟩
    have hne : m (q + 1) ≠ 0 := by
      rw [hdot']
      decide
    have h₁ := hbyte (hfront.2.1 hend) (by rw [hdot']; decide)
    have h₂ := hbyte (hfront.2.2 hend hne) (by rw [hthird]; decide)
    rw [h₁, h₂, hdot', hthird] at hrest
    simp at hrest
  · have h₁ := hbyte (hfront.2.1 hend) (by rw [hslash]; decide)
    rw [h₁, hslash] at hrest
    simp at hrest

theorem cstringAt_eq_some {name : CString} (h : cstringAt fuel m p = some name) :
    StringAt m p name.chars := by
  obtain ⟨n, hn, h⟩ := Option.bind_eq_some_iff.mp h
  split at h
  · cases h
    exact stringAt_of_strlen hn
  · cases h

end Names

/-! ## One call -/

theorem setUser_others (s : UserSystem area) (u : UserProcess) :
    ∀ pid ≠ cur.pid, (s.setUser cur u).users pid = s.users pid := fun _ hpid ↦
  Function.update_of_ne hpid _ _

theorem Tells.of_setUser {u : UserProcess} (h : Tells cur (s.setUser cur u) s') :
    Tells cur s s' := by
  refine ⟨?_, fun pid hpid ↦ (h.others pid hpid).trans (setUser_others s u pid hpid)⟩
  cases h.told with
  | nothing kernel sent => exact .nothing kernel sent
  | call call reply admitted device kernel sent =>
      exact .call call reply admitted device kernel sent

theorem Tells.setMem {mem : ℕ → UInt8} (h : Tells cur s s') :
    Tells cur s (s'.setMem cur mem) := by
  refine ⟨?_, fun pid hpid ↦ (setUser_others s' _ pid hpid).trans (h.others pid hpid)⟩
  cases h.told with
  | nothing kernel sent => exact .nothing kernel sent
  | call call reply admitted device kernel sent =>
      refine .call call reply admitted ?_ kernel sent
      rw [UserSystem.device, UserSystem.setMem, setUser_users]
      exact device

theorem tells_setUser (cur : Process) (s : UserSystem area) (u : UserProcess) :
    Tells cur s (s.setUser cur u) :=
  ⟨.nothing rfl rfl, setUser_others s u⟩

theorem ioctl_tells {call : Call} {touch : Touch area}
    (h : ioctl cur call touch s = some (ret, s')) (hadmitted : Admitted call) : Tells cur s s' := by
  rw [ioctl] at h
  split at h
  · cases h
    exact ⟨.nothing rfl rfl, fun _ _ ↦ rfl⟩
  · next hdevice =>
    obtain ⟨mem, -, h⟩ := Option.bind_eq_some_iff.mp h
    obtain ⟨⟨reply, kernel⟩, hkernel, h⟩ := Option.bind_eq_some_iff.mp h
    cases h
    refine ⟨.call call reply hadmitted ?_ hkernel rfl, setUser_others s _⟩
    exact (congrArg UserProcess.openedRandisk (setUser_users s cur _)).trans_ne hdevice

theorem withRamdisk_tells {next : UserSystem area → Option (ℤ × UserSystem area)}
    (hnext : ∀ t, next t = some (ret, s') → Tells cur t s')
    (h : withRamdisk cur opened s next = some (ret, s')) : Tells cur s s' := by
  rw [withRamdisk] at h
  dsimp only at h
  split at h
  · cases h
    exact tells_setUser cur s _
  · exact (hnext _ h).of_setUser

theorem withPathname_tells {pathname : ℕ}
    {next : CString → UserSystem area → Option (ℤ × UserSystem area)}
    (hnext : ∀ name t, BeginsName name.chars → next name t = some (ret, s') → Tells cur t s')
    (h : withPathname fuel cur pathname s next = some (ret, s')) : Tells cur s s' := by
  obtain ⟨⟨r, mem⟩, hcheck, h⟩ := Option.bind_eq_some_iff.mp h
  dsimp only at h
  split at h
  · cases h
    exact tells_setUser cur s _
  · next hr =>
    obtain ⟨name, hname, h⟩ := Option.bind_eq_some_iff.mp h
    have hbegins := beginsName_of_checked hcheck hr (cstringAt_eq_some hname)
    exact (hnext name _ hbegins h).of_setUser

theorem modeToPermission_mem (mode : ℤ) :
    modeToPermission mode = 0 ∨ modeToPermission mode = 1 ∨ modeToPermission mode = 2 := by
  rw [modeToPermission]
  split
  · exact .inl rfl
  · split
    · exact .inr (.inl rfl)
    · exact .inr (.inr rfl)

theorem openFlag_mem (flag : ℤ) : openFlag flag = 0 ∨ openFlag flag = 1 ∨ openFlag flag = 2 := by
  rw [openFlag]
  split
  · exact .inr (.inl rfl)
  · split
    · exact .inl rfl
    · exact .inr (.inr rfl)

/-- Every function tells the module at most one thing. -/
theorem userCall_tells {e : UserEvent} (h : userCall fuel s e = some (ret, s')) :
    Tells e.cur s s' := by
  obtain ⟨cur, opened, call⟩ := e
  cases call with
  | creat pathname mode fresh =>
      refine withRamdisk_tells (fun t ↦ withPathname_tells fun name u hname hcall ↦ ?_) h
      exact ioctl_tells hcall ⟨hname, modeToPermission_mem mode⟩
  | mkdir pathname fresh =>
      refine withRamdisk_tells (fun t ↦ withPathname_tells fun name u hname hcall ↦ ?_) h
      obtain ⟨r, hr, hret⟩ := Option.map_eq_some_iff.mp hcall
      cases hret
      exact ioctl_tells hr hname
  | unlink pathname =>
      refine withRamdisk_tells (fun t ↦ withPathname_tells fun name u hname hcall ↦ ?_) h
      obtain ⟨r, hr, hret⟩ := Option.map_eq_some_iff.mp hcall
      cases hret
      exact ioctl_tells hr hname
  | openPath pathname flag =>
      refine withPathname_tells (fun name t hname hcall ↦ ?_) h
      exact ioctl_tells hcall ⟨hname, openFlag_mem flag⟩
  | write fid content size =>
      refine withRamdisk_tells (fun t hcall ↦ ?_) h
      exact ioctl_tells hcall trivial
  | lseek fid position => exact ioctl_tells h trivial
  | read fid addr size =>
      have hread : rdRead cur opened s fid addr size = some (ret, s') := h
      refine withRamdisk_tells (fun t hcall ↦ ?_) hread
      obtain ⟨r, hr, hret⟩ := Option.map_eq_some_iff.mp hcall
      cases hret
      exact (ioctl_tells hr trivial).setMem
  | close fid =>
      refine withRamdisk_tells (fun t hcall ↦ ?_) h
      exact ioctl_tells hcall trivial
  | chmod pathname mode =>
      refine withRamdisk_tells (fun t ↦ withPathname_tells fun name u hname hcall ↦ ?_) h
      exact ioctl_tells hcall ⟨hname, modeToPermission_mem mode⟩

/-! ## The device -/

/-- The functions that call `openProcRandisk`. -/
def UserCall.Opens : UserCall → Prop
  | .openPath .. | .lseek .. => False
  | _ => True

theorem setMem_device (s : UserSystem area) (mem : ℕ → UInt8) :
    (s.setMem cur mem).device cur = s.device cur := by
  rw [UserSystem.device, setMem_users]
  rfl

theorem ioctl_device {call : Call} {touch : Touch area}
    (h : ioctl cur call touch s = some (ret, s')) : s'.device cur = s.device cur := by
  rw [ioctl] at h
  split at h
  · cases h
    rfl
  · obtain ⟨mem, -, h⟩ := Option.bind_eq_some_iff.mp h
    obtain ⟨⟨reply, kernel⟩, -, h⟩ := Option.bind_eq_some_iff.mp h
    cases h
    exact setMem_device s mem

theorem withPathname_device {pathname : ℕ}
    {next : CString → UserSystem area → Option (ℤ × UserSystem area)}
    (hnext : ∀ name t, next name t = some (ret, s') → s'.device cur = t.device cur)
    (h : withPathname fuel cur pathname s next = some (ret, s')) :
    s'.device cur = s.device cur := by
  obtain ⟨⟨r, mem⟩, -, h⟩ := Option.bind_eq_some_iff.mp h
  dsimp only at h
  split at h
  · cases h
    exact setMem_device s mem
  · obtain ⟨name, -, h⟩ := Option.bind_eq_some_iff.mp h
    exact (hnext name _ h).trans (setMem_device s mem)

/-- The descriptor is what it was, or the one of a successful `open`. -/
theorem withRamdisk_device {next : UserSystem area → Option (ℤ × UserSystem area)}
    (hnext : ∀ t, next t = some (ret, s') → s'.device cur = t.device cur)
    (h : withRamdisk cur opened s next = some (ret, s')) (hdevice : s'.device cur ≠ ERROR) :
    s.device cur ≠ ERROR ∨ opened ≠ ERROR := by
  have hopen : (openProcRandisk opened (s.user cur)).2.openedRandisk ≠ ERROR →
      s.device cur ≠ ERROR ∨ opened ≠ ERROR := by
    rw [openProcRandisk]
    split
    · next hopen => exact fun _ ↦ .inl hopen
    · exact .inr
  have hset := congrArg UserProcess.openedRandisk
    (setUser_users s cur (openProcRandisk opened (s.user cur)).2)
  rw [withRamdisk] at h
  dsimp only at h
  split at h
  · cases h
    exact hopen (hset ▸ hdevice)
  · exact hopen (hset ▸ (hnext _ h).symm.trans_ne hdevice)

theorem userCall_device {e : UserEvent} (h : userCall fuel s e = some (ret, s'))
    (hdevice : s'.device e.cur ≠ ERROR) :
    s.device e.cur ≠ ERROR ∨ (e.call.Opens ∧ e.opened ≠ ERROR) := by
  obtain ⟨cur, opened, call⟩ := e
  cases call with
  | creat pathname mode fresh =>
      refine (withRamdisk_device (fun t ↦ withPathname_device fun name u ↦ ?_) h hdevice).imp_right
        (.intro trivial)
      exact ioctl_device
  | mkdir pathname fresh =>
      refine (withRamdisk_device (fun t ↦ withPathname_device fun name u hcall ↦ ?_) h
        hdevice).imp_right (.intro trivial)
      obtain ⟨r, hr, hret⟩ := Option.map_eq_some_iff.mp hcall
      cases hret
      exact ioctl_device hr
  | unlink pathname =>
      refine (withRamdisk_device (fun t ↦ withPathname_device fun name u hcall ↦ ?_) h
        hdevice).imp_right (.intro trivial)
      obtain ⟨r, hr, hret⟩ := Option.map_eq_some_iff.mp hcall
      cases hret
      exact ioctl_device hr
  | openPath pathname flag =>
      have hsame := withPathname_device (fun name t hcall ↦ ioctl_device hcall) h
      exact .inl (hsame ▸ hdevice)
  | write fid content size =>
      refine (withRamdisk_device (fun t hcall ↦ ?_) h hdevice).imp_right (.intro trivial)
      exact ioctl_device hcall
  | lseek fid position => exact .inl ((ioctl_device h).symm.trans_ne hdevice)
  | read fid addr size =>
      have hread : rdRead cur opened s fid addr size = some (ret, s') := h
      refine (withRamdisk_device (fun t hcall ↦ ?_) hread hdevice).imp_right (.intro trivial)
      obtain ⟨r, hr, hret⟩ := Option.map_eq_some_iff.mp hcall
      cases hret
      exact (setMem_device r.2 _).trans (ioctl_device hr)
  | close fid =>
      refine (withRamdisk_device (fun t hcall ↦ ?_) h hdevice).imp_right (.intro trivial)
      exact ioctl_device hcall
  | chmod pathname mode =>
      refine (withRamdisk_device (fun t ↦ withPathname_device fun name u ↦ ?_) h hdevice).imp_right
        (.intro trivial)
      exact ioctl_device

/-! ## Runs -/

/-- An earlier call of a process opened the RAM disk. -/
def OpenedBy (events : List UserEvent) (pid : ℤ) : Prop :=
  ∃ e ∈ events, e.cur.pid = pid ∧ e.call.Opens ∧ e.opened ≠ ERROR

theorem OpenedBy.concat {events : List UserEvent} {pid : ℤ} (h : OpenedBy events pid)
    (e : UserEvent) : OpenedBy (events ++ [e]) pid :=
  h.imp fun _ ↦ .imp_left (List.mem_append_left [e])

/-- What the module has executed after the calls of the programs. -/
structure RefinesModule (events : List UserEvent) (s : UserSystem area) : Prop where
  executed : PartialRun.run step (initState area) s.sent = some s.kernel
  admitted : ∀ e ∈ s.sent, Admitted e.call
  opened : ∀ e ∈ s.sent, OpenedBy events e.cur.pid

/-- In every run of any number of user programs the module has executed the calls that
reached it, one after the other. All of them were let through by the checks of the
functions, and come from a process that had called a function that opens the RAM disk,
which `rd_open` and `rd_lseek` do not. -/
theorem library_refines_module {memory : ℤ → ℕ → UInt8} {events : List UserEvent}
    (h : PartialRun.run (userStep fuel) (started area memory) events = some s) :
    RefinesModule events s := by
  suffices hrun : RefinesModule events s ∧
      ∀ pid, (s.users pid).openedRandisk ≠ ERROR → OpenedBy events pid from hrun.1
  induction events using List.reverseRecOn generalizing s with
  | nil =>
      cases h
      refine ⟨⟨rfl, ?_, ?_⟩, fun pid hdevice ↦ (hdevice rfl).elim⟩
      all_goals exact fun e he ↦ (List.not_mem_nil he).elim
  | append_singleton events e ih =>
      rw [PartialRun.run_append] at h
      obtain ⟨r, hr, h⟩ := Option.bind_eq_some_iff.mp h
      obtain ⟨s, hstep, h⟩ := (PartialRun.run_cons_eq_some_iff _).mp h
      cases h
      obtain ⟨⟨ret, s⟩, hcall, rfl⟩ := Option.map_eq_some_iff.mp hstep
      obtain ⟨⟨hexecuted, hadmitted, hopened⟩, hdevices⟩ := ih hr
      obtain ⟨htold, hothers⟩ := userCall_tells hcall
      have hdevices' : ∀ pid, (s.users pid).openedRandisk ≠ ERROR →
          OpenedBy (events ++ [e]) pid := by
        intro pid hdevice
        by_cases hpid : pid = e.cur.pid
        · subst hpid
          rcases userCall_device hcall hdevice with hold | hnew
          · exact (hdevices _ hold).concat e
          · exact ⟨e, List.mem_append_right _ (List.mem_singleton_self e), rfl, hnew⟩
        · exact (hdevices pid (hothers pid hpid ▸ hdevice)).concat e
      refine ⟨?_, hdevices'⟩
      have hkept : ∀ e' ∈ r.sent, OpenedBy (events ++ [e]) e'.cur.pid := fun e' he' ↦
        (hopened e' he').concat e
      cases htold with
      | nothing kernel sent =>
          exact ⟨kernel ▸ sent ▸ hexecuted, sent ▸ hadmitted, sent ▸ hkept⟩
      | call call reply admitted device kernel sent =>
          refine ⟨?_, ?_, ?_⟩
          · rw [sent, PartialRun.run_append, hexecuted, Option.bind_some, PartialRun.run_cons, step,
              kernel]
            rfl
          · exact sent ▸ List.forall_mem_append.mpr
              ⟨hadmitted, List.forall_mem_singleton.mpr admitted⟩
          · exact sent ▸ List.forall_mem_append.mpr
              ⟨hkept, List.forall_mem_singleton.mpr (hdevices' e.cur.pid device)⟩

/-- Two processes with `   f ` at 64. The first one's `rd_open` does not come to the module
before its `rd_creat`. -/
def userEvents : List UserEvent :=
  [⟨⟨100, 1⟩, 3, .openPath 64 2⟩, ⟨⟨100, 1⟩, 3, .creat 64 420 fun _ ↦ 0⟩,
    ⟨⟨200, 1⟩, 3, .chmod 64 292⟩, ⟨⟨100, 1⟩, 3, .openPath 64 0⟩]

theorem library_refines_module_two : ∃ s, PartialRun.run (userStep 8) (started sampleArea fun _ ↦
      writeBytes (fun _ ↦ 0) 64 [32, 32, 32, 102, 32]) userEvents = some s ∧ s.sent.length = 3 ∧
    RefinesModule userEvents s := by
  have hlength : (PartialRun.run (userStep 8) (started sampleArea fun _ ↦
      writeBytes (fun _ ↦ 0) 64 [32, 32, 32, 102, 32]) userEvents).map (fun s ↦ s.sent.length) =
        some 3 := by
    decide +kernel
  obtain ⟨s, hs, hlength⟩ := Option.map_eq_some_iff.mp hlength
  exact ⟨s, hs, hlength, library_refines_module hs⟩

end OperatingSystem.Filesys.UserInterface
