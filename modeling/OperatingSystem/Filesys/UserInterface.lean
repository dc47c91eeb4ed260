import OperatingSystem.Filesys.NameCheck
import OperatingSystem.Filesys.SplitPaths
import OperatingSystem.Filesys.Interface

/-!
# The functions of the user programs

The functions of `user_interface.h`: they open `/proc/Ramdisk`, check the pathname,
translate the mode or the flag and hand the call to the module with `ioctl`. The module
reads the pathnames of `rd_creat`, `rd_open` and `rd_chmod` where the caller keeps them,
and cuts them there; those of `rd_mkdir` and `rd_unlink` it copies before.
-/

namespace OperatingSystem.Filesys.UserInterface

open ByteMemory

variable {area : Area}

/-! ## Processes -/

/-- The variable `openedRandisk` of a process and its memory. -/
structure UserProcess where
  openedRandisk : ℤ
  mem : ℕ → UInt8

/-- The module, and the processes by their pids. The calls that reached the module are
kept beside them. -/
structure UserSystem (area : Area) where
  kernel : State area
  users : ℤ → UserProcess
  sent : List Event

def UserSystem.user (s : UserSystem area) (cur : Process) : UserProcess := s.users cur.pid

def UserSystem.setUser (s : UserSystem area) (cur : Process) (u : UserProcess) :
    UserSystem area :=
  { s with users := Function.update s.users cur.pid u }

def UserSystem.setMem (s : UserSystem area) (cur : Process) (mem : ℕ → UInt8) :
    UserSystem area :=
  s.setUser cur { s.user cur with mem := mem }

@[simp] theorem setUser_users (s : UserSystem area) (cur : Process) (u : UserProcess) :
    (s.setUser cur u).users cur.pid = u := Function.update_self _ _ _

@[simp] theorem setMem_users (s : UserSystem area) (cur : Process) (mem : ℕ → UInt8) :
    (s.setMem cur mem).users cur.pid = { s.user cur with mem := mem } := setUser_users s cur _

/-- Every process has its memory and has not opened the RAM disk. None is forked from
another: a fork copies `openedRandisk`. -/
def started (area : Area) (memory : ℤ → ℕ → UInt8) : UserSystem area where
  kernel := initState area
  users := fun pid ↦ ⟨ERROR, memory pid⟩
  sent := []

/-! ## What the functions share -/

/-- `opened` is what `open("/proc/Ramdisk", O_RDWR)` returns, if it is called. -/
def openProcRandisk (opened : ℤ) (u : UserProcess) : ℤ × UserProcess :=
  if u.openedRandisk ≠ ERROR then (SUCCESS, u)
  else (if opened = ERROR then ERROR else SUCCESS, { u with openedRandisk := opened })

def modeToPermission (mode : ℤ) : ℤ := if mode = 292 then 0 else if mode = 420 then 1 else 2

/-- What `rd_open` makes of `O_RDONLY`, `O_RDWR` and the rest. -/
def openFlag (flag : ℤ) : ℤ := if flag = 2 then 1 else if flag = 0 then 0 else 2

/-- What a call of the module does to the memory of the caller. -/
abbrev Touch (area : Area) := State area → (ℕ → UInt8) → Option (ℕ → UInt8)

def untouched : Touch area := fun _ mem ↦ some mem

def SplitPath.mem (mem : ℕ → UInt8) : SplitPath → ℕ → UInt8
  | .error => mem
  | .parsed _ mem' _ _ => mem'

/-- `read_pathname` on the caller's pathname. -/
def cutPathname (fuel : ℕ) (cur : Process) (pathname : ℕ) : Touch area := fun s mem ↦
  (readPathnameAt fuel s.store mem pathname (getFDT cur s).1 fun _ ↦ 0).map (SplitPath.mem mem)

/-- `create` looks at the pathname only if a block and an inode are left. -/
def cutNewPathname (fuel : ℕ) (cur : Process) (pathname : ℕ) : Touch area := fun s mem ↦
  if s.store.superblock.freeBlockNumber < 1 ∨ s.store.superblock.freeInodeNumber < 1 then some mem
  else cutPathname fuel cur pathname s mem

/-- The NUL and the bytes that `rd_read` stores in the buffer at `addr`. -/
def ReadResult.store (addr : ℕ) (mem : ℕ → UInt8) (r : ReadResult) : ℕ → UInt8 :=
  let mem := match r.nulAt with
    | none => mem
    | some k => Function.update mem (addr + k).toNat 0
  writeBytes mem addr r.bytes

def fillBuffer (cur : Process) (fid : ℤ) (addr : ℕ) (size : ℤ) : Touch area := fun s mem ↦
  (rdRead cur fid size s).map fun r ↦ ReadResult.store addr mem r.1

/-- `ioctl(openedRandisk, …)`: the descriptor `-1` leads to no module. -/
def ioctl (cur : Process) (call : Call) (touch : Touch area) (s : UserSystem area) :
    Option (ℤ × UserSystem area) :=
  if (s.user cur).openedRandisk = ERROR then some (ERROR, s)
  else do
    let mem ← touch s.kernel (s.user cur).mem
    let (reply, kernel) ← ramdiskIoctl s.kernel ⟨cur, call⟩
    some (reply.ret, { s.setMem cur mem with kernel := kernel, sent := s.sent ++ [⟨cur, call⟩] })

/-- `if (openProcRandisk() == ERROR) return ERROR;`. -/
def withRamdisk (cur : Process) (opened : ℤ) (s : UserSystem area)
    (next : UserSystem area → Option (ℤ × UserSystem area)) : Option (ℤ × UserSystem area) :=
  let (ret, u) := openProcRandisk opened (s.user cur)
  if ret = ERROR then some (ERROR, s.setUser cur u) else next (s.setUser cur u)

/-- The string at an address, if it ends among the next `fuel` bytes. -/
def cstringAt (fuel : ℕ) (mem : ℕ → UInt8) (p : ℕ) : Option CString := do
  let n ← strlen mem fuel p
  if h : (0 : UInt8) ∉ readBytes mem p n then some ⟨readBytes mem p n, h⟩ else none

/-- `if (check_pathname(pathname) == ERROR) return ERROR;`, and the string that the module
will find. -/
def withPathname (fuel : ℕ) (cur : Process) (pathname : ℕ) (s : UserSystem area)
    (next : CString → UserSystem area → Option (ℤ × UserSystem area)) :
    Option (ℤ × UserSystem area) := do
  let (ret, mem) ← checkPathname fuel (s.user cur).mem pathname
  if ret = ERROR then some (ERROR, s.setMem cur mem)
  else do
    let name ← cstringAt fuel mem pathname
    next name (s.setMem cur mem)

/-- `if (… == ERROR) return ERROR; return SUCCESS;`. -/
def succeeds (r : ℤ × UserSystem area) : ℤ × UserSystem area :=
  (if r.1 = ERROR then ERROR else SUCCESS, r.2)

/-! ## The functions -/

section Functions

variable (fuel : ℕ) (cur : Process) (opened : ℤ) (s : UserSystem area)

def rdCreat (pathname : ℕ) (mode : ℤ) (fresh : ℕ → UInt8) : Option (ℤ × UserSystem area) :=
  withRamdisk cur opened s fun s ↦ withPathname fuel cur pathname s fun name s ↦
    ioctl cur (.creat name (modeToPermission mode) fresh) (cutNewPathname fuel cur pathname) s

def rdMkdir (pathname : ℕ) (fresh : ℕ → UInt8) : Option (ℤ × UserSystem area) :=
  withRamdisk cur opened s fun s ↦ withPathname fuel cur pathname s fun name s ↦
    (ioctl cur (.mkdir name fresh) untouched s).map succeeds

def rdUnlink (pathname : ℕ) : Option (ℤ × UserSystem area) :=
  withRamdisk cur opened s fun s ↦ withPathname fuel cur pathname s fun name s ↦
    (ioctl cur (.unlink name) untouched s).map succeeds

/-- The only function with a pathname that does not open the RAM disk. -/
def rdOpen (pathname : ℕ) (flag : ℤ) : Option (ℤ × UserSystem area) :=
  withPathname fuel cur pathname s fun name s ↦
    ioctl cur (.openPath name (openFlag flag)) (cutPathname fuel cur pathname) s

def rdWrite (fid : ℤ) (content size : ℕ) : Option (ℤ × UserSystem area) :=
  withRamdisk cur opened s fun s ↦
    ioctl cur (.write fid (readBytes (s.user cur).mem content size)) untouched s

def rdLseek (fid position : ℤ) : Option (ℤ × UserSystem area) :=
  ioctl cur (.lseek fid position) untouched s

/-- `addr[input_size] = '\0'` in any case. -/
def rdRead (fid : ℤ) (addr size : ℕ) : Option (ℤ × UserSystem area) :=
  withRamdisk cur opened s fun s ↦
    (ioctl cur (.read fid size) (fillBuffer cur fid addr size) s).map fun r ↦
      (r.1, r.2.setMem cur (Function.update (r.2.user cur).mem (addr + size) 0))

def rdClose (fid : ℤ) : Option (ℤ × UserSystem area) :=
  withRamdisk cur opened s fun s ↦ ioctl cur (.close fid) untouched s

def rdChmod (pathname : ℕ) (mode : ℤ) : Option (ℤ × UserSystem area) :=
  withRamdisk cur opened s fun s ↦ withPathname fuel cur pathname s fun name s ↦
    ioctl cur (.chmod name (modeToPermission mode)) (cutPathname fuel cur pathname) s

end Functions

/-! ## Runs -/

/-- A call of one of the functions; pathnames and buffers are addresses. -/
inductive UserCall where
  | creat (pathname : ℕ) (mode : ℤ) (fresh : ℕ → UInt8)
  | mkdir (pathname : ℕ) (fresh : ℕ → UInt8)
  | unlink (pathname : ℕ)
  | openPath (pathname : ℕ) (flag : ℤ)
  | write (fid : ℤ) (content size : ℕ)
  | lseek (fid position : ℤ)
  | read (fid : ℤ) (addr size : ℕ)
  | close (fid : ℤ)
  | chmod (pathname : ℕ) (mode : ℤ)

structure UserEvent where
  cur : Process
  opened : ℤ
  call : UserCall

def userCall (fuel : ℕ) (s : UserSystem area) (e : UserEvent) : Option (ℤ × UserSystem area) :=
  match e.call with
  | .creat pathname mode fresh => rdCreat fuel e.cur e.opened s pathname mode fresh
  | .mkdir pathname fresh => rdMkdir fuel e.cur e.opened s pathname fresh
  | .unlink pathname => rdUnlink fuel e.cur e.opened s pathname
  | .openPath pathname flag => rdOpen fuel e.cur s pathname flag
  | .write fid content size => rdWrite e.cur e.opened s fid content size
  | .lseek fid position => rdLseek e.cur s fid position
  | .read fid addr size => rdRead e.cur e.opened s fid addr size
  | .close fid => rdClose e.cur e.opened s fid
  | .chmod pathname mode => rdChmod fuel e.cur e.opened s pathname mode

def userStep (fuel : ℕ) (s : UserSystem area) (e : UserEvent) : Option (UserSystem area) :=
  (userCall fuel s e).map Prod.snd

end OperatingSystem.Filesys.UserInterface
