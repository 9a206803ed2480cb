import Terrakernel.Lib.Machine

/-!
# System calls

The entry path of `syscall.asm`, the handler and its table from `syscall.cpp`, and
the stubs of `INITPROC`. The handler prints a line for every call it knows, which
is left out.
-/

namespace Terrakernel.Syscall

open Memory Machine

/-- `syscall_func`, from the addresses of `_tss_rsp` and `_tss_rbp`. -/
def syscallFunc (tssRsp tssRbp : Nat) : List Instr :=
  [ .swapgs,
    .movGlobal .rsp tssRsp,
    .movGlobal .rbp tssRbp,
    .push .rcx,
    .push .r11,
    .push .rax,
    .push .rdi,
    .push .rsi,
    .push .rdx,
    .push .r10,
    .push .r8,
    .push .r9,
    .push .rbp,
    .movStack .rdi 56,
    .movStack .rsi 48,
    .movStack .rdx 40,
    .movStack .r10 32,
    .movStack .r8 24,
    .movStack .r9 16,
    .call,
    .pop .rbp,
    .pop .r9,
    .pop .r8,
    .pop .r10,
    .pop .rdx,
    .pop .rsi,
    .pop .rdi,
    .pop .rax,
    .pop .r11,
    .pop .rcx,
    .swapgs,
    .sysretq ]

/-! ## The handler -/

inductive Handler where
  | sysOpen | sysClose | sysRead | sysWrite | sysPread | sysPwrite | sysLseek | sysStat
  | sysChmod | sysChown | sysTruncate | sysSync | sysDatasync | sysMkdir | sysChdir
  | sysLink | sysUnlink | sysRename | sysSymlink | sysReadlink | sysRmdir | sysGetdents
  deriving DecidableEq, Repr

/-- One entry of `syscalls`. -/
structure SyscallEntry where
  num : Int
  func : Handler
  deriving DecidableEq, Repr

def addSyscall (syscalls : List SyscallEntry) (num : Int) (handler : Handler) : List SyscallEntry :=
  if 512 ≤ syscalls.length then syscalls else syscalls ++ [⟨num, handler⟩]

/-- The table after `initialise`. -/
def syscalls : List SyscallEntry :=
  [(2, .sysOpen), (3, .sysClose), (0, .sysRead), (1, .sysWrite), (17, .sysPread), (18, .sysPwrite),
    (8, .sysLseek), (5, .sysStat), (90, .sysChmod), (92, .sysChown), (77, .sysTruncate),
    (74, .sysSync), (75, .sysDatasync), (83, .sysMkdir), (80, .sysChdir), (86, .sysLink),
    (87, .sysUnlink), (82, .sysRename), (88, .sysSymlink), (89, .sysReadlink), (84, .sysRmdir),
    (78, .sysGetdents)].foldl
    (fun table (e : Int × Handler) => addSyscall table e.1 e.2) []

/-- What the handlers do to the file system, each called with four words. -/
abbrev Handlers (σ : Type) := Handler → Word → Word → Word → Word → σ → Word × σ

-- `syscalls[i].num == rax` compares after a sign extension.
def syscallHandler {σ : Type} (funcs : Handlers σ) (table : List SyscallEntry) (a : Args) (fs : σ) :
    Word × σ :=
  match table.find? fun e => BitVec.ofInt 64 e.num = a.p1 with
  | some e => funcs e.func a.p2 a.p3 a.p4 a.p5 fs
  | none => (-1, fs)

section User

variable {σ : Type} (f : Callee σ 10) (tssRsp tssRbp : Nat)

/-- The instruction `syscall`, until the user's code goes on. -/
def syscall (s : State σ) : State σ := run f (enterKernel s) (syscallFunc tssRsp tssRbp)

def syscall3 (s : State σ) (n a1 a2 a3 : Word) : Word × State σ :=
  let s := setReg (setReg (setReg (setReg s .rax n) .rdi a1) .rsi a2) .rdx a3
  let s := syscall f tssRsp tssRbp s
  (s.regs .rax, s)

def syscall4 (s : State σ) (n a1 a2 a3 a4 : Word) : Word × State σ :=
  let s := setReg (setReg (setReg (setReg (setReg s .r10 a4) .rax n) .rdi a1) .rsi a2) .rdx a3
  let s := syscall f tssRsp tssRbp s
  (s.regs .rax, s)

end User

end Terrakernel.Syscall
