import Terrakernel.Syscall.Code

/-!
# The way into the kernel and back

The entry path puts the user's `rdx` into `r10`, where no C function looks for its fourth argument.
On the way back the saved `rax` is popped over the handler's answer.
-/

namespace Terrakernel.Syscall

open Memory Machine

variable {σ : Type} (f : Callee σ 10) (tssRsp tssRbp : Nat)

/-- The arguments the handler gets. -/
def passed (u : State σ) : Args where
  p1 := u.regs .rax
  p2 := u.regs .rdi
  p3 := u.regs .rsi
  p4 := u.rip
  p5 := u.regs .r10
  p6 := u.regs .r8
  p7 := readWord u.mem tssRbp

/-- The ten words of the frame, from the top of the stack up. -/
def saved (u : State σ) : List Word :=
  [readWord u.mem tssRbp, u.regs .r9, u.regs .r8, u.regs .r10, u.regs .rdx, u.regs .rsi,
    u.regs .rdi, u.regs .rax, u.rflags, u.rip]

/-! ## The blocks of the entry path -/

def enter : List Instr :=
  [.swapgs, .movGlobal .rsp tssRsp, .movGlobal .rbp tssRbp] ++
    [Reg.rcx, .r11, .rax, .rdi, .rsi, .rdx, .r10, .r8, .r9, .rbp].map .push

def loads : List Instr :=
  [.movStack .rdi 56, .movStack .rsi 48, .movStack .rdx 40, .movStack .r10 32, .movStack .r8 24,
    .movStack .r9 16]

def leave : List Instr :=
  [Reg.rbp, .r9, .r8, .r10, .rdx, .rsi, .rdi, .rax, .r11, .rcx].map .pop ++ [.swapgs, .sysretq]

theorem syscallFunc_blocks :
    syscallFunc tssRsp tssRbp = enter tssRsp tssRbp ++ (loads ++ (.call :: leave)) := rfl

theorem run_enter (u : State σ) :
    ∃ s, run f (enterKernel u) (enter tssRsp tssRbp) = s ∧
      Frame s.mem (s.regs .rsp) (saved tssRbp u) ∧ s.regs .rcx = u.rip ∧ s.world = u.world ∧
      s.calls = u.calls := by
  obtain ⟨s0, hs0⟩ : ∃ s0, run f (enterKernel u) [.swapgs, .movGlobal .rsp tssRsp,
      .movGlobal .rbp tssRbp] = s0 := ⟨_, rfl⟩
  have hframe : Frame s0.mem (s0.regs .rsp) [] := fun k w h => by simp at h
  obtain ⟨s, hrun, hregs, hf, hrest⟩ := run_pushes f
    [.rcx, .r11, .rax, .rdi, .rsi, .rdx, .r10, .r8, .r9, .rbp] (by decide) hframe (by decide)
  refine ⟨s, ?_, ?_, ?_, ?_, ?_⟩
  · rw [enter, run_append, hs0, hrun]
  · rw [← hs0] at hf
    exact hf
  · rw [hregs .rcx (by decide), ← hs0]
    rfl
  · rw [hrest.world, ← hs0]
    rfl
  · rw [hrest.calls, ← hs0]
    rfl

theorem run_loads {s : State σ} {u : State σ} (hf : Frame s.mem (s.regs .rsp) (saved tssRbp u))
    (hrcx : s.regs .rcx = u.rip) :
    ∃ s', run f s loads = s' ∧ s'.mem = s.mem ∧ s'.regs .rsp = s.regs .rsp ∧
      s'.world = s.world ∧ s'.calls = s.calls ∧ s'.regs .rdi = u.regs .rax ∧
      s'.regs .rsi = u.regs .rdi ∧ s'.regs .rdx = u.regs .rsi ∧ s'.regs .rcx = u.rip ∧
      s'.regs .r8 = u.regs .r10 ∧ s'.regs .r9 = u.regs .r8 := by
  refine ⟨_, rfl, rfl, rfl, rfl, rfl, ?_, ?_, ?_, hrcx, ?_, ?_⟩
  · exact hf 7 _ rfl
  · exact hf 6 _ rfl
  · exact hf 5 _ rfl
  · exact hf 3 _ rfl
  · exact hf 2 _ rfl

theorem step_call {s u : State σ} (hf : Frame s.mem (s.regs .rsp) (saved tssRbp u))
    (hdi : s.regs .rdi = u.regs .rax) (hsi : s.regs .rsi = u.regs .rdi)
    (hdx : s.regs .rdx = u.regs .rsi) (hcx : s.regs .rcx = u.rip)
    (h8 : s.regs .r8 = u.regs .r10) (h9 : s.regs .r9 = u.regs .r8) :
    ∃ s' w, step f s .call = s' ∧ Frame s'.mem (s'.regs .rsp) (w :: (saved tssRbp u).tail) ∧
      s'.world = (f.body (passed tssRbp u) s.world).2 ∧
      s'.calls = s.calls ++ [passed tssRbp u] := by
  have hlen : (saved tssRbp u).length = 10 := rfl
  have hpush := hf.push (by omega) 0
  have hargs : args (pushWord s 0) = passed tssRbp u := by
    have h7 := hpush 1 _ rfl
    simp only [args, passed, pushWord, setReg, Args.mk.injEq]
    refine ⟨?_, ?_, ?_, ?_, ?_, ?_, ?_⟩
    · exact hdi
    · exact hsi
    · exact hdx
    · exact hcx
    · exact h8
    · exact h9
    · rw [Function.update_self]
      exact h7
  refine ⟨_, readWord (f.memory (pushWord s 0)) (slot (s.regs .rsp) 0), rfl, ?_, ?_, ?_⟩
  · have hsp : (step f s .call).regs .rsp = s.regs .rsp := by
      change s.regs .rsp - 8 + 8 = s.regs .rsp
      bv_omega
    rw [hsp]
    rintro (_ | k) w hw
    · obtain rfl := Option.some.inj hw
      rfl
    · have hk : (saved tssRbp u)[k + 1]? = some w := by
        simpa only [List.getElem?_cons_succ, List.getElem?_tail] using hw
      have hbound := (List.getElem?_eq_some_iff.mp hk).1
      have hkeep := f.keeps (pushWord s 0) (k + 2) (by omega) (by omega)
      have hread := hpush (k + 2) w (by rw [List.getElem?_cons_succ, hk])
      change readWord (f.memory (pushWord s 0)) (slot (s.regs .rsp) (k + 1)) = w
      rw [← slot_sub]
      exact hkeep.trans hread
  · change (f.body (args (pushWord s 0)) s.world).2 = _
    rw [hargs]
  · change s.calls ++ [args (pushWord s 0)] = _
    rw [hargs]

theorem run_leave {s u : State σ} {w : Word}
    (hf : Frame s.mem (s.regs .rsp) (w :: (saved tssRbp u).tail)) :
    ∃ s', run f s leave = s' ∧
      [Reg.rbp, .r9, .r8, .r10, .rdx, .rsi, .rdi, .rax, .r11, .rcx].map s'.regs =
        w :: (saved tssRbp u).tail ∧ s'.world = s.world ∧ s'.calls = s.calls := by
  obtain ⟨s', hrun, -, hmap, hrest⟩ := run_pops f
    [.rbp, .r9, .r8, .r10, .rdx, .rsi, .rdi, .rax, .r11, .rcx] (by decide) (by decide) (by rfl) hf
  refine ⟨_, rfl, ?_, ?_, ?_⟩
  · rw [leave, run_append, hrun]
    exact hmap
  · rw [leave, run_append, hrun]
    exact hrest.world
  · rw [leave, run_append, hrun]
    exact hrest.calls

/-! ## The whole path -/

/-- The registers the entry path saves and restores. -/
structure Restored (u s : State σ) : Prop where
  rdi : s.regs .rdi = u.regs .rdi
  rsi : s.regs .rsi = u.regs .rsi
  rdx : s.regs .rdx = u.regs .rdx
  r10 : s.regs .r10 = u.regs .r10
  r8 : s.regs .r8 = u.regs .r8
  r9 : s.regs .r9 = u.regs .r9
  rcx : s.regs .rcx = u.rip
  r11 : s.regs .r11 = u.rflags

theorem syscall_spec (u : State σ) :
    (syscall f tssRsp tssRbp u).calls = u.calls ++ [passed tssRbp u] ∧
      (syscall f tssRsp tssRbp u).world = (f.body (passed tssRbp u) u.world).2 ∧
      (syscall f tssRsp tssRbp u).regs .rax = u.regs .rax ∧
      Restored u (syscall f tssRsp tssRbp u) := by
  obtain ⟨s1, h1, hf1, hcx1, hworld1, hcalls1⟩ := run_enter f tssRsp tssRbp u
  obtain ⟨s2, h2, hmem2, hsp2, hworld2, hcalls2, hdi, hsi, hdx, hcx, h8, h9⟩ :=
    run_loads f tssRbp hf1 hcx1
  rw [← hmem2, ← hsp2] at hf1
  obtain ⟨s3, w, h3, hf3, hworld3, hcalls3⟩ := step_call f tssRbp hf1 hdi hsi hdx hcx h8 h9
  obtain ⟨s4, h4, hmap, hworld4, hcalls4⟩ := run_leave f tssRbp hf3
  have hs : syscall f tssRsp tssRbp u = s4 := by
    rw [syscall, syscallFunc_blocks, run_append, h1, run_append, h2, run_cons, h3, h4]
  simp only [saved, List.tail_cons, List.map_cons, List.map_nil, List.cons.injEq] at hmap
  obtain ⟨-, hr9, hr8, hr10, hrdx, hrsi, hrdi, hrax, hr11, hrcx, -⟩ := hmap
  rw [hs]
  refine ⟨?_, ?_, hrax, ⟨hrdi, hrsi, hrdx, hr10, hr8, hr9, hrcx, hr11⟩⟩
  · rw [hcalls4, hcalls3, hcalls2, hcalls1]
  · rw [hworld4, hworld3, hworld2, hworld1]

section Handler

variable (funcs : Handlers σ) (code : Callee σ 10)

/-- The compiled `syscall_handler`: `code` says which registers and memory it leaves behind. -/
def handlerCode : Callee σ 10 := { code with body := syscallHandler funcs syscalls }

/-- One call with the user's five words, whose answer comes back in `rax`. -/
def Works (u : State σ) : Prop :=
  ∃ a : Args,
    (syscall (handlerCode funcs code) tssRsp tssRbp u).calls = u.calls ++ [a] ∧
    a.p1 = u.regs .rax ∧ a.p2 = u.regs .rdi ∧ a.p3 = u.regs .rsi ∧ a.p4 = u.regs .rdx ∧
    a.p5 = u.regs .r10 ∧
    (syscall (handlerCode funcs code) tssRsp tssRbp u).regs .rax =
      (syscallHandler funcs syscalls a u.world).1 ∧
    Restored u (syscall (handlerCode funcs code) tssRsp tssRbp u)

/-- The user's `rdx` would have to be the address of its own next instruction, and the handler's
answer the number of the call. -/
def Lucky (u : State σ) : Prop :=
  u.regs .rdx = u.rip ∧
    (syscallHandler funcs syscalls (passed tssRbp u) u.world).1 = u.regs .rax

theorem works_iff (u : State σ) :
    Works tssRsp tssRbp funcs code u ↔ Lucky tssRbp funcs u := by
  obtain ⟨hcalls, -, hrax, hrest⟩ := syscall_spec (handlerCode funcs code) tssRsp tssRbp u
  constructor
  · rintro ⟨a, ha, -, -, -, h4, -, hret, -⟩
    obtain rfl : passed tssRbp u = a := by
      rw [hcalls] at ha
      simpa using ha
    exact ⟨h4.symm, by rw [← hret, hrax]⟩
  · rintro ⟨hrdx, hret⟩
    exact ⟨passed tssRbp u, hcalls, rfl, rfl, rfl, hrdx.symm, rfl, by rw [hrax, hret], hrest⟩

theorem syscall3_value (s : State σ) (n a1 a2 a3 : Word) :
    (syscall3 (handlerCode funcs code) tssRsp tssRbp s n a1 a2 a3).1 = n := by
  unfold syscall3
  simp only [(syscall_spec (handlerCode funcs code) tssRsp tssRbp _).2.2.1]
  rfl

theorem syscall4_value (s : State σ) (n a1 a2 a3 a4 : Word) :
    (syscall4 (handlerCode funcs code) tssRsp tssRbp s n a1 a2 a3 a4).1 = n := by
  unfold syscall4
  simp only [(syscall_spec (handlerCode funcs code) tssRsp tssRbp _).2.2.1]
  rfl

/-- What a stub was asked to bring back, for the words it was given. -/
def asked (s : State σ) (n a1 a2 a3 a4 : Word) : Word :=
  (syscallHandler funcs syscalls ⟨n, a1, a2, a3, a4, 0, 0⟩ s.world).1

/-- The path works only by coincidence, and a stub's value is the file system's answer only where
that answer is the number of the call. -/
theorem syscall_path (u : State σ) :
    (Works tssRsp tssRbp funcs code u ↔ Lucky tssRbp funcs u) ∧
      (∀ n a1 a2 a3,
        (syscall3 (handlerCode funcs code) tssRsp tssRbp u n a1 a2 a3).1 =
            asked funcs u n a1 a2 a3 (u.regs .r10) ↔
          asked funcs u n a1 a2 a3 (u.regs .r10) = n) ∧
      ∀ n a1 a2 a3 a4,
        (syscall4 (handlerCode funcs code) tssRsp tssRbp u n a1 a2 a3 a4).1 =
            asked funcs u n a1 a2 a3 a4 ↔
          asked funcs u n a1 a2 a3 a4 = n := by
  refine ⟨works_iff tssRsp tssRbp funcs code u, ?_, ?_⟩
  · intro n a1 a2 a3
    rw [syscall3_value]
    exact eq_comm
  · intro n a1 a2 a3 a4
    rw [syscall4_value]
    exact eq_comm

end Handler

/-- A handler that leaves memory and registers as they are. -/
def quiet : Callee Unit 10 where
  body := fun _ _ => (0, ())
  scratch := fun s => s.regs
  memory := fun s => s.mem
  keeps := fun _ _ _ _ => rfl

/-- A user at `0x400010` opens a file with mode `0666`; every handler answers 5. -/
def opening : State Unit where
  regs
    | .rax => 2
    | .rdi => 0x500000
    | .rdx => 0x1B6
    | _ => 0
  mem := fun _ => 0
  kernelGs := false
  user := true
  rip := 0x400010
  rflags := 0x202
  world := ()
  calls := []

/-- The mode that arrives is the user's program counter, and the stub brings back 2. -/
theorem opening_fails :
    ¬ Works 0x7000 0x7008 (fun _ _ _ _ _ fs => (5, fs)) quiet opening ∧
      (passed 0x7008 opening).p4 = 0x400010 ∧
      (syscall3 (handlerCode (fun _ _ _ _ _ fs => (5, fs)) quiet) 0x7000 0x7008 opening
        2 0x500000 0 0x1B6).1 = 2 := by
  refine ⟨?_, rfl, syscall3_value _ _ _ _ _ _ _ _ _⟩
  rw [works_iff]
  rintro ⟨hrdx, -⟩
  exact absurd hrdx (by decide)

end Terrakernel.Syscall
