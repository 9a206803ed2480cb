import Terrakernel.Lib.Memory

/-!
# Straight-line x86-64 with a stack

The few instructions an entry path is made of, and the System V convention for a call.
-/

namespace Terrakernel.Machine

open Memory Function
open List hiding Mem

variable {m : Mem}

abbrev Word := BitVec 64

variable {sp : Word} {ws : List Word}

inductive Reg where
  | rax | rbx | rcx | rdx | rsi | rdi | rbp | rsp
  | r8 | r9 | r10 | r11 | r12 | r13 | r14 | r15
  deriving DecidableEq, Repr

/-- Registers a function gives back as it found them. -/
def Reg.calleeSaved : Reg → Bool
  | .rbx | .rbp | .rsp | .r12 | .r13 | .r14 | .r15 => true
  | _ => false

/-- The arguments of a call, and where those on the stack begin. -/
structure Args where
  p1 : Word
  p2 : Word
  p3 : Word
  p4 : Word
  p5 : Word
  p6 : Word
  p7 : Word
  deriving DecidableEq, Repr

structure State (σ : Type) where
  regs : Reg → Word
  mem : Mem
  kernelGs : Bool
  user : Bool
  rip : Word
  rflags : Word
  world : σ
  calls : List Args

inductive Instr where
  | swapgs
  | movGlobal (r : Reg) (addr : Nat)
  | movStack (r : Reg) (offset : Nat)
  | push (r : Reg)
  | pop (r : Reg)
  | call
  | sysretq
  deriving DecidableEq, Repr

/-! ## The stack -/

/-- The address of word `k` above `sp`. -/
def slot (sp : Word) (k : Nat) : Nat := (sp + BitVec.ofNat 64 (8 * k)).toNat

def readWord (m : Mem) (a : Nat) : Word := BitVec.ofNat 64 (load m a 8)

def writeWord (m : Mem) (a : Nat) (w : Word) : Mem := store m a 8 w.toNat

/-- The words from `sp` up. -/
def Frame (m : Mem) (sp : Word) (ws : List Word) : Prop :=
  ∀ k w, ws[k]? = some w → readWord m (slot sp k) = w

theorem readWord_writeWord (m : Mem) (a : Nat) (w : Word) : readWord (writeWord m a w) a = w := by
  unfold readWord writeWord
  rw [load_store_same, Nat.mod_eq_of_lt (by have := w.isLt; simpa using this)]
  simp

theorem slot_zero (sp : Word) : slot sp 0 = sp.toNat := by simp [slot]

theorem slot_sub (sp : Word) (k : Nat) : slot (sp - 8) (k + 1) = slot sp k := by
  unfold slot
  congr 1
  rw [show 8 * (k + 1) = 8 * k + 8 by omega, BitVec.ofNat_add]
  simp only [BitVec.sub_eq_add_neg]
  bv_omega

theorem slot_add (sp : Word) (k : Nat) : slot (sp + 8) k = slot sp (k + 1) := by
  rw [← slot_sub, show sp + 8 - 8 = sp by bv_omega]

theorem slot_apart (sp : Word) {k : Nat} (hk : k < 2 ^ 60) :
    slot sp (k + 1) + 8 ≤ sp.toNat ∨ sp.toNat + 8 ≤ slot sp (k + 1) := by
  unfold slot
  have := sp.isLt
  rw [BitVec.toNat_add, BitVec.toNat_ofNat]
  omega

theorem Frame.push (h : Frame m sp ws) (hlen : ws.length < 2 ^ 60) (w : Word) :
    Frame (writeWord m (sp - 8).toNat w) (sp - 8) (w :: ws) := by
  intro k v hv
  cases k with
  | zero =>
    obtain rfl : w = v := by simpa using hv
    rw [slot_zero, readWord_writeWord]
  | succ k =>
    have hk : k < ws.length := (List.getElem?_eq_some_iff.mp (by simpa using hv)).1
    have hapart := slot_apart (sp - 8) (k := k) (by omega)
    rw [slot_sub] at hapart ⊢
    rw [← h k v (by simpa using hv)]
    unfold readWord writeWord
    rw [load_store_apart m w.toNat (by omega)]

theorem Frame.pop {w : Word} (h : Frame m sp (w :: ws)) :
    readWord m sp.toNat = w ∧ Frame m (sp + 8) ws := by
  refine ⟨?_, ?_⟩
  · rw [← slot_zero]
    exact h 0 w rfl
  · intro k v hv
    rw [slot_add]
    exact h (k + 1) v (by simpa using hv)

/-! ## Calls -/

/-- A compiled C function of seven arguments, the last one on the stack. It may change the
registers it need not keep, its stack argument, and memory outside the `depth` words of its
caller's frame. -/
structure Callee (σ : Type) (depth : Nat) where
  body : Args → σ → Word × σ
  scratch : State σ → Reg → Word
  memory : State σ → Mem
  keeps : ∀ s k, 1 < k → k < depth + 1 →
    readWord (memory s) (slot (s.regs .rsp) k) = readWord s.mem (slot (s.regs .rsp) k)

/-- The arguments, as a function finds them when its return address has been pushed. -/
def args {σ : Type} (s : State σ) : Args where
  p1 := s.regs .rdi
  p2 := s.regs .rsi
  p3 := s.regs .rdx
  p4 := s.regs .rcx
  p5 := s.regs .r8
  p6 := s.regs .r9
  p7 := readWord s.mem (slot (s.regs .rsp) 1)

def setReg {σ : Type} (s : State σ) (r : Reg) (w : Word) : State σ :=
  { s with regs := update s.regs r w }

def pushWord {σ : Type} (s : State σ) (w : Word) : State σ :=
  let sp := s.regs .rsp - 8
  { setReg s .rsp sp with mem := writeWord s.mem sp.toNat w }

-- From the call to the instruction behind it. The return address is pushed and popped again, and
-- nothing here reads its value.
def callFunction {σ : Type} {depth : Nat} (f : Callee σ depth) (s : State σ) : State σ :=
  let s := pushWord s 0
  let (value, world) := f.body (args s) s.world
  { s with
    regs := fun r =>
      if r = .rax then value
      else if r = .rsp then s.regs .rsp + 8
      else if r.calleeSaved then s.regs r
      else f.scratch s r
    mem := f.memory s
    world := world
    calls := s.calls ++ [args s] }

def step {σ : Type} {depth : Nat} (f : Callee σ depth) (s : State σ) : Instr → State σ
  | .swapgs => { s with kernelGs := !s.kernelGs }
  | .movGlobal r addr => setReg s r (readWord s.mem addr)
  | .movStack r offset => setReg s r (readWord s.mem (s.regs .rsp + BitVec.ofNat 64 offset).toNat)
  | .push r => pushWord s (s.regs r)
  | .pop r =>
    let w := readWord s.mem (s.regs .rsp).toNat
    setReg (setReg s .rsp (s.regs .rsp + 8)) r w
  | .call => callFunction f s
  | .sysretq => { s with user := true, rip := s.regs .rcx, rflags := s.regs .r11 }

def run {σ : Type} {depth : Nat} (f : Callee σ depth) (s : State σ) (code : List Instr) : State σ :=
  code.foldl (step f) s

/-- The processor's part of a system call: where to go on and the flags are kept in registers. -/
def enterKernel {σ : Type} (s : State σ) : State σ :=
  { s with
    regs := update (update s.regs .rcx s.rip) .r11 s.rflags
    user := false }

section Blocks

variable {σ : Type} {depth : Nat} (f : Callee σ depth)

theorem run_append (s : State σ) (xs ys : List Instr) : run f s (xs ++ ys) = run f (run f s xs) ys :=
  foldl_append

theorem run_cons (s : State σ) (x : Instr) (xs : List Instr) :
    run f s (x :: xs) = run f (step f s x) xs := rfl

/-- What a block that only moves words around leaves alone. -/
structure SameRest (s s' : State σ) : Prop where
  kernelGs : s'.kernelGs = s.kernelGs
  user : s'.user = s.user
  rip : s'.rip = s.rip
  rflags : s'.rflags = s.rflags
  world : s'.world = s.world
  calls : s'.calls = s.calls

theorem run_pushes (rs : List Reg) (hrs : .rsp ∉ rs) {s : State σ}
    (hw : Frame s.mem (s.regs .rsp) ws) (hlen : ws.length + rs.length < 2 ^ 60) :
    ∃ s', run f s (rs.map .push) = s' ∧ (∀ r, r ≠ .rsp → s'.regs r = s.regs r) ∧
      Frame s'.mem (s'.regs .rsp) ((rs.map s.regs).reverse ++ ws) ∧ SameRest s s' := by
  induction rs generalizing s ws with
  | nil => exact ⟨s, rfl, fun _ _ => rfl, hw, ⟨rfl, rfl, rfl, rfl, rfl, rfl⟩⟩
  | cons r rs ih =>
    rw [length_cons] at hlen
    have hframe : Frame (pushWord s (s.regs r)).mem ((pushWord s (s.regs r)).regs .rsp)
        (s.regs r :: ws) := by
      simp only [pushWord, setReg, update_self]
      exact hw.push (by omega) (s.regs r)
    have hregs : ∀ q, q ≠ .rsp → (pushWord s (s.regs r)).regs q = s.regs q := by
      intro q hq
      simp only [pushWord, setReg, update_of_ne hq]
    obtain ⟨s', hrun, hsame, hf, hrest⟩ := ih (fun h => hrs (mem_cons_of_mem _ h)) hframe
      (by rw [length_cons]; omega)
    refine ⟨s', hrun, fun q hq => (hsame q hq).trans (hregs q hq), ?_, ?_⟩
    · have hmap : rs.map (pushWord s (s.regs r)).regs = rs.map s.regs := by
        apply map_congr_left
        rintro q hq
        apply hregs
        rintro rfl
        exact hrs (mem_cons_of_mem _ hq)
      rw [hmap] at hf
      simpa using hf
    · exact ⟨hrest.kernelGs, hrest.user, hrest.rip, hrest.rflags, hrest.world, hrest.calls⟩

theorem run_pops (rs : List Reg) (hrs : .rsp ∉ rs) (hnd : rs.Nodup) {s : State σ}
    (hlen : ws.length = rs.length) (hw : Frame s.mem (s.regs .rsp) ws) :
    ∃ s', run f s (rs.map .pop) = s' ∧ (∀ r, r ∉ rs → r ≠ .rsp → s'.regs r = s.regs r) ∧
      rs.map s'.regs = ws ∧ SameRest s s' := by
  induction rs generalizing s ws with
  | nil =>
    obtain rfl : ws = [] := length_eq_zero_iff.mp hlen
    exact ⟨s, rfl, fun _ _ _ => rfl, rfl, ⟨rfl, rfl, rfl, rfl, rfl, rfl⟩⟩
  | cons r rs ih =>
    obtain ⟨w, ws, rfl⟩ : ∃ w vs, ws = w :: vs := by
      cases ws with
      | nil => simp at hlen
      | cons w vs => exact ⟨w, vs, rfl⟩
    obtain ⟨hread, hrest⟩ := hw.pop
    have hr : r ≠ .rsp := by
      rintro rfl
      exact hrs mem_cons_self
    have hnot := (nodup_cons.mp hnd).1
    have hsp : (step f s (.pop r)).regs .rsp = s.regs .rsp + 8 := by
      simp [step, setReg, update_of_ne hr.symm]
    have hself : (step f s (.pop r)).regs r = w := by
      simp [step, setReg, hread]
    have hother : ∀ q, q ≠ r → q ≠ .rsp → (step f s (.pop r)).regs q = s.regs q := by
      intro q hq hq'
      simp [step, setReg, update_of_ne hq, update_of_ne hq']
    obtain ⟨s', hrun, hsame, hmap, hsr⟩ := ih (fun h => hrs (mem_cons_of_mem _ h))
      (nodup_cons.mp hnd).2 (by simpa using hlen) (s := step f s (.pop r))
      (by rw [hsp]; exact hrest)
    refine ⟨s', hrun, ?_, ?_, ?_⟩
    · intro q hq hq'
      rw [mem_cons, not_or] at hq
      rw [hsame q hq.2 hq', hother q hq.1 hq']
    · rw [map_cons, hmap, hsame r hnot hr, hself]
    · exact ⟨hsr.kernelGs, hsr.user, hsr.rip, hsr.rflags, hsr.world, hsr.calls⟩

end Blocks

end Terrakernel.Machine
