import Terrakernel.Tmpfs.Ops

/-!
# The table of descriptors

What each call does to the table and to the working directory.
-/

namespace Terrakernel.Tmpfs

open Memory Vmm Links Heap Function Option

variable {fs fs' : Fs} {r fd : Int} {mode n : Nat} {devpath : Path}

inductive FdCall where
  | open (path : Path) (flags : BitVec 32) (mode : Nat) (devpath : Path)
  | openat (dirfd : Int) (path : Path) (flags : BitVec 32) (mode : Nat)
  | close (fd : Int)
  | read (fd : Int) (buf count : Nat)
  | write (fd : Int) (buf : Bytes)
  | lseek (fd : Int) (offset : BitVec 64) (whence : Int)
  | ftruncate (fd : Int) (length : BitVec 64)
  | mkdir (path : Path) (mode : Nat)
  | mkdirat (dirfd : Int) (path : Path) (mode : Nat)
  | unlink (path : Path)
  | rmdir (path : Path)
  deriving DecidableEq, Repr

variable {c : FdCall}

def FdCall.exec : FdCall → Fs → Option (Int × Fs)
  | .open path flags mode devpath, fs => Tmpfs.open fs path flags mode devpath
  | .openat dirfd path flags mode, fs => Tmpfs.openat fs dirfd path flags mode
  | .close fd, fs => Tmpfs.close fs fd
  | .read fd buf count, fs => (Tmpfs.read fs fd buf count).map fun r => (r.1, r.2.2)
  | .write fd buf, fs => Tmpfs.write fs fd buf
  | .lseek fd offset whence, fs => some (Tmpfs.lseek fs fd offset whence)
  | .ftruncate fd length, fs => Tmpfs.ftruncate fs fd length
  | .mkdir path mode, fs => Tmpfs.mkdir fs path mode
  | .mkdirat dirfd path mode, fs => Tmpfs.mkdirat fs dirfd path mode
  | .unlink path, fs => Tmpfs.unlink fs path
  | .rmdir path, fs => Tmpfs.rmdir fs path

/-! ## The table in memory

`read` stores at the address it is given, and the table is memory like any other. -/

-- `sizeof(filedesc)`
abbrev filedescSize : Nat := 40

/-- `v` with its byte `k` replaced. -/
def withByte (v k : Nat) (b : Byte) : Nat :=
  v % 256 ^ k + (b.toNat + v / 256 ^ (k + 1) * 256) * 256 ^ k

/-- The entry after its byte `k` was stored to; bytes in no field are padding. -/
def setByte (f : Filedesc) (k : Nat) (b : Byte) : Filedesc :=
  if k < 4 then { f with fd := withByte f.fd k b }
  else if 8 ≤ k ∧ k < 16 then { f with node := withByte f.node (k - 8) b }
  else if 16 ≤ k ∧ k < 24 then
    { f with offset := BitVec.ofNat 64 (withByte f.offset.toNat (k - 16) b) }
  else if 24 ≤ k ∧ k < 28 then
    { f with flags := BitVec.ofNat 32 (withByte f.flags.toNat (k - 24) b) }
  else if 28 ≤ k ∧ k < 32 then { f with mode := withByte f.mode (k - 28) b }
  else if k = 32 then { f with isDirent := b ≠ 0 }
  else if k = 33 then { f with free := b ≠ 0 }
  else f

/-- A byte stored at `a`, with `ftable` at `table`. -/
def storeByte (table : Nat) (fs : Fs) (a : Nat) (b : Byte) : Fs :=
  if h : table ≤ a ∧ a < table + 256 * filedescSize then
    fs.setFd ⟨(a - table) / filedescSize, Nat.div_lt_of_lt_mul (by omega)⟩ fun f =>
      setByte f ((a - table) % filedescSize) b
  else fs

def storeBytes (table : Nat) (fs : Fs) (a : Nat) : Bytes → Fs
  | [] => fs
  | b :: bs => storeBytes table (storeByte table fs (a % word) b) (a + 1) bs

/-- `read`, with its stores. -/
def readAt (table : Nat) (fs : Fs) (fd : Int) (buf count : Nat) : Option (Int × Fs) := do
  let (r, stored, _) ← read fs fd buf count
  let fs := storeBytes table fs buf stored
  -- `f->offset += to_read` comes after the stores
  match entryOf fd with
  | none => some (r, fs)
  | some i =>
    if r < 0 then some (r, fs)
    else some (r, fs.setFd i fun f => { f with offset := f.offset + BitVec.ofInt 64 r })

def FdCall.execAt (table : Nat) : FdCall → Fs → Option (Int × Fs)
  | .read fd buf count, fs => readAt table fs fd buf count
  | c, fs => c.exec fs

/-- The call keeps to what is its own. A directory outside the tree may have a parent that was
given back, a file written down to no bytes keeps the address of a block that was given back, and
`read` does not ask whose memory the buffer is. -/
def FdCall.Owned (table : Nat) (fs : Fs) : FdCall → Prop
  | .openat dirfd _ _ _ => InTree fs (dirOf fs dirfd)
  | .mkdirat dirfd _ _ => InTree fs (dirOf fs dirfd)
  | .write fd buf => ∀ i, entryOf fd = some i → (fs.nodes (fs.fds i).node).content ≠ 0 →
      ((fs.fds i).offset.toNat + buf.length) % word ≠ 0
  | .read _ buf count => ∀ k ≤ count,
      ¬ (table ≤ (buf + k) % word ∧ (buf + k) % word < table + 256 * filedescSize) ∧
      ¬ (fs.heap.heapBase ≤ (buf + k) % word ∧
        (buf + k) % word < fs.heap.heapBase + fs.heap.heapSize)
  | _ => True

/-- A run of calls that all meet `P`, with the table at `table`. -/
inductive FdRun (table : Nat) (P : Fs → FdCall → Prop) : Fs → List FdCall → Fs → Prop
  | nil (fs : Fs) : FdRun table P fs [] fs
  | cons {fs fs' fs'' : Fs} {c : FdCall} {cs : List FdCall} {r : Int} (hP : P fs c)
      (hexec : c.execAt table fs = some (r, fs')) (hrest : FdRun table P fs' cs fs'') :
      FdRun table P fs (c :: cs) fs''

/-! ## What is said of a call -/

/-- An entry is free exactly when it has no node. -/
def Disciplined (fs : Fs) : Prop := ∀ i, (fs.fds i).free = true ↔ (fs.fds i).node = 0

/-- The path is that of a node, or `open` makes one there. -/
def Denotes (fs : Fs) (base : Nat) (path : Path) (flags : BitVec 32) (mode : Nat) : Prop :=
  ∃ n ≠ 0, resolvePathInternal fs base path = some n ∨
    resolvePathInternal fs base path = some 0 ∧ flags &&& oCreat ≠ 0 ∧
      ∃ fs', createAtPathInternal fs base path false mode = some (n, fs')

/-- The first free entry is taken, and nothing else is changed. -/
structure Takes (fs : Fs) (i : Fin 256) (fs' : Fs) : Prop where
  free : (fs.fds i).free = true
  first : ∀ j < i, (fs.fds j).free = false
  used : (fs'.fds i).free = false
  node : (fs'.fds i).node ≠ 0
  others : ∀ j, j ≠ i → fs'.fds j = fs.fds j

/-- `open` in the directory `base`. -/
structure Opens (fs : Fs) (base : Nat) (path : Path) (flags : BitVec 32) (mode : Nat) (r : Int)
    (fs' : Fs) : Prop where
  success : 0 ≤ r → ∃ i : Fin 256, r = i ∧ Takes fs i fs'
  failure : r < 0 → fs'.fds = fs.fds
  full : r = -4 ↔ Denotes fs base path flags mode ∧ ∀ i, (fs.fds i).free = false

/-- The entry of `fd` is free, if there is one, and the others are as before. -/
structure Closes (fs : Fs) (fd : Int) (fs' : Fs) : Prop where
  freed : ∀ i : Fin 256, fd = i → (fs'.fds i).free = true ∧ (fs'.fds i).node = 0
  others : ∀ i : Fin 256, fd ≠ i → fs'.fds i = fs.fds i

/-- The same entries are in use, and for the same nodes. -/
def SameUse (fs fs' : Fs) : Prop :=
  ∀ i, (fs'.fds i).free = (fs.fds i).free ∧ (fs'.fds i).node = (fs.fds i).node

def FdCall.Effect (fs : Fs) (r : Int) (fs' : Fs) : FdCall → Prop
  | .open path flags mode _ => Opens fs fs.cwd path flags mode r fs'
  | .openat dirfd path flags mode => Opens fs (dirOf fs dirfd) path flags mode r fs'
  | .close fd => Closes fs fd fs'
  | _ => SameUse fs fs'

/-! ## Calls that are not about descriptors -/

/-- The table and the working directory are as before. -/
structure SameTable (fs fs' : Fs) : Prop where
  fds : fs'.fds = fs.fds
  cwd : fs'.cwd = fs.cwd

theorem SameTable.refl (fs : Fs) : SameTable fs fs := ⟨rfl, rfl⟩

theorem SameTable.trans {fs'' : Fs} (h : SameTable fs fs') (h' : SameTable fs' fs'') :
    SameTable fs fs'' :=
  ⟨h'.fds.trans h.fds, h'.cwd.trans h.cwd⟩

theorem SameTable.sameUse (h : SameTable fs fs') : SameUse fs fs' := by
  intro i
  rw [h.fds]
  exact ⟨rfl, rfl⟩

theorem appendChild_sameTable {curr child : Nat} (h : appendChild fs curr child = some fs') :
    SameTable fs fs' := by
  unfold appendChild at h
  split_ifs at h
  · obtain rfl := some.inj h
    exact ⟨rfl, rfl⟩
  · obtain ⟨s, -, h⟩ := bind_eq_some_iff.1 h
    obtain rfl := some.inj h
    exact ⟨rfl, rfl⟩

theorem addChild_sameTable {curr c : Nat} {token : Bytes} {isDir : Bool}
    (h : addChild fs curr token isDir mode = some (c, fs')) : SameTable fs fs' := by
  unfold addChild at h
  obtain ⟨⟨child, heap⟩, -, h⟩ := bind_eq_some_iff.1 h
  dsimp only at h
  by_cases h0 : child = 0
  · rw [if_pos h0] at h
    cases h
    exact ⟨rfl, rfl⟩
  · rw [if_neg h0] at h
    obtain ⟨fs1, happ, h⟩ := bind_eq_some_iff.1 h
    cases h
    have hsame := appendChild_sameTable happ
    exact ⟨hsame.fds, hsame.cwd⟩

theorem createLoop_sameTable {isDir : Bool} {toks : Names} :
    ∀ {fs fs' : Fs} {curr n : Nat}, createLoop isDir mode fs curr toks = some (n, fs') →
      SameTable fs fs' := by
  induction toks with
  | nil =>
    intro fs fs' curr n h
    cases h
    exact SameTable.refl fs
  | cons token rest ih =>
    intro fs fs' curr n h
    unfold createLoop at h
    split_ifs at h
    · exact ih h
    · exact ih h
    · obtain ⟨child, -, h⟩ := bind_eq_some_iff.1 h
      by_cases hchild : child ≠ 0
      · rw [if_pos hchild] at h
        exact ih h
      · rw [if_neg hchild] at h
        obtain ⟨⟨c, fs1⟩, hadd, h⟩ := bind_eq_some_iff.1 h
        dsimp only at h
        have hsame := addChild_sameTable hadd
        by_cases hc : c = 0
        · rw [if_pos hc] at h
          cases h
          exact hsame
        · rw [if_neg hc] at h
          exact hsame.trans (ih h)

theorem createAtPathInternal_sameTable {base n : Nat} {path : Path} {isDir : Bool}
    (h : createAtPathInternal fs base path isDir mode = some (n, fs')) : SameTable fs fs' := by
  unfold createAtPathInternal at h
  cases path with
  | none =>
    cases h
    exact SameTable.refl fs
  | some p =>
    simp only at h
    split_ifs at h
    · cases h
      exact SameTable.refl fs
    · exact createLoop_sameTable h

theorem mkdirFrom_sameTable {base : Nat} {path : Path}
    (h : mkdirFrom fs base path mode = some (r, fs')) : SameTable fs fs' := by
  obtain ⟨⟨n, fs1⟩, hmake, h⟩ := map_eq_some_iff.1 h
  have hsame := createAtPathInternal_sameTable hmake
  split_ifs at h
  · cases h
    exact hsame
  · cases h
    exact ⟨hsame.fds, hsame.cwd⟩

theorem freeNode_sameTable (h : freeNode fs n = some fs') : SameTable fs fs' := by
  by_cases hn : n = 0
  · rw [freeNode, if_pos hn] at h
    cases h
    exact SameTable.refl fs
  · rw [freeNode_eq fs hn] at h
    obtain ⟨heap, -, rfl⟩ := map_eq_some_iff.1 h
    exact ⟨rfl, rfl⟩

theorem detach_sameTable {parent : Nat} (h : detach fs parent n = some fs') : SameTable fs fs' := by
  unfold detach at h
  split_ifs at h
  · cases h
    exact ⟨rfl, rfl⟩
  · obtain ⟨s, -, h⟩ := bind_eq_some_iff.1 h
    split_ifs at h <;> cases h <;> exact ⟨rfl, rfl⟩

theorem remove_sameTable (h : remove fs n = some (r, fs')) : SameTable fs fs' := by
  unfold remove at h
  dsimp only at h
  split_ifs at h
  · cases h
    exact SameTable.refl fs
  · obtain ⟨fs1, hdetach, h⟩ := bind_eq_some_iff.1 h
    obtain ⟨fs2, hfree, h⟩ := bind_eq_some_iff.1 h
    cases h
    exact (detach_sameTable hdetach).trans (freeNode_sameTable hfree)

theorem removes_sameTable {path : Path} {refused : Nat → Prop} [DecidablePred refused]
    (h : (resolvePath fs path).bind (fun n =>
      if n = 0 ∨ refused n then some (-1, fs) else remove fs n) = some (r, fs')) :
    SameTable fs fs' := by
  obtain ⟨n, -, h⟩ := bind_eq_some_iff.1 h
  split_ifs at h
  · cases h
    exact SameTable.refl fs
  · exact remove_sameTable h

/-! ## `open` and `close` -/

theorem openFrom_cases {base : Nat} {path : Path} {flags : BitVec 32}
    (h : openFrom fs base path flags mode devpath = some (r, fs')) :
    (Denotes fs base path flags mode ∧ ∃ n ≠ 0, ∃ fs1, SameTable fs fs1 ∧
        (r, fs') = openNode fs1 n flags mode) ∨
      (¬ Denotes fs base path flags mode ∧ (r = -1 ∨ r = -2 ∨ r = -3) ∧ SameTable fs fs') := by
  unfold openFrom at h
  by_cases hp : path = none
  · rw [if_pos hp] at h
    cases h
    subst hp
    refine .inr ⟨?_, .inl rfl, SameTable.refl fs⟩
    rintro ⟨n, hn, hres | ⟨-, -, fs', hmake⟩⟩
    · exact hn (some.inj hres).symm
    · cases hmake
      exact hn rfl
  rw [if_neg hp] at h
  obtain ⟨n, hres, h⟩ := bind_eq_some_iff.1 h
  by_cases hmake : n = 0 ∧ flags &&& oCreat ≠ 0
  · obtain ⟨rfl, hflag⟩ := hmake
    rw [if_pos ⟨rfl, hflag⟩] at h
    obtain ⟨⟨c, fs1⟩, hcreate, h⟩ := bind_eq_some_iff.1 h
    have hsame := createAtPathInternal_sameTable hcreate
    by_cases hc : c = 0
    · rw [if_pos hc] at h
      cases h
      refine .inr ⟨?_, .inr (.inl rfl), hsame⟩
      rintro ⟨n, hn, hres' | ⟨-, -, fs2, hcreate'⟩⟩
      · exact hn (some.inj (hres'.symm.trans hres))
      · rw [hcreate] at hcreate'
        cases hcreate'
        exact hn hc
    · rw [if_neg hc] at h
      obtain ⟨fs2, hdev, h⟩ := map_eq_some_iff.1 h
      refine .inl ⟨⟨c, hc, .inr ⟨hres, hflag, fs1, hcreate⟩⟩, c, hc, fs2, ?_, h.symm⟩
      unfold makeDevice at hdev
      split_ifs at hdev
      · cases hdev
        exact hsame
      · obtain ⟨d, -, rfl⟩ := map_eq_some_iff.1 hdev
        exact ⟨hsame.fds, hsame.cwd⟩
  · rw [if_neg hmake] at h
    by_cases hn : n = 0
    · rw [openNode, if_pos hn] at h
      cases h
      refine .inr ⟨?_, .inr (.inr rfl), SameTable.refl fs⟩
      rintro ⟨m, hm, hres' | ⟨-, hflag, -⟩⟩
      · exact hm (some.inj (hres'.symm.trans (hres.trans (congrArg some hn))))
      · exact hmake ⟨hn, hflag⟩
    · exact .inl ⟨⟨n, hn, .inl hres⟩, n, hn, fs, SameTable.refl fs, (some.inj h).symm⟩

theorem openNode_takes (fs : Fs) (hn : n ≠ 0) (flags : BitVec 32) (mode : Nat) :
    (∃ i : Fin 256, (openNode fs n flags mode).1 = i ∧ Takes fs i (openNode fs n flags mode).2 ∧
        (openNode fs n flags mode).2.cwd = fs.cwd) ∨
      (∀ i, (fs.fds i).free = false) ∧ openNode fs n flags mode = (-4, fs) := by
  rcases openNode_outcome hn flags mode with hfull | ⟨i, hfind, he⟩
  · exact .inr hfull
  · left
    rw [he]
    refine ⟨i, rfl, ⟨by simpa using List.find?_some hfind, ?_, ?_, ?_, ?_⟩, rfl⟩
    · intro j hj
      have hbefore := (List.find?_eq_some_iff_getElem.1 hfind).2
      obtain ⟨k, hk, hki, hall⟩ := hbefore
      rw [List.getElem_finRange] at hki
      have hjk : (j : Nat) < k := by
        have := congrArg Fin.val hki
        simp only [Fin.val_cast] at this
        omega
      simpa using hall j hjk
    · rw [opened_fds, update_self]
    · rw [opened_fds, update_self]
      exact hn
    · intro j hj
      rw [opened_fds, update_of_ne hj]

theorem openFrom_opens {base : Nat} {path : Path} {flags : BitVec 32}
    (h : openFrom fs base path flags mode devpath = some (r, fs')) :
    Opens fs base path flags mode r fs' ∧ fs'.cwd = fs.cwd := by
  obtain ⟨hden, n, hn, fs1, hsame, heq⟩ | ⟨hden, hr, hsame⟩ := openFrom_cases h
  · obtain ⟨i, hri, htakes, hcwd⟩ | ⟨hfull, hno⟩ := openNode_takes fs1 hn flags mode
    · rw [← heq] at hri htakes hcwd
      simp only at hri htakes hcwd
      obtain ⟨hfree, hfirst, hused, hnode, hothers⟩ := htakes
      rw [hsame.fds] at hfree hfirst hothers
      refine ⟨⟨fun _ => ⟨i, hri, hfree, hfirst, hused, hnode, hothers⟩, ?_, ?_⟩,
        hcwd.trans hsame.cwd⟩
      · intro hneg
        omega
      · constructor
        · intro h4
          omega
        · rintro ⟨-, hall⟩
          rw [hall i] at hfree
          exact absurd hfree Bool.false_ne_true
    · rw [hno] at heq
      cases heq
      rw [hsame.fds] at hfull
      refine ⟨⟨fun h0 => absurd h0 (by decide), fun _ => hsame.fds, ?_⟩, hsame.cwd⟩
      exact ⟨fun _ => ⟨hden, hfull⟩, fun _ => rfl⟩
  · refine ⟨⟨?_, fun _ => hsame.fds, ?_⟩, hsame.cwd⟩
    · intro h0
      omega
    · constructor
      · intro h4
        omega
      · exact fun hboth => absurd hboth.1 hden

theorem close_closes (h : close fs fd = some (r, fs')) : Closes fs fd fs' ∧ fs'.cwd = fs.cwd := by
  unfold close at h
  cases he : entryOf fd with
  | none =>
    rw [he] at h
    cases h
    refine ⟨⟨?_, fun _ _ => rfl⟩, rfl⟩
    rintro i rfl
    rw [entryOf_fin] at he
    cases he
  | some i =>
    rw [he] at h
    obtain ⟨fs1, hfree, h⟩ := bind_eq_some_iff.1 h
    cases h
    have hsame := freeNode_sameTable hfree
    have hfd := entryOf_eq_some he
    refine ⟨⟨?_, ?_⟩, hsame.cwd⟩
    · intro j hj
      have hij : j = i := Fin.ext (by omega)
      subst hij
      simp [Fs.setFd]
    · intro j hj
      have hij : j ≠ i := by
        rintro rfl
        exact hj hfd
      simp [Fs.setFd, update_of_ne hij, hsame.fds]

/-! ## Bytes and places -/

theorem SameUse.refl (fs : Fs) : SameUse fs fs := fun _ => ⟨rfl, rfl⟩

theorem sameUse_update {i : Fin 256} {f : Filedesc} (hfds : fs'.fds = update fs.fds i f)
    (hfree : f.free = (fs.fds i).free) (hnode : f.node = (fs.fds i).node) : SameUse fs fs' := by
  intro j
  rw [hfds]
  by_cases hj : j = i
  · subst hj
    rw [update_self]
    exact ⟨hfree, hnode⟩
  · rw [update_of_ne hj]
    exact ⟨rfl, rfl⟩

theorem read_sameUse {buf count : Nat} {stored : Bytes}
    (h : read fs fd buf count = some (r, stored, fs')) : SameUse fs fs' ∧ fs'.cwd = fs.cwd := by
  rcases read_cases h with ⟨-, -, rfl, -⟩ | ⟨i, k, -, -, hd⟩
  · exact ⟨SameUse.refl fs', rfl⟩
  · rw [hd.state]
    exact ⟨sameUse_update (i := i) rfl rfl rfl, rfl⟩

theorem write_sameUse {buf : Bytes} (h : write fs fd buf = some (r, fs')) :
    SameUse fs fs' ∧ fs'.cwd = fs.cwd := by
  rcases write_inv h with ⟨-, rfl⟩ | ⟨i, tmp, heap, -, -, -, ⟨-, rfl⟩ | ⟨-, -, rfl⟩⟩
  · exact ⟨SameUse.refl fs', rfl⟩
  · exact ⟨SameUse.refl fs, rfl⟩
  · exact ⟨sameUse_update (i := i) rfl rfl rfl, rfl⟩

theorem lseek_sameUse (fs : Fs) (fd : Int) (offset : BitVec 64) (whence : Int) :
    SameUse fs (lseek fs fd offset whence).2 ∧ (lseek fs fd offset whence).2.cwd = fs.cwd := by
  rcases lseek_cases fs fd offset whence with he | ⟨i, o, -, -, he⟩
  · rw [he]
    exact ⟨SameUse.refl fs, rfl⟩
  · rw [he]
    exact ⟨sameUse_update (i := i) rfl rfl rfl, rfl⟩

theorem ftruncate_sameUse {length : BitVec 64} (h : ftruncate fs fd length = some (r, fs')) :
    SameUse fs fs' ∧ fs'.cwd = fs.cwd := by
  unfold ftruncate at h
  cases he : entryOf fd with
  | none =>
    rw [he] at h
    cases h
    exact ⟨SameUse.refl fs, rfl⟩
  | some i =>
    rw [he] at h
    simp only at h
    split_ifs at h
    · cases h
      exact ⟨SameUse.refl fs, rfl⟩
    · obtain ⟨⟨tmp, heap⟩, -, h⟩ := bind_eq_some_iff.1 h
      simp only at h
      split_ifs at h
      · cases h
        exact ⟨SameUse.refl fs, rfl⟩
      · cases h
        exact ⟨sameUse_update (i := i) rfl rfl rfl, rfl⟩
    · obtain ⟨⟨tmp, heap⟩, -, h⟩ := bind_eq_some_iff.1 h
      simp only at h
      split_ifs at h <;>
      · cases h
        exact ⟨SameUse.refl fs, rfl⟩
    · cases h
      exact ⟨SameUse.refl fs, rfl⟩

/-! ## Runs -/

theorem FdCall.exec_effect (h : c.exec fs = some (r, fs')) :
    c.Effect fs r fs' ∧ fs'.cwd = fs.cwd := by
  cases c with
  | «open» path flags mode devpath =>
    rw [FdCall.exec, open_eq] at h
    exact openFrom_opens h
  | openat dirfd path flags mode =>
    rw [FdCall.exec, openat_eq] at h
    exact openFrom_opens h
  | close fd => exact close_closes h
  | read fd buf count =>
    obtain ⟨⟨v, stored, fs1⟩, hread, heq⟩ := map_eq_some_iff.1 h
    cases heq
    exact read_sameUse hread
  | write fd buf => exact write_sameUse h
  | lseek fd offset whence =>
    have hseek := lseek_sameUse fs fd offset whence
    rw [some.inj h] at hseek
    exact hseek
  | ftruncate fd length => exact ftruncate_sameUse h
  | mkdir path mode =>
    rw [FdCall.exec, mkdir_eq] at h
    have hsame := mkdirFrom_sameTable h
    exact ⟨hsame.sameUse, hsame.cwd⟩
  | mkdirat dirfd path mode =>
    rw [FdCall.exec, mkdirat_eq] at h
    have hsame := mkdirFrom_sameTable h
    exact ⟨hsame.sameUse, hsame.cwd⟩
  | unlink path =>
    have hsame := removes_sameTable h
    exact ⟨hsame.sameUse, hsame.cwd⟩
  | rmdir path =>
    have hsame := removes_sameTable h
    exact ⟨hsame.sameUse, hsame.cwd⟩

theorem SameUse.disciplined (h : SameUse fs fs') (hd : Disciplined fs) : Disciplined fs' := by
  intro i
  rw [(h i).1, (h i).2]
  exact hd i

theorem Opens.disciplined {base : Nat} {path : Path} {flags : BitVec 32}
    (h : Opens fs base path flags mode r fs') (hd : Disciplined fs) : Disciplined fs' := by
  intro j
  rcases lt_or_ge r 0 with hr | hr
  · rw [h.failure hr]
    exact hd j
  · obtain ⟨i, -, htakes⟩ := h.success hr
    by_cases hj : j = i
    · subst hj
      rw [htakes.used]
      simp [htakes.node]
    · rw [htakes.others j hj]
      exact hd j

theorem Closes.disciplined (h : Closes fs fd fs') (hd : Disciplined fs) : Disciplined fs' := by
  intro i
  by_cases hi : fd = i
  · obtain ⟨hfree, hnode⟩ := h.freed i hi
    exact ⟨fun _ => hnode, fun _ => hfree⟩
  · rw [h.others i hi]
    exact hd i

theorem FdCall.exec_disciplined (h : c.exec fs = some (r, fs')) (hd : Disciplined fs) :
    Disciplined fs' := by
  have heffect := (FdCall.exec_effect h).1
  cases c with
  | «open» => exact Opens.disciplined heffect hd
  | openat => exact Opens.disciplined heffect hd
  | close => exact Closes.disciplined heffect hd
  | _ => exact SameUse.disciplined heffect hd

theorem storeBytes_outside {table : Nat} {bytes : Bytes} : ∀ {a : Nat},
    (∀ k < bytes.length, ¬ (table ≤ (a + k) % word ∧
      (a + k) % word < table + 256 * filedescSize)) → storeBytes table fs a bytes = fs := by
  induction bytes with
  | nil => exact fun _ => rfl
  | cons b bytes ih =>
    intro a hout
    have hhead := hout 0 (Nat.succ_pos _)
    rw [Nat.add_zero] at hhead
    rw [storeBytes, storeByte, dif_neg hhead]
    refine ih fun k hk => ?_
    rw [Nat.add_assoc, Nat.add_comm 1]
    exact hout (k + 1) (Nat.succ_lt_succ hk)

theorem readAt_delivered {table buf count k : Nat} {stored : Bytes} {i : Fin 256}
    (hread : read fs fd buf count = some ((k : Int), stored, fs')) (he : entryOf fd = some i) :
    readAt table fs fd buf count = some ((k : Int), (storeBytes table fs buf stored).setFd i fun f =>
      { f with offset := f.offset + BitVec.ofNat 64 k }) := by
  simp [readAt, hread, he]

theorem FdCall.execAt_eq {table : Nat} (hown : c.Owned table fs) :
    c.execAt table fs = c.exec fs := by
  cases c with
  | read fd buf count =>
    change readAt table fs fd buf count = (Tmpfs.read fs fd buf count).map fun r => (r.1, r.2.2)
    cases hread : Tmpfs.read fs fd buf count with
    | none => simp [readAt, hread]
    | some res =>
      obtain ⟨r, stored, fs'⟩ := res
      obtain ⟨rfl, rfl, rfl, -⟩ | ⟨i, k, he, rfl, hd⟩ := read_cases hread
      · cases he : entryOf fd <;> simp [readAt, hread, he, storeBytes]
      · have hlen : stored.length ≤ k + 1 := by
          rw [hd.stored, List.length_append, List.length_map, List.length_range]
          split_ifs <;> simp
        have hk : k ≤ count := by
          rw [hd.count]
          exact Nat.min_le_left _ _
        have hout : storeBytes table fs buf stored = fs :=
          storeBytes_outside fun j hj => (hown j (by omega)).1
        rw [readAt_delivered hread he, hout, ← hd.state, Option.map_some]
  | _ => rfl

theorem FdRun.disciplined {table : Nat} {cs : List FdCall}
    (h : FdRun table (FdCall.Owned table) fs cs fs') (hd : Disciplined fs) : Disciplined fs' := by
  induction h with
  | nil fs => exact hd
  | cons hown hexec _ ih =>
    rw [FdCall.execAt_eq hown] at hexec
    exact ih (FdCall.exec_disciplined hexec hd)

end Terrakernel.Tmpfs
