import Terrakernel.Tmpfs.Failures

/-!
# `pread` and `pwrite`

Neither looks at the index of the descriptor, nor at what the seek says. So the table is modelled
here with what lies around it.
-/

namespace Terrakernel.Tmpfs

open Memory Vmm Links Heap Function Option

/-- `outside k` is the word where entry `k` would have its offset, for an index outside the table.
It is `none` where the processor cannot reach it. `touched` are the entries used without a check. -/
structure Raw where
  fs : Fs
  outside : Int → Option (BitVec 64)
  touched : List Int

/-- `read`, with the value and the stored bytes as one result. -/
def readInto (fd : Int) (buf count : Nat) (fs : Fs) : Option ((Int × Bytes) × Fs) := do
  let (ret, stored, fs) ← read fs fd buf count
  some ((ret, stored), fs)

namespace Raw

-- `ftable.fd[fd].offset`
def getOffset (s : Raw) (fd : Int) : Option (BitVec 64 × Raw) := do
  let offset ← (match entryOf fd with
    | some i => some (s.fs.fds i).offset
    | none => s.outside fd)
  some (offset, { s with touched := s.touched ++ [fd] })

-- `ftable.fd[fd].offset = offset`
def setOffset (s : Raw) (fd : Int) (offset : BitVec 64) : Option Raw :=
  let s := { s with touched := s.touched ++ [fd] }
  match entryOf fd with
  | some i => some { s with fs := s.fs.setFd i fun f => { f with offset } }
  | none =>
    if s.outside fd = none then none
    else some { s with outside := update s.outside fd (some offset) }

/-- `pread` and `pwrite` around the call that transfers. -/
def positioned {ρ : Type} (call : Fs → Option (ρ × Fs)) (s : Raw) (fd : Int) (offset : BitVec 64) :
    Option (ρ × Raw) := do
  let (orig, s) ← s.getOffset fd
  let (_, fs) := lseek s.fs fd offset 0
  let (ret, fs) ← call fs
  let s ← setOffset { s with fs } fd orig
  some (ret, s)

def pread (s : Raw) (fd : Int) (buf count : Nat) (offset : BitVec 64) :
    Option ((Int × Bytes) × Raw) :=
  positioned (readInto fd buf count) s fd offset

def pwrite (s : Raw) (fd : Int) (buf : Bytes) (offset : BitVec 64) : Option (Int × Raw) :=
  positioned (fun fs => Tmpfs.write fs fd buf) s fd offset

section Positioned

variable {ρ : Type} {call : Fs → Option (ρ × Fs)} {s : Raw} {fd : Int} {i : Fin 256}
  {offset : BitVec 64}

theorem positioned_inside (he : entryOf fd = some i) :
    positioned call s fd offset = (call (lseek s.fs fd offset 0).2).map fun r =>
      (r.1, ⟨r.2.setFd i fun f => { f with offset := (s.fs.fds i).offset }, s.outside,
        s.touched ++ [fd] ++ [fd]⟩) := by
  unfold positioned getOffset setOffset
  simp only [he, bind_eq_bind, bind_some]
  cases call (lseek s.fs fd offset 0).2 <;> rfl

theorem positioned_outside (he : entryOf fd = none) {v : BitVec 64} (hv : s.outside fd = some v) :
    positioned call s fd offset = (call s.fs).map fun r =>
      (r.1, ⟨r.2, s.outside, s.touched ++ [fd] ++ [fd]⟩) := by
  have hseek : lseek s.fs fd offset 0 = (-1, s.fs) := by
    unfold lseek
    simp only [he]
  have hback : update s.outside fd (some v) = s.outside := by
    rw [← hv, update_eq_self]
  unfold positioned getOffset setOffset
  simp only [he, hv, hseek, bind_eq_bind, bind_some]
  cases call s.fs with
  | none => rfl
  | some r => simp [hback]

theorem positioned_fault (he : entryOf fd = none) (hv : s.outside fd = none) :
    positioned call s fd offset = none := by
  unfold positioned getOffset
  simp [he, hv]

end Positioned

end Raw

theorem raw_pread_eq {s : Raw} {fd : Int} {i : Fin 256} (he : entryOf fd = some i) (buf count : Nat)
    (offset : BitVec 64) :
    (s.pread fd buf count offset).map (fun r => (r.1.1, r.1.2, r.2.fs)) =
      pread s.fs fd buf count offset := by
  unfold Raw.pread Tmpfs.pread readInto
  rw [Raw.positioned_inside he]
  simp only [he, bind_eq_bind, Option.map_map]
  cases read (lseek s.fs fd offset 0).2 fd buf count <;> rfl

/-! ## What is asked of the two calls -/

/-- The descriptor is outside the table or not open, or the offset is negative. -/
def Invalid (fs : Fs) (fd : Int) (offset : BitVec 64) : Prop :=
  (∀ i, entryOf fd = some i → (fs.fds i).node = 0) ∨ offset.toInt < 0

/-- Invalid arguments are refused, with nothing changed and nothing used outside the table. With
others the call transfers what `call` does at that offset, and the descriptor stays where it was. -/
structure Checked {ρ : Type} (call : Fs → Option (ρ × Fs)) (refused : ρ) (s : Raw) (fd : Int)
    (offset : BitVec 64) : Prop where
  invalid : Invalid s.fs fd offset → ∃ touched,
    Raw.positioned call s fd offset = some (refused, { s with touched }) ∧
      ∀ k ∈ touched, k ∈ s.touched ∨ 0 ≤ k ∧ k < 256
  valid : ∀ i, entryOf fd = some i → (s.fs.fds i).node ≠ 0 → 0 ≤ offset.toInt →
    (Raw.positioned call s fd offset).map (fun r => (r.1, r.2.fs)) =
      (call (s.fs.setFd i fun f => { f with offset })).map fun r =>
        (r.1, r.2.setFd i fun f => { f with offset := (s.fs.fds i).offset })

/-- The descriptor is in the table, and the offset is not negative where there is a file. -/
def Accepted (fs : Fs) (fd : Int) (offset : BitVec 64) : Prop :=
  ∃ i, entryOf fd = some i ∧ (notFile fs (fs.fds i) = true ∨ 0 ≤ offset.toInt)

section Checked

variable {ρ : Type} {call : Fs → Option (ρ × Fs)} {refused : ρ} {s : Raw} {fd : Int}
  {offset : BitVec 64}

theorem lseek_invalid {fs : Fs} (h : Invalid fs fd offset) : (lseek fs fd offset 0).2 = fs := by
  unfold lseek
  cases he : entryOf fd with
  | none => rfl
  | some i =>
    simp only [if_true]
    rcases h with h | h
    · rw [if_pos (h i he)]
    · split_ifs <;> rfl

theorem setFd_offset (fs : Fs) (i : Fin 256) :
    (fs.setFd i fun f => { f with offset := (fs.fds i).offset }) = fs := by
  simp [Fs.setFd]

variable (hrefuse : (∀ i, entryOf fd = some i → notFile s.fs (s.fs.fds i) = true) →
  call s.fs = some (refused, s.fs))

include hrefuse

theorem Checked.accepted (h : Checked call refused s fd offset)
    (hfile : ∀ i, entryOf fd = some i → notFile s.fs (s.fs.fds i) = false →
      ∀ fs', call s.fs = some (refused, fs') → fs'.heap ≠ s.fs.heap) (hnew : fd ∉ s.touched) :
    Accepted s.fs fd offset := by
  cases he : entryOf fd with
  | none =>
    -- The word outside the table is used, or the machine stops.
    have hnone : ∀ {P : Fin 256 → Prop} i, entryOf fd = some i → P i :=
      fun i hi => by simp [he] at hi
    obtain ⟨touched, hrun, htouched⟩ := h.invalid (Or.inl hnone)
    cases hv : s.outside fd with
    | none =>
      rw [Raw.positioned_fault he hv] at hrun
      cases hrun
    | some v =>
      rw [Raw.positioned_outside he hv, hrefuse hnone] at hrun
      obtain rfl : s.touched ++ [fd] ++ [fd] = touched := by simpa using hrun
      have hin := (htouched fd (by simp)).resolve_left hnew
      simp [entryOf, hin] at he
  | some i =>
    refine ⟨i, he, ?_⟩
    by_contra hno
    rw [not_or, Bool.not_eq_true, Int.not_le] at hno
    obtain ⟨touched, hrun, -⟩ := h.invalid (Or.inr hno.2)
    rw [Raw.positioned_inside he, lseek_invalid (Or.inr hno.2), map_eq_some_iff] at hrun
    obtain ⟨⟨ret, fs'⟩, hcall, hpair⟩ := hrun
    obtain ⟨rfl, hraw⟩ := Prod.mk.inj hpair
    exact hfile i he hno.1 fs' hcall (congrArg (fun r : Raw => r.fs.heap) hraw)

theorem Accepted.checked (h : Accepted s.fs fd offset) : Checked call refused s fd offset := by
  obtain ⟨i, he, hok⟩ := h
  constructor
  · intro hinvalid
    have hno : notFile s.fs (s.fs.fds i) = true := by
      rcases hinvalid with h0 | hneg
      · simp [notFile, h0 i he]
      · exact hok.resolve_right (by omega)
    refine ⟨s.touched ++ [fd] ++ [fd], ?_, ?_⟩
    · rw [Raw.positioned_inside he, lseek_invalid hinvalid, hrefuse fun j hj => by simp_all]
      simp [setFd_offset]
    · intro k hk
      have hfd := entryOf_eq_some he
      have hlt := i.isLt
      rw [List.append_assoc, List.mem_append] at hk
      rcases hk with hk | hk
      · exact .inl hk
      · obtain rfl : k = fd := by simpa using hk
        right
        omega
  · intro j hj h0 hpos
    obtain rfl : i = j := by simpa [he] using hj
    rw [Raw.positioned_inside he, lseek_set he h0]
    simp [position, Int.not_lt.mpr hpos, comp_def]

end Checked

/-! ## Both calls -/

theorem read_refused {fs : Fs} {fd : Int} {buf count : Nat}
    (h : ∀ i, entryOf fd = some i → notFile fs (fs.fds i) = true) :
    read fs fd buf count = some (-1, [], fs) := by
  unfold read
  cases he : entryOf fd with
  | none => rfl
  | some i => simp only [h i he, if_true]

theorem read_file_ne {fs fs' : Fs} {fd : Int} {i : Fin 256} {buf count : Nat} {stored : Bytes}
    (he : entryOf fd = some i) (hfile : notFile fs (fs.fds i) = false) :
    read fs fd buf count ≠ some (-1, stored, fs') := by
  intro hrun
  rcases read_cases hrun with ⟨-, -, -, hno⟩ | ⟨j, k, -, hr, -⟩
  · simp [hno i he] at hfile
  · omega

section WriteFails

variable {fs fs' : Fs} {bs : List Blk} {fd : Int} {i : Fin 256} {buf : Bytes}

theorem length_toInt_ne {a : Nat} (hacc : 0 < buf.length → accessible a buf.length = true) :
    (BitVec.ofNat 64 buf.length).toInt ≠ -1 := by
  have hword : word = 2 ^ 64 := rfl
  have hbase : 2 ^ 63 ≤ directBase := by decide
  rw [accessible_iff] at hacc
  rw [BitVec.toInt_eq_toNat_cond, BitVec.toNat_ofNat]
  omega

theorem write_unserved {tmp : Nat} {heap : Heap} (he : entryOf fd = some i)
    (hfile : notFile fs (fs.fds i) = false)
    (hgrow : grow fs.heap (fs.nodes (fs.fds i).node).content
      ((fs.fds i).offset + BitVec.ofNat 64 buf.length).toNat = some (tmp, heap))
    (hrun : write fs fd buf = some (-1, fs')) :
    tmp = 0 ∧ (fs.nodes (fs.fds i).node).content ≠ 0 ∧ fs'.heap = heap := by
  rw [write_eq he hfile hgrow] at hrun
  split_ifs at hrun with hnull hacc
  · cases hrun
    exact ⟨hnull.1, hnull.2, rfl⟩
  · rw [not_and, Bool.not_eq_false] at hacc
    exact absurd (Prod.mk.inj (some.inj hrun)).1 (length_toInt_ne hacc)

theorem write_file_ne (hs : Sound fs.heap bs) (hcontent : (fs.nodes (fs.fds i).node).content ≠ 0 →
      (fs.nodes (fs.fds i).node).content ∈ used bs) (he : entryOf fd = some i)
    (hfile : notFile fs (fs.fds i) = false) (hrun : write fs fd buf = some (-1, fs')) :
    fs'.heap ≠ fs.heap := by
  by_cases hnull : (fs.nodes (fs.fds i).node).content = 0
  · obtain ⟨p, heap, -, hmalloc, -⟩ :=
      malloc_cases hs ((fs.fds i).offset + BitVec.ofNat 64 buf.length).toNat
    have hfail := write_unserved he hfile (by rw [grow, if_pos hnull, hmalloc]) hrun
    exact absurd hnull hfail.2.1
  rcases Nat.eq_zero_or_pos ((fs.fds i).offset + BitVec.ofNat 64 buf.length).toNat with hzero | hpos
  · obtain ⟨heap, hgrow, hbefore, hafter⟩ := grow_nothing hs (hcontent hnull)
    have hfail := write_unserved he hfile (by rw [hzero, hgrow]) hrun
    intro heq
    rw [← hfail.2.2, heq] at hafter
    exact hafter hbefore
  · obtain ⟨q, heap, hgrow, hcases⟩ := grow_cases hs hcontent hpos
    have hfail := write_unserved he hfile hgrow hrun
    rcases hcases with ⟨-, -, hlog, -⟩ | ⟨-, hq, -⟩
    · intro heq
      rw [← hfail.2.2, heq] at hlog
      exact lt_irrefl _ hlog
    · exact absurd hfail.1 hq

end WriteFails

/-- When `pread` and `pwrite` refuse what is invalid and are `read` and `write` at their offset. A
block that was given back can be freed once more without a trace, so the last part leaves it out. -/
theorem positioned_checked_iff (fs : Fs) (fd : Int) (offset : BitVec 64)
    (outside : Int → Option (BitVec 64)) (buf count : Nat) (data : Bytes) :
    (Checked (readInto fd buf count) (-1, []) ⟨fs, outside, []⟩ fd offset ↔ Accepted fs fd offset) ∧
      (Accepted fs fd offset →
        Checked (fun fs => write fs fd data) (-1) ⟨fs, outside, []⟩ fd offset) ∧
      ∀ bs, Sound fs.heap bs →
        (∀ i, entryOf fd = some i → (fs.nodes (fs.fds i).node).content ≠ 0 →
          (fs.nodes (fs.fds i).node).content ∈ used bs) →
        Checked (fun fs => write fs fd data) (-1) ⟨fs, outside, []⟩ fd offset →
        Accepted fs fd offset := by
  have hread : (∀ i, entryOf fd = some i → notFile fs (fs.fds i) = true) →
      readInto fd buf count fs = some ((-1, []), fs) := by
    intro hno
    simp only [readInto, read_refused hno, bind_eq_bind, bind_some]
  refine ⟨⟨fun h => h.accepted hread ?_ List.not_mem_nil, fun h => h.checked hread⟩,
    fun h => h.checked write_refused, fun bs hs hcontent h => ?_⟩
  · intro i he hfile fs' hrun
    obtain ⟨⟨ret, stored, fs''⟩, hread, heq⟩ := bind_eq_some_iff.mp hrun
    cases heq
    exact absurd hread (read_file_ne he hfile)
  · exact h.accepted write_refused (fun i he hfile fs' hrun =>
      write_file_ne hs (hcontent i he) he hfile hrun) List.not_mem_nil

theorem positioned_checked_iff_second :
    ∃ (fs1 fs2 fs3 fs : Fs) (i : Fin 256), initialise blank = some fs1 ∧
      Tmpfs.open fs1 slashF oCreat 0o644 none = some ((i : Int), fs2) ∧
      write fs2 i [0x41, 0x42, 0x43] = some (3, fs3) ∧ lseek fs3 i 0 0 = (0, fs) ∧
      Checked (readInto i 0x1000 2) (-1, []) ⟨fs, fun _ => none, []⟩ i 1 ∧
      Checked (fun fs => write fs i [0x44]) (-1) ⟨fs, fun _ => none, []⟩ i 1 := by
  obtain ⟨fs1, fs2, fs3, fs, i, -, hinit, hopen, hwrite, hseek, -⟩ := blank_rewound
  have hiff := positioned_checked_iff fs i 1 (fun _ => none) 0x1000 2 [0x44]
  have hok : Accepted fs i 1 := ⟨i, entryOf_fin i, .inr (by decide)⟩
  exact ⟨fs1, fs2, fs3, fs, i, hinit, hopen, hwrite, hseek, hiff.1.mpr hok, hiff.2.1 hok⟩

/-- At offset -1 two bytes are read from the current offset. A `pwrite` to descriptor 256 uses the
word behind the table twice. -/
theorem pread_at_minus_one :
    ∃ (fs1 fs2 fs3 fs4 : Fs) (i : Fin 256) (stored : Bytes) (s : Raw),
      initialise blank = some fs1 ∧
      Tmpfs.open fs1 slashF oCreat 0o644 none = some ((i : Int), fs2) ∧
      write fs2 i [0x41, 0x42, 0x43] = some (3, fs3) ∧ lseek fs3 i 0 0 = (0, fs4) ∧
      Raw.pread ⟨fs4, fun _ => some 7, []⟩ i 0x1000 2 (-1) = some ((2, stored), s) ∧
      stored.take 2 = [0x41, 0x42] ∧
      Raw.pwrite ⟨fs4, fun _ => some 7, []⟩ 256 [0x44] 0 =
        some (-1, ⟨fs4, fun _ => some 7, [256, 256]⟩) ∧
      ¬ Checked (readInto i 0x1000 2) (-1, []) ⟨fs4, fun _ => some 7, []⟩ i (-1) ∧
      ¬ Checked (fun fs => write fs 256 [0x44]) (-1) ⟨fs4, fun _ => some 7, []⟩ 256 0 := by
  obtain ⟨fs1, fs2, fs3, fs4, i, bs, hinit, hopen, hwrite, hseek, h, hoffset⟩ := blank_rewound
  obtain ⟨k, stored, fs5, hrun, hk, hstored, -⟩ := h.read (by rw [hoffset]; decide) 0x1000 2
  rw [hoffset] at hk hstored
  obtain rfl : k = 2 := hk
  have hread : readInto i 0x1000 2 fs4 = some ((2, stored), fs5) := by
    simp only [readInto, hrun, bind_eq_bind, bind_some]
    rfl
  have hpread := @Raw.positioned_inside _ (readInto i 0x1000 2) ⟨fs4, fun _ => some 7, []⟩ i i (-1)
    (entryOf_fin i)
  rw [lseek_invalid (Or.inr (by decide)), hread, map_some] at hpread
  have hpwrite : Raw.pwrite ⟨fs4, fun _ => some 7, []⟩ 256 [0x44] 0 =
      some (-1, ⟨fs4, fun _ => some 7, [256, 256]⟩) := by
    unfold Raw.pwrite
    rw [Raw.positioned_outside (by decide) rfl,
      write_refused (by simp [show entryOf 256 = none by decide])]
    rfl
  refine ⟨fs1, fs2, fs3, fs4, i, stored, _, hinit, hopen, hwrite, hseek, hpread, hstored, hpwrite,
    ?_, ?_⟩
  · intro h
    obtain ⟨touched, hrefused, -⟩ := h.invalid (Or.inr (by decide))
    rw [hpread] at hrefused
    exact absurd (congrArg (fun r => r.map fun r => r.1.1) hrefused) (by simp)
  · intro h
    have hnone : entryOf 256 = none := by decide
    obtain ⟨touched, hrefused, hin⟩ := h.invalid (Or.inl (by simp [hnone]))
    obtain rfl : [256, 256] = touched := by
      simpa using hpwrite.symm.trans hrefused
    exact absurd (hin 256 (by simp)) (by simp)

end Terrakernel.Tmpfs
