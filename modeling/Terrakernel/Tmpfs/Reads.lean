import Terrakernel.Tmpfs.Chunks

/-!
# What a read takes and what it stores

`read` subtracts the offset from the size, whichever is larger, and puts a zero behind the bytes.
-/

namespace Terrakernel.Tmpfs

open Memory Mem Vmm Heap Function Option

/-! ## The bytes -/

/-- The bytes `[o, o + k)` of a file, at the addresses that pointers have. -/
def dataAt (fs : Fs) (n o k : Nat) : Bytes :=
  (List.range k).map fun j => fs.heap.mem (((fs.nodes n).content + (o + j)) % word)

/-- What is left of the file is read, but not more than `count` bytes. -/
structure GivesData (fs : Fs) (i : Fin 256) (count : Nat) (r : Int) (stored : Bytes) : Prop where
  value : r = (min count ((fs.nodes (fs.fds i).node).size - (fs.fds i).offset.toNat) : Nat)
  bytes : stored.take r.toNat = dataAt fs (fs.fds i).node (fs.fds i).offset.toNat r.toNat

section Delivers

variable {fs fs' : Fs} {i : Fin 256} {buf count k : Nat} {stored : Bytes}
  (h : Delivers fs i buf count k stored fs')

include h

theorem Delivers.take_eq :
    stored.take k = dataAt fs (fs.fds i).node (fs.fds i).offset.toNat k := by
  rw [h.stored, List.take_left' (by simp)]
  apply List.map_congr_left
  intro j hj
  have hjk := List.mem_range.mp hj
  have hacc := (accessible_iff _ _).mp (h.access (by omega))
  have hlt : ((fs.nodes (fs.fds i).node).content + (fs.fds i).offset.toNat) % word + j < word := by
    simp only [word] at hacc ⊢
    omega
  rw [← Nat.add_assoc]
  exact congrArg _ ((Nat.mod_eq_of_lt hlt).symm.trans (Nat.mod_add_mod _ _ _))

theorem Delivers.count_eq (hsize : (fs.nodes (fs.fds i).node).size < word)
    (ho : (fs.fds i).offset.toNat ≤ (fs.nodes (fs.fds i).node).size) :
    k = min count ((fs.nodes (fs.fds i).node).size - (fs.fds i).offset.toNat) := by
  rw [h.count, Nat.sub_add_comm ho, Nat.add_mod_right, Nat.mod_eq_of_lt (by omega)]

theorem Delivers.count_pos (ho : (fs.nodes (fs.fds i).node).size < (fs.fds i).offset.toNat)
    (hcount : 0 < count) : 0 < k := by
  have hlt := (fs.fds i).offset.isLt
  have hmod : ((fs.nodes (fs.fds i).node).size + word - (fs.fds i).offset.toNat) % word =
      (fs.nodes (fs.fds i).node).size + word - (fs.fds i).offset.toNat :=
    Nat.mod_eq_of_lt (by simp only [word]; omega)
  rw [h.count, hmod]
  simp only [word]
  omega

theorem Delivers.givesData_iff (hsize : (fs.nodes (fs.fds i).node).size < word) :
    GivesData fs i count k stored ↔
      (fs.fds i).offset.toNat ≤ (fs.nodes (fs.fds i).node).size ∨ count = 0 := by
  constructor
  · intro hg
    by_contra hno
    rw [not_or, Nat.not_le] at hno
    have hpos := h.count_pos hno.1 (by omega)
    have hvalue := hg.value
    rw [Nat.sub_eq_zero_of_le (by omega), Nat.min_zero] at hvalue
    omega
  · intro hcond
    refine ⟨?_, h.take_eq⟩
    rcases hcond with ho | rfl
    · exact_mod_cast h.count_eq hsize ho
    · have := h.count
      rw [Nat.zero_min] at this ⊢
      exact_mod_cast this

end Delivers

/-- A read that succeeds gives the bytes of the file, exactly where the offset is not beyond the
end or nothing is asked for. -/
theorem read_gives_data_iff {fs fs' : Fs} {fd r : Int} {buf count : Nat} {stored : Bytes}
    (hsize : ∀ i, entryOf fd = some i → (fs.nodes (fs.fds i).node).size < word)
    (hrun : read fs fd buf count = some (r, stored, fs')) :
    (r = -1 ∧ ∀ i, entryOf fd = some i → notFile fs (fs.fds i) = true) ∨
      ∃ i, entryOf fd = some i ∧ 0 ≤ r ∧
        (GivesData fs i count r stored ↔
          (fs.fds i).offset.toNat ≤ (fs.nodes (fs.fds i).node).size ∨ count = 0) := by
  rcases read_cases hrun with ⟨hr, -, -, hno⟩ | ⟨i, k, he, rfl, hd⟩
  · exact .inl ⟨hr, hno⟩
  · exact .inr ⟨i, he, Int.natCast_nonneg k, hd.givesData_iff (hsize i he)⟩

theorem blank_rewound :
    ∃ (fs1 fs2 fs3 fs4 : Fs) (i : Fin 256) (bs : List Blk), initialise blank = some fs1 ∧
      Tmpfs.open fs1 slashF oCreat 0o644 none = some ((i : Int), fs2) ∧
      write fs2 i [0x41, 0x42, 0x43] = some (3, fs3) ∧ lseek fs3 i 0 0 = (0, fs4) ∧
      Filled i fs4 bs [0x41, 0x42, 0x43] ∧ (fs4.fds i).offset = 0 := by
  obtain ⟨fs1, i, c, fs2, fs3, bs3, hinit, -, hopen, hwrite, -, -, -, -, hfilled, -⟩ :=
    @blank_data [0x41, 0x42, 0x43] (by decide) (by decide)
  refine ⟨fs1, fs2, fs3, _, i, bs3, hinit, hopen, hwrite, hfilled.lseek_position (by decide),
    hfilled.setFd 0, ?_⟩
  simp only [Fs.setFd, update_self]

theorem read_gives_data_iff_file :
    ∃ (fs fs' : Fs) (i : Fin 256) (stored : Bytes), read fs i 0x1000 2 = some (2, stored, fs') ∧
      GivesData fs i 2 2 stored := by
  obtain ⟨-, -, -, fs, i, bs, -, -, -, -, h, hoffset⟩ := blank_rewound
  obtain ⟨k, stored, fs', hrun, hk, -⟩ := h.read (by rw [hoffset]; decide) 0x1000 2
  rw [hoffset] at hk
  obtain rfl : k = 2 := hk
  refine ⟨fs, fs', i, stored, hrun, ?_⟩
  have hsize : ∀ j, entryOf i = some j → (fs.nodes (fs.fds j).node).size < word := by
    simp only [entryOf_fin, some.injEq, forall_eq', h.size]
    decide
  rcases read_gives_data_iff hsize hrun with ⟨hr, -⟩ | ⟨j, hj, -, hiff⟩
  · exact absurd hr (by decide)
  · rw [entryOf_fin] at hj
    obtain rfl := some.inj hj
    exact hiff.mpr (Or.inl (by rw [hoffset]; exact Nat.zero_le _))

/-- Beyond the end of an empty file, three bytes from the address of the program. -/
theorem read_beyond_end :
    ∃ (fs1 fs2 fs3 fs4 : Fs) (i : Fin 256) (stored : Bytes), initialise blank = some fs1 ∧
      Tmpfs.open fs1 slashF oCreat 0o644 none = some ((i : Int), fs2) ∧
      lseek fs2 i 0x400000 0 = (0x400000, fs3) ∧ (fs3.nodes (fs3.fds i).node).size = 0 ∧
      read fs3 i 0x1000 3 = some (3, stored, fs4) := by
  obtain ⟨fs1, i, c, fs2, bs2, hinit, -, hopen, -, -, -, hnode, hempty, -, hcontent, -⟩ :=
    blank_empty
  have h3 := hempty.setFd 0x400000
  have hfd : (fs2.setFd i fun f => { f with offset := 0x400000 }).fds i =
      { fs2.fds i with offset := 0x400000 } := by
    simp only [Fs.setFd, update_self]
  have hnull : ((fs2.setFd i fun f => { f with offset := 0x400000 }).nodes (fs2.fds i).node).content =
      0 := hnode ▸ hcontent
  have hsize := h3.size
  have hfile := h3.file
  rw [hfd] at hsize hfile
  have hread : ∃ stored fs4, read (fs2.setFd i fun f => { f with offset := 0x400000 }) i 0x1000 3 =
      some (3, stored, fs4) := by
    unfold read
    simp only [entryOf_fin, hfd, hfile, hsize, hnull, Bool.false_eq_true, if_false]
    exact ⟨_, _, rfl⟩
  obtain ⟨stored, fs4, hread⟩ := hread
  exact ⟨fs1, fs2, _, fs4, i, stored, hinit, hopen, hempty.lseek_position (by decide),
    by rw [hfd]; exact hsize, hread⟩

/-! ## The buffer -/

/-- Nothing is different at or behind the end of the buffer. -/
def StaysInside (m : Mem) (buf count : Nat) (stored : Bytes) : Prop :=
  ∀ a, buf + count ≤ a → putBytes m buf stored a = m a

/-- There is no buffer, or `left` bytes do not fill it, or a zero stands behind it already. -/
def HasPlace (m : Mem) (buf count left : Nat) : Prop :=
  buf = 0 ∨ left < count ∨ m (buf + count) = 0

theorem Delivers.staysInside_iff {fs fs' : Fs} {i : Fin 256} {buf count k : Nat}
    {stored : Bytes} (h : Delivers fs i buf count k stored fs')
    (hsize : (fs.nodes (fs.fds i).node).size < word)
    (ho : (fs.fds i).offset.toNat ≤ (fs.nodes (fs.fds i).node).size) (m : Mem) :
    StaysInside m buf count stored ↔
      HasPlace m buf count ((fs.nodes (fs.fds i).node).size - (fs.fds i).offset.toNat) := by
  have hk := h.count_eq hsize ho
  generalize (fs.nodes (fs.fds i).node).size - (fs.fds i).offset.toNat = left at *
  have hlen : stored.length = k + if buf ≠ 0 then 1 else 0 := by
    rw [h.stored, List.length_append, List.length_map, List.length_range]
    split_ifs <;> rfl
  have hin : stored.length ≤ count → StaysInside m buf count stored := by
    intro hle a ha
    exact putBytes_outside stored m buf a (Or.inr (by omega))
  unfold HasPlace
  by_cases h0 : buf = 0
  · rw [if_neg (by simpa using h0)] at hlen
    exact iff_of_true (hin (by omega)) (Or.inl h0)
  rw [if_pos h0] at hlen
  by_cases hleft : left < count
  · exact iff_of_true (hin (by omega)) (Or.inr (Or.inl hleft))
  -- The buffer is full, and the zero stands right behind it.
  obtain rfl : k = count := by omega
  have hzero : putBytes m buf stored (buf + k) = 0 := by
    apply putBytes_at
    rw [h.stored, if_pos h0, List.getElem?_append_right (by simp)]
    simp
  constructor
  · intro hs
    exact .inr (Or.inr ((hs _ (le_refl _)).symm.trans hzero))
  · rintro (hb | hb | hm)
    · exact absurd hb h0
    · exact absurd hb hleft
    · intro a ha
      rcases Nat.eq_or_lt_of_le ha with rfl | hlt
      · rw [hzero, hm]
      · exact putBytes_outside stored m buf a (Or.inr (by omega))

/-- Where `pread` reads: a negative offset leaves the descriptor where it was. -/
def position (f : Filedesc) (offset : BitVec 64) : BitVec 64 :=
  if offset.toInt < 0 then f.offset else offset

theorem lseek_set {fs : Fs} {fd : Int} {i : Fin 256} (he : entryOf fd = some i)
    (h0 : (fs.fds i).node ≠ 0) (offset : BitVec 64) :
    (lseek fs fd offset 0).2 = fs.setFd i fun f => { f with offset := position f offset } := by
  unfold lseek position
  simp only [he, if_neg h0, if_true]
  split_ifs
  · exact (congrArg (fun fds => { fs with fds }) (update_eq_self i fs.fds)).symm
  · rfl

theorem pread_cases {fs fs' : Fs} {fd r : Int} {buf count : Nat} {offset : BitVec 64}
    {stored : Bytes} (hrun : pread fs fd buf count offset = some (r, stored, fs')) :
    (stored = [] ∧ ∀ i, entryOf fd = some i → notFile fs (fs.fds i) = true) ∨
      ∃ i fs1, entryOf fd = some i ∧
        read (fs.setFd i fun f => { f with offset := position f offset }) fd buf count =
          some (r, stored, fs1) := by
  unfold pread at hrun
  cases he : entryOf fd with
  | none =>
    rw [he] at hrun
    cases hrun
    exact .inl ⟨rfl, by simp⟩
  | some i =>
    simp only [he] at hrun
    obtain ⟨⟨r', stored', fs1⟩, hread, heq⟩ := bind_eq_some_iff.mp hrun
    cases heq
    by_cases h0 : (fs.fds i).node = 0
    · have hfile : notFile fs (fs.fds i) = true := by simp [notFile, h0]
      have hstay : (lseek fs fd offset 0).2 = fs := by simp only [lseek, he, if_pos h0]
      rw [hstay] at hread
      rcases read_cases hread with ⟨-, hnil, -⟩ | ⟨j, k, hj, -, hd⟩
      · exact .inl ⟨hnil, fun j hj => some.inj hj ▸ hfile⟩
      · rw [he] at hj
        obtain rfl := some.inj hj
        rw [hd.file] at hfile
        cases hfile
    · rw [lseek_set he h0] at hread
      exact .inr ⟨i, fs1, rfl, hread⟩

section Buffer

variable {fs fs' : Fs} {fd r : Int} {buf count : Nat} {stored : Bytes} (m : Mem)
  (hsize : ∀ i, entryOf fd = some i → (fs.nodes (fs.fds i).node).size < word)

include hsize

theorem read_inside_iff (hrun : read fs fd buf count = some (r, stored, fs'))
    (ho : ∀ i, entryOf fd = some i →
      (fs.fds i).offset.toNat ≤ (fs.nodes (fs.fds i).node).size) :
    StaysInside m buf count stored ↔
      ∀ i, entryOf fd = some i → notFile fs (fs.fds i) = false →
        HasPlace m buf count ((fs.nodes (fs.fds i).node).size - (fs.fds i).offset.toNat) := by
  rcases read_cases hrun with ⟨-, rfl, -, hno⟩ | ⟨i, k, he, -, hd⟩
  · refine iff_of_true (fun _ _ => rfl) fun i hi hfile => ?_
    rw [hno i hi] at hfile
    cases hfile
  · rw [hd.staysInside_iff (hsize i he) (ho i he) m]
    simp only [he, some.injEq, forall_eq', hd.file, true_implies]

/-- `read` and `pread` up to the end of a file stay inside the buffer, exactly where there is no
buffer, or they do not fill it, or a zero stands behind it already. -/
theorem reads_inside_iff :
    (∀ r stored fs', read fs fd buf count = some (r, stored, fs') →
      (∀ i, entryOf fd = some i →
        (fs.fds i).offset.toNat ≤ (fs.nodes (fs.fds i).node).size) →
      (StaysInside m buf count stored ↔
        ∀ i, entryOf fd = some i → notFile fs (fs.fds i) = false →
          HasPlace m buf count ((fs.nodes (fs.fds i).node).size - (fs.fds i).offset.toNat))) ∧
    ∀ offset r stored fs', pread fs fd buf count offset = some (r, stored, fs') →
      (∀ i, entryOf fd = some i →
        (position (fs.fds i) offset).toNat ≤ (fs.nodes (fs.fds i).node).size) →
      (StaysInside m buf count stored ↔
        ∀ i, entryOf fd = some i → notFile fs (fs.fds i) = false →
          HasPlace m buf count
            ((fs.nodes (fs.fds i).node).size - (position (fs.fds i) offset).toNat)) := by
  refine ⟨fun r stored fs' hrun ho => read_inside_iff m hsize hrun ho, ?_⟩
  intro offset r stored fs' hrun ho
  rcases pread_cases hrun with ⟨rfl, hno⟩ | ⟨i, fs1, he, hread⟩
  · refine iff_of_true (fun _ _ => rfl) fun i hi hfile => ?_
    rw [hno i hi] at hfile
    cases hfile
  · have hfd : (fs.setFd i fun f => { f with offset := position f offset }).fds i =
        { fs.fds i with offset := position (fs.fds i) offset } := by
      simp only [Fs.setFd, update_self]
    simp only [he, some.injEq, forall_eq'] at hsize ho ⊢
    have hmain := read_inside_iff m (by simp only [he, some.injEq, forall_eq', hfd]; exact hsize)
      hread (by simp only [he, some.injEq, forall_eq', hfd]; exact ho)
    simp only [he, some.injEq, forall_eq', hfd] at hmain
    exact hmain

end Buffer

theorem reads_inside_iff_large :
    ∃ (fs fs' : Fs) (i : Fin 256) (stored : Bytes), read fs i 0x1000 4 = some (3, stored, fs') ∧
      StaysInside (fun _ => 1) 0x1000 4 stored := by
  obtain ⟨-, -, -, fs, i, bs, -, -, -, -, h, hoffset⟩ := blank_rewound
  obtain ⟨k, stored, fs', hrun, hk, -⟩ := h.read (by rw [hoffset]; decide) 0x1000 4
  rw [hoffset] at hk
  obtain rfl : k = 3 := hk
  refine ⟨fs, fs', i, stored, hrun, ?_⟩
  have hsize : ∀ j, entryOf i = some j → (fs.nodes (fs.fds j).node).size < word := by
    simp only [entryOf_fin, some.injEq, forall_eq', h.size]
    decide
  refine ((reads_inside_iff (fun _ => 1) hsize).1 _ _ _ hrun ?_).mpr ?_
  · simp only [entryOf_fin, some.injEq, forall_eq', hoffset, h.size]
    decide
  · simp only [entryOf_fin, some.injEq, forall_eq', hoffset, h.size]
    exact fun _ => .inr (Or.inl (by decide))

/-- Two bytes are read to a buffer of two, and a third one is stored. -/
theorem read_stores_behind :
    ∃ (fs1 fs2 fs3 fs4 fs5 : Fs) (i : Fin 256) (stored : Bytes), initialise blank = some fs1 ∧
      Tmpfs.open fs1 slashF oCreat 0o644 none = some ((i : Int), fs2) ∧
      write fs2 i [0x41, 0x42, 0x43] = some (3, fs3) ∧ lseek fs3 i 0 0 = (0, fs4) ∧
      read fs4 i 0x1000 2 = some (2, stored, fs5) ∧
      ¬ StaysInside (fun _ => 1) 0x1000 2 stored := by
  obtain ⟨fs1, fs2, fs3, fs4, i, bs, hinit, hopen, hwrite, hseek, h, hoffset⟩ := blank_rewound
  obtain ⟨k, stored, fs5, hrun, hk, -⟩ := h.read (by rw [hoffset]; decide) 0x1000 2
  rw [hoffset] at hk
  obtain rfl : k = 2 := hk
  refine ⟨fs1, fs2, fs3, fs4, fs5, i, stored, hinit, hopen, hwrite, hseek, hrun, ?_⟩
  have hfile := h.file
  rw [read_inside_iff (fun _ => 1) ?_ hrun ?_]
  all_goals simp only [entryOf_fin, some.injEq, forall_eq', hoffset, h.size, hfile]
  · unfold HasPlace
    decide
  · decide
  · decide

end Terrakernel.Tmpfs
