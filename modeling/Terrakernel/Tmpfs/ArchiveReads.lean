import Terrakernel.Tmpfs.Archive
import Terrakernel.Tmpfs.Ops

/-!
# What `load_initrd` reads of the archive

The loop makes sure of a header and of nothing else: a name or the data of a file may be read behind
the end.
-/

namespace Terrakernel.Tmpfs

open Memory Vmm
open List hiding Mem

variable {m : Mem} {stop : Byte → Bool} {n a x k : Nat} {fs : Fs}

/-! ## The addresses -/

/-- From `a` on up to the first byte at which the loop stops, and `n` bytes at most. -/
def scan (m : Mem) (stop : Byte → Bool) : Nat → Nat → List Nat
  | 0, _ => []
  | n + 1, a => a % word :: if stop (m (a % word)) then [] else scan m stop n (a + 1)

/-- `strlen` and `%s`. -/
def stringReads (m : Mem) (a : Nat) : List Nat := scan m (· = 0) word a

/-- `strcmp` with the string `s`, as far as the other string is read. -/
def strcmpReads (m : Mem) : Bytes → Nat → List Nat
  | [], a => [a % word]
  | c :: s, a => a % word :: if m (a % word) = c then strcmpReads m s (a + 1) else []

/-- The descriptor for a regular file. -/
def openEntry (path : Bytes) (fs : Fs) : Option (Int × Fs) := do
  let fs ← mkdirParents (path.take 1) (path.drop 1) fs
  Tmpfs.open fs (some path) (oCreat ||| oWronly ||| oTrunc) 0o644 none

theorem loadFile_openEntry (m : Mem) (ptr : Nat) (path : Bytes) (fs : Fs) :
    loadFile m ptr path fs = (openEntry path fs).bind fun r =>
      (resolvePath r.2 (some path)).bind fun _ =>
        if 0 ≤ r.1 then writeAndClose r.2 r.1 (bytesAt m (ptr + tarBlockSize) (fileSize m ptr))
        else some r.2 := by
  unfold loadFile openEntry
  cases mkdirParents (path.take 1) (path.drop 1) fs <;> rfl

/-- There is data, and `write` does not refuse it. -/
def copies (m : Mem) (ptr : Nat) (fs : Fs) : Bool :=
  (typeflag m ptr = 0x30 || typeflag m ptr = 0) && 0 < fileSize m ptr &&
    match openEntry (cleanPath m ptr) fs with
    | none => false
    | some (fd, fs) => 0 ≤ fd &&
        ((write fs fd (bytesAt m (ptr + tarBlockSize) (fileSize m ptr))).map Prod.fst ≠ some (-1))

def dataReads (m : Mem) (ptr : Nat) (fs : Fs) : List Nat :=
  if copies m ptr fs then
    (List.range (fileSize m ptr)).map fun i => (ptr + tarBlockSize + i) % word
  else []

/-- The path is written from the name and the prefix. -/
def formats (m : Mem) (ptr : Nat) : Bool :=
  !emptyBlock m ptr && stringAt m ptr ≠ dot && stringAt m ptr ≠ dotdot

/-- All that is read for the header at `ptr`. -/
def entryReads (m : Mem) (ptr : Nat) (fs : Fs) : List Nat :=
  scan m (· ≠ 0) tarBlockSize ptr ++
    (if emptyBlock m ptr then []
    else scan m (fun c => !(0x30 ≤ c && c ≤ 0x37)) 12 (ptr + 124) ++ strcmpReads m dot ptr) ++
    (if emptyBlock m ptr || stringAt m ptr = dot then [] else strcmpReads m dotdot ptr) ++
    if formats m ptr then
      (ptr + 345) % word ::
        ((if m ((ptr + 345) % word) ≠ 0 then stringReads m (ptr + 345) else []) ++
          stringReads m ptr) ++
        (ptr + 156) % word :: dataReads m ptr fs
    else []

/-- The headers that the loop comes to, each with the state at that time. -/
def visits (m : Mem) (fin : Nat) : Nat → Nat → Fs → List (Nat × Fs)
  | 0, _, _ => []
  | fuel + 1, ptr, fs =>
    if fin < (ptr + tarBlockSize) % word then []
    else
      (ptr, fs) :: if emptyBlock m ptr then []
        else match loadEntry m ptr fs with
          | none => []
          | some fs => visits m fin fuel (nextHeader m ptr) fs

/-! ## What should be read, and when it is so -/

/-- Every byte is one of the archive, and those of a string are in its field. -/
structure Contained (m : Mem) (base size : Nat) (v : Nat × Fs) : Prop where
  inside : ∀ a ∈ entryReads m v.1 v.2, base ≤ a ∧ a < base + size
  name : formats m v.1 = true → ∀ a ∈ stringReads m v.1, v.1 ≤ a ∧ a < v.1 + 100
  headerPrefix : formats m v.1 = true → m (v.1 + 345) ≠ 0 →
    ∀ a ∈ stringReads m (v.1 + 345), v.1 + 345 ≤ a ∧ a < v.1 + 500

/-- The header is in the archive with its data, and its strings have terminators. -/
structure Framed (m : Mem) (base size : Nat) (v : Nat × Fs) : Prop where
  header : base ≤ v.1 ∧ v.1 + tarBlockSize ≤ base + size
  name : formats m v.1 = true → ∃ k < 100, m (v.1 + k) = 0
  headerPrefix : formats m v.1 = true → m (v.1 + 345) ≠ 0 → ∃ k < 155, m (v.1 + 345 + k) = 0
  data : formats m v.1 = true → copies m v.1 v.2 = true →
    v.1 + tarBlockSize + fileSize m v.1 ≤ base + size

/-! ## One loop -/

theorem scan_within (hx : x ∈ scan m stop n a) (hword : a + n ≤ word) : a ≤ x ∧ x < a + n := by
  induction n generalizing a with
  | zero => simp [scan] at hx
  | succ n ih =>
    rw [scan, Nat.mod_eq_of_lt (by omega), mem_cons] at hx
    rcases hx with rfl | hx
    · omega
    · split_ifs at hx
      · simp at hx
      · have := ih hx (by omega)
        omega

theorem scan_upTo (hx : x ∈ scan m stop n a) (hstop : stop (m (a + k)) = true)
    (hword : a + k < word) : a ≤ x ∧ x ≤ a + k := by
  induction n generalizing a k with
  | zero => simp [scan] at hx
  | succ n ih =>
    rw [scan, Nat.mod_eq_of_lt (by omega), mem_cons] at hx
    rcases hx with rfl | hx
    · omega
    · cases k with
      | zero =>
        rw [Nat.add_zero] at hstop
        simp [hstop] at hx
      | succ k =>
        split_ifs at hx
        · simp at hx
        · have := @ih (a + 1) k hx (by rw [← hstop]; congr 2; omega) (by omega)
          omega

theorem mem_scan (hk : k < n) (hword : a + k < word) (hgo : ∀ j < k, stop (m (a + j)) = false) :
    a + k ∈ scan m stop n a := by
  induction k generalizing a n with
  | zero =>
    obtain ⟨n, rfl⟩ : ∃ i, n = i + 1 := ⟨n - 1, by omega⟩
    rw [scan, Nat.mod_eq_of_lt (by omega), Nat.add_zero]
    exact mem_cons_self
  | succ k ih =>
    obtain ⟨n, rfl⟩ : ∃ i, n = i + 1 := ⟨n - 1, by omega⟩
    have h0 : stop (m a) = false := hgo 0 (by omega)
    rw [scan, Nat.mod_eq_of_lt (by omega), if_neg (by simp [h0]),
      show a + (k + 1) = a + 1 + k by omega]
    refine mem_cons_of_mem _ (ih (by omega) (by omega) fun j hj => ?_)
    rw [show a + 1 + j = a + (j + 1) by omega]
    exact hgo (j + 1) (by omega)

theorem stringReads_within_iff (hword : a + n < word) :
    (∀ x ∈ stringReads m a, a ≤ x ∧ x < a + n) ↔ ∃ k < n, m (a + k) = 0 := by
  constructor
  · intro h
    by_contra hno
    push Not at hno
    have hmem : a + n ∈ stringReads m a :=
      mem_scan (by omega) hword fun j hj => by simpa using hno j hj
    exact absurd (h _ hmem).2 (by omega)
  · rintro ⟨k, hk, h0⟩ x hx
    have := scan_upTo hx (by simpa using h0) (by omega)
    omega

theorem strcmpReads_within {s : Bytes} (hx : x ∈ strcmpReads m s a)
    (hword : a + s.length < word) : a ≤ x ∧ x ≤ a + s.length := by
  induction s generalizing a with
  | nil =>
    rw [strcmpReads, Nat.mod_eq_of_lt (by simpa using hword)] at hx
    simp at hx
    simp [hx]
  | cons c s ih =>
    rw [length_cons] at hword ⊢
    rw [strcmpReads, Nat.mod_eq_of_lt (by omega), mem_cons] at hx
    rcases hx with rfl | hx
    · omega
    · split_ifs at hx
      · have := ih hx (by omega)
        omega
      · simp at hx

section Header

variable {m : Mem} {ptr : Nat} {fs : Fs}

theorem mem_entryReads (hword : ptr + tarBlockSize ≤ word) (ha : a ∈ entryReads m ptr fs) :
    (ptr ≤ a ∧ a < ptr + tarBlockSize) ∨ formats m ptr = true ∧
      (m (ptr + 345) ≠ 0 ∧ a ∈ stringReads m (ptr + 345) ∨ a ∈ stringReads m ptr ∨
        a ∈ dataReads m ptr fs) := by
  have hblock : tarBlockSize = 512 := rfl
  have hdot : dot.length = 1 := rfl
  have hdotdot : dotdot.length = 2 := rfl
  unfold entryReads at ha
  have hfield : (ptr + 345) % word = ptr + 345 := Nat.mod_eq_of_lt (by omega)
  have htype : (ptr + 156) % word = ptr + 156 := Nat.mod_eq_of_lt (by omega)
  rw [hfield, htype] at ha
  simp only [mem_append] at ha
  rcases ha with ((ha | ha) | ha) | ha
  · exact .inl (scan_within ha hword)
  · left
    split_ifs at ha
    · simp at ha
    · rcases mem_append.mp ha with ha | ha
      · have := scan_within ha (by omega)
        omega
      · have := strcmpReads_within ha (by omega)
        omega
  · left
    split_ifs at ha
    · simp at ha
    · have := strcmpReads_within ha (by omega)
      omega
  · by_cases hf : formats m ptr = true
    · rw [if_pos hf, mem_append, mem_cons, mem_append, mem_cons] at ha
      rcases ha with (rfl | ha | ha) | rfl | ha
      · left
        omega
      · split_ifs at ha with hpre
        · exact .inr ⟨hf, .inl ⟨hpre, ha⟩⟩
        · simp at ha
      · exact .inr ⟨hf, .inr (Or.inl ha)⟩
      · left
        omega
      · exact .inr ⟨hf, .inr (Or.inr ha)⟩
    · rw [if_neg hf] at ha
      simp at ha

theorem self_mem_entryReads (hptr : ptr < word) : ptr ∈ entryReads m ptr fs := by
  unfold entryReads
  simp only [mem_append]
  exact .inl (Or.inl (Or.inl (by rw [scan, Nat.mod_eq_of_lt hptr]; exact mem_cons_self)))

theorem stringReads_subset (hf : formats m ptr = true) :
    stringReads m ptr ⊆ entryReads m ptr fs := by
  intro a ha
  unfold entryReads
  simp [hf, ha]

theorem dataReads_subset (hf : formats m ptr = true) :
    dataReads m ptr fs ⊆ entryReads m ptr fs := by
  intro a ha
  unfold entryReads
  simp [hf, ha]

theorem contained_iff {base size : Nat} (htop : base + size + tarBlockSize ≤ word)
    (hptr : ptr < word) (htest : (ptr + tarBlockSize) % word ≤ base + size) :
    Contained m base size (ptr, fs) ↔ Framed m base size (ptr, fs) := by
  have hblock : tarBlockSize = 512 := rfl
  constructor
  · intro h
    have hself := h.inside ptr (self_mem_entryReads hptr)
    rw [Nat.mod_eq_of_lt (by omega)] at htest
    refine ⟨⟨hself.1, htest⟩, fun hf => ?_, fun hf hpre => ?_, fun hf hcopies => ?_⟩
    · exact (stringReads_within_iff (by omega)).mp (h.name hf)
    · exact (stringReads_within_iff (by omega)).mp (h.headerPrefix hf hpre)
    · -- The first byte behind the archive would be read.
      by_contra hlong
      have hmem : base + size ∈ dataReads m ptr fs := by
        unfold dataReads
        simp only at hlong hcopies
        rw [if_pos hcopies, List.mem_map]
        refine ⟨base + size - (ptr + tarBlockSize), mem_range.mpr (by omega), ?_⟩
        rw [Nat.add_sub_cancel' htest, Nat.mod_eq_of_lt (by omega)]
      exact absurd (h.inside _ (dataReads_subset hf hmem)).2 (by omega)
  · intro h
    have hheader : base ≤ ptr ∧ ptr + tarBlockSize ≤ base + size := h.header
    have hname : formats m ptr = true → ∀ a ∈ stringReads m ptr, ptr ≤ a ∧ a < ptr + 100 :=
      fun hf => (stringReads_within_iff (by omega)).mpr (h.name hf)
    have hpre : formats m ptr = true → m (ptr + 345) ≠ 0 →
        ∀ a ∈ stringReads m (ptr + 345), ptr + 345 ≤ a ∧ a < ptr + 345 + 155 :=
      fun hf h0 => (stringReads_within_iff (by omega)).mpr (h.headerPrefix hf h0)
    refine ⟨fun a ha => ?_, hname, hpre⟩
    rcases mem_entryReads (by omega) ha with hin | ⟨hf, ⟨h0, ha⟩ | ha | ha⟩
    · omega
    · have := hpre hf h0 a ha
      omega
    · have := hname hf a ha
      omega
    · unfold dataReads at ha
      split_ifs at ha with hcopies
      · obtain ⟨i, hi, rfl⟩ := List.mem_map.mp ha
        have hend : ptr + tarBlockSize + fileSize m ptr ≤ base + size := h.data hf hcopies
        have hlt : i < fileSize m ptr := mem_range.mp hi
        rw [Nat.mod_eq_of_lt (by omega)]
        omega
      · simp at ha

end Header

/-! ## All of them -/

theorem visits_spec {fin fuel ptr : Nat} (hptr : ptr < word) :
    ∀ v ∈ visits m fin fuel ptr fs, v.1 < word ∧ (v.1 + tarBlockSize) % word ≤ fin := by
  induction fuel generalizing ptr fs with
  | zero => simp [visits]
  | succ fuel ih =>
    intro v hv
    unfold visits at hv
    split_ifs at hv with htest hempty
    · simp at hv
    · rw [mem_singleton.mp hv]
      exact ⟨hptr, Nat.not_lt.mp htest⟩
    · rcases mem_cons.mp hv with rfl | hv
      · exact ⟨hptr, Nat.not_lt.mp htest⟩
      · cases hload : loadEntry m ptr fs with
        | none => simp [hload] at hv
        | some fs' =>
          rw [hload] at hv
          exact ih (Nat.mod_lt _ (by decide)) v hv

theorem mem_visits_self {fin fuel ptr : Nat} (hfuel : 0 < fuel)
    (htest : (ptr + tarBlockSize) % word ≤ fin) (fs : Fs) :
    (ptr, fs) ∈ visits m fin fuel ptr fs := by
  obtain ⟨n, rfl⟩ : ∃ n, fuel = n + 1 := ⟨fuel - 1, by omega⟩
  rw [visits, if_neg (Nat.not_lt.mpr htest)]
  exact mem_cons_self

theorem visits_headers {fin fuel ptr : Nat} {ptrs : List Nat} {fs' : Fs}
    (h : headers m fin fuel ptr = some ptrs) (hload : loadLoop m fin fuel ptr fs = some fs') :
    ((visits m fin fuel ptr fs).map Prod.fst).filter (fun a => !emptyBlock m a) = ptrs := by
  induction fuel generalizing ptr ptrs fs with
  | zero => simp [headers] at h
  | succ fuel ih =>
    unfold headers at h
    unfold loadLoop at hload
    unfold visits
    split_ifs at h hload ⊢ with htest hempty
    · cases h
      rfl
    · cases h
      simp [hempty]
    · obtain ⟨rest, hrest, rfl⟩ := Option.map_eq_some_iff.mp h
      obtain ⟨fs1, hentry, hloop⟩ := Option.bind_eq_some_iff.mp hload
      rw [hentry, map_cons, filter_cons_of_pos (by simp [hempty]), ih hrest hloop]

/-- When `load_initrd` reads inside the archive, and strings inside their fields. -/
theorem archive_reads_iff {base size : Nat} (htop : base + size + tarBlockSize ≤ word) (m : Mem)
    (fs : Fs) :
    (∀ v ∈ visits m ((base + size) % word) word base fs, Contained m base size v) ↔
      ∀ v ∈ visits m ((base + size) % word) word base fs, Framed m base size v := by
  have hblock : tarBlockSize = 512 := rfl
  rw [Nat.mod_eq_of_lt (by omega)]
  refine forall₂_congr fun v hv => ?_
  obtain ⟨hptr, htest⟩ := visits_spec (by omega) v hv
  exact contained_iff htop hptr htest

/-- The file `a`, with one byte. -/
def oneFile : Mem := imageOf [fileFrame [0x61] [0x41]]

theorem oneFile_copied : ∃ fs1, initialise blank = some fs1 ∧ copies oneFile 0 fs1 = true := by
  obtain ⟨fs1, bs1, hinit, -, h1, -, -, hfree, hroom1⟩ := blank_started
  obtain ⟨d, fs2, foreign, bs2, -, hmkdir, hd, hname, -, hroot, -, hfds, -, h2, hroom2⟩ :=
    mkdir_new h1 (p := initrdPath) (t := initrdName) (by decide) (by decide) (by decide)
      (fun c hc => absurd hc not_mem_nil) (u := 0x1000) (by decide) (hroom1.mono (by decide)) 0o755
  replace h2 : Held foreign fs2 bs2 [d, fs2.root] (grown (fun _ => []) fs2.root d) := hroot ▸ h2
  have hl := h2.linked
  have hd0 := hl.ne_zero mem_cons_self
  have hwalk : resolveLoop fs2.nodes fs2.root [initrdName] = some d := by
    have := resolveLoop_only h2 (by rw [hname]; decide) (by rw [hname]; decide)
    rwa [hname] at this
  have htok : tokens (initrdPath ++ [slash, 0x61]) = [initrdName] ++ [[0x61]] := by decide
  have hno : resolvePath fs2 (some (initrdPath ++ [slash, 0x61])) = some 0 := by
    rw [resolvePath_some (h2.ne_zero h2.cwd), htok]
    refine (resolveLoop_append _ hwalk hd0).trans ?_
    refine resolveLoop_missing hl mem_cons_self (by decide) (by decide) ?_ []
    rw [grown_new (hroot ▸ by simpa using hd)]
    simp
  obtain ⟨i, c, fs3, bs3, hopen, -, -, hnew, -, -, h3, hroom3⟩ :=
    open_new h2 (oCreat ||| oWronly ||| oTrunc) (by decide) (by decide) htok hwalk hd0 hno
      ⟨0, hfds ▸ hfree 0⟩ (u := 0x100) (by decide) (hroom2.mono (by decide)) 0o644
  obtain ⟨fs, hfs⟩ : ∃ fs, opened fs3 i c (oCreat ||| oWronly ||| oTrunc) 0o644 = fs := ⟨_, rfl⟩
  rw [hfs] at hopen h3
  have hdirs : mkdirParents [slash] (initrdName ++ [slash, 0x61]) fs1 = some fs2 := by
    rw [show mkdirParents [slash] (initrdName ++ [slash, 0x61]) fs1 =
      ((mkdir fs1 (some initrdPath) 0o755).map Prod.snd).bind some by rfl, hmkdir]
    rfl
  have hentry : openEntry (initrdPath ++ [slash, 0x61]) fs1 = some ((i : Int), fs) := by
    change (mkdirParents [slash] (initrdName ++ [slash, 0x61]) fs1).bind _ = _
    rw [hdirs]
    exact hopen
  have hnode : (fs.fds i).node = c := by rw [← hfs, opened_fds, Function.update_self]
  have hnew' : fs.nodes c = { fs3.nodes c with refcount := (fs3.nodes c).refcount + 1 } := by
    rw [← hfs, opened_nodes, if_pos rfl]
  have hfile : notFile fs (fs.fds i) = false := by
    have h0 := h3.linked.ne_zero mem_cons_self
    have hdir : (fs3.nodes c).isDir = false := (congrArg Node.isDir hnew :)
    have hlink : (fs3.nodes c).isSymlink = false := (congrArg Node.isSymlink hnew :)
    simp [notFile, hnode, hnew', h0, hdir, hlink]
  have hcontent : (fs.nodes (fs.fds i).node).content = 0 := by
    rw [hnode, hnew']
    exact (congrArg Node.content hnew :)
  have hoffset : (fs.fds i).offset = 0 := by rw [← hfs, opened_fds, Function.update_self]
  refine ⟨fs1, hinit, ?_⟩
  simp only [copies, show typeflag oneFile 0 = 0 by decide +kernel,
    show fileSize oneFile 0 = 1 by decide +kernel,
    show cleanPath oneFile 0 = initrdPath ++ [slash, 0x61] by decide +kernel, hentry]
  rcases write_file h3.sane.owns.sound h3.sane.owns.high (entryOf_fin i) hfile
      (fun h => absurd hcontent h) (by rw [hoffset]; decide)
      (show 0 < (bytesAt oneFile (0 + tarBlockSize) 1).length by decide +kernel)
      (by decide +kernel) with ⟨-, hno, -⟩ | ⟨fs4, bs4, q, hrun, -⟩
  · rw [hoffset] at hno
    exact absurd (hroom3.mono (by decide +kernel)) hno
  · have hvalue : (BitVec.ofNat 64 (bytesAt oneFile (0 + tarBlockSize) 1).length).toInt ≠ -1 := by
      decide +kernel
    rw [hrun]
    simpa using hvalue

theorem archive_reads_iff_oneFile :
    ∃ fs1, initialise blank = some fs1 ∧ visits oneFile 1024 word 0 fs1 = [(0, fs1)] ∧
      512 ∈ entryReads oneFile 0 fs1 ∧
      ∀ v ∈ visits oneFile 1024 word 0 fs1, Contained oneFile 0 1024 v := by
  obtain ⟨fs1, hinit, hcopies⟩ := oneFile_copied
  have hrounds : ∀ fuel, visits oneFile 1024 (fuel + 1 + 1) 0 fs1 = [(0, fs1)] := by
    intro fuel
    have hnext : nextHeader oneFile 0 = 1024 := by decide +kernel
    rw [visits, if_neg (by decide), if_neg (by decide +kernel), hnext]
    cases loadEntry oneFile 0 fs1 with
    | none => rfl
    | some fs =>
      -- The next header would end behind the buffer.
      simp only
      rw [visits, if_pos (by decide)]
  have hvisits : visits oneFile 1024 word 0 fs1 = [(0, fs1)] := hrounds (word - 2)
  refine ⟨fs1, hinit, hvisits, dataReads_subset (by decide +kernel) ?_,
    (archive_reads_iff (by decide : 0 + 1024 + tarBlockSize ≤ word) oneFile fs1).mpr ?_⟩
  · rw [dataReads, if_pos hcopies]
    decide +kernel
  · change ∀ v ∈ visits oneFile 1024 word 0 fs1, _
    rw [hvisits]
    intro v hv
    obtain rfl := mem_singleton.mp hv
    have hname : oneFile (0 + 1) = 0 := by decide +kernel
    have hprefix : oneFile (0 + 345) = 0 := by decide +kernel
    have hend : 0 + tarBlockSize + fileSize oneFile 0 ≤ 0 + 1024 := by decide +kernel
    exact ⟨⟨le_rfl, show 0 + tarBlockSize ≤ 0 + 1024 by decide⟩, fun _ => ⟨1, by decide, hname⟩,
      fun _ hne => absurd hprefix hne, fun _ _ => hend⟩

/-! ## A name that fills its header -/

/-- A block without a zero. -/
def unterminated : Mem := fun a => if 4096 ≤ a ∧ a < 4608 then 0x41 else 0

theorem unterminated_name_read :
    (4096, blank) ∈ visits unterminated ((4096 + 512) % word) word 4096 blank ∧
      4608 ∈ stringReads unterminated 4096 ∧ 4608 ∈ entryReads unterminated 4096 blank ∧
      ¬ Contained unterminated 4096 512 (4096, blank) := by
  have hstring : 4096 + 512 ∈ stringReads unterminated 4096 :=
    mem_scan (by decide) (by decide) fun j hj => by
      unfold unterminated
      rw [if_pos (by omega)]
      rfl
  have hreads : 4608 ∈ entryReads unterminated 4096 blank :=
    stringReads_subset (by decide +kernel) hstring
  refine ⟨mem_visits_self (by decide) (by decide) blank, hstring, hreads, fun h => ?_⟩
  exact absurd (h.inside 4608 hreads).2 (by decide)

end Terrakernel.Tmpfs
