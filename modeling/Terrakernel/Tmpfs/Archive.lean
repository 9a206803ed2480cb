import Terrakernel.Tmpfs.Initrd

/-!
# Headers, one after the other

Where the loop of `load_initrd` looks for headers depends on the archive alone.
-/

namespace Terrakernel.Tmpfs

open Memory Vmm Option
open List hiding Mem

/-! ## The loop -/

/-- The headers at which the loop stops to load an entry. -/
def headers (m : Mem) (fin : Nat) : Nat → Nat → Option (List Nat)
  | 0, _ => none
  | fuel + 1, ptr =>
    if fin < (ptr + tarBlockSize) % word then some []
    else if emptyBlock m ptr then some []
    else (headers m fin fuel (nextHeader m ptr)).map (ptr :: ·)

def loadAll (m : Mem) (ptrs : List Nat) (fs : Fs) : Option Fs :=
  ptrs.foldlM (fun fs ptr => loadEntry m ptr fs) fs

theorem loadLoop_eq {m : Mem} {fin fuel ptr : Nat} {ptrs : List Nat}
    (h : headers m fin fuel ptr = some ptrs) (fs : Fs) :
    loadLoop m fin fuel ptr fs = loadAll m ptrs fs := by
  induction fuel generalizing ptr ptrs fs with
  | zero => exact absurd h (by simp [headers])
  | succ fuel ih =>
    unfold headers at h
    unfold loadLoop
    by_cases hend : fin < (ptr + tarBlockSize) % word
    · rw [if_pos hend] at h ⊢
      cases h
      rfl
    by_cases hempty : emptyBlock m ptr = true
    · rw [if_neg hend, if_pos hempty] at h ⊢
      cases h
      rfl
    rw [if_neg hend, if_neg hempty] at h ⊢
    obtain ⟨rest, hrest, rfl⟩ := map_eq_some_iff.mp h
    unfold loadAll
    rw [foldlM_cons]
    exact Option.bind_congr fun fs' _ => ih hrest fs'

/-! ## Octal numbers -/

/-- The last `k` octal digits of a number. -/
def octDigits : Nat → Nat → Bytes
  | 0, _ => []
  | k + 1, n => octDigits k (n / 8) ++ [BitVec.ofNat 8 (0x30 + n % 8)]

theorem length_octDigits (k n : Nat) : (octDigits k n).length = k := by
  induction k generalizing n with
  | zero => rfl
  | succ k ih => rw [octDigits, length_append, ih, length_singleton]

theorem shiftLeft_or_digit (res d : Nat) (hd : d < 8) : res <<< 3 ||| d = 8 * res + d := by
  rw [← Nat.shiftLeft_add_eq_or_of_lt (by omega : d < 2 ^ 3), Nat.shiftLeft_eq]
  omega

theorem octLoop_digit {res d : Nat} (hd : d < 8) (hres : 8 * res + d < word) (str : Bytes) :
    octLoop res (BitVec.ofNat 8 (0x30 + d) :: str) = octLoop (8 * res + d) str := by
  have hval : (BitVec.ofNat 8 (0x30 + d)).toNat = 0x30 + d := by
    rw [BitVec.toNat_ofNat]
    omega
  have hdigit : (0x30 : Byte) ≤ BitVec.ofNat 8 (0x30 + d) ∧ BitVec.ofNat 8 (0x30 + d) ≤ 0x37 := by
    rw [BitVec.le_def, BitVec.le_def, hval]
    change 0x30 ≤ 0x30 + d ∧ 0x30 + d ≤ 0x37
    omega
  rw [octLoop, if_pos hdigit, hval, Nat.add_sub_cancel_left, shiftLeft_or_digit res d hd,
    Nat.mod_eq_of_lt hres]

theorem octLoop_octDigits (k n res : Nat) (hres : res * 8 ^ k + n % 8 ^ k < word)
    (str : Bytes) :
    octLoop res (octDigits k n ++ str) = octLoop (res * 8 ^ k + n % 8 ^ k) str := by
  induction k generalizing n str with
  | zero => simp [octDigits, Nat.mod_one]
  | succ k ih =>
    have hsplit : res * 8 ^ (k + 1) + n % 8 ^ (k + 1) =
        8 * (res * 8 ^ k + n / 8 % 8 ^ k) + n % 8 := by
      rw [pow_succ', Nat.mod_mul]
      ring
    rw [hsplit] at hres ⊢
    rw [octDigits, append_assoc, ih _ (by omega), singleton_append,
      octLoop_digit (Nat.mod_lt n (by decide)) hres]

theorem octLoop_lt (str : Bytes) (res k : Nat) (hres : res < 8 ^ k) :
    octLoop res str < 8 ^ (k + str.length) := by
  induction str generalizing res k with
  | nil => exact hres
  | cons c str ih =>
    have hgrow : 8 ^ k ≤ 8 ^ (k + (c :: str).length) := Nat.pow_le_pow_right (by decide) (by omega)
    unfold octLoop
    split_ifs with hdigit
    · obtain ⟨h1, h2⟩ := hdigit
      rw [BitVec.le_def] at h1 h2
      change 0x30 ≤ c.toNat at h1
      change c.toNat ≤ 0x37 at h2
      have hd : c.toNat - 0x30 < 8 := by omega
      rw [shiftLeft_or_digit res _ hd, length_cons,
        show k + (str.length + 1) = k + 1 + str.length by omega]
      refine ih _ (k + 1) (Nat.lt_of_le_of_lt (Nat.mod_le _ _) ?_)
      rw [pow_succ]
      omega
    · exact Nat.lt_of_lt_of_le hres hgrow

theorem fileSize_lt (m : Mem) (ptr : Nat) : fileSize m ptr < 2 ^ 36 := by
  have hlt := octLoop_lt (bytesAt m (ptr + 124) 12) 0 0 (by decide)
  rw [bytesAt, length_map, length_range] at hlt
  exact hlt

/-! ## Entries in memory -/

/-- A header and the data behind it. -/
structure Frame where
  header : Bytes
  data : Bytes
  deriving DecidableEq, Repr

/-- The size stands in the header as eleven octal digits. -/
structure Frame.Valid (f : Frame) : Prop where
  length : f.header.length = tarBlockSize
  nonzero : ∃ b ∈ f.header, b ≠ 0
  small : f.data.length < 8 ^ 11
  size : ∃ stop : Byte, (stop = 0 ∨ stop = 0x20) ∧
    (f.header.drop 124).take 12 = octDigits 11 f.data.length ++ [stop]

/-- The data is filled up to whole blocks. -/
def Frame.bytes (f : Frame) : Bytes :=
  f.header ++ (f.data ++ replicate ((tarBlockSize - f.data.length % tarBlockSize) %
    tarBlockSize) 0)

def Frame.size (f : Frame) : Nat :=
  ((f.data.length + tarBlockSize - 1) / tarBlockSize + 1) * tarBlockSize

theorem Frame.Valid.length_bytes {f : Frame} (h : f.Valid) : f.bytes.length = f.size := by
  rw [Frame.bytes, Frame.size, length_append, length_append, length_replicate,
    h.length]
  simp only [tarBlockSize]
  omega

def totalSize (frames : List Frame) : Nat := (frames.map Frame.size).sum

/-- Where the headers are. -/
def offsets : Nat → List Frame → List Nat
  | _, [] => []
  | a, f :: frames => a :: offsets (a + f.size) frames

/-- A buffer with the entries from its start on, and behind them its end or a block of zeros. -/
structure Archive (m : Mem) (base size : Nat) (frames : List Frame) : Prop where
  valid : ∀ f ∈ frames, f.Valid
  holds : Holds m base (frames.flatMap Frame.bytes)
  fits : totalSize frames ≤ size
  ends : size < totalSize frames + tarBlockSize ∨
    Holds m (base + totalSize frames) (replicate tarBlockSize 0)

theorem bytesAt_of_holds {m : Mem} {a : Nat} {l : Bytes} (h : Holds m a l)
    (hfit : a + l.length ≤ word) : bytesAt m a l.length = l := by
  rw [bytesAt]
  refine Eq.trans (map_congr_left fun i hi => ?_) h.map_range
  have := mem_range.mp hi
  rw [Nat.mod_eq_of_lt (by omega)]

theorem Frame.holds_header {m : Mem} {ptr : Nat} {f : Frame} (h : Holds m ptr f.bytes) :
    Holds m ptr f.header :=
  (holds_append.mp h).1

section Header

variable {m : Mem} {ptr : Nat} {f : Frame} (hf : f.Valid) (hheld : Holds m ptr f.bytes)
  (hfit : ptr + f.size ≤ word)

include hf hheld hfit

theorem Frame.Valid.fileSize_eq : fileSize m ptr = f.data.length := by
  obtain ⟨stop, hstop, hfield⟩ := hf.size
  have hlen : ptr + tarBlockSize ≤ word := by
    have : tarBlockSize ≤ f.size := Nat.le_mul_of_pos_left _ (Nat.succ_pos _)
    omega
  have hsplit : f.header = f.header.take 124 ++ ((f.header.drop 124).take 12 ++
      (f.header.drop 124).drop 12) := by
    rw [take_append_drop, take_append_drop]
  have hholds := Frame.holds_header hheld
  rw [hsplit, holds_append, holds_append, hfield, length_take, hf.length] at hholds
  have hbytes := bytesAt_of_holds hholds.2.1 (by
    rw [length_append, length_octDigits, length_singleton]
    simp only [tarBlockSize] at *
    omega)
  rw [length_append, length_octDigits, length_singleton] at hbytes
  have hend : ∀ res, octLoop res [stop] = res := by
    intro res
    rcases hstop with rfl | rfl <;> rfl
  have hsmall := hf.small
  rw [fileSize, octToSize]
  refine (congrArg (octLoop 0) hbytes).trans ?_
  rw [octLoop_octDigits 11 _ 0 (by rw [Nat.mod_eq_of_lt hsmall]; simp only [word]; omega), hend,
    Nat.mod_eq_of_lt hsmall, Nat.zero_mul, Nat.zero_add]

theorem Frame.Valid.emptyBlock_eq : emptyBlock m ptr = false := by
  obtain ⟨b, hb, hb0⟩ := hf.nonzero
  have hlen : tarBlockSize ≤ f.size := Nat.le_mul_of_pos_left _ (Nat.succ_pos _)
  have hbytes := bytesAt_of_holds (Frame.holds_header hheld) (by rw [hf.length]; omega)
  rw [hf.length] at hbytes
  rw [emptyBlock, hbytes, List.all_eq_false]
  exact ⟨b, hb, by simpa using hb0⟩

end Header

theorem emptyBlock_of_zeros {m : Mem} {ptr : Nat} (hfit : ptr + tarBlockSize ≤ word)
    (h : Holds m ptr (replicate tarBlockSize 0)) : emptyBlock m ptr = true := by
  have hbytes := bytesAt_of_holds h (by rw [length_replicate]; exact hfit)
  rw [length_replicate] at hbytes
  rw [emptyBlock, hbytes, all_replicate]
  simp

theorem Archive.headers {m : Mem} {base size : Nat} {frames : List Frame}
    (h : Archive m base size frames) (htop : base + size + tarBlockSize < word) {fuel : Nat}
    (hfuel : totalSize frames < fuel) :
    headers m (base + size) fuel base = some (offsets base frames) ∧
      (offsets base frames).map (fileSize m) = frames.map fun f => f.data.length := by
  induction frames generalizing base size fuel with
  | nil =>
    obtain _ | k := fuel
    · omega
    refine ⟨?_, rfl⟩
    have hends := h.ends
    rw [show totalSize [] = 0 from rfl, Nat.zero_add, Nat.add_zero] at hends
    unfold Tmpfs.headers
    rw [Nat.mod_eq_of_lt (by omega)]
    rcases hends with hend | hzero
    · rw [if_pos (by omega)]
      rfl
    · rw [emptyBlock_of_zeros (by omega) hzero, if_pos rfl, ite_self]
      rfl
  | cons f frames ih =>
    obtain _ | k := fuel
    · omega
    have hf := h.valid f mem_cons_self
    have htotal : totalSize (f :: frames) = f.size + totalSize frames := rfl
    have hfits := h.fits
    have hends := h.ends
    rw [htotal] at hfits hends hfuel
    have hheld := h.holds
    rw [flatMap_cons, holds_append, hf.length_bytes] at hheld
    have hblock : tarBlockSize ≤ f.size := Nat.le_mul_of_pos_left _ (Nat.succ_pos _)
    have hpos : 0 < tarBlockSize := by decide
    have hsize := hf.fileSize_eq hheld.1 (by omega)
    have hnext : nextHeader m base = base + f.size := by
      rw [nextHeader, hsize]
      exact Nat.mod_eq_of_lt (by change base + f.size < word; omega)
    have hrest : Archive m (base + f.size) (size - f.size) frames := by
      refine ⟨fun g hg => h.valid g (mem_cons_of_mem _ hg), hheld.2, by omega, ?_⟩
      rcases hends with hend | hzero
      · exact .inl (by omega)
      · rw [← Nat.add_assoc] at hzero
        exact .inr hzero
    have hsame : base + f.size + (size - f.size) = base + size := by omega
    obtain ⟨hheaders, hsizes⟩ := ih hrest (by omega) (by omega : totalSize frames < k)
    rw [hsame] at hheaders
    constructor
    · unfold Tmpfs.headers
      rw [Nat.mod_eq_of_lt (by omega), if_neg (by omega), hf.emptyBlock_eq hheld.1 (by omega),
        if_neg (by simp), hnext, hheaders]
      rfl
    · rw [offsets, map_cons, map_cons, hsize, hsizes]

theorem headers_returns (m : Mem) {fin : Nat} (htop : fin + 2 ^ 37 ≤ word) {fuel ptr : Nat}
    (hptr : ptr ≤ fin + 2 ^ 36 + 1024) (hfuel : fin - ptr < fuel) :
    ∃ ptrs, headers m fin fuel ptr = some ptrs := by
  induction fuel generalizing ptr with
  | zero => omega
  | succ fuel ih =>
    unfold Tmpfs.headers
    rw [Nat.mod_eq_of_lt (by simp only [tarBlockSize]; omega)]
    by_cases hend : fin < ptr + tarBlockSize
    · exact ⟨[], by rw [if_pos hend]⟩
    by_cases hempty : emptyBlock m ptr = true
    · exact ⟨[], by rw [if_neg hend, if_pos hempty]⟩
    have hsize := fileSize_lt m ptr
    have hnext : nextHeader m ptr =
        ptr + ((fileSize m ptr + tarBlockSize - 1) / tarBlockSize + 1) * tarBlockSize := by
      rw [nextHeader]
      refine Nat.mod_eq_of_lt ?_
      simp only [tarBlockSize] at *
      omega
    obtain ⟨ptrs, hptrs⟩ : ∃ ptrs, Tmpfs.headers m fin fuel (nextHeader m ptr) = some ptrs := by
      apply ih
      · rw [hnext]
        simp only [tarBlockSize] at *
        omega
      · rw [hnext]
        simp only [tarBlockSize] at *
        omega
    exact ⟨ptr :: ptrs, by rw [if_neg hend, if_neg hempty, hptrs]; rfl⟩

/-- A file entry with a short name. -/
def fileFrame (name data : Bytes) : Frame :=
  ⟨name ++ replicate (124 - name.length) 0 ++ octDigits 11 data.length ++ replicate 377 0, data⟩

abbrev bareFrame : Frame := fileFrame [] []

theorem bareFrame_valid : bareFrame.Valid :=
  ⟨by decide +kernel, ⟨0x30, by decide +kernel, by decide⟩, by decide, 0, .inl rfl,
    by decide +kernel⟩

theorem bareFrame_bytes : bareFrame.bytes = bareFrame.header := append_nil _

theorem length_frames {frames : List Frame} (h : ∀ f ∈ frames, f.Valid) :
    (frames.flatMap Frame.bytes).length = totalSize frames := by
  rw [length_flatMap, totalSize]
  congr 1
  exact map_congr_left fun f hf => (h f hf).length_bytes

/-- The frames from address 0 on, and zeros behind them. -/
def imageOf (frames : List Frame) : Mem := fun a => ((frames.flatMap Frame.bytes)[a]?).getD 0

theorem archive_imageOf {frames : List Frame} (h : ∀ f ∈ frames, f.Valid) :
    Archive (imageOf frames) 0 (totalSize frames + 1024) frames := by
  refine ⟨h, fun i v hv => ?_, Nat.le_add_right _ _, .inr fun i v hv => ?_⟩
  · rw [imageOf, Nat.zero_add, hv, getD_some]
  · rw [getElem?_replicate, ite_none_right_eq_some] at hv
    rw [imageOf, getElem?_eq_none (by rw [length_frames h]; omega), getD_none]
    exact some.inj hv.2

/-- Every archive is read entry by entry, where its buffer does not end in the last block of the
address space, and whatever is in a buffer the loop comes to its end if that is far from the top. -/
theorem frames_read :
    (∀ (m : Mem) (base size : Nat) (frames : List Frame), Archive m base size frames →
        base + size + tarBlockSize < word →
        headers m ((base + size) % word) word base = some (offsets base frames) ∧
          (offsets base frames).map (fileSize m) = (frames.map fun f => f.data.length) ∧
          ∀ fs, loadLoop m ((base + size) % word) word base fs =
            loadAll m (offsets base frames) fs) ∧
      ∀ (m : Mem) (base size : Nat), base + size + 2 ^ 37 ≤ word →
        ∃ ptrs, headers m ((base + size) % word) word base = some ptrs ∧
          ∀ fs, loadLoop m ((base + size) % word) word base fs = loadAll m ptrs fs := by
  constructor
  · intro m base size frames h htop
    have hfits := h.fits
    rw [Nat.mod_eq_of_lt (by omega)]
    obtain ⟨hheaders, hsizes⟩ := h.headers htop (by omega : totalSize frames < word)
    exact ⟨hheaders, hsizes, loadLoop_eq hheaders⟩
  · intro m base size htop
    rw [Nat.mod_eq_of_lt (by omega)]
    obtain ⟨ptrs, hptrs⟩ : ∃ ptrs, headers m (base + size) word base = some ptrs := by
      apply headers_returns m htop <;> omega
    exact ⟨ptrs, hptrs, loadLoop_eq hptrs⟩

/-- The files `a`, with one byte, and `b`, with two. -/
def twoFrames : List Frame := [fileFrame [0x61] [0x41], fileFrame [0x62] [0x42, 0x43]]

theorem twoFrames_valid : ∀ f ∈ twoFrames, f.Valid := by
  simp only [twoFrames, forall_mem_cons]
  exact ⟨⟨by decide +kernel, ⟨0x61, by decide +kernel, by decide⟩, by decide, 0, .inl rfl,
    by decide +kernel⟩, ⟨by decide +kernel, ⟨0x62, by decide +kernel, by decide⟩, by decide, 0,
    Or.inl rfl, by decide +kernel⟩, fun f hf => absurd hf not_mem_nil⟩

theorem frames_read_twoFrames :
    Archive (imageOf twoFrames) 0 3072 twoFrames ∧
      headers (imageOf twoFrames) 3072 word 0 = some [0, 1024] ∧
      [0, 1024].map (fileSize (imageOf twoFrames)) = [1, 2] ∧
      (∀ fs, loadLoop (imageOf twoFrames) 3072 word 0 fs =
        loadAll (imageOf twoFrames) [0, 1024] fs) ∧
      ∃ ptrs, headers (imageOf twoFrames) 3072 word 0 = some ptrs ∧
        ∀ fs, loadLoop (imageOf twoFrames) 3072 word 0 fs = loadAll (imageOf twoFrames) ptrs fs := by
  have h : Archive (imageOf twoFrames) 0 3072 twoFrames := archive_imageOf twoFrames_valid
  obtain ⟨hheaders, hsizes, hload⟩ := frames_read.1 _ 0 3072 twoFrames h (by decide)
  exact ⟨h, hheaders, hsizes, hload, frames_read.2 _ 0 3072 (by decide)⟩

/-! ## At the top of the address space -/

/-- Two such entries in the last two blocks, and zeros before. -/
def topBlocks : Mem := fun a =>
  if word - 1024 ≤ a then (bareFrame.header[a % tarBlockSize]?).getD 0 else 0

theorem topBlocks_holds {k : Nat} (hk : k = 1 ∨ k = 2) :
    Holds topBlocks (word - k * tarBlockSize) bareFrame.bytes := by
  rw [bareFrame_bytes]
  intro i v hv
  have hi : i < tarBlockSize := by
    have := (List.getElem?_eq_some_iff.mp hv).1
    rwa [bareFrame_valid.length] at this
  have hmod : (word - k * tarBlockSize + i) % tarBlockSize = i := by
    simp only [word, tarBlockSize] at *
    omega
  have hlow : word - 1024 ≤ word - k * tarBlockSize + i := by
    simp only [word, tarBlockSize] at *
    omega
  rw [topBlocks, if_pos hlow, hmod, hv, getD_some]

/-- The buffer has one entry, and ends one block before the top. The pointer wraps in the test for
the end, and what lies behind the buffer is read as an entry. -/
theorem entry_behind_buffer :
    Archive topBlocks (word - 1024) tarBlockSize [bareFrame] ∧
      headers topBlocks ((word - 1024 + tarBlockSize) % word) word (word - 1024) =
        some [word - 1024, word - 512] ∧
      offsets (word - 1024) [bareFrame] = [word - 1024] := by
  have h2 : Holds topBlocks (word - 1024) bareFrame.bytes := topBlocks_holds (Or.inr rfl)
  have h1 : Holds topBlocks (word - 512) bareFrame.bytes := topBlocks_holds (Or.inl rfl)
  have hzero : Holds topBlocks 0 (replicate tarBlockSize 0) := by
    intro i v hv
    rw [getElem?_replicate, ite_none_right_eq_some] at hv
    obtain ⟨hi, hv⟩ := hv
    rw [topBlocks, if_neg (by simp only [word, tarBlockSize] at *; omega)]
    exact some.inj hv
  refine ⟨⟨?_, ?_, by decide, .inl (by decide)⟩, ?_, rfl⟩
  · intro f hf
    rw [mem_singleton.mp hf]
    exact bareFrame_valid
  · rw [flatMap_singleton]
    exact h2
  · have hnext2 : nextHeader topBlocks (word - 1024) = word - 512 := by
      rw [nextHeader, bareFrame_valid.fileSize_eq h2 (by decide)]
      decide
    have hnext1 : nextHeader topBlocks (word - 512) = 0 := by
      rw [nextHeader, bareFrame_valid.fileSize_eq h1 (by decide)]
      decide
    have hthree : ∀ fuel, headers topBlocks ((word - 1024 + tarBlockSize) % word) (fuel + 3)
        (word - 1024) = some [word - 1024, word - 512] := by
      intro fuel
      unfold headers
      rw [if_neg (by decide), bareFrame_valid.emptyBlock_eq h2 (by decide), if_neg (by decide), hnext2]
      unfold headers
      rw [if_neg (by decide), bareFrame_valid.emptyBlock_eq h1 (by decide), if_neg (by decide), hnext1]
      unfold headers
      rw [emptyBlock_of_zeros (by decide) hzero, if_pos rfl, ite_self]
      rfl
    exact hthree (word - 3)

end Terrakernel.Tmpfs
