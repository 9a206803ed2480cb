import Terrakernel.Tmpfs.Archive
import Terrakernel.Tmpfs.View

/-!
# Entries of an archive, and what is read of them

The path of an entry stands in two fields of its header, joined by a slash.
-/

namespace Terrakernel.Tmpfs

open Memory Vmm
open List hiding Mem

structure Entry where
  path : Names
  kind : Kind
  deriving DecidableEq, Repr

/-- Where the entry is to be found. -/
abbrev Entry.place (e : Entry) : Names := initrdName :: e.path

theorem place_names {e : Entry} (h : ∀ t ∈ e.path, IsName t) : ∀ t ∈ e.place, IsName t := by
  intro t ht
  rcases mem_cons.mp ht with rfl | ht
  · decide
  · exact h t ht

/-- The paths of the entries are distinct, and no file is a directory on the way to another entry. -/
structure ValidEntries (es : List Entry) : Prop where
  nonempty : ∀ e ∈ es, e.path ≠ []
  names : ∀ e ∈ es, ∀ t ∈ e.path, IsName t
  short : ∀ e ∈ es, (pathOf e.place).length < 256
  distinct : (es.map Entry.path).Nodup
  files : ∀ e ∈ es, e.kind ≠ .dir → ∀ e' ∈ es, e.path <+: e'.path → e' = e

/-- The entry in the format of `struct ustar_header`. The components of the path are split between
`prefix` and `name`, and the name has its terminator. -/
structure Encodes (e : Entry) (f : Frame) : Prop where
  path : ∃ dirs last trail, e.path = dirs ++ last ∧ last ≠ [] ∧
    (trail = [] ∨ trail = [slash] ∧ e.kind = .dir) ∧
    ((pathOf last).tail ++ trail).length < 100 ∧ (pathOf dirs).tail.length ≤ 155 ∧
    (pathOf last).tail ++ trail ++ [0] <+: f.header ∧
    (pathOf dirs).tail ++ [0] <+: f.header.drop 345
  kind : match e.kind with
    | .dir => f.header[156]? = some 0x35 ∧ f.data = []
    | .file data => (f.header[156]? = some 0x30 ∨ f.header[156]? = some 0) ∧ f.data = data

/-! ## Strings in memory -/

theorem bytesAt_append (m : Mem) (a n k : Nat) :
    bytesAt m a (n + k) = bytesAt m a n ++ bytesAt m (a + n) k := by
  simp only [bytesAt, range_add, map_append, List.map_map, Nat.add_assoc]
  rfl

theorem stringAt_of_holds {m : Mem} {a : Nat} {s : Bytes} (h : Holds m a (s ++ [0]))
    (hnul : ∀ b ∈ s, b ≠ 0) (hlen : s.length < 256) (hfit : a + s.length < word) :
    stringAt m a = s := by
  have hbytes := bytesAt_of_holds h (by rw [length_append, length_singleton]; omega)
  rw [length_append, length_singleton] at hbytes
  have hsplit : 256 = s.length + 1 + (255 - s.length) := by omega
  rw [stringAt, hsplit, bytesAt_append, hbytes, append_assoc,
    takeWhile_append_of_pos (by simpa using hnul), singleton_append,
    takeWhile_cons_of_neg (by simp), append_nil]

theorem slash_cons_tail {ps : Names} (h : ps ≠ []) (rest : Bytes) :
    slash :: ((pathOf ps).tail ++ rest) = pathOf ps ++ rest := by
  cases ps with
  | nil => exact absurd rfl h
  | cons t ts => rfl

theorem noNul_pathOf {ps : Names} (h : ∀ t ∈ ps, IsName t) : ∀ b ∈ pathOf ps, b ≠ 0 := by
  intro b hb
  obtain ⟨t, ht, hbt⟩ := mem_flatMap.mp hb
  rcases mem_cons.mp hbt with rfl | hbt
  · decide
  · exact (h t ht).noNul b hbt

section Header

variable {m : Mem} {ptr : Nat} {e : Entry} {f : Frame} (henc : Encodes e f) (hf : f.Valid)
  (hheld : Holds m ptr f.bytes) (hfit : ptr + f.size ≤ word)

include hfit in
theorem Frame.header_fit : ptr + tarBlockSize ≤ word := by
  have : tarBlockSize ≤ f.size := Nat.le_mul_of_pos_left _ (Nat.succ_pos _)
  omega

include hf hheld hfit

theorem Frame.Valid.header_byte {i : Nat} {v : Byte} (h : f.header[i]? = some v) :
    m ((ptr + i) % word) = v := by
  have hi := (List.getElem?_eq_some_iff.mp h).1
  have hend := Frame.header_fit hfit
  rw [hf.length] at hi
  rw [Nat.mod_eq_of_lt (by omega)]
  exact Frame.holds_header hheld i v h

theorem Frame.Valid.data_eq : bytesAt m (ptr + tarBlockSize) (fileSize m ptr) = f.data := by
  rw [hf.fileSize_eq hheld hfit]
  have hholds := hheld
  rw [Frame.bytes, holds_append, holds_append, hf.length] at hholds
  refine bytesAt_of_holds hholds.2.1 ?_
  have := hf.length_bytes
  rw [Frame.bytes, length_append, length_append, hf.length] at this
  omega

include henc

theorem Encodes.typeflag_eq :
    (e.kind = .dir → typeflag m ptr = 0x35) ∧
      (e.kind ≠ .dir → typeflag m ptr = 0x30 ∨ typeflag m ptr = 0) := by
  have hkind := henc.kind
  have hbyte := fun {v : Byte} => @Frame.Valid.header_byte m ptr f hf hheld hfit 156 v
  unfold typeflag
  cases hk : e.kind with
  | dir =>
    rw [hk] at hkind
    exact ⟨fun _ => hbyte hkind.1, fun hne => absurd rfl hne⟩
  | file data =>
    rw [hk] at hkind
    exact ⟨fun hdir => absurd hdir (by simp), fun _ => hkind.1.imp hbyte hbyte⟩

variable (hnames : ∀ t ∈ e.path, IsName t)

include hnames

theorem Encodes.fields : ∃ dirs last trail, e.path = dirs ++ last ∧ last ≠ [] ∧ Trails trail ∧
    (e.kind ≠ .dir → trail = []) ∧ stringAt m ptr = (pathOf last).tail ++ trail ∧
    stringAt m (ptr + 345) = (pathOf dirs).tail ∧ (m ((ptr + 345) % word) = 0 ↔ dirs = []) := by
  obtain ⟨dirs, last, trail, hpath, hlast, htrail, hlen, hlen', hname, hpre⟩ := henc.path
  have hend := Frame.header_fit hfit
  have hholds := Frame.holds_header hheld
  have hholds' := hholds.drop (by rw [hf.length]; decide : 345 ≤ f.header.length)
  have hdirs : ∀ t ∈ dirs, IsName t := fun t ht => hnames t (by rw [hpath]; simp [ht])
  have hnul : ∀ b ∈ (pathOf dirs).tail, b ≠ 0 :=
    fun b hb => noNul_pathOf hdirs b (mem_of_mem_tail hb)
  simp only [tarBlockSize] at hend
  refine ⟨dirs, last, trail, hpath, hlast, htrail.imp id And.left, ?_, ?_, ?_, ?_⟩
  · exact fun hne => htrail.resolve_right fun hdir => hne hdir.2
  · refine stringAt_of_holds (hholds.mono hname) ?_ (by omega) (by omega)
    intro b hb
    rcases mem_append.mp hb with hb | hb
    · exact noNul_pathOf (fun t ht => hnames t (by rw [hpath]; simp [ht])) b (mem_of_mem_tail hb)
    · rcases htrail with rfl | ⟨rfl, -⟩
      · cases hb
      · rw [mem_singleton.mp hb]
        decide
  · exact stringAt_of_holds (hholds'.mono hpre) hnul (by omega) (by omega)
  · have hfirst := hholds'.mono hpre 0
    rw [Nat.mod_eq_of_lt (by omega)]
    cases dirs with
    | nil => simpa using hfirst 0 rfl
    | cons t ts =>
      obtain ⟨b, t', rfl⟩ := exists_cons_of_ne_nil (hdirs t mem_cons_self).ne_nil
      have hb : m (ptr + 345) = b := hfirst b rfl
      have hb0 := (hdirs (b :: t') mem_cons_self).noNul b mem_cons_self
      exact ⟨fun h0 => absurd (hb.symm.trans h0) hb0, fun hnil => absurd hnil (by simp)⟩

theorem Encodes.not_skipped : ¬ (stringAt m ptr = dot ∨ stringAt m ptr = dotdot) := by
  obtain ⟨dirs, last, trail, hpath, hlast, htrail, -, hname, -⟩ :=
    henc.fields hf hheld hfit hnames
  obtain ⟨t, ts, rfl⟩ := exists_cons_of_ne_nil hlast
  have ht : IsName t := hnames t (by rw [hpath]; simp)
  have htok : strtok (stringAt m ptr) = some (t, (pathOf ts ++ trail).tail) := by
    rw [hname, pathOf_cons, tail_cons, append_assoc]
    exact strtok_token ht.ne_nil ht.noSlash (htrail.head? ts)
  rintro (hdot | hdot) <;> rw [hdot] at htok
  · have hfirst : strtok dot = some (dot, []) := by decide
    rw [hfirst, Option.some.injEq, Prod.mk.injEq] at htok
    exact ht.ne_dot htok.1.symm
  · have hfirst : strtok dotdot = some (dotdot, []) := by decide
    rw [hfirst, Option.some.injEq, Prod.mk.injEq] at htok
    exact ht.ne_dotdot htok.1.symm

theorem Encodes.cleanPath_eq (hshort : (pathOf e.place).length < 256) : ∃ trail, Trails trail ∧
    (e.kind ≠ .dir → trail = []) ∧ cleanPath m ptr = pathOf e.place ++ trail := by
  obtain ⟨dirs, last, trail, hpath, hlast, htrail, hfile, hname, hpre, hbyte⟩ :=
    henc.fields hf hheld hfit hnames
  have hfull : fullPath m ptr = (pathOf e.place ++ trail).take 255 := by
    unfold fullPath
    simp only [hname, hpre]
    congr 1
    rw [pathOf_cons, hpath, pathOf_append, slash_cons_tail hlast]
    split_ifs with hb
    · rw [slash_cons_tail fun hd => hb (hbyte.mpr hd)]
      simp
    · rw [hbyte.mp (not_not.mp hb)]
      simp
  obtain ⟨trail', htrail', hempty, htake⟩ := htrail.take (by omega : (pathOf e.place).length ≤ 255)
  refine ⟨trail', htrail', fun hne => hempty (hfile hne), ?_⟩
  rw [cleanPath, hfull, htake, cleanLoop_pathOf (fun t ht => (place_names hnames t ht).plain)
    htrail' (by decide)]

end Header

end Terrakernel.Tmpfs
