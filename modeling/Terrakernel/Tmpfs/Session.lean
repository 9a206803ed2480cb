import Terrakernel.Tmpfs.Initrd
import Terrakernel.Tmpfs.Moves

/-!
# A file is opened, written and closed again

With the heap full the bytes of a new file go to the lowest addresses.
-/

namespace Terrakernel.Tmpfs

open Memory Vmm Links Heap Function Option
open List hiding Mem lookup

variable {foreign : List Nat} {fs : Fs} {bs : List Blk} {kids : Kids} {i : Fin 256}
  {buf p : Bytes} {n : Nat}

section Write

variable {foreign : List Nat} {fs : Fs} {bs : List Blk} {live : List Nat} {kids : Kids}
  (h : Sane foreign fs bs live kids)

include h

theorem write_failed (h0 : (fs.fds i).node ≠ 0) (hoff : (fs.fds i).offset.toNat = 0)
    (hfile : notFile fs (fs.fds i) = false) (hmax : buf.length ≤ 2 ^ 47) {heap : Heap}
    (hgrow : grow fs.heap (fs.nodes (fs.fds i).node).content
      ((fs.fds i).offset + BitVec.ofNat 64 buf.length).toNat = some (0, heap))
    (hk : Keeps [] fs.heap bs heap bs) :
    ∃ r fs', write fs i buf = some (r, fs') ∧
      Rewrites fs bs i fs' bs ∧ Sane foreign fs' bs live kids := by
  have hn := h.table.node i h0
  have hend : ((fs.fds i).offset + BitVec.ofNat 64 buf.length).toNat = buf.length := by
    rw [BitVec.toNat_add, BitVec.toNat_ofNat, hoff]
    omega
  rw [write_eq (entryOf_fin i) hfile hgrow]
  unfold afterWrite
  by_cases hc : (fs.nodes (fs.fds i).node).content = 0
  · -- The bytes go to the addresses from 0 on.
    have hdest : (0 + (fs.fds i).offset.toNat) % word = 0 := by
      rw [hoff]
      rfl
    have hacc : accessible 0 buf.length = true := by
      rw [accessible_iff]
      left
      omega
    rw [if_neg fun hh => hh.2 hc, hdest, hacc, if_neg (by simp)]
    have hbelow : Keeps [] fs.heap bs { heap with mem := putBytes heap.mem 0 buf } bs := by
      refine hk.putBelow fun x hx => ?_
      have hhigh := h.owns.high
      rw [← hk.heapBase] at hhigh
      apply putBytes_outside
      simp only [directBase] at *
      omega
    refine ⟨_, _, rfl, ⟨rfl, rfl, ⟨_, rfl⟩, ⟨_, _, rfl⟩,
      hbelow.weaken (nil_subset _)⟩, ?_, ?_, ?_⟩
    · refine (h.owns.keeps hbelow (.refl _)).congr fun m hm => ?_
      simp only [update_apply]
      split_ifs with hmn
      · rw [hmn, hc]
      · rfl
    · refine h.linked.congr fun m _ => ?_
      simp only [update_apply]
      split_ifs with hmn
      · rw [hmn]
        exact ⟨rfl, rfl, rfl⟩
      · exact ⟨rfl, rfl, rfl⟩
    · refine h.table.set i (fun _ => ⟨hn, ?_⟩) fun hfree => h.table.free i hfree
      rw [hend]
      omega
  · simp only [ne_eq, hc, not_false_eq_true, and_self, if_true]
    refine ⟨-1, _, rfl, ⟨rfl, rfl, ⟨_, (update_eq_self i fs.fds).symm⟩,
      ⟨_, _, (update_eq_self _ fs.nodes).symm⟩, hk.weaken (nil_subset _)⟩, ?_⟩
    exact ⟨h.owns.keeps hk (.refl _), h.linked, h.table⟩

theorem write_rewrites (h0 : (fs.fds i).node ≠ 0) (hoff : (fs.fds i).offset.toNat = 0)
    (hpos : 0 < buf.length) (hmax : buf.length ≤ 2 ^ 47) :
    ∃ r fs' bs', write fs i buf = some (r, fs') ∧ Rewrites fs bs i fs' bs' ∧
      Sane foreign fs' bs' live kids ∧
      (notFile fs (fs.fds i) = true → fs' = fs ∧ bs' = bs) ∧
      (notFile fs (fs.fds i) = false →
        failures fs.heap < failures fs'.heap ∨ ∃ q, Wrote fs bs i buf fs' bs' q) ∧
      ∀ u, 0 < u → Room (buf.length + headerSize + u) bs →
        failures fs'.heap = failures fs.heap ∧ Room u bs' := by
  by_cases hfile : notFile fs (fs.fds i) = true
  · refine ⟨-1, fs, bs, ?_, .refl h.owns.sound i, h, fun _ => ⟨rfl, rfl⟩, ?_, ?_⟩
    · simp only [write, entryOf_fin, if_pos hfile]
    · rw [hfile]
      simp
    · exact fun u _ hr => ⟨rfl, hr.mono (by omega)⟩
  rw [Bool.not_eq_true] at hfile
  have hn := h.table.node i h0
  rcases write_file h.owns.sound h.owns.high (entryOf_fin i) hfile (h.owns.mem_used_content hn)
    (h.table.offset i h0) hpos (by omega) with ⟨⟨heap, hgrow, hk⟩, hroom, hfail⟩ | hdone
  · obtain ⟨r, fs', hrun, hw, hs⟩ := write_failed h h0 hoff hfile hmax hgrow hk
    refine ⟨r, fs', bs, hrun, hw, hs, ?_, fun _ => .inl (hfail r fs' hrun), ?_⟩
    · rw [hfile]
      simp
    · intro u _ hr
      rw [hoff, Nat.zero_add] at hroom
      exact absurd (hr.mono (by omega)) hroom
  · obtain ⟨fs', bs', q, hrun, hq, hw, hused, hroom⟩ := hdone
    refine ⟨_, fs', bs', hrun, hw.rewrites, hw.sane h h0 hq (by omega) hused, ?_,
      fun _ => .inr ⟨q, hw⟩, ?_⟩
    · rw [hfile]
      simp
    · intro u hu hr
      refine ⟨hw.served, hroom u hu ?_⟩
      rw [hoff, Nat.zero_add]
      exact hr

end Write

section Held

variable {foreign : List Nat} {fs : Fs} {bs : List Blk} {live : List Nat} {kids : Kids}
  (h : Held foreign fs bs live kids)

include h

/-! ## `close` -/

omit h in
/-- The state without the descriptor. -/
def closed (fs : Fs) (i : Fin 256) : Fs :=
  (fs.setFd i fun f => { f with node := 0, free := true }).setNode (fs.fds i).node
    fun n => { n with refcount := n.refcount - 1 }

omit h in
theorem closed_nodes (fs : Fs) (i : Fin 256) : (closed fs i).nodes =
    update fs.nodes (fs.fds i).node { fs.nodes (fs.fds i).node with
      refcount := (fs.nodes (fs.fds i).node).refcount - 1 } := rfl

theorem Held.closed (hn : Reached fs.root kids (fs.fds i).node) :
    Tmpfs.close fs i = some (0, Tmpfs.closed fs i) ∧ Held foreign (Tmpfs.closed fs i) bs live kids := by
  have hlive := h.linked.reached_mem hn
  have h0 := h.linked.ne_zero hlive
  have hopen : 0 < opens fs.fds (fs.fds i).node := opens_pos_iff.mpr ⟨i, rfl⟩
  have href := h.backed.listed _ hlive (h.linked.listed hn)
  constructor
  · unfold Tmpfs.close
    simp only [entryOf_fin]
    rw [freeNode_keep h.sane hlive (by omega)]
    rfl
  · have hs : Sane foreign (fs.setFd i fun f => { f with node := 0, free := true }) bs live kids :=
      h.sane.setFd (fun hne => absurd rfl hne) fun _ => rfl
    refine ⟨hs.setNode ⟨rfl, rfl, rfl, rfl⟩, ?_, h.sized, h.cwd⟩
    have hopens := fun {m} (hm : m ≠ 0) => opens_cleared fs i hm
    refine h.backed.letGo rfl (fun _ => rfl) ?_ (fun _ => .refl _) (Or.inl ?_)
    · intro m hm hmn
      have := hopens (h.linked.ne_zero hm)
      rwa [if_neg (Ne.symm hmn), Nat.add_zero] at this
    · have := hopens h0
      rwa [if_pos rfl] at this

end Held

/-! ## From `open` to `close` -/

theorem writeAndClose_nil (fs : Fs) (fd : Int) :
    writeAndClose fs fd [] = (close fs fd).map Prod.snd := by
  unfold writeAndClose
  rw [if_neg (by simp)]
  rfl

/-- A file with these bytes, which are in a block of the heap. -/
structure HasData (fs : Fs) (bs : List Blk) (n : Nat) (data : Bytes) : Prop where
  file : (fs.nodes n).isDir = false
  size : (fs.nodes n).size = data.length
  block : data ≠ [] → ∃ b ∈ bs, b.ptr = (fs.nodes n).content ∧ b.free = false ∧ data.length ≤ b.len
  bytes : ∀ j v, data[j]? = some v → fs.heap.mem ((fs.nodes n).content + j) = v

/-- The node `n` may have got other bytes. -/
structure Refilled (fs : Fs) (bs : List Blk) (n : Nat) (buf : Bytes) (fs' : Fs) (bs' : List Blk) :
    Prop where
  root : fs'.root = fs.root
  cwd : fs'.cwd = fs.cwd
  free : (∀ i, (fs.fds i).free = true) → ∀ i, (fs'.fds i).free = true
  nodes : ∃ q s, fs'.nodes = update fs.nodes n
    { fs.nodes n with content := q, size := s }
  keeps : Keeps [(fs.nodes n).content] fs.heap bs fs'.heap bs'
  dir : (fs.nodes n).isDir = true → fs'.nodes = fs.nodes ∧ bs' = bs
  room : ∀ u, 0 < u → Room (buf.length + headerSize + u) bs →
    failures fs'.heap = failures fs.heap ∧ Room u bs'
  bytes : (fs.nodes n).isDir = false → (fs.nodes n).isSymlink = false → (fs.nodes n).size = 0 →
    failures fs'.heap = failures fs.heap → HasData fs' bs' n buf

theorem Wrote.hasData {fs' : Fs} {bs' : List Blk} {q : Nat} (hw : Wrote fs bs i buf fs' bs' q)
    (hoff : (fs.fds i).offset.toNat = 0) (hfile : (fs.nodes (fs.fds i).node).isDir = false)
    (hempty : (fs.nodes (fs.fds i).node).size = 0) : HasData fs' bs' (fs.fds i).node buf := by
  have hnode := congrFun hw.nodes (fs.fds i).node
  rw [update_self, hempty, hoff, Nat.zero_add, Nat.zero_max] at hnode
  refine ⟨?_, ?_, fun _ => ?_, fun j v hv => ?_⟩
  · rw [hnode]
    exact hfile
  · rw [hnode]
  · obtain ⟨c, hc, hptr, hfree, hlen, -⟩ := hw.block
    rw [hoff, Nat.zero_add] at hlen
    exact ⟨c, hc, by rw [hnode, hptr], hfree, hlen⟩
  · have hbyte := hw.written j v hv
    rw [hoff, Nat.add_zero] at hbyte
    rw [hnode]
    exact hbyte

theorem HasData.closed {data : Bytes} (h : HasData fs bs (fs.fds i).node data) :
    HasData (Tmpfs.closed fs i) bs (fs.fds i).node data := by
  have hnode : (Tmpfs.closed fs i).nodes (fs.fds i).node = { fs.nodes (fs.fds i).node with
      refcount := (fs.nodes (fs.fds i).node).refcount - 1 } := by
    rw [closed_nodes, update_self]
  refine ⟨?_, ?_, ?_, ?_⟩
  all_goals rw [hnode]
  · exact h.file
  · exact h.size
  · exact h.block
  · exact h.bytes

theorem fill_rewrites {live : List Nat} (h : Sane foreign fs bs live kids)
    (h0 : (fs.fds i).node ≠ 0) (hoff : (fs.fds i).offset.toNat = 0) (hmax : buf.length ≤ 2 ^ 47) :
    ∃ fs' bs', (if 0 < buf.length then (Tmpfs.write fs i buf).map Prod.snd else some fs) = some fs' ∧
      Rewrites fs bs i fs' bs' ∧ Sane foreign fs' bs' live kids ∧
      (notFile fs (fs.fds i) = true → fs' = fs ∧ bs' = bs) ∧
      (notFile fs (fs.fds i) = false → (fs.nodes (fs.fds i).node).size = 0 →
        failures fs'.heap = failures fs.heap → HasData fs' bs' (fs.fds i).node buf) ∧
      ∀ u, 0 < u → Room (buf.length + headerSize + u) bs →
        failures fs'.heap = failures fs.heap ∧ Room u bs' := by
  have hplain : notFile fs (fs.fds i) = false → (fs.nodes (fs.fds i).node).isDir = false := by
    intro hfile
    unfold notFile at hfile
    simp_all
  by_cases hpos : 0 < buf.length
  · obtain ⟨r, fs', bs', hrun, hw, hs, hsame, hdone, hroom⟩ := write_rewrites h h0 hoff hpos hmax
    refine ⟨fs', bs', by rw [if_pos hpos, hrun]; rfl, hw, hs, hsame, ?_, hroom⟩
    intro hfile hempty hserved
    rcases hdone hfile with hfail | ⟨q, hwrote⟩
    · omega
    · exact hwrote.hasData hoff (hplain hfile) hempty
  · obtain rfl : buf = [] := length_eq_zero_iff.mp (by omega)
    refine ⟨fs, bs, rfl, .refl h.owns.sound i, h, fun _ => ⟨rfl, rfl⟩, ?_,
      fun u _ hr => ⟨rfl, hr.mono (by omega)⟩⟩
    exact fun hfile hempty _ => ⟨hplain hfile, hempty, fun hne => absurd rfl hne, by simp⟩

theorem Held.refilled {live : List Nat} (h : Held foreign fs bs live kids)
    (hn : Reached fs.root kids n) (hi : (fs.fds i).node = 0) (flags : BitVec 32) (mode : Nat)
    (hmax : buf.length ≤ 2 ^ 47) :
    ∃ fs' bs', writeAndClose (Tmpfs.opened fs i n flags mode) i buf = some fs' ∧
      Held foreign fs' bs' live kids ∧ Refilled fs bs n buf fs' bs' := by
  have hlive := h.linked.reached_mem hn
  obtain ⟨fs1, hfs1⟩ : ∃ fs1, Tmpfs.opened fs i n flags mode = fs1 := ⟨_, rfl⟩
  have h1 : Held foreign fs1 bs live kids := hfs1 ▸ h.opened hlive hi flags mode
  have hentry : fs1.fds i = ⟨i, n, 0, flags, mode, (fs.nodes n).isDir, false⟩ := by
    rw [← hfs1, opened_fds, update_self]
  have hnode : (fs1.fds i).node = n := by rw [hentry]
  have hnodes1 : fs1.nodes = update fs.nodes n
      { fs.nodes n with refcount := (fs.nodes n).refcount + 1 } := by rw [← hfs1]; rfl
  have hheap1 : fs1.heap = fs.heap := by rw [← hfs1]; rfl
  have hfile : notFile fs1 (fs1.fds i) = ((fs.nodes n).isDir || (fs.nodes n).isSymlink) := by
    simp [notFile, hentry, hnodes1, h.linked.ne_zero hlive]
  obtain ⟨fs2, bs2, hfill, hw, hs, hsame, hdone, hroom⟩ := fill_rewrites h1.sane
    (by rw [hnode]; exact h.linked.ne_zero hlive) (by rw [hentry]; rfl) hmax
  have h2 := h1.rewrites (by rw [hnode]; exact hlive) hw hs
  obtain ⟨o, hfds2⟩ := hw.fds
  obtain ⟨q, s, hnodes2⟩ := hw.nodes
  rw [hnode, hnodes1, update_self, update_idem] at hnodes2
  have hnode2 : (fs2.fds i).node = n := by
    rw [hfds2, update_self]
    exact hnode
  have hroot2 : fs2.root = fs.root := hw.root.trans (by rw [← hfs1]; rfl)
  obtain ⟨hclose, h3⟩ := h2.closed (by rw [hroot2, hnode2]; exact hn)
  refine ⟨Tmpfs.closed fs2 i, bs2, ?_, h3, hroot2, ?_, ?_, ⟨q, s, ?_⟩, ?_, ?_, ?_, ?_⟩
  · unfold writeAndClose
    rw [hfs1, hfill]
    simp only [bind_eq_bind, bind_some, hclose, map_some]
  · exact hw.cwd.trans (by rw [← hfs1]; rfl)
  · intro hall j
    change (update fs2.fds i _ j).free = true
    by_cases hj : j = i
    · rw [hj, update_self]
    · rw [update_of_ne hj, hfds2, update_of_ne hj, ← hfs1, opened_fds,
        update_of_ne hj]
      exact hall j
  · rw [closed_nodes, hnode2, hnodes2, update_self, update_idem, Int.add_sub_cancel]
  · have hcontent1 : (fs1.nodes (fs1.fds i).node).content = (fs.nodes n).content := by
      rw [hnode, hnodes1, update_self]
    rw [← hheap1, ← hcontent1]
    exact hw.keeps
  · intro hdir
    obtain ⟨hfs2, hbs2⟩ := hsame (by rw [hfile, hdir]; rfl)
    refine ⟨?_, hbs2⟩
    rw [closed_nodes, hnode2, hfs2, hnodes1, update_self, update_idem,
      Int.add_sub_cancel, update_eq_self]
  · rw [← hheap1]
    exact hroom
  · intro hdir hlink hempty hserved
    have hdata := hdone (by rw [hfile, hdir, hlink]; rfl)
      (by rw [hnode, hnodes1, update_self]; exact hempty) (by rw [hheap1]; exact hserved)
    rw [hnode, ← hnode2] at hdata
    rw [← hnode2]
    exact hdata.closed

/-! ## The directories of a path -/

/-- What stands before each slash in `rest`. -/
def parentPaths : Bytes → Bytes → Names
  | _, [] => []
  | before, c :: rest =>
    if c = slash then before :: parentPaths (before ++ [c]) rest
    else parentPaths (before ++ [c]) rest

theorem mkdirParents_eq (before rest : Bytes) (fs : Fs) :
    mkdirParents before rest fs = (parentPaths before rest).foldlM
      (fun fs p => (mkdir fs (some p) 0o755).map Prod.snd) fs := by
  induction rest generalizing before fs with
  | nil => rfl
  | cons c rest ih =>
    unfold mkdirParents parentPaths
    by_cases hc : c = slash
    · rw [if_pos hc, if_pos hc, foldlM_cons]
      exact Option.bind_congr fun fs' _ => ih _ fs'
    · rw [if_neg hc, if_neg hc]
      exact ih _ fs

/-! ## Calls in the root, in terms of the walk -/

theorem startOf_root (fs : Fs) (p : Bytes) : startOf fs fs.root p = fs.root := by
  unfold startOf
  split_ifs <;> rfl

theorem mkdir_walk (hcwd : fs.cwd = fs.root) (hroot : fs.root ≠ 0) (hp : p ≠ []) (mode : Nat) :
    mkdir fs (some p) mode = (createLoop true mode fs fs.root (tokens p)).map fun r =>
      if r.1 = 0 then (-1, r.2) else (0, r.2.setNode r.1 (wiped mode)) := by
  rw [mkdir_eq, mkdirFrom, hcwd, createAtPathInternal_some hroot hp, startOf_root]

theorem resolvePath_walk (p : Bytes) (hcwd : fs.cwd = fs.root) (hroot : fs.root ≠ 0) :
    resolvePath fs (some p) = resolveLoop fs.nodes fs.root (tokens p) := by
  rw [resolvePath_some (hcwd ▸ hroot), hcwd, startOf_root]

theorem open_missing {flags : BitVec 32} (hcwd : fs.cwd = fs.root) (hroot : fs.root ≠ 0)
    (hp : p ≠ []) (hmake : flags &&& oCreat ≠ 0) (mode : Nat) (devpath : Path)
    (hno : resolveLoop fs.nodes fs.root (tokens p) = some 0) :
    Tmpfs.open fs (some p) flags mode devpath =
      (createLoop false mode fs fs.root (tokens p)).bind fun r =>
        if r.1 = 0 then some (-2, r.2)
        else (makeDevice r.2 r.1 flags devpath).map fun fs => openNode fs r.1 flags mode := by
  have hlook : resolvePathInternal fs fs.root (some p) = some 0 := by
    rw [← hcwd]
    exact (resolvePath_walk p hcwd hroot).trans hno
  have hcreate : createAtPathInternal fs fs.root (some p) false mode =
      createLoop false mode fs fs.root (tokens p) := by
    rw [createAtPathInternal_some hroot hp, startOf_root]
  rw [open_eq, hcwd, openFrom, if_neg (by simp), hlook, bind_some, if_pos ⟨rfl, hmake⟩, hcreate]

theorem open_existing {flags : BitVec 32} (hcwd : fs.cwd = fs.root) (hroot : fs.root ≠ 0)
    (mode : Nat) (devpath : Path) (hres : resolveLoop fs.nodes fs.root (tokens p) = some n)
    (h0 : n ≠ 0) : Tmpfs.open fs (some p) flags mode devpath = some (openNode fs n flags mode) := by
  unfold Tmpfs.open
  rw [if_neg (by simp), resolvePath_walk p hcwd hroot, hres]
  simp only [bind_eq_bind, bind_some, h0, false_and, if_false]

theorem open_walk {live : List Nat} (h : Sane foreign fs bs live kids) {flags : BitVec 32}
    (hcwd : fs.cwd = fs.root) (hp : p ≠ []) (hmake : flags &&& oCreat ≠ 0) (mode : Nat)
    (devpath : Path) (hdev : flags &&& oBuiltinDeviceFile = 0) :
    Tmpfs.open fs (some p) flags mode devpath =
      (createLoop false mode fs fs.root (tokens p)).map fun r =>
        if r.1 = 0 then (-2, r.2) else openNode r.2 r.1 flags mode := by
  have hroot := h.linked.ne_zero h.linked.root_mem
  obtain ⟨n, hres, -⟩ := resolveLoop_spec h.linked .root (tokens p)
  by_cases h0 : n = 0
  · rw [open_missing hcwd hroot hp hmake mode devpath (h0 ▸ hres)]
    simp only [makeDevice, hdev, if_true, map_some]
    cases createLoop false mode fs fs.root (tokens p) with
    | none => rfl
    | some r =>
      rw [bind_some, map_some]
      split_ifs <;> rfl
  · have hwalk : createLoop false mode fs fs.root (tokens p ++ []) = some (n, fs) :=
      createLoop_append false mode [] hres h0
    rw [append_nil] at hwalk
    rw [open_existing hcwd hroot mode devpath hres h0, hwalk, map_some, if_neg h0]

/-! ## A regular file -/

/-- What follows the making of the directories. -/
def fillFile (path data : Bytes) (fs : Fs) : Option Fs :=
  (Tmpfs.open fs (some path) (oCreat ||| oWronly ||| oTrunc) 0o644 none).bind fun r =>
    (resolvePath r.2 (some path)).bind fun _ =>
      if 0 ≤ r.1 then writeAndClose r.2 r.1 data else some r.2

theorem loadFile_eq (m : Mem) (ptr : Nat) (path : Bytes) (fs : Fs) :
    loadFile m ptr path fs = (mkdirParents (path.take 1) (path.drop 1) fs).bind
      (fillFile path (bytesAt m (ptr + tarBlockSize) (fileSize m ptr))) := rfl

theorem Held.fillFile {fs1 : Fs} {bs1 : List Blk} {live live1 : List Nat} {kids1 : Kids}
    (h : Held foreign fs bs live kids) (hcwd : fs.cwd = fs.root) {path : Bytes} (hp : path ≠ [])
    (hmake : createLoop false 0o644 fs fs.root (tokens path) = some (n, fs1))
    (h1 : Held foreign fs1 bs1 live1 kids1) (hn : n = 0 ∨ Reached fs1.root kids1 n)
    {data : Bytes} (hmax : data.length ≤ 2 ^ 47) :
    (n = 0 ∨ ∀ i, (fs1.fds i).free = false) ∧ Tmpfs.fillFile path data fs = some fs1 ∨
      n ≠ 0 ∧ ∃ fs' bs', Tmpfs.fillFile path data fs = some fs' ∧
        Held foreign fs' bs' live1 kids1 ∧ Refilled fs1 bs1 n data fs' bs' := by
  have hmakes : (oCreat ||| oWronly ||| oTrunc) &&& oCreat ≠ 0 := by decide
  have hopen := open_walk h.sane hcwd hp hmakes 0o644 none (by decide)
  rw [hmake, map_some] at hopen
  unfold Tmpfs.fillFile
  rw [hopen, bind_some]
  -- The lookup for the log returns in every state.
  have hlook : ∀ {fs2 : Fs}, Held foreign fs2 bs1 live1 kids1 →
      ∃ k, resolvePath fs2 (some path) = some k := fun h2 => by
    obtain ⟨k, hk, -⟩ := resolvePathInternal_cases h2.sane h2.cwd (some path)
    exact ⟨k, hk⟩
  obtain ⟨k1, hk1⟩ := hlook h1
  by_cases h0 : n = 0
  · refine .inl ⟨.inl h0, ?_⟩
    simp only [h0, if_true, hk1, bind_some]
    rfl
  have hreach := hn.resolve_left h0
  simp only [h0, if_false]
  rcases openNode_outcome h0 (oCreat ||| oWronly ||| oTrunc) 0o644 with ⟨hfull, he⟩ | ⟨i, hi, he⟩
  · refine .inl ⟨.inr hfull, ?_⟩
    rw [he]
    simp only [hk1, bind_some]
    rfl
  · have hfree : (fs1.fds i).free = true := by simpa using find?_some hi
    have hnode := h1.sane.table.free i hfree
    obtain ⟨fs', bs', hrun, h', hr⟩ :=
      h1.refilled hreach hnode (oCreat ||| oWronly ||| oTrunc) 0o644 hmax
    refine .inr ⟨h0, fs', bs', ?_, h', hr⟩
    obtain ⟨k2, hk2⟩ := hlook
      (h1.opened (h1.linked.reached_mem hreach) hnode (oCreat ||| oWronly ||| oTrunc) 0o644)
    rw [he]
    simp only [hk2, bind_some]
    rw [if_pos (Int.natCast_nonneg _), hrun]

/-! ## The device file -/

/-- The end of `load_initrd`. -/
def makeDeviceFile (fs : Fs) : Option Fs :=
  (Tmpfs.open fs (some devInitrdPath) (oCreat ||| oBuiltinDeviceFile) 0o644
    (some initrdPath)).bind fun r =>
      if 0 ≤ r.1 then (close r.2 r.1).map Prod.snd else some r.2

theorem loadInitrd_eq (m : Mem) (base size : Nat) (fs : Fs) :
    loadInitrd m base size fs = (mkdir fs (some initrdPath) 0o755).bind fun r =>
      (loadLoop m ((base + size) % word) word base r.2).bind makeDeviceFile := rfl

/-- What `load_initrd` does with the descriptor. -/
def closeOpened (r : Int × Fs) : Option Fs :=
  if 0 ≤ r.1 then (close r.2 r.1).map Prod.snd else some r.2

theorem opened_and_closed {live : List Nat} (h : Held foreign fs bs live kids)
    (hn : Reached fs.root kids n) (flags : BitVec 32) (mode : Nat) :
    ∃ fs' bs', closeOpened (openNode fs n flags mode) = some fs' ∧ Held foreign fs' bs' live kids ∧
      Refilled fs bs n [] fs' bs' := by
  unfold closeOpened
  rcases openNode_outcome (h.ne_zero hn) flags mode with ⟨-, he⟩ | ⟨i, hi, he⟩
  · refine ⟨fs, bs, by rw [he]; rfl, h, rfl, rfl, fun hall => hall,
      ⟨_, _, (update_eq_self n fs.nodes).symm⟩,
      (Keeps.refl h.sane.owns.sound).weaken (nil_subset _), fun _ => ⟨rfl, rfl⟩,
      fun u _ hr => ⟨rfl, hr.mono (by omega)⟩, ?_⟩
    exact fun hdir _ hsize _ => ⟨hdir, hsize, fun hne => absurd rfl hne, fun j v hv => by simp at hv⟩
  · have hfree : (fs.fds i).free = true := by simpa using find?_some hi
    have hmax : ([] : Bytes).length ≤ 2 ^ 47 := Nat.zero_le _
    obtain ⟨fs', bs', hrun, h', hr⟩ := h.refilled hn (h.sane.table.free i hfree) flags mode hmax
    refine ⟨fs', bs', ?_, h', hr⟩
    rw [he, if_pos (Int.natCast_nonneg _), ← hrun, writeAndClose_nil]

/-- The state in which a new node is the device file. -/
def marked (fs : Fs) (n : Nat) : Fs :=
  fs.setNode n fun m => { m with isdev := true, devpath := initrdPath.take 255 }

theorem marked_of_ne {m : Nat} (hm : m ≠ n) : (marked fs n).nodes m = fs.nodes m := by
  rw [marked, setNode_nodes, if_neg hm]

theorem marked_self (fs : Fs) (n : Nat) : (marked fs n).nodes n =
    { fs.nodes n with isdev := true, devpath := initrdPath.take 255 } := by
  rw [marked, setNode_nodes, if_pos rfl]

theorem makeDeviceFile_existing (hcwd : fs.cwd = fs.root) (hroot : fs.root ≠ 0)
    (hn : resolveLoop fs.nodes fs.root [devName, initrdName] = some n) (h0 : n ≠ 0) :
    makeDeviceFile fs = closeOpened (openNode fs n (oCreat ||| oBuiltinDeviceFile) 0o644) := by
  have htok : tokens devInitrdPath = [devName, initrdName] := by decide
  rw [← htok] at hn
  unfold makeDeviceFile
  rw [open_existing hcwd hroot 0o644 (some initrdPath) hn h0, bind_some]
  rfl

theorem makeDeviceFile_missing (hcwd : fs.cwd = fs.root) (hroot : fs.root ≠ 0)
    (hno : resolveLoop fs.nodes fs.root [devName, initrdName] = some 0) :
    makeDeviceFile fs = (createLoop false 0o644 fs fs.root [devName, initrdName]).bind fun r =>
      if r.1 = 0 then some r.2
      else closeOpened (openNode (marked r.2 r.1) r.1 (oCreat ||| oBuiltinDeviceFile) 0o644) := by
  have htok : tokens devInitrdPath = [devName, initrdName] := by decide
  have hmakes : (oCreat ||| oBuiltinDeviceFile) &&& oCreat ≠ 0 := by decide
  have hp : devInitrdPath ≠ [] := cons_ne_nil _ _
  rw [← htok] at hno ⊢
  unfold makeDeviceFile
  rw [open_missing hcwd hroot hp hmakes 0o644 (some initrdPath) hno, bind_assoc]
  refine Option.bind_congr fun r _ => ?_
  by_cases h0 : r.1 = 0
  · rw [if_pos h0, if_pos h0]
    rfl
  · rw [if_neg h0, if_neg h0]
    rfl

end Terrakernel.Tmpfs
