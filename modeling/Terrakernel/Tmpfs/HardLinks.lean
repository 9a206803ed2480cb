import Terrakernel.Tmpfs.Descriptors
import Terrakernel.Tmpfs.Failures
import Terrakernel.Tmpfs.Mkdir

/-!
# Hard links

`link` makes a second node with the content pointer and the size of the first.
-/

namespace Terrakernel.Tmpfs

open Memory Vmm Links Heap Function
open List hiding length

variable {fs fs' fs1 : Fs} {oldpath newpath : Path} {n k m : Nat} {r fd : Int} {bs bs' : List Blk}
  {kids kids' : Kids} {R : Rules} {foreign : List Nat}

/-! ## The call -/

/-- What `link` writes to the new node `m` and to the old one. -/
def twinned (fs : Fs) (n m : Nat) : Fs :=
  (fs.setNode m fun k =>
    { k with
      isDir := (fs.nodes n).isDir, isSymlink := (fs.nodes n).isSymlink,
      content := (fs.nodes n).content, size := (fs.nodes n).size, mode := (fs.nodes n).mode,
      uid := (fs.nodes n).uid, gid := (fs.nodes n).gid, refcount := (fs.nodes n).refcount }).setNode n
    fun k => { k with refcount := k.refcount + 1 }

theorem link_eq (hn : resolvePath fs oldpath = some n)
    (hfile : ¬ (n = 0 ∨ (fs.nodes n).isDir = true))
    (hcreate : createAtPath fs newpath false 0o755 = some (m, fs1)) (created : Bool) :
    link fs oldpath newpath created =
      if m = 0 ∨ created = false then some (-1, fs1) else some (0, twinned fs1 n m) := by
  unfold link
  rw [hn, Option.bind_eq_bind, Option.bind_some, if_neg hfile, hcreate]
  rfl

theorem link_inv {created : Bool} (hrun : link fs oldpath newpath created = some (r, fs')) :
    (r = -1 ∧ fs' = fs) ∨ ∃ n m fs1, resolvePath fs oldpath = some n ∧ n ≠ 0 ∧
      (fs.nodes n).isDir = false ∧ createAtPath fs newpath false 0o755 = some (m, fs1) ∧
      ((r = -1 ∧ fs' = fs1 ∧ (m = 0 ∨ created = false)) ∨
        (r = 0 ∧ fs' = twinned fs1 n m ∧ m ≠ 0 ∧ created = true)) := by
  obtain ⟨n, hn, hrest⟩ := Option.bind_eq_some_iff.mp hrun
  by_cases hno : n = 0 ∨ (fs.nodes n).isDir = true
  · rw [if_pos hno] at hrest
    cases hrest
    exact .inl ⟨rfl, rfl⟩
  rw [if_neg hno] at hrest
  obtain ⟨⟨m, fs1⟩, hcreate, -⟩ := Option.bind_eq_some_iff.mp hrest
  rw [link_eq hn hno hcreate] at hrun
  rw [not_or, Bool.not_eq_true] at hno
  refine .inr ⟨n, m, fs1, hn, hno.1, hno.2, hcreate, ?_⟩
  split_ifs at hrun with hm
  · cases hrun
    exact .inl ⟨rfl, rfl, hm⟩
  · cases hrun
    rw [not_or, Bool.not_eq_false] at hm
    exact .inr ⟨rfl, rfl, hm⟩

/-! ## Calls that stay in place -/

/-- A node but for its count. -/
def uncounted (n : Node) : Node := { n with refcount := 0 }

/-- The nodes of `fs0` but for their counts, and a heap in which `content` is in use. -/
structure Still (fs0 : Fs) (content : Nat) (fs : Fs) (bs : List Blk) : Prop where
  root : fs.root = fs0.root
  cwd : fs.cwd = fs0.cwd
  nodes : ∀ k, uncounted (fs.nodes k) = uncounted (fs0.nodes k)
  sound : Sound fs.heap bs
  used : content ≠ 0 → content ∈ used bs

/-- An `open` of one of two paths, or a call that leaves every file its block and its size. -/
def InPlace (oldpath newpath : Path) (fs : Fs) : FdCall → Prop
  | .open path _ _ _ => path = oldpath ∨ path = newpath
  | .read _ _ _ => True
  | .lseek _ _ _ => True
  | .write fd buf => ∀ i, entryOf fd = some i → notFile fs (fs.fds i) = false →
      0 < (fs.fds i).offset.toNat + buf.length ∧
      (fs.fds i).offset.toNat + buf.length ≤ (fs.nodes (fs.fds i).node).size ∧
      HasBlock fs.heap (fs.nodes (fs.fds i).node).content ((fs.fds i).offset.toNat + buf.length)
  | .ftruncate fd length => ∀ i, entryOf fd = some i → notFile fs (fs.fds i) = false →
      length.toNat = (fs.nodes (fs.fds i).node).size
  | _ => False

/-- One such call. -/
def Uses (oldpath newpath : Path) (fs fs' : Fs) : Prop :=
  ∃ c r, InPlace oldpath newpath fs c ∧ FdCall.exec c fs = some (r, fs')

section Still

variable {fs0 fs fs' : Fs} {content : Nat} {bs : List Blk} (h : Still fs0 content fs bs)

include h

theorem Still.resolvePath (path : Path) : Tmpfs.resolvePath fs path = Tmpfs.resolvePath fs0 path := by
  unfold Tmpfs.resolvePath
  rw [h.cwd]
  apply resolvePathInternal_congr h.root
  intro m
  exact ⟨(congrArg Node.name (h.nodes m) :), (congrArg Node.parent (h.nodes m) :),
    (congrArg Node.firstChild (h.nodes m) :), (congrArg Node.nextSibling (h.nodes m) :)⟩

theorem Still.of_nodes (hroot : fs'.root = fs.root) (hcwd : fs'.cwd = fs.cwd)
    (hheap : fs'.heap = fs.heap) (hnodes : ∀ k, uncounted (fs'.nodes k) = uncounted (fs.nodes k)) :
    Still fs0 content fs' bs := by
  refine ⟨hroot.trans h.root, hcwd.trans h.cwd, fun k => (hnodes k).trans (h.nodes k), ?_, h.used⟩
  rw [hheap]
  exact h.sound

theorem Still.open {path : Path} (hk : Tmpfs.resolvePath fs0 path = some k) (h0 : k ≠ 0)
    {flags : BitVec 32} {mode : Nat} {devpath : Path}
    (hrun : Tmpfs.open fs path flags mode devpath = some (r, fs')) : Still fs0 content fs' bs := by
  unfold Tmpfs.open at hrun
  split_ifs at hrun with hnone
  · cases hrun
    exact h
  rw [h.resolvePath, hk] at hrun
  simp only [Option.bind_eq_bind, Option.bind_some, h0, false_and, if_false, Option.some.injEq] at hrun
  unfold openNode at hrun
  rw [if_neg h0] at hrun
  cases hfd : allocFd fs with
  | none =>
    rw [hfd] at hrun
    cases hrun
    exact h
  | some a =>
    obtain ⟨fd, fs1⟩ := a
    rw [hfd] at hrun
    cases hrun
    obtain ⟨i, -, hi⟩ := Option.bind_eq_some_iff.mp hfd
    cases hi
    refine h.of_nodes rfl rfl rfl fun j => ?_
    rw [setNode_nodes]
    split_ifs <;> rfl

theorem Still.read {buf count : Nat} {stored : Bytes}
    (hrun : Tmpfs.read fs fd buf count = some (r, stored, fs')) : Still fs0 content fs' bs := by
  rcases read_cases hrun with ⟨-, -, rfl, -⟩ | ⟨i, k, -, -, hd⟩
  · exact h
  · rw [hd.state]
    exact h.of_nodes rfl rfl rfl fun _ => rfl

theorem Still.lseek (fd : Int) (offset : BitVec 64) (whence : Int) :
    Still fs0 content (Tmpfs.lseek fs fd offset whence).2 bs := by
  rcases lseek_cases fs fd offset whence with he | ⟨i, o, -, -, he⟩
  · rw [he]
    exact h
  · rw [he]
    exact h.of_nodes rfl rfl rfl fun _ => rfl

theorem Still.write {fd r : Int} {buf : Bytes} {oldpath newpath : Path}
    (hplace : InPlace oldpath newpath fs (.write fd buf))
    (hrun : Tmpfs.write fs fd buf = some (r, fs')) : ∃ bs', Still fs0 content fs' bs' := by
  rcases write_inv hrun with ⟨-, rfl⟩ | ⟨i, tmp, heap, he, hfile, hgrow, hcases⟩
  · exact ⟨bs, h⟩
  obtain ⟨hpos, hsize, hblock⟩ := hplace i he hfile
  obtain ⟨b, hb, hu, hp, hle⟩ := (h.sound.rep.hasBlock_iff _ _).mp hblock
  have hfin := h.sound.rep.fin_le hb
  have hend : ((fs.fds i).offset + BitVec.ofNat 64 buf.length).toNat =
      (fs.fds i).offset.toNat + buf.length := by
    rw [BitVec.toNat_add, BitVec.toNat_ofNat]
    simp only [Blk.fin, headerSize, word] at hfin
    omega
  rw [hend] at hgrow
  obtain ⟨q, heap', hgrow', hoc⟩ := grow_cases h.sound
    (fun _ => mem_used.mpr ⟨b, hb, hu, hp⟩) hpos
  rw [hgrow] at hgrow'
  cases hgrow'
  rcases hoc with ⟨-, -, -, hlt, -⟩ | ⟨bs', hq, hk, -, hused, -, ⟨c, hc, hcp, hcf, hcn, hexact⟩, -⟩
  · exact absurd (hlt b hb hu hp) (Nat.not_lt.mpr hle)
  obtain ⟨-, hsame⟩ := hexact b hb hu hp hle
  have hkept : content ≠ 0 → content ∈ Heap.used bs' := by
    intro h0
    rw [hused.mem_iff, mem_cons, mem_filter]
    by_cases hcc : content = tmp
    · exact .inl hcc
    · exact .inr ⟨h.used h0, by simpa [← hsame] using hcc⟩
  rcases hcases with ⟨-, rfl⟩ | ⟨-, -, rfl⟩
  · exact ⟨bs', h.root, h.cwd, h.nodes, hk.sound, hkept⟩
  · refine ⟨bs', h.root, h.cwd, fun k => ?_, (hk.fill hused hc hcp fun x hx => ?_).sound, hkept⟩
    · have hnode : { fs.nodes (fs.fds i).node with
          content := tmp
          size := max (fs.nodes (fs.fds i).node).size ((fs.fds i).offset.toNat + buf.length) } =
            fs.nodes (fs.fds i).node := by
        rw [Nat.max_eq_left hsize, hsame]
      simp only [afterWrite, hend, hnode, update_eq_self]
      exact h.nodes k
    · cases buf with
      | nil => rfl
      | cons v vs =>
        have hcfin := hk.sound.rep.fin_le hc
        rw [hcp] at hx
        have hdest : (tmp + (fs.fds i).offset.toNat) % word = tmp + (fs.fds i).offset.toNat := by
          apply Nat.mod_eq_of_lt
          simp only [← hcp, Blk.ptr, Blk.fin, length_cons] at *
          omega
        simp only [hdest]
        apply putBytes_outside
        simp only [← hcp, Blk.ptr, Blk.fin, length_cons] at *
        omega

theorem Still.ftruncate {length : BitVec 64}
    (hplace : InPlace oldpath newpath fs (.ftruncate fd length))
    (hrun : Tmpfs.ftruncate fs fd length = some (r, fs')) : Still fs0 content fs' bs := by
  unfold Tmpfs.ftruncate at hrun
  cases he : entryOf fd with
  | none =>
    rw [he] at hrun
    cases hrun
    exact h
  | some i =>
    simp only [he] at hrun
    by_cases hfile : notFile fs (fs.fds i) = true
    · rw [if_pos hfile] at hrun
      cases hrun
      exact h
    rw [if_neg hfile] at hrun
    have hlen := hplace i he (Bool.not_eq_true _ ▸ hfile)
    rw [if_neg (by omega), if_neg (by omega)] at hrun
    cases hrun
    exact h

theorem Still.uses (hn : Tmpfs.resolvePath fs0 oldpath = some n) (hn0 : n ≠ 0)
    (hm : Tmpfs.resolvePath fs0 newpath = some m) (hm0 : m ≠ 0)
    (huse : Uses oldpath newpath fs fs') : ∃ bs', Still fs0 content fs' bs' := by
  obtain ⟨c, r, hplace, hexec⟩ := huse
  cases c with
  | «open» path flags mode devpath =>
    rcases hplace with rfl | rfl
    · exact ⟨bs, h.open hn hn0 hexec⟩
    · exact ⟨bs, h.open hm hm0 hexec⟩
  | read fd buf count =>
    obtain ⟨⟨r', stored, fs1⟩, hread, heq⟩ := Option.map_eq_some_iff.mp hexec
    cases heq
    exact ⟨bs, h.read hread⟩
  | lseek fd offset whence =>
    have hseek := h.lseek fd offset whence
    rw [Option.some.inj hexec] at hseek
    exact ⟨bs, hseek⟩
  | write fd buf => exact h.write hplace hexec
  | ftruncate fd length => exact ⟨bs, h.ftruncate hplace hexec⟩
  | _ => exact hplace.elim

theorem Still.run (hn : Tmpfs.resolvePath fs0 oldpath = some n) (hn0 : n ≠ 0)
    (hm : Tmpfs.resolvePath fs0 newpath = some m) (hm0 : m ≠ 0)
    (hrun : Relation.ReflTransGen (Uses oldpath newpath) fs fs') :
    ∃ bs', Still fs0 content fs' bs' := by
  induction hrun with
  | refl => exact ⟨bs, h⟩
  | tail _ huse ih =>
    obtain ⟨bs1, h1⟩ := ih
    exact h1.uses hn hn0 hm hm0 huse

end Still

/-! ## Taking one name away -/

theorem unlink_counted {live : List Nat} (h : Linked fs.nodes fs.root live kids) {path : Path}
    (hk : resolvePath fs path = some k) (hreached : Reached fs.root kids k)
    (hfile : (fs.nodes k).isDir = false) (hcount : 1 < (fs.nodes k).refcount) :
    ∃ r fs', unlink fs path = some (r, fs') ∧ ∀ j, Unaltered fs fs' j := by
  have hk0 := h.ne_zero (h.reached_mem hreached)
  have hsame : ∀ fs' : Fs, fs'.heap = fs.heap → (∀ j, (fs'.nodes j).content = (fs.nodes j).content ∧
      (fs'.nodes j).size = (fs.nodes j).size) → ∀ j, Unaltered fs fs' j := by
    intro fs' hheap hnodes j
    refine ⟨(hnodes j).2, fun x _ hb => ?_⟩
    rw [hheap, (hnodes j).1]
    exact ⟨hb, fun _ _ => rfl⟩
  unfold unlink remove
  simp only [hk, Option.bind_eq_bind, Option.bind_some, hk0, hfile, Bool.false_eq_true, or_self,
    if_false]
  cases hreached with
  | root =>
    rw [h.top, if_pos rfl]
    exact ⟨-1, fs, rfl, hsame fs rfl fun _ => ⟨rfl, rfl⟩⟩
  | @child p _ hp hc =>
    have hplive := h.reached_mem hp
    obtain ⟨-, hparent⟩ := h.child p hplive k hc
    obtain ⟨fs1, hdetach, hframe, hdata, -⟩ := detach_spec h hplive hc
    have hcount1 : (fs1.nodes k).refcount = (fs.nodes k).refcount :=
      (congrArg Node.refcount (hdata k) :)
    rw [hparent, if_neg (h.ne_zero hplive), hdetach, Option.bind_some, freeNode_eq fs1 hk0,
      if_pos (by omega), Option.map_some, Option.bind_some]
    refine ⟨0, _, rfl, hsame _ (congrArg Fs.heap hframe :) fun j => ?_⟩
    simp only [setNode_nodes]
    split_ifs
    · exact ⟨(congrArg Node.content (hdata j) :), (congrArg Node.size (hdata j) :)⟩
    · exact ⟨(congrArg Node.content (hdata j) :), (congrArg Node.size (hdata j) :)⟩

/-! ## Two names -/

/-- The same size and the same bytes, in a block that is there. -/
structure OneFile (fs : Fs) (n m : Nat) : Prop where
  size : (fs.nodes m).size = (fs.nodes n).size
  data : dataAt fs m 0 (fs.nodes m).size = dataAt fs n 0 (fs.nodes n).size
  block : ∀ k, k = n ∨ k = m → (fs.nodes k).content ≠ 0 → HasBlock fs.heap (fs.nodes k).content 0

/-- Without its name `path` at `k`, the file at `other` is what it was, if more than that name
counted on `k`. -/
def Leaves (fs : Fs) (path : Path) (k other : Nat) : Prop :=
  1 < (fs.nodes k).refcount → ∃ r fs', unlink fs path = some (r, fs') ∧ Unaltered fs fs' other

/-- The walk to the path ends at a new node, and no name is cut on the way. -/
def Fresh (fs : Fs) (path : Path) : Prop :=
  ∀ p, path = some p → p ≠ [] → (∀ t ∈ tokens p, t.length ≤ 127) ∧
    ∃ d depth, walkEnd fs.nodes (startOf fs fs.cwd p) 0 (tokens p) = some (d, depth) ∧ 0 < depth

theorem Built.resolveLoop {live live' : List Nat} (hb : Built R fs bs live kids fs' bs' live' kids')
    (hl : Linked fs.nodes fs.root live kids) (hl' : Linked fs'.nodes fs'.root live' kids')
    {ts : Names} {curr : Nat} (hcurr : Reached fs.root kids curr)
    (hn : Tmpfs.resolveLoop fs.nodes curr ts = some n) (h0 : n ≠ 0) :
    Tmpfs.resolveLoop fs'.nodes curr ts = some n := by
  induction ts generalizing curr with
  | nil => exact hn
  | cons t ts ih =>
    rw [resolveLoop_cons] at hn ⊢
    have hmem := hl.reached_mem hcurr
    split_ifs at hn ⊢ with h1 h2
    · exact ih hcurr hn
    · rw [hb.up hmem]
      exact ih (up_reached hl hcurr) hn
    · obtain ⟨c, hfind, hc⟩ := findChild_cases hl hcurr t
      rw [hfind, Option.bind_some] at hn
      rcases hc with rfl | ⟨hc0, hc⟩
      · rw [if_pos rfl] at hn
        exact absurd (Option.some.inj hn).symm h0
      · rw [hb.findChild hl hl' hmem hfind hc0, Option.bind_some, if_neg hc0]
        rw [if_neg hc0] at hn
        exact ih hc hn

theorem Built.resolvePath {live live' : List Nat} (hb : Built R fs bs live kids fs' bs' live' kids')
    (h : Sane foreign fs bs live kids) (h' : Sane foreign fs' bs' live' kids')
    (hcwd : Reached fs.root kids fs.cwd) {path : Path} (hn : Tmpfs.resolvePath fs path = some n)
    (h0 : n ≠ 0) : n ∈ live ∧ Reached fs'.root kids' n ∧ Tmpfs.resolvePath fs' path = some n := by
  obtain ⟨n', hn', hreached⟩ := resolvePathInternal_cases h hcwd path
  have hsame := Option.some.inj (hn'.symm.trans hn)
  subst hsame
  have hreached := hreached.resolve_left h0
  refine ⟨h.linked.reached_mem hreached, ?_, ?_⟩
  · rw [hb.root]
    refine hreached.mono fun m hm c hc => ?_
    obtain ⟨l, hk, -⟩ := hb.old m (h.linked.reached_mem hm)
    rw [hk]
    exact mem_append_left l hc
  · have hcwd' : fs'.cwd = fs.cwd := by rw [hb.ext.frame]
    cases path with
    | none => exact absurd (Option.some.inj hn).symm h0
    | some p =>
      have hcwd0 := h.linked.ne_zero (h.linked.reached_mem hcwd)
      have hstart : startOf fs' fs.cwd p = startOf fs fs.cwd p := startOf_congr hb.root fs.cwd p
      rw [resolvePath_some hcwd0] at hn
      rw [resolvePath_some (hcwd' ▸ hcwd0), hcwd', hstart]
      exact hb.resolveLoop h.linked h'.linked (startOf_reached hcwd p) hn h0

section Twinned

variable {fs : Fs} {n m : Nat}

theorem twinned_links (k : Nat) : ((twinned fs n m).nodes k).name = (fs.nodes k).name ∧
    ((twinned fs n m).nodes k).parent = (fs.nodes k).parent ∧
    ((twinned fs n m).nodes k).firstChild = (fs.nodes k).firstChild ∧
    ((twinned fs n m).nodes k).nextSibling = (fs.nodes k).nextSibling := by
  unfold twinned
  rw [setNode_nodes]
  split_ifs <;> rw [setNode_nodes] <;> split_ifs <;> exact ⟨rfl, rfl, rfl, rfl⟩

theorem resolvePath_twinned (n m : Nat) (path : Path) :
    resolvePath (twinned fs n m) path = resolvePath fs path := by
  have hroot : (twinned fs n m).root = fs.root := rfl
  exact resolvePathInternal_congr hroot twinned_links fs.cwd path

theorem twinned_old (hne : m ≠ n) :
    (twinned fs n m).nodes n = { fs.nodes n with refcount := (fs.nodes n).refcount + 1 } := by
  unfold twinned
  rw [setNode_nodes, if_pos rfl, setNode_nodes, if_neg hne.symm]

theorem twinned_new (hne : m ≠ n) : (twinned fs n m).nodes m =
    { fs.nodes m with
      isDir := (fs.nodes n).isDir, isSymlink := (fs.nodes n).isSymlink,
      content := (fs.nodes n).content, size := (fs.nodes n).size, mode := (fs.nodes n).mode,
      uid := (fs.nodes n).uid, gid := (fs.nodes n).gid, refcount := (fs.nodes n).refcount } := by
  unfold twinned
  rw [setNode_nodes, if_neg hne, setNode_nodes, if_pos rfl]

end Twinned

theorem twinned_run {fs2 : Fs} {live : List Nat} (h : Sane foreign fs bs live kids)
    (hn : Reached fs.root kids n) (hm : Reached fs.root kids m) (hne : m ≠ n)
    (hfile : (fs.nodes n).isDir = false) (hold : resolvePath (twinned fs n m) oldpath = some n)
    (hnew : resolvePath (twinned fs n m) newpath = some m)
    (hrun : Relation.ReflTransGen (Uses oldpath newpath) (twinned fs n m) fs2) :
    OneFile fs2 n m ∧ Leaves fs2 oldpath n m ∧ Leaves fs2 newpath m n := by
  have hl := h.linked
  have hn0 := hl.ne_zero (hl.reached_mem hn)
  have hm0 := hl.ne_zero (hl.reached_mem hm)
  have hstart : Still (twinned fs n m) (fs.nodes n).content (twinned fs n m) bs :=
    ⟨rfl, rfl, fun _ => rfl, h.owns.sound, h.owns.mem_used_content (hl.reached_mem hn)⟩
  obtain ⟨bs2, hstill⟩ := hstart.run hold hn0 hnew hm0 hrun
  have hkn := hstill.nodes n
  have hkm := hstill.nodes m
  rw [twinned_old hne] at hkn
  rw [twinned_new hne] at hkm
  have hlinked : Linked fs2.nodes fs2.root live kids := by
    rw [hstill.root]
    refine hl.congr fun k _ => ?_
    obtain ⟨-, h1, h2, h3⟩ := @twinned_links fs n m k
    have hk := hstill.nodes k
    exact ⟨(congrArg Node.parent hk :).trans h1, (congrArg Node.firstChild hk :).trans h2,
      (congrArg Node.nextSibling hk :).trans h3⟩
  have hcn : (fs2.nodes n).content = (fs.nodes n).content := (congrArg Node.content hkn :)
  have hcm : (fs2.nodes m).content = (fs.nodes n).content := (congrArg Node.content hkm :)
  have hsn : (fs2.nodes n).size = (fs.nodes n).size := (congrArg Node.size hkn :)
  have hsm : (fs2.nodes m).size = (fs.nodes n).size := (congrArg Node.size hkm :)
  have hroot : fs2.root = fs.root := hstill.root
  have hleaves : ∀ {path : Path} {k : Nat}, resolvePath (twinned fs n m) path = some k →
      Reached fs2.root kids k → (fs2.nodes k).isDir = false → ∀ other, Leaves fs2 path k other := by
    intro path k hres hreached hdir other hcount
    obtain ⟨r, fs3, hunlink, hkept⟩ :=
      unlink_counted hlinked ((hstill.resolvePath path).trans hres) hreached hdir hcount
    exact ⟨r, fs3, hunlink, hkept other⟩
  refine ⟨⟨hsm.trans hsn.symm, ?_, ?_⟩, ?_, ?_⟩
  · unfold dataAt
    rw [hcn, hcm, hsn, hsm]
  · have hblock : (fs.nodes n).content ≠ 0 → HasBlock fs2.heap (fs.nodes n).content 0 := by
      intro h0
      obtain ⟨b, hb, hu, hp⟩ := mem_used.mp (hstill.used h0)
      exact (hstill.sound.rep.hasBlock_iff _ _).mpr ⟨b, hb, hu, hp, Nat.zero_le _⟩
    rintro k (rfl | rfl)
    · rw [hcn]
      exact hblock
    · rw [hcm]
      exact hblock
  · exact hleaves hold (hroot ▸ hn) ((congrArg Node.isDir hkn :).trans hfile) m
  · exact hleaves hnew (hroot ▸ hm) ((congrArg Node.isDir hkm :).trans hfile) n

section Link

variable {foreign : List Nat} {fs fs1 : Fs} {bs : List Blk} {live : List Nat} {kids : Kids}
  (h : Sane foreign fs bs live kids) (hcwd : Reached fs.root kids fs.cwd)

include h hcwd

theorem createAtPath_fresh {p : Bytes} (hp : p ≠ []) (hfresh : Fresh fs (some p))
    (hcreate : createAtPath fs (some p) false 0o755 = some (m, fs1))
    (hserved : failures fs1.heap = failures fs.heap) :
    ∃ bs1 live1 kids1, Sane foreign fs1 bs1 live1 kids1 ∧
      Built Rules.none fs bs live kids fs1 bs1 live1 kids1 ∧ Reached fs1.root kids1 m ∧ m ∉ live ∧
      resolvePath fs1 (some p) = some m := by
  obtain ⟨hshort, d, depth, hend, hdepth⟩ := hfresh p rfl hp
  have hcwd0 := h.linked.ne_zero (h.linked.reached_mem hcwd)
  have hstart := startOf_reached hcwd p
  rw [createAtPath, createAtPathInternal_some hcwd0 hp] at hcreate
  obtain ⟨n1, fs', bs1, live1, kids1, hwalk, h1, hb, hn⟩ := createLoop_end h false 0o755 (tokens p) h
    (.refl h.owns.sound) hstart .old hstart
  rw [hcreate] at hwalk
  cases hwalk
  rcases hn with ⟨-, hfail⟩ | ⟨hreached, d', depth', hend', -, hat⟩
  · exact absurd hserved (Nat.ne_of_gt hfail)
  rw [hend] at hend'
  cases hend'
  refine ⟨bs1, live1, kids1, h1, hb, hreached, hat.not_mem hdepth, ?_⟩
  have hmakes : MakesIn (fun _ _ _ => True) false 0o755 fs (startOf fs fs.cwd p) (tokens p) :=
    makesIn_of_forall false 0o755 (fun _ _ _ _ _ => trivial) fs _
  obtain ⟨n', fs2, -, -, -, hwalk, -, -, -, -, hres⟩ :=
    createLoop_built (R := Rules.none) (fun _ _ _ _ _ _ _ _ => trivial) h hstart hmakes
  rw [hcreate] at hwalk
  cases hwalk
  have hcwd1 : fs1.cwd = fs.cwd := by rw [hb.ext.frame]
  have hstart1 : startOf fs1 fs.cwd p = startOf fs fs.cwd p := startOf_congr hb.root fs.cwd p
  rw [resolvePath_some (hcwd1 ▸ hcwd0), hcwd1, hstart1]
  exact hres (h1.linked.ne_zero (h1.linked.reached_mem hreached)) hshort

end Link

theorem Filled.twinned {bs1 : List Blk} {live live1 : List Nat} {i : Fin 256} {data : Bytes}
    (hf : Filled i fs bs data) (hext : Extends fs bs live fs1 bs1 live1) (hn : (fs.fds i).node = n)
    (hmem : n ∈ live) (hne : m ≠ n) : Filled i (Tmpfs.twinned fs1 n m) bs1 data := by
  subst hn
  have hdata := (hext.old _ hmem).2
  refine hf.congr hext.keeps.sound hext.keeps.heapBase (fun b hb hu _ => ?_) ?_ ?_ ?_ ?_ ?_
  · exact ⟨hext.keeps.blocks b hb hu (by simp), hext.keeps.bytes b hb hu (by simp)⟩
  · change (fs1.fds i).node = (fs.fds i).node
    rw [hext.frame]
  all_goals rw [twinned_old hne]
  · exact (congrArg Node.content hdata :)
  · exact (congrArg Node.size hdata :)
  · exact (congrArg Node.isDir hdata :)
  · exact (congrArg Node.isSymlink hdata :)

theorem blank_linked :
    ∃ (fs1 fs2 fs3 fs4 : Fs) (i : Fin 256) (n m : Nat) (bs3 bs4 : List Blk),
      initialise blank = some fs1 ∧
      Tmpfs.open fs1 slashF oCreat 0o644 none = some ((i : Int), fs2) ∧
      write fs2 i [0x41, 0x42, 0x43] = some (3, fs3) ∧
      Held [] fs3 bs3 [n, fs3.root] (grown (fun _ => []) fs3.root n) ∧
      Fresh fs3 slashG ∧ resolvePath fs3 slashG = some 0 ∧
      resolvePath fs4 slashG = some m ∧
      failures fs4.heap = failures fs3.heap ∧ m ≠ 0 ∧ m ≠ n ∧
      link fs3 slashF slashG false = some (-1, fs4) ∧
      link fs3 slashF slashG true = some (0, twinned fs4 n m) ∧
      Filled i (twinned fs4 n m) bs4 [0x41, 0x42, 0x43] ∧
      ((twinned fs4 n m).fds i).node = n ∧ ((twinned fs4 n m).fds i).offset.toNat = 3 ∧
      Room 0x100 bs4 := by
  obtain ⟨fs1, i, n, fs2, fs3, bs3, hinit, -, hopen, hwrite, h, hname, hcwd, hnode, hf, hoffset,
    hroom⟩ := @blank_data [0x41, 0x42, 0x43] (by decide) (by decide)
  have hl := h.linked
  have hroot := hl.ne_zero hl.root_mem
  have htok : tokens [slash, 0x67] = [[0x67]] := by decide
  have hno : ∀ c ∈ grown (fun _ => []) fs3.root n fs3.root, (fs3.nodes c).name ≠ [0x67] := by
    rw [grown_curr]
    simp [hname]
  have hold : resolvePath fs3 slashF = some n :=
    resolve_only h (by decide) (by decide) (by decide) hname (hcwd ▸ hroot)
  have hmissing : resolvePath fs3 slashG = some 0 :=
    resolve_missing hl htok (by decide) (by decide) hno (hcwd ▸ hroot)
  have hfresh : Fresh fs3 slashG := by
    rintro p hp -
    cases hp
    have hfind : findChild fs3.nodes [0x67] (fs3.nodes fs3.root).firstChild = some 0 := by
      rw [findChild_spec hl hl.root_mem, find?_eq_none.mpr fun c hc => by simpa using hno c hc]
      rfl
    refine ⟨by decide, fs3.root, 1, ?_, Nat.one_pos⟩
    rw [htok, hcwd, startOf_root, walkEnd_cons, if_neg (by decide), if_neg (by decide), if_pos rfl,
      hfind, Option.bind_some, if_pos rfl, walkEnd]
  obtain ⟨m, fs4, hadd, ⟨-, -, -, -, -, hno⟩ | ⟨hm0, hnew, hserved, -, bs4, -, hgrown, -, hroom4⟩⟩ :=
    h.sane.addChild_cases hl.root_mem [0x67] false 0o755
  · exact absurd (hroom.mono (by decide)) hno
  have hcreate : createAtPath fs3 slashG false 0o755 = some (m, fs4) := by
    rw [createAtPath, hcwd, createAtPathInternal_some hroot (by simp), startOf_root, htok,
      createLoop_missing hl hl.root_mem (by decide) (by decide) hno, isEmpty_nil, if_pos rfl,
      if_pos rfl, hadd, Option.bind_some, if_neg hm0, createLoop]
  obtain ⟨-, -, -, -, -, -, -, hres⟩ :=
    createAtPath_fresh h.sane h.cwd (by decide) hfresh hcreate hserved
  have hne : m ≠ n := fun he => hnew (he ▸ mem_cons_self)
  have hfds : (twinned fs4 n m).fds = fs3.fds := by
    change fs4.fds = fs3.fds
    rw [hgrown.frame]
  have hdir : (fs3.nodes n).isDir = false := by
    have hfile := hf.file
    unfold notFile at hfile
    rw [hnode] at hfile
    simp_all
  have hold0 : ¬ (n = 0 ∨ (fs3.nodes n).isDir = true) :=
    not_or.mpr ⟨hl.ne_zero mem_cons_self, by rw [hdir]; decide⟩
  have hlink := link_eq hold hold0 hcreate
  refine ⟨fs1, fs2, fs3, fs4, i, n, m, bs3, bs4, hinit, hopen, hwrite, h, hfresh, hmissing,
    hres, hserved, hm0, hne, ?_, ?_, ?_, ?_, ?_, ?_⟩
  · rw [hlink false, if_pos (Or.inr rfl)]
  · rw [hlink true, if_neg (by simp [hm0])]
  · exact hf.twinned hgrown.toExtends hnode mem_cons_self hne
  · rw [hfds, hnode]
  · rw [hfds, hoffset]
    rfl
  · exact hroom4 0x100 (by decide) (hroom.mono (by decide))

/-- Two names are one file as long as every call stays in place. -/
theorem link_shares {foreign : List Nat} {fs fs0 : Fs} {bs : List Blk} {live : List Nat}
    {kids : Kids} (h : Sane foreign fs bs live kids) (hcwd : Reached fs.root kids fs.cwd)
    {oldpath newpath : Path} (hfresh : Fresh fs newpath) {r : Int}
    (hrun : link fs oldpath newpath true = some (r, fs0))
    (hserved : failures fs0.heap = failures fs.heap) :
    (r = -1 → fs0 = fs) ∧ (r = 0 → ∃ n m, n ≠ m ∧ resolvePath fs0 oldpath = some n ∧
      resolvePath fs0 newpath = some m ∧
      ∀ fs1, Relation.ReflTransGen (Uses oldpath newpath) fs0 fs1 →
        OneFile fs1 n m ∧ Leaves fs1 oldpath n m ∧ Leaves fs1 newpath m n) := by
  rcases link_inv hrun with ⟨rfl, rfl⟩ | ⟨n, m, fs1, hn, hn0, hfile, hcreate, hcases⟩
  · exact ⟨fun _ => rfl, fun h0 => absurd h0 (by decide)⟩
  by_cases hpath : ∃ p, newpath = some p ∧ p ≠ []
  · obtain ⟨p, rfl, hp⟩ := hpath
    have hserved1 : failures fs1.heap = failures fs.heap := by
      rcases hcases with ⟨-, rfl, -⟩ | ⟨-, rfl, -, -⟩ <;> exact hserved
    obtain ⟨bs1, live1, kids1, h1, hb, hreached, hnew, hres⟩ :=
      createAtPath_fresh h hcwd hp hfresh hcreate hserved1
    rcases hcases with ⟨-, -, h0 | hfalse⟩ | ⟨rfl, rfl, hm0, -⟩
    · exact absurd h0 (h1.linked.ne_zero (h1.linked.reached_mem hreached))
    · cases hfalse
    refine ⟨fun h0 => absurd h0 (by decide), fun _ => ?_⟩
    obtain ⟨hold, hreachedn, hresn⟩ := hb.resolvePath h h1 hcwd hn hn0
    have hfile1 : (fs1.nodes n).isDir = false :=
      (congrArg Node.isDir (hb.ext.old n hold).2 :).trans hfile
    have hne : m ≠ n := fun he => hnew (he ▸ hold)
    rw [← resolvePath_twinned n m] at hres hresn
    exact ⟨n, m, hne.symm, hresn, hres,
      fun fs2 huses => twinned_run h1 hreachedn hreached hne hfile1 hresn hres huses⟩
  · rw [createAtPath, createAtPathInternal_nothing hpath] at hcreate
    cases hcreate
    rcases hcases with ⟨rfl, rfl, -⟩ | ⟨-, -, hm0, -⟩
    · exact ⟨fun _ => rfl, fun h0 => absurd h0 (by decide)⟩
    · exact absurd rfl hm0

theorem link_shares_in_place :
    ∃ (fs fs0 fs1 fs2 : Fs) (i : Fin 256) (n m : Nat),
      link fs slashF slashG true = some (0, fs0) ∧
      lseek fs0 i 0 0 = (0, fs1) ∧ write fs1 i [0x44, 0x45, 0x46] = some (3, fs2) ∧
      n ≠ m ∧ resolvePath fs0 slashF = some n ∧
      resolvePath fs0 slashG = some m ∧ OneFile fs2 n m := by
  obtain ⟨-, -, fs, fs4, i, n, m, bs, bs4, -, -, -, h, hfresh, -, -, hserved, -, -, -, hlink, hf, -,
    -, hroom⟩ := blank_linked
  obtain ⟨-, hshare⟩ := link_shares h.sane h.cwd hfresh hlink hserved
  obtain ⟨n', m', hne, hold, hnew, hrun⟩ := hshare rfl
  have hseek := hf.lseek_position (l := 0) (by decide)
  have hf1 := hf.setFd 0
  have hoffset1 : (((twinned fs4 n m).setFd i fun f => { f with offset := 0 }).fds i).offset = 0 := by
    simp only [Fs.setFd, update_self]
  generalize (twinned fs4 n m).setFd i (fun f => { f with offset := 0 }) = fs1 at hseek hf1 hoffset1
  have hlen : 0 < ([0x44, 0x45, 0x46] : Bytes).length := by decide
  rcases write_file hf1.sound hf1.high (entryOf_fin i) hf1.file hf1.content_used
      (by rw [hoffset1]; decide) hlen (by decide) with
    ⟨-, hno, -⟩ | ⟨fs2, bs2, q, hwrite, hq, hw, -, -⟩
  · rw [hoffset1] at hno
    exact absurd (hroom.mono (by decide)) hno
  have huses1 : Uses slashF slashG (twinned fs4 n m) fs1 :=
    ⟨.lseek i 0 0, 0, trivial, congrArg some hseek⟩
  have huses2 : Uses slashF slashG fs1 fs2 := by
    refine ⟨.write i [0x44, 0x45, 0x46], _, fun j hj _ => ?_, hwrite⟩
    rw [entryOf_fin] at hj
    cases hj
    rw [hoffset1, hf1.size]
    refine ⟨by decide, by decide, ?_⟩
    obtain ⟨b, hb, hu, hptr, hle⟩ := hf1.block fun h0 => by simpa using hf1.empty h0
    exact (hf1.sound.rep.hasBlock_iff _ _).mpr ⟨b, hb, hu, hptr, hle⟩
  exact ⟨fs, _, fs1, fs2, i, n', m', hlink, hseek, hwrite, hne, hold, hnew,
    (hrun fs2 ((Relation.ReflTransGen.single huses1).tail huses2)).1⟩

/-- A fourth byte behind the three is not seen through the other name, and a name that was refused
is there. -/
theorem links_grow_apart :
    ∃ (fs1 fs2 fs3 fs4 fs5 fs6 : Fs) (i : Fin 256) (n m : Nat), initialise blank = some fs1 ∧
      Tmpfs.open fs1 slashF oCreat 0o644 none = some ((i : Int), fs2) ∧
      write fs2 i [0x41, 0x42, 0x43] = some (3, fs3) ∧
      link fs3 slashF slashG true = some (0, fs4) ∧
      (fs4.fds i).node = n ∧ resolvePath fs4 slashG = some m ∧
      write fs4 i [0x44] = some (1, fs5) ∧ (fs5.nodes n).size = 4 ∧ (fs5.nodes m).size = 3 ∧
      link fs3 slashF slashG false = some (-1, fs6) ∧
      resolvePath fs3 slashG = some 0 ∧
      resolvePath fs6 slashG = some m := by
  obtain ⟨fs1, fs2, fs3, fs4, i, n, m, bs, bs4, hinit, hopen, hwrite, h, -, hmissing, hres, -, -, hne,
    hrefused, hlink, hf, hnode, hoffset, hroom⟩ := blank_linked
  have hlen : 0 < ([0x44] : Bytes).length := by decide
  rcases write_file hf.sound hf.high (entryOf_fin i) hf.file hf.content_used (by omega) hlen
      (by decide) with ⟨-, hno, -⟩ | ⟨fs5, bs5, q, hmore, hq, hw, -, -⟩
  · rw [hoffset] at hno
    exact absurd (hroom.mono (by decide)) hno
  have hsize := hf.size
  rw [hnode] at hsize
  refine ⟨fs1, fs2, fs3, _, fs5, fs4, i, n, m, hinit, hopen, hwrite, hlink, hnode, ?_, hmore, ?_, ?_,
    hrefused, hmissing, hres⟩
  · rw [resolvePath_twinned, hres]
  · rw [hw.nodes, hnode, update_self, hsize, hoffset]
    rfl
  · rw [hw.nodes, hnode, update_of_ne hne, twinned_new hne]
    rw [twinned_old hne] at hsize
    exact hsize

end Terrakernel.Tmpfs
