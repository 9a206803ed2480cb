import Terrakernel.Tmpfs.RefCount

/-!
# Runs of the file system

Sequences of calls from `initialise` on, over a heap that other code has used before. Only new
directories are made, in directories that exist.
-/

namespace Terrakernel.Tmpfs

open Memory Vmm Links Heap Option
open List hiding Chain Mem

variable {fs fs' : Fs} {foreign : List Nat} {bs : List Blk} {n mode : Nat}

inductive Call where
  | open (path : Path) (flags : BitVec 32) (mode : Nat)
  | close (fd : Int)
  | unlink (path : Path)
  | rmdir (path : Path)
  | mkdir (path : Path) (mode : Nat)
  | lseek (fd : Int) (offset : BitVec 64) (whence : Int)
  | read (fd : Int) (buf count : Nat)
  | write (fd : Int) (buf : Bytes)
  deriving DecidableEq, Repr

variable {c : Call}

def Call.exec : Call → Fs → Option (Int × Fs)
  | .open path flags mode, fs => Tmpfs.open fs path flags mode none
  | .close fd, fs => Tmpfs.close fs fd
  | .unlink path, fs => Tmpfs.unlink fs path
  | .rmdir path, fs => Tmpfs.rmdir fs path
  | .mkdir path mode, fs => Tmpfs.mkdir fs path mode
  | .lseek fd offset whence, fs => some (Tmpfs.lseek fs fd offset whence)
  | .read fd buf count, fs => (Tmpfs.read fs fd buf count).map fun r => (r.1, r.2.2)
  | .write fd buf, fs => Tmpfs.write fs fd buf

/-- All but the last component of a path lead to a directory. -/
def ParentIsDir (fs : Fs) (path : Path) : Prop :=
  ∃ p ts t d, path = some p ∧ tokens p = ts ++ [t] ∧
    resolveLoop fs.nodes (startOf fs fs.cwd p) ts = some d ∧ d ≠ 0 ∧ (fs.nodes d).isDir = true

/-- What a caller takes care of. -/
def Call.Allowed (fs : Fs) : Call → Prop
  | .open path flags _ => flags &&& oBuiltinDeviceFile = 0 ∧
      (path ≠ none → resolvePath fs path = some 0 → flags &&& oCreat ≠ 0 → ParentIsDir fs path)
  | .mkdir path _ => resolvePath fs path = some 0 ∧ ParentIsDir fs path
  | .write _ buf => 0 < buf.length ∧ buf.length < 2 ^ 63
  | _ => True

/-- A run in which every allocation succeeds. -/
inductive Run : Fs → List Call → Fs → Prop
  | nil (fs : Fs) : Run fs [] fs
  | cons {fs fs' fs'' : Fs} {c : Call} {cs : List Call} {r : Int} (hallowed : c.Allowed fs)
      (hexec : c.exec fs = some (r, fs')) (hserved : failures fs'.heap = failures fs.heap)
      (hrest : Run fs' cs fs'') : Run fs (c :: cs) fs''

/-! ## One call -/

/-- A state that a run can be in. -/
def Good (foreign : List Nat) (fs : Fs) (bs : List Blk) : Prop :=
  ∃ live kids, Inv foreign fs bs live kids ∧ Counted fs live kids

/-- Either the call goes through, or the heap has no block of `cost` bytes for it. -/
def Outcome (foreign : List Nat) (fs : Fs) (bs : List Blk) (cost : Nat)
    (x : Option (Int × Fs)) : Prop :=
  (∃ r fs' bs', x = some (r, fs') ∧ failures fs'.heap = failures fs.heap ∧ Good foreign fs' bs' ∧
      ∀ u, 0 < u → Room (cost + headerSize + u) bs → Room u bs') ∨
    (¬ Room cost bs ∧ ∀ r fs', x = some (r, fs') → failures fs.heap < failures fs'.heap)

theorem Good.outcome (hg : Good foreign fs bs) (cost : Nat) (r : Int) :
    Outcome foreign fs bs cost (some (r, fs)) :=
  Or.inl ⟨r, fs, bs, rfl, rfl, hg, fun _ _ hroom => hroom.mono (by omega)⟩

theorem outcome_of_refused {fs1 : Fs} {cost : Nat} (hno : ¬ Room cost bs)
    (hfail : failures fs.heap < failures fs1.heap) (r : Int) :
    Outcome foreign fs bs cost (some (r, fs1)) := by
  refine .inr ⟨hno, fun r' fs' hrun => ?_⟩
  cases hrun
  exact hfail

section Calls

variable {foreign : List Nat} {fs : Fs} {bs : List Blk} {live : List Nat} {kids : Kids}
  (h : Inv foreign fs bs live kids) (hcount : Counted fs live kids)

include h

theorem createAtPath_one {path : Path} (hparent : ParentIsDir fs path)
    (hno : resolvePath fs path = some 0) (isDir : Bool) (mode : Nat) :
    ∃ d t, Reached fs.root kids d ∧ (fs.nodes d).isDir = true ∧
      createAtPath fs path isDir mode = addChild fs d t isDir mode := by
  obtain ⟨p, ts, t, d, rfl, htok, hwalk, hd0, hdir⟩ := hparent
  have hroot : fs.cwd ≠ 0 := h.cwd ▸ h.linked.ne_zero h.linked.root_mem
  have hne : p ≠ [] := by
    rintro rfl
    have := congrArg List.length htok
    simp [tokens, tokenLoop, strtok] at this
  rw [resolvePath_some hroot, htok] at hno
  refine ⟨d, t, ?_, hdir, ?_⟩
  · obtain ⟨n, hn, hr⟩ := resolveLoop_spec h.linked (startOf_reached h.reached_cwd p) ts
    rw [hwalk] at hn
    obtain rfl := some.inj hn
    exact hr.resolve_left hd0
  · unfold createAtPath
    rw [createAtPathInternal_some hroot hne, htok]
    exact createLoop_one isDir mode hwalk hd0 hno

theorem createAtPath_added {path : Path} (hparent : ParentIsDir fs path)
    (hno : resolvePath fs path = some 0) (isDir : Bool) (mode : Nat) :
    ∃ c fs1, createAtPath fs path isDir mode = some (c, fs1) ∧
      (c = 0 ∧ failures fs.heap < failures fs1.heap ∧ ¬ Room nodeSize bs ∨
        c ≠ 0 ∧ c ∉ live ∧ failures fs1.heap = failures fs.heap ∧
          ∃ d t bs1, Reached fs.root kids d ∧ (fs.nodes d).isDir = true ∧
            (fs1.nodes c).data = newNode t d isDir mode ∧
            Inv foreign fs1 bs1 (c :: live) (grown kids d c) ∧
            Grown fs bs live fs1 bs1 (c :: live) ∧
            ∀ u, 0 < u → Room (nodeSize + headerSize + u) bs → Room u bs1) := by
  obtain ⟨d, t, hd, hdir, heq⟩ := createAtPath_one h hparent hno isDir mode
  obtain ⟨c, fs1, hadd, hcases⟩ := addChild_cases h (h.linked.reached_mem hd) t isDir mode
  refine ⟨c, fs1, heq.trans hadd, ?_⟩
  rcases hcases with ⟨hc0, -, -, -, hfail, hfull⟩ |
    ⟨hc0, hcnot, hfail, hnew, bs1, hinv, hgrown, hroom⟩
  · exact .inl ⟨hc0, hfail, hfull⟩
  · exact .inr ⟨hc0, hcnot, hfail, d, t, bs1, hd, hdir, hnew, hinv, hgrown, hroom⟩

include hcount

theorem openNode_good (hn : n ∈ live) (flags : BitVec 32) (mode : Nat) :
    Good foreign (openNode fs n flags mode).2 bs ∧
      failures (openNode fs n flags mode).2.heap = failures fs.heap := by
  rcases openNode_cases h.toSane hn flags mode with he | ⟨i, hi, he⟩
  · rw [he]
    exact ⟨⟨live, kids, h, hcount⟩, rfl⟩
  · rw [he]
    exact ⟨⟨live, kids, h.opened hn i flags mode, hcount.opened h hn hi flags mode⟩, rfl⟩

theorem open_outcome {path : Path} {flags : BitVec 32}
    (hallowed : (Call.open path flags mode).Allowed fs) :
    Outcome foreign fs bs nodeSize (Tmpfs.open fs path flags mode none) := by
  have hsame : Good foreign fs bs := ⟨live, kids, h, hcount⟩
  obtain ⟨hdev, hmake⟩ := hallowed
  unfold Tmpfs.open
  by_cases hp : path = none
  · rw [if_pos hp]
    exact hsame.outcome nodeSize (-1)
  rw [if_neg hp]
  obtain ⟨n, hres, hn⟩ := resolvePath_cases h path
  rw [hres]
  simp only [bind_eq_bind, bind_some]
  by_cases hcreate : n = 0 ∧ flags &&& oCreat ≠ 0
  · rw [if_pos hcreate]
    obtain ⟨rfl, hflag⟩ := hcreate
    obtain ⟨c, fs1, hmade, hcases⟩ := createAtPath_added h (hmake hp hres hflag) hres false mode
    rw [hmade]
    simp only [bind_some]
    rcases hcases with ⟨rfl, hfail, hno⟩ |
      ⟨hc0, hcnot, hfail, d, t, bs1, hd, hdir, hnew, hinv, hgrown, hroom1⟩
    · rw [if_pos rfl]
      exact outcome_of_refused hno hfail _
    · left
      have hcount1 := hcount.grown h hd hdir hcnot hc0 hnew hgrown
      obtain ⟨hgood, hserved⟩ := openNode_good hinv hcount1 mem_cons_self flags mode
      rw [if_neg hc0, makeDevice, if_pos hdev]
      exact ⟨_, _, bs1, rfl, hserved.trans hfail, hgood, hroom1⟩
  · rw [if_neg hcreate]
    rcases hn with rfl | hn
    · exact hsame.outcome nodeSize (-3)
    · obtain ⟨hgood, hserved⟩ := openNode_good h hcount (h.linked.reached_mem hn) flags mode
      exact .inl ⟨_, _, bs, rfl, hserved, hgood, fun u _ hroom => hroom.mono (by omega)⟩

theorem mkdir_outcome {path : Path} (hallowed : (Call.mkdir path mode).Allowed fs) :
    Outcome foreign fs bs nodeSize (Tmpfs.mkdir fs path mode) := by
  obtain ⟨hres, hparent⟩ := hallowed
  obtain ⟨c, fs1, hmade, hcases⟩ := createAtPath_added h hparent hres true mode
  unfold Tmpfs.mkdir
  rw [hmade]
  simp only [bind_eq_bind, bind_some]
  rcases hcases with ⟨rfl, hfail, hno⟩ |
    ⟨hc0, hcnot, hfail, d, t, bs1, hd, hdir, hnew, hinv, hgrown, hroom1⟩
  · rw [if_pos rfl]
    exact outcome_of_refused hno hfail _
  · left
    have hcount1 := hcount.grown h hd hdir hcnot hc0 hnew hgrown
    have hdlive := h.linked.reached_mem hd
    have hne : c ≠ d := by
      rintro rfl
      exact hcnot hdlive
    -- The fields that are cleared are empty in a new node.
    have hfirst : (fs1.nodes c).firstChild = 0 := by
      rw [(hinv.linked.chain c mem_cons_self).null_iff]
      exact grown_new hne
    have hnext : (fs1.nodes c).nextSibling = 0 := by
      have hchain := hinv.linked.chain d (mem_cons_of_mem _ hdlive)
      rw [grown_curr] at hchain
      exact hchain.next_mem
    have hparentc : (fs1.nodes c).content = 0 ∧ (fs1.nodes c).isDir = true :=
      ⟨(congrArg Node.content hnew :), (congrArg Node.isDir hnew :)⟩
    rw [if_neg hc0]
    refine ⟨0, _, bs1, rfl, hfail, ⟨_, _, hinv.setNode ?_, hcount1.congr rfl ?_ ?_⟩, hroom1⟩
    · exact ⟨hparentc.1.symm, rfl, hfirst.symm, hnext.symm⟩
    · intro n _
      rw [setNode_nodes]
      split_ifs with hn
      · rw [hn]
        exact ⟨rfl, hparentc.2.symm⟩
      · exact ⟨rfl, rfl⟩
    · exact fun _ _ => rfl

theorem remove_outcome (hn : Reached fs.root kids n) (hbare : kids n = []) :
    Outcome foreign fs bs 0 (remove fs n) := by
  obtain ⟨r, fs', bs', live', kids', hrun, hinv, hc, hfail, hroom⟩ := remove_spec h hcount hn hbare
  exact .inl ⟨r, fs', bs', hrun, hfail, ⟨live', kids', hinv, hc⟩,
    fun u _ hr => hroom u (hr.mono (by omega))⟩

theorem unlink_outcome (path : Path) : Outcome foreign fs bs 0 (Tmpfs.unlink fs path) := by
  obtain ⟨n, hres, hn⟩ := resolvePath_cases h path
  unfold Tmpfs.unlink
  rw [hres]
  simp only [bind_eq_bind, bind_some]
  by_cases hbad : n = 0 ∨ (fs.nodes n).isDir = true
  · rw [if_pos hbad]
    exact Good.outcome ⟨live, kids, h, hcount⟩ 0 (-1)
  · rw [if_neg hbad]
    rw [not_or, Bool.not_eq_true] at hbad
    have hr := hn.resolve_left hbad.1
    exact remove_outcome h hcount hr (hcount.files n (h.linked.reached_mem hr) hbad.2)

theorem rmdir_outcome (path : Path) : Outcome foreign fs bs 0 (Tmpfs.rmdir fs path) := by
  obtain ⟨n, hres, hn⟩ := resolvePath_cases h path
  unfold Tmpfs.rmdir
  rw [hres]
  simp only [bind_eq_bind, bind_some]
  by_cases hbad : n = 0 ∨ (fs.nodes n).isDir = false ∨ (fs.nodes n).firstChild ≠ 0
  · rw [if_pos hbad]
    exact Good.outcome ⟨live, kids, h, hcount⟩ 0 (-1)
  · rw [if_neg hbad]
    rw [not_or, not_or, not_not] at hbad
    have hr := hn.resolve_left hbad.1
    exact remove_outcome h hcount hr
      ((h.linked.chain n (h.linked.reached_mem hr)).null_iff.mp hbad.2.2)

theorem close_outcome (fd : Int) : Outcome foreign fs bs 0 (Tmpfs.close fs fd) := by
  obtain ⟨r, fs', bs', live', hrun, hinv, hc, hfail, hroom⟩ := close_spec h hcount fd
  exact .inl ⟨r, fs', bs', hrun, hfail, ⟨live', kids, hinv, hc⟩,
    fun u _ hr => hroom u (hr.mono (by omega))⟩

omit h in
theorem good_of_fds (hinv : Inv foreign fs' bs live kids) {i : Fin 256} {f : Filedesc}
    (hnode : f.node = (fs.fds i).node) (heq : fs' = { fs with fds := Function.update fs.fds i f }) :
    Good foreign fs' bs := by
  subst heq
  exact ⟨live, kids, hinv, hcount.congr rfl (fun _ _ => ⟨rfl, rfl⟩) fun n _ => opens_same hnode n⟩

theorem lseek_outcome (fd : Int) (offset : BitVec 64) (whence : Int) :
    Outcome foreign fs bs 0 (some (Tmpfs.lseek fs fd offset whence)) := by
  obtain ⟨hs, i, f, hnode, heq⟩ := lseek_spec h.toSane fd offset whence
  refine .inl ⟨(Tmpfs.lseek fs fd offset whence).1, (Tmpfs.lseek fs fd offset whence).2, bs, rfl,
    by rw [heq], good_of_fds hcount (h.of_fds hs heq) hnode heq, ?_⟩
  exact fun u _ hr => hr.mono (by omega)

/-- Where the bytes of a write would end. -/
def writeEnd (fs : Fs) (fd : Int) (buf : Bytes) : Nat :=
  ((entryOf fd).elim 0 fun i => (fs.fds i).offset.toNat) + buf.length

theorem write_outcome {fd : Int} {buf : Bytes} (hallowed : (Call.write fd buf).Allowed fs) :
    Outcome foreign fs bs (writeEnd fs fd buf) (Tmpfs.write fs fd buf) := by
  rcases write_cases h.toSane fd hallowed.1 hallowed.2 with ⟨hrun, -⟩ | ⟨i, he, -, hcases⟩
  · rw [hrun]
    exact Good.outcome ⟨live, kids, h, hcount⟩ _ (-1)
  · have hend : writeEnd fs fd buf = (fs.fds i).offset.toNat + buf.length := by
      rw [writeEnd, he]
      rfl
    rw [hend]
    rcases hcases with ⟨hno, hfail⟩ | ⟨fs', bs', q, hrun, -, hw, hs, hroom⟩
    · exact .inr ⟨hno, hfail⟩
    · refine .inl ⟨_, fs', bs', hrun, hw.served,
        ⟨live, kids, h.of_sane hs hw.cwd hw.root, hcount.congr hw.root ?_ ?_⟩, hroom⟩
      · intro n _
        rw [hw.nodes, Function.update_apply]
        split_ifs with hn
        · rw [hn]
          exact ⟨rfl, rfl⟩
        · exact ⟨rfl, rfl⟩
      · intro n _
        rw [hw.fds]
        apply opens_same
        rfl

end Calls

/-- How much a call asks the heap for. -/
def Call.cost (fs : Fs) : Call → Nat
  | .open _ _ _ => nodeSize
  | .mkdir _ _ => nodeSize
  | .write fd buf => writeEnd fs fd buf
  | _ => 0

def Call.isRead : Call → Bool
  | .read _ _ _ => true
  | _ => false

theorem exec_outcome (hg : Good foreign fs bs) (hallowed : c.Allowed fs)
    (hread : c.isRead = false) : Outcome foreign fs bs (c.cost fs) (c.exec fs) := by
  obtain ⟨live, kids, h, hcount⟩ := hg
  cases c with
  | «open» path flags mode => exact open_outcome h hcount hallowed
  | close fd => exact close_outcome h hcount fd
  | unlink path => exact unlink_outcome h hcount path
  | rmdir path => exact rmdir_outcome h hcount path
  | mkdir path mode => exact mkdir_outcome h hcount hallowed
  | lseek fd offset whence => exact lseek_outcome h hcount fd offset whence
  | read fd buf count => exact absurd hread (by simp [Call.isRead])
  | write fd buf => exact write_outcome h hcount hallowed

theorem exec_good (hg : Good foreign fs bs) {r : Int} (hallowed : c.Allowed fs)
    (hexec : c.exec fs = some (r, fs')) (hserved : failures fs'.heap = failures fs.heap) :
    ∃ bs', Good foreign fs' bs' := by
  cases hread : c.isRead with
  | false =>
    rcases exec_outcome hg hallowed hread with ⟨r', fs1, bs', he, -, hgood, -⟩ | ⟨-, hfail⟩
    · rw [hexec] at he
      simp only [some.injEq, Prod.mk.injEq] at he
      exact ⟨bs', he.2 ▸ hgood⟩
    · have := hfail r fs' hexec
      omega
  | true =>
    obtain ⟨live, kids, h, hcount⟩ := hg
    cases c with
    | read fd buf count =>
      obtain ⟨⟨r', data, fs1⟩, hrun, heq⟩ := map_eq_some_iff.mp hexec
      simp only [Prod.mk.injEq] at heq
      obtain ⟨-, rfl⟩ := heq
      obtain ⟨hs, i, f, hnode, heq⟩ := read_spec h.toSane hrun
      exact ⟨bs, good_of_fds hcount (h.of_fds hs heq) hnode heq⟩
    | _ => exact absurd hread (by simp [Call.isRead])

theorem exec_returns (hg : Good foreign fs bs) (hallowed : c.Allowed fs) (hread : c.isRead = false)
    {u : Nat} (hpos : 0 < u) (hroom : Room (c.cost fs + headerSize + u) bs) :
    ∃ r fs' bs', c.exec fs = some (r, fs') ∧ failures fs'.heap = failures fs.heap ∧
      Good foreign fs' bs' ∧ Room u bs' := by
  rcases exec_outcome hg hallowed hread with ⟨r, fs', bs', he, hserved, hgood, hroom'⟩ | ⟨hno, -⟩
  · exact ⟨r, fs', bs', he, hserved, hgood, hroom' u hpos hroom⟩
  · exact absurd (hroom.mono (by omega)) hno

theorem run_good {cs : List Call} (hrun : Run fs cs fs') :
    (∃ bs, Good foreign fs bs) → ∃ bs, Good foreign fs' bs := by
  induction hrun with
  | nil fs => exact id
  | cons hallowed hexec hserved _ ih =>
    rintro ⟨bs, hg⟩
    exact ih (exec_good hg hallowed hexec hserved)

section Start

variable {fs fs' : Fs} {bs : List Blk} (hs : Sound fs.heap bs)

include hs

theorem initialise_inv (hhigh : directBase ≤ fs.heap.heapBase) (hinit : initialise fs = some fs') :
    ∃ bs', Inv (used bs) fs' bs' [fs'.root] (fun _ => []) ∧ failures fs'.heap = failures fs.heap ∧
      ((fs'.nodes fs'.root).isDir = true ∧ (fs'.nodes fs'.root).content = 0 ∧
        (fs'.nodes fs'.root).size = 0 ∧ (fs'.nodes fs'.root).refcount = 1) ∧
      (∀ i, (fs'.fds i).free = true ∧ (fs'.fds i).node = 0) ∧
      (∃ b ∈ bs', b.ptr = fs'.root ∧ b.free = false ∧ nodeSize ≤ b.len) ∧
      ∀ u, 0 < u → Room (nodeSize + headerSize + u) bs → Room u bs' := by
  obtain ⟨root, heap, bs', hm, hk, hcases⟩ := malloc_cases hs nodeSize
  unfold initialise at hinit
  rw [hm] at hinit
  simp only [bind_eq_bind, bind_some] at hinit
  rcases hcases with ⟨rfl, -⟩ | ⟨hroot, hfail, hused, hblock, hroom⟩
  · rw [if_pos rfl] at hinit
    exact absurd hinit (by simp)
  rw [if_neg hroot] at hinit
  obtain rfl := some.inj hinit
  refine ⟨bs', ⟨⟨?_, ?_, ?_⟩, rfl⟩, hfail, ?_, fun _ => ⟨rfl, rfl⟩, hblock, hroom⟩
  · refine ⟨hk.sound, hk.heapBase ▸ hhigh, hused.trans ?_⟩
    rw [contents_cons, if_pos (by simp [Fs.setNode])]
    exact perm_append_singleton root _ |>.symm
  · refine ⟨mem_singleton_self root, ?_, by simp [word], by simp [Fs.setNode], ?_, ?_⟩
    · simpa [Fs.setNode] using hroot.symm
    · intro m hm
      obtain rfl := mem_singleton.mp hm
      simp [Fs.setNode, Chain]
    · exact fun m _ c hc => absurd hc not_mem_nil
  · exact ⟨fun i h0 => absurd rfl h0, fun _ _ => rfl, fun i h0 => absurd rfl h0⟩
  · simp [Fs.setNode]

theorem initialise_good (hhigh : directBase ≤ fs.heap.heapBase)
    (hinit : initialise fs = some fs') :
    ∃ bs', Good (used bs) fs' bs' ∧ (fs'.nodes fs'.root).isDir = true ∧
      ∀ u, 0 < u → Room (nodeSize + headerSize + u) bs → Room u bs' := by
  obtain ⟨bs', h, -, ⟨hdir, -, -, hone⟩, hfds, -, hroom⟩ := initialise_inv hs hhigh hinit
  have hroot := h.linked.ne_zero h.linked.root_mem
  have hopens : opens fs'.fds fs'.root = 0 :=
    opens_eq_zero fun i h0 => hroot (h0.symm.trans (hfds i).2)
  refine ⟨bs', ⟨_, _, h, ?_, ?_, fun _ _ _ => rfl, fun _ _ hne => absurd rfl hne⟩, hdir, hroom⟩
  · intro n hn
    obtain rfl := mem_singleton.mp hn
    rw [linkCount_of_reached .root, hopens, hone]
    rfl
  · intro n hn
    obtain rfl := mem_singleton.mp hn
    rw [linkCount_of_reached .root]
    omega

theorem initialise_returns (hroom : Room nodeSize bs) : ∃ fs', initialise fs = some fs' := by
  obtain ⟨root, heap, bs', hm, -, hcases⟩ := malloc_cases hs nodeSize
  unfold initialise
  rw [hm]
  simp only [bind_eq_bind, bind_some]
  rcases hcases with ⟨-, -, -, hno⟩ | ⟨hroot, -⟩
  · exact absurd hroom hno
  · rw [if_neg hroot]
    exact ⟨_, rfl⟩

end Start

/-! ## The counters over whole runs -/

/-- The root and whatever is in the child list of a node of the tree. -/
inductive InTree (fs : Fs) : Nat → Prop
  | root : InTree fs fs.root
  | child {m c : Nat} {xs : List Nat} : InTree fs m →
      Chain (sibling fs.nodes) (fs.nodes m).firstChild xs → c ∈ xs → InTree fs c

open Classical in
/-- The number of holders of a node. -/
noncomputable def holders (fs : Fs) (n : Nat) : Nat :=
  (if InTree fs n then 1 else 0) + opens fs.fds n

theorem InTree.holders_pos (h : InTree fs n) : 0 < holders fs n := by
  rw [holders, if_pos h]
  omega

/-- `live` are the nodes that have not been released: their blocks are in use, with those of their
bytes and `foreign` ones and no others. -/
structure Accounted (foreign : List Nat) (fs : Fs) (live : List Nat) : Prop where
  counts : ∀ n ∈ live, (fs.nodes n).refcount = holders fs n
  released : ∀ n, n ∈ live ↔ n ≠ 0 ∧ 0 < holders fs n
  blocks : ∃ es, fs.heap.blockList = some es ∧ (usedBases es).Nodup ∧
    (usedBases es).Perm (foreign ++ (live ++ contents fs.nodes live))
  tree : ∀ n, InTree fs n → n ∈ live
  descriptors : ∀ i, (fs.fds i).node ≠ 0 → (fs.fds i).node ∈ live

theorem inTree_iff {fs : Fs} {live : List Nat} {kids : Kids} (hroot : fs.root ∈ live)
    (hchain : ∀ m ∈ live, Chain (sibling fs.nodes) (fs.nodes m).firstChild (kids m))
    (hclosed : ∀ m ∈ live, ∀ c ∈ kids m, c ∈ live) (n : Nat) :
    InTree fs n ↔ Reached fs.root kids n := by
  have hlive : ∀ {m}, Reached fs.root kids m → m ∈ live := by
    intro m hm
    induction hm with
    | root => exact hroot
    | child _ hc ih => exact hclosed _ ih _ hc
  constructor
  · intro hn
    induction hn with
    | root => exact .root
    | child _ hxs hc ih =>
      have := hxs.unique (hchain _ (hlive ih))
      exact .child ih (this ▸ hc)
  · intro hn
    induction hn with
    | root => exact .root
    | child hm hc ih => exact .child ih (hchain _ (hlive hm)) hc

theorem Linked.inTree_iff {fs : Fs} {live : List Nat} {kids : Kids}
    (h : Linked fs.nodes fs.root live kids) (n : Nat) : InTree fs n ↔ Reached fs.root kids n :=
  Tmpfs.inTree_iff h.root_mem h.chain (fun m hm c hc => (h.child m hm c hc).1) n

theorem Good.accounted (hg : Good foreign fs bs) : ∃ live, Accounted foreign fs live := by
  obtain ⟨live, kids, h, hcount⟩ := hg
  have hholders : ∀ n, holders fs n = linkCount fs.root kids n + opens fs.fds n := by
    intro n
    by_cases hn : Reached fs.root kids n
    · rw [holders, if_pos ((h.linked.inTree_iff n).mpr hn), linkCount_of_reached hn]
    · rw [holders, if_neg fun ht => hn ((h.linked.inTree_iff n).mp ht), linkCount_of_not hn]
  have htree : ∀ n, InTree fs n → n ∈ live := fun n hn =>
    h.linked.reached_mem ((h.linked.inTree_iff n).mp hn)
  refine ⟨live, ?_, ?_, ?_, htree, h.table.node⟩
  · intro n hn
    rw [hcount.count n hn, hholders]
    push_cast
    rfl
  · intro n
    constructor
    · intro hn
      rw [hholders]
      exact ⟨h.linked.ne_zero hn, hcount.held n hn⟩
    · rintro ⟨h0, hpos⟩
      by_cases hn : InTree fs n
      · exact htree n hn
      · rw [holders, if_neg hn, Nat.zero_add] at hpos
        obtain ⟨i, rfl⟩ := opens_pos_iff.mp hpos
        exact h.table.node i h0
  · refine ⟨_, h.owns.sound.rep.blockList, ?_, ?_⟩
    · rw [usedBases_headers]
      exact h.owns.sound.rep.fits.used_nodup
    · rw [usedBases_headers]
      exact h.owns.used

section Results

variable {σ : Type} {reserveHeap : Nat → σ → Nat × σ} {m : Mem} {s s' : σ} {h : Heap}

/-- After any run each counter is the number of holders, a node is released exactly when it has
none, and nothing that can still be found has been released. The heap may have served others
before, and what they hold stays theirs. -/
theorem refcounts_of_run (hinit : Heap.initialise reserveHeap m s = some (h, s'))
    (htop : h.heapBase + h.heapSize ≤ word) (hhigh : directBase ≤ h.heapBase)
    {before : List Heap.Call} {fs fs1 fs2 : Fs} (hbefore : Heap.runCalls before h = some fs.heap)
    (hstart : initialise fs = some fs1) {cs : List Call} (hrun : Run fs1 cs fs2) :
    ∃ es live, fs.heap.blockList = some es ∧ Accounted (usedBases es) fs2 live := by
  obtain ⟨h', hcalls, hs, hbase, -⟩ := runCalls_spec (initialise_sound hinit htop) before
  rw [hbefore] at hcalls
  obtain rfl := some.inj hcalls
  obtain ⟨bs1, hgood, -⟩ := initialise_good hs (hbase ▸ hhigh) hstart
  obtain ⟨bs2, hgood2⟩ := run_good hrun ⟨bs1, hgood⟩
  obtain ⟨live, hlive⟩ := hgood2.accounted
  refine ⟨_, live, hs.rep.blockList, ?_⟩
  rw [usedBases_headers]
  exact hlive

end Results

/-- The path `/f`. -/
abbrev slashF : Path := some [slash, 0x66]

/-- The path `/g`. -/
abbrev slashG : Path := some [slash, 0x67]

/-- A file system before `initialise`, over a new heap. -/
def blank : Fs :=
  { heap := oneMib
    nodes := fun _ => default
    root := 0
    cwd := 0
    fds := fun _ => default
    console := [] }

theorem blank_heap : Sound blank.heap (initialBlocks 0xFFFF800000100000 0x100000000) ∧
    Room 0x10000 (initialBlocks 0xFFFF800000100000 0x100000000) :=
  ⟨firstBlock_sound _ (by decide) (by decide), _, mem_singleton_self _, rfl, by decide⟩

theorem refcounts_of_run_unlinked :
    ∃ fs1 fs2 es live, initialise blank = some fs1 ∧
      Run fs1 [.open slashF oCreat 0o644, .unlink slashF, .close 0]
        fs2 ∧
      blank.heap.blockList = some es ∧ Accounted (usedBases es) fs2 live := by
  obtain ⟨hs, hroom⟩ := blank_heap
  obtain ⟨fs1, hstart⟩ := initialise_returns hs (hroom.mono (by decide))
  obtain ⟨bs1, hg1, hdir, hroom1⟩ := initialise_good hs (by decide) hstart
  have hroot : fs1.root ≠ 0 := by
    obtain ⟨live, kids, h, -⟩ := hg1
    exact h.linked.ne_zero h.linked.root_mem
  have hallowed : (Call.open slashF oCreat 0o644).Allowed fs1 :=
    ⟨by decide, fun _ _ _ => ⟨_, [], [0x66], fs1.root, rfl, by decide, rfl, hroot, hdir⟩⟩
  obtain ⟨r1, f1, c1, he1, hf1, hg2, hroom2⟩ := exec_returns hg1 hallowed rfl (u := 0x2000)
    (by decide) (hroom1 (nodeSize + headerSize + 0x2000) (by decide) (hroom.mono (by decide)))
  obtain ⟨r2, f2, c2, he2, hf2, hg3, hroom3⟩ := exec_returns hg2 (u := 0x1000)
    (c := .unlink slashF) trivial rfl (by decide)
    (hroom2.mono (by simp [Call.cost, headerSize]))
  obtain ⟨r3, f3, c3, he3, hf3, -⟩ := exec_returns hg3 (u := 0x100)
    (c := .close 0) trivial rfl (by decide) (hroom3.mono (by simp [Call.cost, headerSize]))
  have hrun : Run fs1 [.open slashF oCreat 0o644, .unlink slashF,
      .close 0] f3 :=
    .cons hallowed he1 hf1 (.cons trivial he2 hf2 (.cons trivial he3 hf3 (.nil f3)))
  have hbefore : runCalls [] oneMib =
    some blank.heap := rfl
  obtain ⟨es, live, hes, hlive⟩ :=
    refcounts_of_run initialise_at_one_mib (by decide) (by decide) hbefore hstart hrun
  exact ⟨fs1, f3, es, live, hstart, hrun, hes, hlive⟩

end Terrakernel.Tmpfs
