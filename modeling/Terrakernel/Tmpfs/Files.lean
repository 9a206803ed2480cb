import Terrakernel.Tmpfs.Runs

/-!
# The bytes of files

Each byte that is written is noted, and the notes are compared with what a read gives. A write that
ends before the end of its file cuts the block, while the size stays.
-/

namespace Terrakernel.Tmpfs

open Memory Vmm Links Heap Function Option
open List hiding Mem

variable {fs fs' fs1 : Fs} {c : Call} {r : Int} {bs bs' : List Blk} {foreign : List Nat}
  {kids : Kids} {n x : Nat} {i : Fin 256} {buf : Bytes}

/-- The byte last written, for each node and position. -/
abbrev Notes := Nat → Nat → Option Byte

variable {w : Notes}

structure Step where
  before : Fs
  call : Call
  value : Int
  after : Fs

variable {s : Step} {steps : List Step}

/-- The entry and the bytes of a write that was not refused. -/
def Step.wrote (s : Step) : Option (Fin 256 × Bytes) :=
  match s.call with
  | .write fd buf => if s.value < 0 then none else (entryOf fd).map fun i => (i, buf)
  | _ => none

def Step.note (w : Notes) (s : Step) : Notes :=
  match s.wrote with
  | none => w
  | some (i, buf) => fun n x =>
    let f := s.before.fds i
    if n = f.node ∧ f.offset.toNat ≤ x ∧ x < f.offset.toNat + buf.length then
      buf[x - f.offset.toNat]?
    else w n x

def written (steps : List Step) : Notes := steps.foldl Step.note fun _ _ => none

/-- A write reaches the end of its file. -/
def Step.Full (s : Step) : Prop :=
  ∀ i buf, s.wrote = some (i, buf) →
    (s.before.nodes (s.before.fds i).node).size ≤ (s.before.fds i).offset.toNat + buf.length

/-- The bytes a step does not write stay. -/
def Step.Steady (s : Step) : Prop :=
  ∀ n x, n ≠ 0 → 0 < holders s.before n → x < (s.before.nodes n).size →
    (∀ i buf, s.wrote = some (i, buf) → n = (s.before.fds i).node →
      x < (s.before.fds i).offset.toNat ∨ (s.before.fds i).offset.toNat + buf.length ≤ x) →
    s.after.heap.mem ((s.after.nodes n).content + x) =
      s.before.heap.mem ((s.before.nodes n).content + x)

/-- The calls that neither remove nor release anything. -/
def Call.OnFiles : Call → Prop
  | .open _ _ _ => True
  | .lseek _ _ _ => True
  | .read _ _ _ => True
  | .write _ buf => 0 < buf.length ∧ buf.length < 2 ^ 63
  | _ => False

/-- A run in which every allocation succeeds, with its steps. -/
inductive FileRun (start : Fs) : List Step → Fs → Prop
  | nil : FileRun start [] start
  | snoc {steps : List Step} {fs fs' : Fs} {c : Call} {r : Int} (hrun : FileRun start steps fs)
      (hcall : c.OnFiles) (hexec : c.exec fs = some (r, fs'))
      (hserved : failures fs'.heap = failures fs.heap) :
      FileRun start (steps ++ [⟨fs, c, r, fs'⟩]) fs'

/-- No written byte of a file is lost, in memory or for a reader. -/
structure Lossless (fs : Fs) (w : Notes) : Prop where
  block : ∀ n, n ≠ 0 → 0 < holders fs n → 0 < (fs.nodes n).size →
    HasBlock fs.heap (fs.nodes n).content (fs.nodes n).size
  bytes : ∀ n x v, n ≠ 0 → 0 < holders fs n → w n x = some v → x < (fs.nodes n).size →
    fs.heap.mem ((fs.nodes n).content + x) = v
  reads : ∀ fd i buf count x v, entryOf fd = some i → notFile fs (fs.fds i) = false →
    w (fs.fds i).node x = some v → x < (fs.nodes (fs.fds i).node).size →
    (fs.fds i).offset.toNat ≤ x → x < (fs.fds i).offset.toNat + count →
    ∃ r data fs', read fs fd buf count = some (r, data, fs') ∧
      data[x - (fs.fds i).offset.toNat]? = some v

/-! ## What a step does -/

/-- A step that writes no byte of a file. -/
structure Moved (fs : Fs) (bs : List Blk) (live : List Nat) (fs' : Fs) (bs' : List Blk)
    (live' : List Nat) : Prop where
  keeps : Keeps [] fs.heap bs fs'.heap bs'
  old : ∀ n ∈ live, n ∈ live' ∧ (fs'.nodes n).content = (fs.nodes n).content ∧
    (fs'.nodes n).size = (fs.nodes n).size
  fresh : ∀ n ∈ live', n ∉ live → (fs'.nodes n).content = 0 ∧ (fs'.nodes n).size = 0

theorem Grown.moved {live live' : List Nat} (hg : Grown fs bs live fs1 bs' live')
    (hheap : fs'.heap = fs1.heap) (hnodes : ∀ n, (fs'.nodes n).content = (fs1.nodes n).content ∧
      (fs'.nodes n).size = (fs1.nodes n).size) : Moved fs bs live fs' bs' live' := by
  refine ⟨hheap ▸ hg.keeps, ?_, ?_⟩
  · intro n hn
    obtain ⟨hlive, hdata⟩ := hg.old n hn
    exact ⟨hlive, (hnodes n).1.trans (congrArg Node.content hdata :),
      (hnodes n).2.trans (congrArg Node.size hdata :)⟩
  · intro n hn hnot
    obtain ⟨hc, hz⟩ := hg.fresh n hn hnot
    exact ⟨(hnodes n).1.trans hc, (hnodes n).2.trans hz⟩

section Steps

variable {foreign : List Nat} {fs fs' : Fs} {bs : List Blk} {live : List Nat}
  {kids : Kids} (h : Inv foreign fs bs live kids)

include h

theorem Inv.held_mem (h0 : n ≠ 0) (hheld : 0 < holders fs n) : n ∈ live := by
  unfold holders at hheld
  split_ifs at hheld with htree
  · exact h.linked.reached_mem ((h.linked.inTree_iff n).mp htree)
  · rw [Nat.zero_add, opens_pos_iff] at hheld
    obtain ⟨i, rfl⟩ := hheld
    exact h.table.node i h0

theorem moved_of_fds {f : Filedesc} (heq : fs' = { fs with fds := update fs.fds i f }) :
    Moved fs bs live fs' bs live := by
  subst heq
  exact (Grown.refl h.owns.sound live).moved rfl fun _ => ⟨rfl, rfl⟩

theorem openNode_moved (hn : n = 0 ∨ n ∈ live) (flags : BitVec 32) (mode : Nat) :
    Inv foreign (openNode fs n flags mode).2 bs live kids ∧
      (openNode fs n flags mode).2.heap = fs.heap ∧
      ∀ m, ((openNode fs n flags mode).2.nodes m).content = (fs.nodes m).content ∧
        ((openNode fs n flags mode).2.nodes m).size = (fs.nodes m).size := by
  rcases hn with rfl | hn
  · exact ⟨h, rfl, fun _ => ⟨rfl, rfl⟩⟩
  rcases openNode_cases h.toSane hn flags mode with he | ⟨i, -, he⟩
  · rw [he]
    exact ⟨h, rfl, fun _ => ⟨rfl, rfl⟩⟩
  · rw [he]
    refine ⟨h.opened hn i flags mode, rfl, fun m => ?_⟩
    rw [opened_nodes]
    split_ifs with hm
    · rw [hm]
      exact ⟨rfl, rfl⟩
    · exact ⟨rfl, rfl⟩

theorem open_moved {path : Path} {flags : BitVec 32} {mode : Nat}
    (hexec : Tmpfs.open fs path flags mode none = some (r, fs')) :
    ∃ bs' live' kids', Inv foreign fs' bs' live' kids' ∧ Moved fs bs live fs' bs' live' := by
  have hsame := Grown.refl h.owns.sound live
  unfold Tmpfs.open at hexec
  split_ifs at hexec with hpath
  · obtain rfl : fs = fs' := by simpa using (congrArg (Option.map Prod.snd) hexec)
    exact ⟨bs, live, kids, h, hsame.moved rfl fun _ => ⟨rfl, rfl⟩⟩
  obtain ⟨n, hres, hn⟩ := resolvePath_cases h path
  rw [hres] at hexec
  simp only [bind_eq_bind, bind_some] at hexec
  by_cases hcreate : n = 0 ∧ flags &&& oCreat ≠ 0
  · rw [if_pos hcreate] at hexec
    obtain ⟨c, fs1, bs1, live1, kids1, hmake, hinv, hgrown, hc⟩ :=
      createAtPath_spec h path false mode
    rw [hmake] at hexec
    simp only [bind_some] at hexec
    by_cases hc0 : c = 0
    · rw [if_pos hc0] at hexec
      obtain rfl : fs1 = fs' := by simpa using (congrArg (Option.map Prod.snd) hexec)
      exact ⟨bs1, live1, kids1, hinv, hgrown.moved rfl fun _ => ⟨rfl, rfl⟩⟩
    · rw [if_neg hc0, makeDevice] at hexec
      split_ifs at hexec
      · simp only [bind_some, some.injEq] at hexec
        obtain ⟨hinv', hheap, hnodes⟩ :=
          openNode_moved hinv (hc.imp_right hinv.linked.reached_mem) flags mode
        rw [hexec] at hinv' hheap hnodes
        exact ⟨bs1, live1, kids1, hinv', hgrown.moved hheap hnodes⟩
      · simp at hexec
  · rw [if_neg hcreate] at hexec
    obtain ⟨hinv', hheap, hnodes⟩ :=
      openNode_moved h (hn.imp_right h.linked.reached_mem) flags mode
    rw [some.inj hexec] at hinv' hheap hnodes
    exact ⟨bs, live, kids, hinv', hsame.moved hheap hnodes⟩

theorem step_cases (hcall : c.OnFiles) (hexec : c.exec fs = some (r, fs'))
    (hserved : failures fs'.heap = failures fs.heap) :
    ∃ bs' live' kids', Inv foreign fs' bs' live' kids' ∧
      ((Step.wrote ⟨fs, c, r, fs'⟩ = none ∧ Moved fs bs live fs' bs' live') ∨
        ∃ i buf q, Step.wrote ⟨fs, c, r, fs'⟩ = some (i, buf) ∧ live' = live ∧
          (fs.fds i).node ∈ live ∧ q ≠ 0 ∧ Wrote fs bs i buf fs' bs' q) := by
  cases c with
  | «open» path flags mode =>
    obtain ⟨bs', live', kids', hinv, hm⟩ := open_moved h hexec
    exact ⟨bs', live', kids', hinv, .inl ⟨rfl, hm⟩⟩
  | lseek fd offset whence =>
    obtain ⟨hs, i, f, -, heq⟩ := lseek_spec h.toSane fd offset whence
    have hfs : (Tmpfs.lseek fs fd offset whence).2 = fs' := congrArg Prod.snd (some.inj hexec)
    rw [hfs] at hs heq
    exact ⟨bs, live, kids, h.of_fds hs heq, .inl ⟨rfl, moved_of_fds h heq⟩⟩
  | read fd buf count =>
    obtain ⟨⟨r', data, fs1⟩, hrun, heq⟩ := map_eq_some_iff.mp hexec
    simp only [Prod.mk.injEq] at heq
    obtain ⟨-, rfl⟩ := heq
    obtain ⟨hs, i, f, -, heq⟩ := read_spec h.toSane hrun
    exact ⟨bs, live, kids, h.of_fds hs heq, .inl ⟨rfl, moved_of_fds h heq⟩⟩
  | write fd buf =>
    replace hexec : write fs fd buf = some (r, fs') := hexec
    rcases write_cases h.toSane fd hcall.1 hcall.2 with ⟨hrun, -⟩ | ⟨i, he, hfile, hcases⟩
    · rw [hrun] at hexec
      simp only [some.injEq, Prod.mk.injEq] at hexec
      obtain ⟨rfl, rfl⟩ := hexec
      refine ⟨bs, live, kids, h, .inl ⟨by simp [Step.wrote], ?_⟩⟩
      exact (Grown.refl h.owns.sound live).moved rfl fun _ => ⟨rfl, rfl⟩
    · rcases hcases with ⟨-, hfail⟩ | ⟨fs1, bs', q, hrun, hq, hw, hs, -⟩
      · have := hfail r fs' hexec
        omega
      · rw [hrun] at hexec
        simp only [some.injEq, Prod.mk.injEq] at hexec
        obtain ⟨rfl, rfl⟩ := hexec
        have h0 : (fs.fds i).node ≠ 0 := by
          intro h0
          simp [notFile, h0] at hfile
        have hval : ¬ (BitVec.ofNat 64 buf.length).toInt < 0 := by
          rw [toInt_ofNat_of_lt hcall.2]
          omega
        refine ⟨bs', live, kids, h.of_sane hs hw.cwd hw.root,
          Or.inr ⟨i, buf, q, ?_, rfl, h.table.node i h0, hq, hw⟩⟩
        simp only [Step.wrote, if_neg hval, he, map_some]
  | close fd => exact hcall.elim
  | unlink path => exact hcall.elim
  | rmdir path => exact hcall.elim
  | mkdir path mode => exact hcall.elim

end Steps

/-! ## Notes and files -/

/-- What holds in every run. -/
structure Noted (fs : Fs) (live : List Nat) (w : Notes) : Prop where
  empty : ∀ n ∈ live, (fs.nodes n).content = 0 → (fs.nodes n).size = 0
  noted : ∀ n x v, w n x = some v → n ∈ live ∧ x < (fs.nodes n).size

/-- What holds as long as the writes are full. -/
structure Kept (fs : Fs) (bs : List Blk) (live : List Nat) (w : Notes) : Prop where
  block : ∀ n ∈ live, (fs.nodes n).content ≠ 0 → ∃ b ∈ bs, b.free = false ∧
    b.ptr = (fs.nodes n).content ∧ (fs.nodes n).size ≤ b.len
  bytes : ∀ n x v, w n x = some v → fs.heap.mem ((fs.nodes n).content + x) = v

theorem note_of_none (hs : s.wrote = none) (w : Notes) : Step.note w s = w := by
  rw [Step.note, hs]

theorem note_of_some (hs : s.wrote = some (i, buf)) (w : Notes) (n x : Nat) :
    Step.note w s n x = if n = (s.before.fds i).node ∧ (s.before.fds i).offset.toNat ≤ x ∧
        x < (s.before.fds i).offset.toNat + buf.length then
      buf[x - (s.before.fds i).offset.toNat]? else w n x := by
  rw [Step.note, hs]

theorem Kept.find {live : List Nat} (hk : Kept fs bs live w) (hd : Noted fs live w) (hn : n ∈ live)
    (hx : x < (fs.nodes n).size) : (fs.nodes n).content ≠ 0 ∧ ∃ b ∈ bs, b.free = false ∧
      b.ptr = (fs.nodes n).content ∧ (fs.nodes n).size ≤ b.len := by
  have h0 : (fs.nodes n).content ≠ 0 := by
    intro h0
    have := hd.empty n hn h0
    omega
  exact ⟨h0, hk.block n hn h0⟩

section Moves

variable {fs fs' : Fs} {bs bs' : List Blk} {live live' : List Nat} {w : Notes}
  (hm : Moved fs bs live fs' bs' live') (hd : Noted fs live w)

include hm hd

theorem Moved.noted : Noted fs' live' w := by
  refine ⟨?_, ?_⟩
  · intro n hn h0
    by_cases hold : n ∈ live
    · obtain ⟨-, hc, hz⟩ := hm.old n hold
      rw [hz]
      exact hd.empty n hold (hc ▸ h0)
    · exact (hm.fresh n hn hold).2
  · intro n x v hv
    obtain ⟨hn, hx⟩ := hd.noted n x v hv
    obtain ⟨hn', -, hz⟩ := hm.old n hn
    exact ⟨hn', hz ▸ hx⟩

variable (hk : Kept fs bs live w)

include hk

theorem Moved.steady (hn : n ∈ live) (hx : x < (fs.nodes n).size) :
    fs'.heap.mem ((fs'.nodes n).content + x) = fs.heap.mem ((fs.nodes n).content + x) := by
  obtain ⟨-, b, hb, hu, hptr, hlen⟩ := hk.find hd hn hx
  rw [(hm.old n hn).2.1, ← hptr]
  apply hm.keeps.bytes b hb hu not_mem_nil
  · omega
  · simp only [Blk.ptr, Blk.fin]
    omega

theorem Moved.kept : Kept fs' bs' live' w := by
  refine ⟨?_, ?_⟩
  · intro n hn h0
    by_cases hold : n ∈ live
    · obtain ⟨-, hc, hz⟩ := hm.old n hold
      obtain ⟨b, hb, hu, hptr, hlen⟩ := hk.block n hold (hc ▸ h0)
      exact ⟨b, hm.keeps.blocks b hb hu not_mem_nil, hu, hc ▸ hptr, hz ▸ hlen⟩
    · exact absurd (hm.fresh n hn hold).1 h0
  · intro n x v hv
    obtain ⟨hn, hx⟩ := hd.noted n x v hv
    rw [hm.steady hd hk hn hx]
    exact hk.bytes n x v hv

end Moves

section Writes

variable {foreign : List Nat} {fs fs' : Fs} {bs bs' : List Blk} {live : List Nat}
  {kids : Kids} {w : Notes} {i : Fin 256} {buf : Bytes} {q : Nat}
  (hw : Wrote fs bs i buf fs' bs' q)

include hw

theorem Wrote.self : (fs'.nodes (fs.fds i).node).content = q ∧
    (fs'.nodes (fs.fds i).node).size =
      max (fs.nodes (fs.fds i).node).size ((fs.fds i).offset.toNat + buf.length) := by
  rw [hw.nodes, update_self]
  exact ⟨rfl, rfl⟩

theorem Wrote.other (hn : n ≠ (fs.fds i).node) : fs'.nodes n = fs.nodes n := by
  rw [hw.nodes, update_of_ne hn]

variable (hd : Noted fs live w)

include hd

theorem Wrote.noted (hn : (fs.fds i).node ∈ live) (hq : q ≠ 0) (hs : s.before = fs)
    (hwrote : s.wrote = some (i, buf)) : Noted fs' live (Step.note w s) := by
  subst hs
  refine ⟨?_, ?_⟩
  · intro n hlive
    by_cases hne : n = (s.before.fds i).node
    · rw [hne, hw.self.1]
      exact fun h0 => absurd h0 hq
    · rw [hw.other hne]
      exact hd.empty n hlive
  · intro n x v hv
    rw [note_of_some hwrote] at hv
    by_cases hne : n = (s.before.fds i).node
    · subst hne
      rw [hw.self.2]
      split_ifs at hv with hin
      · exact ⟨hn, by omega⟩
      · have := (hd.noted _ x v hv).2
        exact ⟨hn, by omega⟩
    · rw [if_neg fun hin => hne hin.1] at hv
      rw [hw.other hne]
      exact hd.noted n x v hv

variable (hk : Kept fs bs live w) (h : Inv foreign fs bs live kids)

include hk h

theorem Wrote.steady (hn : (fs.fds i).node ∈ live) (hlive : n ∈ live) (hx : x < (fs.nodes n).size)
    (hside : n = (fs.fds i).node →
      x < (fs.fds i).offset.toNat ∨ (fs.fds i).offset.toNat + buf.length ≤ x) :
    fs'.heap.mem ((fs'.nodes n).content + x) = fs.heap.mem ((fs.nodes n).content + x) := by
  obtain ⟨h0, b, hb, hu, hptr, hlen⟩ := hk.find hd hlive hx
  by_cases hne : n = (fs.fds i).node
  · subst hne
    rw [hw.self.1]
    exact hw.kept b hb hu hptr x (by omega) (hside rfl)
  · rw [hw.other hne, ← hptr]
    apply hw.keeps.bytes b hb hu
    · rw [hptr, mem_singleton]
      exact h.owns.content_ne hlive hn hne h0
    · omega
    · simp only [Blk.ptr, Blk.fin]
      omega

theorem Wrote.kept_all (hn : (fs.fds i).node ∈ live) (hs : s.before = fs)
    (hwrote : s.wrote = some (i, buf)) (hfull : s.Full) : Kept fs' bs' live (Step.note w s) := by
  subst hs
  have hend := hfull i buf hwrote
  refine ⟨?_, ?_⟩
  · intro n hlive hc0
    by_cases hne : n = (s.before.fds i).node
    · subst hne
      obtain ⟨c, hc, hcp, hcf, hcn, -⟩ := hw.block
      rw [hw.self.1, hw.self.2]
      exact ⟨c, hc, hcf, hcp, by omega⟩
    · rw [hw.other hne] at hc0 ⊢
      obtain ⟨b, hb, hu, hptr, hlen⟩ := hk.block n hlive hc0
      refine ⟨b, hw.keeps.blocks b hb hu ?_, hu, hptr, hlen⟩
      rw [hptr, mem_singleton]
      exact h.owns.content_ne hlive hn hne hc0
  · intro n x v hv
    rw [note_of_some hwrote] at hv
    split_ifs at hv with hin
    · obtain ⟨rfl, hlo, hhi⟩ := hin
      have := hw.written _ v hv
      rw [hw.self.1]
      rwa [Nat.add_assoc, Nat.add_sub_cancel' hlo] at this
    · obtain ⟨hlive, hx⟩ := hd.noted n x v hv
      rw [hw.steady hd hk h hn hlive hx fun heq => by
        have hout := fun hlo hhi => hin ⟨heq, hlo, hhi⟩
        omega]
      exact hk.bytes n x v hv

end Writes

section Lossless

variable {foreign : List Nat} {fs : Fs} {bs : List Blk} {live : List Nat}
  {kids : Kids} {w : Notes} (h : Inv foreign fs bs live kids)

include h

theorem Kept.lossless (hd : Noted fs live w) (hk : Kept fs bs live w) : Lossless fs w := by
  refine ⟨?_, fun n x v _ _ hv _ => hk.bytes n x v hv, ?_⟩
  · intro n h0 hheld hsize
    rw [h.owns.sound.rep.hasBlock_iff]
    exact (hk.find hd (h.held_mem h0 hheld) hsize).2
  · intro fd i buf count x v he hfile hv hx hlo hhi
    have hn := (hd.noted _ x v hv).1
    obtain ⟨-, b, hb, -, hptr, hlen⟩ := hk.find hd hn hx
    obtain ⟨k, data, hrun, hkdef, -, hdata⟩ := read_file h.owns.sound h.owns.high he hfile
      (fun _ => ⟨b, hb, hptr, hlen⟩) (by omega) buf count
    refine ⟨_, _, _, hrun, ?_⟩
    have hin : x - (fs.fds i).offset.toNat < k := by omega
    rw [← getElem?_take_of_lt hin, hdata, getElem?_map, getElem?_range hin,
      map_some, Nat.add_sub_cancel' hlo, hk.bytes _ x v hv]

omit h in
theorem Wrote.short {q : Nat} (hw : Wrote fs bs i buf fs' bs' q) (hs : Sound fs.heap bs)
    (hlarge : HasBlock fs.heap (fs.nodes (fs.fds i).node).content (fs.nodes (fs.fds i).node).size)
    (hshort : (fs.fds i).offset.toNat + buf.length < (fs.nodes (fs.fds i).node).size) :
    ¬ HasBlock fs'.heap (fs'.nodes (fs.fds i).node).content (fs'.nodes (fs.fds i).node).size := by
  rw [hw.self.1, hw.self.2, hw.keeps.sound.rep.hasBlock_iff]
  rw [hs.rep.hasBlock_iff] at hlarge
  rintro ⟨d, hd, -, hdp, hdlen⟩
  obtain ⟨b, hb, hu, hptr, hlen⟩ := hlarge
  obtain ⟨c, hc, hcp, hcf, -, hexact⟩ := hw.block
  have hclen := hexact b hb hu hptr (by omega)
  have h1 := hw.keeps.sound.rep.fits.find_ptr hc
  have h2 := hw.keeps.sound.rep.fits.find_ptr hd
  rw [hcp] at h1
  rw [hdp, h1] at h2
  obtain rfl := some.inj h2
  omega

theorem full_of_lossless {w' : Notes} (hcall : c.OnFiles) (hexec : c.exec fs = some (r, fs'))
    (hserved : failures fs'.heap = failures fs.heap) (hloss : Lossless fs w)
    (hloss' : Lossless fs' w') : Step.Full ⟨fs, c, r, fs'⟩ := by
  intro i buf hwrote
  by_contra hshort
  simp only [not_le] at hshort
  obtain ⟨bs', live', kids', hinv, hcases⟩ := step_cases h hcall hexec hserved
  rcases hcases with ⟨hnone, -⟩ | ⟨j, buf', q, hwrote', rfl, hn, -, hw⟩
  · rw [hwrote] at hnone
    exact absurd hnone (by simp)
  rw [hwrote] at hwrote'
  simp only [some.injEq, Prod.mk.injEq] at hwrote'
  obtain ⟨rfl, rfl⟩ := hwrote'
  have h0 := h.linked.ne_zero hn
  have hheld : ∀ fs1 : Fs, (fs1.fds i).node = (fs.fds i).node → 0 < holders fs1 (fs.fds i).node := by
    intro fs1 heq
    have := opens_pos_iff.mpr ⟨i, heq⟩
    unfold holders
    omega
  have hlarge := hloss.block _ h0 (hheld fs rfl) (by omega)
  apply hw.short h.owns.sound hlarge hshort
  exact hloss'.block _ h0 (hheld fs' (by rw [hw.fds, update_self]))
    (by rw [hw.self.2]; omega)

end Lossless

/-! ## Runs -/

theorem step_noted {live : List Nat} (h : Inv foreign fs bs live kids) (hd : Noted fs live w)
    (hcall : c.OnFiles) (hexec : c.exec fs = some (r, fs'))
    (hserved : failures fs'.heap = failures fs.heap) :
    ∃ bs' live' kids', Inv foreign fs' bs' live' kids' ∧
      Noted fs' live' (Step.note w ⟨fs, c, r, fs'⟩) := by
  obtain ⟨bs', live', kids', hinv, hcases⟩ := step_cases h hcall hexec hserved
  refine ⟨bs', live', kids', hinv, ?_⟩
  rcases hcases with ⟨hnone, hm⟩ | ⟨i, buf, q, hwrote, rfl, hn, hq, hw⟩
  · rw [note_of_none hnone]
    exact hm.noted hd
  · exact hw.noted hd hn hq rfl hwrote

theorem step_kept {live : List Nat} (h : Inv foreign fs bs live kids) (hd : Noted fs live w)
    (hk : Kept fs bs live w) (hcall : c.OnFiles) (hexec : c.exec fs = some (r, fs'))
    (hserved : failures fs'.heap = failures fs.heap) (hfull : Step.Full ⟨fs, c, r, fs'⟩) :
    (∃ bs' live' kids', Inv foreign fs' bs' live' kids' ∧
      Noted fs' live' (Step.note w ⟨fs, c, r, fs'⟩) ∧
      Kept fs' bs' live' (Step.note w ⟨fs, c, r, fs'⟩)) ∧ Step.Steady ⟨fs, c, r, fs'⟩ := by
  obtain ⟨bs', live', kids', hinv, hcases⟩ := step_cases h hcall hexec hserved
  rcases hcases with ⟨hnone, hm⟩ | ⟨i, buf, q, hwrote, rfl, hn, hq, hw⟩
  · rw [note_of_none hnone]
    refine ⟨⟨bs', live', kids', hinv, hm.noted hd, hm.kept hd hk⟩, ?_⟩
    intro n x h0 hheld hx _
    exact hm.steady hd hk (h.held_mem h0 hheld) hx
  · refine ⟨⟨bs', live', kids', hinv, hw.noted hd hn hq rfl hwrote,
      hw.kept_all hd hk h hn rfl hwrote hfull⟩, ?_⟩
    intro n x h0 hheld hx hside
    exact hw.steady hd hk h hn (h.held_mem h0 hheld) hx (hside i buf hwrote)

theorem written_snoc (steps : List Step) (s : Step) :
    written (steps ++ [s]) = Step.note (written steps) s := by
  rw [written, foldl_append]
  rfl

/-- A state before the first write. -/
def Unwritten (foreign : List Nat) (fs : Fs) : Prop :=
  ∃ bs live kids, Inv foreign fs bs live kids ∧
    ∀ n ∈ live, (fs.nodes n).content = 0 ∧ (fs.nodes n).size = 0

theorem fileRun_noted {start fs : Fs} (hstart : Unwritten foreign start)
    (hrun : FileRun start steps fs) :
    ∃ bs live kids, Inv foreign fs bs live kids ∧ Noted fs live (written steps) := by
  induction hrun with
  | nil =>
    obtain ⟨bs, live, kids, h, hblank⟩ := hstart
    exact ⟨bs, live, kids, h, fun n hn _ => (hblank n hn).2, fun n x v hv => by simp [written] at hv⟩
  | snoc _ hcall hexec hserved ih =>
    obtain ⟨bs, live, kids, h, hd⟩ := ih
    rw [written_snoc]
    exact step_noted h hd hcall hexec hserved

theorem fileRun_kept {start fs : Fs} (hstart : Unwritten foreign start)
    (hrun : FileRun start steps fs) (hfull : ∀ s ∈ steps, s.Full) :
    (∃ bs live kids, Inv foreign fs bs live kids ∧ Noted fs live (written steps) ∧
      Kept fs bs live (written steps)) ∧ ∀ s ∈ steps, s.Steady := by
  induction hrun with
  | nil =>
    obtain ⟨bs, live, kids, h, hblank⟩ := hstart
    refine ⟨⟨bs, live, kids, h, ⟨fun n hn _ => (hblank n hn).2, fun n x v hv => ?_⟩,
      fun n hn h0 => absurd (hblank n hn).1 h0, fun n x v hv => ?_⟩, by simp⟩
    all_goals simp [written] at hv
  | snoc _ hcall hexec hserved ih =>
    simp only [forall_mem_append, forall_mem_singleton] at hfull
    obtain ⟨⟨bs, live, kids, h, hd, hk⟩, hsteady⟩ := ih hfull.1
    rw [written_snoc]
    obtain ⟨hnext, hlast⟩ := step_kept h hd hk hcall hexec hserved hfull.2
    refine ⟨hnext, ?_⟩
    simp only [forall_mem_append, forall_mem_singleton]
    exact ⟨hsteady, hlast⟩

theorem FileRun.split {start fs : Fs} (hrun : FileRun start steps fs) (hs : s ∈ steps) :
    ∃ pre, pre ++ [s] <+: steps ∧ FileRun start pre s.before ∧ s.call.OnFiles ∧
      s.call.exec s.before = some (s.value, s.after) ∧
      failures s.after.heap = failures s.before.heap := by
  induction hrun with
  | nil => simp at hs
  | @snoc steps _ _ _ _ hrun hcall hexec hserved ih =>
    rw [mem_append, mem_singleton] at hs
    rcases hs with hs | rfl
    · obtain ⟨pre, hpre, hrest⟩ := ih hs
      exact ⟨pre, hpre.trans (prefix_append _ _), hrest⟩
    · exact ⟨steps, prefix_rfl, hrun, hcall, hexec, hserved⟩

theorem initialise_unwritten (hs : Sound fs.heap bs) (hhigh : directBase ≤ fs.heap.heapBase)
    (hinit : initialise fs = some fs') : Unwritten (used bs) fs' := by
  obtain ⟨bs', h, -, ⟨-, hc, hz, -⟩, -⟩ := initialise_inv hs hhigh hinit
  refine ⟨bs', _, _, h, fun n hn => ?_⟩
  obtain rfl := mem_singleton.mp hn
  exact ⟨hc, hz⟩

section Short

variable {foreign : List Nat} {fs : Fs} {bs : List Blk} {live : List Nat} {kids : Kids}

theorem write_returns (h : Sane foreign fs bs live kids) {fd : Int} {i : Fin 256} {buf : Bytes}
    (he : entryOf fd = some i) (hfile : notFile fs (fs.fds i) = false) (hpos : 0 < buf.length)
    (hmax : buf.length < 2 ^ 63) {u : Nat} (hu : 0 < u)
    (hroom : Room ((fs.fds i).offset.toNat + buf.length + headerSize + u) bs) :
    ∃ fs' bs' q, write fs fd buf = some ((BitVec.ofNat 64 buf.length).toInt, fs') ∧
      Wrote fs bs i buf fs' bs' q ∧ Sane foreign fs' bs' live kids ∧ Room u bs' := by
  rcases write_cases h fd hpos hmax with ⟨-, hno⟩ | ⟨j, he', -, hcases⟩
  · exact absurd (hno i he) (by simp [hfile])
  · rw [he] at he'
    obtain rfl := some.inj he'
    rcases hcases with ⟨hno, -⟩ | ⟨fs', bs', q, hrun, -, hw, hs, hroom'⟩
    · exact absurd (hroom.mono (by omega)) hno
    · exact ⟨fs', bs', q, hrun, hw, hs, hroom' u hu hroom⟩

theorem open_first (h : Inv foreign fs bs [fs.root] fun _ => [])
    (hdir : (fs.nodes fs.root).isDir = true) (hfds : ∀ i, (fs.fds i).free = true) {u : Nat}
    (hu : 0 < u) (hroom : Room (nodeSize + headerSize + u) bs) :
    ∃ c fs' bs' live' kids', Tmpfs.open fs slashF oCreat 0o644 none = some (0, fs') ∧
      failures fs'.heap = failures fs.heap ∧ Inv foreign fs' bs' live' kids' ∧
      fs'.fds 0 = ⟨0, c, 0, oCreat, 0o644, false, false⟩ ∧ c ≠ 0 ∧
      (fs'.nodes c).isDir = false ∧ (fs'.nodes c).isSymlink = false ∧ (fs'.nodes c).size = 0 ∧
      Room u bs' := by
  have hroot := h.linked.ne_zero h.linked.root_mem
  have hres : resolvePath fs slashF = some 0 := by
    have htok : tokens [slash, 0x66] = [[0x66]] := by decide
    rw [resolvePath_some (h.cwd ▸ hroot), htok, resolveLoop_cons, if_neg (by decide),
      if_neg (by decide)]
    have hstart : startOf fs fs.cwd [slash, 0x66] = fs.root := rfl
    rw [hstart, findChild_spec h.linked h.linked.root_mem]
    rfl
  have hparent : ParentIsDir fs slashF :=
    ⟨_, [], [0x66], fs.root, rfl, by decide, rfl, hroot, hdir⟩
  obtain ⟨c, fs1, hmade, hcases⟩ := createAtPath_added h hparent hres false 0o644
  rcases hcases with ⟨-, -, hno⟩ | ⟨hc0, -, hfail, d, t, bs1, -, -, hnew, hinv, hgrown, hroom1⟩
  · exact absurd (hroom.mono (by omega)) hno
  have hfds1 : fs1.fds = fs.fds := by rw [hgrown.frame]
  have hfind : (finRange 256).find? (fun i => (fs1.fds i).free) = some 0 := by
    rw [finRange_succ, find?_cons_of_pos]
    rw [hfds1]
    exact hfds 0
  have hisdir : (fs1.nodes c).isDir = false := (congrArg Node.isDir hnew :)
  refine ⟨c, opened fs1 0 c oCreat 0o644, bs1, _, _, ?_, hfail,
    hinv.opened mem_cons_self 0 oCreat 0o644, ?_, hc0, ?_⟩
  · unfold Tmpfs.open
    rw [if_neg (by simp), hres]
    simp only [bind_eq_bind, bind_some]
    rw [if_pos (by decide), hmade]
    simp only [bind_some]
    rw [if_neg hc0, makeDevice, if_pos (by decide)]
    simp only [bind_some, openNode_eq hc0 oCreat 0o644 hfind]
    rfl
  · simp [opened, Fs.setFd, Fs.setNode, hisdir]
  · simp only [opened, Fs.setNode, Fs.setFd, update_self]
    exact ⟨hisdir, (congrArg Node.isSymlink hnew :), (congrArg Node.size hnew :),
      hroom1 u hu hroom⟩

end Short

/-- Ten bytes are written to a new file, and its descriptor goes back to the start. -/
def tenBytes (fs1 f1 f2 f3 : Fs) : List Step :=
  [⟨fs1, .open slashF oCreat 0o644, 0, f1⟩,
    ⟨f1, .write 0 (replicate 10 0x41), 10, f2⟩, ⟨f2, .lseek 0 0 0, 0, f3⟩]

theorem rewritten :
    ∃ (fs1 f1 f2 f3 f4 : Fs) (bs bs' : List Blk) (q : Nat), initialise blank = some fs1 ∧
      FileRun fs1 (tenBytes fs1 f1 f2 f3) f3 ∧
      write f3 0 [0x42] = some (1, f4) ∧ Wrote f3 bs 0 [0x42] f4 bs' q ∧ Sound f3.heap bs ∧
      (f1.nodes (f1.fds 0).node).size = 0 ∧ (f3.fds 0).offset = 0 ∧ (f3.fds 0).node ≠ 0 ∧
      (f3.nodes (f3.fds 0).node).size = 10 := by
  obtain ⟨hs, hroom⟩ := blank_heap
  have hentry : entryOf 0 = some 0 := rfl
  obtain ⟨fs1, hstart⟩ := initialise_returns hs (hroom.mono (by decide))
  obtain ⟨bs1, h1, -, ⟨hdir, -⟩, hfds, -, hroom1⟩ := initialise_inv hs (by decide) hstart
  obtain ⟨c, f1, bs2, live, kids, he1, hf1, h2, hfd, hc0, hd, hl, hz, hroom2⟩ :=
    open_first h1 hdir (fun i => (hfds i).1) (u := 0x2000) (by decide)
      (hroom1 (nodeSize + headerSize + 0x2000) (by decide) (hroom.mono (by decide)))
  have hfile : notFile f1 (f1.fds 0) = false := by
    simp [notFile, hfd, hc0, hd, hl]
  have hroom2' : Room ((f1.fds 0).offset.toNat + 10 + headerSize + 0x1000) bs2 := by
    rw [hfd]
    exact hroom2.mono (show 0 + 10 + headerSize + 0x1000 ≤ 0x2000 by decide)
  obtain ⟨f2, bs3, q, he2, hw, h3, hroom3⟩ :=
    @write_returns _ _ _ _ _ h2.toSane 0 0 (replicate 10 0x41) hentry hfile (by decide) (by decide)
      0x1000 (by decide) hroom2'
  have hfd2 : f2.fds 0 = { f1.fds 0 with offset := 10 } := by
    rw [hw.fds, update_self, hfd]
    rfl
  have hnode2 : f2.nodes c = { f1.nodes c with content := q, size := 10 } := by
    have := hw.nodes
    rw [hfd] at this
    rw [this, update_self, hz]
    rfl
  -- The descriptor goes back to the start.
  obtain ⟨f3, hf3⟩ : ∃ f3, f2.setFd 0 (fun f => { f with offset := 0 }) = f3 := ⟨_, rfl⟩
  have he3 : Tmpfs.lseek f2 0 0 0 = (0, f3) := by
    rw [← hf3]
    unfold Tmpfs.lseek
    simp [hentry, hfd2, hfd, hc0]
  have h4 := (lseek_spec h3 0 0 0).1
  rw [he3] at h4
  have hheap3 : f3.heap = f2.heap := by rw [← hf3]; rfl
  have hnode3 : f3.nodes = f2.nodes := by rw [← hf3]; rfl
  have hfd3 : f3.fds 0 = { f2.fds 0 with offset := 0 } := by
    rw [← hf3]
    simp [Fs.setFd]
  have hfile3 : notFile f3 (f3.fds 0) = false := by
    simp [notFile, hfd3, hfd2, hfd, hc0, hnode3, hnode2, hd, hl]
  have hroom3' : Room ((f3.fds 0).offset.toNat + 1 + headerSize + 0x100) bs3 := by
    rw [hfd3]
    exact hroom3.mono (show 0 + 1 + headerSize + 0x100 ≤ 0x1000 by decide)
  obtain ⟨f4, bs4, q', he4, hw4, -⟩ :=
    @write_returns _ _ _ _ _ h4 0 0 [0x42] hentry hfile3 (by decide) (by decide) 0x100 (by decide)
      hroom3'
  refine ⟨fs1, f1, f2, f3, f4, bs3, bs4, q', hstart, ?_, he4, hw4, h4.owns.sound, ?_, ?_, ?_, ?_⟩
  · have hrun1 : FileRun fs1 ([] ++ [⟨fs1, .open slashF oCreat 0o644, 0, f1⟩]) f1 :=
      .snoc .nil trivial he1 hf1
    have hrun2 : FileRun fs1 (_ ++ [⟨f1, .write 0 (replicate 10 0x41), 10, f2⟩]) f2 :=
      .snoc hrun1 ⟨by decide, by decide⟩ he2 hw.served
    have hrun3 : FileRun fs1 (_ ++ [⟨f2, .lseek 0 0 0, 0, f3⟩]) f3 :=
      .snoc hrun2 trivial (congrArg some he3) (by rw [hheap3])
    exact hrun3
  · rw [hfd]
    exact hz
  · rw [hfd3]
  · rw [hfd3, hfd2, hfd]
    exact hc0
  · rw [hfd3, hfd2, hfd, hnode3, hnode2]

theorem tenBytes_full {f1 f2 f3 : Fs} (hz : (f1.nodes (f1.fds 0).node).size = 0) :
    ∀ s ∈ tenBytes fs1 f1 f2 f3, s.Full := by
  simp only [tenBytes, forall_mem_cons, not_mem_nil, false_imp_iff, implies_true, and_true]
  refine ⟨fun i buf hw => by simp [Step.wrote] at hw, ?_, fun i buf hw => by simp [Step.wrote] at hw⟩
  intro i buf hw
  have hentry : entryOf 0 = some 0 := rfl
  simp only [Step.wrote, hentry, map_some] at hw
  obtain ⟨rfl, -⟩ := Prod.mk.inj (some.inj hw)
  simp only [hz, Nat.zero_le]

section Results

variable {σ : Type} {reserveHeap : Nat → σ → Nat × σ} {m : Mem} {s s' : σ} {h : Heap}

/-- No byte is lost up to any point of a run exactly when every write of the run reaches the end of
its file. -/
theorem lossless_iff_full (hinit : Heap.initialise reserveHeap m s = some (h, s'))
    (htop : h.heapBase + h.heapSize ≤ word) (hhigh : directBase ≤ h.heapBase)
    {before : List Heap.Call} {fs fs1 fs2 : Fs} (hbefore : Heap.runCalls before h = some fs.heap)
    (hstart : initialise fs = some fs1) {steps : List Step} (hrun : FileRun fs1 steps fs2) :
    (∀ pre fs', pre <+: steps → FileRun fs1 pre fs' →
      Lossless fs' (written pre) ∧ ∀ s ∈ pre, s.Steady) ↔ ∀ s ∈ steps, s.Full := by
  obtain ⟨h', hcalls, hs, hbase, -⟩ := runCalls_spec (initialise_sound hinit htop) before
  rw [hbefore] at hcalls
  obtain rfl := some.inj hcalls
  have hblank := initialise_unwritten hs (hbase ▸ hhigh) hstart
  constructor
  · intro hloss s hmem
    obtain ⟨pre, hpre, hrun1, hcall, hexec, hserved⟩ := hrun.split hmem
    obtain ⟨bs, live, kids, hinv, -⟩ := fileRun_noted hblank hrun1
    have hbefore := hloss pre s.before ((prefix_append _ _).trans hpre) hrun1
    have hafter := hloss (pre ++ [s]) s.after hpre (.snoc hrun1 hcall hexec hserved)
    exact full_of_lossless hinv hcall hexec hserved hbefore.1 hafter.1
  · intro hfull pre fs' hpre hrun1
    obtain ⟨⟨bs, live, kids, hinv, hd, hk⟩, hsteady⟩ :=
      fileRun_kept hblank hrun1 fun s hmem => hfull s (hpre.subset hmem)
    exact ⟨hk.lossless hinv hd, hsteady⟩

end Results

theorem lossless_iff_full_tenBytes :
    ∃ fs1 f1 f2 f3 : Fs, initialise blank = some fs1 ∧
      FileRun fs1 (tenBytes fs1 f1 f2 f3) f3 ∧ Lossless f3 (written (tenBytes fs1 f1 f2 f3)) := by
  obtain ⟨fs1, f1, f2, f3, -, -, -, -, hstart, hrun, -, -, -, hz, -⟩ := rewritten
  have hbefore : runCalls [] oneMib =
    some blank.heap := rfl
  have hiff := lossless_iff_full initialise_at_one_mib (by decide) (by decide) hbefore hstart hrun
  exact ⟨fs1, f1, f2, f3, hstart, hrun,
    (hiff.mpr (tenBytes_full hz) _ f3 prefix_rfl hrun).1⟩

/-- A file of ten bytes in a block of one. -/
theorem short_write_loses :
    ∃ fs1 f1 f2 f3 f4 : Fs, initialise blank = some fs1 ∧
      FileRun fs1 (tenBytes fs1 f1 f2 f3 ++ [⟨f3, .write 0 [0x42], 1, f4⟩]) f4 ∧
      (f4.nodes (f3.fds 0).node).size = 10 ∧
      ¬ HasBlock f4.heap (f4.nodes (f3.fds 0).node).content 10 ∧ ∀ w, ¬ Lossless f4 w := by
  obtain ⟨fs1, f1, f2, f3, f4, bs, bs', q, hstart, hrun, hexec, hw, hs3, hz, ho, hn0, hsize⟩ :=
    rewritten
  have hs : Sound blank.heap (initialBlocks 0xFFFF800000100000 0x100000000) :=
    firstBlock_sound _ (by decide) (by decide)
  have hblank := initialise_unwritten hs (by decide) hstart
  obtain ⟨⟨_, live, kids, hinv, hd, hk⟩, -⟩ := fileRun_kept hblank hrun (tenBytes_full hz)
  have hloss := hk.lossless hinv hd
  have hheld : ∀ fs : Fs, (fs.fds 0).node = (f3.fds 0).node → 0 < holders fs (f3.fds 0).node := by
    intro fs heq
    have := opens_pos_iff.mpr ⟨0, heq⟩
    unfold holders
    omega
  have hsize4 : (f4.nodes (f3.fds 0).node).size = 10 := by
    rw [hw.self.2, hsize, ho]
    rfl
  have hshort := hw.short hs3 (hloss.block _ hn0 (hheld f3 rfl) (by omega))
    (by rw [hsize, ho]; decide)
  rw [hsize4] at hshort
  refine ⟨fs1, f1, f2, f3, f4, hstart, .snoc hrun ⟨by decide, by decide⟩ hexec hw.served, hsize4,
    hshort, fun w hloss4 => hshort ?_⟩
  have := hloss4.block _ hn0 (hheld f4 (by rw [hw.fds, update_self])) (by omega)
  rwa [hsize4] at this

end Terrakernel.Tmpfs
