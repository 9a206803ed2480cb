import Terrakernel.Tmpfs.BuildPath
import Terrakernel.Tmpfs.Dents
import Terrakernel.Tmpfs.Visited

/-!
# Symbolic links

`symlink` takes the directory from `cwd`, and `readlink` counts with 32 bits.
-/

namespace Terrakernel.Tmpfs

open Memory Vmm Links Heap Option
open List hiding Chain Mem

variable {m : Nat} {s : Bytes} {q : Names} {fs : Fs}

/-- The `n` bytes that `strncpy` writes: the string at `src`, cut or filled up with zeros. -/
def strncpyBytes (m : Mem) : Nat → Nat → Bytes
  | 0, _ => []
  | n + 1, src =>
    if m src = 0 then replicate (n + 1) 0 else m src :: strncpyBytes m n (src + 1)

/-- The bytes go to `buf[0]` and behind it. -/
def readlink (fs : Fs) (path : Path) (buf : Mem) (bufsize : Nat) : Option (Int × Mem) := do
  let n ← resolvePath fs path
  if n = 0 ∨ (fs.nodes n).isSymlink = false then some (-1, buf)
  else
    let buf := putBytes buf 0 (strncpyBytes fs.heap.mem (bufsize % 2 ^ 32) (fs.nodes n).content)
    let s ← cString buf (2 ^ 32) 0
    some (s.length, buf)

/-- The path `l` leads to the link `c` in the directory `d`, the link to `s`, and every other path
where it led. A caller gets `s` just if the buffer has what is not copied: a count whose low half is
above the length copies all of it. -/
structure LinksTo (fs : Fs) (l : Bytes) (d : Nat) (s : Bytes) (c : Nat) (fs' : Fs) :
    Prop where
  found : resolvePath fs' (some l) = some c ∧ c ≠ 0
  link : (fs'.nodes c).isSymlink = true
  child : ∃ xs, Chain (sibling fs'.nodes) (fs'.nodes d).firstChild xs ∧ c ∈ xs
  reads : ∀ (buf : Mem) (m : Nat),
    (∃ buf', readlink fs' (some l) buf m = some ((s.length : Int), buf') ∧
      ∀ j v, s[j]? = some v → buf' j = v) ↔
    ∀ j v, m % 2 ^ 32 ≤ j → (s ++ [0])[j]? = some v → buf j = v
  others : ∀ p, c ∉ visited fs' p → resolvePath fs' p = resolvePath fs p

/-! ## Strings -/

theorem length_strncpyBytes (m : Mem) (n src : Nat) : (strncpyBytes m n src).length = n := by
  induction n generalizing src with
  | zero => rfl
  | succ n ih =>
    rw [strncpyBytes]
    split_ifs
    · exact length_replicate
    · rw [length_cons, ih]

theorem strncpyBytes_at {m : Mem} {n src : Nat} (hs : ∀ b ∈ s, b ≠ 0)
    (hbytes : ∀ j v, (s ++ [0])[j]? = some v → m (src + j) = v) {j : Nat} {v : Byte}
    (hv : (s ++ [0])[j]? = some v) (hj : j < n) : (strncpyBytes m n src)[j]? = some v := by
  obtain _ | n := n
  · omega
  induction s generalizing n src j with
  | nil =>
    have h0 : m src = 0 := hbytes 0 0 rfl
    obtain ⟨rfl, rfl⟩ : j = 0 ∧ 0 = v := by simpa [List.getElem?_eq_some_iff] using hv
    rw [strncpyBytes, if_pos h0]
    rfl
  | cons b s ih =>
    rw [forall_mem_cons] at hs
    have hb : m src = b := hbytes 0 b rfl
    rw [strncpyBytes, hb, if_neg hs.1]
    obtain _ | j := j
    · exact hv
    · obtain _ | n := n
      · omega
      refine ih hs.2 (fun i w hw => ?_) hv n (by omega)
      rw [← hbytes (i + 1) w hw]
      congr 1
      omega

theorem cString_end {m : Mem} {fuel a : Nat} {r : Bytes} (h : cString m fuel a = some r) :
    m (a + r.length) = 0 := by
  induction fuel generalizing a r with
  | zero => cases h
  | succ fuel ih =>
    rw [cString] at h
    split_ifs at h with h0
    · cases h
      exact h0
    · obtain ⟨r, hr, rfl⟩ := Option.map_eq_some_iff.mp h
      rw [length_cons, Nat.add_comm r.length, ← Nat.add_assoc]
      exact ih hr

theorem fullName_noNul (hq : ∀ u ∈ q, ∀ b ∈ u, b ≠ 0) : ∀ b ∈ fullName q, b ≠ 0 := by
  intro b hb
  unfold fullName at hb
  split_ifs at hb
  · rw [mem_singleton.mp hb]
    decide
  · obtain ⟨u, hu, hbu⟩ := mem_flatMap.mp hb
    rcases mem_cons.mp hbu with rfl | hbu
    · decide
    · exact hq u hu b hbu

theorem readlink_iff {path : Path} {c : Nat} (hres : resolvePath fs path = some c) (hc0 : c ≠ 0)
    (hlink : (fs.nodes c).isSymlink = true) (hs : ∀ b ∈ s, b ≠ 0) (hlen : s.length < 2 ^ 32)
    (hbytes : ∀ j v, (s ++ [0])[j]? = some v → fs.heap.mem ((fs.nodes c).content + j) = v)
    (buf : Mem) :
    (∃ buf', readlink fs path buf m = some ((s.length : Int), buf') ∧
      ∀ j v, s[j]? = some v → buf' j = v) ↔
    ∀ j v, m % 2 ^ 32 ≤ j → (s ++ [0])[j]? = some v → buf j = v := by
  obtain ⟨copy, hcopy⟩ : ∃ copy, strncpyBytes fs.heap.mem (m % 2 ^ 32) (fs.nodes c).content = copy :=
    ⟨_, rfl⟩
  have hlength : copy.length = m % 2 ^ 32 := hcopy ▸ length_strncpyBytes _ _ _
  have hbefore : ∀ j v, j < m % 2 ^ 32 → (s ++ [0])[j]? = some v → putBytes buf 0 copy (0 + j) = v :=
    fun j v hj hv => putBytes_at _ _ _ _ _ (hcopy ▸ strncpyBytes_at hs hbytes hv hj)
  have hbehind : ∀ j, m % 2 ^ 32 ≤ j → putBytes buf 0 copy j = buf j :=
    fun j hj => putBytes_outside _ _ _ _ (Or.inr (by omega))
  have hrun : readlink fs path buf m = (cString (putBytes buf 0 copy) (2 ^ 32) 0).map
      fun r => ((r.length : Int), putBytes buf 0 copy) := by
    unfold readlink
    simp only [hres, hc0, hlink, bind_eq_bind, bind_some, false_or, Bool.true_eq_false, if_false, hcopy]
    cases cString (putBytes buf 0 copy) (2 ^ 32) 0 <;> rfl
  rw [hrun]
  constructor
  · rintro ⟨buf', hread, hall⟩ j v hj hv
    obtain ⟨r, hr, heq⟩ := Option.map_eq_some_iff.mp hread
    rw [Prod.mk.injEq, Int.natCast_inj] at heq
    obtain ⟨hrs, rfl⟩ := heq
    rw [← hbehind j hj]
    rcases Nat.lt_or_ge j s.length with hlt | hge
    · rw [getElem?_append_left hlt] at hv
      exact hall j v hv
    · -- The zero behind the string that was found.
      obtain ⟨rfl, rfl⟩ : j = s.length ∧ 0 = v := by
        rw [getElem?_append_right hge, List.getElem?_eq_some_iff] at hv
        obtain ⟨hlt, hv⟩ := hv
        rw [length_singleton] at hlt
        exact ⟨by omega, by simpa using hv⟩
      rw [← hrs, ← Nat.zero_add r.length]
      exact cString_end hr
  · intro hbuf
    have hput : ∀ j v, (s ++ [0])[j]? = some v → putBytes buf 0 copy (0 + j) = v := by
      intro j v hv
      rcases Nat.lt_or_ge j (m % 2 ^ 32) with hlt | hge
      · exact hbefore j v hlt hv
      · rw [Nat.zero_add, hbehind j hge, hbuf j v hge hv]
    refine ⟨_, by rw [cString_eq hs hlen hput]; rfl, fun j v hv => ?_⟩
    have hj := (List.getElem?_eq_some_iff.mp hv).1
    rw [← hput j v (by rw [getElem?_append_left hj]; exact hv), Nat.zero_add]

section NewLink

variable {foreign : List Nat} {fs fs' : Fs} {bs bs' : List Blk} {live : List Nat}
  {kids : Kids} {l path : Bytes} {q c : Nat}
  (hn : NewLink foreign fs bs live kids l q path c fs' bs') (h : Held foreign fs bs live kids)

include hn

theorem NewLink.root : fs'.root = fs.root := by rw [hn.frame]

theorem NewLink.cwd : fs'.cwd = fs.cwd := by rw [hn.frame]

theorem NewLink.ne (hm : m ∈ live) : m ≠ c := by
  rintro rfl
  exact hn.new hm

theorem NewLink.up_eq (hm : m ∈ live) : up fs'.nodes m = up fs.nodes m := by
  apply up_congr
  exact (congrArg Node.parent (hn.others m (hn.ne hm)) :)

include h

theorem NewLink.named_eq (hm : m ∈ live) (t : Bytes) :
    named fs'.nodes (grown kids fs.cwd c) m t = (named fs.nodes kids m t).or
      (if m = fs.cwd ∧ (baseName l).take 127 = t then some c else none) := by
  have hl := h.linked
  have hname : (fs'.nodes c).name = (baseName l).take 127 := (congrArg Node.name hn.node :)
  have hold : (kids m).find? (fun x => (fs'.nodes x).name = t) = named fs.nodes kids m t := by
    refine named_congr (fun x hx => ?_) t
    exact (congrArg Node.name (hn.others x (hn.ne (hl.child m hm x hx).1)) :)
  unfold named at hold ⊢
  by_cases hcwd : m = fs.cwd
  · rw [hcwd] at hold ⊢
    rw [grown_curr, find?_append, hold, find?_singleton, hname]
    simp
  · rw [grown_of_ne hcwd (hn.ne hm), hold]
    simp [hcwd]

theorem NewLink.resolvePath_eq {p : Path} (hc : c ∉ visited fs' p) :
    resolvePath fs' p = resolvePath fs p := by
  have hl := h.linked
  have hl' := hn.sane.linked
  have hcwd0 := h.ne_zero h.cwd
  cases p with
  | none => rfl
  | some s =>
    have hstart : startOf fs' fs.cwd s = startOf fs fs.cwd s := startOf_congr hn.root fs.cwd s
    have hreached : Reached fs'.root (grown kids fs.cwd c) (startOf fs fs.cwd s) := by
      rw [hn.root]
      exact reached_grown_of hl hn.new (startOf_reached h.cwd s)
    simp only [visited, hn.cwd, if_neg hcwd0, hstart] at hc
    rw [resolvePath_some hcwd0, resolvePath_some (hn.cwd ▸ hcwd0), hn.cwd, hstart]
    obtain ⟨x, hx, -⟩ := resolveLoop_spec hl' hreached (tokens s)
    rw [hx]
    symm
    refine hl'.resolveLoop_along (P := fun m => m ∈ live) hl
      (fun m hm => ⟨mem_cons_of_mem _ hm, hm⟩) (fun m hm => (hn.up_eq hm).symm) ?_ ?_ ?_ hx
    · intro m t x hm hx hfind
      rw [hn.named_eq h hm] at hfind
      rcases or_eq_some_iff.mp hfind with hfind | ⟨-, hfind⟩
      · exact hfind
      · split_ifs at hfind
        exact absurd (some.inj hfind).symm (hn.ne hx)
    · intro _ m t hm hfind
      rw [hn.named_eq h hm, or_eq_none_iff] at hfind
      exact hfind.1
    · intro m hm
      have hmem := hl'.reached_mem (hl'.walk_reached hreached (tokens s) m hm)
      exact (mem_cons.mp hmem).resolve_left fun heq => hc (heq ▸ hm)

theorem NewLink.asks {p : Bytes} {d : Nat} {t : Bytes} (ha : Asks fs p d t)
    (hno : resolvePath fs (some p) = some 0) :
    resolvePath fs' (some p) =
      some (if d = fs.cwd ∧ (baseName l).take 127 = t then c else 0) := by
  have hl := h.linked
  have hl' := hn.sane.linked
  have hdlive := hl.reached_mem (ha.reached hl h.cwd)
  obtain ⟨ts, hts, hwalk⟩ := ha.walked
  have hstart : startOf fs' fs.cwd p = startOf fs fs.cwd p := startOf_congr hn.root fs.cwd p
  have hsame : resolveLoop fs'.nodes (startOf fs fs.cwd p) ts = some d := by
    refine hl.resolveLoop_along (P := fun m => m ∈ live) hl'
      (fun m hm => ⟨hm, mem_cons_of_mem _ hm⟩) (fun m hm => hn.up_eq hm) ?_
      (fun h0 => absurd h0 ha.dir) ?_ hwalk
    · intro m u x hm _ hfind
      rw [hn.named_eq h hm, hfind]
      rfl
    · exact fun m hm => hl.reached_mem (hl.walk_reached (startOf_reached h.cwd p) ts m hm)
  have hnone : named fs.nodes kids d t = none := by
    rcases ha.named_cases hl h.cwd hno with ⟨-, hnone⟩ | hsome
    · exact hnone
    · exact absurd rfl (hl.named_ne_zero hdlive hsome)
  rw [resolvePath_some (hn.cwd ▸ h.ne_zero h.cwd), hn.cwd, hstart, hts]
  rw [hl'.resolveLoop_snoc hsame (mem_cons_of_mem _ hdlive) ha.plain.1 ha.plain.2,
    hn.named_eq h hdlive, hnone, none_or]
  split_ifs <;> rfl

end NewLink

/-- The link is where its path says exactly when that is a path in the working directory, and ends
with the name that is stored. -/
theorem symlink_links_iff {foreign : List Nat} {fs fs' : Fs} {bs : List Blk} {live : List Nat}
    {kids : Kids} (h : Held foreign fs bs live kids) {target : Path} {x : Nat}
    (htarget : resolvePath fs target = some x) {q : Names} (hq : Spelled fs kids q x)
    (hnul : ∀ u ∈ q, ∀ b ∈ u, b ≠ 0) {l : Bytes} {d : Nat} {t : Bytes}
    (hasks : Asks fs l d t) (hno : resolvePath fs (some l) = some 0)
    (hrun : symlink fs target (some l) = some (0, fs')) :
    (∃ c, LinksTo fs l d (fullName q) c fs') ↔ d = fs.cwd ∧ (baseName l).take 127 = t := by
  rcases h.symlink_cases hrun with ⟨hr, -⟩ |
    ⟨-, l', x', p, path, fs1, c, bs', hl', hx', -, hbuild, hp, hn⟩
  · exact absurd hr (by decide)
  obtain rfl := some.inj hl'
  obtain rfl : x = x' := some.inj (htarget.symm.trans hx')
  obtain ⟨rfl, hlen, -⟩ := h.linked.buildPathAtNode_string hq hbuild hp
  have hres := hn.asks h hasks hno
  constructor
  · rintro ⟨y, hy⟩
    by_contra hbad
    rw [if_neg hbad] at hres
    exact hy.found.2 (some.inj (hy.found.1.symm.trans hres))
  · rintro ⟨rfl, rfl⟩
    rw [if_pos ⟨rfl, rfl⟩] at hres
    have hc0 : c ≠ 0 := hn.sane.linked.ne_zero mem_cons_self
    have hlink : (fs'.nodes c).isSymlink = true := (congrArg Node.isSymlink hn.node :)
    have hcontent : (fs'.nodes c).content = p := (congrArg Node.content hn.node :)
    refine ⟨c, ⟨hres, hc0⟩, hlink, ?_, ?_, fun r => hn.resolvePath_eq h⟩
    · refine ⟨_, hn.sane.linked.chain fs.cwd ?_, ?_⟩
      · exact mem_cons_of_mem _ (h.linked.reached_mem h.cwd)
      · exact mem_grown_self _ _ _
    · exact fun buf m => readlink_iff hres hc0 hlink (fullName_noNul hnul) (by omega)
        (hcontent.symm ▸ hn.string) buf

/-! ## With room in the heap -/

theorem Held.symlink_served {foreign : List Nat} {bs : List Blk} {live : List Nat}
    {kids : Kids} (h : Held foreign fs bs live kids) {target : Path} {x : Nat}
    (htarget : resolvePath fs target = some x) (hq : Spelled fs kids q x)
    (hlen : (pathOf q).length ≤ 1023)
    (hroom : Room ((fullName q).length + 1 + headerSize + nodeSize) bs) (l : Bytes) :
    ∃ p c fs' bs', Tmpfs.symlink fs target (some l) = some (0, fs') ∧
      NewLink foreign fs bs live kids l p (fullName q) c fs' bs' := by
  obtain ⟨p, heap1, hp, hserved⟩ :=
    h.sane.buildPathAtNode_served hq hlen (hroom.mono (by omega))
  obtain ⟨p', path, heap, bs1, hbuild, hk, hcases⟩ := buildPathAtNode_cases h.sane x
  rw [hserved, some.injEq, Prod.mk.injEq, Prod.mk.injEq] at hbuild
  obtain ⟨rfl, rfl, heq⟩ := hbuild
  obtain rfl : heap1 = heap := congrArg Fs.heap heq
  rcases hcases with ⟨h0, -⟩ | ⟨-, hused, hstring, hbytes, hrest⟩
  · exact absurd h0 hp
  obtain ⟨c, heap', bs', hm, hk', hcases⟩ := malloc_cases hk.sound nodeSize
  rcases hcases with ⟨-, -, -, hno⟩ | ⟨hc0, -, hused', hblock, -⟩
  · exact absurd (hrest nodeSize (by decide) hroom) hno
  obtain ⟨fs', hmade, hnew⟩ := h.symlink_made htarget (h.ne_zero hq.reached) hserved hp hk hused
    hstring hbytes hm hc0 hk' hused' hblock
  exact ⟨p, c, fs', bs', hmade, hnew⟩

theorem symlink_links_iff_root :
    ∃ fs1 fs2 c, initialise blank = some fs1 ∧
      symlink fs1 (some [slash]) (some [slash, 0x6C]) = some (0, fs2) ∧
      LinksTo fs1 [slash, 0x6C] fs1.root [slash] c fs2 := by
  obtain ⟨fs1, bs1, hinit, -, h, hcwd, -, -, hroom⟩ := blank_started
  have hroot := h.ne_zero .root
  have htarget : resolvePath fs1 (some [slash]) = some fs1.root := by
    rw [resolvePath_walk _ hcwd hroot]
    rfl
  obtain ⟨p, c, fs2, bs2, hrun, -⟩ := h.symlink_served htarget .root (by decide)
    (hroom.mono (by decide)) [slash, 0x6C]
  have hasks : Asks fs1 [slash, 0x6C] fs1.root [0x6C] :=
    ⟨⟨[], by decide, rfl⟩, hroot, by decide, by decide⟩
  have hno : resolvePath fs1 (some [slash, 0x6C]) = some 0 :=
    resolve_missing h.linked (by decide) (by decide) (by decide) (by simp) (hcwd ▸ hroot)
  obtain ⟨c, hlinks⟩ := (symlink_links_iff h htarget .root (by simp) hasks hno hrun).mpr
    ⟨hcwd.symm, by decide⟩
  exact ⟨fs1, fs2, c, hinit, hrun, hlinks⟩

/-! ## A link in another directory -/

/-- The link that should be in the directory `/d` is not there. -/
theorem symlink_elsewhere :
    ∃ fs1 fs2 fs3 d, initialise blank = some fs1 ∧
      mkdir fs1 (some [slash, 0x64]) 0o755 = some (0, fs2) ∧ fs2.cwd = fs2.root ∧
      resolvePath fs2 (some [slash, 0x64]) = some d ∧ d ≠ 0 ∧ (fs2.nodes d).isDir = true ∧
      resolvePath fs2 (some [slash, 0x64, slash, 0x6C]) = some 0 ∧
      symlink fs2 (some [slash]) (some [slash, 0x64, slash, 0x6C]) = some (0, fs3) ∧
      resolvePath fs3 (some [slash, 0x64, slash, 0x6C]) = some 0 := by
  obtain ⟨fs1, fs2, foreign, bs, live, kids, d, hinit, hmkdir, h, htok, hd, hdir, hmissing,
    hroom⟩ :=
    blank_mkdir (P := [[0x64]]) (by decide) (by decide) (by decide) (by decide)
  have hl := h.linked
  have hroot := h.ne_zero .root
  have hpath : tokens [slash, 0x64, slash, 0x6C] = [[0x64], [0x6C]] := by decide
  have hdlive := hl.look_mem hd
  have hd0 := hl.ne_zero hdlive
  have hdr : d ≠ fs2.root := by
    rintro rfl
    exact absurd (hl.look_inj hd look_nil) (by decide)
  have hfound : resolvePath fs2 (some [slash, 0x64]) = some d := by
    refine (h.resolvePath_eq (P := [[0x64]]) (by decide) htok).trans ?_
    rw [hd]
    rfl
  have hno : resolvePath fs2 (some [slash, 0x64, slash, 0x6C]) = some 0 := by
    rw [h.resolvePath_eq (by decide) hpath, hmissing _ (by decide)]
    rfl
  have htarget : resolvePath fs2 (some [slash]) = some fs2.root := by
    rw [resolvePath_walk _ h.home hroot]
    rfl
  have hasks : Asks fs2 [slash, 0x64, slash, 0x6C] d [0x6C] := by
    refine ⟨⟨[[0x64]], hpath, ?_⟩, hd0, by decide, by decide⟩
    rw [resolvePath_walk _ h.home hroot] at hfound
    exact hfound
  obtain ⟨p, c, fs3, bs3, hrun, hnew⟩ := h.symlink_served htarget .root (by decide)
    (hroom.mono (by decide)) [slash, 0x64, slash, 0x6C]
  refine ⟨fs1, fs2, fs3, d, hinit, hmkdir, h.home, hfound, hd0, hdir, hno, hrun, ?_⟩
  rw [hnew.asks h.toHeld hasks hno, if_neg]
  exact fun hbad => hdr (hbad.1.trans h.home)

end Terrakernel.Tmpfs
