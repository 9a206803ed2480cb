import Terrakernel.Tmpfs.Ops
import Terrakernel.Tmpfs.Strings

/-!
# The two walks along a path

Where the path exists they come to the same node, and elsewhere the first finds what the second
makes.
-/

namespace Terrakernel.Tmpfs

open Memory Vmm Links Heap

section Resolve

variable {fs : Fs} {live : List Nat} {kids : Kids}

/-- A path in two parts leads where the second leads from where the first leads. -/
theorem resolve_in_two_parts (h : Linked fs.nodes fs.root live kids) {base : Nat}
    (hbase : Reached fs.root kids base) {p q : Bytes} (hp : p ≠ []) (hq : q.head? ≠ some slash)
    (hlen : (p ++ slash :: q).length ≤ 511) :
    ∃ n, resolvePathInternal fs base (some p) = some n ∧
      resolvePathInternal fs base (some (p ++ slash :: q)) =
        if n = 0 then some 0 else resolvePathInternal fs n (some q) := by
  have hbase0 := h.ne_zero (h.reached_mem hbase)
  have hreached := startOf_reached hbase p
  have hstart : startOf fs base (p ++ slash :: q) = startOf fs base p := by
    unfold startOf
    rw [List.head?_append_of_ne_nil _ hp]
  obtain ⟨n, hn, hcases⟩ := resolveLoop_spec h hreached (tokens p)
  refine ⟨n, by rw [resolvePathInternal_some hbase0, hn], ?_⟩
  rw [resolvePathInternal_some hbase0, hstart, tokens_append hlen]
  by_cases h0 : n = 0
  · rw [if_pos h0]
    exact resolveLoop_append_missing _ (h.ne_zero (h.reached_mem hreached)) (h0 ▸ hn)
  · rw [if_neg h0, resolveLoop_append _ hn h0, resolvePathInternal_some h0, startOf, if_neg hq]

end Resolve

theorem resolve_in_two_parts_file :
    ∃ fs : Fs, resolvePathInternal fs fs.root (some [slash]) = some fs.root ∧ fs.root ≠ 0 ∧
      resolvePathInternal fs fs.root (some [slash, slash, 0x66]) =
        resolvePathInternal fs fs.root (some [0x66]) := by
  obtain ⟨fs1, i, c, fs2, bs2, -, -, -, -, h, -⟩ :=
    blank_file (t := [0x66]) (by decide) (by decide) (by decide)
  have hlink := h.linked
  have hroot := hlink.ne_zero hlink.root_mem
  have hself : resolvePathInternal fs2 fs2.root (some [slash]) = some fs2.root := by
    rw [resolvePathInternal_some hroot]
    rfl
  obtain ⟨n, hn, hboth⟩ := resolve_in_two_parts hlink .root (p := [slash]) (q := [0x66]) (by decide)
    (by decide) (by decide)
  obtain rfl : fs2.root = n := Option.some.inj (hself.symm.trans hn)
  rw [if_neg hroot] at hboth
  exact ⟨fs2, hself, hroot, hboth⟩

/-! ## The walk that makes what is missing -/

/-- New nodes at the ends of the lists of children, and nothing else is different. -/
structure Appended (fs : Fs) (live : List Nat) (kids : Kids) (fs' : Fs)
    (kids' : Kids) : Prop where
  root : fs'.root = fs.root
  cwd : fs'.cwd = fs.cwd
  fds : fs'.fds = fs.fds
  data : ∀ m ∈ live, (fs'.nodes m).data = (fs.nodes m).data
  lists : ∀ m ∈ live, ∃ l, kids' m = kids m ++ l ∧ ∀ c ∈ l, c ∉ live

theorem Built.appended {R : Rules} {fs fs' : Fs} {bs bs' : List Blk} {live live' : List Nat}
    {kids kids' : Kids} (h : Built R fs bs live kids fs' bs' live' kids') :
    Appended fs live kids fs' kids' :=
  ⟨by rw [h.ext.frame], by rw [h.ext.frame], by rw [h.ext.frame], fun m hm => (h.ext.old m hm).2,
    h.old⟩

section Create

variable {foreign : List Nat} {fs : Fs} {bs : List Blk} {live : List Nat} {kids : Kids}

/-- Where the path exists, both walks come to the same node and nothing changes. Elsewhere the
second makes what is missing, unless an allocation fails, and the first then finds it. -/
theorem walkers_agree (h : Sane foreign fs bs live kids) {base : Nat}
    (hbase : Reached fs.root kids base) {path : Bytes} (hpath : path ≠ [])
    (hshort : ∀ t ∈ tokens path, t.length ≤ 127) (isDir : Bool) (mode : Nat) :
    ∃ n, resolvePathInternal fs base (some path) = some n ∧
      (n ≠ 0 → createAtPathInternal fs base (some path) isDir mode = some (n, fs)) ∧
      (n = 0 → ∃ r fs', createAtPathInternal fs base (some path) isDir mode = some (r, fs') ∧
        (failures fs'.heap = failures fs.heap →
          r ≠ 0 ∧ resolvePathInternal fs' base (some path) = some r ∧
          ∃ bs' live' kids', Sane foreign fs' bs' live' kids' ∧ Appended fs live kids fs' kids')) := by
  have hbase0 := h.linked.ne_zero (h.linked.reached_mem hbase)
  have hcreate := @createAtPathInternal_some fs base path hbase0 hpath isDir mode
  have hreached := startOf_reached hbase path
  obtain ⟨n, hn, -⟩ := resolveLoop_spec h.linked hreached (tokens path)
  refine ⟨n, by rw [resolvePathInternal_some hbase0, hn], ?_, ?_⟩
  · intro h0
    have hwalk := createLoop_append isDir mode [] hn h0
    rw [List.append_nil] at hwalk
    rw [hcreate, hwalk, createLoop]
  · intro _
    have hmakes : MakesIn (fun _ _ _ => True) isDir mode fs (startOf fs base path) (tokens path) :=
      makesIn_of_forall isDir mode (fun _ _ _ _ _ => trivial) fs _
    obtain ⟨r, fs', bs', live', kids', hrun, hs, hb, -, hr, hres⟩ :=
      createLoop_built (R := Rules.none) (fun _ _ _ _ _ _ _ _ => trivial) h hreached hmakes
    refine ⟨r, fs', hcreate.trans hrun, fun hserved => ?_⟩
    have hr0 : r ≠ 0 := by
      rcases hr with ⟨-, hfail⟩ | hr
      · omega
      · exact hs.linked.ne_zero (hs.linked.reached_mem hr)
    have hstart : startOf fs' base path = startOf fs base path := startOf_congr hb.root base path
    refine ⟨hr0, ?_, bs', live', kids', hs, hb.appended⟩
    rw [resolvePathInternal_some hbase0, hstart]
    exact hres hr0 hshort

end Create

theorem walkers_agree_beside :
    ∃ (fs fs' : Fs) (c d : Nat), c ≠ 0 ∧
      resolvePathInternal fs fs.root slashF = some c ∧
      createAtPathInternal fs fs.root slashF true 0o755 = some (c, fs) ∧
      resolvePathInternal fs fs.root slashG = some 0 ∧ d ≠ 0 ∧
      createAtPathInternal fs fs.root slashG true 0o755 = some (d, fs') ∧
      resolvePathInternal fs' fs.root slashG = some d := by
  obtain ⟨-, -, c, fs2, bs2, -, -, -, -, h, -, hname, -, hcwd, -, hroom, -⟩ :=
    blank_file (t := [0x66]) (by decide) (by decide) (by decide)
  have hlink := h.linked
  have hc0 : c ≠ 0 := hlink.ne_zero List.mem_cons_self
  have hroot := hlink.ne_zero hlink.root_mem
  have hres : resolvePathInternal fs2 fs2.root slashF = some c :=
    resolve_only h (by decide) (by decide) (by decide) hname hroot
  have hmissing : resolvePathInternal fs2 fs2.root slashG = some 0 := by
    refine resolve_missing hlink (by decide) (by decide) (by decide) ?_ hroot
    rw [grown_curr]
    simp [hname]
  obtain ⟨d, fs3, -, hcreate, -, hserved, -⟩ :=
    create_new h (show tokens [slash, 0x67] = [] ++ [[0x67]] by decide) (d := fs2.root) rfl hroot
      (by rw [resolvePath, hcwd, hmissing]) (u := 0x100) (by decide) (hroom.mono (by decide)) true 0o755
  rw [createAtPath, hcwd] at hcreate
  have hold : [slash, 0x66] ≠ [] := by decide
  have hnew : [slash, 0x67] ≠ [] := by decide
  obtain ⟨n, hn, hsame, -⟩ := walkers_agree h.sane .root hold (by decide) true 0o755
  obtain rfl : c = n := Option.some.inj (hres.symm.trans hn)
  obtain ⟨m, hm, -, hmade⟩ := walkers_agree h.sane .root hnew (by decide) true 0o755
  obtain rfl : 0 = m := Option.some.inj (hmissing.symm.trans hm)
  obtain ⟨r, fs', hrun, hfound⟩ := hmade rfl
  rw [hcreate] at hrun
  cases hrun
  obtain ⟨hd0, hres', -⟩ := hfound hserved
  exact ⟨fs2, fs3, c, d, hc0, hres, hsame hc0, hmissing, hd0, hcreate, hres'⟩

end Terrakernel.Tmpfs
