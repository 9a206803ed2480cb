import Terrakernel.Tmpfs.Failures
import Terrakernel.Tmpfs.Ops

/-!
# `open` that fails

The nodes of a path are made before a descriptor is looked for. A failure leaves what was made.
-/

namespace Terrakernel.Tmpfs

open Memory Vmm Links Heap Option

/-- The whole state but the free memory is the same. -/
structure Untouched (fs fs' : Fs) : Prop extends Unchanged fs fs' where
  root : fs'.root = fs.root
  cwd : fs'.cwd = fs.cwd

theorem Untouched.refl (fs : Fs) : Untouched fs fs := ⟨.refl fs, rfl, rfl⟩

theorem InTree.congr {fs fs' : Fs} (hroot : fs'.root = fs.root)
    (hfirst : ∀ m, (fs'.nodes m).firstChild = (fs.nodes m).firstChild)
    (hnext : ∀ m, (fs'.nodes m).nextSibling = (fs.nodes m).nextSibling) {n : Nat}
    (h : InTree fs n) : InTree fs' n := by
  induction h with
  | root => exact hroot ▸ .root
  | child _ hchain hc ih =>
    refine .child ih ?_ hc
    rw [hfirst]
    exact hchain.congr fun x _ => hnext x

theorem Untouched.inTree {fs fs' : Fs} (h : Untouched fs fs') {n : Nat} (hn : InTree fs' n) :
    InTree fs n :=
  hn.congr h.root.symm (fun _ => by rw [h.nodes]) fun _ => by rw [h.nodes]

section Create

variable {foreign : List Nat} {fs : Fs} {bs : List Blk} {live : List Nat} {kids : Kids}
  (h : Sane foreign fs bs live kids)

include h

theorem createLoop_first {curr : Nat} (hcurr : Reached fs.root kids curr) {ts : Names}
    (hno : resolveLoop fs.nodes curr ts = some 0) (isDir : Bool) (mode : Nat) :
    ∃ n fs', createLoop isDir mode fs curr ts = some (n, fs') ∧
      (n = 0 ∧ ¬ Room nodeSize bs ∧ Untouched fs fs' ∨
        Room nodeSize bs ∧ ∃ c, InTree fs' c ∧ ¬ InTree fs c) := by
  induction ts generalizing curr with
  | nil => exact absurd (some.inj hno) (h.linked.ne_zero (h.linked.reached_mem hcurr))
  | cons t ts ih =>
    rw [resolveLoop_cons] at hno
    rw [createLoop_cons]
    by_cases h1 : t = dot
    · rw [if_pos h1] at hno ⊢
      exact ih hcurr hno
    by_cases h2 : t = dotdot
    · rw [if_neg h1, if_pos h2] at hno ⊢
      exact ih (up_reached h.linked hcurr) hno
    rw [if_neg h1, if_neg h2] at hno ⊢
    obtain ⟨c, hfind, hc⟩ := findChild_cases h.linked hcurr t
    rw [hfind] at hno ⊢
    simp only [bind_some] at hno ⊢
    rcases hc with rfl | ⟨h0, hc⟩
    · rw [if_neg (by simp)]
      have hmem := h.linked.reached_mem hcurr
      obtain ⟨c, fs1, hadd, hcases⟩ := h.addChild_cases hmem t
        (if ts.isEmpty then isDir else true) (if ts.isEmpty then mode else 0o755)
      rw [hadd, bind_some]
      rcases hcases with ⟨rfl, hframe, -, hk, -, hfull⟩ |
        ⟨hc0, hcnot, -, hnew, bs1, hs, hgrown, hblock, -⟩
      · refine ⟨0, fs1, by rw [if_pos rfl], .inl ⟨rfl, hfull, ?_⟩⟩
        rw [hframe]
        exact ⟨unchanged_of_keeps h.owns.sound hk, rfl, rfl⟩
      · rw [if_neg hc0]
        have hroot1 : fs1.root = fs.root := by rw [hgrown.frame]
        have hreach : Reached fs1.root (grown kids curr c) c := by
          rw [hroot1]
          refine .child (hcurr.mono fun m hm d hd => mem_grown ?_ hd) (mem_grown_self _ _ _)
          rintro rfl
          exact hcnot (h.linked.reached_mem hm)
        obtain ⟨n, fs2, bs2, live2, kids2, hrun, hs2, hb, -⟩ :=
          createLoop_built (G := fun _ _ _ => True) (R := Rules.none)
            (fun _ _ _ _ _ _ _ _ => trivial) hs hreach
            (makesIn_of_forall isDir mode (fun _ _ _ _ _ => trivial) fs1 c)
        refine ⟨n, fs2, hrun, .inr ⟨h.addChild_room hadd hc0, c, ?_, ?_⟩⟩
        · exact (hs2.linked.inTree_iff c).mpr (hb.reached hs.linked hreach)
        · exact fun hin => hcnot (h.linked.reached_mem ((h.linked.inTree_iff c).mp hin))
    · rw [if_neg h0] at hno
      rw [if_pos h0]
      exact ih hc hno

end Create

theorem openNode_fails {fs fs' : Fs} {n : Nat} {flags : BitVec 32} {mode : Nat} {r : Int}
    (hopen : openNode fs n flags mode = (r, fs')) (hr : r < 0) : fs' = fs := by
  by_cases hn : n = 0
  · unfold openNode at hopen
    rw [if_pos hn] at hopen
    exact (Prod.mk.inj hopen).2.symm
  · rcases openNode_outcome hn flags mode with ⟨-, hfail⟩ | ⟨i, -, hok⟩
    · rw [hfail] at hopen
      exact (Prod.mk.inj hopen).2.symm
    · rw [hok] at hopen
      have := (Prod.mk.inj hopen).1
      omega

section Open

variable {foreign : List Nat} {fs fs' : Fs} {bs : List Blk} {live : List Nat}
  {kids : Kids} (h : Held foreign fs bs live kids) {path : Path} {flags : BitVec 32}
  {mode : Nat} {devpath : Path} {r : Int}

include h

theorem openFrom_made {base : Nat} (hbase : Reached fs.root kids base) (hpath : path ≠ none)
    (hno : resolvePathInternal fs base path = some 0)
    (hrun : ((createAtPathInternal fs base path false mode).bind fun r =>
      if r.1 = 0 then some (-2, r.2)
      else (makeDevice r.2 r.1 flags devpath).map fun fs => openNode fs r.1 flags mode) =
        some (r, fs')) (hr : r < 0) :
    ¬ Room nodeSize bs ∧ Untouched fs fs' ∨
      Room nodeSize bs ∧ ∃ c, InTree fs' c ∧ ¬ InTree fs c := by
  obtain ⟨p, rfl⟩ := ne_none_iff_exists'.mp hpath
  have hbase0 := h.linked.ne_zero (h.linked.reached_mem hbase)
  have hstart := startOf_reached hbase p
  rw [resolvePathInternal_some hbase0] at hno
  have hp : p ≠ [] := by
    rintro rfl
    exact h.linked.ne_zero (h.linked.reached_mem hstart) (some.inj hno)
  obtain ⟨n, fs1, hmake, hcases⟩ := createLoop_first h.sane hstart hno false mode
  have hcreate : createAtPathInternal fs base (some p) false mode = some (n, fs1) := by
    rw [createAtPathInternal_some hbase0 hp, hmake]
  rw [hcreate, bind_some] at hrun
  rcases hcases with ⟨rfl, hfull, hsame⟩ | ⟨hroom, c, hin, hnot⟩
  · rw [if_pos rfl] at hrun
    cases hrun
    exact .inl ⟨hfull, hsame⟩
  · refine .inr ⟨hroom, c, ?_, hnot⟩
    by_cases hn : n = 0
    · rw [if_pos hn] at hrun
      cases hrun
      exact hin
    · rw [if_neg hn] at hrun
      obtain ⟨fs2, hdev, hopen⟩ := map_eq_some_iff.mp hrun
      obtain ⟨b, d, rfl⟩ := makeDevice_cases hdev
      rw [openNode_fails hopen hr]
      refine InTree.congr ?_ (fun m => ?_) (fun m => ?_) hin
      · rfl
      all_goals
        rw [setNode_nodes]
        split_ifs <;> rfl

/-- When `open` that fails leaves everything as it was. -/
theorem open_atomic_iff (hrun : Tmpfs.open fs path flags mode devpath = some (r, fs'))
    (hr : r < 0) :
    Untouched fs fs' ↔ ¬ (path ≠ none ∧ resolvePath fs path = some 0 ∧ flags &&& oCreat ≠ 0 ∧
      Room nodeSize bs) := by
  rw [open_eq] at hrun
  unfold openFrom at hrun
  by_cases hpath : path = none
  · rw [if_pos hpath] at hrun
    cases hrun
    exact iff_of_true (.refl fs) fun hmade => hmade.1 hpath
  rw [if_neg hpath] at hrun
  obtain ⟨n, hres, -⟩ := resolvePathInternal_cases h.sane h.cwd path
  rw [hres, bind_some] at hrun
  by_cases hmake : n = 0 ∧ flags &&& oCreat ≠ 0
  · rw [if_pos hmake] at hrun
    rw [hmake.1] at hres
    rcases openFrom_made h h.cwd hpath hres hrun hr with ⟨hfull, hsame⟩ | ⟨hroom, c, hin, hnot⟩
    · exact iff_of_true hsame fun hmade => hfull hmade.2.2.2
    · refine iff_of_false (fun hsame => hnot (hsame.inTree hin)) (not_not.mpr ?_)
      exact ⟨hpath, hres, hmake.2, hroom⟩
  · rw [if_neg hmake] at hrun
    rw [openNode_fails (some.inj hrun) hr]
    refine iff_of_true (.refl fs) fun hmade => hmake ⟨?_, hmade.2.2.1⟩
    exact some.inj (hres.symm.trans hmade.2.1)

end Open

theorem open_atomic_iff_missing :
    ∃ fs fs', initialise blank = some fs ∧
      Tmpfs.open fs slashF 0 0o644 none = some (-3, fs') ∧ Untouched fs fs' := by
  obtain ⟨fs, bs, hinit, -, h, hcwd, -⟩ := blank_started
  have hroot := h.ne_zero .root
  have hno : resolvePath fs slashF = some 0 :=
    resolve_missing h.linked (by decide) (by decide) (by decide) (by simp) (hcwd ▸ hroot)
  have hrun : Tmpfs.open fs slashF 0 0o644 none = some (-3, fs) := by
    unfold Tmpfs.open
    rw [if_neg (by simp), hno]
    rfl
  exact ⟨fs, fs, hinit, hrun, (open_atomic_iff h hrun (by decide)).mpr fun hmade => hmade.2.2.1 rfl⟩

/-! ## A full table -/

theorem opens_until_full {foreign : List Nat} {fs : Fs} {bs : List Blk} {live : List Nat}
    {kids : Kids} (h : Held foreign fs bs live kids) :
    ∃ k fs', OpRun (fun _ _ => True) fs (List.replicate k (.open (some [slash]) 0 0 none)) fs' ∧
      Held foreign fs' bs live kids ∧ ∀ i, (fs'.fds i).free = false := by
  induction hn : (Finset.univ.filter fun i => (fs.fds i).free = true).card generalizing fs with
  | zero =>
    refine ⟨0, fs, .nil fs, h, fun i => ?_⟩
    simpa using Finset.filter_eq_empty_iff.mp (Finset.card_eq_zero.mp hn) (Finset.mem_univ i)
  | succ n ih =>
    have hroot := h.ne_zero .root
    have hres : resolvePath fs (some [slash]) = some fs.root := by
      rw [resolvePath_some (h.ne_zero h.cwd)]
      rfl
    rcases @openNode_outcome fs _ hroot 0 0 with ⟨hfull, -⟩ | ⟨i, hi, hopen⟩
    · rw [Finset.filter_false_of_mem (by simp [hfull])] at hn
      exact absurd hn (by simp)
    have hfree : (fs.fds i).free = true := by simpa using List.find?_some hi
    have hcall : Tmpfs.open fs (some [slash]) 0 0 none =
        some ((i : Int), opened fs i fs.root 0 0) := by
      unfold Tmpfs.open
      rw [if_neg (by simp), hres, bind_eq_bind, bind_some, if_neg (by simp), hopen]
    have h' := h.opened h.linked.root_mem (h.sane.table.free i hfree) 0 0
    have hless : (Finset.univ.filter fun j => ((opened fs i fs.root 0 0).fds j).free = true) =
        (Finset.univ.filter fun j => (fs.fds j).free = true).erase i := by
      ext j
      rw [opened_fds]
      by_cases hj : j = i
      · simp [hj]
      · simp [hj]
    obtain ⟨k, fs', hrun, hheld, hall⟩ := ih h' (by
      rw [hless, Finset.card_erase_of_mem (by simpa using hfree), hn, Nat.add_sub_cancel])
    exact ⟨k + 1, fs', .cons trivial hcall hrun, hheld, hall⟩

/-- Every entry is taken, and `open` makes a file for which it has none. -/
theorem open_full_makes :
    ∃ (fs1 fs2 fs3 : Fs) (k c : Nat), initialise blank = some fs1 ∧
      OpRun (fun _ _ => True) fs1 (List.replicate k (.open (some [slash]) 0 0 none)) fs2 ∧
      Tmpfs.open fs2 slashF oCreat 0o644 none = some (-4, fs3) ∧
      InTree fs3 c ∧ ¬ InTree fs2 c ∧ ¬ Untouched fs2 fs3 := by
  obtain ⟨fs1, bs, hinit, -, h, hcwd, -, -, hroom⟩ := blank_started
  obtain ⟨k, fs2, hrun, h2, hall⟩ := opens_until_full h
  have hno : resolvePath fs2 slashF = some 0 :=
    resolve_missing h2.linked (by decide) (by decide) (by decide) (by simp) (h2.ne_zero h2.cwd)
  have htok : tokens [slash, 0x66] = [] ++ [[0x66]] := by decide
  have hroot0 := h2.ne_zero .root
  obtain ⟨c, fs3, hadd, hcases⟩ := h2.sane.addChild_cases h2.linked.root_mem [0x66] false 0o644
  rcases hcases with ⟨-, -, -, -, -, hfull⟩ | ⟨hc0, hcnot, -, -, bs3, h3, hgrown, -⟩
  · exact absurd (hroom.mono (by decide)) hfull
  have hcreate : createAtPath fs2 slashF false 0o644 = some (c, fs3) := by
    rw [resolvePath_some (h2.ne_zero h2.cwd), htok] at hno
    rw [createAtPath, createAtPathInternal_some (h2.ne_zero h2.cwd) (by simp), htok,
      createLoop_one false 0o644 rfl hroot0 hno, ← hadd]
  have hfds : fs3.fds = fs2.fds := by rw [hgrown.frame]
  have hopen : Tmpfs.open fs2 slashF oCreat 0o644 none = some (-4, fs3) := by
    rcases @openNode_outcome fs3 _ hc0 oCreat 0o644 with ⟨-, hfail⟩ | ⟨i, hi, -⟩
    · unfold Tmpfs.open
      rw [if_neg (by simp), hno, bind_eq_bind, bind_some, if_pos (by decide), hcreate,
        bind_eq_bind, bind_some]
      simp only [if_neg hc0]
      rw [← hfail]
      rfl
    · rw [hfds] at hi
      have := List.find?_some hi
      simp [hall] at this
  have hin : InTree fs3 c := by
    rw [h3.linked.inTree_iff]
    refine .child .root ?_
    rw [hgrown.frame, grown_curr]
    simp
  have hnot : ¬ InTree fs2 c := fun hin' =>
    hcnot (h2.linked.reached_mem ((h2.linked.inTree_iff c).mp hin'))
  exact ⟨fs1, fs2, fs3, k, c, hinit, hrun, hopen, hin, hnot, fun hsame => hnot (hsame.inTree hin)⟩

end Terrakernel.Tmpfs
