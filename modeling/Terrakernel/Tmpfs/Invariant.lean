import Terrakernel.Tmpfs.Shape
import Terrakernel.Tmpfs.Tree

/-!
# What holds between two calls

Each live node owns its block and that of its bytes, the links form a tree, and a descriptor points
to a live node.
-/

namespace Terrakernel.Tmpfs

open Memory Vmm Links Heap List Option

variable {p n m curr c mode d : Nat} {l gone : List Nat} {nodes nodes' : Nat → Node}
  {bs bs2 bs1 : List Blk} {fs fs' fs2 fs1 : Fs} {kids : Kids} {t token : Bytes}
  {ts : Names}

/-- The blocks of the bytes of the nodes. -/
def contents (nodes : Nat → Node) (live : List Nat) : List Nat :=
  (live.map fun n => (nodes n).content).filter (· ≠ 0)

/-- The blocks in use are those of the nodes, those of their bytes, and `foreign` ones. -/
structure Owns (foreign : List Nat) (heap : Heap) (nodes : Nat → Node) (bs : List Blk)
    (live : List Nat) : Prop where
  sound : Sound heap bs
  high : directBase ≤ heap.heapBase
  used : (used bs).Perm (foreign ++ (live ++ contents nodes live))

structure Table (fds : Fin 256 → Filedesc) (live : List Nat) : Prop where
  node : ∀ i, (fds i).node ≠ 0 → (fds i).node ∈ live
  free : ∀ i, (fds i).free = true → (fds i).node = 0
  offset : ∀ i, (fds i).node ≠ 0 → (fds i).offset.toNat < 2 ^ 63

structure Sane (foreign : List Nat) (fs : Fs) (bs : List Blk) (live : List Nat)
    (kids : Kids) : Prop where
  owns : Owns foreign fs.heap fs.nodes bs live
  linked : Linked fs.nodes fs.root live kids
  table : Table fs.fds live

/-- The same, where nobody has left the root. -/
structure Inv (foreign : List Nat) (fs : Fs) (bs : List Blk) (live : List Nat)
    (kids : Kids) : Prop extends Sane foreign fs bs live kids where
  cwd : fs.cwd = fs.root

/-! ## Blocks -/

theorem filter_ne_perm {r : List Nat} (hl : l.Nodup) (h : l.Perm (p :: r)) :
    (l.filter (· ≠ p)).Perm r := by
  have hp : p ∉ r := (nodup_cons.mp (h.nodup_iff.mp hl)).1
  refine (h.filter _).trans ?_
  rw [filter_cons_of_neg (by simp), filter_eq_self.mpr]
  intro x hx
  have : x ≠ p := by
    rintro rfl
    exact hp hx
  simpa using this

theorem contents_cons (nodes : Nat → Node) (n : Nat) (live : List Nat) :
    contents nodes (n :: live) =
      (if (nodes n).content = 0 then [] else [(nodes n).content]) ++ contents nodes live := by
  unfold contents
  rw [map_cons, filter_cons]
  split_ifs with h1 h2 h2
  · simp [h2] at h1
  · rfl
  · rfl
  · simp [h2] at h1

theorem contents_congr {live : List Nat} (h : ∀ n ∈ live, (nodes' n).content = (nodes n).content) :
    contents nodes' live = contents nodes live := by
  unfold contents
  rw [map_congr_left h]

theorem contents_without {live : List Nat}
    (h : ∀ m ∈ live, m ≠ n → (nodes' m).content = (nodes m).content) :
    contents nodes' (live.filter (· ≠ n)) = contents nodes (live.filter (· ≠ n)) := by
  apply contents_congr
  intro m hm
  obtain ⟨hm, hne⟩ := mem_filter.mp hm
  exact h m hm (by simpa using hne)

theorem contents_perm (nodes : Nat → Node) {l' : List Nat} (h : l.Perm l') :
    (contents nodes l).Perm (contents nodes l') := (h.map _).filter _

section Owns

variable {foreign : List Nat} {heap heap' : Heap} {nodes nodes' : Nat → Node} {bs bs' : List Blk}
  {live : List Nat} (h : Owns foreign heap nodes bs live)

include h

theorem Owns.nodup : (foreign ++ (live ++ contents nodes live)).Nodup :=
  h.used.nodup_iff.mp h.sound.rep.fits.used_nodup

theorem Owns.live_nodup : live.Nodup := by
  have := h.nodup
  rw [nodup_append, nodup_append] at this
  exact this.2.1.1

theorem Owns.mem_used (hn : n ∈ live) : n ∈ Heap.used bs :=
  h.used.mem_iff.mpr (by simp [hn])

theorem Owns.mem_used_content (hn : n ∈ live) (h0 : (nodes n).content ≠ 0) :
    (nodes n).content ∈ Heap.used bs := by
  apply h.used.mem_iff.mpr
  simp only [mem_append, contents, mem_filter, List.mem_map, decide_eq_true_eq]
  exact .inr (Or.inr ⟨⟨n, hn, rfl⟩, h0⟩)

theorem Owns.nonnull : 0 ∉ live := fun h0 => used_pos (h.mem_used h0) rfl

theorem Owns.short : live.length < word := by
  have h1 : (Heap.used bs).length ≤ bs.length := by
    unfold Heap.used
    rw [length_map]
    exact length_filter_le _ _
  have h2 := h.used.length_eq
  rw [length_append, length_append] at h2
  have := h.sound.rep.length_lt
  omega

theorem Owns.congr (hc : ∀ n ∈ live, (nodes' n).content = (nodes n).content) :
    Owns foreign heap nodes' bs live :=
  ⟨h.sound, h.high, by rw [contents_congr hc]; exact h.used⟩

theorem Owns.keeps (hk : Keeps gone heap bs heap' bs')
    (hused : (Heap.used bs').Perm (Heap.used bs)) : Owns foreign heap' nodes bs' live :=
  ⟨hk.sound, hk.heapBase ▸ h.high, hused.trans h.used⟩

theorem Owns.born (hk : Keeps gone heap bs heap' bs') (hused : (Heap.used bs').Perm
      (p :: ((if (nodes' p).content = 0 then [] else [(nodes' p).content]) ++ Heap.used bs)))
    (hc : ∀ n ∈ live, (nodes' n).content = (nodes n).content) :
    Owns foreign heap' nodes' bs' (p :: live) := by
  refine ⟨hk.sound, hk.heapBase ▸ h.high, ?_⟩
  rw [contents_cons, contents_congr hc]
  generalize (if (nodes' p).content = 0 then [] else [(nodes' p).content]) = q at hused ⊢
  refine hused.trans (((h.used.append_left q).cons p).trans ?_)
  rw [cons_append]
  refine Perm.trans (Perm.cons p ?_) perm_middle.symm
  rw [← append_assoc, ← append_assoc, ← append_assoc, ← append_assoc]
  refine Perm.append_right _ ?_
  rw [append_assoc]
  exact perm_append_comm

theorem Owns.split (hn : n ∈ live) : live.Perm (n :: live.filter (· ≠ n)) :=
  perm_filter_ne h.live_nodup hn

theorem Owns.used_split (hn : n ∈ live) :
    (Heap.used bs).Perm (foreign ++ (live ++
      ((if (nodes n).content = 0 then [] else [(nodes n).content]) ++
        contents nodes (live.filter (· ≠ n))))) := by
  refine h.used.trans (Perm.append_left _ (Perm.append_left _ ?_))
  rw [← contents_cons]
  exact contents_perm nodes (h.split hn)

theorem Owns.used_without (hn : n ∈ live) :
    ((Heap.used bs).filter (· ≠ (nodes n).content)).Perm
      (foreign ++ (live ++ contents nodes (live.filter (· ≠ n)))) := by
  have hold := h.used_split hn
  by_cases h0 : (nodes n).content = 0
  · rw [if_pos h0, nil_append] at hold
    rw [h0, filter_eq_self.mpr]
    · exact hold
    · intro x hx
      simpa using used_pos hx
  · rw [if_neg h0] at hold
    apply filter_ne_perm h.sound.rep.fits.used_nodup
    refine hold.trans ?_
    rw [singleton_append, ← append_assoc, ← append_assoc]
    exact perm_middle

theorem Owns.move {q : Nat} (hn : n ∈ live) (hq : q ≠ 0) (hs : Sound heap' bs')
    (hb : heap'.heapBase = heap.heapBase)
    (hused : (Heap.used bs').Perm (q :: (Heap.used bs).filter (· ≠ (nodes n).content)))
    (hnew : (nodes' n).content = q)
    (hc : ∀ m ∈ live, m ≠ n → (nodes' m).content = (nodes m).content) :
    Owns foreign heap' nodes' bs' live := by
  have hnow : (contents nodes' live).Perm (q :: contents nodes (live.filter (· ≠ n))) := by
    refine (contents_perm nodes' (h.split hn)).trans ?_
    rw [contents_cons, hnew, if_neg hq, contents_without hc]
    rfl
  refine ⟨hs, hb ▸ h.high, hused.trans (((h.used_without hn).cons q).trans ?_)⟩
  refine Perm.trans ?_ (Perm.append_left _ (Perm.append_left _ hnow.symm))
  rw [← append_assoc, ← append_assoc]
  exact perm_middle.symm

theorem Owns.release {n : Nat} (hn : n ∈ live) (hs : Sound heap' bs')
    (hb : heap'.heapBase = heap.heapBase)
    (hused : Heap.used bs' = ((Heap.used bs).filter (· ≠ (nodes n).content)).filter (· ≠ n)) :
    Owns foreign heap' nodes bs' (live.filter (· ≠ n)) := by
  refine ⟨hs, hb ▸ h.high, ?_⟩
  rw [hused]
  refine filter_ne_perm (h.sound.rep.fits.used_nodup.filter _) ((h.used_without hn).trans ?_)
  refine (Perm.append_left _ ((h.split hn).append_right _)).trans ?_
  exact perm_middle

theorem Owns.content_ne (hm : m ∈ live) (hn : n ∈ live) (hne : m ≠ n) (h0 : (nodes m).content ≠ 0) :
    (nodes m).content ≠ (nodes n).content := by
  intro heq
  have hnodup := (h.used_split hn).nodup_iff.mp h.sound.rep.fits.used_nodup
  rw [if_neg (heq ▸ h0), nodup_append, nodup_append, singleton_append,
    nodup_cons] at hnodup
  apply hnodup.2.1.2.1.1
  simp only [contents, mem_filter, List.mem_map, decide_eq_true_eq]
  exact ⟨⟨m, ⟨hm, by simpa using hne⟩, heq⟩, heq ▸ h0⟩

end Owns

/-! ## Walks -/

theorem resolvePathInternal_some {base : Nat} (hbase : base ≠ 0) (p : Bytes) :
    resolvePathInternal fs base (some p) =
      resolveLoop fs.nodes (startOf fs base p) (tokens p) := by
  unfold resolvePathInternal
  simp [hbase]

theorem resolvePath_some {fs : Fs} (hcwd : fs.cwd ≠ 0) (p : Bytes) :
    resolvePath fs (some p) = resolveLoop fs.nodes (startOf fs fs.cwd p) (tokens p) := by
  unfold resolvePath
  rw [resolvePathInternal_some hcwd]

theorem createAtPathInternal_some {fs : Fs} {base : Nat} {p : Bytes} (hbase : base ≠ 0)
    (hp : p ≠ []) (isDir : Bool) (mode : Nat) :
    createAtPathInternal fs base (some p) isDir mode =
      createLoop isDir mode fs (startOf fs base p) (tokens p) := by
  unfold createAtPathInternal
  simp [hbase, hp]

theorem up_congr (h : (nodes' n).parent = (nodes n).parent) : up nodes' n = up nodes n := by
  unfold up
  rw [h]

section Resolve

variable {nodes : Nat → Node} {root : Nat} {live : List Nat} {kids : Kids}
  (h : Linked nodes root live kids)

include h

theorem up_reached (hn : Reached root kids n) : Reached root kids (up nodes n) := by
  unfold up
  split_ifs with hp
  · cases hn with
    | root => exact absurd h.top hp
    | child hm hc =>
      rw [(h.child _ (h.reached_mem hm) _ hc).2]
      exact hm
  · exact hn

theorem findChild_cases (hm : Reached root kids m) (token : Bytes) :
    ∃ c, findChild nodes token (nodes m).firstChild = some c ∧
      (c = 0 ∨ (c ≠ 0 ∧ Reached root kids c)) := by
  refine ⟨_, findChild_spec h (h.reached_mem hm) token, ?_⟩
  cases hfind : (kids m).find? fun c => (nodes c).name = token with
  | none => exact .inl rfl
  | some c =>
    have hc := Reached.child hm (mem_of_find?_eq_some hfind)
    exact .inr ⟨h.ne_zero (h.reached_mem hc), hc⟩

theorem resolveLoop_spec (hcurr : Reached root kids curr) (ts : Names) :
    ∃ n, resolveLoop nodes curr ts = some n ∧ (n = 0 ∨ Reached root kids n) := by
  induction ts generalizing curr with
  | nil => exact ⟨curr, rfl, .inr hcurr⟩
  | cons t ts ih =>
    unfold resolveLoop
    split_ifs
    · exact ih hcurr
    · exact ih (up_reached h hcurr)
    · obtain ⟨c, hfind, hc⟩ := findChild_cases h hcurr t
      rw [hfind]
      simp only [bind_eq_bind, bind_some]
      rcases hc with rfl | ⟨h0, hc⟩
      · exact ⟨0, by rw [if_pos rfl], .inl rfl⟩
      · rw [if_neg h0]
        exact ih hc

end Resolve

theorem resolveLoop_cons (nodes : Nat → Node) (curr : Nat) (t : Bytes)
    (ts : Names) :
    resolveLoop nodes curr (t :: ts) =
      if t = dot then resolveLoop nodes curr ts
      else if t = dotdot then resolveLoop nodes (up nodes curr) ts
      else (findChild nodes t (nodes curr).firstChild).bind fun child =>
        if child = 0 then some 0 else resolveLoop nodes child ts := rfl

theorem resolveLoop_found {root : Nat} {live : List Nat} (h : Linked nodes root live kids)
    (hm : m ∈ live) (h1 : t ≠ dot) (h2 : t ≠ dotdot)
    (hfind : (kids m).find? (fun c => (nodes c).name = t) = some c) (ts : Names) :
    resolveLoop nodes m (t :: ts) = resolveLoop nodes c ts := by
  have hc0 := h.ne_zero (h.child m hm c (mem_of_find?_eq_some hfind)).1
  rw [resolveLoop_cons, if_neg h1, if_neg h2, findChild_spec h hm, hfind, getD_some,
    bind_some, if_neg hc0]

theorem resolveLoop_missing {root : Nat} {live : List Nat} (h : Linked nodes root live kids)
    (hm : m ∈ live) (h1 : t ≠ dot) (h2 : t ≠ dotdot) (hno : ∀ c ∈ kids m, (nodes c).name ≠ t)
    (ts : Names) : resolveLoop nodes m (t :: ts) = some 0 := by
  have hfind : (kids m).find? (fun c => (nodes c).name = t) = none := by
    rw [find?_eq_none]
    exact fun c hc => by simpa using hno c hc
  rw [resolveLoop_cons, if_neg h1, if_neg h2, findChild_spec h hm, hfind, getD_none,
    bind_some, if_pos rfl]

theorem createLoop_cons (isDir : Bool) (mode : Nat) (fs : Fs) (curr : Nat) (t : Bytes)
    (ts : Names) :
    createLoop isDir mode fs curr (t :: ts) =
      if t = dot then createLoop isDir mode fs curr ts
      else if t = dotdot then createLoop isDir mode fs (up fs.nodes curr) ts
      else (findChild fs.nodes t (fs.nodes curr).firstChild).bind fun child =>
        if child ≠ 0 then createLoop isDir mode fs child ts
        else (addChild fs curr t (if ts.isEmpty then isDir else true)
          (if ts.isEmpty then mode else 0o755)).bind fun r =>
            if r.1 = 0 then some (0, r.2) else createLoop isDir mode r.2 r.1 ts := rfl

theorem createLoop_missing {root : Nat} {live : List Nat} (h : Linked fs.nodes root live kids)
    (hm : m ∈ live) (h1 : t ≠ dot) (h2 : t ≠ dotdot) (hno : ∀ c ∈ kids m, (fs.nodes c).name ≠ t)
    (isDir : Bool) (mode : Nat) (ts : Names) :
    createLoop isDir mode fs m (t :: ts) = (addChild fs m t (if ts.isEmpty then isDir else true)
      (if ts.isEmpty then mode else 0o755)).bind fun r =>
        if r.1 = 0 then some (0, r.2) else createLoop isDir mode r.2 r.1 ts := by
  have hfind : (kids m).find? (fun c => (fs.nodes c).name = t) = none := by
    rw [find?_eq_none]
    exact fun c hc => by simpa using hno c hc
  rw [createLoop_cons, if_neg h1, if_neg h2, findChild_spec h hm, hfind, getD_none,
    bind_some, if_neg (by simp)]

theorem resolveLoop_append (us : Names) (h : resolveLoop nodes curr ts = some d)
    (hd : d ≠ 0) : resolveLoop nodes curr (ts ++ us) = resolveLoop nodes d us := by
  induction ts generalizing curr with
  | nil =>
    obtain rfl : curr = d := by simpa [resolveLoop] using h
    rfl
  | cons t ts ih =>
    rw [cons_append, resolveLoop_cons]
    rw [resolveLoop_cons] at h
    split_ifs at h ⊢
    · exact ih h
    · exact ih h
    · cases hf : findChild nodes t (nodes curr).firstChild with
      | none => simp [hf] at h
      | some c =>
        simp only [hf, bind_some] at h ⊢
        split_ifs at h ⊢ with h0
        · exact absurd (some.inj h).symm hd
        · exact ih h

theorem resolveLoop_append_missing (us : Names) (hcurr : curr ≠ 0)
    (h : resolveLoop nodes curr ts = some 0) : resolveLoop nodes curr (ts ++ us) = some 0 := by
  induction ts generalizing curr with
  | nil => exact absurd (some.inj h) hcurr
  | cons t ts ih =>
    rw [cons_append, resolveLoop_cons]
    rw [resolveLoop_cons] at h
    split_ifs at h ⊢
    · exact ih hcurr h
    · exact ih (by unfold up; split_ifs <;> assumption) h
    · cases hf : findChild nodes t (nodes curr).firstChild with
      | none => simp [hf] at h
      | some c =>
        simp only [hf, bind_some] at h ⊢
        split_ifs at h ⊢ with h0
        · rfl
        · exact ih h0 h

theorem createLoop_append (isDir : Bool) (mode : Nat) (us : Names)
    (h : resolveLoop fs.nodes curr ts = some d) (hd : d ≠ 0) :
    createLoop isDir mode fs curr (ts ++ us) = createLoop isDir mode fs d us := by
  induction ts generalizing curr with
  | nil =>
    obtain rfl : curr = d := by simpa [resolveLoop] using h
    rfl
  | cons t ts ih =>
    rw [cons_append, createLoop_cons]
    rw [resolveLoop_cons] at h
    by_cases h1 : t = dot
    · rw [if_pos h1] at h ⊢
      exact ih h
    by_cases h2 : t = dotdot
    · rw [if_neg h1, if_pos h2] at h ⊢
      exact ih h
    rw [if_neg h1, if_neg h2] at h ⊢
    cases hf : findChild fs.nodes t (fs.nodes curr).firstChild with
    | none => simp [hf] at h
    | some c =>
      simp only [hf, bind_some] at h ⊢
      by_cases h0 : c = 0
      · rw [if_pos h0] at h
        exact absurd (some.inj h).symm hd
      · rw [if_neg h0] at h
        rw [if_pos h0]
        exact ih h

theorem createLoop_one (isDir : Bool) (mode : Nat) (h : resolveLoop fs.nodes curr ts = some d)
    (hd : d ≠ 0) (hno : resolveLoop fs.nodes curr (ts ++ [t]) = some 0) :
    createLoop isDir mode fs curr (ts ++ [t]) = addChild fs d t isDir mode := by
  rw [resolveLoop_append [t] h hd] at hno
  rw [createLoop_append isDir mode [t] h hd, createLoop_cons]
  rw [resolveLoop_cons] at hno
  have hup : up fs.nodes d ≠ 0 := by
    unfold up
    split_ifs with hp
    · exact hp
    · exact hd
  by_cases h1 : t = dot
  · rw [if_pos h1] at hno
    exact absurd (some.inj hno) hd
  by_cases h2 : t = dotdot
  · rw [if_neg h1, if_pos h2] at hno
    exact absurd (some.inj hno) hup
  rw [if_neg h1, if_neg h2] at hno ⊢
  cases hf : findChild fs.nodes t (fs.nodes d).firstChild with
  | none => simp [hf] at hno
  | some c =>
    have h0 : c = 0 := by
      by_contra h0
      simp [hf, h0, resolveLoop] at hno
    simp only [h0, bind_some, isEmpty_nil, if_true]
    rw [if_neg (by simp)]
    cases addChild fs d t isDir mode with
    | none => rfl
    | some r =>
      simp only [bind_some, createLoop]
      split_ifs with hc
      · rw [← hc]
      · rfl

/-! ## New nodes -/

/-- What the creation of nodes leaves alone. -/
structure Extends (fs : Fs) (bs : List Blk) (live : List Nat) (fs' : Fs) (bs' : List Blk)
    (live' : List Nat) : Prop where
  frame : fs' = { fs with heap := fs'.heap, nodes := fs'.nodes }
  keeps : Keeps [] fs.heap bs fs'.heap bs'
  old : ∀ m ∈ live, m ∈ live' ∧ (fs'.nodes m).data = (fs.nodes m).data

/-- The new nodes have no bytes. -/
structure Grown (fs : Fs) (bs : List Blk) (live : List Nat) (fs' : Fs) (bs' : List Blk)
    (live' : List Nat) : Prop extends Extends fs bs live fs' bs' live' where
  fresh : ∀ m ∈ live', m ∉ live → (fs'.nodes m).content = 0 ∧ (fs'.nodes m).size = 0

theorem Extends.refl (hs : Sound fs.heap bs) (live : List Nat) : Extends fs bs live fs bs live :=
  ⟨rfl, .refl hs, fun _ hm => ⟨hm, rfl⟩⟩

theorem Extends.trans {live live1 live2 : List Nat} (h1 : Extends fs bs live fs1 bs1 live1)
    (h2 : Extends fs1 bs1 live1 fs2 bs2 live2) : Extends fs bs live fs2 bs2 live2 := by
  refine ⟨?_, h1.keeps.trans h2.keeps, ?_⟩
  · rw [h2.frame, h1.frame]
  · intro m hm
    obtain ⟨hm1, hd1⟩ := h1.old m hm
    obtain ⟨hm2, hd2⟩ := h2.old m hm1
    exact ⟨hm2, hd2.trans hd1⟩

theorem Grown.refl (hs : Sound fs.heap bs) (live : List Nat) : Grown fs bs live fs bs live :=
  ⟨.refl hs live, fun _ hm hn => absurd hm hn⟩

theorem Grown.trans {live live1 live2 : List Nat} (h1 : Grown fs bs live fs1 bs1 live1)
    (h2 : Grown fs1 bs1 live1 fs2 bs2 live2) : Grown fs bs live fs2 bs2 live2 := by
  refine ⟨h1.toExtends.trans h2.toExtends, ?_⟩
  intro m hm hn
  by_cases hm1 : m ∈ live1
  · obtain ⟨hc, hz⟩ := h1.fresh m hm1 hn
    have hdata := (h2.old m hm1).2
    exact ⟨(congrArg Node.content hdata).trans hc, (congrArg Node.size hdata).trans hz⟩
  · exact h2.fresh m hm hm1

/-- The tree that the nodes make. -/
def shape (fs : Fs) (live : List Nat) (kids : Kids) : Shape where
  root := fs.root
  cwd := fs.cwd
  live := live
  kids := kids
  name := fun n => (fs.nodes n).name
  isDir := fun n => (fs.nodes n).isDir

section Add

variable {foreign : List Nat} {fs : Fs} {bs : List Blk} {live : List Nat} {kids : Kids}
  (h : Sane foreign fs bs live kids)

include h

theorem Sane.attach {gone : List Nat} {heap : Heap} {bs' : List Blk} {curr c : Nat} {node : Node}
    (hcurr : curr ∈ live) (hc : c ∉ live) (hc0 : c ≠ 0) (hk : Keeps gone fs.heap bs heap bs')
    (hused : (used bs').Perm (c :: ((if node.content = 0 then [] else [node.content]) ++ used bs)))
    (hparent : node.parent = curr) (hfirst : node.firstChild = 0) (hnext : node.nextSibling = 0) :
    ∃ fs', appendChild ({ fs with heap }.setNode c fun _ => node) curr c = some fs' ∧
      fs' = { fs with heap, nodes := fs'.nodes } ∧ (fs'.nodes c).data = node.data ∧
      (∀ m, m ≠ c → (fs'.nodes m).data = (fs.nodes m).data) ∧
      Sane foreign fs' bs' (c :: live) (grown kids curr c) := by
  -- The new node is in no list yet.
  obtain ⟨fs1, hfs1⟩ : ∃ fs1, { fs with heap }.setNode c (fun _ => node) = fs1 := ⟨_, rfl⟩
  have hroot : fs1.root = fs.root := by rw [← hfs1]; rfl
  have hnode : fs1.nodes c = node := by rw [← hfs1, setNode_nodes, if_pos rfl]
  have hother : ∀ m, m ≠ c → fs1.nodes m = fs.nodes m := by
    intro m hm
    rw [← hfs1, setNode_nodes, if_neg hm]
  have hsame : ∀ m ∈ live, fs1.nodes m = fs.nodes m := by
    intro m hm
    refine hother m ?_
    rintro rfl
    exact hc hm
  have howns : Owns foreign heap fs1.nodes bs' (c :: live) :=
    h.owns.born hk (by rw [hnode]; exact hused) fun m hm => by rw [hsame m hm]
  have hlink1 : Linked fs1.nodes fs1.root (c :: live) (Function.update kids c []) := by
    rw [hroot]
    exact h.linked.born hc hc0 howns.short hsame (by rw [hnode]; exact hfirst)
  have hne : curr ≠ c := by
    rintro rfl
    exact hc hcurr
  have hkids : Function.update kids c [] curr = kids curr := Function.update_of_ne hne _ _
  obtain ⟨fs2, happ, hframe, hdata, hlink2⟩ := appendChild_spec hlink1
    (mem_cons_of_mem _ hcurr) mem_cons_self
    (fun hmem => hc (h.linked.child curr hcurr c (hkids ▸ hmem)).1)
    (by rw [hnode]; exact hparent) (by rw [hnode]; exact hnext)
  have hheap : fs2.heap = heap := by rw [hframe, ← hfs1]; rfl
  have hfds : fs2.fds = fs.fds := by rw [hframe, ← hfs1]; rfl
  have hroot2 : fs2.root = fs.root := by rw [hframe, ← hfs1]; rfl
  rw [hfs1]
  refine ⟨fs2, happ, ?_, by rw [hdata, hnode], fun m hm => by rw [hdata, hother m hm], ?_, ?_, ?_⟩
  · rw [hframe, ← hfs1]
    rfl
  · rw [hheap]
    exact howns.congr fun m _ => (congrArg Node.content (hdata m) :)
  · rw [hkids, hroot] at hlink2
    rw [hroot2]
    exact hlink2
  · rw [hfds]
    exact ⟨fun i hi => mem_cons_of_mem _ (h.table.node i hi), h.table.free, h.table.offset⟩

theorem Sane.addChild_cases (hcurr : curr ∈ live) (token : Bytes) (isDir : Bool) (mode : Nat) :
    ∃ c fs', addChild fs curr token isDir mode = some (c, fs') ∧
      ((c = 0 ∧ fs' = { fs with heap := fs'.heap } ∧ Sane foreign fs' bs live kids ∧
          Keeps [] fs.heap bs fs'.heap bs ∧ failures fs.heap < failures fs'.heap ∧
          ¬ Room nodeSize bs) ∨
        (c ≠ 0 ∧ c ∉ live ∧ failures fs'.heap = failures fs.heap ∧
          (fs'.nodes c).data = newNode token curr isDir mode ∧
          ∃ bs', Sane foreign fs' bs' (c :: live) (grown kids curr c) ∧
            Grown fs bs live fs' bs' (c :: live) ∧
            (∃ b ∈ bs', b.ptr = c ∧ b.free = false ∧ nodeSize ≤ b.len) ∧
            ∀ r, 0 < r → Room (nodeSize + headerSize + r) bs → Room r bs')) := by
  obtain ⟨c, heap, bs', hm, hk, hcases⟩ := malloc_cases h.owns.sound nodeSize
  unfold addChild
  rw [hm]
  simp only [bind_eq_bind, bind_some]
  rcases hcases with ⟨rfl, rfl, hfail, hroom⟩ | ⟨hc0, hfail, hused, hblock, hroom⟩
  · refine ⟨0, { fs with heap }, by rw [if_pos rfl], .inl ⟨rfl, rfl, ?_, hk, hfail, hroom⟩⟩
    exact ⟨h.owns.keeps hk (.refl _), h.linked, h.table⟩
  · rw [if_neg hc0]
    have hcnot : c ∉ live := by
      intro hc
      exact (nodup_cons.mp (hused.nodup_iff.mp hk.sound.rep.fits.used_nodup)).1
        (h.owns.mem_used hc)
    obtain ⟨fs2, happ, hframe, hnew, hold, hs⟩ :=
      @Sane.attach _ _ _ _ _ h _ heap bs' curr c (newNode token curr isDir mode) hcurr hcnot hc0 hk
        hused rfl rfl rfl
    have hheap : fs2.heap = heap := by rw [hframe]
    rw [happ]
    refine ⟨c, fs2, rfl,
      Or.inr ⟨hc0, hcnot, by rw [hheap, hfail], hnew, bs', hs, ?_, hblock, hroom⟩⟩
    refine ⟨⟨by rw [hframe], hheap ▸ hk, ?_⟩, ?_⟩
    · intro m hlive
      refine ⟨mem_cons_of_mem _ hlive, hold m ?_⟩
      rintro rfl
      exact hcnot hlive
    · intro m hm hn
      obtain rfl := (mem_cons.mp hm).resolve_right hn
      exact ⟨(congrArg Node.content hnew :), (congrArg Node.size hnew :)⟩

theorem Sane.addChild_frame {isDir : Bool} (hcurr : curr ∈ live)
    (hadd : addChild fs curr token isDir mode = some (c, fs')) (hc : c ∉ live) (hmc : m ≠ c)
    (hmcurr : m = curr → kids curr ≠ []) (hm : m ∉ kids curr) : fs'.nodes m = fs.nodes m := by
  unfold addChild at hadd
  obtain ⟨⟨c', heap⟩, -, hadd⟩ := bind_eq_some_iff.mp hadd
  dsimp only at hadd
  by_cases h0 : c' = 0
  · rw [if_pos h0] at hadd
    cases hadd
    rfl
  rw [if_neg h0] at hadd
  obtain ⟨fs2, happ, heq⟩ := bind_eq_some_iff.mp hadd
  cases heq
  obtain ⟨fs1, hfs1⟩ : ∃ fs1, { fs with heap }.setNode c
    (fun _ => newNode token curr isDir mode) = fs1 := ⟨_, rfl⟩
  have hother : ∀ k, k ≠ c → fs1.nodes k = fs.nodes k := by
    intro k hk
    rw [← hfs1, setNode_nodes, if_neg hk]
  rw [hfs1] at happ
  have hlink : Linked fs1.nodes fs.root live kids := h.linked.congr fun k hk => by
    rw [hother k (ne_of_mem_of_not_mem hk hc)]
    exact ⟨rfl, rfl, rfl⟩
  unfold appendChild at happ
  rw [← hother m hmc]
  rcases eq_nil_or_concat (kids curr) with hk | ⟨l, x, hk⟩
  · rw [if_pos ((hlink.chain curr hcurr).null_iff.mpr hk)] at happ
    cases happ
    rw [setNode_nodes, if_neg fun he => hmcurr he hk]
  · rw [concat_eq_append] at hk
    have hfirst : (fs1.nodes curr).firstChild ≠ 0 := by
      rw [Ne, (hlink.chain curr hcurr).null_iff, hk]
      simp
    rw [if_neg hfirst, lastSibling_spec hlink hcurr hk] at happ
    cases happ
    rw [setNode_nodes, if_neg]
    rintro rfl
    exact hm (by simp [hk])

theorem Sane.addChild_room {isDir : Bool} (hadd : addChild fs curr token isDir mode = some (c, fs'))
    (hc : c ≠ 0) : Room nodeSize bs := by
  unfold addChild at hadd
  obtain ⟨⟨c', heap⟩, hm, hadd⟩ := bind_eq_some_iff.mp hadd
  dsimp only at hadd
  refine malloc_room h.owns.sound hm fun h0 => ?_
  rw [if_pos h0] at hadd
  cases hadd
  exact hc rfl

end Add

end Terrakernel.Tmpfs
