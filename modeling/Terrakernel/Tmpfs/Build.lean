import Terrakernel.Tmpfs.Invariant

/-!
# Making paths

A walk that makes what is missing adds children to the tree, one after the other.
-/

namespace Terrakernel.Tmpfs

open Memory Vmm Links Heap List Option

variable {kids : Kids} {curr c n m mode : Nat} {token : Bytes} {ts : Names}

/-! ## Trees that grow -/

/-- Children were added at the ends of the lists, by the rules `R`. -/
structure Built (R : Rules) (fs : Fs) (bs : List Blk) (live : List Nat) (kids : Kids)
    (fs' : Fs) (bs' : List Blk) (live' : List Nat) (kids' : Kids) : Prop where
  ext : Extends fs bs live fs' bs' live'
  old : ∀ m ∈ live, ∃ l, kids' m = kids m ++ l ∧ ∀ c ∈ l, c ∉ live
  new : ∀ m ∈ live', m ∉ live → (fs'.nodes m).refcount = 1 ∧ ∀ c ∈ kids' m, c ∉ live
  sized : ∀ m ∈ live', m ∉ live → ∃ b ∈ bs', b.ptr = m ∧ b.free = false ∧ nodeSize ≤ b.len
  steps : Shape.Steps R (shape fs live kids) (shape fs' live' kids')

section Built

variable {R : Rules} {fs fs' fs'' : Fs} {bs bs' bs'' : List Blk} {live live' live'' : List Nat}
  {kids kids' kids'' : Kids}

theorem Built.refl (hs : Sound fs.heap bs) : Built R fs bs live kids fs bs live kids :=
  ⟨.refl hs live, fun m _ => ⟨[], by simp, by simp⟩, fun _ hm hn => absurd hm hn,
    fun _ hm hn => absurd hm hn, .refl⟩

theorem Built.trans (h1 : Built R fs bs live kids fs' bs' live' kids')
    (h2 : Built R fs' bs' live' kids' fs'' bs'' live'' kids'') :
    Built R fs bs live kids fs'' bs'' live'' kids'' := by
  have hsub : ∀ m, m ∉ live' → m ∉ live := fun m hm hl => hm (h1.ext.old m hl).1
  refine ⟨h1.ext.trans h2.ext, ?_, ?_, ?_, h1.steps.trans h2.steps⟩
  · intro m hm
    obtain ⟨l1, hk1, hl1⟩ := h1.old m hm
    obtain ⟨l2, hk2, hl2⟩ := h2.old m (h1.ext.old m hm).1
    refine ⟨l1 ++ l2, by rw [hk2, hk1, append_assoc], ?_⟩
    intro c hc
    rcases mem_append.mp hc with hc | hc
    · exact hl1 c hc
    · exact hsub c (hl2 c hc)
  · intro m hm hn
    by_cases hm1 : m ∈ live'
    · obtain ⟨href, hkids⟩ := h1.new m hm1 hn
      obtain ⟨l, hk, hl⟩ := h2.old m hm1
      have href2 : (fs''.nodes m).refcount = (fs'.nodes m).refcount :=
        (congrArg Node.refcount (h2.ext.old m hm1).2 :)
      refine ⟨href2.trans href, ?_⟩
      intro c hc
      rw [hk] at hc
      rcases mem_append.mp hc with hc | hc
      · exact hkids c hc
      · exact hsub c (hl c hc)
    · obtain ⟨href, hkids⟩ := h2.new m hm hm1
      exact ⟨href, fun c hc => hsub c (hkids c hc)⟩
  · intro m hm hn
    by_cases hm1 : m ∈ live'
    · obtain ⟨b, hb, hptr, hused, hlen⟩ := h1.sized m hm1 hn
      exact ⟨b, h2.ext.keeps.blocks b hb hused not_mem_nil, hptr, hused, hlen⟩
    · exact h2.sized m hm hm1

theorem Built.root (h : Built R fs bs live kids fs' bs' live' kids') : fs'.root = fs.root := by
  rw [h.ext.frame]

theorem built_of_heap (hframe : fs' = { fs with heap := fs'.heap })
    (hk : Keeps [] fs.heap bs fs'.heap bs) :
    Built R fs bs live kids fs' bs live kids ∧ Grown fs bs live fs' bs live := by
  have hnodes : fs'.nodes = fs.nodes := by rw [hframe]
  have hshape : shape fs' live kids = shape fs live kids := by rw [hframe]; rfl
  have hext : Extends fs bs live fs' bs live :=
    ⟨by rw [hframe], hk, fun m hm => ⟨hm, by rw [hnodes]⟩⟩
  refine ⟨⟨hext, fun m _ => ⟨[], by simp, by simp⟩, fun _ hm hn => absurd hm hn,
    fun _ hm hn => absurd hm hn, ?_⟩, hext, fun m hm hn => absurd hm hn⟩
  rw [hshape]

theorem built_of_add (hcurr : curr ∈ live) (hc : c ∉ live)
    (hname : (fs'.nodes c).name = token.take 127) (href : (fs'.nodes c).refcount = 1)
    (hext : Extends fs bs live fs' bs' (c :: live))
    (hblock : ∃ b ∈ bs', b.ptr = c ∧ b.free = false ∧ nodeSize ≤ b.len)
    (hrule : R.add (shape fs live kids) curr token) :
    Built R fs bs live kids fs' bs' (c :: live) (grown kids curr c) := by
  have hne : c ≠ curr := by
    rintro rfl
    exact hc hcurr
  refine ⟨hext, ?_, ?_, ?_, .single (.add hcurr hc hrule rfl rfl hname ⟨?_, ?_, ?_, ?_⟩)⟩
  · intro m hm
    by_cases hmc : m = curr
    · refine ⟨[c], by rw [hmc, grown_curr], ?_⟩
      intro d hd
      rw [mem_singleton.mp hd]
      exact hc
    · refine ⟨[], ?_, by simp⟩
      rw [append_nil]
      exact grown_of_ne hmc (by rintro rfl; exact hc hm)
  · intro m hm hn
    obtain rfl := (mem_cons.mp hm).resolve_right hn
    refine ⟨href, ?_⟩
    rw [grown_new hne]
    simp
  · intro m hm hn
    obtain rfl := (mem_cons.mp hm).resolve_right hn
    exact hblock
  · exact (congrArg Fs.root hext.frame :)
  · exact (congrArg Fs.cwd hext.frame :)
  · exact fun m hm => (congrArg Node.name (hext.old m hm).2 :)
  · exact fun m hm => (congrArg Node.isDir (hext.old m hm).2 :)

theorem Built.below_old (h : Built R fs bs live kids fs' bs' live' kids')
    (hl : Linked fs'.nodes fs'.root live' kids') (hm : m ∈ live') (hn : Reached m kids' n)
    (hold : n ∈ live) : m ∈ live ∧ Reached m kids n := by
  induction hn with
  | root => exact ⟨hold, .root⟩
  | @child p c hp hc ih =>
    by_cases hpold : p ∈ live
    · obtain ⟨l, hk, hnew⟩ := h.old p hpold
      rw [hk] at hc
      rcases mem_append.mp hc with hc | hc
      · exact ⟨(ih hpold).1, .child (ih hpold).2 hc⟩
      · exact absurd hold (hnew c hc)
    · exact absurd hold ((h.new p (hl.below_mem hm hp) hpold).2 c hc)

theorem Built.reached_old (h : Built R fs bs live kids fs' bs' live' kids')
    (hl : Linked fs'.nodes fs'.root live' kids') (hn : Reached fs'.root kids' n) (hold : n ∈ live) :
    Reached fs.root kids n := by
  rw [← h.root]
  exact (h.below_old hl hl.root_mem hn hold).2

theorem Built.reached (h : Built R fs bs live kids fs' bs' live' kids')
    (hl : Linked fs.nodes fs.root live kids) (hn : Reached fs.root kids n) :
    Reached fs'.root kids' n := by
  rw [h.root]
  refine hn.mono fun m hm c hc => ?_
  obtain ⟨l, hk, -⟩ := h.old m (hl.reached_mem hm)
  rw [hk]
  exact mem_append_left _ hc

theorem Built.up (h : Built R fs bs live kids fs' bs' live' kids') (hm : m ∈ live) :
    up fs'.nodes m = up fs.nodes m := by
  have hparent : (fs'.nodes m).parent = (fs.nodes m).parent :=
    (congrArg Node.parent (h.ext.old m hm).2 :)
  unfold Tmpfs.up
  rw [hparent]

theorem Built.findChild (h : Built R fs bs live kids fs' bs' live' kids')
    (hl : Linked fs.nodes fs.root live kids) (hl' : Linked fs'.nodes fs'.root live' kids')
    (hm : m ∈ live) (hfind : findChild fs.nodes token (fs.nodes m).firstChild = some c)
    (hc : c ≠ 0) : findChild fs'.nodes token (fs'.nodes m).firstChild = some c := by
  obtain ⟨l, hk, -⟩ := h.old m hm
  rw [findChild_spec hl hm] at hfind
  rw [findChild_spec hl' (h.ext.old m hm).1, hk, find?_append]
  have hcongr : (kids m).find? (fun d => (fs'.nodes d).name = token) =
      (kids m).find? fun d => (fs.nodes d).name = token := by
    apply find?_congr
    intro d hd
    have hname : (fs'.nodes d).name = (fs.nodes d).name :=
      (congrArg Node.name (h.ext.old d (hl.child m hm d hd).1).2 :)
    rw [hname]
  rw [hcongr]
  cases hf : (kids m).find? fun d => (fs.nodes d).name = token with
  | none =>
    rw [hf] at hfind
    exact absurd (some.inj hfind).symm hc
  | some d =>
    rw [hf] at hfind
    exact hfind

end Built

theorem names_of_findChild {nodes : Nat → Node} {root : Nat} {live : List Nat}
    (hl : Linked nodes root live kids) (hcurr : curr ∈ live)
    (hnone : findChild nodes token (nodes curr).firstChild = some 0) :
    ∀ d ∈ kids curr, (nodes d).name ≠ token := by
  intro d hd heq
  rw [findChild_spec hl hcurr] at hnone
  cases hf : (kids curr).find? fun d => (nodes d).name = token with
  | none =>
    rw [find?_eq_none] at hf
    exact hf d hd (by simpa using heq)
  | some e =>
    rw [hf] at hnone
    exact hl.ne_zero (hl.child curr hcurr e (mem_of_find?_eq_some hf)).1
      (some.inj hnone)

theorem findChild_added {fs fs' : Fs} {live : List Nat} {isDir : Bool}
    (hl : Linked fs.nodes fs.root live kids)
    (hl' : Linked fs'.nodes fs'.root (c :: live) (grown kids curr c)) (hcurr : curr ∈ live)
    (hnone : findChild fs.nodes token (fs.nodes curr).firstChild = some 0)
    (hnew : (fs'.nodes c).data = newNode token curr isDir mode)
    (hold : ∀ m ∈ live, (fs'.nodes m).data = (fs.nodes m).data) (hshort : token.length ≤ 127) :
    findChild fs'.nodes token (fs'.nodes curr).firstChild = some c := by
  have hnames := names_of_findChild hl hcurr hnone
  rw [findChild_spec hl' (mem_cons_of_mem _ hcurr), grown_curr, find?_append]
  have hfirst : (kids curr).find? (fun d => (fs'.nodes d).name = token) = none := by
    rw [find?_eq_none]
    intro d hd
    have hname : (fs'.nodes d).name = (fs.nodes d).name :=
      (congrArg Node.name (hold d (hl.child curr hcurr d hd).1) :)
    rw [hname]
    simpa using hnames d hd
  have hname : (fs'.nodes c).name = token := by
    have : (fs'.nodes c).name = token.take 127 := (congrArg Node.name hnew :)
    rw [this, take_of_length_le hshort]
  rw [hfirst, none_or, find?_cons_of_pos (by simpa using hname)]
  rfl

/-! ## The walk -/

/-- Each child that the walk makes meets `G`. -/
def MakesIn (G : Fs → Nat → Bytes → Prop) (isDir : Bool) (mode : Nat) :
    Fs → Nat → Names → Prop
  | _, _, [] => True
  | fs, curr, token :: rest =>
    if token = dot then MakesIn G isDir mode fs curr rest
    else if token = dotdot then MakesIn G isDir mode fs (up fs.nodes curr) rest
    else ∀ child, findChild fs.nodes token (fs.nodes curr).firstChild = some child →
      (child ≠ 0 → MakesIn G isDir mode fs child rest) ∧
      (child = 0 → G fs curr token ∧
        ∀ c fs', addChild fs curr token (if rest.isEmpty then isDir else true)
          (if rest.isEmpty then mode else 0o755) = some (c, fs') → c ≠ 0 →
            MakesIn G isDir mode fs' c rest)

theorem makesIn_of_forall {G : Fs → Nat → Bytes → Prop} (isDir : Bool) (mode : Nat)
    (hG : ∀ fs curr, ∀ t ∈ ts,
      findChild fs.nodes t (fs.nodes curr).firstChild = some 0 → G fs curr t) (fs : Fs)
    (curr : Nat) : MakesIn G isDir mode fs curr ts := by
  induction ts generalizing fs curr with
  | nil => exact trivial
  | cons t ts ih =>
    have hrest := fun fs curr => ih (fun fs curr t ht => hG fs curr t (mem_cons_of_mem _ ht))
      fs curr
    unfold MakesIn
    by_cases h1 : t = dot
    · rw [if_pos h1]
      exact hrest _ _
    by_cases h2 : t = dotdot
    · rw [if_neg h1, if_pos h2]
      exact hrest _ _
    rw [if_neg h1, if_neg h2]
    intro child hfind
    refine ⟨fun _ => hrest _ _, ?_⟩
    rintro rfl
    exact ⟨hG fs curr t mem_cons_self hfind, fun _ _ _ _ => hrest _ _⟩

/-- Each child that is made for a path meets `G`. -/
def MakesAt (G : Fs → Nat → Bytes → Prop) (isDir : Bool) (mode : Nat) (fs : Fs) (base : Nat)
    (path : Path) : Prop :=
  ∀ p, path = some p → MakesIn G isDir mode fs (startOf fs base p) (tokens p)

/-- `G` says in the words of the code what the rules ask of a new child. -/
def Follows (G : Fs → Nat → Bytes → Prop) (R : Rules) : Prop :=
  ∀ fs live kids curr token, Linked fs.nodes fs.root live kids → curr ∈ live →
    G fs curr token → R.add (shape fs live kids) curr token

section Walk

variable {R : Rules} {G : Fs → Nat → Bytes → Prop} (hGR : Follows G R) {foreign : List Nat}
  {fs : Fs} {bs : List Blk} {live : List Nat} {kids : Kids}
  (h : Sane foreign fs bs live kids)

include hGR h

theorem createLoop_built (hcurr : Reached fs.root kids curr) {isDir : Bool}
    (hmakes : MakesIn G isDir mode fs curr ts) :
    ∃ n fs' bs' live' kids', createLoop isDir mode fs curr ts = some (n, fs') ∧
      Sane foreign fs' bs' live' kids' ∧ Built R fs bs live kids fs' bs' live' kids' ∧
      Grown fs bs live fs' bs' live' ∧
      (n = 0 ∧ failures fs.heap < failures fs'.heap ∨ Reached fs'.root kids' n) ∧
      (n ≠ 0 → (∀ t ∈ ts, t.length ≤ 127) → resolveLoop fs'.nodes curr ts = some n) := by
  induction ts generalizing fs bs live kids curr with
  | nil =>
    exact ⟨curr, fs, bs, live, kids, rfl, h, .refl h.owns.sound, .refl h.owns.sound live,
      Or.inr hcurr, fun _ _ => rfl⟩
  | cons t ts ih =>
    have hmem := h.linked.reached_mem hcurr
    rw [createLoop_cons]
    unfold MakesIn at hmakes
    by_cases h1 : t = dot
    · rw [if_pos h1] at hmakes ⊢
      obtain ⟨n, fs', bs', live', kids', hrun, hs, hb, hg, hn, hres⟩ := ih h hcurr hmakes
      refine ⟨n, fs', bs', live', kids', hrun, hs, hb, hg, hn, fun h0 hshort => ?_⟩
      rw [resolveLoop_cons, if_pos h1]
      exact hres h0 fun t ht => hshort t (mem_cons_of_mem _ ht)
    by_cases h2 : t = dotdot
    · rw [if_neg h1, if_pos h2] at hmakes ⊢
      obtain ⟨n, fs', bs', live', kids', hrun, hs, hb, hg, hn, hres⟩ :=
        ih h (up_reached h.linked hcurr) hmakes
      refine ⟨n, fs', bs', live', kids', hrun, hs, hb, hg, hn, fun h0 hshort => ?_⟩
      rw [resolveLoop_cons, if_neg h1, if_pos h2, hb.up hmem]
      exact hres h0 fun t ht => hshort t (mem_cons_of_mem _ ht)
    rw [if_neg h1, if_neg h2] at hmakes ⊢
    obtain ⟨c, hfind, hc⟩ := findChild_cases h.linked hcurr t
    rw [hfind]
    simp only [bind_some]
    rcases hc with rfl | ⟨h0, hc⟩
    · -- The component is missing.
      obtain ⟨hrule, hlater⟩ := (hmakes 0 hfind).2 rfl
      rw [if_neg (by simp)]
      obtain ⟨c, fs1, hadd, hcases⟩ := h.addChild_cases hmem t
        (if ts.isEmpty then isDir else true) (if ts.isEmpty then mode else 0o755)
      rw [hadd]
      simp only [bind_some]
      rcases hcases with ⟨rfl, hframe, hs, hk, hfail, -⟩ |
        ⟨hc0, hcnot, hserved, hnew, bs1, hs, hgrown, hblock, -⟩
      · obtain ⟨hb, hg⟩ := built_of_heap hframe hk
        exact ⟨0, fs1, bs, live, kids, by rw [if_pos rfl], hs, hb, hg, .inl ⟨rfl, hfail⟩,
          fun h0 => absurd rfl h0⟩
      · rw [if_neg hc0]
        have hb1 := built_of_add (R := R) hmem hcnot (congrArg Node.name hnew :)
          (congrArg Node.refcount hnew :) hgrown.toExtends hblock
          (hGR fs live kids curr t h.linked hmem hrule)
        have hreach : Reached fs1.root (grown kids curr c) c := by
          rw [hb1.root]
          refine .child (hcurr.mono fun m hm d hd => mem_grown ?_ hd) (mem_grown_self _ _ _)
          rintro rfl
          exact hcnot (h.linked.reached_mem hm)
        obtain ⟨n, fs2, bs2, live2, kids2, hrun, hs2, hb2, hg2, hn, hres⟩ :=
          ih hs hreach (hlater c fs1 hadd hc0)
        refine ⟨n, fs2, bs2, live2, kids2, hrun, hs2, hb1.trans hb2, hgrown.trans hg2, hserved ▸ hn,
          fun h0 hshort => ?_⟩
        have hfind1 := findChild_added h.linked hs.linked hmem hfind hnew
          (fun m hm => (hgrown.old m hm).2) (hshort t mem_cons_self)
        rw [resolveLoop_cons, if_neg h1, if_neg h2,
          hb2.findChild hs.linked hs2.linked (mem_cons_of_mem _ hmem) hfind1 hc0]
        simp only [bind_some, if_neg hc0]
        exact hres h0 fun t ht => hshort t (mem_cons_of_mem _ ht)
    · rw [if_pos h0]
      obtain ⟨n, fs', bs', live', kids', hrun, hs, hb, hg, hn, hres⟩ :=
        ih h hc ((hmakes c hfind).1 h0)
      refine ⟨n, fs', bs', live', kids', hrun, hs, hb, hg, hn, fun hn0 hshort => ?_⟩
      rw [resolveLoop_cons, if_neg h1, if_neg h2, hb.findChild h.linked hs.linked hmem hfind h0]
      simp only [bind_some, if_neg h0]
      exact hres hn0 fun t ht => hshort t (mem_cons_of_mem _ ht)

/-! ## Whole paths -/

omit hGR h in
theorem startOf_congr {fs fs' : Fs} (hroot : fs'.root = fs.root) (base : Nat) (path : Bytes) :
    startOf fs' base path = startOf fs base path := by
  unfold startOf
  rw [hroot]

omit hGR h in
theorem startOf_reached {base : Nat} (hbase : Reached fs.root kids base) (path : Bytes) :
    Reached fs.root kids (startOf fs base path) := by
  unfold startOf
  split_ifs
  · exact .root
  · exact hbase

omit hGR h in
theorem Linked.resolvePathInternal_cases (hl : Linked fs.nodes fs.root live kids) {base : Nat}
    (hbase : Reached fs.root kids base) (path : Path) :
    ∃ n, resolvePathInternal fs base path = some n ∧ (n = 0 ∨ Reached fs.root kids n) := by
  unfold resolvePathInternal
  cases path with
  | none => exact ⟨0, rfl, .inl rfl⟩
  | some p =>
    simp only
    rw [if_neg (hl.ne_zero (hl.reached_mem hbase))]
    exact resolveLoop_spec hl (startOf_reached hbase p) _

omit hGR in
theorem resolvePathInternal_cases {base : Nat} (hbase : Reached fs.root kids base) (path : Path) :
    ∃ n, resolvePathInternal fs base path = some n ∧ (n = 0 ∨ Reached fs.root kids n) :=
  h.linked.resolvePathInternal_cases hbase path

theorem createAtPathInternal_built {base : Nat} (hbase : Reached fs.root kids base) {path : Path}
    {isDir : Bool} (hmakes : MakesAt G isDir mode fs base path) :
    ∃ n fs' bs' live' kids', createAtPathInternal fs base path isDir mode = some (n, fs') ∧
      Sane foreign fs' bs' live' kids' ∧ Built R fs bs live kids fs' bs' live' kids' ∧
      Grown fs bs live fs' bs' live' ∧ (n = 0 ∨ Reached fs'.root kids' n) ∧
      (n ≠ 0 → (∀ p, path = some p → ∀ t ∈ tokens p, t.length ≤ 127) →
        resolvePathInternal fs' base path = some n) := by
  have hsame : Built R fs bs live kids fs bs live kids := .refl h.owns.sound
  have hnull : ∃ n fs' bs' live' kids', some (0, fs) = some (n, fs') ∧
      Sane foreign fs' bs' live' kids' ∧ Built R fs bs live kids fs' bs' live' kids' ∧
      Grown fs bs live fs' bs' live' ∧ (n = 0 ∨ Reached fs'.root kids' n) ∧
      (n ≠ 0 → (∀ p, path = some p → ∀ t ∈ tokens p, t.length ≤ 127) →
        resolvePathInternal fs' base path = some n) :=
    ⟨0, fs, bs, live, kids, rfl, h, hsame, .refl h.owns.sound live, .inl rfl,
      fun h0 => absurd rfl h0⟩
  unfold createAtPathInternal
  cases path with
  | none => exact hnull
  | some p =>
    simp only
    by_cases hbad : base = 0 ∨ p = []
    · rw [if_pos hbad]
      exact hnull
    rw [if_neg hbad]
    rw [not_or] at hbad
    obtain ⟨n, fs', bs', live', kids', hrun, hs, hb, hg, hn, hres⟩ :=
      createLoop_built hGR h (startOf_reached hbase p) (hmakes p rfl)
    refine ⟨n, fs', bs', live', kids', hrun, hs, hb, hg, hn.imp_left And.left, fun h0 hshort => ?_⟩
    have hstart : startOf fs' base p = startOf fs base p := startOf_congr hb.root base p
    rw [resolvePathInternal_some hbad.1, hstart]
    exact hres h0 (hshort p rfl)

end Walk

/-! ## Where nobody has left the root -/

/-- No rules at all. -/
def Rules.none : Rules := ⟨fun _ _ _ => True, fun _ _ => True⟩

section Root

variable {foreign : List Nat} {fs fs' : Fs} {bs bs' : List Blk} {live live' : List Nat}
  {kids kids' : Kids} (h : Inv foreign fs bs live kids)

include h

theorem Inv.of_sane (hs : Sane foreign fs' bs' live' kids') (hcwd : fs'.cwd = fs.cwd)
    (hroot : fs'.root = fs.root) : Inv foreign fs' bs' live' kids' :=
  ⟨hs, by rw [hcwd, hroot, h.cwd]⟩

theorem Inv.grown (hs : Sane foreign fs' bs' live' kids') (hg : Grown fs bs live fs' bs' live') :
    Inv foreign fs' bs' live' kids' :=
  h.of_sane hs (by rw [hg.frame]) (by rw [hg.frame])

theorem Inv.reached_cwd : Reached fs.root kids fs.cwd := by
  rw [h.cwd]
  exact .root

theorem addChild_cases (hcurr : curr ∈ live) (token : Bytes) (isDir : Bool) (mode : Nat) :
    ∃ c fs', addChild fs curr token isDir mode = some (c, fs') ∧
      ((c = 0 ∧ fs' = { fs with heap := fs'.heap } ∧ Inv foreign fs' bs live kids ∧
          Keeps [] fs.heap bs fs'.heap bs ∧ failures fs.heap < failures fs'.heap ∧
          ¬ Room nodeSize bs) ∨
        (c ≠ 0 ∧ c ∉ live ∧ failures fs'.heap = failures fs.heap ∧
          (fs'.nodes c).data = newNode token curr isDir mode ∧
          ∃ bs', Inv foreign fs' bs' (c :: live) (Tmpfs.grown kids curr c) ∧
            Grown fs bs live fs' bs' (c :: live) ∧
            ∀ r, 0 < r → Room (nodeSize + headerSize + r) bs → Room r bs')) := by
  obtain ⟨c, fs1, hadd, hcases⟩ := h.toSane.addChild_cases hcurr token isDir mode
  refine ⟨c, fs1, hadd, ?_⟩
  rcases hcases with ⟨h0, hframe, hs, hk⟩ | ⟨hc0, hcnot, hfail, hnew, bs1, hs, hgrown, -, hroom⟩
  · exact .inl ⟨h0, hframe, h.of_sane hs (by rw [hframe]) (by rw [hframe]), hk⟩
  · exact .inr ⟨hc0, hcnot, hfail, hnew, bs1, h.grown hs hgrown, hgrown, hroom⟩

theorem resolvePath_cases (path : Path) :
    ∃ n, resolvePath fs path = some n ∧ (n = 0 ∨ Reached fs.root kids n) :=
  resolvePathInternal_cases h.toSane h.reached_cwd path

theorem createAtPath_spec (path : Path) (isDir : Bool) (mode : Nat) :
    ∃ n fs' bs' live' kids', createAtPath fs path isDir mode = some (n, fs') ∧
      Inv foreign fs' bs' live' kids' ∧ Grown fs bs live fs' bs' live' ∧
      (n = 0 ∨ Reached fs'.root kids' n) := by
  have hfollows : Follows (fun _ _ _ => True) Rules.none := fun _ _ _ _ _ _ _ _ => trivial
  have hmakes : MakesAt (fun _ _ _ => True) isDir mode fs fs.cwd path :=
    fun p _ => makesIn_of_forall isDir mode (fun _ _ _ _ _ => trivial) _ _
  obtain ⟨n, fs', bs', live', kids', hrun, hs, -, hg, hn, -⟩ :=
    createAtPathInternal_built hfollows h.toSane h.reached_cwd hmakes
  exact ⟨n, fs', bs', live', kids', hrun, h.grown hs hg, hg, hn⟩

end Root

end Terrakernel.Tmpfs
