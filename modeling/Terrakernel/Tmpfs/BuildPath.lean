import Terrakernel.Tmpfs.Ops
import Terrakernel.Tmpfs.View

/-!
# Paths to nodes

`build_path_at_node` writes up to 1023 bytes, and `resolve_path` reads 511 of them.
-/

namespace Terrakernel.Tmpfs

open List Option Memory Vmm Links Heap Paths

variable {q : Names} {fs : Fs} {kids : Kids} {n m c : Nat}

/-- The path of a node, where the names on the way to it are `q`. -/
def fullName (q : Names) : Bytes := if q = [] then [slash] else pathOf q

theorem fullName_head (q : Names) : (fullName q).head? = some slash := by
  unfold fullName
  split_ifs with h0
  · rfl
  · obtain ⟨t, ts, rfl⟩ := exists_cons_of_ne_nil h0
    rfl

theorem length_fullName_le {k : Nat} (hk : 0 < k) :
    (fullName q).length ≤ k ↔ (pathOf q).length ≤ k := by
  unfold fullName
  split_ifs with h0
  · rw [h0]
    exact iff_of_true hk (Nat.zero_le k)
  · rfl

theorem components_fullName (hq : ∀ t ∈ q, IsName t) : components (fullName q) = q := by
  have h0 : ∀ t ∈ q, t ≠ [] := fun t ht => (hq t ht).ne_nil
  have hslash : ∀ t ∈ q, ∀ b ∈ t, b ≠ slash := fun t ht => (hq t ht).noSlash
  unfold fullName
  split_ifs with hnil
  · rw [hnil]
    rfl
  · simpa using components_path h0 hslash (Or.inl rfl)

section Loop

variable {fs : Fs} {live : List Nat} {kids : Kids}
  (h : Linked fs.nodes fs.root live kids)

include h

theorem Linked.pathLoop_eq (hq : Spelled fs kids q n) {fuel : Nat} {acc : Bytes}
    (hfuel : 1023 < fuel + acc.length) (hacc : acc.length ≤ 1023) :
    pathLoop fs.nodes fuel n acc =
      if (pathOf q ++ acc).length ≤ 1023 then
        some (if pathOf q ++ acc = [] then [slash] else pathOf q ++ acc)
      else none := by
  obtain _ | fuel := fuel
  · omega
  induction hq generalizing fuel acc with
  | root => rw [pathLoop, if_pos h.top, pathOf_nil, nil_append, if_pos hacc]
  | @child q m n hm hchild ih =>
    have hmlive := h.reached_mem hm.reached
    have hparent := (h.child m hmlive n hchild).2
    generalize ht : (fs.nodes n).name = t
    have hsplit : pathOf (q ++ [t]) ++ acc = pathOf q ++ slash :: (t ++ acc) := by
      simp [pathOf_append]
    rw [pathLoop, hparent, if_neg (h.ne_zero hmlive), ht, hsplit]
    by_cases hfull : 1023 - acc.length < t.length + 1
    · have hlong : ¬ (pathOf q ++ slash :: (t ++ acc)).length ≤ 1023 := by
        simp only [length_append, length_cons]
        omega
      rw [if_pos hfull, if_neg hlong]
    · have hlen : (slash :: (t ++ acc)).length = t.length + acc.length + 1 := by simp
      obtain _ | fuel := fuel
      · omega
      rw [if_neg hfull, ih (by omega) fuel (by omega)]

theorem Linked.pathLoop_node (hq : Spelled fs kids q n) :
    pathLoop fs.nodes 1024 n [] =
      if (pathOf q).length ≤ 1023 then some (fullName q) else none := by
  rw [h.pathLoop_eq hq (by decide) (by decide), append_nil]
  have hnil : pathOf q = [] ↔ q = [] := ⟨fun h0 => by_contra fun hne => pathOf_ne_nil hne h0,
    fun h0 => by rw [h0, pathOf_nil]⟩
  simp only [fullName, hnil]

theorem Linked.buildPathAtNode_string {p : Nat} {s : Bytes} {fs' : Fs}
    (hq : Spelled fs kids q n) (hrun : buildPathAtNode fs n = some (p, s, fs')) (hp : p ≠ 0) :
    s = fullName q ∧ (fullName q).length ≤ 1023 ∧ ∃ heap, fs' = { fs with heap } := by
  unfold buildPathAtNode at hrun
  rw [h.pathLoop_node hq] at hrun
  split_ifs at hrun with hlong
  · obtain ⟨⟨result, heap⟩, -, hrun⟩ := bind_eq_some_iff.mp hrun
    simp only at hrun
    split_ifs at hrun with h0
    · cases hrun
      exact absurd rfl hp
    · cases hrun
      exact ⟨rfl, (length_fullName_le (by decide)).mpr hlong, _, rfl⟩
  · cases hrun
    exact absurd rfl hp

end Loop

/-! ## The way back -/

theorem take_pathOf {k : Nat} (hk : k < (pathOf q).length) :
    ∃ q1 t q2 j, q = q1 ++ t :: q2 ∧ j ≤ t.length ∧
      (pathOf q).take k = pathOf q1 ++ (slash :: t).take j := by
  induction q generalizing k with
  | nil => simp at hk
  | cons t ts ih =>
    have hsplit : pathOf (t :: ts) = (slash :: t) ++ pathOf ts := rfl
    rw [hsplit] at hk ⊢
    rw [length_append, length_cons] at hk
    by_cases hin : k ≤ t.length
    · refine ⟨[], t, ts, k, rfl, hin, ?_⟩
      rw [take_append_of_le_length (by simp; omega)]
      rfl
    · obtain ⟨q1, u, q2, j, rfl, hj, htake⟩ := @ih (k - (t.length + 1)) (by omega)
      refine ⟨t :: q1, u, q2, j, rfl, hj, ?_⟩
      rw [take_append, take_of_length_le (by simp; omega), length_cons, htake]
      simp

theorem tokens_cut (hq : ∀ t ∈ q, IsName t) (hlong : 511 < (pathOf q).length) :
    ∃ q1 t q2 r, q = q1 ++ t :: q2 ∧ tokens (pathOf q) = q1 ++ r ∧
      (r = [] ∨ ∃ t', r = [t'] ∧ t' ≠ t ∧ t' ≠ [] ∧ t' <+: t) := by
  obtain ⟨q1, t, q2, j, rfl, hj, htake⟩ := take_pathOf hlong
  have hq1 : ∀ u ∈ q1, IsName u := fun u hu => hq u (by simp [hu])
  have ht : IsName t := hq t (by simp)
  have h0 : ∀ u ∈ q1, u ≠ [] := fun u hu => (hq1 u hu).ne_nil
  have hslash : ∀ u ∈ q1, ∀ b ∈ u, b ≠ slash := fun u hu => (hq1 u hu).noSlash
  rw [tokens_eq, htake]
  cases j with
  | zero =>
    refine ⟨q1, t, q2, [], rfl, ?_, .inl rfl⟩
    simpa using components_path h0 hslash (Or.inl rfl)
  | succ j =>
    rw [take_succ_cons]
    by_cases hnil : t.take j = []
    · rw [hnil, components_path h0 hslash (Or.inr rfl)]
      exact ⟨q1, t, q2, [], rfl, (append_nil _).symm, .inl rfl⟩
    · refine ⟨q1, t, q2, [t.take j], rfl, ?_, .inr ⟨_, rfl, ?_, hnil, take_prefix _ _⟩⟩
      · have hpath : pathOf q1 ++ slash :: t.take j = pathOf (q1 ++ [t.take j]) ++ [] := by
          simp [pathOf_append]
        rw [hpath]
        refine components_path ?_ ?_ (Or.inl rfl)
        · exact forall_mem_append.mpr ⟨h0, forall_mem_singleton.mpr hnil⟩
        · refine forall_mem_append.mpr ⟨hslash, forall_mem_singleton.mpr ?_⟩
          exact fun b hb => ht.noSlash b (mem_of_mem_take hb)
      · intro heq
        have := congrArg List.length heq
        rw [length_take] at this
        omega

section Back

variable {fs : Fs} {live : List Nat} {kids : Kids}
  (h : Linked fs.nodes fs.root live kids)

include h

theorem Linked.up_look (hq : look fs kids q = some m) :
    ∃ q0, q0 <+: q ∧ look fs kids q0 = some (up fs.nodes m) := by
  induction q using reverseRecOn generalizing m with
  | nil =>
    obtain rfl : fs.root = m := some.inj hq
    refine ⟨[], prefix_rfl, ?_⟩
    rw [up, if_neg (by simp [h.top]), look_nil]
  | append_singleton q t =>
    obtain ⟨p, hp, hm⟩ := look_snoc_some hq
    have hparent := (h.child p (h.look_mem hp) m (named_some hm).1).2
    refine ⟨q, prefix_append _ _, ?_⟩
    rw [up, hparent, if_pos (h.ne_zero (h.look_mem hp)), hp]

theorem Linked.resolveLoop_other {q1 q2 r : Names} {t : Bytes} (ht : IsName t)
    (hm : look fs kids q1 = some m) (hn : look fs kids (q1 ++ t :: q2) = some n)
    (hr : r = [] ∨ ∃ t', r = [t'] ∧ t' ≠ t ∧ t' ≠ [] ∧ t' <+: t) :
    resolveLoop fs.nodes m r ≠ some n := by
  have hother : ∀ {q0 x}, q0 <+: q1 → look fs kids q0 = some x → x ≠ n := by
    rintro q0 x hpre hx rfl
    have := congrArg List.length (h.look_inj hx hn)
    have hle := hpre.length_le
    rw [length_append, length_cons] at this
    omega
  rcases hr with rfl | ⟨t', rfl, hne, h0, hpre⟩
  · exact fun heq => hother prefix_rfl hm (some.inj heq)
  · rw [resolveLoop_cons]
    split_ifs with hdot hdotdot
    · exact fun heq => hother prefix_rfl hm (some.inj heq)
    · obtain ⟨q0, hq0, hup⟩ := h.up_look hm
      exact fun heq => hother hq0 hup (some.inj heq)
    · have ht' : IsName t' := ⟨h0, fun b hb => ht.noSlash b (hpre.mem hb),
        fun b hb => ht.noNul b (hpre.mem hb), hdot, hdotdot, hpre.length_le.trans ht.short⟩
      have hloop :=
        @Linked.resolveLoop_eq fs kids live h [t'] (by simpa using ht') m (h.look_mem hm)
      rw [resolveLoop_cons, if_neg hdot, if_neg hdotdot] at hloop
      rw [hloop, follow_cons]
      cases hc : named fs.nodes kids m t' with
      | none =>
        intro heq
        exact h.ne_zero (h.look_mem hn) (some.inj heq).symm
      | some c =>
        intro heq
        obtain rfl : c = n := some.inj heq
        have hlook : look fs kids (q1 ++ [t']) = some c := by
          rw [look_snoc, hm, bind_some, hc]
        have heq := h.look_inj hlook hn
        rw [append_cancel_left_eq] at heq
        exact hne (List.cons.inj heq).1

theorem Linked.resolve_fullName_iff (hq : look fs kids q = some n) (hnames : ∀ t ∈ q, IsName t) :
    resolveLoop fs.nodes fs.root (tokens (fullName q)) = some n ↔ (fullName q).length ≤ 511 := by
  constructor
  · intro hback
    by_contra hlong
    rw [Nat.not_le] at hlong
    have hne : q ≠ [] := by
      rintro rfl
      exact absurd hlong (by decide)
    rw [fullName, if_neg hne] at hback hlong
    obtain ⟨q1, t, q2, r, rfl, htok, hr⟩ := tokens_cut hnames hlong
    obtain ⟨m, hm⟩ := look_above hq (prefix_append _ _)
    have hwalk : resolveLoop fs.nodes fs.root q1 = some m := by
      rw [h.resolveLoop_eq (fun t ht => hnames t (by simp [ht])) h.root_mem]
      exact congrArg (fun x => some (x.getD 0)) hm
    rw [htok, resolveLoop_append _ hwalk (h.ne_zero (h.look_mem hm))] at hback
    exact h.resolveLoop_other (hnames t (by simp)) hm hq hr hback
  · intro hshort
    rw [tokens_eq, take_of_length_le hshort, components_fullName hnames,
      h.resolveLoop_eq hnames h.root_mem]
    exact congrArg (fun x => some (x.getD 0)) hq

end Back

/-! ## Trees with unique names -/

/-- Every child in the tree has a name of its own, which stands for itself. -/
structure WellNamed (fs : Fs) (kids : Kids) : Prop where
  unique : ∀ m, Reached fs.root kids m → ((kids m).map fun c => (fs.nodes c).name).Nodup
  isName : ∀ m, Reached fs.root kids m → ∀ c ∈ kids m, IsName (fs.nodes c).name

theorem named_of_mem {nodes : Nat → Node} (hunique : ((kids m).map fun c => (nodes c).name).Nodup)
    (hc : c ∈ kids m) : named nodes kids m (nodes c).name = some c := by
  cases hfind : named nodes kids m (nodes c).name with
  | none => exact absurd rfl (named_none.mp hfind c hc)
  | some d =>
    obtain ⟨hd, hname⟩ := named_some hfind
    rw [inj_on_of_nodup_map hunique hd hc hname]

theorem WellNamed.look_of_spelled (h : WellNamed fs kids) (hq : Spelled fs kids q n) :
    look fs kids q = some n ∧ ∀ t ∈ q, IsName t := by
  induction hq with
  | root => exact ⟨look_nil, by simp⟩
  | child hm hc ih =>
    obtain ⟨hlook, hnames⟩ := ih
    refine ⟨?_, forall_mem_append.mpr
      ⟨hnames, forall_mem_singleton.mpr (h.isName _ hm.reached _ hc)⟩⟩
    rw [look_snoc, hlook, bind_some, named_of_mem (h.unique _ hm.reached) hc]

theorem resolvePath_fullName (hcwd : fs.cwd ≠ 0) (heap : Heap) (q : Names) :
    resolvePath { fs with heap } (some (fullName q)) =
      resolveLoop fs.nodes fs.root (tokens (fullName q)) := by
  rw [@resolvePath_some { fs with heap } hcwd, startOf, if_pos (fullName_head q)]

/-- When the path that `build_path_at_node` gives leads back to the node: the names on the way to it
have at most 511 bytes, with a slash before each. -/
theorem built_path_resolves_iff {fs fs' : Fs} {live : List Nat} {kids : Kids}
    (h : Linked fs.nodes fs.root live kids) (hcwd : fs.cwd ≠ 0) (hnames : WellNamed fs kids)
    {n p : Nat} {q : Names} {s : Bytes} (hq : Spelled fs kids q n)
    (hrun : buildPathAtNode fs n = some (p, s, fs')) (hp : p ≠ 0) :
    resolvePath fs' (some s) = some n ↔ (pathOf q).length ≤ 511 := by
  obtain ⟨hlook, hq'⟩ := hnames.look_of_spelled hq
  obtain ⟨rfl, -, heap, rfl⟩ := h.buildPathAtNode_string hq hrun hp
  rw [resolvePath_fullName hcwd, h.resolve_fullName_iff hlook hq', length_fullName_le (by decide)]

theorem Sane.buildPathAtNode_served {foreign : List Nat} {bs : List Blk} {live : List Nat}
    (h : Sane foreign fs bs live kids) (hq : Spelled fs kids q n) (hlen : (pathOf q).length ≤ 1023)
    (hroom : Room ((fullName q).length + 1) bs) :
    ∃ p heap, p ≠ 0 ∧ buildPathAtNode fs n = some (p, fullName q, { fs with heap }) := by
  obtain ⟨p, heap, bs', hm, -, hcases⟩ := malloc_cases h.owns.sound ((fullName q).length + 1)
  rcases hcases with ⟨-, -, -, hno⟩ | ⟨hp, -⟩
  · exact absurd hroom hno
  · refine ⟨p, { heap with mem := putBytes heap.mem p (fullName q ++ [0]) }, hp, ?_⟩
    unfold buildPathAtNode
    rw [h.linked.pathLoop_node hq, if_pos hlen]
    simp only [hm, bind_eq_bind, bind_some, if_neg hp]

theorem wellNamed_only (h : Linked fs.nodes fs.root [c, fs.root] (grown (fun _ => []) fs.root c))
    (hname : IsName (fs.nodes c).name) : WellNamed fs (grown (fun _ => []) fs.root c) := by
  have hkids : ∀ m, Reached fs.root (grown (fun _ => []) fs.root c) m →
      grown (fun _ => []) fs.root c m = [] ∨ grown (fun _ => []) fs.root c m = [c] := by
    intro m hm
    by_cases hroot : m = fs.root
    · rw [hroot, grown_curr]
      exact .inr rfl
    · obtain rfl : m = c := by simpa [hroot] using h.reached_mem hm
      exact .inl (grown_new hroot)
  constructor
  · intro m hm
    rcases hkids m hm with hk | hk <;> simp [hk]
  · intro m hm
    rcases hkids m hm with hk | hk <;> simp [hk, hname]

theorem built_path_resolves_iff_file :
    ∃ (fs fs' : Fs) (c p : Nat) (s : Bytes), p ≠ 0 ∧ buildPathAtNode fs c = some (p, s, fs') ∧
      resolvePath fs' (some s) = some c := by
  obtain ⟨-, -, c, fs, bs, -, -, -, -, h, hne, hname, -, hcwd, -, hroom, -⟩ :=
    @blank_file [0x66] (by decide) (by decide) (by decide)
  have hl := h.linked
  have hcwd0 : fs.cwd ≠ 0 := hcwd ▸ hl.ne_zero hl.root_mem
  have hnames := wellNamed_only hl (by rw [hname]; decide)
  have hq : look fs (grown (fun _ => []) fs.root c) [[0x66]] = some c := by
    simp [look, follow, named, grown, hname]
  obtain ⟨p, heap, hp, hrun⟩ :=
    h.sane.buildPathAtNode_served (spelled_of_look hq) (by decide) (hroom.mono (by decide))
  exact ⟨fs, _, c, p, _, hp, hrun,
    (built_path_resolves_iff hl hcwd0 hnames (spelled_of_look hq) hrun hp).mpr (by decide)⟩

theorem blank_mkdir {P : Names} (hP : ∀ t ∈ P, IsName t) (hne : P ≠ [])
    (hlen : (pathOf P).length ≤ 511) (hcost : P.length * nodeCost ≤ 0x4000) :
    ∃ fs1 fs2 foreign bs live kids d, initialise blank = some fs1 ∧
      mkdir fs1 (some (pathOf P)) 0o755 = some (0, fs2) ∧ Ready foreign fs2 bs live kids ∧
      tokens (pathOf P) = P ∧ look fs2 kids P = some d ∧ (fs2.nodes d).isDir = true ∧
      (∀ q, ¬ q <+: P → look fs2 kids q = none) ∧ Room 0x2000 bs := by
  obtain ⟨fs1, bs1, hinit, -, h1, hcwd1, -, hfree1, hroom1⟩ := blank_started
  have htok : tokens (pathOf P) = P := by
    rw [← append_nil (pathOf P)]
    refine tokens_pathOf (fun t ht => (hP t ht).ne_nil) (fun t ht => (hP t ht).noSlash)
      (Or.inl rfl) ?_
    rwa [append_nil]
  have hnone : ∀ q, q ≠ [] → look fs1 (fun _ => []) q = none := by
    intro q hq
    cases q with
    | nil => exact absurd rfl hq
    | cons t ts => rfl
  obtain ⟨r, fs2, foreign, bs, live, kids, hmkdir, h2, hcosts, hgrew⟩ :=
    Ready.mkdir_new ⟨h1, hcwd1, hfree1⟩ (pathOf_ne_nil hne) htok hP (hnone P hne) 0o755
  have hfits : P.length * nodeCost + 0x2000 ≤ 0x8000 :=
    (Nat.add_le_add_right hcost 0x2000).trans (by decide)
  obtain ⟨hserved, hroom⟩ := hcosts.room 0x2000 (by decide) (hroom1.mono hfits)
  obtain ⟨rfl, ⟨d, hd, hkind⟩, -, -, hmissing⟩ := hgrew hserved
  refine ⟨fs1, fs2, foreign, bs, live, kids, d, hinit, hmkdir, h2, htok, hd, hkind, ?_, hroom⟩
  intro q hq
  refine hmissing q (hnone q ?_) hq
  rintro rfl
  exact hq nil_prefix

/-- A name of 127 bytes. -/
def fullLength : Bytes := replicate 127 0x61

theorem isName_fullLength : IsName fullLength := by
  have hbytes : ∀ b ∈ fullLength, b = 0x61 := fun b hb => eq_of_mem_replicate hb
  have hlen : fullLength.length = 127 := length_replicate
  refine ⟨?_, fun b hb => ?_, fun b hb => ?_, ?_, ?_, hlen.le⟩
  · exact ne_nil_of_length_pos (by rw [hlen]; decide)
  · rw [hbytes b hb]
    decide
  · rw [hbytes b hb]
    decide
  · exact fun heq => absurd (congrArg List.length heq) (by rw [hlen]; decide)
  · exact fun heq => absurd (congrArg List.length heq) (by rw [hlen]; decide)

/-- Four such names have a path of 512 bytes, which cannot be walked in one go. -/
theorem built_path_lost :
    ∃ (fs1 fs2 fs3 fs4 fs5 : Fs) (i : Fin 256) (n p : Nat) (s : Bytes),
      initialise blank = some fs1 ∧
      mkdir fs1 (some (pathOf [fullLength, fullLength, fullLength])) 0o755 = some (0, fs2) ∧
      chdir fs2 (some (pathOf [fullLength, fullLength, fullLength])) = some (0, fs3) ∧
      Tmpfs.open fs3 (some fullLength) oCreat 0o644 none = some ((i : Int), fs4) ∧
      (fs4.fds i).node = n ∧ p ≠ 0 ∧ buildPathAtNode fs4 n = some (p, s, fs5) ∧
      resolvePath fs5 (some s) ≠ some n := by
  have hname := isName_fullLength
  have hlen : fullLength.length = 127 := length_replicate
  set P := [fullLength, fullLength, fullLength] with hPdef
  have hP : ∀ t ∈ P, IsName t := by simp [P, hname]
  have hPlen : (pathOf P).length = 384 := by simp [P, hlen]
  obtain ⟨fs1, fs2, foreign2, bs2, live2, kids2, d, hinit, hmkdir, h2, htok, hd, -, hmissing,
    hroom2⟩ :=
    blank_mkdir hP (by simp [P]) (by rw [hPlen]; decide) (by decide)
  have hl2 := h2.linked
  have hd0 := hl2.ne_zero (hl2.look_mem hd)
  have hchdir : chdir fs2 (some (pathOf P)) = some (0, { fs2 with cwd := d }) := by
    have hne : pathOf P ≠ [slash] := by
      intro heq
      exact absurd (congrArg List.length heq) (by rw [hPlen]; decide)
    unfold chdir
    simp only [if_neg hne, h2.resolvePath_eq hP htok, hd, bind_eq_bind, bind_some,
      getD_some, if_neg hd0]
  have h3 := h2.toHeld.goTo (look_reached hd)
  have htok' : tokens fullLength = [] ++ [fullLength] := by
    rw [tokens_eq, take_of_length_le (by rw [hlen]; decide),
      ← append_nil fullLength, components_token hname.ne_nil hname.noSlash (Or.inl rfl)]
    rfl
  have hstart : startOf { fs2 with cwd := d } d fullLength = d := rfl
  have hno : named fs2.nodes kids2 d fullLength = none := by
    have := hmissing (P ++ [fullLength]) (by simp [P])
    rwa [look_snoc, hd, bind_some] at this
  have hlost : resolvePath { fs2 with cwd := d } (some fullLength) = some 0 := by
    rw [@resolvePath_some { fs2 with cwd := d } hd0, hstart, htok']
    exact resolveLoop_missing hl2 (hl2.look_mem hd) hname.ne_dot hname.ne_dotdot
      (named_none.mp hno) []
  obtain ⟨i, c, fs4, bs4, hopen, hc, -, hdata, -, hext, h4, hroom4⟩ :=
    open_new h3 oCreat (by decide) (by decide) htok' (by rw [hstart]; rfl) hd0 hlost
      ⟨0, h2.free 0⟩ (u := 0x1000) (by decide) (hroom2.mono (by decide)) 0o644
  have hlook : look (opened fs4 i c oCreat 0o644) (grown kids2 d c) (P ++ [fullLength]) =
      some c := by
    have hroot : (opened fs4 i c oCreat 0o644).root = fs2.root := by
      change fs4.root = fs2.root
      rw [hext.frame]
    have hnames : ∀ m, ((opened fs4 i c oCreat 0o644).nodes m).name = (fs4.nodes m).name := by
      intro m
      rw [opened_nodes]
      split_ifs <;> rfl
    have hdname : (fs4.nodes c).name = fullLength.take 127 := (congrArg Node.name hdata :)
    rw [look_grown hl2 hd hno hc hroot
      (fun m hm => (hnames m).trans (congrArg Node.name (hext.old m hm).2 :))
      ((hnames c).trans (hdname.trans (take_of_length_le hlen.le))), if_pos rfl]
  have hall : ∀ t ∈ P ++ [fullLength], IsName t := by simp [P, hname]
  have hlong : (fullName (P ++ [fullLength])).length = 512 := by
    simp [fullName, P, hlen]
  obtain ⟨p, heap, hp, hbuild⟩ := h4.sane.buildPathAtNode_served (spelled_of_look hlook)
    (by rw [pathOf_append, length_append, hPlen]; simp [hlen])
    (hroom4.mono (by rw [hlong]; decide))
  refine ⟨fs1, fs2, _, _, _, i, c, p, _, hinit, hmkdir, hchdir, hopen, ?_, hp, hbuild, ?_⟩
  · rw [opened_fds, Function.update_self]
  · have hl4 := h4.linked
    rw [resolvePath_fullName (hl4.ne_zero (hl4.reached_mem h4.cwd)), ne_eq,
      hl4.resolve_fullName_iff hlook hall, hlong]
    decide

end Terrakernel.Tmpfs
