import Terrakernel.Tmpfs.Build

/-!
# Where a walk ends

A walk that makes what is missing ends at an old node, or some new ones below an old node. Which of
them can be told from the tree before.
-/

namespace Terrakernel.Tmpfs

open Memory Vmm Links Heap List Option

variable {d depth n curr c : Nat} {token : Bytes}

/-- Where a walk that makes what is missing ends: so many new nodes below an old one. -/
def walkEnd (nodes : Nat → Node) : Nat → Nat → Names → Option (Nat × Nat)
  | curr, depth, [] => some (curr, depth)
  | curr, depth, token :: rest =>
    if token = dot then walkEnd nodes curr depth rest
    else if token = dotdot then
      if depth = 0 then walkEnd nodes (up nodes curr) 0 rest
      else walkEnd nodes curr (depth - 1) rest
    else if depth = 0 then do
      let child ← findChild nodes token (nodes curr).firstChild
      if child = 0 then walkEnd nodes curr 1 rest else walkEnd nodes child 0 rest
    else walkEnd nodes curr (depth + 1) rest

theorem walkEnd_cons (nodes : Nat → Node) (curr depth : Nat) (t : Bytes) (ts : Names) :
    walkEnd nodes curr depth (t :: ts) =
      if t = dot then walkEnd nodes curr depth ts
      else if t = dotdot then
        if depth = 0 then walkEnd nodes (up nodes curr) 0 ts else walkEnd nodes curr (depth - 1) ts
      else if depth = 0 then (findChild nodes t (nodes curr).firstChild).bind fun child =>
        if child = 0 then walkEnd nodes curr 1 ts else walkEnd nodes child 0 ts
      else walkEnd nodes curr (depth + 1) ts := rfl

/-- `n` is `depth` new nodes below `d`. The nodes of `live` are the old ones. -/
inductive At (live live' : List Nat) (nodes : Nat → Node) (d : Nat) : Nat → Nat → Prop
  | old : At live live' nodes d 0 d
  | new {depth p n : Nat} (hp : At live live' nodes d depth p) (hn : n ∈ live') (hnew : n ∉ live)
      (hparent : (nodes n).parent = p) : At live live' nodes d (depth + 1) n

section At

variable {live live' live'' : List Nat} {nodes nodes' : Nat → Node} {d depth n : Nat}

theorem At.eq_old (h : At live live' nodes d 0 n) : n = d := by
  cases h
  rfl

theorem At.not_mem (h : At live live' nodes d depth n) (hpos : 0 < depth) : n ∉ live := by
  cases h with
  | old => omega
  | new _ _ hnew _ => exact hnew

theorem At.mem (h : At live live' nodes d depth n) (hd : d ∈ live') : n ∈ live' := by
  cases h with
  | old => exact hd
  | new _ hn _ _ => exact hn

theorem At.grow (h : At live live' nodes d depth n)
    (hsame : ∀ m ∈ live', m ∈ live'' ∧ (nodes' m).data = (nodes m).data) :
    At live live'' nodes' d depth n := by
  induction h with
  | old => exact .old
  | @new depth p n hp hn hnew hparent ih =>
    have hparent' : (nodes' n).parent = (nodes n).parent := (congrArg Node.parent (hsame n hn).2 :)
    exact .new ih (hsame n hn).1 hnew (hparent'.trans hparent)

end At

theorem mem_kids_of_findChild {nodes : Nat → Node} {root : Nat} {live : List Nat}
    {kids : Kids} (hl : Linked nodes root live kids) (hcurr : curr ∈ live)
    (hfind : findChild nodes token (nodes curr).firstChild = some c) (h0 : c ≠ 0) :
    c ∈ kids curr ∧ (nodes c).name = token := by
  rw [findChild_spec hl hcurr] at hfind
  cases hf : (kids curr).find? fun d => (nodes d).name = token with
  | none =>
    rw [hf] at hfind
    exact absurd (some.inj hfind).symm h0
  | some e =>
    rw [hf] at hfind
    obtain rfl : e = c := some.inj hfind
    exact ⟨mem_of_find?_eq_some hf, by simpa using find?_some hf⟩

section Walk

variable {foreign : List Nat} {fs fs1 : Fs} {bs bs1 : List Blk} {live live1 : List Nat}
  {kids kids1 : Kids}

theorem At.found (h : Linked fs.nodes fs.root live kids)
    (h1 : Linked fs1.nodes fs1.root live1 kids1)
    (hb : Built Rules.none fs bs live kids fs1 bs1 live1 kids1) (hd : Reached fs.root kids d)
    (hat : At live live1 fs1.nodes d depth curr) (hne : token ≠ dot) (hne' : token ≠ dotdot)
    (hfind : findChild fs1.nodes token (fs1.nodes curr).firstChild = some c) (h0 : c ≠ 0)
    (ts : Names) :
    ∃ d' depth', Reached fs.root kids d' ∧ At live live1 fs1.nodes d' depth' c ∧
      walkEnd fs.nodes d depth (token :: ts) = walkEnd fs.nodes d' depth' ts := by
  have hdold := h.reached_mem hd
  have hcurr := hat.mem (hb.ext.old d hdold).1
  obtain ⟨hkid, hname⟩ := mem_kids_of_findChild h1 hcurr hfind h0
  obtain ⟨hclive, hparent⟩ := h1.child curr hcurr c hkid
  rw [walkEnd_cons, if_neg hne, if_neg hne']
  cases hat with
  | old =>
    rw [if_pos rfl]
    obtain ⟨c', hfind', hc'⟩ := findChild_cases h hd token
    rw [hfind', bind_some]
    rcases hc' with rfl | ⟨h0', hc'⟩
    · -- The child has been made on the way.
      rw [if_pos rfl]
      refine ⟨d, 1, hd, .new .old hclive ?_ hparent, rfl⟩
      intro hcold
      obtain ⟨l, hk, hnew⟩ := hb.old d hdold
      rw [hk] at hkid
      rcases mem_append.mp hkid with hkid | hkid
      · apply names_of_findChild h hdold hfind' c hkid
        rw [← hname]
        exact (congrArg Node.name (hb.ext.old c hcold).2.symm :)
      · exact hnew c hkid hcold
    · rw [if_neg h0']
      have hsame := hb.findChild h h1 hdold hfind' h0'
      obtain rfl : c = c' := some.inj (hfind.symm.trans hsame)
      exact ⟨c, 0, hc', .old, rfl⟩
  | @new depth p _ hp _ hnew hp' =>
    rw [if_neg (Nat.succ_ne_zero _)]
    refine ⟨d, depth + 2, hd, ?_, rfl⟩
    exact .new (.new hp hcurr hnew hp') hclive ((hb.new curr hcurr hnew).2 c hkid) hparent

theorem At.missing (h : Linked fs.nodes fs.root live kids)
    (h1 : Linked fs1.nodes fs1.root live1 kids1)
    (hb : Built Rules.none fs bs live kids fs1 bs1 live1 kids1) (hd : Reached fs.root kids d)
    (hat : At live live1 fs1.nodes d depth curr) (hne : token ≠ dot) (hne' : token ≠ dotdot)
    (hfind : findChild fs1.nodes token (fs1.nodes curr).firstChild = some 0)
    (ts : Names) :
    walkEnd fs.nodes d depth (token :: ts) = walkEnd fs.nodes d (depth + 1) ts := by
  rw [walkEnd_cons, if_neg hne, if_neg hne']
  cases hat with
  | old =>
    obtain ⟨c', hfind', hc'⟩ := findChild_cases h hd token
    rw [if_pos rfl, hfind', bind_some]
    rcases hc' with rfl | ⟨h0', hc'⟩
    · rw [if_pos rfl]
    · have hsame := hb.findChild h h1 (h.reached_mem hd) hfind' h0'
      exact absurd (some.inj (hfind.symm.trans hsame)).symm h0'
  | new _ _ _ _ => rw [if_neg (Nat.succ_ne_zero _)]

theorem At.up (h : Linked fs.nodes fs.root live kids) (h1 : Linked fs1.nodes fs1.root live1 kids1)
    (hb : Built Rules.none fs bs live kids fs1 bs1 live1 kids1) (hd : Reached fs.root kids d)
    (hat : At live live1 fs1.nodes d depth curr) (ts : Names) :
    ∃ d' depth', Reached fs.root kids d' ∧ At live live1 fs1.nodes d' depth' (up fs1.nodes curr) ∧
      walkEnd fs.nodes d depth (dotdot :: ts) = walkEnd fs.nodes d' depth' ts := by
  have hdold := h.reached_mem hd
  rw [walkEnd_cons, if_neg (by decide), if_pos rfl]
  cases hat with
  | old =>
    rw [if_pos rfl, hb.up hdold]
    exact ⟨_, 0, up_reached h hd, .old, rfl⟩
  | @new depth p _ hp hn hnew hparent =>
    rw [if_neg (Nat.succ_ne_zero _), Tmpfs.up, hparent,
      if_pos (h1.ne_zero (hp.mem (hb.ext.old d hdold).1))]
    exact ⟨d, depth, hd, hp, rfl⟩

theorem createLoop_end (h : Sane foreign fs bs live kids) (isDir : Bool) (mode : Nat)
    (ts : Names) (h1 : Sane foreign fs1 bs1 live1 kids1)
    (hb : Built Rules.none fs bs live kids fs1 bs1 live1 kids1) (hd : Reached fs.root kids d)
    (hat : At live live1 fs1.nodes d depth curr) (hcurr : Reached fs1.root kids1 curr) :
    ∃ n fs' bs' live' kids', createLoop isDir mode fs1 curr ts = some (n, fs') ∧
      Sane foreign fs' bs' live' kids' ∧ Built Rules.none fs bs live kids fs' bs' live' kids' ∧
      (n = 0 ∧ failures fs1.heap < failures fs'.heap ∨ Reached fs'.root kids' n ∧
        ∃ d' depth', walkEnd fs.nodes d depth ts = some (d', depth') ∧ Reached fs.root kids d' ∧
          At live live' fs'.nodes d' depth' n) := by
  induction ts generalizing fs1 bs1 live1 kids1 d depth curr with
  | nil =>
    exact ⟨curr, fs1, bs1, live1, kids1, rfl, h1, hb, .inr ⟨hcurr, d, depth, rfl, hd, hat⟩⟩
  | cons t ts ih =>
    rw [createLoop_cons]
    by_cases hdot : t = dot
    · rw [if_pos hdot, walkEnd_cons, if_pos hdot]
      exact ih h1 hb hd hat hcurr
    by_cases hup : t = dotdot
    · obtain ⟨d', depth', hd', hat', hend⟩ := hat.up h.linked h1.linked hb hd ts
      rw [if_neg hdot, if_pos hup, hup, hend]
      exact ih h1 hb hd' hat' (up_reached h1.linked hcurr)
    rw [if_neg hdot, if_neg hup]
    obtain ⟨c, hfind, hc⟩ := findChild_cases h1.linked hcurr t
    rw [hfind, bind_some]
    rcases hc with rfl | ⟨h0, hc⟩
    · rw [if_neg (by simp), hat.missing h.linked h1.linked hb hd hdot hup hfind]
      have hmem := h1.linked.reached_mem hcurr
      obtain ⟨c, fs2, hadd, hcases⟩ := h1.addChild_cases hmem t
        (if ts.isEmpty then isDir else true) (if ts.isEmpty then mode else 0o755)
      rw [hadd, bind_some]
      rcases hcases with ⟨rfl, hframe, hs, hk, hfail, -⟩ |
        ⟨hc0, hcnot, hserved, hnew, bs2, hs, hgrown, hblock, -⟩
      · rw [if_pos rfl]
        exact ⟨0, fs2, bs1, live1, kids1, rfl, hs, hb.trans (built_of_heap hframe hk).1,
          Or.inl ⟨rfl, hfail⟩⟩
      · rw [if_neg hc0, ← hserved]
        have hb1 : Built Rules.none fs1 bs1 live1 kids1 fs2 bs2 (c :: live1) (grown kids1 curr c) :=
          built_of_add hmem hcnot (congrArg Node.name hnew :) (congrArg Node.refcount hnew :)
            hgrown.toExtends hblock trivial
        have hreach : Reached fs2.root (grown kids1 curr c) c := by
          rw [hb1.root]
          refine .child (hcurr.mono fun m hm d hd => mem_grown ?_ hd) (mem_grown_self _ _ _)
          rintro rfl
          exact hcnot (h1.linked.reached_mem hm)
        refine ih hs (hb.trans hb1) hd (.new (hat.grow hgrown.old) mem_cons_self ?_
          (congrArg Node.parent hnew :)) hreach
        exact fun hcold => hcnot (hb.ext.old c hcold).1
    · rw [if_pos h0]
      obtain ⟨d', depth', hd', hat', hend⟩ :=
        hat.found h.linked h1.linked hb hd hdot hup hfind h0 ts
      rw [hend]
      exact ih h1 hb hd' hat' hc

end Walk

theorem createAtPathInternal_nothing {path : Path} (hpath : ¬ ∃ p, path = some p ∧ p ≠ []) (fs : Fs)
    (base : Nat) (isDir : Bool) (mode : Nat) :
    createAtPathInternal fs base path isDir mode = some (0, fs) := by
  cases path with
  | none => rfl
  | some p =>
    have hp : p = [] := by
      by_contra hp
      exact hpath ⟨p, rfl, hp⟩
    rw [createAtPathInternal, if_pos (Or.inr hp)]

/-- An old node that the walk ends at is known before. -/
theorem createAtPathInternal_end {foreign : List Nat} {fs fs' : Fs} {bs : List Blk}
    {live : List Nat} {kids : Kids} (h : Sane foreign fs bs live kids) {base : Nat}
    (hbase : Reached fs.root kids base) {path : Path} {isDir : Bool} {mode : Nat}
    (hcreate : createAtPathInternal fs base path isDir mode = some (n, fs')) (h0 : n ≠ 0)
    (hold : n ∈ live) :
    ∃ p, path = some p ∧ p ≠ [] ∧
      walkEnd fs.nodes (startOf fs base p) 0 (tokens p) = some (n, 0) := by
  by_cases hpath : ∃ p, path = some p ∧ p ≠ []
  · obtain ⟨p, rfl, hp⟩ := hpath
    have hstart := startOf_reached hbase p
    obtain ⟨n', fs1, bs1, live1, kids1, hwalk, -, -, hn⟩ := createLoop_end h isDir mode
      (tokens p) h (.refl h.owns.sound) hstart .old hstart
    rw [createAtPathInternal_some (h.linked.ne_zero (h.linked.reached_mem hbase)) hp, hwalk,
      some.injEq, Prod.mk.injEq] at hcreate
    obtain ⟨rfl, -⟩ := hcreate
    obtain ⟨-, d, depth, hend, -, hat⟩ := hn.resolve_left fun hnull => h0 hnull.1
    rcases Nat.eq_zero_or_pos depth with rfl | hpos
    · obtain rfl := hat.eq_old
      exact ⟨p, rfl, hp, hend⟩
    · exact absurd hold (hat.not_mem hpos)
  · rw [createAtPathInternal_nothing hpath, some.injEq, Prod.mk.injEq] at hcreate
    exact absurd hcreate.1.symm h0

end Terrakernel.Tmpfs
