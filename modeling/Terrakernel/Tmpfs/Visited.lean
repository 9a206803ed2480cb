import Terrakernel.Tmpfs.Walk

/-!
# The nodes along a path

What `resolve_path` finds depends on the nodes it comes to and on nothing else.
-/

namespace Terrakernel.Tmpfs

open Memory Vmm Links List Option

variable {m curr x : Nat} {t : Bytes} {ts : Names}

/-- The nodes that the loop of `resolve_path` comes to, with its start. -/
def walk (nodes : Nat → Node) : Nat → Names → List Nat
  | curr, [] => [curr]
  | curr, token :: rest =>
    curr ::
      if token = dot then walk nodes curr rest
      else if token = dotdot then walk nodes (up nodes curr) rest
      else
        match findChild nodes token (nodes curr).firstChild with
        | none => []
        | some child => if child = 0 then [] else walk nodes child rest

/-- Those of a whole path. -/
def visited (fs : Fs) (path : Path) : List Nat :=
  match path with
  | none => []
  | some p => if fs.cwd = 0 then [] else walk fs.nodes (startOf fs fs.cwd p) (tokens p)

theorem self_mem_walk (nodes : Nat → Node) (curr : Nat) (ts : Names) :
    curr ∈ walk nodes curr ts := by
  cases ts with
  | nil => exact mem_singleton_self _
  | cons t ts => exact mem_cons_self

section Step

variable {nodes : Nat → Node} {root : Nat} {live : List Nat} {kids : Kids}
  (h : Linked nodes root live kids)

include h

theorem Linked.resolveLoop_step (hm : m ∈ live) (h1 : t ≠ dot) (h2 : t ≠ dotdot)
    (ts : Names) :
    resolveLoop nodes m (t :: ts) =
      match named nodes kids m t with
      | none => some 0
      | some c => resolveLoop nodes c ts := by
  rw [resolveLoop_cons, if_neg h1, if_neg h2, findChild_spec h hm]
  unfold named
  cases hfind : (kids m).find? fun c => (nodes c).name = t with
  | none => rfl
  | some c => simp [h.named_ne_zero hm hfind]

theorem Linked.walk_step (hm : m ∈ live) (h1 : t ≠ dot) (h2 : t ≠ dotdot) (ts : Names) :
    walk nodes m (t :: ts) = m ::
      match named nodes kids m t with
      | none => []
      | some c => walk nodes c ts := by
  rw [walk, if_neg h1, if_neg h2, findChild_spec h hm]
  unfold named
  cases hfind : (kids m).find? fun c => (nodes c).name = t with
  | none => rfl
  | some c => simp [h.named_ne_zero hm hfind]

theorem Linked.walk_reached (hcurr : Reached root kids curr) (ts : Names) :
    ∀ m ∈ walk nodes curr ts, Reached root kids m := by
  induction ts generalizing curr with
  | nil =>
    intro m hm
    rwa [mem_singleton.mp hm]
  | cons t ts ih =>
    intro m hm
    by_cases h1 : t = dot
    · rw [walk, if_pos h1, mem_cons] at hm
      rcases hm with rfl | hm
      · exact hcurr
      · exact ih hcurr m hm
    by_cases h2 : t = dotdot
    · rw [walk, if_neg h1, if_pos h2, mem_cons] at hm
      rcases hm with rfl | hm
      · exact hcurr
      · exact ih (up_reached h hcurr) m hm
    rw [h.walk_step (h.reached_mem hcurr) h1 h2, mem_cons] at hm
    rcases hm with rfl | hm
    · exact hcurr
    · cases hfind : named nodes kids curr t with
      | none => simp [hfind] at hm
      | some c =>
        rw [hfind] at hm
        exact ih (.child hcurr (named_some hfind).1) m hm

/-! ## Two trees -/

theorem Linked.resolveLoop_along {nodes' : Nat → Node} {root' : Nat} {live' : List Nat}
    {kids' : Kids} (h' : Linked nodes' root' live' kids') {P : Nat → Prop}
    (hlive : ∀ m, P m → m ∈ live ∧ m ∈ live') (hup : ∀ m, P m → up nodes' m = up nodes m)
    (hsome : ∀ m t c, P m → P c → named nodes kids m t = some c → named nodes' kids' m t = some c)
    (hnone : x = 0 → ∀ m t, P m → named nodes kids m t = none → named nodes' kids' m t = none)
    (hwalk : ∀ m ∈ walk nodes curr ts, P m) (hres : resolveLoop nodes curr ts = some x) :
    resolveLoop nodes' curr ts = some x := by
  induction ts generalizing curr with
  | nil => exact hres
  | cons t ts ih =>
    have hcurr : P curr := hwalk curr (self_mem_walk ..)
    by_cases h1 : t = dot
    · rw [walk, if_pos h1] at hwalk
      rw [resolveLoop_cons, if_pos h1] at hres ⊢
      exact ih (fun m hm => hwalk m (mem_cons_of_mem _ hm)) hres
    by_cases h2 : t = dotdot
    · rw [walk, if_neg h1, if_pos h2] at hwalk
      rw [resolveLoop_cons, if_neg h1, if_pos h2] at hres ⊢
      rw [hup curr hcurr]
      exact ih (fun m hm => hwalk m (mem_cons_of_mem _ hm)) hres
    rw [h.walk_step (hlive curr hcurr).1 h1 h2] at hwalk
    rw [h.resolveLoop_step (hlive curr hcurr).1 h1 h2] at hres
    rw [h'.resolveLoop_step (hlive curr hcurr).2 h1 h2]
    cases hfind : named nodes kids curr t with
    | none =>
      rw [hfind] at hres
      rw [hnone (some.inj hres).symm curr t hcurr hfind]
      exact hres
    | some c =>
      rw [hfind] at hres hwalk
      have hc : P c := hwalk c (mem_cons_of_mem _ (self_mem_walk ..))
      rw [hsome curr t c hcurr hc hfind]
      exact ih (fun m hm => hwalk m (mem_cons_of_mem _ hm)) hres

/-! ## Down the tree -/

theorem Linked.not_below {c : Nat} (hm : Reached root kids m) (hc : c ∈ kids m) :
    ¬ Reached c kids m := by
  induction hm generalizing c with
  | root =>
    intro hbelow
    cases hbelow with
    | root => exact h.ne_root h.root_mem hc rfl
    | child hd hroot =>
      exact h.ne_root (h.reached_mem (hd.of_child hc)) hroot rfl
  | @child p m hp hm ih =>
    intro hbelow
    have hplive := h.reached_mem hp
    have hparent : (nodes m).parent = p := (h.child p hplive m hm).2
    -- One step up from both ends.
    refine ih hm ?_
    cases hbelow with
    | root =>
      have := (h.child m (h.reached_mem (.child hp hm)) m hc).2
      rw [hparent] at this
      rw [this]
      exact .root
    | @child d _ hd hmd =>
      have hdlive : d ∈ live := h.reached_mem ((Reached.child (.child hp hm) hc).trans hd)
      have := (h.child d hdlive m hmd).2
      rw [hparent] at this
      exact this ▸ hd.of_child hc

theorem Linked.walk_above (hcurr : curr ∈ live) (hdot : dot ∉ ts) (hdotdot : dotdot ∉ ts)
    (hx : resolveLoop nodes curr ts = some x) (hx0 : x ≠ 0) :
    ∀ m ∈ walk nodes curr ts, Reached m kids x := by
  induction ts generalizing curr with
  | nil =>
    intro m hm
    rw [mem_singleton.mp hm, some.inj hx]
    exact .root
  | cons t ts ih =>
    rw [mem_cons, not_or] at hdot hdotdot
    rw [h.resolveLoop_step hcurr (Ne.symm hdot.1) (Ne.symm hdotdot.1)] at hx
    rw [h.walk_step hcurr (Ne.symm hdot.1) (Ne.symm hdotdot.1)]
    cases hfind : named nodes kids curr t with
    | none =>
      rw [hfind] at hx
      exact absurd (some.inj hx).symm hx0
    | some c =>
      rw [hfind] at hx
      have hc := (named_some hfind).1
      have hall := ih (h.child curr hcurr c hc).1 hdot.2 hdotdot.2 hx
      intro m hm
      rcases mem_cons.mp hm with rfl | hm
      · exact (hall c (self_mem_walk ..)).of_child hc
      · exact hall m hm

theorem Linked.resolveLoop_snoc (hm : resolveLoop nodes curr ts = some m) (hmlive : m ∈ live)
    (h1 : t ≠ dot) (h2 : t ≠ dotdot) :
    resolveLoop nodes curr (ts ++ [t]) = some ((named nodes kids m t).getD 0) := by
  rw [resolveLoop_append [t] hm (h.ne_zero hmlive), h.resolveLoop_step hmlive h1 h2]
  cases named nodes kids m t <;> rfl

theorem Linked.resolveLoop_last (hcurr : Reached root kids curr) (h1 : t ≠ dot) (h2 : t ≠ dotdot)
    (hx : resolveLoop nodes curr (ts ++ [t]) = some x) (hx0 : x ≠ 0) :
    ∃ m, resolveLoop nodes curr ts = some m ∧ Reached root kids m ∧
      named nodes kids m t = some x := by
  obtain ⟨m, hm, hreached⟩ := resolveLoop_spec h hcurr ts
  rcases hreached with rfl | hreached
  · rw [resolveLoop_append_missing [t] (h.ne_zero (h.reached_mem hcurr)) hm] at hx
    exact absurd (some.inj hx).symm hx0
  · rw [h.resolveLoop_snoc hm (h.reached_mem hreached) h1 h2, some.injEq] at hx
    refine ⟨m, hm, hreached, ?_⟩
    cases hfind : named nodes kids m t with
    | none => exact absurd (by simpa [hfind] using hx.symm) hx0
    | some c => exact congrArg some (by simpa [hfind] using hx)

end Step

/-! ## Paths that end with a name -/

/-- The path asks `d` for `t`. -/
structure Asks (fs : Fs) (path : Bytes) (d : Nat) (t : Bytes) : Prop where
  walked : ∃ ts, tokens path = ts ++ [t] ∧
    resolveLoop fs.nodes (startOf fs fs.cwd path) ts = some d
  dir : d ≠ 0
  plain : t ≠ dot ∧ t ≠ dotdot

section Asks

variable {fs : Fs} {live : List Nat} {kids : Kids} {path : Bytes} {d : Nat}
  {t : Bytes} (ha : Asks fs path d t) (h : Linked fs.nodes fs.root live kids)
  (hcwd : Reached fs.root kids fs.cwd)

include ha h hcwd

theorem Asks.reached : Reached fs.root kids d := by
  obtain ⟨ts, -, hwalk⟩ := ha.walked
  obtain ⟨x, hx, hreached⟩ := resolveLoop_spec h (startOf_reached hcwd path) ts
  obtain rfl : x = d := some.inj (hx.symm.trans hwalk)
  exact hreached.resolve_left ha.dir

theorem Asks.named_cases (hx : resolvePath fs (some path) = some x) :
    x = 0 ∧ named fs.nodes kids d t = none ∨ named fs.nodes kids d t = some x := by
  obtain ⟨ts, hts, hwalk⟩ := ha.walked
  rw [resolvePath_some (h.ne_zero (h.reached_mem hcwd)), hts] at hx
  rw [h.resolveLoop_snoc hwalk (h.reached_mem (ha.reached h hcwd)) ha.plain.1 ha.plain.2] at hx
  cases hfind : named fs.nodes kids d t with
  | none => exact .inl ⟨by simpa [hfind] using hx.symm, rfl⟩
  | some c => exact .inr (by simpa [hfind] using hx)

end Asks

end Terrakernel.Tmpfs
