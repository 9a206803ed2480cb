import Terrakernel.Tmpfs.Encoding

/-!
# Loading one entry after the other

Before a file is made, `load_initrd` calls `mkdir` for each directory on its path, which empties
those that exist. So a file takes away what was loaded before.
-/

namespace Terrakernel.Tmpfs

open Links Memory Vmm Heap Paths Option
open List hiding Mem

variable {t trail : Bytes} {ts P q : Names} {m : Mem} {e : Entry} {es : List Entry}
  {frames : List Frame}

/-! ## The directories of a file -/

/-- `Q`, and the paths from it along `ts`, but the last one. -/
def parents : Names → Names → List (Names)
  | _, [] => []
  | Q, t :: ts => Q :: parents (Q ++ [t]) ts

theorem parentPaths_name (ht : ∀ b ∈ t, b ≠ slash) (before rest : Bytes) :
    parentPaths before (t ++ rest) = parentPaths (before ++ t) rest := by
  induction t generalizing before with
  | nil => rw [nil_append, append_nil]
  | cons b t ih =>
    rw [cons_append, parentPaths, if_neg (ht b mem_cons_self),
      ih (fun c hc => ht c (mem_cons_of_mem _ hc)), append_assoc, singleton_append]

theorem parentPaths_pathOf (hts : ∀ t ∈ ts, IsName t) (Q : Names) :
    parentPaths (pathOf Q) (pathOf ts) = (parents Q ts).map pathOf := by
  induction ts generalizing Q with
  | nil => rfl
  | cons t ts ih =>
    have hsnoc : pathOf Q ++ [slash] ++ t = pathOf (Q ++ [t]) := by simp [pathOf_append]
    rw [pathOf_cons, parentPaths, if_pos rfl, parentPaths_name (hts t mem_cons_self).noSlash,
      hsnoc, ih (fun u hu => hts u (mem_cons_of_mem _ hu)), parents, map_cons]

theorem tokens_path (hP : ∀ t ∈ P, IsName t) (hlen : (pathOf P).length < 256)
    (htrail : Trails trail) : tokens (pathOf P ++ trail) = P := by
  refine tokens_pathOf (fun t ht => (hP t ht).ne_nil) (fun t ht => (hP t ht).noSlash) htrail ?_
  rw [length_append]
  rcases htrail with rfl | rfl <;> simp <;> omega

/-- A path of directories and nothing else. -/
def chain (Q : Names) : View := fun q => if q <+: Q then some .dir else none

theorem withPath_chain (Q : Names) (t : Bytes) :
    withPath (chain Q) (Q ++ [t]) .dir = chain (Q ++ [t]) := by
  funext q
  unfold withPath chain
  by_cases hq : q <+: Q
  · rw [if_pos hq, some_or, if_pos (hq.trans (prefix_append Q [t]))]
  · rw [if_neg hq, none_or]
    by_cases hq' : q = Q ++ [t]
    · rw [if_pos hq', hq', if_pos (prefix_refl _)]
    · rw [if_neg hq']

section Ready

variable {foreign : List Nat} {fs : Fs} {bs : List Blk} {live : List Nat} {kids : Kids}
  (h : Ready foreign fs bs live kids)

include h

theorem Ready.mkdir (hne : P ≠ []) (hP : ∀ t ∈ P, IsName t) (hlen : (pathOf P).length < 256)
    (htrail : Trails trail) (mode : Nat) :
    ∃ r fs' foreign' bs' live' kids', mkdir fs (some (pathOf P ++ trail)) mode = some (r, fs') ∧
      Ready foreign' fs' bs' live' kids' ∧ Costs (P.length * nodeCost) fs.heap bs fs'.heap bs' ∧
      (failures fs'.heap = failures fs.heap → look fs kids P = none →
        Grew fs bs kids P .dir fs' bs' kids') ∧
      (look fs kids P ≠ none → bs' = bs ∧ Emptied fs bs kids P fs' kids') := by
  have htok := tokens_path hP hlen htrail
  have hp : pathOf P ++ trail ≠ [] := by simp [pathOf_ne_nil hne]
  cases hlook : look fs kids P with
  | none =>
    obtain ⟨r, fs', foreign', bs', live', kids', hrun, h', hcosts, hgrew⟩ :=
      h.mkdir_new hp htok hP hlook mode
    exact ⟨r, fs', foreign', bs', live', kids', hrun, h', hcosts,
      fun hserved _ => (hgrew hserved).2, fun hsome => absurd rfl hsome⟩
  | some n =>
    obtain ⟨fs', foreign', kids', hrun, h', hheap, hempty⟩ :=
      h.mkdir_old hp htok hne hP hlook mode
    refine ⟨0, fs', foreign', bs, live, kids', hrun, h', ?_, fun _ hno => absurd hno (by simp),
      fun _ => ⟨rfl, hempty⟩⟩
    rw [hheap]
    exact (Costs.refl _ _).le (Nat.zero_le _)

theorem Ready.mkdirs {Q : Names} (hP : ∀ u ∈ Q ++ [t] ++ ts, IsName u)
    (hlen : (pathOf (Q ++ [t] ++ ts)).length < 256) {L : Nat} (hL : (Q ++ [t] ++ ts).length ≤ L) :
    ∃ fs' foreign' bs' live' kids', ((parents (Q ++ [t]) ts).map pathOf).foldlM
        (fun fs p => (Tmpfs.mkdir fs (some p) 0o755).map Prod.snd) fs = some fs' ∧
      Ready foreign' fs' bs' live' kids' ∧
      Costs (ts.length * (L * nodeCost)) fs.heap bs fs'.heap bs' ∧
      (failures fs'.heap = failures fs.heap → Shows fs bs kids (chain Q) →
        Shows fs' bs' kids' (chain (Q ++ [t] ++ ts).dropLast)) := by
  induction ts generalizing foreign fs bs live kids Q t with
  | nil =>
    refine ⟨fs, foreign, bs, live, kids, rfl, h, (Costs.refl _ _).le (Nat.zero_le _), fun _ hV => ?_⟩
    rwa [append_nil, dropLast_concat]
  | cons u us ih =>
    have hsplit : Q ++ [t] ++ u :: us = Q ++ [t] ++ [u] ++ us := by simp
    have hpre : Q ++ [t] <+: Q ++ [t] ++ u :: us := prefix_append _ _
    have hQ : ∀ v ∈ Q ++ [t], IsName v := fun v hv => hP v (hpre.subset hv)
    have hQlen : (pathOf (Q ++ [t])).length < 256 := by
      rw [pathOf_append, length_append] at hlen
      omega
    obtain ⟨r, fs1, foreign1, bs1, live1, kids1, hrun, h1, hcosts, hgrew, -⟩ :=
      h.mkdir (by simp) hQ hQlen (Or.inl rfl) 0o755
    rw [hsplit] at hP hlen hL ⊢
    obtain ⟨fs', foreign', bs', live', kids', hrest, h', hcosts', hshows⟩ := ih h1 hP hlen hL
    refine ⟨fs', foreign', bs', live', kids', ?_, h', ?_, fun hserved hV => ?_⟩
    · rw [append_nil] at hrun
      rw [parents, map_cons, foldlM_cons, hrun]
      exact hrest
    · have hle : (Q ++ [t]).length * nodeCost ≤ L * nodeCost := by
        refine Nat.mul_le_mul_right _ (le_trans ?_ hL)
        simp
      rw [length_cons, Nat.succ_mul, Nat.add_comm]
      exact (hcosts.le hle).trans hcosts'
    · have := hcosts.mono
      have := hcosts'.mono
      have hno : look fs kids (Q ++ [t]) = none := by
        apply hV.none
        unfold chain
        rw [if_neg]
        intro hlong
        have := hlong.length_le
        simp at this
      have hV1 := (hgrew (by omega) hno).shows hV
      rw [withPath_chain] at hV1
      exact hshows (by omega) hV1

omit h in
/-- Nothing is outside of `/initrd`. -/
structure InitrdOnly (V : View) : Prop where
  dir : ∀ q, q <+: [initrdName] → V q = some .dir
  only : ∀ q, V q ≠ none → q <+: [initrdName] ∨ [initrdName] <+: q

omit h in
theorem Emptied.shows {fs' : Fs} {kids' : Kids} {V : View}
    (he : Emptied fs bs kids [initrdName] fs' kids') (hV : Shows fs bs kids V) (hin : InitrdOnly V) :
    Shows fs' bs kids' (chain [initrdName]) := by
  intro q
  unfold chain
  by_cases hq : q <+: [initrdName]
  · rw [if_pos hq]
    obtain ⟨n, hn, hkind⟩ := hV.some (hin.dir q hq)
    have hn' : look fs' kids' q = some n := by rw [he.stays q hq, hn]
    refine ⟨n, hn', ?_⟩
    by_cases hqi : q = [initrdName]
    · exact he.dir n (hqi ▸ hn)
    · exact he.kind q n .dir hn' hqi hkind
  · rw [if_neg hq]
    cases hn : look fs' kids' q with
    | none => rfl
    | some x =>
      have hVq : V q ≠ none := by
        intro hnone
        have := he.was q x hn
        rw [hV.none hnone] at this
        cases this
      have hbelow := (hin.only q hVq).resolve_left hq
      rw [he.below q hbelow (fun hqi => hq (hqi ▸ prefix_refl _))] at hn
      cases hn

theorem Ready.loadFile {ptr : Nat} (hne : e.path ≠ []) (hnames : ∀ t ∈ e.path, IsName t)
    (hshort : (pathOf e.place).length < 256) {data : Bytes}
    (hdata : bytesAt m (ptr + tarBlockSize) (fileSize m ptr) = data) (hmax : data.length ≤ 2 ^ 47) :
    ∃ fs' foreign' bs' live' kids', loadFile m ptr (pathOf e.place) fs = some fs' ∧
      Ready foreign' fs' bs' live' kids' ∧
      Costs (e.path.length * (e.place.length * nodeCost) +
        (e.place.length * nodeCost + (data.length + headerSize))) fs.heap bs fs'.heap bs' ∧
      (failures fs'.heap = failures fs.heap → ∀ V, Shows fs bs kids V → InitrdOnly V →
        Shows fs' bs' kids' (withPath (chain e.place.dropLast) e.place (.file data))) := by
  have hP := place_names hnames
  obtain ⟨c, cs, hpath⟩ := exists_cons_of_ne_nil hne
  have hplace : e.place = [initrdName] ++ [c] ++ cs := by rw [Entry.place, hpath]; rfl
  have hparents : parentPaths ((pathOf e.place).take 1) ((pathOf e.place).drop 1) =
      (parents [initrdName] e.path).map pathOf := by
    rw [← parentPaths_pathOf hnames]
    exact parentPaths_name (by decide) [slash] (pathOf e.path)
  -- `/initrd` itself
  obtain ⟨r, fs1, foreign1, bs1, live1, kids1, hrun1, h1, hcosts1, -, hempty⟩ :=
    h.mkdir (cons_ne_nil initrdName []) (by decide) (by decide) (Or.inl rfl) 0o755
  rw [append_nil] at hrun1
  -- the directories below it
  rw [hplace] at hP hshort
  obtain ⟨fs2, foreign2, bs2, live2, kids2, hrun2, h2, hcosts2, hshows2⟩ :=
    h1.mkdirs hP hshort (le_refl _)
  rw [← hplace] at hP hshort hcosts2 hshows2
  -- the file
  have htok := tokens_path hP hshort (Or.inl rfl)
  rw [append_nil] at htok
  obtain ⟨fs', bs', live', kids', hfill, h', hcosts', hgrew⟩ :=
    h2.fillFile (pathOf_ne_nil (cons_ne_nil _ _)) htok hP hmax
  refine ⟨fs', foreign2, bs', live', kids', ?_, h', ?_, fun hserved V hV hin => ?_⟩
  · have hdirs : ((parents [initrdName] e.path).map pathOf).foldlM
        (fun fs p => (Tmpfs.mkdir fs (some p) 0o755).map Prod.snd) fs = some fs2 := by
      rw [hpath, parents, map_cons, foldlM_cons, hrun1]
      exact hrun2
    rw [loadFile_eq, mkdirParents_eq, hparents, hdirs, bind_some, hdata]
    exact hfill
  · have hle : [initrdName].length * nodeCost ≤ e.place.length * nodeCost :=
      Nat.mul_le_mul_right _ (by simp)
    have hsum : e.path.length * (e.place.length * nodeCost) =
        e.place.length * nodeCost + cs.length * (e.place.length * nodeCost) := by
      rw [hpath, length_cons, Nat.succ_mul, Nat.add_comm]
    rw [hsum]
    exact ((hcosts1.le hle).trans hcosts2).trans hcosts'
  · have hm1 := hcosts1.mono
    have hm2 := hcosts2.mono
    have hm3 := hcosts'.mono
    have hsome : look fs kids [initrdName] ≠ none := by
      obtain ⟨n, hn, -⟩ := hV.some (hin.dir _ (prefix_refl _))
      rw [hn]
      exact some_ne_none n
    obtain ⟨rfl, hemptied⟩ := hempty hsome
    have hV2 := hshows2 (by omega) (hemptied.shows hV hin)
    have hno : look fs2 kids2 e.place = none := by
      apply hV2.none
      unfold chain
      rw [if_neg]
      intro hlong
      have := hlong.length_le
      rw [length_dropLast, length_cons] at this
      omega
    exact (hgrew (by omega) hno).shows hV2

end Ready

/-! ## What should be there -/

/-- The entries, with the directories on their paths. -/
def viewOf (es : List Entry) : View :=
  es.foldl (fun V e => withPath V e.place e.kind) (chain [initrdName])

theorem viewOf_snoc (es : List Entry) (e : Entry) :
    viewOf (es ++ [e]) = withPath (viewOf es) e.place e.kind := by
  rw [viewOf, foldl_append]
  rfl

theorem viewOf_eq_none : viewOf es q = none ↔ ¬ q <+: [initrdName] ∧ ∀ e ∈ es, ¬ q <+: e.place := by
  induction es using reverseRecOn with
  | nil => simp [viewOf, chain]
  | append_singleton es e ih =>
    rw [viewOf_snoc, withPath_eq_none, ih]
    simp only [mem_append, mem_singleton, or_imp, forall_and, forall_eq, and_assoc]

theorem initrdOnly_viewOf (es : List Entry) : InitrdOnly (viewOf es) := by
  constructor
  · intro q hq
    induction es using reverseRecOn with
    | nil => exact if_pos hq
    | append_singleton es e ih =>
      rw [viewOf_snoc]
      exact withPath_of_some ih _ _
  · intro q hq
    by_contra hno
    rw [not_or] at hno
    refine hq (viewOf_eq_none.mpr ⟨hno.1, fun e _ hpre => ?_⟩)
    cases q with
    | nil => exact hno.1 nil_prefix
    | cons t q =>
      rw [Entry.place, cons_prefix_cons] at hpre
      exact hno.2 (cons_prefix_cons.mpr ⟨hpre.1.symm, nil_prefix⟩)

/-- The path of the device file. -/
abbrev devPlace : Names := [devName, initrdName]

theorem devPlace_apart (e : Entry) : ¬ devPlace <+: e.place := by
  rw [Entry.place, cons_prefix_cons]
  exact fun hpre => absurd hpre.1 (by decide)

theorem viewOf_devPlace (es : List Entry) : viewOf es devPlace = none :=
  viewOf_eq_none.mpr ⟨by decide, fun e _ => devPlace_apart e⟩

theorem viewOf_dirs (h : ∀ e ∈ es, e.kind = .dir) {k : Kind} (hq : viewOf es q = some k) :
    k = .dir := by
  induction es using reverseRecOn with
  | nil =>
    rw [viewOf, foldl_nil, chain, ite_none_right_eq_some] at hq
    exact (some.inj hq.2).symm
  | append_singleton es e ih =>
    rw [viewOf_snoc, withPath, h e (by simp)] at hq
    cases hold : viewOf es q with
    | some k' =>
      rw [hold, some_or] at hq
      exact ih (fun e' he => h e' (mem_append_left _ he)) (hold.trans hq)
    | none =>
      rw [hold, none_or] at hq
      split_ifs at hq
      · exact (some.inj hq).symm
      · exact (some.inj hq).symm

theorem prefix_dropLast (h : q <+: P) (hne : q ≠ P) : q <+: P.dropLast := by
  cases P using reverseRecOn with
  | nil => exact h
  | append_singleton P t =>
    rw [dropLast_concat]
    exact (prefix_concat_iff.mp h).resolve_left hne

/-- Whether the entry `e` is still there when `e'` has been loaded after it. -/
def Survives (e e' : Entry) : Prop :=
  match e'.kind with
  | .dir => ¬ e'.path <+: e.path
  | .file _ => e.kind = .dir ∧ e.path <+: e'.path

theorem ValidEntries.sublist {es' : List Entry} (h : ValidEntries es) (hsub : es'.Sublist es) :
    ValidEntries es' :=
  ⟨fun e he => h.nonempty e (hsub.subset he), fun e he => h.names e (hsub.subset he),
    fun e he => h.short e (hsub.subset he), h.distinct.sublist (hsub.map _),
    fun e he hk e' he' => h.files e (hsub.subset he) hk e' (hsub.subset he')⟩

section Valid

variable {es : List Entry} {e : Entry} (hvalid : ValidEntries (es ++ [e]))

include hvalid

theorem ValidEntries.path_ne {e' : Entry} (he : e' ∈ es) : e'.path ≠ e.path := by
  have hd := hvalid.distinct
  rw [map_append] at hd
  exact (nodup_append.mp hd).2.2 _ (List.mem_map_of_mem he) _ (by simp)

theorem ValidEntries.viewOf_place (hall : ∀ e' ∈ es, Survives e' e) : viewOf es e.place = none := by
  rw [viewOf_eq_none]
  constructor
  · intro hpre
    have := hpre.length_le
    rw [length_cons, length_singleton] at this
    exact hvalid.nonempty e (by simp) (length_eq_zero_iff.mp (by omega))
  · intro e' he hpre
    rw [Entry.place, Entry.place, cons_prefix_cons] at hpre
    have hs := hall e' he
    unfold Survives at hs
    cases hk : e.kind with
    | dir =>
      rw [hk] at hs
      exact hs hpre.2
    | file data =>
      rw [hk] at hs
      exact hvalid.path_ne he (hs.2.eq_of_length_le hpre.2.length_le)

theorem ValidEntries.viewOf_file (hk : e.kind ≠ .dir) (hall : ∀ e' ∈ es, Survives e' e) :
    viewOf (es ++ [e]) = withPath (chain e.place.dropLast) e.place e.kind := by
  have hdirs : ∀ e' ∈ es, e'.kind = .dir ∧ e'.path <+: e.path := by
    intro e' he
    have hs := hall e' he
    unfold Survives at hs
    cases hkind : e.kind with
    | dir => exact absurd hkind hk
    | file data => rwa [hkind] at hs
  have honly : ∀ q, viewOf es q ≠ none → q <+: e.place.dropLast := by
    intro q hq
    by_contra hno
    refine hq (viewOf_eq_none.mpr ⟨fun hpre => hno (hpre.trans ?_), fun e' he hpre => hno (hpre.trans ?_)⟩)
    · refine prefix_dropLast (cons_prefix_cons.mpr ⟨rfl, nil_prefix⟩) ?_
      intro heq
      exact hvalid.nonempty e (by simp) (List.cons.inj heq).2.symm
    · refine prefix_dropLast (cons_prefix_cons.mpr ⟨rfl, (hdirs e' he).2⟩) ?_
      intro heq
      exact hvalid.path_ne he (List.cons.inj heq).2
  rw [viewOf_snoc]
  funext q
  cases hq : viewOf es q with
  | some k =>
    rw [withPath_of_some hq, withPath_of_some]
    rw [chain, if_pos (honly q (by simp [hq])), viewOf_dirs (fun e' he => (hdirs e' he).1) hq]
  | none =>
    by_cases hpre : q <+: e.place.dropLast
    · have hne : q ≠ e.place := by
        rintro rfl
        have := hpre.length_le
        rw [length_dropLast, length_cons] at this
        omega
      have hplace : q <+: e.place := hpre.trans (List.dropLast_prefix _)
      rw [withPath, hq, none_or, if_neg hne, if_pos hplace, withPath_of_some (if_pos hpre)]
    · rw [withPath, withPath, hq, chain, if_neg hpre]

end Valid

/-! ## One entry -/

/-- What an entry takes from the heap at most. -/
def entryCost (e : Entry) : Nat :=
  match e.kind with
  | .dir => e.place.length * nodeCost
  | .file data => e.path.length * (e.place.length * nodeCost) +
      (e.place.length * nodeCost + (data.length + headerSize))

/-- What is to be seen after the entry `e` behind `es`. -/
def Loaded (es : List Entry) (e : Entry) (fs : Fs) (bs : List Blk) (kids : Kids) (fs' : Fs)
    (bs' : List Blk) (kids' : Kids) : Prop :=
  failures fs'.heap = failures fs.heap → Shows fs bs kids (viewOf es) →
    ((∀ e' ∈ es, Survives e' e) → Shows fs' bs' kids' (viewOf (es ++ [e]))) ∧
    (∀ e' ∈ es, ¬ Survives e' e → look fs' kids' e'.place = none) ∧ look fs' kids' devPlace = none

section LoadEntry

variable {foreign : List Nat} {fs : Fs} {bs : List Blk} {live : List Nat} {kids : Kids}
  (h : Ready foreign fs bs live kids) {es : List Entry} {e : Entry}
  (hvalid : ValidEntries (es ++ [e])) {m : Mem} {ptr : Nat}

include h hvalid

theorem Ready.loadDirectory (hk : e.kind = .dir) (htrail : trail = [] ∨ trail = [slash]) :
    ∃ r fs' foreign' bs' live' kids',
      Tmpfs.mkdir fs (some (pathOf e.place ++ trail)) 0o755 = some (r, fs') ∧
      Ready foreign' fs' bs' live' kids' ∧ Costs (entryCost e) fs.heap bs fs'.heap bs' ∧
      Loaded es e fs bs kids fs' bs' kids' := by
  have hmem : e ∈ es ++ [e] := by simp
  obtain ⟨r, fs', foreign', bs', live', kids', hrun, h', hcosts, hgrew, hempty⟩ :=
    h.mkdir (cons_ne_nil _ _) (place_names (hvalid.names e hmem)) (hvalid.short e hmem) htrail
      0o755
  refine ⟨r, fs', foreign', bs', live', kids', hrun, h', ?_, fun hserved hV => ⟨fun hall => ?_, ?_, ?_⟩⟩
  · rw [entryCost, hk]
    exact hcosts
  · have hno := hvalid.viewOf_place hall
    rw [viewOf_snoc, hk]
    exact (hgrew hserved (hV.none hno)).shows hV
  · intro e' he hgone
    unfold Survives at hgone
    rw [hk, not_not] at hgone
    have hpre : e.place <+: e'.place := cons_prefix_cons.mpr ⟨rfl, hgone⟩
    have hthere : look fs kids e.place ≠ none := by
      cases hv : viewOf es e.place with
      | none => exact absurd hpre ((viewOf_eq_none.mp hv).2 e' he)
      | some k =>
        obtain ⟨n, hn, -⟩ := hV.some hv
        rw [hn]
        exact some_ne_none n
    refine (hempty hthere).2.below _ hpre fun heq => ?_
    exact hvalid.path_ne he (List.cons.inj heq).2
  · have hdev := hV.none (viewOf_devPlace es)
    cases hlook : look fs kids e.place with
    | none => exact (hgrew hserved hlook).missing _ hdev (devPlace_apart e)
    | some n =>
      cases hx : look fs' kids' devPlace with
      | none => rfl
      | some x =>
        rw [(hempty (by simp [hlook])).2.was _ x hx] at hdev
        cases hdev

theorem Ready.loadRegular {data : Bytes} (hk : e.kind = .file data)
    (hdata : bytesAt m (ptr + tarBlockSize) (fileSize m ptr) = data) (hmax : data.length ≤ 2 ^ 47) :
    ∃ fs' foreign' bs' live' kids', Tmpfs.loadFile m ptr (pathOf e.place) fs = some fs' ∧
      Ready foreign' fs' bs' live' kids' ∧ Costs (entryCost e) fs.heap bs fs'.heap bs' ∧
      Loaded es e fs bs kids fs' bs' kids' := by
  have hmem : e ∈ es ++ [e] := by simp
  have hkd : e.kind ≠ .dir := by rw [hk]; simp
  obtain ⟨fs', foreign', bs', live', kids', hrun, h', hcosts, hshows⟩ :=
    h.loadFile (hvalid.nonempty e hmem) (hvalid.names e hmem) (hvalid.short e hmem) hdata hmax
  refine ⟨fs', foreign', bs', live', kids', hrun, h', ?_, fun hserved hV => ?_⟩
  · rw [entryCost, hk]
    exact hcosts
  · have hV' := hshows hserved _ hV (initrdOnly_viewOf es)
    have hoffnone : ∀ {q}, ¬ q <+: e.place → look fs' kids' q = none := by
      intro q hoff
      apply hV'.none
      rw [withPath_eq_none, chain, if_neg fun hpre => hoff (hpre.trans (List.dropLast_prefix _))]
      exact ⟨rfl, hoff⟩
    refine ⟨fun hall => ?_, fun e' he hgone => hoffnone ?_, hoffnone (devPlace_apart e)⟩
    · rw [hvalid.viewOf_file hkd hall, hk]
      exact hV'
    · -- No file is on the path of another entry.
      intro hpre
      rw [Entry.place, Entry.place, cons_prefix_cons] at hpre
      unfold Survives at hgone
      rw [hk] at hgone
      by_cases hdir : e'.kind = .dir
      · exact hgone ⟨hdir, hpre.2⟩
      · have := hvalid.files e' (by simp [he]) hdir e hmem hpre.2
        exact hvalid.path_ne he (by rw [this])

theorem Ready.loadEntry {f : Frame} (henc : Encodes e f) (hf : f.Valid) (hheld : Holds m ptr f.bytes)
    (hfit : ptr + f.size ≤ word) :
    ∃ fs' foreign' bs' live' kids', loadEntry m ptr fs = some fs' ∧
      Ready foreign' fs' bs' live' kids' ∧ Costs (entryCost e) fs.heap bs fs'.heap bs' ∧
      Loaded es e fs bs kids fs' bs' kids' := by
  have hmem : e ∈ es ++ [e] := by simp
  have hnames := hvalid.names e hmem
  obtain ⟨trail, htrail, hfile, hclean⟩ :=
    henc.cleanPath_eq hf hheld hfit hnames (hvalid.short e hmem)
  obtain ⟨hdirflag, hfileflag⟩ := henc.typeflag_eq hf hheld hfit
  unfold Tmpfs.loadEntry
  rw [if_neg (henc.not_skipped hf hheld hfit hnames), hclean]
  cases hk : e.kind with
  | dir =>
    obtain ⟨r, fs', foreign', bs', live', kids', hrun, hrest⟩ := h.loadDirectory hvalid hk htrail
    refine ⟨fs', foreign', bs', live', kids', ?_, hrest⟩
    rw [if_pos (hdirflag hk), hrun]
    rfl
  | file data =>
    have hkd : e.kind ≠ .dir := by rw [hk]; simp
    have hdata : bytesAt m (ptr + tarBlockSize) (fileSize m ptr) = data := by
      have hkind := henc.kind
      rw [hk] at hkind
      rw [hf.data_eq hheld hfit, hkind.2]
    have hmax : data.length ≤ 2 ^ 47 := by
      have := hf.small
      rw [← hf.fileSize_eq hheld hfit] at this
      rw [← hdata, bytesAt, length_map, length_range]
      omega
    have hflag := hfileflag hkd
    have hnotdir : typeflag m ptr ≠ 0x35 := by
      rcases hflag with hflag | hflag <;> rw [hflag] <;> decide
    rw [if_neg hnotdir, if_pos hflag, hfile hkd, append_nil]
    exact h.loadRegular hvalid hk hdata hmax

end LoadEntry

/-! ## All entries -/

theorem offsets_snoc (base : Nat) (frames : List Frame) (f : Frame) :
    offsets base (frames ++ [f]) = offsets base frames ++ [base + totalSize frames] := by
  induction frames generalizing base with
  | nil => rfl
  | cons g frames ih =>
    rw [cons_append, offsets, ih, offsets, cons_append, Nat.add_assoc]
    rfl

theorem totalSize_snoc (frames : List Frame) (f : Frame) :
    totalSize (frames ++ [f]) = totalSize frames + f.size := by
  simp [totalSize]

theorem forall₂_snoc {α β : Type} {R : α → β → Prop} {l : List α} {a : α} {r : List β}
    (h : Forall₂ R (l ++ [a]) r) : ∃ r' b, r = r' ++ [b] ∧ Forall₂ R l r' ∧ R a b := by
  induction l generalizing r with
  | nil =>
    obtain ⟨b, r', hab, hnil, rfl⟩ := forall₂_cons_left_iff.mp h
    obtain rfl := forall₂_nil_left_iff.mp hnil
    exact ⟨[], b, rfl, .nil, hab⟩
  | cons x l ih =>
    obtain ⟨y, r', hxy, hrest, rfl⟩ := forall₂_cons_left_iff.mp h
    obtain ⟨r'', b, rfl, hl, hab⟩ := ih hrest
    exact ⟨y :: r'', b, rfl, .cons hxy hl, hab⟩

def totalCost (es : List Entry) : Nat := (es.map entryCost).sum

theorem Ready.loadAll {foreign : List Nat} {fs : Fs} {bs : List Blk} {live : List Nat}
    {kids : Kids} (h : Ready foreign fs bs live kids)
    (henc : Forall₂ Encodes es frames) (hvalid : ValidEntries es) (hf : ∀ f ∈ frames, f.Valid)
    {base : Nat} (hheld : Holds m base (frames.flatMap Frame.bytes))
    (hfit : base + totalSize frames ≤ word) :
    ∃ fs' foreign' bs' live' kids', loadAll m (offsets base frames) fs = some fs' ∧
      Ready foreign' fs' bs' live' kids' ∧ Costs (totalCost es) fs.heap bs fs'.heap bs' ∧
      (failures fs'.heap = failures fs.heap → Shows fs bs kids (viewOf []) →
        (es.Pairwise Survives → Shows fs' bs' kids' (viewOf es)) ∧
        ∀ es' e, es = es' ++ [e] → es'.Pairwise Survives →
          (∀ e' ∈ es', ¬ Survives e' e → look fs' kids' e'.place = none) ∧
          look fs' kids' devPlace = none) := by
  induction es using reverseRecOn generalizing frames with
  | nil =>
    obtain rfl := forall₂_nil_left_iff.mp henc
    refine ⟨fs, foreign, bs, live, kids, rfl, h, .refl _ _, fun _ hV => ⟨fun _ => hV, ?_⟩⟩
    intro es' e hes
    exact absurd hes (by simp)
  | append_singleton es e ih =>
    obtain ⟨frames, f, rfl, henc, he⟩ := forall₂_snoc henc
    have hf' : ∀ g ∈ frames, g.Valid := fun g hg => hf g (mem_append_left _ hg)
    rw [flatMap_append, flatMap_singleton, holds_append, length_frames hf'] at hheld
    rw [totalSize_snoc] at hfit
    obtain ⟨fs1, foreign1, bs1, live1, kids1, hrun1, h1, hcosts1, hshows1⟩ :=
      ih henc (hvalid.sublist (sublist_append_left _ _)) hf' hheld.1 (by omega)
    obtain ⟨fs', foreign', bs', live', kids', hrun, h', hcosts, hshows⟩ :=
      h1.loadEntry hvalid he (hf f (by simp)) hheld.2 (by omega)
    have hmono1 := hcosts1.mono
    have hmono := hcosts.mono
    refine ⟨fs', foreign', bs', live', kids', ?_, h', ?_, fun hserved hV => ⟨fun hall => ?_, ?_⟩⟩
    · rw [offsets_snoc, Tmpfs.loadAll, foldlM_append]
      rw [Tmpfs.loadAll] at hrun1
      rw [hrun1]
      simp [hrun]
    · rw [totalCost, map_append, List.sum_append, map_singleton, sum_singleton]
      exact hcosts1.trans hcosts
    · obtain ⟨hinit, -, hlast⟩ := pairwise_append.mp hall
      refine (hshows (by omega) ((hshows1 (by omega) hV).1 hinit)).1 fun e' he' => ?_
      exact hlast e' he' e (by simp)
    · intro es' e' hes hinit
      obtain ⟨rfl, hee⟩ := append_inj' hes rfl
      obtain rfl := (List.cons.inj hee).1
      exact (hshows (by omega) ((hshows1 (by omega) hV).1 hinit)).2

theorem viewOf_of_mem (hvalid : ValidEntries es) (hall : es.Pairwise Survives) (he : e ∈ es) :
    viewOf es e.place = some e.kind := by
  induction es using reverseRecOn with
  | nil => cases he
  | append_singleton es e0 ih =>
    obtain ⟨hinit, -, hlast⟩ := pairwise_append.mp hall
    rw [viewOf_snoc]
    rcases mem_append.mp he with he | he
    · exact withPath_of_some (ih (hvalid.sublist (sublist_append_left _ _)) hinit he) _ _
    · rw [mem_singleton.mp he]
      exact withPath_self (hvalid.viewOf_place fun e' he' => hlast e' he' e0 (by simp)) _

end Terrakernel.Tmpfs
