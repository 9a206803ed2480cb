import Terrakernel.Tmpfs.Loading
import Terrakernel.Tmpfs.Ops

/-!
# Whether every entry is there afterwards

An archive is loaded completely if each entry survives all those behind it.
-/

namespace Terrakernel.Tmpfs

open Links Memory Vmm Heap Paths Option
open List hiding Mem

variable {m : Mem} {frames : List Frame} {fs : Fs} {bs : List Blk} {foreign : List Nat} {e : Entry}
  {es : List Entry} {n : Nat}

/-! ## The whole of `load_initrd` -/

theorem Archive.loadLoop_eq {base size : Nat} (h : Archive m base size frames)
    (htop : base + size + tarBlockSize < word) (fs : Fs) :
    loadLoop m ((base + size) % word) word base fs = loadAll m (offsets base frames) fs := by
  have hfits := h.fits
  rw [Nat.mod_eq_of_lt (by omega)]
  exact Tmpfs.loadLoop_eq (h.headers htop (by omega : totalSize frames < word)).1 fs

theorem shows_empty (hdir : (fs.nodes fs.root).isDir = true) :
    Shows fs bs (fun _ => []) (chain []) := by
  intro q
  cases q with
  | nil => exact ⟨fs.root, rfl, hdir⟩
  | cons t q =>
    have hno : ¬ t :: q <+: [] := by simp
    rw [chain, if_neg hno]
    rfl

theorem Ready.loadInitrd (h : Ready foreign fs bs [fs.root] fun _ => [])
    (hdir : (fs.nodes fs.root).isDir = true) {base size : Nat} (harch : Archive m base size frames)
    (htop : base + size + tarBlockSize < word) (henc : Forall₂ Encodes es frames)
    (hvalid : ValidEntries es) :
    ∃ fs' foreign' bs' live' kids', loadInitrd m base size fs = some fs' ∧
      Ready foreign' fs' bs' live' kids' ∧
      Costs (nodeCost + totalCost es + (2 * nodeCost + headerSize)) fs.heap bs fs'.heap bs' ∧
      (failures fs'.heap = failures fs.heap →
        (es.Pairwise Survives → ∀ e ∈ es, ∃ n, look fs' kids' e.place = some n ∧
          HasKind fs' bs' n e.kind) ∧
        ∀ es' e, es = es' ++ [e] → es'.Pairwise Survives →
          ∀ e' ∈ es', ¬ Survives e' e → look fs' kids' e'.place = none) := by
  have hfits := harch.fits
  obtain ⟨r, fs1, foreign1, bs1, live1, kids1, hmk, h1, hcosts1, hgrew1, -⟩ :=
    h.mkdir (cons_ne_nil initrdName []) (by decide) (by decide) (Or.inl rfl) 0o755
  obtain ⟨fs2, foreign2, bs2, live2, kids2, hload, h2, hcosts2, hshows⟩ :=
    h1.loadAll henc hvalid harch.valid harch.holds (by omega)
  obtain ⟨fs', bs', live', kids', hdevice, h', hcosts', hgrew⟩ := h2.makeDeviceFile
  have hm1 := hcosts1.mono
  have hm2 := hcosts2.mono
  have hm' := hcosts'.mono
  refine ⟨fs', foreign2, bs', live', kids', ?_, h', ?_, fun hserved => ?_⟩
  · have hmk' : Tmpfs.mkdir fs (some initrdPath) 0o755 = some (r, fs1) := hmk
    rw [loadInitrd_eq, hmk', bind_some, harch.loadLoop_eq htop, hload, bind_some, hdevice]
  · have hone : [initrdName].length * nodeCost = nodeCost := by simp
    rw [hone] at hcosts1
    exact (hcosts1.trans hcosts2).trans hcosts'
  have hV1 : Shows fs1 bs1 kids1 (viewOf []) := by
    have hno : look fs (fun _ => []) [initrdName] = none := rfl
    have hV := (hgrew1 (by omega) hno).shows (shows_empty hdir)
    have hchain := withPath_chain [] initrdName
    rw [nil_append] at hchain
    rwa [hchain] at hV
  obtain ⟨hpos, hneg⟩ := hshows (by omega) hV1
  refine ⟨fun hall e he => ?_, fun es' e hes hinit e' he' hgone => ?_⟩
  · have hV2 := hpos hall
    obtain ⟨n, hn, hkind⟩ := hV2.some (viewOf_of_mem hvalid hall he)
    obtain ⟨hn', hkind'⟩ := (hgrew (by omega) (hV2.none (viewOf_devPlace es))).old _ n hn
    exact ⟨n, hn', hkind' _ hkind⟩
  · obtain ⟨hlost, hdev⟩ := hneg es' e hes hinit
    refine (hgrew (by omega) hdev).missing _ (hlost e' he' hgone) ?_
    rw [Entry.place, cons_prefix_cons]
    exact fun hpre => absurd hpre.1 (by decide)

/-! ## Whether every entry is there -/

/-- The path of the entry leads to a directory, or to a file with the bytes of the entry. -/
def Stored (fs : Fs) (e : Entry) : Prop :=
  ∃ n, n ≠ 0 ∧ resolvePath fs (some (pathOf e.place)) = some n ∧
    match e.kind with
    | .dir => (fs.nodes n).isDir = true
    | .file data => (fs.nodes n).isDir = false ∧ (fs.nodes n).size = data.length ∧
        ∀ j v, data[j]? = some v → fs.heap.mem ((fs.nodes n).content + j) = v

section Stored

variable {foreign : List Nat} {fs : Fs} {bs : List Blk} {live : List Nat} {kids : Kids}
  (h : Ready foreign fs bs live kids) {es : List Entry} (hvalid : ValidEntries es) {e : Entry}
  (he : e ∈ es)

include h hvalid he

theorem ValidEntries.resolvePath_eq :
    resolvePath fs (some (pathOf e.place)) = some ((look fs kids e.place).getD 0) := by
  have hP := place_names (hvalid.names e he)
  have htok := tokens_path hP (hvalid.short e he) (Or.inl rfl)
  rw [append_nil] at htok
  exact h.resolvePath_eq hP htok

theorem stored_of_look (hn : look fs kids e.place = some n) (hkind : HasKind fs bs n e.kind) :
    Stored fs e := by
  refine ⟨n, h.ne_zero (look_reached hn), ?_, ?_⟩
  · rw [hvalid.resolvePath_eq h he, hn]
    rfl
  · cases hk : e.kind with
    | dir =>
      rw [hk] at hkind
      exact hkind
    | file data =>
      rw [hk] at hkind
      exact ⟨hkind.file, hkind.size, hkind.bytes⟩

theorem not_stored_of_look (hno : look fs kids e.place = none) : ¬ Stored fs e := by
  rintro ⟨n, h0, hres, -⟩
  rw [hvalid.resolvePath_eq h he, hno] at hres
  exact h0 (some.inj hres).symm

end Stored

theorem Archive.take {base size : Nat} (h : Archive m base size frames) (k : Nat) :
    totalSize (frames.take k) ≤ size ∧
      Archive m base (totalSize (frames.take k)) (frames.take k) := by
  have hsplit := take_append_drop k frames
  constructor
  · have hfits := h.fits
    rw [← hsplit, totalSize, map_append, List.sum_append] at hfits
    rw [totalSize]
    omega
  · refine ⟨fun f hf => h.valid f (mem_of_mem_take hf), h.holds.mono ?_, le_refl _, .inl ?_⟩
    · rw [← hsplit, flatMap_append, take_append_drop]
      exact prefix_append _ _
    · exact Nat.lt_add_of_pos_right (by decide)

theorem Started.ready {σ : Type} {reserveHeap : Nat → σ → Nat × σ} {hm : Mem} {s : σ} {fs1 : Fs}
    (hstart : Started reserveHeap hm s fs1) :
    ∃ foreign bs, Ready foreign fs1 bs [fs1.root] (fun _ => []) ∧
      (fs1.nodes fs1.root).isDir = true := by
  obtain ⟨foreign, bs, hheld, hcwd, hdir, hfree⟩ := hstart.held
  exact ⟨foreign, bs, ⟨hheld, hcwd, hfree⟩, hdir⟩

/-- Where no allocation fails, an archive is loaded completely if each entry survives all those
behind it, and exactly then it is so for all initial parts of the archive. -/
theorem initrd_complete_iff {σ : Type} {reserveHeap : Nat → σ → Nat × σ} {hm : Mem} {s : σ} {fs1 : Fs}
    (hstart : Started reserveHeap hm s fs1) {m : Mem} {base size : Nat} {es : List Entry}
    {frames : List Frame} (hvalid : ValidEntries es) (henc : Forall₂ Encodes es frames)
    (harch : Archive m base size frames) (htop : base + size + tarBlockSize < word) :
    (∃ fs', loadInitrd m base size fs1 = some fs' ∧
      (failures fs'.heap = failures fs1.heap → es.Pairwise Survives → ∀ e ∈ es, Stored fs' e)) ∧
    ((∀ k n fs', n ≤ size → Archive m base n (frames.take k) →
        loadInitrd m base n fs1 = some fs' → failures fs'.heap = failures fs1.heap) →
      (es.Pairwise Survives ↔ ∀ k n, n ≤ size → Archive m base n (frames.take k) →
        ∃ fs', loadInitrd m base n fs1 = some fs' ∧ ∀ e ∈ es.take k, Stored fs' e)) := by
  obtain ⟨foreign, bs, h, hdir⟩ := hstart.ready
  have hvalid' : ∀ k, ValidEntries (es.take k) := fun k => hvalid.sublist (take_sublist k es)
  -- What is loaded of an initial part.
  have hpart : ∀ k n, n ≤ size → Archive m base n (frames.take k) →
      ∃ fs', loadInitrd m base n fs1 = some fs' ∧ (failures fs'.heap = failures fs1.heap →
        ((es.take k).Pairwise Survives → ∀ e ∈ es.take k, Stored fs' e) ∧
        ∀ es' e, es.take k = es' ++ [e] → es'.Pairwise Survives →
          ∀ e' ∈ es', ¬ Survives e' e → ¬ Stored fs' e') := by
    intro k n hn hk
    obtain ⟨fs', foreign', bs', live', kids', hrun, h', -, hdone⟩ :=
      h.loadInitrd hdir hk (by omega) (forall₂_take k henc) (hvalid' k)
    refine ⟨fs', hrun, fun hserved => ⟨fun hall e he => ?_, fun es' e hes hinit e' he' hgone => ?_⟩⟩
    · obtain ⟨x, hx, hkind⟩ := (hdone hserved).1 hall e he
      exact stored_of_look h' (hvalid' k) he hx hkind
    · have hmem : e' ∈ es.take k := by rw [hes]; exact mem_append_left _ he'
      exact not_stored_of_look h' (hvalid' k) hmem ((hdone hserved).2 es' e hes hinit e' he' hgone)
  constructor
  · have hall : frames.take frames.length = frames ∧ es.take frames.length = es := by
      rw [← henc.length_eq, take_length, henc.length_eq, take_length]
      exact ⟨rfl, rfl⟩
    obtain ⟨fs', hrun, hdone⟩ := hpart frames.length size (le_refl _) (by rwa [hall.1])
    rw [hall.2] at hdone
    exact ⟨fs', hrun, fun hserved => (hdone hserved).1⟩
  intro hserved
  constructor
  · intro hall k n hn hk
    obtain ⟨fs', hrun, hdone⟩ := hpart k n hn hk
    exact ⟨fs', hrun, (hdone (hserved k n fs' hn hk hrun)).1 (hall.sublist (take_sublist k es))⟩
  · intro hstored
    have hall : ∀ k, (es.take k).Pairwise Survives := by
      intro k
      induction k with
      | zero => simp
      | succ k ih =>
        cases hget : es[k]? with
        | none =>
          have hlen := List.getElem?_eq_none_iff.mp hget
          rwa [take_of_length_le (by omega), ← take_of_length_le hlen]
        | some e =>
          have hsnoc : es.take (k + 1) = es.take k ++ [e] := by rw [take_add_one, hget]; rfl
          rw [hsnoc, pairwise_append]
          refine ⟨ih, pairwise_singleton _ _, fun e' he' e'' he'' => ?_⟩
          rw [mem_singleton.mp he'']
          by_contra hgone
          -- The archive that ends with `e` has lost `e'`.
          obtain ⟨hn, hk⟩ := harch.take (k + 1)
          obtain ⟨fs', hrun, hdone⟩ := hpart _ _ hn hk
          obtain ⟨fs2, hrun2, hall2⟩ := hstored _ _ hn hk
          obtain rfl := some.inj (hrun.symm.trans hrun2)
          refine (hdone (hserved _ _ fs' hn hk hrun)).2 _ e hsnoc ih e' he' hgone (hall2 e' ?_)
          rw [hsnoc]
          exact mem_append_left _ he'
    have := hall es.length
    rwa [take_length] at this

/-! ## Archives -/

def field (n : Nat) (s : Bytes) : Bytes := s ++ replicate (n - s.length) 0

theorem length_field {s : Bytes} (h : s.length ≤ n) : (field n s).length = n := by
  rw [field, length_append, length_replicate]
  omega

/-- The sum over a header, with blanks for the sum itself. -/
def checksum (before behind : Bytes) : Nat :=
  (before.map BitVec.toNat).sum + 8 * 0x20 + (behind.map BitVec.toNat).sum

/-- The fields of `struct ustar_header` up to the sum, for the user 0. -/
def headerBefore (name : Bytes) (size : Nat) : Bytes :=
  field 100 name ++ (octDigits 7 0o644 ++ [0] ++ octDigits 7 0 ++ [0] ++ octDigits 7 0 ++ [0]) ++
    (octDigits 11 size ++ [0]) ++ (octDigits 11 0 ++ [0])

/-- The fields behind it, with the magic and the version. -/
def headerBehind (flag : Byte) : Bytes :=
  flag :: replicate 100 0 ++ [0x75, 0x73, 0x74, 0x61, 0x72, 0x00, 0x30, 0x30] ++
    replicate 247 0

def ustarFrame (name : Bytes) (flag : Byte) (data : Bytes) : Frame where
  header := headerBefore name data.length ++
    (octDigits 6 (checksum (headerBefore name data.length) (headerBehind flag)) ++ [0x00, 0x20]) ++
    headerBehind flag
  data

/-- An entry whose path fits in the field for the name. -/
def encode (e : Entry) : Frame :=
  match e.kind with
  | .dir => ustarFrame ((pathOf e.path).tail ++ [slash]) 0x35 []
  | .file data => ustarFrame (pathOf e.path).tail 0x30 data

section UstarFrame

variable {name : Bytes} (hname : name.length ≤ 100) (flag : Byte) (data : Bytes)

include hname

theorem length_headerBefore (size : Nat) : (headerBefore name size).length = 148 := by
  simp only [headerBefore, length_append, length_field hname, length_octDigits,
    length_singleton]

theorem ustarFrame_length : (ustarFrame name flag data).header.length = tarBlockSize := by
  simp only [ustarFrame, length_append, length_headerBefore hname, length_octDigits,
    headerBehind, length_cons, length_replicate, length_nil]

theorem ustarFrame_behind : (ustarFrame name flag data).header.drop 156 = headerBehind flag := by
  refine drop_left' ?_
  rw [length_append, length_headerBefore hname, length_append, length_octDigits]
  rfl

theorem ustarFrame_valid (hsmall : data.length < 8 ^ 11) : (ustarFrame name flag data).Valid := by
  refine ⟨ustarFrame_length hname flag data, ⟨0x75, ?_, by decide⟩, hsmall, 0, .inl rfl, ?_⟩
  · refine mem_append_right _ (mem_append_left _ (mem_append_right _ ?_))
    exact mem_cons_self
  · have hsplit : (ustarFrame name flag data).header = (field 100 name ++
        (octDigits 7 0o644 ++ [0] ++ octDigits 7 0 ++ [0] ++ octDigits 7 0 ++ [0])) ++
        ((octDigits 11 data.length ++ [0]) ++ ((octDigits 11 0 ++ [0]) ++
        (octDigits 6 (checksum (headerBefore name data.length) (headerBehind flag)) ++ [0x00, 0x20]) ++
        headerBehind flag)) := by
      simp only [ustarFrame, headerBefore, append_assoc]
    rw [hsplit, drop_left', take_left']
    · rfl
    · rw [length_append, length_octDigits]
      rfl
    · simp only [length_append, length_field hname, length_octDigits, length_singleton]

end UstarFrame

theorem encode_valid (hlen : (pathOf e.path).tail.length < 99)
    (hsmall : ∀ data, e.kind = .file data → data.length < 8 ^ 11) : (encode e).Valid := by
  unfold encode
  cases hk : e.kind with
  | dir => exact ustarFrame_valid (by rw [length_append, length_singleton]; omega) _ _ (by decide)
  | file data => exact ustarFrame_valid (by omega) _ _ (hsmall data hk)

theorem encode_encodes (hne : e.path ≠ []) (hlen : (pathOf e.path).tail.length < 99) :
    Encodes e (encode e) := by
  have hstart : ∀ {name : Bytes} {flag : Byte} {data : Bytes}, name.length < 100 →
      name ++ [0] <+: (ustarFrame name flag data).header := by
    intro name flag data hname
    obtain ⟨k, hk⟩ : ∃ k, 100 - name.length = k + 1 := ⟨99 - name.length, by omega⟩
    simp only [ustarFrame, headerBefore, field, hk, replicate_succ, append_assoc,
      cons_append]
    exact (prefix_append_right_inj _).mpr (cons_prefix_cons.mpr ⟨rfl, nil_prefix⟩)
  have hbehind : ∀ {name : Bytes} {flag : Byte} {data : Bytes}, name.length < 100 →
      (ustarFrame name flag data).header[156]? = some flag ∧
        [0] <+: (ustarFrame name flag data).header.drop 345 := by
    intro name flag data hname
    have hdrop := ustarFrame_behind hname.le flag data
    constructor
    · rw [← head?_drop, hdrop]
      rfl
    · rw [show 345 = 156 + 189 from rfl, ← drop_drop, hdrop]
      exact ⟨replicate 166 0, rfl⟩
  unfold encode
  cases hk : e.kind with
  | dir =>
    have hfits : ((pathOf e.path).tail ++ [slash]).length < 100 := by
      rw [length_append, length_singleton]
      omega
    refine ⟨⟨[], e.path, [slash], rfl, hne, .inr ⟨rfl, hk⟩, hfits, by decide, hstart hfits,
      (hbehind hfits).2⟩, ?_⟩
    rw [hk]
    exact ⟨(hbehind hfits).1, rfl⟩
  | file data =>
    have hfits : (pathOf e.path).tail.length < 100 := by omega
    refine ⟨⟨[], e.path, [], rfl, hne, .inl rfl, by simpa using hfits, by decide, ?_,
      (hbehind hfits).2⟩, ?_⟩
    · rw [append_nil]
      exact hstart hfits
    · rw [hk]
      exact ⟨.inl (hbehind hfits).1, rfl⟩

theorem archive_encode (h : ValidEntries es) (hlen : ∀ e ∈ es, (pathOf e.path).tail.length < 99)
    (hsmall : ∀ e ∈ es, ∀ data, e.kind = .file data → data.length < 8 ^ 11) :
    Archive (imageOf (es.map encode)) 0 (totalSize (es.map encode) + 1024) (es.map encode) ∧
      Forall₂ Encodes es (es.map encode) := by
  constructor
  · apply archive_imageOf
    intro f hf
    obtain ⟨e, he, rfl⟩ := List.mem_map.mp hf
    exact encode_valid (hlen e he) (hsmall e he)
  · rw [forall₂_map_right_iff, forall₂_same]
    exact fun e he => encode_encodes (h.nonempty e he) (hlen e he)

theorem totalCost_take (es : List Entry) (k : Nat) : totalCost (es.take k) ≤ totalCost es := by
  conv_rhs => rw [← take_append_drop k es]
  rw [totalCost, totalCost, map_append, List.sum_append]
  exact Nat.le_add_right _ _

theorem Ready.served (h : Ready foreign fs bs [fs.root] fun _ => [])
    (hdir : (fs.nodes fs.root).isDir = true) {base size : Nat} (hvalid : ValidEntries es)
    (henc : Forall₂ Encodes es frames) (htop : base + size + tarBlockSize < word)
    (hroom : Room (nodeCost + totalCost es + (2 * nodeCost + headerSize) + 1) bs) (k n : Nat)
    (fs' : Fs) (hn : n ≤ size) (hk : Archive m base n (frames.take k))
    (hrun : Tmpfs.loadInitrd m base n fs = some fs') : failures fs'.heap = failures fs.heap := by
  obtain ⟨fs2, foreign2, bs2, live2, kids2, hrun2, -, hcosts, -⟩ := h.loadInitrd hdir hk (by omega)
    (forall₂_take k henc) (hvalid.sublist (take_sublist k es))
  obtain rfl := some.inj (hrun.symm.trans hrun2)
  have := totalCost_take es k
  exact (hcosts.room 1 (by decide) (hroom.mono (by omega))).1

/-- The directory `d`, and the file `d/a` with one byte. -/
def dirAndFile : List Entry :=
  [⟨[[0x64]], .dir⟩, ⟨[[0x64], [0x61]], .file [0x41]⟩]

theorem dirAndFile_valid : ValidEntries dirAndFile :=
  ⟨by decide, by decide +kernel, by decide, by decide, by decide⟩

theorem initrd_complete_iff_dirAndFile : dirAndFile.Pairwise Survives ∧ ∃ fs1 fs' fs'',
    StartedAtOneMib fs1 ∧
      loadInitrd (imageOf (dirAndFile.map encode)) 0 2560 fs1 = some fs' ∧
      (∀ e ∈ dirAndFile, Stored fs' e) ∧
      loadInitrd (imageOf (dirAndFile.map encode)) 0 512 fs1 = some fs'' ∧
      Stored fs'' ⟨[[0x64]], .dir⟩ := by
  have hall : dirAndFile.Pairwise Survives := by
    simp [dirAndFile, Survives]
  obtain ⟨harch, henc⟩ := archive_encode dirAndFile_valid (by decide) (by simp [dirAndFile])
  obtain ⟨fs1, bs1, -, hstarted, hheld, hcwd, hdir, hfree, hroom⟩ := blank_started
  have h : Ready [] fs1 bs1 [fs1.root] fun _ => [] := ⟨hheld, hcwd, hfree⟩
  have htop : 0 + 2560 + tarBlockSize < word := by decide
  have hserved := h.served (m := imageOf (dirAndFile.map encode)) hdir dirAndFile_valid henc htop
    (hroom.mono (by decide))
  obtain ⟨⟨fs', hrun, hstored⟩, hparts⟩ :=
    initrd_complete_iff hstarted dirAndFile_valid henc harch htop
  obtain ⟨fs'', hrun', hstored'⟩ := (hparts hserved).mp hall 1 512 (by decide) (harch.take 1).2
  exact ⟨hall, fs1, fs', fs'', hstarted, hrun, hstored (hserved 2 2560 fs' (by decide) harch hrun) hall,
    hrun', hstored' _ (by simp [dirAndFile])⟩

/-- The files `a` and `b`. -/
def twoFiles : List Entry :=
  [⟨[[0x61]], .file [0x41]⟩, ⟨[[0x62]], .file [0x42]⟩]

/-- The second file clears `/initrd` of the first. -/
theorem first_file_lost : ValidEntries twoFiles ∧ Forall₂ Encodes twoFiles (twoFiles.map encode) ∧
    Archive (imageOf (twoFiles.map encode)) 0 3072 (twoFiles.map encode) ∧ ∃ fs1 fs',
      StartedAtOneMib fs1 ∧
      loadInitrd (imageOf (twoFiles.map encode)) 0 3072 fs1 = some fs' ∧
      failures fs'.heap = failures fs1.heap ∧
      resolvePath fs' (some (initrdPath ++ [slash, 0x61])) = some 0 ∧
      ¬ Stored fs' ⟨[[0x61]], .file [0x41]⟩ := by
  have hvalid : ValidEntries twoFiles :=
    ⟨by decide, by decide +kernel, by decide, by decide, by decide⟩
  obtain ⟨harch, henc⟩ := archive_encode hvalid (by decide) (by simp [twoFiles])
  obtain ⟨fs1, bs1, -, hstarted, hheld, hcwd, hdir, hfree, hroom⟩ := blank_started
  have h : Ready [] fs1 bs1 [fs1.root] fun _ => [] := ⟨hheld, hcwd, hfree⟩
  obtain ⟨fs', foreign', bs', live', kids', hrun, h', hcosts, hdone⟩ :=
    h.loadInitrd hdir harch (by decide) henc hvalid
  have hserved := (hcosts.room 1 (by decide) (hroom.mono (by decide))).1
  have hlost : look fs' kids' [initrdName, [0x61]] = none :=
    (hdone hserved).2 [⟨[[0x61]], .file [0x41]⟩] ⟨[[0x62]], .file [0x42]⟩ rfl
      (pairwise_singleton _ _) _ (mem_singleton_self _) (by simp [Survives])
  have hmem : ⟨[[0x61]], .file [0x41]⟩ ∈ twoFiles := by simp [twoFiles]
  refine ⟨hvalid, henc, harch, fs1, fs', hstarted, hrun, hserved, ?_,
    not_stored_of_look h' hvalid hmem hlost⟩
  have hres := hvalid.resolvePath_eq h' hmem
  rw [hlost] at hres
  exact hres

end Terrakernel.Tmpfs
