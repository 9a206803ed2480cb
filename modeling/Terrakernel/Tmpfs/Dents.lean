import Terrakernel.Lib.Records
import Terrakernel.Tmpfs.Ops

/-!
# `getdents`

A listing is the names of the children, each with its terminator.
-/

namespace Terrakernel.Tmpfs

open Memory Vmm Links Heap Records
open List hiding Chain Mem

/-! ## The two loops -/

/-- The bytes go to `out[used]` and behind it. -/
def getdentsLoop (nodes : Nat → Node) (bufsize : Nat) : Nat → Nat → Nat → Mem → Option (Nat × Mem)
  | 0, _, _, _ => none
  | fuel + 1, c, used, out =>
    if c = 0 then some (used, out)
    else
      let len := (nodes c).name.length
      if (used + len + 1) % word > bufsize then some (used, out)
      else
        getdentsLoop nodes bufsize fuel (nodes c).nextSibling ((used + len + 1) % word)
          (putBytes out used ((nodes c).name ++ [0]))

def getdents (fs : Fs) (fd : Int) (out : Mem) (bufsize : Nat) : Option (Int × Mem) :=
  match entryOf fd with
  | none => some (-1, out)
  | some i =>
    let f := fs.fds i
    if f.node = 0 ∨ (fs.nodes f.node).isDir = false then some (-1, out)
    else do
      let (used, out) ← getdentsLoop fs.nodes bufsize word (fs.nodes f.node).firstChild 0 out
      some ((BitVec.ofNat 64 used).toInt, out)

/-- The string at `a`. The counter of `strlen` has 32 bits. -/
def cString (m : Mem) : Nat → Nat → Option Bytes
  | 0, _ => none
  | fuel + 1, a => if m a = 0 then some [] else (cString m fuel (a + 1)).map (m a :: ·)

/-- The loop of `list_initrd`: the names it comes to, and where it ends. -/
def listLoop (dents : Mem) (nread : Nat) : Nat → Nat → Option (Names × Nat)
  | 0, _ => none
  | fuel + 1, offset =>
    if offset < nread then do
      let name ← cString dents (2 ^ 32) offset
      let (names, last) ← listLoop dents nread fuel ((offset + (name.length + 1) % 2 ^ 32) % word)
      some (name :: names, last)
    else some ([], offset)

/-- What the 128 bytes of a name can hold. -/
structure NameField (name : Bytes) : Prop where
  noNul : ∀ b ∈ name, b ≠ 0
  short : name.length ≤ 127

/-! ## Writing -/

theorem putBytes_append (xs ys : Bytes) :
    ∀ (m : Mem) (dest : Nat),
      putBytes m dest (xs ++ ys) = putBytes (putBytes m dest xs) (dest + xs.length) ys := by
  induction xs with
  | nil => intro m dest; rfl
  | cons x xs ih =>
    intro m dest
    rw [cons_append, putBytes, putBytes, ih, length_cons]
    congr 1
    omega

theorem getdentsLoop_eq {nodes : Nat → Node} {bufsize : Nat} {cs : List Nat}
    {fuel c used : Nat} (hchain : Chain (sibling nodes) c cs) (hfuel : cs.length < fuel)
    (hused : used ≤ bufsize)
    (hword : used + (records (0 : Byte) (cs.map fun c => (nodes c).name)).length < word)
    (out : Mem) :
    getdentsLoop nodes bufsize fuel c used out =
      some (used + (records (0 : Byte)
          (fitting (bufsize - used) (cs.map fun c => (nodes c).name))).length,
        putBytes out used
          (records 0 (fitting (bufsize - used) (cs.map fun c => (nodes c).name)))) := by
  induction cs generalizing fuel c used out with
  | nil =>
    obtain _ | fuel := fuel
    · simp at hfuel
    obtain rfl : c = 0 := hchain
    rfl
  | cons x cs ih =>
    obtain _ | fuel := fuel
    · simp at hfuel
    obtain ⟨rfl, h0, hchain⟩ := hchain
    rw [map_cons] at hword ⊢
    rw [length_records_cons] at hword
    rw [length_cons] at hfuel
    unfold getdentsLoop fitting
    simp only [if_neg h0]
    rw [Nat.mod_eq_of_lt (by omega)]
    by_cases hfit : bufsize < used + (nodes c).name.length + 1
    · rw [if_pos hfit, if_pos (by omega)]
      rfl
    · rw [if_neg hfit, if_neg (by omega)]
      have hrest : bufsize - used - ((nodes c).name.length + 1) =
          bufsize - (used + (nodes c).name.length + 1) := by omega
      have hrun := ih hchain (show cs.length < fuel by omega)
        (show used + (nodes c).name.length + 1 ≤ bufsize by omega) (by omega)
        (putBytes out used ((nodes c).name ++ [0]))
      rw [sibling] at hrun
      rw [hrun, hrest]
      rw [length_records_cons, records_cons, putBytes_append ((nodes c).name ++ [0])]
      simp only [length_append, length_singleton, Nat.add_assoc]

/-! ## Reading -/

theorem cString_eq {m : Mem} {s : Bytes} (hs : ∀ b ∈ s, b ≠ 0) :
    ∀ {fuel a : Nat}, s.length < fuel → (∀ j v, (s ++ [0])[j]? = some v → m (a + j) = v) →
      cString m fuel a = some s := by
  induction s with
  | nil =>
    intro fuel a hfuel hbytes
    obtain _ | fuel := fuel
    · simp at hfuel
    have h0 : m a = 0 := hbytes 0 0 rfl
    rw [cString, if_pos h0]
  | cons b s ih =>
    intro fuel a hfuel hbytes
    rw [forall_mem_cons] at hs
    rw [length_cons] at hfuel
    obtain _ | fuel := fuel
    · omega
    have hb : m a = b := hbytes 0 b rfl
    rw [cString, hb, if_neg hs.1, ih hs.2 (by omega), Option.map_some]
    intro j v hv
    rw [show a + 1 + j = a + (j + 1) by omega]
    exact hbytes (j + 1) v (by simpa using hv)

theorem listLoop_eq {dents : Mem} {nread : Nat} (hword : nread < word) {names : Names}
    (hnames : ∀ t ∈ names, NameField t) {fuel offset : Nat} (hfuel : names.length < fuel)
    (hbytes : ∀ j v, (records (0 : Byte) names)[j]? = some v → dents (offset + j) = v)
    (hend : offset + (records (0 : Byte) names).length = nread) :
    listLoop dents nread fuel offset = some (names, nread) := by
  induction names generalizing fuel offset with
  | nil =>
    obtain _ | fuel := fuel
    · simp at hfuel
    rw [records_nil, length_nil] at hend
    rw [listLoop, if_neg (by omega)]
    congr 2
  | cons t ts ih =>
    rw [forall_mem_cons] at hnames
    obtain _ | fuel := fuel
    · simp at hfuel
    have hshort := hnames.1.short
    rw [length_records_cons] at hend
    rw [records_cons] at hbytes
    rw [length_cons] at hfuel
    have hname : cString dents (2 ^ 32) offset = some t := by
      refine cString_eq hnames.1.noNul (by omega) fun j v hv => hbytes j v ?_
      rw [getElem?_append_left]
      · exact hv
      · exact (List.getElem?_eq_some_iff.mp hv).1
    have hnext : (offset + (t.length + 1) % 2 ^ 32) % word = offset + (t.length + 1) := by
      rw [Nat.mod_eq_of_lt (show t.length + 1 < 2 ^ 32 by omega), Nat.mod_eq_of_lt (by omega)]
    rw [listLoop, if_pos (by omega), hname]
    simp only [Option.bind_eq_bind, Option.bind_some]
    rw [hnext, ih hnames.2 (by omega) ?_ (by omega)]
    · rfl
    · intro j v hv
      rw [show offset + (t.length + 1) + j = offset + (t.length + 1 + j) by omega]
      refine hbytes _ v ?_
      rw [getElem?_append_right (by simp), ← hv]
      congr 1
      simp

/-! ## Both together -/

theorem Sized.length_le {heap : Heap} {bs : List Blk} {live cs : List Nat} (h : Sized bs live)
    (hs : Sound heap bs) (hcs : cs.Nodup) (hsub : ∀ c ∈ cs, c ∈ live) :
    nodeSize * cs.length ≤ word := by
  have hlong : cs ⊆ (bs.filter fun b => nodeSize ≤ b.len).map Blk.ptr := by
    intro c hc
    obtain ⟨b, hb, hp, -, hlen⟩ := h c (hsub c hc)
    exact List.mem_map.mpr ⟨b, mem_filter.mpr ⟨hb, by simpa using hlen⟩, hp⟩
  have hle := (subperm_of_subset hcs hlong).length_le
  rw [length_map] at hle
  have hfits := hs.rep.fits.long_le nodeSize
  have htop := hs.rep.top
  have := Nat.mul_le_mul_left nodeSize hle
  omega

/-- The names of the children, up to the first that does not fit, and what `list_initrd` makes of
them. -/
theorem getdents_lists {foreign : List Nat} {fs : Fs} {bs : List Blk} {live : List Nat}
    {kids : Kids} (h : Held foreign fs bs live kids) {fd : Int} {i : Fin 256}
    (he : entryOf fd = some i) (h0 : (fs.fds i).node ≠ 0)
    (hdir : (fs.nodes (fs.fds i).node).isDir = true) {names : Names}
    (hnames : names = (kids (fs.fds i).node).map fun c => (fs.nodes c).name)
    (hstored : ∀ t ∈ names, NameField t) (out : Mem) (bufsize : Nat) :
    ∃ shown out', shown <+: names ∧
      getdents fs fd out bufsize = some (((records (0 : Byte) shown).length : Int), out') ∧
      (records (0 : Byte) shown).length ≤ bufsize ∧ (∀ x, bufsize ≤ x → out' x = out x) ∧
      (∀ pre, pre <+: names → (records (0 : Byte) pre).length ≤ bufsize → pre <+: shown) ∧
      ((records (0 : Byte) names).length ≤ bufsize → shown = names) ∧
      listLoop out' (records (0 : Byte) shown).length word 0 =
        some (shown, (records (0 : Byte) shown).length) := by
  have hn := h.sane.table.node i h0
  have hlinked := h.linked
  have hchain := hlinked.chain _ hn
  have hkids := hlinked.kids_short hn
  have hcount := h.sized.length_le h.sane.owns.sound hchain.nodup
    fun c hc => (hlinked.child _ hn c hc).1
  have hlong := @length_records_le _ (0 : Byte) 127 names fun t ht => (hstored t ht).short
  rw [hnames, length_map, ← hnames] at hlong
  have hword : (records (0 : Byte) names).length < 2 ^ 63 := by
    have : word = 2 ^ 64 := rfl
    simp only [nodeSize] at hcount
    omega
  have hpre : fitting bufsize names <+: names := fitting_prefix _ _
  have hfit : (records (0 : Byte) (fitting bufsize names)).length ≤ bufsize := length_fitting _ _
  have hshort : (records (0 : Byte) (fitting bufsize names)).length < 2 ^ 63 :=
    Nat.lt_of_le_of_lt (records_isPrefix hpre).length_le hword
  refine ⟨fitting bufsize names, putBytes out 0 (records 0 (fitting bufsize names)), hpre, ?_, hfit,
    ?_, fun pre => prefix_fitting, ?_, ?_⟩
  · have hloop := @getdentsLoop_eq fs.nodes bufsize _ word _ 0 hchain hkids (Nat.zero_le _)
      (by rw [← hnames, Nat.zero_add]; exact Nat.lt_trans hword (by decide)) out
    rw [← hnames, Nat.sub_zero, Nat.zero_add] at hloop
    unfold getdents
    simp only [he]
    rw [if_neg (by simp [h0, hdir]), hloop]
    simp only [Option.bind_eq_bind, Option.bind_some, toInt_ofNat_of_lt hshort]
  · intro x hx
    exact putBytes_outside _ _ _ _ (by omega)
  · intro hall
    exact hpre.eq_of_length_le (prefix_fitting prefix_rfl hall).length_le
  · refine listLoop_eq (Nat.lt_trans hshort (by decide)) (fun t ht => hstored t (hpre.mem ht)) ?_ ?_
      (Nat.zero_add _)
    · have hle := hpre.length_le
      rw [← length_map (fun c => (fs.nodes c).name), ← hnames] at hkids
      exact Nat.lt_of_le_of_lt hle hkids
    · intro j v hv
      exact putBytes_at _ _ _ _ _ hv

theorem getdents_lists_root : ∃ (fs : Fs) (i : Fin 256) (out : Mem),
    getdents fs i (fun _ => 0) 512 = some (2, out) ∧
      listLoop out 2 word 0 = some ([[0x66]], 2) := by
  obtain ⟨-, -, c, fs, bs, -, -, -, -, h, hne, hname, -, -, ⟨j, hj⟩, -, -, -, -, hdir⟩ :=
    @blank_file [0x66] (by decide) (by decide) (by decide)
  have hroot := h.linked.root_mem
  have h2 := h.opened hroot (h.sane.table.free j hj) 0 0
  have hnode : ((opened fs j fs.root 0 0).fds j).node = fs.root := by
    rw [opened_fds, Function.update_self]
  have hnames : [[0x66]] = ((grown (fun _ => []) fs.root c) fs.root).map fun c =>
      ((opened fs j fs.root 0 0).nodes c).name := by
    simp [grown, opened_nodes, hne, hname]
  obtain ⟨shown, out, -, hrun, -, -, -, hall, hloop⟩ := @getdents_lists _ _ _ _ _ h2 j j
    (entryOf_fin j) (by rw [hnode]; exact h.linked.ne_zero hroot)
    (by rw [hnode, opened_nodes, if_pos rfl]; exact hdir) [[0x66]] (by rw [hnode]; exact hnames)
    (forall_mem_singleton.mpr ⟨by decide, by decide⟩) (fun _ => 0) 512
  obtain rfl : shown = [[0x66]] := hall (by decide)
  exact ⟨_, j, out, hrun, hloop⟩

end Terrakernel.Tmpfs
