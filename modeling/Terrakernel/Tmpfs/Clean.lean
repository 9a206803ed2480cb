import Terrakernel.Tmpfs.Ops
import Terrakernel.Tmpfs.Strings

/-!
# Cleaned paths

The loop of `load_initrd` writes each component but `.` behind one slash.
-/

namespace Terrakernel.Tmpfs

open Memory Vmm List

variable {t rest : Bytes}

/-- The components that the loop copies. -/
def keptOf (s : Bytes) : Names := (components s).filter (· ≠ dot)

theorem components_slash (s : Bytes) : components (slash :: s) = components s :=
  components_append [] s

theorem keptOf_slash (s : Bytes) : keptOf (slash :: s) = keptOf s := by
  rw [keptOf, components_slash, keptOf]

theorem cleanLoop_skip {t rest : Bytes} (ht : t = [] ∨ t = dot)
    (hrest : rest = [] ∨ rest.head? = some slash) :
    cleanLoop slash (t ++ rest) = cleanLoop slash rest.tail := by
  cases rest with
  | nil => rcases ht with rfl | rfl <;> rfl
  | cons b rest =>
    obtain rfl : b = slash := by simpa using hrest
    conv_lhs => unfold cleanLoop
    rcases ht with rfl | rfl <;> rfl

theorem keptOf_skip (ht : t = [] ∨ t = dot) (hrest : rest = [] ∨ rest.head? = some slash) :
    keptOf (t ++ rest) = keptOf rest.tail := by
  rcases ht with rfl | rfl
  · cases rest with
    | nil => rfl
    | cons b rest =>
      obtain rfl : b = slash := by simpa using hrest
      exact keptOf_slash rest
  · rw [keptOf, components_token (by decide) (by decide) hrest]
    simp [keptOf]

theorem Plain.cleanLoop_tail (ht : Plain t) (hrest : rest = [] ∨ rest.head? = some slash) :
    cleanLoop slash (t ++ rest) = t ++ (rest.take 1 ++ cleanLoop slash rest.tail) := by
  obtain ⟨p, hp, he⟩ := ht.copied rest
  rw [he]
  cases rest with
  | nil => rfl
  | cons b rest =>
    obtain rfl : b = slash := by simpa using hrest
    rw [cleanLoop_slash hp]
    rfl

theorem Plain.keptOf_token (ht : Plain t) (hrest : rest = [] ∨ rest.head? = some slash) :
    keptOf (t ++ rest) = t :: keptOf rest.tail := by
  rw [keptOf, components_token ht.ne_nil ht.noSlash hrest,
    filter_cons_of_pos (by simpa using ht.ne_dot), keptOf]

theorem cleanLoop_eq (s : Bytes) (hnul : ∀ b ∈ s, b ≠ 0) :
    (∀ t ∈ keptOf s, Plain t) ∧ ∃ trail, Trails trail ∧ (keptOf s = [] → trail = [slash]) ∧
      slash :: cleanLoop slash s = pathOf (keptOf s) ++ trail := by
  induction hn : s.length using Nat.strong_induction_on generalizing s with
  | _ n ih =>
    obtain ⟨t, rest, rfl, hslash, hrest⟩ := exists_token s
    rw [length_append] at hn
    have hbehind : ∀ b ∈ rest.tail, b ≠ 0 := fun b hb =>
      hnul b (mem_append_right _ (mem_of_mem_tail hb))
    by_cases hskip : t = [] ∨ t = dot
    · rw [cleanLoop_skip hskip hrest, keptOf_skip hskip hrest]
      by_cases hend : t = [] ∧ rest = []
      · rw [hend.2]
        exact ⟨by simp [keptOf, components], [slash], .inr rfl, fun _ => rfl, rfl⟩
      · refine ih rest.tail.length ?_ rest.tail hbehind rfl
        rw [length_tail]
        rw [← length_eq_zero_iff, ← length_eq_zero_iff] at hend
        omega
    · have ht : Plain t := ⟨fun h => hskip (Or.inl h), hslash,
        fun b hb => hnul b (mem_append_left _ hb), fun h => hskip (Or.inr h)⟩
      have hpos := length_pos_of_ne_nil ht.ne_nil
      obtain ⟨hplain, trail, htrail, -, heq⟩ := ih rest.tail.length
        (by rw [length_tail]; omega) rest.tail hbehind rfl
      rw [ht.cleanLoop_tail hrest, ht.keptOf_token hrest]
      refine ⟨forall_mem_cons.mpr ⟨ht, hplain⟩, ?_⟩
      cases rest with
      | nil => exact ⟨[], .inl rfl, by simp, by simp [keptOf, components, cleanLoop]⟩
      | cons b rest =>
        obtain rfl : b = slash := by simpa using hrest
        refine ⟨trail, htrail, by simp, ?_⟩
        rw [tail_cons] at heq ⊢
        simp only [take_succ_cons, take_zero, cons_append, nil_append, heq,
          pathOf_cons, append_assoc]

theorem cleanLoop_length (prev : Byte) (s : Bytes) : (cleanLoop prev s).length ≤ s.length := by
  fun_induction cleanLoop prev s <;> simp <;> omega

/-! ## What the loop keeps -/

/-- No slash stands behind another one. -/
def NoDouble (s : Bytes) : Prop := ¬ [slash, slash] <:+: s

theorem noDouble_append (hslash : ∀ b ∈ t, b ≠ slash) (h : NoDouble rest) :
    NoDouble (t ++ rest) := by
  induction t with
  | nil => exact h
  | cons b t ih =>
    rw [forall_mem_cons] at hslash
    unfold NoDouble at ih ⊢
    rw [cons_append, infix_cons_iff, not_or]
    refine ⟨fun hpre => ?_, ih hslash.2⟩
    rw [cons_prefix_cons] at hpre
    exact hslash.1 hpre.1.symm

theorem noDouble_pathOf {ps : Names} (hps : ∀ t ∈ ps, Plain t) {trail : Bytes}
    (htrail : Trails trail) : NoDouble (pathOf ps ++ trail) := by
  induction ps with
  | nil =>
    unfold NoDouble
    rcases htrail with rfl | rfl <;> decide
  | cons t ts ih =>
    rw [forall_mem_cons] at hps
    have hrest := noDouble_append hps.1.noSlash (ih hps.2)
    unfold NoDouble at hrest ⊢
    rw [pathOf_cons, cons_append, append_assoc, infix_cons_iff, not_or]
    refine ⟨fun hpre => ?_, hrest⟩
    cases t with
    | nil => exact hps.1.ne_nil rfl
    | cons b t =>
      rw [cons_prefix_cons, cons_append, cons_prefix_cons] at hpre
      exact hps.1.noSlash b mem_cons_self hpre.2.1.symm

/-- The cleaned path is `c`. -/
structure Cleaned (p c : Bytes) : Prop where
  length : c.length ≤ p.length
  absolute : c.head? = some slash
  noDouble : NoDouble c
  noDot : dot ∉ components c
  kept : keptOf c = keptOf p
  again : cleanLoop 0 c = c

theorem resolveLoop_filter (nodes : Nat → Node) (curr : Nat) (ts : Names) :
    resolveLoop nodes curr (ts.filter (· ≠ dot)) = resolveLoop nodes curr ts := by
  induction ts generalizing curr with
  | nil => rfl
  | cons t ts ih =>
    by_cases ht : t = dot
    · rw [filter_cons_of_neg (by simpa using ht), ih, resolveLoop_cons, if_pos ht]
    · rw [filter_cons_of_pos (by simpa using ht), resolveLoop_cons, resolveLoop_cons]
      simp only [ih]

theorem resolve_of_kept {p c : Bytes} (hp : p.length ≤ 511) (hc : c.length ≤ 511)
    (hkept : keptOf c = keptOf p) (hhead : c.head? = p.head?) (fs : Fs) (base : Nat) :
    resolvePathInternal fs base (some c) = resolvePathInternal fs base (some p) := by
  have hstart : startOf fs base c = startOf fs base p := by
    unfold startOf
    rw [hhead]
  simp only [resolvePathInternal, hstart, tokens_eq, take_of_length_le hp,
    take_of_length_le hc]
  rw [← resolveLoop_filter, ← resolveLoop_filter fs.nodes _ (components p)]
  exact congrArg
    (fun ts => if base = 0 then some 0 else resolveLoop fs.nodes (startOf fs base p) ts) hkept

/-- The cleaning loop keeps the meaning of a path, as far as `resolve_path` reads it. -/
theorem cleaning_keeps (s : Bytes) (hnul : ∀ b ∈ s, b ≠ 0) :
    Cleaned (slash :: s) (cleanLoop 0 (slash :: s)) ∧
      ((slash :: s).length ≤ 511 → ∀ fs base,
        resolvePathInternal fs base (some (cleanLoop 0 (slash :: s))) =
          resolvePathInternal fs base (some (slash :: s))) := by
  obtain ⟨hplain, trail, htrail, hempty, heq⟩ := cleanLoop_eq s hnul
  have hlen := cleanLoop_length 0 (slash :: s)
  have hrun : cleanLoop 0 (slash :: s) = pathOf (keptOf s) ++ trail := by
    rw [cleanLoop_slash (by decide), heq]
  have hcomponents : components (pathOf (keptOf s) ++ trail) = keptOf s :=
    components_path (fun t ht => (hplain t ht).ne_nil) (fun t ht => (hplain t ht).noSlash) htrail
  have hkept : keptOf (pathOf (keptOf s) ++ trail) = keptOf (slash :: s) := by
    rw [keptOf_slash, keptOf, hcomponents]
    exact filter_eq_self.mpr fun t ht => by simpa using (hplain t ht).ne_dot
  have hhead : (pathOf (keptOf s) ++ trail).head? = some slash := by
    rw [← heq]
    rfl
  rw [hrun] at hlen ⊢
  refine ⟨⟨hlen, hhead, noDouble_pathOf hplain htrail, ?_, hkept, ?_⟩, ?_⟩
  · rw [hcomponents]
    exact fun hdot => (hplain dot hdot).ne_dot rfl
  · exact cleanLoop_pathOf hplain htrail (by decide)
  · exact fun hshort fs base => resolve_of_kept hshort (hlen.trans hshort) hkept hhead fs base

theorem cleaning_keeps_initrd :
    Cleaned (initrdPath ++ [slash, 0x2E, slash, slash, 0x61, slash, 0x2E])
      (initrdPath ++ [slash, 0x61, slash]) :=
  (cleaning_keeps (initrdPath.tail ++ [slash, 0x2E, slash, slash, 0x61, slash, 0x2E]) (by decide)).1

theorem components_slashes (n : Nat) : components (replicate n slash) = [] := by
  induction n with
  | zero => rfl
  | succ n ih => rw [replicate_succ, components_slash, ih]

theorem cleanLoop_slashes (n : Nat) (s : Bytes) :
    cleanLoop slash (replicate n slash ++ s) = cleanLoop slash s := by
  induction n with
  | zero => rfl
  | succ n ih =>
    rw [← ih, replicate_succ]
    exact @cleanLoop_skip [] _ (Or.inl rfl) (Or.inr rfl)

/-- Of 511 slashes and a name, `resolve_path` reads the slashes alone. -/
theorem cleaned_path_unlike :
    ∃ fs, initialise blank = some fs ∧
      cleanLoop 0 (replicate 511 slash ++ [0x61]) = [slash, 0x61] ∧
      resolvePath fs (some (replicate 511 slash ++ [0x61])) = some fs.root ∧
      resolvePath fs (some [slash, 0x61]) = some 0 ∧ fs.root ≠ 0 := by
  obtain ⟨fs, bs, hinit, -, hheld, hcwd, -⟩ := blank_started
  have hroot := hheld.linked.ne_zero hheld.linked.root_mem
  have hbase : fs.cwd ≠ 0 := hcwd ▸ hroot
  refine ⟨fs, hinit, ?_, ?_, ?_, hroot⟩
  · rw [replicate_succ, cons_append, cleanLoop_slash (by decide), cleanLoop_slashes]
    rfl
  · have htok : tokens (replicate 511 slash ++ [0x61]) = [] := by
      rw [tokens_eq, take_left' length_replicate, components_slashes]
    rw [resolvePath_some hbase, htok]
    rfl
  · exact resolve_missing hheld.linked (by decide) (by decide) (by decide) (by simp) hbase

end Terrakernel.Tmpfs
