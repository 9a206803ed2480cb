import Terrakernel.Lib.Tokens
import Terrakernel.Tmpfs.Initrd

/-!
# Paths as strings

A path is written with a slash before each of its components, and `strtok` gives them back.
-/

namespace Terrakernel.Tmpfs

open Memory Vmm List

variable {ps : Names} {trail t rest : Bytes}

/-- A component that stands for itself and is not cut when it is stored. -/
structure IsName (t : Bytes) : Prop where
  ne_nil : t ≠ []
  noSlash : ∀ b ∈ t, b ≠ slash
  noNul : ∀ b ∈ t, b ≠ 0
  ne_dot : t ≠ dot
  ne_dotdot : t ≠ dotdot
  short : t.length ≤ 127

instance (t : Bytes) : Decidable (IsName t) :=
  decidable_of_iff (t ≠ [] ∧ (∀ b ∈ t, b ≠ slash) ∧ (∀ b ∈ t, b ≠ 0) ∧ t ≠ dot ∧ t ≠ dotdot ∧
      t.length ≤ 127)
    ⟨fun ⟨h1, h2, h3, h4, h5, h6⟩ => ⟨h1, h2, h3, h4, h5, h6⟩,
      fun ⟨h1, h2, h3, h4, h5, h6⟩ => ⟨h1, h2, h3, h4, h5, h6⟩⟩

def pathOf (ps : Names) : Bytes := ps.flatMap (slash :: ·)

@[simp] theorem pathOf_nil : pathOf [] = [] := rfl

@[simp] theorem pathOf_cons (t : Bytes) (ts : Names) :
    pathOf (t :: ts) = slash :: (t ++ pathOf ts) := rfl

theorem pathOf_append (ps qs : Names) : pathOf (ps ++ qs) = pathOf ps ++ pathOf qs :=
  flatMap_append

theorem pathOf_ne_nil (h : ps ≠ []) : pathOf ps ≠ [] := by
  cases ps with
  | nil => exact absurd rfl h
  | cons t ts => simp

/-- The slash that `tar` puts behind the name of a directory. -/
def Trails (trail : Bytes) : Prop := trail = [] ∨ trail = [slash]

theorem Trails.head? (h : Trails trail) (ts : Names) :
    pathOf ts ++ trail = [] ∨ (pathOf ts ++ trail).head? = some slash := by
  cases ts with
  | nil => rcases h with rfl | rfl <;> simp
  | cons t ts => simp

/-! ## `strtok` -/

theorem strtok_slash (s : Bytes) : strtok (slash :: s) = strtok s := by
  unfold strtok
  rw [dropWhile_cons_of_pos (by simp)]

theorem tokenLoop_slash (fuel : Nat) (s : Bytes) :
    tokenLoop fuel (slash :: s) = tokenLoop fuel s := by
  cases fuel with
  | zero => rfl
  | succ fuel => simp only [tokenLoop, strtok_slash]

theorem strtok_token (h0 : t ≠ []) (hslash : ∀ b ∈ t, b ≠ slash)
    (hrest : rest = [] ∨ rest.head? = some slash) : strtok (t ++ rest) = some (t, rest.tail) := by
  have hall : ∀ b ∈ t, decide (b ≠ slash) = true := fun b hb => by simpa using hslash b hb
  have hstart : (t ++ rest).dropWhile (· = slash) = t ++ rest := by
    cases t with
    | nil => exact absurd rfl h0
    | cons b t =>
      rw [cons_append, dropWhile_cons_of_neg (by simpa using hslash b mem_cons_self)]
  have hbehind : rest.takeWhile (· ≠ slash) = [] ∧ rest.dropWhile (· ≠ slash) = rest := by
    cases rest with
    | nil => exact ⟨rfl, rfl⟩
    | cons b rest =>
      obtain rfl : b = slash := by simpa using hrest
      simp
  unfold strtok
  simp only [hstart]
  rw [if_neg (by simp [h0]), takeWhile_append_of_pos hall, dropWhile_append_of_pos hall,
    hbehind.1, hbehind.2, append_nil]

theorem exists_token (s : Bytes) : ∃ t rest, s = t ++ rest ∧ (∀ b ∈ t, b ≠ slash) ∧
    (rest = [] ∨ rest.head? = some slash) := by
  obtain ⟨t, rest, hs, ht, hrest⟩ := Tokens.exists_span (p := (· ≠ slash)) s
  refine ⟨t, rest, hs, ht, ?_⟩
  cases rest with
  | nil => exact .inl rfl
  | cons b rest => exact .inr (congrArg some (not_not.mp (hrest b rfl)))

/-- What stands between the slashes, where that is anything. -/
def components (s : Bytes) : Names := (s.splitOn slash).filter (· ≠ [])

theorem components_append (s s' : Bytes) :
    components (s ++ slash :: s') = components s ++ components s' := by
  unfold components
  rw [splitOn_append_cons_self, filter_append]

theorem components_token (h0 : t ≠ []) (hslash : ∀ b ∈ t, b ≠ slash)
    (hrest : rest = [] ∨ rest.head? = some slash) :
    components (t ++ rest) = t :: components rest.tail := by
  have hone : components t = [t] := by
    unfold components
    rw [splitOn_eq_singleton fun h => hslash _ h rfl, filter_cons_of_pos (by simpa using h0),
      filter_nil]
  cases rest with
  | nil => rw [append_nil, hone]; rfl
  | cons b rest =>
    obtain rfl : b = slash := by simpa using hrest
    rw [components_append, hone]
    rfl

theorem tokenLoop_eq {fuel : Nat} {s : Bytes} (h : s.length ≤ fuel) :
    tokenLoop fuel s = components s := by
  induction hn : s.length using Nat.strong_induction_on generalizing s fuel with
  | _ n ih =>
    obtain ⟨t, rest, rfl, hslash, hrest⟩ := exists_token s
    rw [length_append] at h hn
    by_cases h0 : t = []
    · subst h0
      rw [nil_append]
      cases rest with
      | nil => cases fuel <;> rfl
      | cons b rest =>
        obtain rfl : b = slash := by simpa using hrest
        rw [length_cons] at h hn
        rw [tokenLoop_slash, ih rest.length (by omega) (by omega) rfl]
        exact (components_append [] rest).symm
    · have hpos := length_pos_of_ne_nil h0
      obtain _ | fuel := fuel
      · omega
      rw [tokenLoop, strtok_token h0 hslash hrest, components_token h0 hslash hrest]
      simp only
      rw [ih rest.tail.length (by rw [length_tail]; omega) (by rw [length_tail]; omega) rfl]

theorem tokens_eq (path : Bytes) : tokens path = components (path.take 511) :=
  tokenLoop_eq ((length_take_le _ _).trans (by decide))

theorem tokens_append {p q : Bytes} (h : (p ++ slash :: q).length ≤ 511) :
    tokens (p ++ slash :: q) = tokens p ++ tokens q := by
  rw [length_append, length_cons] at h
  rw [tokens_eq, tokens_eq, tokens_eq, take_of_length_le (by simpa using h),
    take_of_length_le (by omega), take_of_length_le (by omega), components_append]

theorem components_pathOf {ts : Names} (ht : ∀ u ∈ t :: ts, u ≠ [])
    (hslash : ∀ u ∈ t :: ts, ∀ b ∈ u, b ≠ slash) (htrail : Trails trail) :
    components (t ++ (pathOf ts ++ trail)) = t :: ts := by
  induction ts generalizing t with
  | nil =>
    rw [components_token (ht t mem_cons_self) (hslash t mem_cons_self) (htrail.head? [])]
    rcases htrail with rfl | rfl <;> rfl
  | cons u us ih =>
    rw [components_token (ht t mem_cons_self) (hslash t mem_cons_self) (htrail.head? _),
      pathOf_cons]
    simp only [cons_append, tail_cons, append_assoc]
    rw [ih (fun v hv => ht v (mem_cons_of_mem _ hv))
      (fun v hv => hslash v (mem_cons_of_mem _ hv))]

theorem components_path (h0 : ∀ t ∈ ps, t ≠ []) (hslash : ∀ t ∈ ps, ∀ b ∈ t, b ≠ slash)
    (htrail : Trails trail) : components (pathOf ps ++ trail) = ps := by
  cases ps with
  | nil => rcases htrail with rfl | rfl <;> rfl
  | cons t ts =>
    rw [pathOf_cons, cons_append, append_assoc, ← nil_append (slash :: _),
      components_append, components_pathOf h0 hslash htrail]
    rfl

theorem tokens_pathOf (h0 : ∀ t ∈ ps, t ≠ []) (hslash : ∀ t ∈ ps, ∀ b ∈ t, b ≠ slash)
    (htrail : Trails trail) (hlen : (pathOf ps ++ trail).length ≤ 511) :
    tokens (pathOf ps ++ trail) = ps := by
  rw [tokens_eq, take_of_length_le hlen, components_path h0 hslash htrail]

/-! ## The loop that cleans -/

theorem cleanLoop_slash {prev : Byte} (h : prev ≠ slash) (src : Bytes) :
    cleanLoop prev (slash :: src) = slash :: cleanLoop slash src := by
  conv_lhs => unfold cleanLoop
  rw [if_pos rfl, if_pos h]

theorem cleanLoop_copy {prev c : Byte} {src : Bytes} (hc : c ≠ slash)
    (h : ¬ (c = 0x2E ∧ (prev = slash ∨ prev = 0) ∧ (src.head? = some slash ∨ src = []))) :
    cleanLoop prev (c :: src) = c :: cleanLoop c src := by
  conv_lhs => unfold cleanLoop
  rw [if_neg hc, if_neg h]

theorem cleanLoop_bytes {s rest : Bytes} {prev : Byte} (hslash : ∀ b ∈ s, b ≠ slash)
    (hnul : ∀ b ∈ s, b ≠ 0) (h1 : prev ≠ slash) (h0 : prev ≠ 0) :
    ∃ p, p ≠ slash ∧ cleanLoop prev (s ++ rest) = s ++ cleanLoop p rest := by
  induction s generalizing prev with
  | nil => exact ⟨prev, h1, rfl⟩
  | cons c s ih =>
    obtain ⟨p, hp, he⟩ := ih (fun b hb => hslash b (mem_cons_of_mem _ hb))
      (fun b hb => hnul b (mem_cons_of_mem _ hb)) (hslash c mem_cons_self)
      (hnul c mem_cons_self)
    refine ⟨p, hp, ?_⟩
    rw [cons_append, cleanLoop_copy (hslash c mem_cons_self), he, cons_append]
    rintro ⟨-, hprev, -⟩
    exact hprev.elim h1 h0

/-- A component that the loop copies. -/
structure Plain (t : Bytes) : Prop where
  ne_nil : t ≠ []
  noSlash : ∀ b ∈ t, b ≠ slash
  noNul : ∀ b ∈ t, b ≠ 0
  ne_dot : t ≠ dot

theorem IsName.plain (ht : IsName t) : Plain t :=
  ⟨ht.ne_nil, ht.noSlash, ht.noNul, ht.ne_dot⟩

theorem Plain.copied (ht : Plain t) (rest : Bytes) :
    ∃ p, p ≠ slash ∧ cleanLoop slash (t ++ rest) = t ++ cleanLoop p rest := by
  cases t with
  | nil => exact absurd rfl ht.ne_nil
  | cons c s =>
    have hc := ht.noSlash c mem_cons_self
    obtain ⟨p, hp, he⟩ := @cleanLoop_bytes s rest c (fun b hb => ht.noSlash b (mem_cons_of_mem _ hb))
      (fun b hb => ht.noNul b (mem_cons_of_mem _ hb)) hc (ht.noNul c mem_cons_self)
    refine ⟨p, hp, ?_⟩
    rw [cons_append, cleanLoop_copy hc, he, cons_append]
    -- A dot alone is not copied, and behind another one stands a byte of the component.
    rintro ⟨rfl, -, hend⟩
    cases s with
    | nil => exact ht.ne_dot rfl
    | cons b s =>
      refine ht.noSlash b (by simp) ?_
      simpa using hend

theorem cleanLoop_pathOf (hps : ∀ t ∈ ps, Plain t) (htrail : Trails trail) {prev : Byte}
    (hprev : prev ≠ slash) : cleanLoop prev (pathOf ps ++ trail) = pathOf ps ++ trail := by
  induction ps generalizing prev with
  | nil =>
    rcases htrail with rfl | rfl
    · rfl
    · exact cleanLoop_slash hprev []
  | cons t ts ih =>
    obtain ⟨p, hp, he⟩ := (hps t mem_cons_self).copied (pathOf ts ++ trail)
    rw [pathOf_cons, cons_append, append_assoc, cleanLoop_slash hprev, he,
      ih (fun u hu => hps u (mem_cons_of_mem _ hu)) hp]

theorem Trails.take (h : Trails trail) {n : Nat} (hlen : (pathOf ps).length ≤ n) :
    ∃ trail', Trails trail' ∧ (trail = [] → trail' = []) ∧
      (pathOf ps ++ trail).take n = pathOf ps ++ trail' := by
  refine ⟨trail.take (n - (pathOf ps).length), ?_, ?_, ?_⟩
  · rcases h with rfl | rfl
    · exact .inl take_nil
    · cases n - (pathOf ps).length with
      | zero => exact .inl rfl
      | succ k => exact .inr (by simp)
  · rintro rfl
    exact take_nil
  · rw [take_append, take_of_length_le hlen]

end Terrakernel.Tmpfs
