import Terrakernel.Tmpfs.Invariant

/-!
# Calls that start at a directory

`mkdirat` and `openat` are `mkdir` and `open` with another place to start from.
-/

namespace Terrakernel.Tmpfs

open Memory Option

/-- The state in another working directory. -/
def goTo (b : Nat) (fs : Fs) : Fs := { fs with cwd := b }

theorem appendChild_goTo (b : Nat) (fs : Fs) (curr c : Nat) :
    appendChild (goTo b fs) curr c = (appendChild fs curr c).map (goTo b) := by
  have hnodes : (goTo b fs).nodes = fs.nodes := rfl
  unfold appendChild
  rw [hnodes]
  by_cases h0 : (fs.nodes curr).firstChild = 0
  · rw [if_pos h0, if_pos h0]
    rfl
  · rw [if_neg h0, if_neg h0]
    cases lastSibling fs.nodes (fs.nodes curr).firstChild <;> rfl

theorem addChild_goTo (b : Nat) (fs : Fs) (curr : Nat) (token : Bytes) (isDir : Bool)
    (mode : Nat) : addChild (goTo b fs) curr token isDir mode =
      (addChild fs curr token isDir mode).map fun r => (r.1, goTo b r.2) := by
  have hheap : (goTo b fs).heap = fs.heap := rfl
  unfold addChild
  rw [hheap]
  cases fs.heap.malloc nodeSize with
  | none => rfl
  | some x =>
    simp only [bind_eq_bind, bind_some]
    by_cases h0 : x.1 = 0
    · rw [if_pos h0, if_pos h0]
      rfl
    · rw [if_neg h0, if_neg h0]
      have happ := appendChild_goTo b
        ({ fs with heap := x.2 }.setNode x.1 fun _ => newNode token curr isDir mode) curr x.1
      have hset : goTo b ({ fs with heap := x.2 }.setNode x.1 fun _ => newNode token curr isDir mode) =
          { goTo b fs with heap := x.2 }.setNode x.1 fun _ => newNode token curr isDir mode := rfl
      rw [hset] at happ
      rw [happ]
      cases appendChild ({ fs with heap := x.2 }.setNode x.1 fun _ => newNode token curr isDir mode)
        curr x.1 <;> rfl

theorem createLoop_goTo (b : Nat) (isDir : Bool) (mode : Nat) (fs : Fs) (curr : Nat)
    (ts : Names) : createLoop isDir mode (goTo b fs) curr ts =
      (createLoop isDir mode fs curr ts).map fun r => (r.1, goTo b r.2) := by
  induction ts generalizing fs curr with
  | nil => rfl
  | cons t ts ih =>
    have hnodes : (goTo b fs).nodes = fs.nodes := rfl
    rw [createLoop_cons, createLoop_cons, hnodes]
    by_cases h1 : t = dot
    · rw [if_pos h1, if_pos h1]
      exact ih fs curr
    by_cases h2 : t = dotdot
    · rw [if_neg h1, if_neg h1, if_pos h2, if_pos h2]
      exact ih fs _
    rw [if_neg h1, if_neg h1, if_neg h2, if_neg h2]
    cases findChild fs.nodes t (fs.nodes curr).firstChild with
    | none => rfl
    | some c =>
      simp only [bind_some]
      by_cases h0 : c ≠ 0
      · rw [if_pos h0, if_pos h0]
        exact ih fs c
      · rw [if_neg h0, if_neg h0, addChild_goTo]
        cases addChild fs curr t (if ts.isEmpty then isDir else true)
            (if ts.isEmpty then mode else 0o755) with
        | none => rfl
        | some x =>
          simp only [map_some, bind_some]
          by_cases hx : x.1 = 0
          · rw [if_pos hx, if_pos hx]
            rfl
          · rw [if_neg hx, if_neg hx]
            exact ih x.2 x.1

theorem createAtPathInternal_goTo (b : Nat) (fs : Fs) (base : Nat) (path : Path) (isDir : Bool)
    (mode : Nat) : createAtPathInternal (goTo b fs) base path isDir mode =
      (createAtPathInternal fs base path isDir mode).map fun r => (r.1, goTo b r.2) := by
  unfold createAtPathInternal
  cases path with
  | none => rfl
  | some p =>
    simp only
    split_ifs
    · rfl
    · exact createLoop_goTo b isDir mode fs _ _

/-! ## `mkdir` and `mkdirat` -/

/-- What `mkdir` writes to its node. -/
def wiped (mode : Nat) (n : Node) : Node :=
  { n with isDir := true, firstChild := 0, nextSibling := 0, content := 0, size := 0, mode }

/-- `mkdir` from the directory `base`. -/
def mkdirFrom (fs : Fs) (base : Nat) (path : Path) (mode : Nat) : Option (Int × Fs) :=
  (createAtPathInternal fs base path true mode).map fun r =>
    if r.1 = 0 then (-1, r.2) else (0, r.2.setNode r.1 (wiped mode))

theorem mkdir_eq (fs : Fs) (path : Path) (mode : Nat) :
    mkdir fs path mode = mkdirFrom fs fs.cwd path mode := by
  unfold mkdir mkdirFrom createAtPath
  cases createAtPathInternal fs fs.cwd path true mode with
  | none => rfl
  | some x =>
    simp only [bind_eq_bind, bind_some, map_some]
    split_ifs <;> rfl

theorem mkdirFrom_goTo (b : Nat) (fs : Fs) (base : Nat) (path : Path) (mode : Nat) :
    mkdirFrom (goTo b fs) base path mode =
      (mkdirFrom fs base path mode).map fun r => (r.1, goTo b r.2) := by
  unfold mkdirFrom
  rw [createAtPathInternal_goTo, Option.map_map, Option.map_map]
  refine congrArg (fun f => Option.map f _) (funext fun x => ?_)
  simp only [Function.comp_apply]
  split_ifs <;> rfl

/-! ## `open` and `openat` -/

/-- `open` from the directory `base`. -/
def openFrom (fs : Fs) (base : Nat) (path : Path) (flags : BitVec 32) (mode : Nat)
    (devpath : Path) : Option (Int × Fs) :=
  if path = none then some (-1, fs)
  else (resolvePathInternal fs base path).bind fun n =>
    if n = 0 ∧ flags &&& oCreat ≠ 0 then
      (createAtPathInternal fs base path false mode).bind fun r =>
        if r.1 = 0 then some (-2, r.2)
        else (makeDevice r.2 r.1 flags devpath).map fun fs => openNode fs r.1 flags mode
    else some (openNode fs n flags mode)

theorem open_eq (fs : Fs) (path : Path) (flags : BitVec 32) (mode : Nat) (devpath : Path) :
    Tmpfs.open fs path flags mode devpath = openFrom fs fs.cwd path flags mode devpath := by
  unfold Tmpfs.open openFrom resolvePath createAtPath
  by_cases hp : path = none
  · rw [if_pos hp, if_pos hp]
  rw [if_neg hp, if_neg hp]
  cases resolvePathInternal fs fs.cwd path with
  | none => rfl
  | some n =>
    simp only [bind_eq_bind, bind_some]
    by_cases hn : n = 0 ∧ flags &&& oCreat ≠ 0
    · rw [if_pos hn, if_pos hn]
      cases createAtPathInternal fs fs.cwd path false mode with
      | none => rfl
      | some x =>
        simp only [bind_some]
        by_cases h0 : x.1 = 0
        · rw [if_pos h0, if_pos h0]
        · rw [if_neg h0, if_neg h0]
          cases makeDevice x.2 x.1 flags devpath <;> rfl
    · rw [if_neg hn, if_neg hn]

theorem openNode_goTo (b : Nat) (fs : Fs) (n : Nat) (flags : BitVec 32) (mode : Nat) :
    openNode (goTo b fs) n flags mode =
      ((openNode fs n flags mode).1, goTo b (openNode fs n flags mode).2) := by
  have hfds : (goTo b fs).fds = fs.fds := rfl
  unfold openNode allocFd
  rw [hfds]
  by_cases h0 : n = 0
  · rw [if_pos h0, if_pos h0]
  · rw [if_neg h0, if_neg h0]
    cases (List.finRange 256).find? fun i => (fs.fds i).free <;> rfl

theorem makeDevice_goTo (b : Nat) (fs : Fs) (n : Nat) (flags : BitVec 32) (devpath : Path) :
    makeDevice (goTo b fs) n flags devpath = (makeDevice fs n flags devpath).map (goTo b) := by
  unfold makeDevice
  by_cases hflag : flags &&& oBuiltinDeviceFile = 0
  · rw [if_pos hflag, if_pos hflag]
    rfl
  · rw [if_neg hflag, if_neg hflag]
    cases devpath <;> rfl

theorem openFrom_goTo (b : Nat) (fs : Fs) (base : Nat) (path : Path) (flags : BitVec 32)
    (mode : Nat) (devpath : Path) : openFrom (goTo b fs) base path flags mode devpath =
      (openFrom fs base path flags mode devpath).map fun r => (r.1, goTo b r.2) := by
  have hres : resolvePathInternal (goTo b fs) base path = resolvePathInternal fs base path := rfl
  unfold openFrom
  rw [hres, createAtPathInternal_goTo]
  by_cases hp : path = none
  · rw [if_pos hp, if_pos hp]
    rfl
  rw [if_neg hp, if_neg hp]
  cases resolvePathInternal fs base path with
  | none => rfl
  | some n =>
    simp only [bind_some]
    by_cases hn : n = 0 ∧ flags &&& oCreat ≠ 0
    · rw [if_pos hn, if_pos hn]
      cases createAtPathInternal fs base path false mode with
      | none => rfl
      | some x =>
        simp only [map_some, bind_some]
        by_cases h0 : x.1 = 0
        · rw [if_pos h0, if_pos h0]
          rfl
        · rw [if_neg h0, if_neg h0]
          rw [makeDevice_goTo, Option.map_map, Option.map_map]
          refine congrArg (fun f => Option.map f _) (funext fun fs1 => ?_)
          exact openNode_goTo b fs1 x.1 flags mode
    · rw [if_neg hn, if_neg hn, openNode_goTo, map_some]

theorem back_of_goTo {F : Fs → Option (Int × Fs)}
    (hF : ∀ b fs, F (goTo b fs) = (F fs).map fun r => (r.1, goTo b r.2)) (b : Nat) (fs : Fs) :
    (F (goTo b fs)).map (fun r => (r.1, goTo fs.cwd r.2)) = F fs := by
  have hback := hF fs.cwd fs
  rw [show goTo fs.cwd fs = fs from rfl] at hback
  rw [hF, Option.map_map]
  exact hback.symm

theorem mkdirat_eq (fs : Fs) (dirfd : Int) (path : Path) (mode : Nat) :
    mkdirat fs dirfd path mode = mkdirFrom fs (dirOf fs dirfd) path mode := by
  have hback := back_of_goTo (F := fun fs' => mkdirFrom fs' (dirOf fs dirfd) path mode)
    (fun b fs' => mkdirFrom_goTo b fs' _ path mode) (dirOf fs dirfd) fs
  rw [← hback]
  unfold mkdirat
  rw [mkdir_eq]
  change _ = (mkdirFrom { fs with cwd := dirOf fs dirfd } (dirOf fs dirfd) path mode).map _
  cases mkdirFrom { fs with cwd := dirOf fs dirfd } (dirOf fs dirfd) path mode <;> rfl

theorem openat_eq (fs : Fs) (dirfd : Int) (path : Path) (flags : BitVec 32) (mode : Nat) :
    openat fs dirfd path flags mode = openFrom fs (dirOf fs dirfd) path flags mode none := by
  have hback := back_of_goTo (F := fun fs' => openFrom fs' (dirOf fs dirfd) path flags mode none)
    (fun b fs' => openFrom_goTo b fs' _ path flags mode none) (dirOf fs dirfd) fs
  rw [← hback]
  unfold openat
  rw [open_eq]
  change _ = (openFrom { fs with cwd := dirOf fs dirfd } (dirOf fs dirfd) path flags mode none).map _
  cases openFrom { fs with cwd := dirOf fs dirfd } (dirOf fs dirfd) path flags mode none <;> rfl

end Terrakernel.Tmpfs
