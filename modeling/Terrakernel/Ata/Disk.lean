import Terrakernel.Ata.Transfer
import Terrakernel.Lib.Fields

/-!
# The disk as an array of bytes

Requests one after the other copy bytes from memory to disk and back.
-/

namespace Terrakernel.Ata

open Memory Fields

/-- The body of `ahci_transfer` is empty, so what comes of a call of it is left open. -/
abbrev AhciTransfer :=
  (s : Ata) → (lba sectorCount buffer : Nat) → (isWriteOp : Bool) → AtaRun (Nat × Ata)

variable (ahciTransfer : AhciTransfer) (ataMode : Bool)

def ahciDriverRead (fuel : Nat) (s : Ata) (lba sectorCount buffer : Nat) : AtaRun (Nat × Ata) :=
  if ataMode then ataTransfer fuel s lba sectorCount buffer false
  else ahciTransfer s lba sectorCount buffer false

def ahciDriverWrite (fuel : Nat) (s : Ata) (lba sectorCount buffer : Nat) : AtaRun (Nat × Ata) :=
  if ataMode then ataTransfer fuel s lba sectorCount buffer true
  else ahciTransfer s lba sectorCount buffer true

structure Request extends AtaCommand where
  buffer : Nat

namespace Request

def exec (fuel : Nat) (s : Ata) (r : Request) : AtaRun (Nat × Ata) :=
  (if r.isWrite then ahciDriverWrite else ahciDriverRead) ahciTransfer ataMode fuel s r.lba r.sectors
    r.buffer

/-- What a request does to an array of bytes and to memory. -/
def copy (r : Request) (disk : Nat → Byte) (m : Mem) : (Nat → Byte) × Mem :=
  if r.isWrite then
    (fun i => if 512 * r.lba ≤ i ∧ i < 512 * (r.lba + r.sectors) then
      m (r.buffer + (i - 512 * r.lba)) else disk i, m)
  else
    (disk, fun x => if r.buffer ≤ x ∧ x < r.buffer + 512 * r.sectors then
      disk (512 * r.lba + (x - r.buffer)) else m x)

end Request

/-- The requests return one after the other, each with the size of its sectors. -/
inductive Served : Ata → List Request → Ata → Prop
  | none (s : Ata) : Served s [] s
  | next {s s₁ s' : Ata} {r : Request} {rs : List Request} (fuel : Nat) :
      r.exec ahciTransfer ataMode fuel s = .done (512 * r.sectors, s₁) → Served s₁ rs s' →
      Served s (r :: rs) s'

/-- The bytes of the disk, two to a word. -/
def bytes (s : Ata) (i : Nat) : Byte := .ofNat 8 ((s.device.disk (i / 2)).toNat / 256 ^ (i % 2))

theorem byte_of_word (m : Mem) (a i : Nat) :
    BitVec.ofNat 8 (load m (a + 2 * (i / 2)) 2 / 256 ^ (i % 2)) = m (a + i) := by
  apply BitVec.eq_of_toNat_eq
  have h := load_field m (by omega : i % 2 + 1 ≤ 2) (a + 2 * (i / 2))
  rw [show a + 2 * (i / 2) + i % 2 = a + i by omega] at h
  simpa [load] using h

theorem Moved.copied {s s' : Ata} {r : Request}
    (h : Moved s s' r.buffer r.toAtaCommand (256 * r.sectors)) :
    (s'.bytes, s'.mem) = r.copy s.bytes s.mem := by
  have hword : ∀ j, (512 * r.lba + j) / 2 = 256 * r.lba + j / 2 ∧
      (512 * r.lba + j) % 2 = j % 2 := by omega
  cases hw : r.isWrite with
  | true =>
    obtain ⟨hmem, hin, hout⟩ := h.written hw
    rw [Request.copy, if_pos hw, hmem]
    congr 1
    funext i
    split_ifs with hi
    · obtain ⟨j, rfl⟩ := Nat.exists_eq_add_of_le hi.1
      have hlt := load_lt s.mem 2 (r.buffer + 2 * (j / 2))
      rw [bytes, (hword j).1, (hword j).2, hin _ (by omega), wordOf, if_pos hw, UInt16.toNat_ofNat',
        Nat.mod_eq_of_lt (by omega), byte_of_word, Nat.add_sub_cancel_left]
    · rw [bytes, hout _ (by omega)]
      rfl
  | false =>
    obtain ⟨hdisk, hin, hout⟩ := h.read hw
    have hbytes : s'.bytes = s.bytes := funext fun i => by rw [bytes, hdisk, bytes]
    rw [Request.copy, if_neg (by simp [hw]), hbytes]
    congr 1
    funext x
    split_ifs with hx
    · obtain ⟨j, rfl⟩ := Nat.exists_eq_add_of_le hx.1
      have hload := hin (j / 2) (by omega)
      rw [wordOf, if_neg (by simp [hw])] at hload
      rw [Nat.add_sub_cancel_left, bytes, (hword j).1, (hword j).2, ← hload, byte_of_word]
    · exact hout x (by omega)

/-- In ATA mode every request of 1 to 65536 sectors returns, and a run of them copies bytes between
memory and an array. -/
theorem requests_copy_bytes (s : Ata) (rs : List Request)
    (hrs : ∀ r ∈ rs, r.lba < 2 ^ 48 ∧ 1 ≤ r.sectors ∧ r.sectors ≤ 65536) :
    ∃ s', Served ahciTransfer true s rs s' ∧
      (s'.bytes, s'.mem) = rs.foldl (fun store r => r.copy store.1 store.2) (s.bytes, s.mem) := by
  induction rs generalizing s with
  | nil => exact ⟨s, .none s, rfl⟩
  | cons r rs ih =>
    obtain ⟨⟨hlba, hcount⟩, hrs⟩ := List.forall_mem_cons.mp hrs
    obtain ⟨looks, hbusy, hdelay⟩ := exists_looks s r.sectors
    obtain ⟨s₁, hdone, hmoved⟩ :=
      ataTransfer_moves s r.buffer r.isWrite hlba (asked_eq.mpr hcount) hbusy hdelay
    obtain ⟨s', hserved, hstore⟩ := ih s₁ hrs
    refine ⟨s', .next looks ?_ hserved, by rw [hstore, hmoved.copied, List.foldl_cons]⟩
    rw [← hdone]
    cases h : r.isWrite <;> simp [Request.exec, h, ahciDriverRead, ahciDriverWrite]

theorem requests_copy_bytes_back :
    ∃ s', Served (fun s _ _ _ _ => .waiting s) true ⟨idleDrive.device, fun x => .ofNat 8 x⟩
        [⟨⟨true, 7, 1⟩, 0x1001⟩, ⟨⟨false, 7, 1⟩, 0x3000⟩] s' ∧
      ∀ j < 512, s'.mem (0x3000 + j) = .ofNat 8 (0x1001 + j) := by
  obtain ⟨s', hserved, hstore⟩ :=
    requests_copy_bytes (fun s _ _ _ _ => .waiting s) ⟨idleDrive.device, fun x => .ofNat 8 x⟩
      [⟨⟨true, 7, 1⟩, 0x1001⟩, ⟨⟨false, 7, 1⟩, 0x3000⟩] (by decide)
  refine ⟨s', hserved, fun j hj => ?_⟩
  have hread : 0x3000 + j < 0x3200 := by omega
  have hwrite : 0xe00 + j < 0x1000 := by omega
  rw [show s'.mem = _ from congrArg Prod.snd hstore]
  simp [Request.copy, hread, hwrite]

end Terrakernel.Ata
