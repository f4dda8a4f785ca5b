import Mathlib.Tactic

/-!
# Numbers as octet strings

The number of a string of bytes, highest byte first, and the string of `n` bytes of a
number. Each undoes the other on strings of that length and on numbers that fit.
-/
namespace Octets

/-- The number of a string of bytes, highest first. -/
def os2ip (bytes : List UInt8) : ℕ := bytes.foldl (fun v b => v * 256 + b.toNat) 0

/-- The lowest `n` bytes of a number, highest first. -/
def i2osp : ℕ → ℕ → List UInt8
  | 0, _ => []
  | n + 1, v => i2osp n (v / 256) ++ [UInt8.ofNat v]

@[simp] theorem os2ip_nil : os2ip [] = 0 := rfl

@[simp] theorem os2ip_append_singleton (bytes : List UInt8) (b : UInt8) :
    os2ip (bytes ++ [b]) = os2ip bytes * 256 + b.toNat := by
  simp [os2ip]

@[simp] theorem length_i2osp (n v : ℕ) : (i2osp n v).length = n := by
  induction n generalizing v with
  | zero => rfl
  | succ n ih => simp [i2osp, ih]

theorem os2ip_lt (bytes : List UInt8) : os2ip bytes < 256 ^ bytes.length := by
  induction bytes using List.reverseRecOn with
  | nil => simp
  | append_singleton bytes b ih =>
    have hb := b.toNat_lt
    rw [os2ip_append_singleton, List.length_append, List.length_singleton, pow_succ]
    omega

theorem os2ip_i2osp (n v : ℕ) : os2ip (i2osp n v) = v % 256 ^ n := by
  induction n generalizing v with
  | zero => simp [i2osp, Nat.mod_one]
  | succ n ih =>
    have hlow : (UInt8.ofNat v).toNat = v % 256 := by simp
    rw [i2osp, os2ip_append_singleton, ih, hlow, pow_succ', Nat.mod_mul]
    ring

theorem i2osp_os2ip {n : ℕ} {bytes : List UInt8} (h : bytes.length = n) :
    i2osp n (os2ip bytes) = bytes := by
  induction bytes using List.reverseRecOn generalizing n with
  | nil =>
    obtain rfl : n = 0 := h.symm
    rfl
  | append_singleton bytes b ih =>
    obtain rfl : n = bytes.length + 1 := by simpa using h.symm
    have hb := b.toNat_lt
    have hhigh : (os2ip bytes * 256 + b.toNat) / 256 = os2ip bytes := by omega
    have hlow : UInt8.ofNat (os2ip bytes * 256 + b.toNat) = b := by
      apply UInt8.toNat_inj.mp
      rw [UInt8.toNat_ofNat']
      omega
    rw [os2ip_append_singleton, i2osp, hhigh, hlow, ih rfl]

/-- Four bytes at once. -/
theorem i2osp_add_four (n v w : ℕ) (hw : w < 2 ^ 32) :
    i2osp (n + 4) (w + 2 ^ 32 * v) = i2osp n v ++ [UInt8.ofNat (w / 2 ^ 24),
      UInt8.ofNat (w / 2 ^ 16), UInt8.ofNat (w / 2 ^ 8), UInt8.ofNat w] := by
  have hv : (w + 2 ^ 32 * v) / 256 / 256 / 256 / 256 = v := by omega
  have h₃ : UInt8.ofNat ((w + 2 ^ 32 * v) / 256 / 256 / 256) = UInt8.ofNat (w / 2 ^ 24) := by
    apply UInt8.toNat_inj.mp
    rw [UInt8.toNat_ofNat', UInt8.toNat_ofNat']
    omega
  have h₂ : UInt8.ofNat ((w + 2 ^ 32 * v) / 256 / 256) = UInt8.ofNat (w / 2 ^ 16) := by
    apply UInt8.toNat_inj.mp
    rw [UInt8.toNat_ofNat', UInt8.toNat_ofNat']
    omega
  have h₁ : UInt8.ofNat ((w + 2 ^ 32 * v) / 256) = UInt8.ofNat (w / 2 ^ 8) := by
    apply UInt8.toNat_inj.mp
    rw [UInt8.toNat_ofNat', UInt8.toNat_ofNat']
    omega
  have h₀ : UInt8.ofNat (w + 2 ^ 32 * v) = UInt8.ofNat w := by
    apply UInt8.toNat_inj.mp
    rw [UInt8.toNat_ofNat', UInt8.toNat_ofNat']
    omega
  rw [i2osp, i2osp, i2osp, i2osp, hv, h₃, h₂, h₁, h₀]
  simp

end Octets
