/-
The disk that the build makes: boot/sign.pl, and the rules for kernel.img in kern/Makefrag.

The image is 10000 blocks of zeros, over which `dd` writes the signed boot block and, from the second block on, the kernel.

- `sign_iff`: which boot blocks can be signed, and what they become.
- **`kernelImg_layout`**: the first sector is the boot block, with the signature that a BIOS looks for, and the image of the
  kernel is the kernel's file, and zeros behind it up to the end of the disk.
-/
import Jos.Boot.Segments
import Mathlib.Data.List.GetD

namespace Jos.Boot

/-! ## boot/sign.pl -/

/-- what a boot block becomes, or none if the script exits with an error -/
def sign (boot : List Byte) : Option (List Byte) :=
  -- read(BB, $buf, 1000)
  let buf := boot.take 1000
  let n := buf.length
  if n > 510 then none
  else some (buf ++ List.replicate (510 - n) 0 ++ [0x55, 0xAA])

/-! ## kern/Makefrag -/

/-- `dd if=input of=img seek=n conv=notrunc`, in blocks of 512 bytes: a file that is too short is filled up with zeros -/
def dd (input : List Byte) (seek : ℕ) (img : List Byte) : List Byte :=
  img.take (512 * seek) ++ List.replicate (512 * seek - img.length) 0 ++ input ++ img.drop (512 * seek + input.length)

/-- `kernel.img` -/
def kernelImg (boot kernel : List Byte) : Option (List Byte) :=
  -- dd if=/dev/zero count=10000
  let img := List.replicate (512 * 10000) 0
  (sign boot).map fun boot => dd kernel 1 (dd boot 0 img)

/-- a disk that begins with the bytes of img -/
def Disk.Holds (d : Disk) (img : List Byte) : Prop := ∀ k (h : k < img.length), d.byte k = img[k]

/-! ## Copies -/

theorem length_dd (input : List Byte) (seek : ℕ) (img : List Byte) :
    (dd input seek img).length = max img.length (512 * seek + input.length) := by
  simp only [dd, List.length_append, List.length_take, List.length_replicate, List.length_drop]
  omega

/-- the bytes of a file after a copy into it -/
theorem dd_getD {seek : ℕ} {img : List Byte} (h : 512 * seek ≤ img.length) (input : List Byte) (k : ℕ) :
    (dd input seek img).getD k 0 =
      if 512 * seek ≤ k ∧ k < 512 * seek + input.length then input.getD (k - 512 * seek) 0 else img.getD k 0 := by
  have hfirst : (img.take (512 * seek)).length = 512 * seek := by
    rw [List.length_take]
    omega
  have hnone : 512 * seek - img.length = 0 := by omega
  rw [dd, hnone, List.replicate_zero, List.append_nil, List.append_assoc]
  rcases Nat.lt_or_ge k (512 * seek) with hk | hk
  · rw [if_neg (by omega), List.getD_append _ _ _ _ (by omega), List.getD_eq_getElem?_getD, List.getElem?_take_of_lt hk,
      List.getD_eq_getElem?_getD]
  · rw [List.getD_append_right _ _ _ _ (by omega), hfirst]
    rcases Nat.lt_or_ge k (512 * seek + input.length) with hk' | hk'
    · rw [if_pos ⟨hk, hk'⟩, List.getD_append _ _ _ _ (by omega)]
    · rw [if_neg (by omega), List.getD_append_right _ _ _ _ (by omega), List.getD_eq_getElem?_getD, List.getElem?_drop,
        List.getD_eq_getElem?_getD]
      congr 2
      omega

/-! ## The boot block -/

/-- signing works for up to 510 bytes -/
theorem sign_iff (boot s : List Byte) :
    sign boot = some s ↔ boot.length ≤ 510 ∧ s = boot ++ List.replicate (510 - boot.length) 0 ++ [0x55, 0xAA] := by
  have hlen : (boot.take 1000).length = min 1000 boot.length := List.length_take
  unfold sign
  simp only [hlen]
  split_ifs with h
  · constructor
    · exact fun he => absurd he (by simp)
    · rintro ⟨hle, -⟩
      omega
  · rw [List.take_of_length_le (by omega), Option.some.injEq, show min 1000 boot.length = boot.length by omega]
    constructor
    · rintro rfl
      exact ⟨by omega, rfl⟩
    · rintro ⟨-, rfl⟩
      rfl

/-- the bytes of a signed boot block -/
theorem sign_getD {boot s : List Byte} (h : sign boot = some s) :
    s.length = 512 ∧ (∀ k < 510, s.getD k 0 = boot.getD k 0) ∧ s.getD 510 0 = 0x55 ∧ s.getD 511 0 = 0xAA := by
  obtain ⟨hle, rfl⟩ := (sign_iff boot s).1 h
  have hpad : (boot ++ List.replicate (510 - boot.length) (0 : Byte)).length = 510 := by
    rw [List.length_append, List.length_replicate]
    omega
  refine ⟨by rw [List.length_append, hpad]; rfl, fun k hk => ?_, ?_, ?_⟩
  · rw [List.getD_append _ _ _ _ (by omega)]
    rcases Nat.lt_or_ge k boot.length with hb | hb
    · rw [List.getD_append _ _ _ _ hb]
    · rw [List.getD_append_right _ _ _ _ hb, List.getD_eq_default _ _ hb, List.getD_eq_getElem?_getD,
        List.getElem?_replicate]
      split <;> rfl
  · rw [List.getD_append_right _ _ _ _ (by omega), hpad]
    rfl
  · rw [List.getD_append_right _ _ _ _ (by omega), hpad]
    rfl

/-! ## The disk -/

theorem Disk.Holds.getD {d : Disk} {img : List Byte} (h : d.Holds img) {k : ℕ} (hk : k < img.length) :
    d.byte k = img.getD k 0 := by
  rw [h k hk, List.getD_eq_getElem _ _ hk]

/-- **The disk.** The build succeeds if the boot block has at most 510 bytes. Then the first sector is the boot block,
filled up with zeros to the signature, and the image that the loader reads is the kernel's file, filled up with zeros to
the end. -/
theorem kernelImg_layout (boot kernel : List Byte) :
    ((∃ img, kernelImg boot kernel = some img) ↔ boot.length ≤ 510) ∧
      ∀ img, kernelImg boot kernel = some img → ∀ d : Disk, d.Holds img →
        (∀ k < 510, d.byte k = boot.getD k 0) ∧ d.byte 510 = 0x55 ∧ d.byte 511 = 0xAA ∧
          (∀ k < max (512 * 9999) kernel.length, d.image k = kernel.getD k 0) := by
  constructor
  · simp only [kernelImg, Option.map_eq_some_iff, sign_iff]
    constructor
    · rintro ⟨-, s, ⟨h, -⟩, -⟩
      exact h
    · intro h
      exact ⟨_, _, ⟨h, rfl⟩, rfl⟩
  · intro img himg d hd
    obtain ⟨s, hs, rfl⟩ := Option.map_eq_some_iff.1 himg
    obtain ⟨hlen, hboot, h510, h511⟩ := sign_getD hs
    have hblank : (List.replicate (512 * 10000) (0 : Byte)).length = 512 * 10000 := List.length_replicate
    have hfirst : (dd s 0 (List.replicate (512 * 10000) 0)).length = 512 * 10000 := by
      rw [length_dd, hblank, hlen]
      rfl
    have hall : (dd kernel 1 (dd s 0 (List.replicate (512 * 10000) 0))).length = max (512 * 10000) (512 + kernel.length) := by
      rw [length_dd, hfirst]
    -- the bytes of the first sector are those of the boot block
    have hsector : ∀ k < 512, d.byte k = s.getD k 0 := by
      intro k hk
      rw [hd.getD (by rw [hall]; omega), dd_getD (by omega), if_neg (by omega), dd_getD (by omega), if_pos (by omega)]
      rfl
    refine ⟨fun k hk => (hsector k (by omega)).trans (hboot k hk), (hsector 510 (by decide)).trans h510,
      (hsector 511 (by decide)).trans h511, fun k hk => ?_⟩
    rw [Disk.image, hd.getD (by rw [hall]; omega), dd_getD (by omega)]
    rcases Nat.lt_or_ge k kernel.length with hkl | hkl
    · rw [if_pos (by omega), show 512 + k - 512 * 1 = k by omega]
    · rw [if_neg (by omega), dd_getD (by omega), if_neg (by omega), List.getD_eq_default _ _ hkl,
        List.getD_eq_getElem?_getD, List.getElem?_replicate]
      split <;> rfl

end Jos.Boot
