import Xv6.CopyBytes
import Xv6.Lib.Memory

/-!
# The two functions `memmove`

`string.c` of the kernel and `ulib.c` of the user programs each have one.  They find out in different ways whether to copy upwards or
downwards, and both move the bytes, however the two ranges overlap (`memmoves_move`).
-/

namespace Xv6

open Memory

/-- `memmove` of the kernel, with the value that it returns. -/
def KString.memmove (dst src : UInt64) (n : UInt32) (m : Memory) : UInt64 × Memory :=
  if n = 0 then (dst, m)
  else
    let s := src
    let d := dst
    if s < d ∧ s + n.toUInt64 > d then (dst, copyDown n.toNat (d + n.toUInt64) (s + n.toUInt64) m)
    else (dst, copyUp n.toNat d s m)

/-- `memmove` of the user library.  Its loops do nothing if `n` is negative. -/
def Ulib.memmove (vdst vsrc : UInt64) (n : Int32) (m : Memory) : UInt64 × Memory :=
  let dst := vdst
  let src := vsrc
  if src > dst then (vdst, copyUp n.toInt.toNat dst src m)
  else (vdst, copyDown n.toInt.toNat (dst + .ofInt n.toInt) (src + .ofInt n.toInt) m)

variable {dst src : UInt64} {n : Nat}

/-- Both move bytes upwards only if no byte is read from an address that is written before it. -/
theorem up_safe (hd : dst.toNat + n ≤ 2 ^ 64) (hs : src.toNat + n ≤ 2 ^ 64) (h : dst.toNat ≤ src.toNat ∨ src.toNat + n ≤ dst.toNat)
    (i j : Nat) (hij : i < j) (hj : j < n) : dst + .ofNat i ≠ src + .ofNat j := by
  intro he
  have hnat := congrArg UInt64.toNat he
  rw [toNat_add (by omega), toNat_add (by omega)] at hnat
  omega

theorem down_safe (hd : dst.toNat + n ≤ 2 ^ 64) (h : src.toNat ≤ dst.toNat) (i j : Nat) (hij : i < j)
    (hj : j < n) : dst + .ofNat j ≠ src + .ofNat i := by
  intro he
  have hnat := congrArg UInt64.toNat he
  rw [toNat_add (by omega), toNat_add (by omega)] at hnat
  omega

theorem KString.memmove_relocated (n : UInt32) (hd : dst.toNat + n.toNat ≤ 2 ^ 64) (hs : src.toNat + n.toNat ≤ 2 ^ 64) (m : Memory) :
    Relocated dst src n.toNat m (KString.memmove dst src n m).2 := by
  have hn : n.toUInt64 = .ofNat n.toNat := by
    apply UInt64.toNat_inj.1
    rw [UInt32.toNat_toUInt64, UInt64.toNat_ofNat_of_lt' (Nat.lt_trans n.toNat_lt (by decide))]
  have hlt := n.toNat_lt
  unfold KString.memmove
  by_cases h0 : n = 0
  · rw [if_pos h0]
    subst h0
    exact ⟨fun i hi => absurd hi (Nat.not_lt_zero i), fun a _ => rfl⟩
  · rw [if_neg h0]
    dsimp only
    by_cases hdir : src < dst ∧ src + n.toUInt64 > dst
    · rw [if_pos hdir, hn]
      have hlow := UInt64.lt_iff_toNat_lt.1 hdir.1
      exact copyDown_relocated (by omega) (down_safe hd (by omega))
    · rw [if_neg hdir]
      apply copyUp_relocated (by omega) (up_safe hd hs ?_)
      by_cases hlow : src < dst
      · -- the end of the source does not wrap, as the destination is behind it
        right
        have hend : ¬src + n.toUInt64 > dst := fun h => hdir ⟨hlow, h⟩
        have hsd := UInt64.lt_iff_toNat_lt.1 hlow
        rw [hn, gt_iff_lt, UInt64.lt_iff_toNat_lt, toNat_add (by omega)] at hend
        omega
      · left
        rw [UInt64.lt_iff_toNat_lt] at hlow
        omega

theorem Ulib.memmove_relocated (n : Int32) (hn : 0 ≤ n.toInt) (hd : dst.toNat + n.toInt.toNat ≤ 2 ^ 64)
    (hs : src.toNat + n.toInt.toNat ≤ 2 ^ 64) (m : Memory) : Relocated dst src n.toInt.toNat m (Ulib.memmove dst src n m).2 := by
  have hnat : UInt64.ofInt n.toInt = .ofNat n.toInt.toNat := by
    apply UInt64.toNat_inj.1
    rw [UInt64.ofInt, UInt64.toNat_ofNat', UInt64.toNat_ofNat']
    omega
  have hlt : n.toInt.toNat ≤ 2 ^ 64 := by omega
  unfold Ulib.memmove
  dsimp only
  by_cases hdir : src > dst
  · rw [if_pos hdir]
    have hlow := UInt64.lt_iff_toNat_lt.1 hdir
    exact copyUp_relocated hlt (up_safe hd hs (by omega))
  · rw [if_neg hdir, hnat]
    rw [gt_iff_lt, UInt64.lt_iff_toNat_lt] at hdir
    exact copyDown_relocated hlt (down_safe hd (by omega))

/-- The kernel's function does what `copyin` and `copyout` use it for. -/
theorem KString.memmove_bytes (n : UInt32) (hd : dst.toNat + n.toNat ≤ 2 ^ 64) (hs : src.toNat + n.toNat ≤ 2 ^ 64) (m : Memory)
    (a : UInt64) : (KString.memmove dst src n m).2 a =
      CopyBytes.memmove (fun x => m (.ofNat x)) dst.toNat src.toNat n.toNat a.toNat := by
  have hrel := KString.memmove_relocated n hd hs m
  unfold CopyBytes.memmove
  by_cases ha : dst.toNat ≤ a.toNat ∧ a.toNat < dst.toNat + n.toNat
  · rw [if_pos ha]
    obtain ⟨i, hi⟩ : ∃ i, a.toNat = dst.toNat + i := ⟨a.toNat - dst.toNat, by omega⟩
    have hai : a = dst + .ofNat i := by
      apply UInt64.toNat_inj.1
      rw [toNat_add (by omega), hi]
    have hsrc : UInt64.ofNat (src.toNat + (a.toNat - dst.toNat)) = src + .ofNat i := by
      rw [UInt64.ofNat_add, UInt64.ofNat_toNat]
      congr 2
      omega
    show _ = m (.ofNat (src.toNat + (a.toNat - dst.toNat)))
    rw [hsrc, hai]
    exact hrel.bytes i (by omega)
  · rw [if_neg ha]
    show _ = m (.ofNat a.toNat)
    rw [UInt64.ofNat_toNat]
    apply hrel.frame
    intro i hi he
    have hnat := congrArg UInt64.toNat he
    rw [toNat_add (by omega)] at hnat
    omega

/-- For ranges that do not wrap around, wherever they are, both functions return `dst` and leave at `dst` the `n` bytes that were at
`src`, and no other byte is changed.  So they agree. -/
theorem memmoves_move (m : Memory) (dst src : UInt64) (n : Nat) (hd : dst.toNat + n ≤ 2 ^ 64) (hs : src.toNat + n ≤ 2 ^ 64) :
    (n < 2 ^ 32 → (KString.memmove dst src (.ofNat n) m).1 = dst ∧ Relocated dst src n m (KString.memmove dst src (.ofNat n) m).2) ∧
    (n < 2 ^ 31 → (Ulib.memmove dst src (.ofNat n) m).1 = dst ∧ Relocated dst src n m (Ulib.memmove dst src (.ofNat n) m).2) ∧
    (n < 2 ^ 31 → Ulib.memmove dst src (.ofNat n) m = KString.memmove dst src (.ofNat n) m) := by
  have hkernel : n < 2 ^ 32 →
      (KString.memmove dst src (.ofNat n) m).1 = dst ∧ Relocated dst src n m (KString.memmove dst src (.ofNat n) m).2 := by
    intro hn
    have hnat : (UInt32.ofNat n).toNat = n := UInt32.toNat_ofNat_of_lt' hn
    have hrel := @KString.memmove_relocated dst src (.ofNat n) (by omega) (by omega) m
    rw [hnat] at hrel
    refine ⟨?_, hrel⟩
    unfold KString.memmove
    dsimp only
    split
    · rfl
    · split <;> rfl
  have huser : n < 2 ^ 31 →
      (Ulib.memmove dst src (.ofNat n) m).1 = dst ∧ Relocated dst src n m (Ulib.memmove dst src (.ofNat n) m).2 := by
    intro hn
    have hint : (Int32.ofNat n).toInt = n := Int32.toInt_ofNat_of_lt hn
    have hnat : (Int32.ofNat n).toInt.toNat = n := by rw [hint, Int.toNat_natCast]
    have hrel := @Ulib.memmove_relocated dst src (.ofNat n) (by omega) (by omega) (by omega) m
    rw [hnat] at hrel
    refine ⟨?_, hrel⟩
    unfold Ulib.memmove
    dsimp only
    split <;> rfl
  refine ⟨hkernel, huser, fun hn => ?_⟩
  obtain ⟨hu, hum⟩ := huser hn
  obtain ⟨hk, hkm⟩ := hkernel (by omega)
  exact Prod.ext (hu.trans hk.symm) (hum.unique hkm)

/-- Two ranges that overlap by two bytes. -/
theorem memmoves_move_overlap :
    (Ulib.memmove 11 10 3 fun a => a.toUInt8).2 13 = 12 ∧
      Ulib.memmove 11 10 3 (fun a => a.toUInt8) = KString.memmove 11 10 3 fun a => a.toUInt8 := by
  have h := memmoves_move (fun a => a.toUInt8) 11 10 3 (by decide) (by decide)
  refine ⟨?_, h.2.2 (by decide)⟩
  exact (h.2.1 (by decide)).2.bytes 2 (by omega)

end Xv6
