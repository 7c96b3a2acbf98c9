import Xv6.FsFile

/-!
# Inodes on disk

`dinode` is an inode as the disk has it.  A disk is `Good` if its blocks are owned as in `Owned`, no file has a hole, and inodes that
are free have no blocks; `contents` are the bytes of a file.
-/

namespace Xv6

open Function (update)

namespace Fs

/-! ### Words -/

theorem lowHalf_twoHalves (lo hi : UInt16) : lowHalf (twoHalves lo hi) = lo := by
  have h1 := lo.toNat_lt
  have h2 := hi.toNat_lt
  have h3 : (twoHalves lo hi).toNat = lo.toNat + 2 ^ 16 * hi.toNat :=
    UInt32.toNat_ofNat_of_lt' (show lo.toNat + 2 ^ 16 * hi.toNat < 2 ^ 32 by omega)
  rw [lowHalf, h3, Nat.add_mul_mod_self_left, Nat.mod_eq_of_lt h1, UInt16.ofNat_toNat]

theorem highHalf_twoHalves (lo hi : UInt16) : highHalf (twoHalves lo hi) = hi := by
  have h1 := lo.toNat_lt
  have h2 := hi.toNat_lt
  have h3 : (twoHalves lo hi).toNat = lo.toNat + 2 ^ 16 * hi.toNat :=
    UInt32.toNat_ofNat_of_lt' (show lo.toNat + 2 ^ 16 * hi.toNat < 2 ^ 32 by omega)
  rw [highHalf, h3, Nat.add_mul_div_left _ _ (by decide), Nat.div_eq_of_lt h1, Nat.zero_add, UInt16.ofNat_toNat]

theorem getWord_setWords_ge (b : Block) {i j : Nat} (ws : List UInt32) (h : i + ws.length ≤ j) :
    getWord (setWords b i ws) j = getWord b j := by
  induction ws generalizing b i with
  | nil => rfl
  | cons w ws ih =>
    simp only [List.length_cons] at h
    rw [setWords, ih _ (by omega), getWord_setWord_ne _ (by omega)]

/-- The words of a `struct dinode`. -/
def dinodeWords (x : Dinode) : List UInt32 :=
  [twoHalves x.type x.major, twoHalves x.minor x.nlink, x.size] ++ (List.finRange (NDIRECT + 1)).map x.addrs

theorem length_dinodeWords (x : Dinode) : (dinodeWords x).length = DIWORDS := by
  rw [dinodeWords, List.length_append, List.length_map, List.length_finRange]
  rfl

theorem getDinode_setDinode_self (d : Block) {k : Nat} (hk : k < IPB) (x : Dinode) : getDinode (setDinode d k x) k = x := by
  have hfit : DIWORDS * k + (dinodeWords x).length ≤ NWORD := by
    rw [length_dinodeWords]
    have : DIWORDS * (k + 1) ≤ DIWORDS * IPB := Nat.mul_le_mul_left _ hk
    calc DIWORDS * k + DIWORDS = DIWORDS * (k + 1) := by rw [Nat.mul_add, Nat.mul_one]
      _ ≤ DIWORDS * IPB := this
      _ = NWORD := by decide
  have hword : ∀ j (hj : j < (dinodeWords x).length), getWord (setDinode d k x) (DIWORDS * k + j) = (dinodeWords x)[j] :=
    fun j hj => getWord_setWords d hfit hj
  have hlen := length_dinodeWords x
  have h0 := hword 0 (by rw [hlen]; decide)
  have h1 := hword 1 (by rw [hlen]; decide)
  have h2 := hword 2 (by rw [hlen]; decide)
  have h3 : ∀ i : Fin (NDIRECT + 1), getWord (setDinode d k x) (DIWORDS * k + 3 + i.val) = x.addrs i := by
    intro i
    rw [Nat.add_assoc, hword (3 + i.val) (by rw [hlen]; have := i.isLt; unfold DIWORDS; unfold NDIRECT at this; omega)]
    simp [dinodeWords, Nat.add_comm 3]
  rw [Nat.add_zero] at h0
  rw [getDinode, h0, h1, h2, funext h3]
  simp [dinodeWords, lowHalf_twoHalves, highHalf_twoHalves]

theorem getDinode_setDinode_ne (d : Block) {j k : Nat} (h : j ≠ k) (x : Dinode) : getDinode (setDinode d k x) j = getDinode d j := by
  have hword : ∀ w < DIWORDS, getWord (setDinode d k x) (DIWORDS * j + w) = getWord d (DIWORDS * j + w) := by
    intro w hw
    rcases Nat.lt_or_gt_of_ne h with hlt | hgt
    · have hle : DIWORDS * (j + 1) ≤ DIWORDS * k := Nat.mul_le_mul_left _ hlt
      rw [Nat.mul_add, Nat.mul_one] at hle
      exact getWord_setWords_lt d (by omega) _
    · have hle : DIWORDS * (k + 1) ≤ DIWORDS * j := Nat.mul_le_mul_left _ hgt
      rw [Nat.mul_add, Nat.mul_one] at hle
      refine getWord_setWords_ge d _ ?_
      have hlen : ([twoHalves x.type x.major, twoHalves x.minor x.nlink, x.size] ++
        (List.finRange (NDIRECT + 1)).map x.addrs).length = DIWORDS := length_dinodeWords x
      rw [hlen]
      omega
  have h0 := hword 0 (by decide)
  have h3 : ∀ i : Fin (NDIRECT + 1), getWord (setDinode d k x) (DIWORDS * j + 3 + i.val) = getWord d (DIWORDS * j + 3 + i.val) := by
    intro i
    rw [Nat.add_assoc]
    exact hword _ (by have := i.isLt; unfold DIWORDS; unfold NDIRECT at this; omega)
  rw [Nat.add_zero] at h0
  rw [getDinode, getDinode, h0, hword 1 (by decide), hword 2 (by decide), funext h3]

/-! ### Inodes -/

section

variable {sb : Superblock} {v v' : UInt32 → Block} {n m : UInt32}

/-- The inode on disk. -/
def dinode (sb : Superblock) (v : UInt32 → Block) (n : UInt32) : Dinode := getDinode (v (IBLOCK n sb)) (n.toNat % IPB)

theorem IBLOCK_toNat (L : sb.Layout) (hn : n.toNat < sb.ninodes.toNat) : (IBLOCK n sb).toNat = n.toNat / IPB + sb.inodestart.toNat := by
  have h1 := L.inodes
  have h2 := sb.bmapstart.toNat_lt
  have h3 : n.toNat / IPB ≤ sb.ninodes.toNat / IPB := Nat.div_le_div_right (Nat.le_of_lt hn)
  have h4 : (UInt32.ofNat (n.toNat / IPB)).toNat = n.toNat / IPB := toNat_ofNat_le (Nat.div_le_self ..)
  rw [IBLOCK, UInt32.toNat_add, h4]
  exact Nat.mod_eq_of_lt (by omega)

theorem IBLOCK_lt (L : sb.Layout) (hn : n.toNat < sb.ninodes.toNat) : (IBLOCK n sb).toNat < sb.bmapstart.toNat := by
  have h1 := L.inodes
  have h2 : n.toNat / IPB ≤ sb.ninodes.toNat / IPB := Nat.div_le_div_right (Nat.le_of_lt hn)
  rw [IBLOCK_toNat L hn]
  omega

theorem IBLOCK_inj (L : sb.Layout) (hn : n.toNat < sb.ninodes.toNat) (hm : m.toNat < sb.ninodes.toNat)
    (hb : IBLOCK m sb = IBLOCK n sb) (hk : m.toNat % IPB = n.toNat % IPB) : m = n := by
  have h := congrArg UInt32.toNat hb
  rw [IBLOCK_toNat L hm, IBLOCK_toNat L hn, Nat.add_right_cancel_iff] at h
  apply UInt32.toNat_inj.1
  rw [← Nat.div_add_mod m.toNat IPB, ← Nat.div_add_mod n.toNat IPB, h, hk]

/-- The disk after `iupdate`. -/
def updView (sb : Superblock) (v : UInt32 → Block) (n : UInt32) (x : Dinode) : UInt32 → Block :=
  update v (IBLOCK n sb) (setDinode (v (IBLOCK n sb)) (n.toNat % IPB) x)

theorem dinode_upd (L : sb.Layout) (hn : n.toNat < sb.ninodes.toNat) (hm : m.toNat < sb.ninodes.toNat) (x : Dinode) :
    dinode sb (updView sb v n x) m = update (dinode sb v) n x m := by
  have hk : n.toNat % IPB < IPB := Nat.mod_lt _ (by decide)
  rw [dinode, updView]
  by_cases hmn : m = n
  · rw [hmn, Function.update_self, Function.update_self, getDinode_setDinode_self _ hk]
  · rw [Function.update_of_ne hmn]
    by_cases hb : IBLOCK m sb = IBLOCK n sb
    · rw [hb, Function.update_self, getDinode_setDinode_ne _ (fun he => hmn (IBLOCK_inj L hn hm hb he)), dinode, hb]
    · rw [Function.update_of_ne hb, dinode]

theorem dinode_congr (L : sb.Layout) (h : ∀ c : UInt32, c.toNat < sb.bmapstart.toNat → v' c = v c) (hn : n.toNat < sb.ninodes.toNat) :
    dinode sb v' n = dinode sb v n := by
  rw [dinode, h _ (IBLOCK_lt L hn), dinode]

theorem updView_of_ge (L : sb.Layout) (hn : n.toNat < sb.ninodes.toNat) {c : UInt32} (hc : sb.bmapstart.toNat ≤ c.toNat) (x : Dinode) :
    updView sb v n x c = v c := by
  have := IBLOCK_lt L hn
  rw [updView, Function.update_of_ne]
  rintro rfl
  omega

end

/-! ### Ownership and the disk -/

section

variable {sb : Superblock} {L : sb.Layout} {F F' : UInt32 → Dinode} {v v' : UInt32 → Block} {n m : UInt32} {s : Seq} {ip : Inode}

theorem blockOf_congr (hF : ∀ m : UInt32, m.toNat < sb.ninodes.toNat → (F' m).addrs = (F m).addrs)
    (hv : ∀ c : UInt32, L.start ≤ c.toNat → v' c = v c) (h : Owned L F v) {p : Place} (hp : p.inum.toNat < sb.ninodes.toNat) :
    blockOf F' v' p = blockOf F v p := by
  cases p with
  | addr m i => rw [blockOf, blockOf, hF m hp]
  | entry m j =>
    rw [blockOf, blockOf, hF m hp]
    split
    · rfl
    · rename_i hz
      rw [hv _ (h.ind (n := m) hp hz).1]

theorem fileAddr_congr (hF : ∀ m : UInt32, m.toNat < sb.ninodes.toNat → (F' m).addrs = (F m).addrs)
    (hv : ∀ c : UInt32, L.start ≤ c.toNat → v' c = v c) (h : Owned L F v) (hn : n.toNat < sb.ninodes.toNat) (bn : Nat) :
    fileAddr F' v' n bn = fileAddr F v n bn := by
  cases hp : place n bn with
  | none => rw [fileAddr_of_none hp, fileAddr_of_none hp]
  | some p => rw [fileAddr_of_place hp, fileAddr_of_place hp, blockOf_congr hF hv h (by rwa [place_inum hp])]

/-- Only the addresses of the inodes, the free map and the data blocks count. -/
theorem Owned.congr (h : Owned L F v) (hF : ∀ m : UInt32, m.toNat < sb.ninodes.toNat → (F' m).addrs = (F m).addrs)
    (hv : ∀ c : UInt32, sb.bmapstart.toNat ≤ c.toNat → v' c = v c) :
    Owned L F' v' ∧ ∀ m k, m.toNat < sb.ninodes.toNat → byteAt F' v' m k = byteAt F v m k := by
  have hv' : ∀ c : UInt32, L.start ≤ c.toNat → v' c = v c := fun c hc => hv c (Nat.le_trans (Nat.le_of_lt (bmapstart_lt L)) hc)
  have hblock : ∀ p : Place, p.inum.toNat < sb.ninodes.toNat → blockOf F' v' p = blockOf F v p := fun p hp => blockOf_congr hF hv' h hp
  refine ⟨⟨fun p hp => ?_, fun p q hp hq => ?_, fun a ha => ?_⟩, fun m k hm => ?_⟩
  · rw [hblock p hp]
    exact h.data p hp
  · rw [hblock p hp, hblock q hq]
    exact h.inj p q hp hq
  · rw [bitOf, hv _ (BBLOCK_ge L ha), ← bitOf, h.bit a ha]
    refine or_congr_right (exists_congr fun p => and_congr_right fun hp => ?_)
    rw [hblock p hp]
  · have haddr := fun bn => fileAddr_congr hF hv' h hm bn
    exact byteAt_congr (fun bn h0 => ⟨haddr bn, hv' _ (h.fileAddr_data hm h0).1⟩) fun bn h0 => .inl (by rw [haddr, h0])

/-- What a file system keeps on its disk between calls. -/
structure Good (L : sb.Layout) (v : UInt32 → Block) : Prop where
  owned : Owned L (dinode sb v) v
  noHole : ∀ (n : UInt32) (bn : Nat), n.toNat < sb.ninodes.toNat → bn * BSIZE < (dinode sb v n).size.toNat →
    fileAddr (dinode sb v) v n bn ≠ 0
  free : ∀ n : UInt32, n.toNat < sb.ninodes.toNat → (dinode sb v n).type = 0 →
    (dinode sb v n).size = 0 ∧ ∀ i, (dinode sb v n).addrs i = 0

/-- The bytes of a file. -/
def contents (sb : Superblock) (v : UInt32 → Block) (n : UInt32) : List UInt8 :=
  (List.range (dinode sb v n).size.toNat).map (byteAt (dinode sb v) v n)

@[simp] theorem length_contents (sb : Superblock) (v : UInt32 → Block) (n : UInt32) :
    (contents sb v n).length = (dinode sb v n).size.toNat := by
  simp [contents]

theorem getElem_contents {k : Nat} (h : k < (contents sb v n).length) : (contents sb v n)[k] = byteAt (dinode sb v) v n k := by
  simp [contents]

theorem IBLOCK_low (L : sb.Layout) (hlow : s.low ≤ sb.inodestart.toNat) (hn : n.toNat < sb.ninodes.toNat) : s.low ≤ (IBLOCK n sb).toNat := by
  rw [IBLOCK_toNat L hn]
  exact Nat.le_trans hlow (Nat.le_add_left ..)

theorem iupdate_swp (L : sb.Layout) {Q : Unit → Seq → Prop} (hidle : s.Idle sb) (hn : ip.inum.toNat < sb.ninodes.toNat) (h : Q () { s with view := updView sb s.view ip.inum ip.toDinode }) :
    (iupdate sb ip).swp Q s := by
  refine bread_swp (hidle.free _) fun i hi => data_swp ?_
  exact logged_swp (p := pure ()) (hidle.1 i) (IBLOCK_low L hidle.2 hn) h

/-- `iupdate` writes an inode with the addresses that the process has in memory. -/
theorem Owned.iupdate (h : Owned L F v) (hn : n.toNat < sb.ninodes.toNat) {x : Dinode} (hx : x.addrs = (F n).addrs)
    (hF : ∀ m : UInt32, m.toNat < sb.ninodes.toNat → m ≠ n → F m = dinode sb v m) :
    dinode sb (updView sb v n x) n = x ∧
    (∀ m : UInt32, m.toNat < sb.ninodes.toNat → m ≠ n → dinode sb (updView sb v n x) m = F m) ∧
    Owned L (dinode sb (updView sb v n x)) (updView sb v n x) ∧
    (∀ m bn, m.toNat < sb.ninodes.toNat → fileAddr (dinode sb (updView sb v n x)) (updView sb v n x) m bn = fileAddr F v m bn) ∧
    ∀ m k, m.toNat < sb.ninodes.toNat → byteAt (dinode sb (updView sb v n x)) (updView sb v n x) m k = byteAt F v m k := by
  have hself : dinode sb (updView sb v n x) n = x := by rw [dinode_upd L hn hn, Function.update_self]
  have hother : ∀ m : UInt32, m.toNat < sb.ninodes.toNat → m ≠ n → dinode sb (updView sb v n x) m = F m := by
    intro m hm hmn
    rw [dinode_upd L hn hm, Function.update_of_ne hmn, hF m hm hmn]
  have hview : ∀ c : UInt32, sb.bmapstart.toNat ≤ c.toNat → updView sb v n x c = v c := fun c hc => updView_of_ge L hn hc _
  have haddrs : ∀ m : UInt32, m.toNat < sb.ninodes.toNat → (dinode sb (updView sb v n x) m).addrs = (F m).addrs := by
    intro m hm
    by_cases hmn : m = n
    · rw [hmn, hself, hx]
    · rw [hother m hm hmn]
  obtain ⟨hown, hbytes⟩ := h.congr haddrs hview
  refine ⟨hself, hother, hown, fun m bn hm => ?_, hbytes⟩
  exact fileAddr_congr haddrs (fun c hc => hview c (Nat.le_trans (Nat.le_of_lt (bmapstart_lt L)) hc)) h hm bn

/-- `ilock` reads the inode as it is on disk. -/
theorem ilock_swp {Q : Inode → Seq → Prop} (hidle : s.Idle sb) (ht : (dinode sb s.view n).type ≠ 0) (h : Q ⟨dinode sb s.view n, n⟩ s) :
    (ilock sb n).swp Q s := by
  refine bread_swp (hidle.free _) fun i hi => data_swp (brelse_swp (hidle.1 i) ?_)
  rw [dinode] at ht
  rw [if_neg ht]
  exact h

end

/-! ### A small disk -/

/-- A file system of 64 blocks. -/
def smallSb : Superblock := ⟨64, 16, 33, 35⟩

theorem smallSb_layout : 33 + 16 / IPB < 35 ∧ 35 + 64 / BPB < 36 ∧ 36 ≤ 64 := by decide

def smallLayout : smallSb.Layout where
  start := 36
  inodes := smallSb_layout.1
  bmap := smallSb_layout.2.1
  size := smallSb_layout.2.2

/-- A file of three bytes in block 36. -/
def smallInode : Dinode := ⟨2, 0, 0, 1, 3, fun i => if i = 0 then 36 else 0⟩

/-- The disk with this file as inode 1. -/
def smallDisk : UInt32 → Block := fun b k =>
  if b = 33 then setDinode (fun _ => 0) 1 smallInode k
  else if b = 35 then if k.val < 4 then 255 else if k.val = 4 then 31 else 0
  else if b = 36 then if k.val < 3 then .ofNat (97 + k.val) else 0
  else 0

/-- A process that has this disk for itself, with the source `src`. -/
def smallSeq (src : List UInt8) : Seq := ⟨smallDisk, fun _ => none, src, smallSb.inodestart.toNat⟩

theorem smallSeq_idle (src : List UInt8) : (smallSeq src).Idle smallSb := ⟨fun _ => rfl, Nat.le_refl _⟩

theorem dinode_smallDisk {n : UInt32} (hn : n.toNat < 16) :
    dinode smallSb smallDisk n = if n = 1 then smallInode else ⟨0, 0, 0, 0, 0, fun _ => 0⟩ := by
  have hblock : IBLOCK n smallSb = 33 := by
    rw [IBLOCK, show n.toNat / IPB = 0 from Nat.div_eq_of_lt hn]
    rfl
  have hd : smallDisk 33 = setDinode (fun _ => 0) 1 smallInode := rfl
  have hmod : n.toNat % IPB = n.toNat := Nat.mod_eq_of_lt hn
  rw [dinode, hblock, hd, hmod]
  by_cases h1 : n = 1
  · rw [if_pos h1, h1]
    exact getDinode_setDinode_self _ (by decide) _
  · rw [if_neg h1, getDinode_setDinode_ne]
    · have hz : ∀ j, getWord (fun _ => 0 : Block) j = 0 := by
        intro j
        unfold getWord
        simp
      simp only [getDinode, hz]
      rfl
    · intro h
      exact h1 (UInt32.toNat_inj.1 h)

/-- The file in memory. -/
def smallFile : Inode := ⟨smallInode, 1⟩

theorem dinode_smallFile (src : List UInt8) : dinode smallSb (smallSeq src).view smallFile.inum = smallFile.toDinode :=
  (dinode_smallDisk (by decide)).trans (if_pos rfl)

theorem smallDisk_good : Good smallLayout smallDisk := by
  have hblock : ∀ p : Place, p.inum.toNat < 16 → blockOf (dinode smallSb smallDisk) smallDisk p = if p = .addr 1 0 then 36 else 0 := by
    intro p hp
    cases p with
    | addr n i =>
      rw [blockOf, dinode_smallDisk (n := n) hp]
      by_cases hn : n = 1
      · subst hn
        by_cases hi : i = 0
        · subst hi
          rfl
        · simp [smallInode, hi]
      · simp [hn]
    | entry n j =>
      have hz : (dinode smallSb smallDisk n).addrs indirect = 0 := by
        rw [dinode_smallDisk (n := n) hp]
        by_cases hn : n = 1
        · rw [if_pos hn]
          rfl
        · rw [if_neg hn]
      rw [blockOf, if_pos hz, if_neg (by simp)]
  refine ⟨⟨fun p hp h0 => ?_, fun p q hp hq h0 h => ?_, fun a ha => ?_⟩, fun n bn hn hlt => ?_, fun n hn h0 => ?_⟩
  · rw [hblock p hp] at h0 ⊢
    by_cases h1 : p = .addr 1 0
    · rw [if_pos h1]
      decide
    · rw [if_neg h1] at h0
      exact absurd rfl h0
  · rw [hblock p hp] at h0 h
    rw [hblock q hq] at h
    by_cases h1 : p = .addr 1 0
    · by_cases h2 : q = .addr 1 0
      · rw [h1, h2]
      · rw [if_pos h1, if_neg h2] at h
        cases h
    · rw [if_neg h1] at h0
      exact absurd rfl h0
  · have hbits : ∀ k : Fin 64, bitOf smallSb smallDisk (.ofNat k) = decide (k.val ≤ 36) := by decide +kernel
    have hbit : bitOf smallSb smallDisk (.ofNat a.toNat) = decide (a.toNat ≤ 36) := hbits ⟨a.toNat, ha⟩
    rw [UInt32.ofNat_toNat] at hbit
    rw [hbit, decide_eq_true_iff]
    constructor
    · intro hle
      by_cases hlt : a.toNat < 36
      · exact .inl hlt
      · refine .inr ⟨.addr 1 0, by decide, ?_⟩
        rw [hblock _ (by decide), if_pos rfl]
        refine UInt32.toNat_inj.1 ?_
        show 36 = a.toNat
        omega
    · rintro (hlt | ⟨p, hp, hpa⟩)
      · exact Nat.le_of_lt hlt
      · rw [hblock p hp] at hpa
        by_cases h1 : p = .addr 1 0
        · rw [if_pos h1] at hpa
          rw [← hpa]
          decide
        · rw [if_neg h1] at hpa
          rw [← hpa]
          decide
  · have hz : n = 1 := by
      by_contra h1
      rw [dinode_smallDisk hn, if_neg h1] at hlt
      exact absurd hlt (Nat.not_lt_zero _)
    rw [hz, dinode_smallDisk (by decide), if_pos rfl] at hlt
    have hbn : bn = 0 := by
      have h3 : bn * BSIZE < 3 := hlt
      unfold BSIZE at h3
      omega
    rw [hz, hbn, fileAddr_of_place (p := .addr 1 0) (by rfl), hblock _ (by decide), if_pos rfl]
    decide
  · by_cases h1 : n = 1
    · rw [h1, dinode_smallDisk (by decide), if_pos rfl] at h0
      cases h0
    · rw [dinode_smallDisk hn, if_neg h1]
      exact ⟨by rfl, fun _ => by rfl⟩

end Fs

end Xv6
