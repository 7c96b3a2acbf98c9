import Xv6.FsSeq

/-!
# The free map

`bitOf` is the bit of a block in the free map.  `balloc` gives out a block whose bit was clear, sets the bit and zeroes the block, or
there is no such block; `bfree` clears the bit of a block whose bit is set.  Both leave the rest of the disk alone.
-/

namespace Xv6

open Function (update)

/-! ### Bits of a block -/

namespace Fs

theorem and_mask (x : UInt8) {k : Nat} (hk : k < 8) : (x &&& .ofNat (2 ^ k) != 0) = x.toBitVec.getLsbD k := by
  have hmask : (UInt8.ofNat (2 ^ k)).toBitVec = BitVec.twoPow 8 k := by
    rw [UInt8.toBitVec_ofNat', BitVec.twoPow_eq, ← BitVec.ofNat_eq_ofNat]
    apply BitVec.eq_of_toNat_eq
    simp [Nat.shiftLeft_eq]
  have hand : (x &&& .ofNat (2 ^ k)).toBitVec = if x.toBitVec.getLsbD k then BitVec.twoPow 8 k else 0#8 := by
    rw [UInt8.toBitVec_and, hmask, BitVec.and_twoPow]
  have hne : BitVec.twoPow 8 k ≠ 0#8 := by
    intro h
    have := congrArg (BitVec.getLsbD · k) h
    simp [hk] at this
  cases hx : x.toBitVec.getLsbD k with
  | false =>
    rw [hx] at hand
    have h0 : x &&& .ofNat (2 ^ k) = 0 := UInt8.toBitVec_inj.1 hand
    rw [h0]
    rfl
  | true =>
    rw [hx] at hand
    rw [bne_iff_ne]
    intro h0
    rw [h0] at hand
    exact hne hand.symm

theorem getLsbD_mask {j : Nat} (hj : j < 8) (k : Nat) : (UInt8.ofNat (2 ^ k)).toBitVec.getLsbD j = decide (k = j) := by
  rw [UInt8.toBitVec_ofNat', BitVec.getLsbD_ofNat, Nat.testBit_two_pow]
  simp [hj]

theorem bitSet_eq (d : Block) (bi : Nat) : bitSet d bi = (bitByte d bi).toBitVec.getLsbD (bi % 8) :=
  and_mask _ (Nat.mod_lt _ (by decide))

theorem bitByte_setBit (d : Block) {bi bj : Nat} (hj : bj < BPB) :
    bitByte (setBit d bi) bj = if bj / 8 = bi / 8 then bitByte d bj ||| bitMask bi else bitByte d bj := by
  have h : bj / 8 < BSIZE := Nat.div_lt_of_lt_mul (by unfold BPB at hj; omega)
  simp only [bitByte, dif_pos h, setBit]

theorem bitByte_clearBit (d : Block) {bi bj : Nat} (hj : bj < BPB) :
    bitByte (clearBit d bi) bj = if bj / 8 = bi / 8 then bitByte d bj &&& ~~~bitMask bi else bitByte d bj := by
  have h : bj / 8 < BSIZE := Nat.div_lt_of_lt_mul (by unfold BPB at hj; omega)
  simp only [bitByte, dif_pos h, clearBit]

theorem bitSet_setBit (d : Block) {bi bj : Nat} (hj : bj < BPB) : bitSet (setBit d bi) bj = (decide (bi = bj) || bitSet d bj) := by
  rw [bitSet_eq, bitByte_setBit d hj, bitSet_eq]
  by_cases h : bj / 8 = bi / 8
  · rw [if_pos h, UInt8.toBitVec_or, BitVec.getLsbD_or, bitMask, getLsbD_mask (Nat.mod_lt _ (by decide)), Bool.or_comm]
    congr 1
    exact decide_eq_decide.2 (by omega)
  · rw [if_neg h, decide_eq_false (by rintro rfl; exact h rfl), Bool.false_or]

theorem bitSet_clearBit (d : Block) {bi bj : Nat} (hj : bj < BPB) :
    bitSet (clearBit d bi) bj = (!decide (bi = bj) && bitSet d bj) := by
  rw [bitSet_eq, bitByte_clearBit d hj, bitSet_eq]
  have h8 : bj % 8 < 8 := Nat.mod_lt _ (by decide)
  by_cases h : bj / 8 = bi / 8
  · rw [if_pos h, UInt8.toBitVec_and, UInt8.toBitVec_not, BitVec.getLsbD_and, BitVec.getLsbD_not, bitMask, getLsbD_mask h8,
      Bool.and_comm, decide_eq_true h8, Bool.true_and]
    congr 2
    exact decide_eq_decide.2 (by omega)
  · rw [if_neg h, decide_eq_false (by rintro rfl; exact h rfl), Bool.not_false, Bool.true_and]

end Fs

/-! ### The parts of the disk -/

/-- The inodes, the free map and the data blocks come after one another; `start` is the first data block. -/
structure Superblock.Layout (sb : Superblock) where
  start : Nat
  inodes : sb.inodestart.toNat + sb.ninodes.toNat / IPB < sb.bmapstart.toNat
  bmap : sb.bmapstart.toNat + sb.size.toNat / BPB < start
  size : start ≤ sb.size.toNat

namespace Fs

variable {sb : Superblock}

theorem toNat_ofNat_le {n : Nat} {x : UInt32} (h : n ≤ x.toNat) : (UInt32.ofNat n).toNat = n :=
  UInt32.toNat_ofNat_of_lt' (Nat.lt_of_le_of_lt h x.toNat_lt)

theorem BBLOCK_toNat (L : sb.Layout) {a : UInt32} (ha : a.toNat < sb.size.toNat) : (BBLOCK a sb).toNat = a.toNat / BPB + sb.bmapstart.toNat := by
  have h1 := L.bmap
  have h2 := L.size
  have h3 := sb.size.toNat_lt
  have h4 : a.toNat / BPB ≤ sb.size.toNat / BPB := Nat.div_le_div_right (Nat.le_of_lt ha)
  have h5 : (UInt32.ofNat (a.toNat / BPB)).toNat = a.toNat / BPB := toNat_ofNat_le (Nat.div_le_self ..)
  rw [BBLOCK, UInt32.toNat_add, h5]
  exact Nat.mod_eq_of_lt (by omega)

theorem BBLOCK_lt (L : sb.Layout) {a : UInt32} (ha : a.toNat < sb.size.toNat) : (BBLOCK a sb).toNat < L.start := by
  have h1 := L.bmap
  have h2 : a.toNat / BPB ≤ sb.size.toNat / BPB := Nat.div_le_div_right (Nat.le_of_lt ha)
  rw [BBLOCK_toNat L ha]
  omega

theorem BBLOCK_ge (L : sb.Layout) {a : UInt32} (ha : a.toNat < sb.size.toNat) : sb.bmapstart.toNat ≤ (BBLOCK a sb).toNat := by
  rw [BBLOCK_toNat L ha]
  exact Nat.le_add_left ..

theorem BBLOCK_inj (L : sb.Layout) {a b : UInt32} (ha : a.toNat < sb.size.toNat) (hb : b.toNat < sb.size.toNat) :
    BBLOCK a sb = BBLOCK b sb ↔ a.toNat / BPB = b.toNat / BPB := by
  rw [← UInt32.toNat_inj, BBLOCK_toNat L ha, BBLOCK_toNat L hb, Nat.add_right_cancel_iff]

/-- The bit of the block in the free map. -/
def bitOf (sb : Superblock) (v : UInt32 → Block) (a : UInt32) : Bool := bitSet (v (BBLOCK a sb)) (a.toNat % BPB)

/-- The disk after `balloc` has given out the block `a`. -/
def allocView (sb : Superblock) (v : UInt32 → Block) (a : UInt32) : UInt32 → Block :=
  update (update v (BBLOCK a sb) (setBit (v (BBLOCK a sb)) (a.toNat % BPB))) a fun _ => 0

/-- The disk after `bfree` of the block `a`. -/
def freeView (sb : Superblock) (v : UInt32 → Block) (a : UInt32) : UInt32 → Block :=
  update v (BBLOCK a sb) (clearBit (v (BBLOCK a sb)) (a.toNat % BPB))

variable {v : UInt32 → Block} {a b c : UInt32}

/-- The free map does not depend on the data blocks. -/
theorem bitOf_update (L : sb.Layout) (hc : L.start ≤ c.toNat) (hb : b.toNat < sb.size.toNat) (d : Block) : bitOf sb (update v c d) b = bitOf sb v b := by
  have hlt := BBLOCK_lt L hb
  have hne : BBLOCK b sb ≠ c := by
    rintro rfl
    omega
  rw [bitOf, bitOf, Function.update_of_ne hne]

theorem bitOf_setBit (L : sb.Layout) (ha : a.toNat < sb.size.toNat) (hb : b.toNat < sb.size.toNat) :
    bitOf sb (update v (BBLOCK a sb) (setBit (v (BBLOCK a sb)) (a.toNat % BPB))) b = (decide (a = b) || bitOf sb v b) := by
  have hmod : b.toNat % BPB < BPB := Nat.mod_lt _ (by decide)
  by_cases h : BBLOCK b sb = BBLOCK a sb
  · rw [bitOf, h, Function.update_self, bitSet_setBit _ hmod, bitOf, h]
    have hdiv := (BBLOCK_inj L hb ha).1 h
    congr 1
    refine decide_eq_decide.2 ⟨fun hm => UInt32.toNat_inj.1 ?_, by rintro rfl; rfl⟩
    rw [← Nat.div_add_mod a.toNat BPB, ← Nat.div_add_mod b.toNat BPB, hm, hdiv]
  · rw [bitOf, Function.update_of_ne h, bitOf, decide_eq_false (by rintro rfl; exact h rfl), Bool.false_or]

theorem bitOf_alloc (L : sb.Layout) (ha : L.start ≤ a.toNat) (ha' : a.toNat < sb.size.toNat) (hb : b.toNat < sb.size.toNat) :
    bitOf sb (allocView sb v a) b = (decide (a = b) || bitOf sb v b) := by
  rw [allocView, bitOf_update L ha hb, bitOf_setBit L ha' hb]

theorem bitOf_free (L : sb.Layout) (ha : a.toNat < sb.size.toNat) (hb : b.toNat < sb.size.toNat) :
    bitOf sb (freeView sb v a) b = (!decide (a = b) && bitOf sb v b) := by
  have hmod : b.toNat % BPB < BPB := Nat.mod_lt _ (by decide)
  by_cases h : BBLOCK b sb = BBLOCK a sb
  · rw [bitOf, freeView, h, Function.update_self, bitSet_clearBit _ hmod, bitOf, h]
    have hdiv := (BBLOCK_inj L hb ha).1 h
    congr 2
    refine decide_eq_decide.2 ⟨fun hm => UInt32.toNat_inj.1 ?_, by rintro rfl; rfl⟩
    rw [← Nat.div_add_mod a.toNat BPB, ← Nat.div_add_mod b.toNat BPB, hm, hdiv]
  · rw [bitOf, freeView, Function.update_of_ne h, bitOf, decide_eq_false (by rintro rfl; exact h rfl), Bool.not_false, Bool.true_and]

/-- The blocks that `balloc` does not touch. -/
theorem allocView_of_ne (L : sb.Layout) (ha : a.toNat < sb.size.toNat) (hc : c ≠ a) (hmap : c.toNat < sb.bmapstart.toNat ∨ L.start ≤ c.toNat) :
    allocView sb v a c = v c := by
  have h1 := BBLOCK_ge L ha
  have h2 := BBLOCK_lt L ha
  have hne : c ≠ BBLOCK a sb := by
    rintro rfl
    omega
  rw [allocView, Function.update_of_ne hc, Function.update_of_ne hne]

@[simp] theorem allocView_self : allocView sb v a a = fun _ => 0 := Function.update_self ..

theorem freeView_of_ne (L : sb.Layout) (ha : a.toNat < sb.size.toNat) (hmap : c.toNat < sb.bmapstart.toNat ∨ L.start ≤ c.toNat) :
    freeView sb v a c = v c := by
  have h1 := BBLOCK_ge L ha
  have h2 := BBLOCK_lt L ha
  have hne : c ≠ BBLOCK a sb := by
    rintro rfl
    omega
  rw [freeView, Function.update_of_ne hne]

/-! ### `balloc` and `bfree` -/

/-- None of the blocks of the free map is held, and they may be logged. -/
def MapFree (sb : Superblock) (s : Seq) : Prop :=
  (∀ a : UInt32, a.toNat < sb.size.toNat → s.Free (BBLOCK a sb)) ∧ s.low ≤ sb.inodestart.toNat

variable {s : Seq}

theorem bzero_swp {Q : Unit → Seq → Prop} (hb : s.Free b) (hlow : s.low ≤ b.toNat) (h : Q () (s.put b fun _ => 0)) : (bzero b).swp Q s := by
  refine bread_swp hb fun i hi => ?_
  exact logged_swp (p := pure ()) hi hlow h

/-- The free map and the blocks of files may be logged. -/
theorem low_le (L : sb.Layout) (hlow : s.low ≤ sb.inodestart.toNat) (hc : sb.bmapstart.toNat ≤ c.toNat) : s.low ≤ c.toNat := by
  have h1 := L.inodes
  have h2 := Nat.le_add_right sb.inodestart.toNat (sb.ninodes.toNat / IPB)
  omega

theorem ballocFrom_swp (L : sb.Layout) {Q : UInt32 → Seq → Prop} {js : List Nat} (hjs : ∀ j ∈ js, j * BPB < sb.size.toNat) (hmap : MapFree sb s)
    (h0 : (∀ a : UInt32, a.toNat < sb.size.toNat → a.toNat / BPB ∈ js → bitOf sb s.view a = true) → Q 0 s)
    (h1 : ∀ a : UInt32, a.toNat < sb.size.toNat → bitOf sb s.view a = false →
      s.Free a ∧ sb.bmapstart.toNat ≤ a.toNat ∧ Q a { s with view := allocView sb s.view a }) :
    (ballocFrom sb js).swp Q s := by
  induction js with
  | nil => exact h0 fun a _ hin => absurd hin (by simp)
  | cons j js ih =>
    have hj := hjs j List.mem_cons_self
    have hjb : (UInt32.ofNat (j * BPB)).toNat = j * BPB := toNat_ofNat_le (Nat.le_of_lt hj)
    have hBPB : 0 < BPB := by decide
    have hfree := hmap.1 (.ofNat (j * BPB)) (by rw [hjb]; exact hj)
    rw [ballocFrom]
    refine bread_swp hfree fun i hi => data_swp ?_
    -- the blocks of this part of the map
    have hblock : ∀ bi, bi < min BPB (sb.size.toNat - j * BPB) → ∃ a : UInt32, a = .ofNat (j * BPB + bi) ∧ a.toNat < sb.size.toNat ∧
        BBLOCK a sb = BBLOCK (.ofNat (j * BPB)) sb ∧ a.toNat % BPB = bi ∧ a.toNat / BPB = j := by
      intro bi hbi
      have hlt : j * BPB + bi < sb.size.toNat := by omega
      have ha : (UInt32.ofNat (j * BPB + bi)).toNat = j * BPB + bi := toNat_ofNat_le (Nat.le_of_lt hlt)
      have hdiv : (j * BPB + bi) / BPB = j := by
        rw [Nat.add_comm, Nat.add_mul_div_right _ _ hBPB, Nat.div_eq_of_lt (by omega), Nat.zero_add]
      have hmod : (j * BPB + bi) % BPB = bi := by
        rw [Nat.add_comm, Nat.add_mul_mod_self_right, Nat.mod_eq_of_lt (by omega)]
      refine ⟨.ofNat (j * BPB + bi), by rfl, by rw [ha]; exact hlt, ?_, by rw [ha, hmod], by rw [ha, hdiv]⟩
      rw [BBLOCK_inj L (by rw [ha]; exact hlt) (by rw [hjb]; exact hj), ha, hjb, hdiv, Nat.mul_div_cancel _ hBPB]
    cases hfind : (List.range (min BPB (sb.size.toNat - j * BPB))).find? fun bi => !bitSet (s.view (BBLOCK (.ofNat (j * BPB)) sb)) bi with
    | some bi =>
      have hbi := List.mem_range.1 (List.mem_of_find?_eq_some hfind)
      have hclear := List.find?_some hfind
      obtain ⟨a, ha, halt, hblk, hmod, -⟩ := hblock bi hbi
      have hbit : bitOf sb s.view a = false := by
        rw [bitOf, hblk, hmod]
        simpa using hclear
      obtain ⟨hafree, hage, hQ⟩ := h1 a halt hbit
      refine logged_swp hi (low_le L hmap.2 (BBLOCK_ge L (by rw [hjb]; exact hj))) ?_
      rw [← ha, Prog.swp_bind]
      refine bzero_swp hafree (low_le (s := s) L hmap.2 hage) ?_
      rw [Prog.swp_pure]
      rw [allocView, hblk, hmod] at hQ
      exact hQ
    | none =>
      refine brelse_swp hi (ih (fun j' hj' => hjs j' (List.mem_cons_of_mem _ hj')) fun hall => h0 fun a ha hin => ?_)
      rcases List.mem_cons.1 hin with hin | hin
      · have hmod := Nat.mod_lt a.toNat hBPB
        have hdm := Nat.div_add_mod a.toNat BPB
        rw [hin, Nat.mul_comm] at hdm
        obtain ⟨a', ha', -, hblk, hmod', -⟩ := hblock (a.toNat % BPB) (by omega)
        have haa : a' = a := by rw [ha', hdm, UInt32.ofNat_toNat]
        rw [haa] at hblk
        have := List.find?_eq_none.1 hfind (a.toNat % BPB) (List.mem_range.2 (by omega))
        rw [bitOf, hblk]
        simpa using this
      · exact hall a ha hin

/-- `balloc` gives out a free block, or there is none. -/
theorem balloc_swp (L : sb.Layout) {Q : UInt32 → Seq → Prop} (hmap : MapFree sb s)
    (h0 : (∀ a : UInt32, a.toNat < sb.size.toNat → bitOf sb s.view a = true) → Q 0 s)
    (h1 : ∀ a : UInt32, a.toNat < sb.size.toNat → bitOf sb s.view a = false →
      s.Free a ∧ sb.bmapstart.toNat ≤ a.toNat ∧ Q a { s with view := allocView sb s.view a }) :
    (balloc sb).swp Q s := by
  have hBPB : 0 < BPB := by decide
  refine ballocFrom_swp L (fun j hj => ?_) hmap (fun hall => h0 fun a ha => hall a ha ?_) h1
  · have hlt := List.mem_range.1 hj
    have := Nat.div_mul_le_self (sb.size.toNat + BPB - 1) BPB
    have : (j + 1) * BPB ≤ (sb.size.toNat + BPB - 1) / BPB * BPB := Nat.mul_le_mul_right _ hlt
    rw [Nat.add_mul] at this
    omega
  · rw [List.mem_range, Nat.div_lt_iff_lt_mul hBPB]
    have := Nat.lt_div_mul_add (a := sb.size.toNat + BPB - 1) hBPB
    omega

/-- `bfree` of a block that is in use. -/
theorem bfree_swp (L : sb.Layout) {Q : Unit → Seq → Prop} (hmap : MapFree sb s) (hb : b.toNat < sb.size.toNat) (hbit : bitOf sb s.view b = true)
    (h : Q () { s with view := freeView sb s.view b }) : (bfree sb b).swp Q s := by
  refine bread_swp (hmap.1 b hb) fun i hi => data_swp ?_
  rw [bitOf] at hbit
  simp only [hbit, Bool.not_true, Bool.false_eq_true, if_false]
  exact logged_swp (p := pure ()) hi (low_le L hmap.2 (BBLOCK_ge L hb)) h

end Fs

end Xv6
