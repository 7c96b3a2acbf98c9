import Xv6.CopyBytes
import Xv6.FileRead
import Xv6.FsWrite

/-!
# Reading a file

`readi` finds all the blocks it asks `bmap` for, so that it allocates none and leaves the disk alone (`readi_swp`).  With user memory at
hand (`Prog.toUser`) it copies out the bytes of the file from `off` up to the end of the file or the count, and so does the `readi` behind
`fileread`, for which `bmap` is a map from the numbers of the blocks to their data (`readi_contents`).
-/

namespace Xv6

open Function (update)

/-! ### Copies out -/

/-- `n` bytes of a block from `off` on. -/
def blockBytes (d : Block) (off n : Nat) : List UInt8 := (List.range n).map fun k => d ⟨(off + k) % BSIZE, Nat.mod_lt _ Fs.BSIZE_pos⟩

@[simp] theorem length_blockBytes (d : Block) (off n : Nat) : (blockBytes d off n).length = n := by
  rw [blockBytes, List.length_map, List.length_range]

namespace Prog

variable {α β : Type} {t : PageTable}

/-- The program with the user memory `m` at hand: its copies go there, from `dst` on, one behind the other.  It returns the memory. -/
def toUser (t : PageTable) : Prog α → Nat → Ram → Prog (α × Ram)
  | .pure a, _, m => .pure (a, m)
  | .panic msg, _, _ => .panic msg
  | .bread b k, dst, m => .bread b fun i => (k i).toUser t dst m
  | .data i k, dst, m => .data i fun d => (k d).toUser t dst m
  | .store i d k, dst, m => .store i d (k.toUser t dst m)
  | .copyin i off n k, dst, m => .copyin i off n fun ok => (k ok).toUser t dst m
  | .copyout i off n k, dst, m => .data i fun d =>
    (k (Ram.copyout t dst (blockBytes d off n) m).1).toUser t ((dst + n) % 2 ^ 64) (Ram.copyout t dst (blockBytes d off n) m).2
  | .logWrite i k, dst, m => .logWrite i (k.toUser t dst m)
  | .bwrite i k, dst, m => .bwrite i (k.toUser t dst m)
  | .brelse i k, dst, m => .brelse i (k.toUser t dst m)
  | .bunpin i k, dst, m => .bunpin i (k.toUser t dst m)
  | .readLog k, dst, m => .readLog fun lg => (k lg).toUser t dst m
  | .clearHead k, dst, m => .clearHead (k.toUser t dst m)

/-- The program copies nothing out. -/
def NoCopyout : Prog α → Prop
  | .pure _ | .panic _ => True
  | .bread _ k => ∀ i, (k i).NoCopyout
  | .data _ k => ∀ d, (k d).NoCopyout
  | .copyin _ _ _ k => ∀ ok, (k ok).NoCopyout
  | .copyout .. => False
  | .store _ _ k | .logWrite _ k | .bwrite _ k | .brelse _ k | .bunpin _ k | .clearHead k => k.NoCopyout
  | .readLog k => ∀ lg, (k lg).NoCopyout

theorem noCopyout_bind {p : Prog α} {f : α → Prog β} (h : p.NoCopyout) (hf : ∀ a, (f a).NoCopyout) : (p >>= f).NoCopyout := by
  change (p.bind f).NoCopyout
  induction p with
  | pure a => exact hf a
  | panic msg => trivial
  | bread b k ih => exact fun i => ih i (h i)
  | data i k ih => exact fun d => ih d (h d)
  | copyin i off m k ih => exact fun ok => ih ok (h ok)
  | copyout i off m k ih => exact h.elim
  | readLog k ih => exact fun lg => ih lg (h lg)
  | store i d k ih => exact ih h
  | logWrite i k ih => exact ih h
  | bwrite i k ih => exact ih h
  | brelse i k ih => exact ih h
  | bunpin i k ih => exact ih h
  | clearHead k ih => exact ih h

/-- A part that copies nothing out leaves the memory to the rest. -/
theorem toUser_bind {p : Prog α} (h : p.NoCopyout) (f : α → Prog β) (dst : Nat) (m : Ram) :
    (p >>= f).toUser t dst m = p >>= fun a => (f a).toUser t dst m := by
  change (p.bind f).toUser t dst m = p.bind fun a => (f a).toUser t dst m
  induction p with
  | pure a => rfl
  | panic msg => rfl
  | bread b k ih => exact congrArg (Prog.bread b) (funext fun i => ih i (h i))
  | data i k ih => exact congrArg (Prog.data i) (funext fun d => ih d (h d))
  | copyin i off n k ih => exact congrArg (Prog.copyin i off n) (funext fun ok => ih ok (h ok))
  | copyout i off n k ih => exact h.elim
  | readLog k ih => exact congrArg Prog.readLog (funext fun lg => ih lg (h lg))
  | store i d k ih => exact congrArg (Prog.store i d) (ih h)
  | logWrite i k ih => exact congrArg (Prog.logWrite i) (ih h)
  | bwrite i k ih => exact congrArg (Prog.bwrite i) (ih h)
  | brelse i k ih => exact congrArg (Prog.brelse i) (ih h)
  | bunpin i k ih => exact congrArg (Prog.bunpin i) (ih h)
  | clearHead k ih => exact congrArg Prog.clearHead (ih h)

end Prog

namespace Fs

variable {sb : Superblock} {L : sb.Layout} {s : Seq} {ip : Inode} {v : UInt32 → Block} {i : UInt32}

/-- The number of bytes that `readi` reads if no copy fails. -/
def readLen (size off n : UInt32) : Nat := Ram.readiLen size.toNat off.toNat n.toNat

theorem readLen_le (size off n : UInt32) : readLen size off n = 0 ∨ off.toNat + readLen size off n ≤ size.toNat := by
  have h1 := off.toNat_lt
  have h2 := n.toNat_lt
  unfold readLen Ram.readiLen
  split
  · exact .inl (by rfl)
  · split <;> omega

theorem readLen_refused {size off n : UInt32} (h : off > size ∨ off + n < off) : readLen size off n = 0 := by
  have hadd : (off + n).toNat = (off.toNat + n.toNat) % 2 ^ 32 := UInt32.toNat_add ..
  rw [gt_iff_lt, UInt32.lt_iff_toNat_lt, UInt32.lt_iff_toNat_lt, hadd] at h
  rw [readLen, Ram.readiLen, if_pos h]

/-- The count is cut at the end of the file. -/
theorem readLen_cut {size off n : UInt32} (h : ¬(off > size ∨ off + n < off)) :
    (if off + n > size then size - off else n).toNat = readLen size off n := by
  have hadd : (off + n).toNat = (off.toNat + n.toNat) % 2 ^ 32 := UInt32.toNat_add ..
  rw [gt_iff_lt, UInt32.lt_iff_toNat_lt, UInt32.lt_iff_toNat_lt, hadd] at h
  rw [readLen, Ram.readiLen, if_neg h]
  by_cases hgt : off + n > size
  · rw [if_pos hgt, UInt32.toNat_sub_of_le _ _ (UInt32.le_iff_toNat_le.2 (by omega))]
    rw [gt_iff_lt, UInt32.lt_iff_toNat_lt, hadd] at hgt
    rw [if_pos hgt]
  · rw [if_neg hgt]
    rw [gt_iff_lt, UInt32.lt_iff_toNat_lt, hadd] at hgt
    rw [if_neg hgt]

/-- There is a block for each byte below the size. -/
theorem Good.mapped (hg : Good L v) (hi : i.toNat < sb.ninodes.toNat) {off : Nat} (h : off < (dinode sb v i).size.toNat) :
    fileAddr (dinode sb v) v i (off / BSIZE) ≠ 0 ∧ off / BSIZE < MAXFILE := by
  have hmap : fileAddr (dinode sb v) v i (off / BSIZE) ≠ 0 := by
    refine hg.noHole _ _ hi ?_
    have := Nat.div_mul_le_self off BSIZE
    omega
  refine ⟨hmap, ?_⟩
  by_contra hge
  refine hmap (fileAddr_of_none ?_)
  unfold MAXFILE at hge
  rw [place, dif_neg (by omega), dif_neg (by omega)]

/-! ### The disk is left alone -/

theorem readiLoop_swp {fuel off n : Nat} {tot : Int} (hidle : s.Idle sb) (hg : Good L s.view)
    (hip : dinode sb s.view ip.inum = ip.toDinode) (hn : ip.inum.toNat < sb.ninodes.toNat) (hfuel : n ≤ fuel)
    (hsize : n = 0 ∨ off + n ≤ ip.size.toNat) :
    (readiLoop sb fuel ip off n tot).swp (fun x t => t = s ∧ x.1 = ip ∧ (x.2 = -1 ∨ x.2 = tot + n)) s := by
  induction fuel generalizing off n tot with
  | zero =>
    rw [Nat.le_zero.1 hfuel]
    exact ⟨by rfl, by rfl, .inr (Int.add_zero tot).symm⟩
  | succ fuel ih =>
    rw [readiLoop]
    by_cases h0 : n = 0
    · rw [if_pos h0, h0]
      exact ⟨by rfl, by rfl, .inr (Int.add_zero tot).symm⟩
    · rw [if_neg h0, Prog.swp_bind]
      have hlt : off < (dinode sb s.view ip.inum).size.toNat := by
        rw [hip]
        exact show off < ip.size.toNat by omega
      obtain ⟨hmap, hbn⟩ := hg.mapped hn hlt
      refine bmap_swp hidle hg.owned hip hn hbn fun ip' a v' hm => ?_
      obtain ⟨rfl, rfl⟩ := hm.same hmap
      have ha : a ≠ 0 := by
        rw [hm.addr, setIno_self hip]
        exact hmap
      simp only [if_neg ha]
      refine bread_swp (hidle.free _) fun i hi => copyout_swp fun ok => ?_
      cases ok with
      | false => exact brelse_swp hi ⟨by rfl, by rfl, .inl (by rfl)⟩
      | true =>
        have hB : off % BSIZE < BSIZE := Nat.mod_lt _ BSIZE_pos
        have hmin : min n (BSIZE - off % BSIZE) ≤ n := Nat.min_le_left ..
        refine brelse_swp hi (Prog.swp_mono (ih (by omega) (by omega)) fun x t hx => ?_)
        refine ⟨hx.1, hx.2.1, hx.2.2.imp_right fun he => ?_⟩
        rw [he]
        omega

/-- `readi` leaves the disk and the inode alone, and reads as many bytes as there are unless a copy fails. -/
theorem readi_swp (hidle : s.Idle sb) (hg : Good L s.view) (hip : dinode sb s.view ip.inum = ip.toDinode)
    (hn : ip.inum.toNat < sb.ninodes.toNat) (off n : UInt32) :
    (readi sb ip off n).swp (fun x t => t = s ∧ x.1 = ip ∧ (x.2 = -1 ∨ x.2 = readLen ip.size off n)) s := by
  unfold readi
  by_cases h : off > ip.size ∨ off + n < off
  · rw [if_pos h, readLen_refused h]
    exact ⟨by rfl, by rfl, .inr (by rfl)⟩
  · rw [if_neg h]
    dsimp only
    rw [readLen_cut h]
    refine Prog.swp_mono (readiLoop_swp hidle hg hip hn (Nat.le_refl _) (readLen_le ip.size off n)) fun x t hx => ?_
    refine ⟨hx.1, hx.2.1, hx.2.2.imp_right fun he => ?_⟩
    rw [he, Int.zero_add]

/-! ### The bytes -/

theorem balloc_noCopyout : (balloc sb).NoCopyout := by
  unfold balloc
  generalize List.range _ = js
  induction js with
  | nil => trivial
  | cons j js ih =>
    refine fun i d => ?_
    dsimp only [Prog.bind]
    split
    · exact fun _ => trivial
    · exact ih

theorem addrAt_noCopyout (ip : Inode) (k : Fin (NDIRECT + 1)) : (addrAt sb ip k).NoCopyout := by
  unfold addrAt
  split
  · trivial
  · refine Prog.noCopyout_bind balloc_noCopyout fun a => ?_
    split <;> trivial

theorem bmap_noCopyout (ip : Inode) (bn : Nat) : (bmap sb ip bn).NoCopyout := by
  unfold bmap
  split
  · exact addrAt_noCopyout ..
  split
  · refine Prog.noCopyout_bind (addrAt_noCopyout ..) fun ⟨ip, addr⟩ => ?_
    dsimp only
    split
    · trivial
    · refine fun i d => ?_
      dsimp only [Prog.bind]
      split
      · trivial
      · refine Prog.noCopyout_bind balloc_noCopyout fun a => ?_
        split
        · exact fun _ => trivial
        · trivial
  · trivial

/-- The data of the blocks that `bmap` finds. -/
def fileMap (sb : Superblock) (v : UInt32 → Block) (i : UInt32) (bn : Nat) : Option (Nat → UInt8) :=
  if fileAddr (dinode sb v) v i bn = 0 then none
  else some fun k => v (fileAddr (dinode sb v) v i bn) ⟨k % BSIZE, Nat.mod_lt _ BSIZE_pos⟩

theorem fileBytes_fileMap (hg : Good L v) (hi : i.toNat < sb.ninodes.toNat) {off k : Nat}
    (h : off + k ≤ (dinode sb v i).size.toNat) : OutCall.fileBytes (fileMap sb v i) off k = ((contents sb v i).drop off).take k := by
  induction k generalizing off with
  | zero => simp [OutCall.fileBytes]
  | succ k ih =>
    have hlt : off / BSIZE * BSIZE < (dinode sb v i).size.toNat := by
      have := Nat.div_mul_le_self off BSIZE
      omega
    have hmap := hg.noHole i _ hi hlt
    have hlen : off < (contents sb v i).length := by
      rw [length_contents]
      omega
    rw [OutCall.fileBytes, fileMap, if_neg hmap, List.drop_eq_getElem_cons hlen, List.take_succ_cons]
    dsimp only
    congr 1
    · rw [getElem_contents, byteAt, if_neg hmap]
      congr 2
      exact Nat.mod_mod ..
    · exact ih (by omega)

/-- The count that the loop of `readi` ends with. -/
theorem readiLoop_count {t : PageTable} {b : Nat → Option (Nat → UInt8)} {n fuel tot : Nat} (hf : n ≤ tot + fuel) (htot : tot ≤ n) (off : Nat)
    {dst : Nat} (hd : dst < 2 ^ 64) (m : Ram) (hlen : (OutCall.fileBytes b off (n - tot)).length = n - tot) :
    (FdFile.readiLoop t b n fuel tot off dst m).1 =
      if (Ram.put t dst (OutCall.fileBytes b off (n - tot)) m).1 then .ofNat n else -1 := by
  induction fuel generalizing tot off dst m with
  | zero =>
    rw [show n - tot = 0 by omega, show tot = n by omega]
    rfl
  | succ fuel ih =>
    rw [FdFile.readiLoop]
    by_cases hlt : tot < n
    · rw [if_pos hlt]
      cases hb : b (off / BSIZE) with
      | none =>
        obtain ⟨r, hr⟩ : ∃ r, n - tot = r + 1 := ⟨n - tot - 1, by omega⟩
        rw [hr, OutCall.fileBytes, hb] at hlen
        cases hlen
      | some data =>
        dsimp only
        have hmod : off % BSIZE < BSIZE := Nat.mod_lt off BSIZE_pos
        generalize hk : min (n - tot) (BSIZE - off % BSIZE) = k
        have hbytes := OutCall.fileBytes_add (k := k) hb (by omega) (n - tot - k)
        rw [show k + (n - tot - k) = n - (tot + k) + k by omega, Nat.sub_sub] at hbytes
        rw [show n - tot = n - (tot + k) + k by omega, hbytes] at hlen ⊢
        rw [Ram.put_append, Ram.copyout_eq hd]
        rw [List.length_append, List.length_map, List.length_range] at hlen
        cases hput : Ram.put t dst ((List.range k).map fun i => data (off % BSIZE + i)) m with
        | mk ok m' =>
          cases ok with
          | false => rfl
          | true =>
            dsimp only
            have hwrap := Ram.put_mod hd (congrArg Prod.fst hput)
            rw [List.length_map, List.length_range] at hwrap ⊢
            rw [hwrap]
            have hd' : dst + k < 2 ^ 64 := by
              rw [← hwrap]
              exact Nat.mod_lt _ (by decide)
            exact ih (by omega) (by omega) (off + k) hd' m' (by omega)
    · rw [if_neg hlt, show n - tot = 0 by omega, show tot = n by omega]
      rfl

/-- `readi` over the data of the blocks copies out the bytes of the file at `off`. -/
theorem readi_fileMap (hg : Good L v) (hi : i.toNat < sb.ninodes.toNat) (t : PageTable) (dst : UInt64) (off n : UInt32) (m : Ram) :
    let w := ((contents sb v i).drop off.toNat).take (readLen (dinode sb v i).size off n)
    w.length = readLen (dinode sb v i).size off n ∧
    w = OutCall.fileBytes (fileMap sb v i) off.toNat (readLen (dinode sb v i).size off n) ∧
    FdFile.readi t (dinode sb v i).size (fileMap sb v i) dst off n m =
      (if (Ram.put t dst.toNat w m).1 then (w.length : Int) else -1, (Ram.put t dst.toNat w m).2) := by
  have hsize : (dinode sb v i).size.toNat ≤ MAXFILE * BSIZE := by
    by_contra hgt
    refine hg.noHole i MAXFILE hi (by omega) (fileAddr_of_none ?_)
    rw [place, dif_neg (by decide), dif_neg (by decide)]
  generalize hk : readLen (dinode sb v i).size off n = k
  have hle : k = 0 ∨ off.toNat + k ≤ (dinode sb v i).size.toNat := hk ▸ readLen_le ..
  have hbytes : OutCall.fileBytes (fileMap sb v i) off.toNat k = ((contents sb v i).drop off.toNat).take k := by
    rcases hle with rfl | hle
    · simp [OutCall.fileBytes]
    · exact fileBytes_fileMap hg hi hle
  have hlen : (((contents sb v i).drop off.toNat).take k).length = k := by
    rw [List.length_take, List.length_drop, length_contents]
    omega
  intro w
  refine ⟨hlen, hbytes.symm, ?_⟩
  have hread : FdFile.readi t (dinode sb v i).size (fileMap sb v i) dst off n m =
      ((FdFile.readiLoop t (fileMap sb v i) k k 0 off.toNat dst.toNat m).1.toInt32.toInt,
        (FdFile.readiLoop t (fileMap sb v i) k k 0 off.toNat dst.toNat m).2) := by
    rw [← hk]
    rfl
  have hcount := readiLoop_count (t := t) (Nat.le_add_left k 0) (Nat.zero_le k) off.toNat dst.toNat_lt m (by rw [Nat.sub_zero, hbytes, hlen])
  rw [Nat.sub_zero, hbytes] at hcount
  have hmem : (FdFile.readiLoop t (fileMap sb v i) k k 0 off.toNat dst.toNat m).2 = (Ram.put t dst.toNat w m).2 := by
    rw [FdFile.readiLoop_snd, OutCall.readiLoop_eq (Nat.le_add_left ..) _ dst.toNat_lt, Nat.sub_zero, hbytes]
  rw [hread, hcount, hmem, hlen]
  refine Prod.ext ?_ rfl
  show (if (Ram.put t dst.toNat w m).1 then UInt32.ofNat k else -1).toInt32.toInt = _
  split
  · have hmax : MAXFILE * BSIZE < 2 ^ 31 := by decide
    have hk31 : k < 2 ^ 31 := by omega
    have hnat : (UInt32.ofNat k).toNat = k := UInt32.toNat_ofNat_of_lt' (show k < 2 ^ 32 by omega)
    rw [FdFile.toInt_eq, hnat, if_pos hk31]
  · rfl

theorem copyout_toUser_swp {β : Type} {t : PageTable} {k : Fin NBUF} {b : UInt32} {off n dst : Nat} {m : Ram} {f : Bool → Prog β}
    {Q : β × Ram → Seq → Prop} (hd : dst < 2 ^ 64)
    (hf : ((f (Ram.put t dst (blockBytes (s.view b) off n) m).1).toUser t ((dst + n) % 2 ^ 64)
      (Ram.put t dst (blockBytes (s.view b) off n) m).2).swp Q (s.hold k b)) :
    ((copyout k off n >>= f).toUser t dst m).swp Q (s.hold k b) := by
  rw [← Ram.copyout_eq hd] at hf
  exact ⟨b, Seq.hold_held .., hf⟩

/-- The loop over the blocks copies out the same bytes. -/
theorem readiLoop_toUser_swp {t : PageTable} {fuel off n dst : Nat} {tot : Int} (hidle : s.Idle sb) (hg : Good L s.view)
    (hip : dinode sb s.view ip.inum = ip.toDinode) (hn : ip.inum.toNat < sb.ninodes.toNat) (hfuel : n ≤ fuel)
    (hsize : n = 0 ∨ off + n ≤ ip.size.toNat) (hd : dst < 2 ^ 64) (m : Ram) :
    ((readiLoop sb fuel ip off n tot).toUser t dst m).swp (fun x u => u = s ∧ x =
      ((ip, if (Ram.put t dst (OutCall.fileBytes (fileMap sb s.view ip.inum) off n) m).1 then tot + n else -1),
        (Ram.put t dst (OutCall.fileBytes (fileMap sb s.view ip.inum) off n) m).2)) s := by
  induction fuel generalizing off n tot dst m with
  | zero =>
    rw [Nat.le_zero.1 hfuel]
    refine ⟨by rfl, ?_⟩
    rw [OutCall.fileBytes, Ram.put, if_pos (by rfl), Nat.cast_zero, Int.add_zero]
  | succ fuel ih =>
    rw [readiLoop]
    by_cases h0 : n = 0
    · rw [if_pos h0, h0]
      refine ⟨by rfl, ?_⟩
      rw [OutCall.fileBytes, Ram.put, if_pos (by rfl), Nat.cast_zero, Int.add_zero]
    · rw [if_neg h0, Prog.toUser_bind (bmap_noCopyout ..), Prog.swp_bind]
      have hlt : off < (dinode sb s.view ip.inum).size.toNat := by
        rw [hip]
        exact show off < ip.size.toNat by omega
      obtain ⟨hmap, hbn⟩ := hg.mapped hn hlt
      refine bmap_swp hidle hg.owned hip hn hbn fun ip' a v' hm => ?_
      obtain ⟨rfl, rfl⟩ := hm.same hmap
      have hB : off % BSIZE < BSIZE := Nat.mod_lt _ BSIZE_pos
      generalize hk : min n (BSIZE - off % BSIZE) = k
      have ha : a = fileAddr (dinode sb s.view) s.view ip'.inum (off / BSIZE) := by rw [hm.addr, setIno_self hip]
      have hfile : fileMap sb s.view ip'.inum (off / BSIZE) = some fun k => s.view a ⟨k % BSIZE, Nat.mod_lt _ BSIZE_pos⟩ := by
        rw [fileMap, if_neg hmap, ha]
      have hbytes : OutCall.fileBytes (fileMap sb s.view ip'.inum) off n =
          blockBytes (s.view a) (off % BSIZE) k ++ OutCall.fileBytes (fileMap sb s.view ip'.inum) (off + k) (n - k) := by
        rw [show n = k + (n - k) by omega, OutCall.fileBytes_add hfile (by omega), Nat.add_sub_cancel_left]
        rfl
      simp only [if_neg (show a ≠ 0 from ha ▸ hmap)]
      refine bread_swp (hidle.free _) fun i hi => copyout_toUser_swp (s := s) hd ?_
      have hput := Ram.put_append (t := t) dst (blockBytes (s.view a) (off % BSIZE) k)
        (OutCall.fileBytes (fileMap sb s.view ip'.inum) (off + k) (n - k)) m
      rw [← hbytes] at hput
      cases hfirst : Ram.put t dst (blockBytes (s.view a) (off % BSIZE) k) m with
      | mk ok m' =>
        rw [hfirst] at hput
        cases ok with
        | false =>
          rw [hput]
          exact brelse_swp (f := fun _ => .pure ((ip', -1), m')) hi ⟨by rfl, by rfl⟩
        | true =>
          dsimp only at hput
          have hwrap := Ram.put_mod hd (congrArg Prod.fst hfirst)
          rw [length_blockBytes] at hput hwrap
          have hd' : dst + k < 2 ^ 64 := by
            rw [← hwrap]
            exact Nat.mod_lt _ (by decide)
          rw [hput, hwrap]
          refine brelse_swp (f := fun _ => (readiLoop sb fuel ip' (off + k) (n - k) (tot + k)).toUser t (dst + k) m') hi ?_
          refine Prog.swp_mono (@ih _ _ _ (tot + k) (by omega) (by omega) hd' m') fun x u hx => ⟨hx.1, ?_⟩
          rw [hx.2, show tot + (k : Int) + ((n - k : Nat) : Int) = tot + n by omega]

/-- `readi` over the blocks of a good disk copies out the bytes of the file at `off`, in one piece, and returns their number, or -1 if the
user memory ends before; the disk stays as it is.  `readi` behind `fileread` does the same. -/
theorem readi_contents (hidle : s.Idle sb) (hg : Good L s.view) (hip : dinode sb s.view ip.inum = ip.toDinode)
    (hn : ip.inum.toNat < sb.ninodes.toNat) (t : PageTable) (dst : UInt64) (off n : UInt32) (m : Ram) :
    let w := ((contents sb s.view ip.inum).drop off.toNat).take (readLen ip.size off n)
    let r : Int := if (Ram.put t dst.toNat w m).1 then w.length else -1
    w.length = readLen ip.size off n ∧
    ((readi sb ip off n).toUser t dst.toNat m).swp (fun x u => u = s ∧ x = ((ip, r), (Ram.put t dst.toNat w m).2)) s ∧
    FdFile.readi t ip.size (fileMap sb s.view ip.inum) dst off n m = (r, (Ram.put t dst.toNat w m).2) := by
  have hsize : (dinode sb s.view ip.inum).size = ip.size := by rw [hip]
  obtain ⟨hlen, hbytes, hfile⟩ := readi_fileMap hg hn t dst off n m
  rw [hsize] at hlen hbytes hfile
  intro w r
  refine ⟨hlen, ?_, hfile⟩
  have hr : r = if (Ram.put t dst.toNat w m).1 then (readLen ip.size off n : Int) else -1 := by rw [← hlen]
  have hw : w = OutCall.fileBytes (fileMap sb s.view ip.inum) off.toNat (readLen ip.size off n) := hbytes
  rw [hr, hw]
  unfold readi
  by_cases h : off > ip.size ∨ off + n < off
  · rw [if_pos h, readLen_refused h]
    exact ⟨by rfl, by rfl⟩
  · rw [if_neg h]
    dsimp only
    rw [readLen_cut h]
    refine Prog.swp_mono (readiLoop_toUser_swp hidle hg hip hn (Nat.le_refl _) (readLen_le ip.size off n) dst.toNat_lt m) fun x u hx => ?_
    rw [hx.2, Int.zero_add]
    exact ⟨hx.1, by rfl⟩

/-- The two bytes behind the first go to a page of the user, and one of them if the page ends before the other. -/
theorem readi_contents_small :
    ((readi smallSb smallFile 1 5).toUser CopyBytes.onePage 8 fun _ _ => 0).swp
      (fun x u => u = smallSeq [] ∧ x.1 = (smallFile, 2) ∧ (List.range 4).map (fun k => x.2 5 (7 + k)) = [0, 98, 99, 0]) (smallSeq []) ∧
    ((readi smallSb smallFile 1 5).toUser CopyBytes.onePage 4095 fun _ _ => 0).swp
      (fun x u => u = smallSeq [] ∧ x.1 = (smallFile, -1) ∧ x.2 5 4095 = 98) (smallSeq []) := by
  have hbytes : ((contents smallSb (smallSeq []).view smallFile.inum).drop 1).take (readLen smallFile.size 1 5) = [98, 99] := by
    decide +kernel
  have hread := fun dst : UInt64 => (readi_contents (smallSeq_idle []) smallDisk_good (dinode_smallFile []) (by decide) CopyBytes.onePage
    dst 1 5 fun _ _ => 0).2.1
  constructor
  · refine Prog.swp_mono (hread 8) fun x u hx => ⟨hx.1, ?_⟩
    have hput : (Ram.put CopyBytes.onePage 8 [98, 99] fun _ _ => 0).1 = true := by decide +kernel
    rw [hx.2, show (1 : UInt32).toNat = 1 from rfl, hbytes, show (8 : UInt64).toNat = 8 from rfl, if_pos hput]
    exact ⟨by rfl, by decide +kernel⟩
  · refine Prog.swp_mono (hread 4095) fun x u hx => ⟨hx.1, ?_⟩
    have hput : ¬(Ram.put CopyBytes.onePage 4095 [98, 99] fun _ _ => 0).1 = true := by decide +kernel
    rw [hx.2, show (1 : UInt32).toNat = 1 from rfl, hbytes, show (4095 : UInt64).toNat = 4095 from rfl, if_neg hput]
    exact ⟨by rfl, by decide +kernel⟩

end Fs

end Xv6
