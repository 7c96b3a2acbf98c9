import Mathlib.Data.List.GetD
import Xv6.FsInode

/-!
# Writing a file

`writei` puts the bytes of its source into the file at `off`, in pieces that lie in one block each.  If the source can be read, it stops
early only when no block is free, and then the bytes up to there are written; no other file changes (`writei_swp`).
-/

namespace Xv6

open Function (update)

namespace Fs

variable {sb : Superblock} {L : sb.Layout} {F : UInt32 → Dinode} {v : UInt32 → Block} {s : Seq} {ip : Inode} {off n : Nat}

/-- What the loop of `writei` leaves after `r` bytes from the source `src`. -/
structure Written (L : sb.Layout) (F : UInt32 → Dinode) (v : UInt32 → Block) (ip : Inode) (off n : Nat) (src : List UInt8) (ip' : Inode)
    (r : Nat) (v' : UInt32 → Block) : Prop where
  owned : Owned L (setIno F ip') v'
  inodes : ∀ c : UInt32, c.toNat < sb.bmapstart.toNat → v' c = v c
  fields : ip' = { ip with addrs := ip'.addrs }
  keep : ∀ m bn, m.toNat < sb.ninodes.toNat → fileAddr F v m bn ≠ 0 → fileAddr (setIno F ip') v' m bn ≠ 0
  mapped : ∀ k, off ≤ k → k < off + r → fileAddr (setIno F ip') v' ip.inum (k / BSIZE) ≠ 0
  others : ∀ m k, m.toNat < sb.ninodes.toNat → m ≠ ip.inum ∨ k < off ∨ off + n ≤ k → byteAt (setIno F ip') v' m k = byteAt F v m k
  le : r ≤ n
  bytes : ∀ k, off ≤ k → k < off + r → byteAt (setIno F ip') v' ip.inum k = src.getD (k - off) 0
  -- if the source can be read, the rest is as before, and the loop ends early only without free blocks
  rest : n ≤ src.length → ∀ k, off + r ≤ k → byteAt (setIno F ip') v' ip.inum k = byteAt F v ip.inum k
  full : n ≤ src.length → r < n → Full sb v'

/-- The bytes of a block after a copy into it. -/
theorem overwrite_apply (d : Block) (off : Nat) (src : List UInt8) (k : Fin BSIZE) :
    overwrite d off src k = if off ≤ k.val ∧ k.val < off + src.length then src.getD (k.val - off) 0 else d k := by
  unfold overwrite
  by_cases h : off ≤ k.val
  · by_cases hlt : k.val < off + src.length
    · have : k.val - off < src.length := by omega
      rw [if_pos h, if_pos ⟨h, hlt⟩, List.getD_eq_getElem _ _ this, List.getD_eq_getElem _ _ this]
    · rw [if_pos h, if_neg (by omega), List.getD_eq_default _ _ (by omega)]
  · rw [if_neg h, if_neg (by omega)]

/-- Bytes of a piece of a file lie in one block. -/
theorem piece_div {k m : Nat} (hlen : m ≤ BSIZE - off % BSIZE) (h1 : off ≤ k) (h2 : k < off + m) : k / BSIZE = off / BSIZE := by
  unfold BSIZE at *
  omega

theorem piece_mod {k m : Nat} (hdiv : k / BSIZE = off / BSIZE) :
    (off % BSIZE ≤ k % BSIZE ∧ k % BSIZE < off % BSIZE + m ↔ off ≤ k ∧ k < off + m) ∧ k % BSIZE - off % BSIZE = k - off := by
  unfold BSIZE at *
  omega

/-- A copy of `w` into the block of the bytes at `off`. -/
theorem Owned.piece (h : Owned L F v) {i : UInt32} (hn : i.toNat < sb.ninodes.toNat) (h0 : fileAddr F v i (off / BSIZE) ≠ 0)
    {w : List UInt8} (hlen : w.length ≤ BSIZE - off % BSIZE) :
    let v' := update v (fileAddr F v i (off / BSIZE)) (overwrite (v (fileAddr F v i (off / BSIZE))) (off % BSIZE) w)
    Owned L F v' ∧ (∀ m b, m.toNat < sb.ninodes.toNat → fileAddr F v' m b = fileAddr F v m b) ∧
    ∀ m k, m.toNat < sb.ninodes.toNat →
      byteAt F v' m k = if m = i ∧ off ≤ k ∧ k < off + w.length then w.getD (k - off) 0 else byteAt F v m k := by
  obtain ⟨hown, haddr, hbytes⟩ := h.write hn h0 (overwrite (v (fileAddr F v i (off / BSIZE))) (off % BSIZE) w)
  refine ⟨hown, haddr, fun m k hm => ?_⟩
  rw [hbytes m k hm]
  by_cases hk : m = i ∧ k / BSIZE = off / BSIZE
  · obtain ⟨hmod, hsub⟩ := piece_mod (m := w.length) hk.2
    rw [if_pos hk, overwrite_apply, hsub]
    by_cases hin : off ≤ k ∧ k < off + w.length
    · rw [if_pos (hmod.2 hin), if_pos ⟨hk.1, hin⟩]
    · rw [if_neg (fun hx => hin (hmod.1 hx)), if_neg (fun hx => hin hx.2), byteAt, hk.1, hk.2, if_neg h0]
  · rw [if_neg hk, if_neg]
    exact fun hx => hk ⟨hx.1, piece_div hlen hx.2.1 hx.2.2⟩

theorem Mapped.fields {ip' : Inode} {a : UInt32} {v' : UInt32 → Block} {bn : Nat} (hm : Mapped L F v ip bn ip' a v')
    (hip : F ip.inum = ip.toDinode) : ip' = { ip with addrs := ip'.addrs } := by
  have hfields := hm.grown.fields
  have hi := hm.inum
  have hF : setIno F ip' ip.inum = ip'.toDinode := by rw [setIno, hi, Function.update_self]
  rw [hF, hip] at hfields
  cases ip'
  cases ip
  simp only at hfields hi
  rw [hfields, hi]

/-- The blocks before the data are not blocks of a file. -/
theorem Owned.ne_fileAddr (h : Owned L F v) {i c : UInt32} {bn : Nat} (hn : i.toNat < sb.ninodes.toNat) (h0 : fileAddr F v i bn ≠ 0)
    (hc : c.toNat < sb.bmapstart.toNat) : c ≠ fileAddr F v i bn := by
  have h1 := bmapstart_lt L
  have h2 := (h.fileAddr_data hn h0).1
  rintro rfl
  omega

theorem getD_take {src : List UInt8} {k m : Nat} (h : k < m) : (src.take m).getD k 0 = src.getD k 0 := by
  simp [List.getD_eq_getElem?_getD, h]

theorem getD_drop (src : List UInt8) (k m : Nat) : (src.drop m).getD k 0 = src.getD (m + k) 0 := by
  simp [List.getD_eq_getElem?_getD, List.getElem?_drop]

namespace Written

variable {ip₁ ip₂ : Inode} {a : UInt32} {v₁ v₂ : UInt32 → Block} {src : List UInt8}

/-- Nothing is written. -/
theorem nothing (h : Owned L F v) (hip : F ip.inum = ip.toDinode) (h0 : n = 0) : Written L F v ip off n src ip 0 v := by
  have hF := setIno_self hip
  refine ⟨?_, fun c _ => by rfl, by rfl, ?_, ?_, ?_, Nat.zero_le _, ?_, ?_, ?_⟩ <;> (try rw [hF])
  · exact h
  · exact fun m bn _ hne => hne
  · intro k h1 h2
    omega
  · exact fun m k _ _ => by rfl
  · intro k h1 h2
    omega
  · exact fun _ k _ => by rfl
  · intro _ hlt
    omega

/-- `bmap` has found no block. -/
theorem stop (hm : Mapped L F v ip (off / BSIZE) ip₁ a v₁) (hn : ip.inum.toNat < sb.ninodes.toNat)
    (hip : F ip.inum = ip.toDinode) (ha : a = 0) : Written L F v ip off n src ip₁ 0 v₁ := by
  have hg := hm.grown
  refine ⟨hg.owned, hg.inodes, hm.fields hip, fun m bn hv hne => ?_, ?_, fun m k hv _ => hg.bytes m k hv, Nat.zero_le _, ?_,
    fun _ k _ => hg.bytes _ k hn, fun _ _ => hm.full ha⟩
  · rw [hg.keep m bn hv hne]
    exact hne
  · intro k h1 h2
    omega
  · intro k h1 h2
    omega

/-- The source cannot be read. -/
theorem failed (hm : Mapped L F v ip (off / BSIZE) ip₁ a v₁) (hn : ip.inum.toNat < sb.ninodes.toNat)
    (hip : F ip.inum = ip.toDinode) (ha : a ≠ 0) {w : List UInt8} (hlen : w.length ≤ min n (BSIZE - off % BSIZE))
    (hsrc : src.length < n) : Written L F v ip off n src ip₁ 0 (update v₁ a (overwrite (v₁ a) (off % BSIZE) w)) := by
  have hg := hm.grown
  have hle : w.length ≤ n := by omega
  rw [hm.addr] at ha ⊢
  obtain ⟨hown, haddr, hbytes⟩ := hg.owned.piece hn ha (Nat.le_trans hlen (Nat.min_le_right ..))
  refine ⟨hown, fun c hc => ?_, hm.fields hip, fun m bn hv hne => ?_, ?_, fun m k hv hk => ?_, Nat.zero_le _, ?_, ?_, ?_⟩
  · rw [Function.update_of_ne (hg.owned.ne_fileAddr hn ha hc), hg.inodes c hc]
  · rw [haddr m bn hv, hg.keep m bn hv hne]
    exact hne
  · intro k h1 h2
    omega
  · rw [hbytes m k hv, if_neg, hg.bytes m k hv]
    rintro ⟨h1, h2, h3⟩
    rcases hk with h | h | h
    · exact h h1
    · omega
    · omega
  · intro k h1 h2
    omega
  · intro h
    omega
  · intro h
    omega

/-- A piece of `m` bytes, and then the rest. -/
theorem next (hm : Mapped L F v ip (off / BSIZE) ip₁ a v₁) (hn : ip.inum.toNat < sb.ninodes.toNat)
    (hip : F ip.inum = ip.toDinode) (ha : a ≠ 0) {m r : Nat} (hlen : m = min n (BSIZE - off % BSIZE)) (hsrc : m ≤ src.length)
    (hw : Written L (setIno F ip₁) (update v₁ a (overwrite (v₁ a) (off % BSIZE) (src.take m))) ip₁ (off + m) (n - m) (src.drop m)
      ip₂ r v₂) : Written L F v ip off n src ip₂ (m + r) v₂ := by
  have hg := hm.grown
  have htake : (src.take m).length = m := by rw [List.length_take, Nat.min_eq_left hsrc]
  have hmn : m ≤ n := by omega
  have hinum := hm.inum
  rw [hm.addr] at ha hw
  obtain ⟨-, haddr, hbytes⟩ := hg.owned.piece hn ha (w := src.take m) (by rw [htake]; omega)
  rw [htake] at hbytes
  have hinum₂ : ip₂.inum = ip₁.inum := by rw [hw.fields]
  have hidem : setIno (setIno F ip₁) ip₂ = setIno F ip₂ := setIno_setIno hinum₂
  obtain ⟨wowned, winodes, wfields, wkeep, wmapped, wothers, wle, wbytes, wrest, wfull⟩ := hw
  rw [hidem] at wowned
  rw [hidem] at wkeep wmapped wothers wbytes wrest
  rw [hinum] at wmapped wothers wbytes wrest
  refine ⟨wowned, fun c hc => ?_, ?_, fun j bn hv hne => ?_, fun k h1 h2 => ?_, fun j k hv hk => ?_, by omega, fun k h1 h2 => ?_,
    fun hread k hk => ?_, fun hread hlt => ?_⟩
  · rw [winodes c hc, Function.update_of_ne (hg.owned.ne_fileAddr hn ha hc), hg.inodes c hc]
  · have := hm.fields hip
    rw [wfields, this]
  · refine wkeep j bn hv ?_
    rw [haddr j bn hv, hg.keep j bn hv hne]
    exact hne
  · by_cases hk : k < off + m
    · refine wkeep _ _ hn ?_
      rw [haddr _ _ hn, piece_div (m := m) (by omega) h1 hk]
      exact ha
    · exact wmapped k (by omega) (by omega)
  · rw [wothers j k hv (hk.imp_right fun h => by omega), hbytes j k hv, if_neg, hg.bytes j k hv]
    rintro ⟨h1, h2, h3⟩
    rcases hk with h | h | h
    · exact h h1
    · omega
    · omega
  · by_cases hk : k < off + m
    · rw [wothers _ k hn (.inr (.inl hk)), hbytes _ k hn, if_pos ⟨rfl, h1, hk⟩, getD_take (by omega)]
    · rw [wbytes k (by omega) (by omega), getD_drop]
      congr 1
      omega
  · rw [wrest (by rw [List.length_drop]; omega) k (by omega), hbytes _ k hn, if_neg (by omega), hg.bytes _ k hn]
  · exact wfull (by rw [List.length_drop]; omega) (by omega)

end Written

/-- A round that writes nothing. -/
theorem writeiLoop_none {Q : Inode × Int × Nat → Seq → Prop} {tot : Int} {ip' : Inode} {v' : UInt32 → Block} {src' : List UInt8}
    (hQ : ∀ ip' r v' src', Written L F s.view ip off n s.src ip' r v' → Q (ip', tot + r, off + r) { s with view := v', src := src' })
    (hw : Written L F s.view ip off n s.src ip' 0 v') : Q (ip', tot, off) { s with view := v', src := src' } := by
  have h := hQ ip' 0 v' src' hw
  rw [Nat.add_zero, show tot + ((0 : Nat) : Int) = tot from Int.add_zero tot] at h
  exact h

/-- The loop of `writei`. -/
theorem writeiLoop_swp {Q : Inode × Int × Nat → Seq → Prop} {fuel : Nat} {tot : Int} (hidle : s.Idle sb) (h : Owned L F s.view)
    (hip : F ip.inum = ip.toDinode) (hn : ip.inum.toNat < sb.ninodes.toNat) (hfuel : n ≤ fuel) (hmax : off + n ≤ MAXFILE * BSIZE)
    (hQ : ∀ ip' r v' src', Written L F s.view ip off n s.src ip' r v' → Q (ip', tot + r, off + r) { s with view := v', src := src' }) :
    (writeiLoop sb fuel ip off n tot).swp Q s := by
  induction fuel generalizing s F ip off n tot with
  | zero => exact writeiLoop_none hQ (.nothing h hip (Nat.le_zero.1 hfuel))
  | succ fuel ih =>
    rw [writeiLoop]
    by_cases h0 : n = 0
    · rw [if_pos h0]
      exact writeiLoop_none hQ (.nothing h hip h0)
    · rw [if_neg h0, Prog.swp_bind]
      have hB : off % BSIZE < BSIZE := Nat.mod_lt _ BSIZE_pos
      have hbn : off / BSIZE < MAXFILE := by
        rw [Nat.div_lt_iff_lt_mul BSIZE_pos]
        omega
      refine bmap_swp hidle h hip hn hbn fun ip₁ a v₁ hm => ?_
      by_cases ha : a = 0
      · simp only [if_pos ha]
        exact writeiLoop_none hQ (.stop hm hn hip ha)
      · simp only [if_neg ha]
        refine bread_swp (hidle.free _) fun i hi => copyin_swp (s := { s with view := v₁ }) (fun hsrc => ?_) fun hsrc src => ?_
        · simp only [Bool.not_true, Bool.false_eq_true, if_false]
          have hg := hm.grown
          have hdata := hg.owned.fileAddr_data hn (hm.addr ▸ ha)
          rw [← hm.addr] at hdata
          refine logWrite_swp (low_le (s := s) L hidle.2 (map_le hdata.1)) (brelse_swp hi ?_)
          have hF : setIno F ip₁ ip₁.inum = ip₁.toDinode := Function.update_self ..
          have hn₁ : ip₁.inum.toNat < sb.ninodes.toNat := by rw [hm.inum]; exact hn
          have hmin : min n (BSIZE - off % BSIZE) ≤ n := Nat.min_le_left ..
          have hpos : 0 < min n (BSIZE - off % BSIZE) := by omega
          have htake : (s.src.take (min n (BSIZE - off % BSIZE))).length ≤ BSIZE - off % BSIZE := by
            rw [List.length_take]
            omega
          have ha' := hm.addr ▸ ha
          have hown := (hg.owned.piece hn ha' htake).1
          rw [← hm.addr] at hown
          refine ih (F := setIno F ip₁) (s := Seq.taken { s with view := v₁ } a (off % BSIZE) (min n (BSIZE - off % BSIZE))) hidle hown hF
            hn₁ (by omega) (by omega) fun ip₂ r v₂ src' hw => ?_
          have := hQ ip₂ (min n (BSIZE - off % BSIZE) + r) v₂ src' (.next hm hn hip ha rfl hsrc hw)
          rw [Int.natCast_add, ← Int.add_assoc, ← Nat.add_assoc] at this
          exact this
        · simp only [Bool.not_false, if_true]
          refine brelse_swp hi ?_
          have hlen : (s.src.take (min n (BSIZE - off % BSIZE))).length ≤ min n (BSIZE - off % BSIZE) := List.length_take_le ..
          have hshort := Nat.lt_of_lt_of_le hsrc (Nat.min_le_left ..)
          exact writeiLoop_none (s := s) hQ (.failed hm hn hip ha hlen hshort)

/-! ### The call -/

/-- The bytes `w` at `off` in place of those that were there. -/
def splice (l : List UInt8) (off : Nat) (w : List UInt8) : List UInt8 := l.take off ++ w ++ l.drop (off + w.length)

theorem length_splice {l w : List UInt8} (h : off ≤ l.length) : (splice l off w).length = max l.length (off + w.length) := by
  rw [splice, List.length_append, List.length_append, List.length_take, List.length_drop]
  omega

theorem getElem_splice {l w : List UInt8} (h : off ≤ l.length) {k : Nat} (hk : k < (splice l off w).length) :
    (splice l off w)[k] = if off ≤ k ∧ k < off + w.length then w.getD (k - off) 0 else l.getD k 0 := by
  have hlen : (l.take off).length = off := by rw [List.length_take, Nat.min_eq_left h]
  simp only [splice, List.getElem_append, List.length_append, hlen]
  by_cases h1 : k < off
  · rw [dif_pos (by omega), dif_pos h1, if_neg (by omega), List.getElem_take, List.getD_eq_getElem _ _ (by omega)]
  · by_cases h2 : k < off + w.length
    · rw [dif_pos h2, dif_neg h1, if_pos ⟨by omega, h2⟩, List.getD_eq_getElem _ _ (by omega)]
    · have hk' : k < l.length := by
        rw [length_splice h] at hk
        omega
      rw [dif_neg h2, if_neg (by omega), List.getElem_drop, List.getD_eq_getElem _ _ hk']
      congr 1
      omega

theorem contents_eq {v : UInt32 → Block} {i : UInt32} {l : List UInt8} (hlen : l.length = (dinode sb v i).size.toNat)
    (h : ∀ k (hk : k < l.length), byteAt (dinode sb v) v i k = l[k]) : contents sb v i = l := by
  apply List.ext_getElem
  · rw [length_contents, hlen]
  · intro k h1 h2
    rw [getElem_contents, h k h2]

theorem getD_contents {v : UInt32 → Block} {i : UInt32} {k : Nat} (h : k < (dinode sb v i).size.toNat) :
    (contents sb v i).getD k 0 = byteAt (dinode sb v) v i k := by
  rw [List.getD_eq_getElem _ _ (by rwa [length_contents]), getElem_contents]

/-- `writei` refuses the call. -/
def Refused (ip : Inode) (off n : UInt32) : Prop := off > ip.size ∨ off + n < off ∨ (off + n).toNat > MAXFILE * BSIZE

/-- What `writei(ip, .., off, n)` leaves and returns, with the source `s.src`. -/
structure Wrote (L : sb.Layout) (s : Seq) (ip : Inode) (off n : UInt32) (x : Inode × Int) (t : Seq) : Prop where
  held : t.held = s.held
  good : Good L t.view
  disk : dinode sb t.view ip.inum = x.1.toDinode
  others : ∀ m : UInt32, m.toNat < sb.ninodes.toNat → m ≠ ip.inum →
    dinode sb t.view m = dinode sb s.view m ∧ contents sb t.view m = contents sb s.view m
  refused : Refused ip off n → x = (ip, -1) ∧ t = s
  written : ¬Refused ip off n → ∃ r ≤ n.toNat, x.2 = r ∧
    x.1 = { ip with addrs := x.1.addrs, size := .ofNat (max ip.size.toNat (off.toNat + r)) } ∧
    (∀ k, k < off.toNat ∨ off.toNat + n.toNat ≤ k → (contents sb t.view ip.inum)[k]? = (contents sb s.view ip.inum)[k]?) ∧
    (n.toNat ≤ s.src.length → contents sb t.view ip.inum = splice (contents sb s.view ip.inum) off.toNat (s.src.take r) ∧
      (r < n.toNat → Full sb t.view))

/-- The inode with the new size goes to disk. -/
theorem Written.wrote {ip₁ : Inode} {x : Inode} {r : Nat} {v₁ : UInt32 → Block} {off n : UInt32} (hg : Good L s.view)
    (hip : dinode sb s.view ip.inum = ip.toDinode) (hn : ip.inum.toNat < sb.ninodes.toNat) (ht : ip.type ≠ 0)
    (hoff : off.toNat ≤ ip.size.toNat) (hsum : off.toNat + n.toNat < 2 ^ 32) (href : ¬Refused ip off n)
    (hw : Written L (dinode sb s.view) s.view ip off.toNat n.toNat s.src ip₁ r v₁)
    (hx : x = { ip₁ with size := .ofNat (max ip.size.toNat (off.toNat + r)) }) (src' : List UInt8) :
    Wrote L s ip off n (x, (r : Int)) ⟨updView sb v₁ x.inum x.toDinode, s.held, src', s.low⟩ := by
  have hle := hw.le
  have hi₁ : ip₁.inum = ip.inum := by rw [hw.fields]
  have hi : x.inum = ip.inum := by rw [hx, hi₁]
  have hself : setIno (dinode sb s.view) ip₁ ip.inum = ip₁.toDinode := by rw [setIno, hi₁, Function.update_self]
  have hother : ∀ m : UInt32, m ≠ ip.inum → setIno (dinode sb s.view) ip₁ m = dinode sb s.view m := by
    intro m hm
    rw [setIno, hi₁, Function.update_of_ne hm]
  obtain ⟨hd, hd', hown, haddr, hbytes⟩ := hw.owned.iupdate hn (x := x.toDinode) (by rw [hself, hx]) fun m hm hmn => by
    rw [hother m hmn, dinode_congr L hw.inodes hm]
  rw [hi]
  have hsize : x.size.toNat = max ip.size.toNat (off.toNat + r) := by
    have := ip.size.toNat_lt
    rw [hx]
    exact UInt32.toNat_ofNat_of_lt' (show max ip.size.toNat (off.toNat + r) < 2 ^ 32 by omega)
  have hold : (dinode sb s.view ip.inum).size = ip.size := by rw [hip]
  constructor
  · rfl
  · constructor
    · exact hown
    · intro m bn hm hlt
      rw [haddr m bn hm]
      by_cases hmn : m = ip.inum
      · rw [hmn] at hlt ⊢
        rw [hd, hsize] at hlt
        by_cases hin : bn * BSIZE < ip.size.toNat
        · exact hw.keep _ _ hn (hg.noHole _ _ hn (by rwa [hold]))
        · have := hw.mapped (bn * BSIZE) (by omega) (by omega)
          rwa [Nat.mul_div_cancel _ BSIZE_pos] at this
      · rw [hd' m hm hmn, hother m hmn] at hlt
        exact hw.keep m bn hm (hg.noHole m bn hm hlt)
    · intro m hm h0
      by_cases hmn : m = ip.inum
      · rw [hmn, hd, hx, hw.fields] at h0
        exact absurd h0 ht
      · rw [hd' m hm hmn, hother m hmn] at h0 ⊢
        exact hg.free m hm h0
  · exact hd
  · intro m hm hmn
    have hsame : dinode sb (updView sb v₁ ip.inum x.toDinode) m = dinode sb s.view m := by rw [hd' m hm hmn, hother m hmn]
    refine ⟨hsame, contents_eq ?_ fun k hk => ?_⟩
    · rw [length_contents, hsame]
    · rw [hbytes m k hm, hw.others m k hm (.inl hmn), getElem_contents]
  · exact fun h => absurd h href
  · intro _
    have hsplice : off.toNat ≤ (contents sb s.view ip.inum).length := by
      rw [length_contents, hold]
      exact hoff
    refine ⟨r, hle, by rfl, ?_, fun k hk => ?_, fun hread => ?_⟩
    · rw [hx, hw.fields]
    · show (contents sb (updView sb v₁ ip.inum x.toDinode) ip.inum)[k]? = _
      by_cases hin : k < ip.size.toNat
      · rw [List.getElem?_eq_getElem (by rw [length_contents, hd, hsize]; omega), List.getElem?_eq_getElem (by rw [length_contents, hold]; omega),
          getElem_contents, getElem_contents, hbytes _ k hn, hw.others _ k hn (.inr hk)]
      · rw [List.getElem?_eq_none (by rw [length_contents, hd, hsize]; omega), List.getElem?_eq_none (by rw [length_contents, hold]; omega)]
    · have hlen : (s.src.take r).length = r := by
        rw [List.length_take]
        omega
      refine ⟨contents_eq ?_ fun k hk => ?_, fun hlt => ?_⟩
      · rw [length_splice hsplice, hlen, length_contents, hold, hd, hsize]
      · have hk' := hk
        rw [length_splice hsplice, hlen, length_contents, hold] at hk'
        rw [hbytes _ k hn, getElem_splice hsplice, hlen]
        by_cases hin : off.toNat ≤ k ∧ k < off.toNat + r
        · rw [if_pos hin, hw.bytes k hin.1 hin.2, getD_take (by omega)]
        · rw [if_neg hin, getD_contents (by rw [hold]; omega)]
          by_cases hlt : k < off.toNat
          · exact hw.others _ k hn (.inr (.inl hlt))
          · exact hw.rest hread k (by omega)
      · intro a ha
        have := hw.full hread hlt a ha
        rw [bitOf] at this ⊢
        rw [← this]
        exact congrArg (bitSet · _) (updView_of_ge L hn (BBLOCK_ge L ha) _)

/-- `writei`: it is refused and changes nothing, or it writes a part of the source at `off`, all of it unless the disk is full.  It reaches
no panic of `fs.c`; whether the log has room for its blocks is left to the caller. -/
theorem writei_swp (hidle : s.Idle sb) (hg : Good L s.view) (hip : dinode sb s.view ip.inum = ip.toDinode)
    (hn : ip.inum.toNat < sb.ninodes.toNat) (ht : ip.type ≠ 0) (off n : UInt32) :
    (writei sb ip off n).swp (Wrote L s ip off n) s := by
  have hsame : Refused ip off n → Wrote L s ip off n (ip, -1) s := fun href =>
    ⟨by rfl, hg, hip, fun _ _ _ => ⟨by rfl, by rfl⟩, fun _ => ⟨by rfl, by rfl⟩, fun h => absurd href h⟩
  unfold writei
  by_cases h1 : off > ip.size ∨ off + n < off
  · rw [if_pos h1]
    exact hsame (h1.imp_right .inl)
  · rw [if_neg h1]
    by_cases h2 : (off + n).toNat > MAXFILE * BSIZE
    · rw [if_pos h2]
      exact hsame (.inr (.inr h2))
    · rw [if_neg h2]
      have href : ¬Refused ip off n := by
        rintro (h | h | h)
        · exact h1 (.inl h)
        · exact h1 (.inr h)
        · exact h2 h
      have hoff : off.toNat ≤ ip.size.toNat := Nat.not_lt.1 fun h => h1 (.inl (UInt32.lt_iff_toNat_lt.2 h))
      have hmod : (off + n).toNat = (off.toNat + n.toNat) % 2 ^ 32 := UInt32.toNat_add ..
      have hsum : off.toNat + n.toNat < 2 ^ 32 := by
        by_contra hge
        refine h1 (.inr (UInt32.lt_iff_toNat_lt.2 ?_))
        have h3 := off.toNat_lt
        have h4 := n.toNat_lt
        rw [hmod]
        omega
      rw [Nat.mod_eq_of_lt hsum] at hmod
      rw [Prog.swp_bind]
      refine writeiLoop_swp hidle hg.owned hip hn (Nat.le_refl _) (by omega) fun ip₁ r v₁ src' hw => ?_
      have hle := hw.le
      have hs₁ : ip₁.size = ip.size := by rw [hw.fields]
      have hsize : (if off.toNat + r > ip₁.size.toNat then { ip₁ with size := .ofNat (off.toNat + r) } else ip₁) =
          { ip₁ with size := .ofNat (max ip.size.toNat (off.toNat + r)) } := by
        rw [hs₁]
        split
        · rw [Nat.max_eq_right (by omega)]
        · rw [Nat.max_eq_left (by omega), UInt32.ofNat_toNat, ← hs₁]
      simp only [hsize, Int.zero_add]
      rw [Prog.swp_bind]
      have hinum : ip₁.inum = ip.inum := by rw [hw.fields]
      refine iupdate_swp L hidle (by exact hinum ▸ hn) ?_
      exact hw.wrote hg hip hn ht hoff hsum href (by rfl) src'

/-- Four bytes over the end of a file. -/
theorem writei_swp_small : (writei smallSb smallFile 2 4).swp (Wrote smallLayout (smallSeq [120, 121, 122, 123]) smallFile 2 4)
    (smallSeq [120, 121, 122, 123]) :=
  writei_swp (smallSeq_idle _) smallDisk_good (dinode_smallFile _) (by decide) (by decide) 2 4

end Fs

end Xv6
