import Xv6.FsAlloc
import Xv6.LogSpec

/-!
# The blocks of the files

A `Place` is where the number of a block can stand: in an inode, or in its indirect block.  `Owned` says that no block stands at two
places, that the blocks of files are data blocks, and that the free map has exactly these marked.  `byteAt` is a byte of a file, which
is 0 where the file has no block.  A block from `balloc` is put at a place that had none; this changes no byte (`Owned.grow`).
-/

namespace Xv6

open Function (update)

namespace Fs

theorem BSIZE_pos : 0 < BSIZE := by decide

/-- Where the number of a block can stand. -/
inductive Place
  | addr (n : UInt32) (i : Fin (NDIRECT + 1))
  | entry (n : UInt32) (j : Fin NINDIRECT)
  deriving DecidableEq

def Place.inum : Place → UInt32
  | addr n _ => n
  | entry n _ => n

/-- The number that stands there; 0 also if there is no indirect block. -/
def blockOf (F : UInt32 → Dinode) (v : UInt32 → Block) : Place → UInt32
  | .addr n i => (F n).addrs i
  | .entry n j => if (F n).addrs indirect = 0 then 0 else getWord (v ((F n).addrs indirect)) j

/-- The place of the `bn`-th block of a file. -/
def place (n : UInt32) (bn : Nat) : Option Place :=
  if h : bn < NDIRECT then some (.addr n ⟨bn, Nat.lt_succ_of_lt h⟩)
  else if h : bn - NDIRECT < NINDIRECT then some (.entry n ⟨bn - NDIRECT, h⟩)
  else none

def fileAddr (F : UInt32 → Dinode) (v : UInt32 → Block) (n : UInt32) (bn : Nat) : UInt32 := (place n bn).elim 0 (blockOf F v)

def byteAt (F : UInt32 → Dinode) (v : UInt32 → Block) (n : UInt32) (k : Nat) : UInt8 :=
  if fileAddr F v n (k / BSIZE) = 0 then 0 else v (fileAddr F v n (k / BSIZE)) ⟨k % BSIZE, Nat.mod_lt _ BSIZE_pos⟩

/-- The blocks of the files and the free map agree. -/
structure Owned {sb : Superblock} (L : sb.Layout) (F : UInt32 → Dinode) (v : UInt32 → Block) : Prop where
  data : ∀ p : Place, p.inum.toNat < sb.ninodes.toNat → blockOf F v p ≠ 0 →
    L.start ≤ (blockOf F v p).toNat ∧ (blockOf F v p).toNat < sb.size.toNat
  inj : ∀ p q : Place, p.inum.toNat < sb.ninodes.toNat → q.inum.toNat < sb.ninodes.toNat → blockOf F v p ≠ 0 →
    blockOf F v p = blockOf F v q → p = q
  bit : ∀ a : UInt32, a.toNat < sb.size.toNat → (bitOf sb v a = true ↔
    a.toNat < L.start ∨ ∃ p : Place, p.inum.toNat < sb.ninodes.toNat ∧ blockOf F v p = a)

/-! ### Places -/

theorem place_inum {n : UInt32} {bn : Nat} {p : Place} (h : place n bn = some p) : p.inum = n := by
  unfold place at h
  split at h
  · cases h
    rfl
  · split at h
    · cases h
      rfl
    · cases h

theorem place_inj {m n : UInt32} {a b : Nat} {p : Place} (ha : place m a = some p) (hb : place n b = some p) : m = n ∧ a = b := by
  unfold place at ha hb
  split at ha
  · cases ha
    split at hb
    · cases hb
      exact ⟨rfl, rfl⟩
    · split at hb
      · cases hb
      · cases hb
  · split at ha
    · cases ha
      split at hb
      · cases hb
      · split at hb
        · simp only [Option.some.injEq, Place.entry.injEq, Fin.mk.injEq] at hb
          exact ⟨hb.1.symm, by omega⟩
        · cases hb
    · cases ha

/-- The indirect block is not one of the blocks of data. -/
theorem place_ne_indirect {m n : UInt32} {bn : Nat} : place n bn ≠ some (.addr m indirect) := by
  intro h
  unfold place at h
  split at h
  · rename_i hbn
    simp only [Option.some.injEq, Place.addr.injEq, indirect, Fin.ext_iff, Fin.val_last] at h
    omega
  · split at h <;> cases h

section

variable {sb : Superblock} {L : sb.Layout} {F F' : UInt32 → Dinode} {v v' : UInt32 → Block} {a n m : UInt32} {bn k : Nat} {p : Place}

theorem fileAddr_of_place (h : place n bn = some p) : fileAddr F v n bn = blockOf F v p := by
  rw [fileAddr, h, Option.elim_some]

theorem fileAddr_of_none (h : place n bn = none) : fileAddr F v n bn = 0 := by
  rw [fileAddr, h, Option.elim_none]

/-- A file has the same bytes if it has the same blocks with the same data. -/
theorem byteAt_congr
    (haddr : ∀ bn, fileAddr F v n bn ≠ 0 → fileAddr F' v' n bn = fileAddr F v n bn ∧ v' (fileAddr F v n bn) = v (fileAddr F v n bn))
    (hnew : ∀ bn, fileAddr F v n bn = 0 → fileAddr F' v' n bn = 0 ∨ v' (fileAddr F' v' n bn) = fun _ => 0) :
    byteAt F' v' n k = byteAt F v n k := by
  unfold byteAt
  by_cases h0 : fileAddr F v n (k / BSIZE) = 0
  · rw [if_pos h0]
    rcases hnew _ h0 with h | h
    · rw [if_pos h]
    · rw [h]
      simp
  · obtain ⟨he, hd⟩ := haddr _ h0
    rw [he, if_neg h0, if_neg h0, hd]

namespace Owned

/-- A block whose bit is clear is a data block that stands nowhere. -/
theorem fresh (h : Owned L F v) (ha : a.toNat < sb.size.toNat) (hbit : bitOf sb v a = false) :
    L.start ≤ a.toNat ∧ ∀ p : Place, p.inum.toNat < sb.ninodes.toNat → blockOf F v p ≠ a := by
  have hno : ¬ (a.toNat < L.start ∨ ∃ p : Place, p.inum.toNat < sb.ninodes.toNat ∧ blockOf F v p = a) := by
    rw [← h.bit a ha, hbit]
    simp
  exact ⟨by omega, fun p hp he => hno (.inr ⟨p, hp, he⟩)⟩

theorem start_pos (L : sb.Layout) : 0 < L.start := by
  exact Nat.lt_of_le_of_lt (Nat.zero_le _) L.bmap

theorem bmapstart_lt (L : sb.Layout) : sb.bmapstart.toNat < L.start := Nat.lt_of_le_of_lt (Nat.le_add_right ..) L.bmap

theorem ne_zero (h : L.start ≤ a.toNat) : a ≠ 0 := by
  rintro rfl
  have := start_pos L
  simp at h
  omega

/-- An indirect block is one of the data blocks. -/
theorem ind (h : Owned L F v) (hn : n.toNat < sb.ninodes.toNat) (hx : (F n).addrs indirect ≠ 0) :
    L.start ≤ ((F n).addrs indirect).toNat ∧ ((F n).addrs indirect).toNat < sb.size.toNat :=
  h.data (.addr n indirect) hn hx

/-- The block `a` is put at the place `p`. -/
theorem grow (h : Owned L F v) (ha : a.toNat < sb.size.toNat) (hbit : bitOf sb v a = false) (hp : p.inum.toNat < sb.ninodes.toNat)
    (h0 : blockOf F v p = 0) (hnew : blockOf F' v' p = a)
    (hold : ∀ q : Place, q.inum.toNat < sb.ninodes.toNat → q ≠ p → blockOf F' v' q = blockOf F v q)
    (hbits : ∀ b : UInt32, b.toNat < sb.size.toNat → bitOf sb v' b = (decide (a = b) || bitOf sb v b)) : Owned L F' v' := by
  obtain ⟨hstart, hfresh⟩ := h.fresh ha hbit
  constructor
  · intro q hq hne
    by_cases hqp : q = p
    · rw [hqp, hnew]
      exact ⟨hstart, ha⟩
    · rw [hold q hq hqp] at hne ⊢
      exact h.data q hq hne
  · intro q r hq hr hne he
    by_cases hqp : q = p
    · by_cases hrp : r = p
      · rw [hqp, hrp]
      · rw [hqp, hnew, hold r hr hrp] at he
        exact absurd he.symm (hfresh r hr)
    · rw [hold q hq hqp] at hne he
      by_cases hrp : r = p
      · rw [hrp, hnew] at he
        exact absurd he (hfresh q hq)
      · rw [hold r hr hrp] at he
        exact h.inj q r hq hr hne he
  · intro b hb
    rw [hbits b hb, Bool.or_eq_true, decide_eq_true_eq, h.bit b hb]
    constructor
    · rintro (rfl | hlt | ⟨q, hq, he⟩)
      · exact .inr ⟨p, hp, hnew⟩
      · exact .inl hlt
      · by_cases hqp : q = p
        · rw [hqp, h0] at he
          have := start_pos L
          exact .inl (by rw [← he]; simpa using this)
        · exact .inr ⟨q, hq, by rw [hold q hq hqp, he]⟩
    · rintro (hlt | ⟨q, hq, he⟩)
      · exact .inr (.inl hlt)
      · by_cases hqp : q = p
        · rw [hqp, hnew] at he
          exact .inl he
        · rw [hold q hq hqp] at he
          exact .inr (.inr ⟨q, hq, he⟩)

/-- The data of a block that is not one of the free map nor an indirect block. -/
theorem store (h : Owned L F v) (ha : L.start ≤ a.toNat)
    (hind : ∀ n : UInt32, n.toNat < sb.ninodes.toNat → (F n).addrs indirect ≠ a) (d : Block) :
    Owned L F (update v a d) ∧ ∀ q : Place, q.inum.toNat < sb.ninodes.toNat → blockOf F (update v a d) q = blockOf F v q := by
  have hblock : ∀ q : Place, q.inum.toNat < sb.ninodes.toNat → blockOf F (update v a d) q = blockOf F v q := by
    intro q hq
    cases q with
    | addr n i => rfl
    | entry n j => rw [blockOf, blockOf, Function.update_of_ne (hind n hq)]
  refine ⟨⟨fun q hq => ?_, fun q r hq hr => ?_, fun b hb => ?_⟩, hblock⟩
  · rw [hblock q hq]
    exact h.data q hq
  · rw [hblock q hq, hblock r hr]
    exact h.inj q r hq hr
  · rw [bitOf_update L ha hb, h.bit b hb]
    refine or_congr_right (exists_congr fun q => and_congr_right fun hq => ?_)
    rw [hblock q hq]

/-- A block of data is not an indirect block. -/
theorem leaf (h : Owned L F v) (hn : n.toNat < sb.ninodes.toNat) (h0 : fileAddr F v n bn ≠ 0) (hm : m.toNat < sb.ninodes.toNat) :
    (F m).addrs indirect ≠ fileAddr F v n bn := by
  intro he
  cases hp : place n bn with
  | none =>
    rw [fileAddr, hp] at h0
    exact h0 rfl
  | some p =>
    rw [fileAddr_of_place hp] at h0 he
    have := h.inj p (.addr m indirect) (by rwa [place_inum hp]) hm h0 he.symm
    rw [this] at hp
    exact place_ne_indirect hp

theorem fileAddr_data (h : Owned L F v) (hn : n.toNat < sb.ninodes.toNat) (h0 : fileAddr F v n bn ≠ 0) :
    L.start ≤ (fileAddr F v n bn).toNat ∧ (fileAddr F v n bn).toNat < sb.size.toNat := by
  cases hp : place n bn with
  | none =>
    rw [fileAddr, hp] at h0
    exact absurd rfl h0
  | some p =>
    rw [fileAddr_of_place hp] at h0 ⊢
    exact h.data p (by rwa [place_inum hp]) h0

theorem fileAddr_inj (h : Owned L F v) {bm : Nat} (hn : n.toNat < sb.ninodes.toNat) (hm : m.toNat < sb.ninodes.toNat)
    (h0 : fileAddr F v n bn ≠ 0) (he : fileAddr F v n bn = fileAddr F v m bm) : n = m ∧ bn = bm := by
  cases hp : place n bn with
  | none =>
    rw [fileAddr, hp] at h0
    exact absurd rfl h0
  | some p =>
    cases hq : place m bm with
    | none =>
      rw [he, fileAddr, hq] at h0
      exact absurd rfl h0
    | some q =>
      rw [fileAddr_of_place hp] at h0 he
      rw [fileAddr_of_place hq] at he
      have := h.inj p q (by rwa [place_inum hp]) (by rwa [place_inum hq]) h0 he
      rw [← this] at hq
      exact place_inj hp hq

/-- The `bn`-th block of file `n` gets new data. -/
theorem write (h : Owned L F v) (hn : n.toNat < sb.ninodes.toNat) (h0 : fileAddr F v n bn ≠ 0) (d : Block) :
    Owned L F (update v (fileAddr F v n bn) d) ∧
    (∀ m b, m.toNat < sb.ninodes.toNat → fileAddr F (update v (fileAddr F v n bn) d) m b = fileAddr F v m b) ∧
    ∀ m k, m.toNat < sb.ninodes.toNat → byteAt F (update v (fileAddr F v n bn) d) m k =
      if m = n ∧ k / BSIZE = bn then d ⟨k % BSIZE, Nat.mod_lt _ BSIZE_pos⟩ else byteAt F v m k := by
  obtain ⟨hown, hblock⟩ := h.store (h.fileAddr_data hn h0).1 (fun m hm => h.leaf hn h0 hm) d
  have haddr : ∀ m b, m.toNat < sb.ninodes.toNat → fileAddr F (update v (fileAddr F v n bn) d) m b = fileAddr F v m b := by
    intro m b hm
    cases hp : place m b with
    | none => rw [fileAddr_of_none hp, fileAddr_of_none hp]
    | some p => rw [fileAddr_of_place hp, fileAddr_of_place hp, hblock p (by rwa [place_inum hp])]
  refine ⟨hown, haddr, fun m k hm => ?_⟩
  rw [byteAt, haddr m _ hm, byteAt]
  by_cases hk : m = n ∧ k / BSIZE = bn
  · rw [if_pos hk, hk.1, hk.2, if_neg h0, Function.update_self]
  · rw [if_neg hk]
    by_cases hz : fileAddr F v m (k / BSIZE) = 0
    · rw [if_pos hz, if_pos hz]
    · rw [if_neg hz, if_neg hz, Function.update_of_ne]
      intro he
      obtain ⟨h1, h2⟩ := h.fileAddr_inj hm hn hz he
      exact hk ⟨h1, h2⟩

end Owned

/-- File `n` may have more blocks, with zeros. -/
structure Grown {sb : Superblock} (L : sb.Layout) (n : UInt32) (F : UInt32 → Dinode) (v : UInt32 → Block) (F' : UInt32 → Dinode)
    (v' : UInt32 → Block) : Prop where
  owned : Owned L F' v'
  bytes : ∀ m k, m.toNat < sb.ninodes.toNat → byteAt F' v' m k = byteAt F v m k
  keep : ∀ m bn, m.toNat < sb.ninodes.toNat → fileAddr F v m bn ≠ 0 → fileAddr F' v' m bn = fileAddr F v m bn
  inodes : ∀ c : UInt32, c.toNat < sb.bmapstart.toNat → v' c = v c
  others : ∀ m ≠ n, F' m = F m
  fields : F' n = { F n with addrs := (F' n).addrs }

namespace Grown

theorem refl (h : Owned L F v) (n : UInt32) : Grown L n F v F v :=
  ⟨h, fun _ _ _ => by rfl, fun _ _ _ _ => by rfl, fun _ _ => by rfl, fun _ _ => by rfl, by rfl⟩

theorem trans {F₂ : UInt32 → Dinode} {v₂ : UInt32 → Block} (h : Grown L n F v F' v') (h' : Grown L n F' v' F₂ v₂) :
    Grown L n F v F₂ v₂ := by
  refine ⟨h'.owned, fun m k hm => (h'.bytes m k hm).trans (h.bytes m k hm), fun m bn hm h0 => ?_,
    fun c hc => (h'.inodes c hc).trans (h.inodes c hc), fun m hm => (h'.others m hm).trans (h.others m hm), ?_⟩
  · have he := h.keep m bn hm h0
    rw [← he] at h0 ⊢
    exact h'.keep m bn hm h0
  · rw [h'.fields, h.fields]

end Grown

namespace Owned

/-- The block `a`, full of zeros, is put at the place `p` of file `n`. -/
theorem grown (h : Owned L F v) (ha : a.toNat < sb.size.toNat) (hbit : bitOf sb v a = false) (hp : p.inum.toNat < sb.ninodes.toNat)
    (h0 : blockOf F v p = 0) (hnew : blockOf F' v' p = a)
    (hold : ∀ q : Place, q.inum.toNat < sb.ninodes.toNat → q ≠ p → blockOf F' v' q = blockOf F v q)
    (hbits : ∀ b : UInt32, b.toNat < sb.size.toNat → bitOf sb v' b = (decide (a = b) || bitOf sb v b))
    (hdata : ∀ c : UInt32, L.start ≤ c.toNat → c ≠ a → (∀ m : UInt32, m.toNat < sb.ninodes.toNat → (F m).addrs indirect ≠ c) → v' c = v c)
    (hzero : v' a = fun _ => 0) (hinodes : ∀ c : UInt32, c.toNat < sb.bmapstart.toNat → v' c = v c) (hothers : ∀ m ≠ n, F' m = F m)
    (hfields : F' n = { F n with addrs := (F' n).addrs }) : Grown L n F v F' v' := by
  obtain ⟨-, hfresh⟩ := h.fresh ha hbit
  have hkeep : ∀ m bn, m.toNat < sb.ninodes.toNat → fileAddr F v m bn ≠ 0 → fileAddr F' v' m bn = fileAddr F v m bn := by
    intro m bn hm hne
    cases hq : place m bn with
    | none => exact absurd (fileAddr_of_none hq) hne
    | some q =>
      rw [fileAddr_of_place hq] at hne ⊢
      rw [fileAddr_of_place hq]
      refine hold q (by rwa [place_inum hq]) ?_
      rintro rfl
      exact hne h0
  refine ⟨h.grow ha hbit hp h0 hnew hold hbits, fun m k hm => ?_, hkeep, hinodes, hothers, hfields⟩
  refine byteAt_congr (fun bn hne => ⟨hkeep m bn hm hne, hdata _ (h.fileAddr_data hm hne).1 ?_ fun l hl => h.leaf hm hne hl⟩)
    fun bn hz => ?_
  · intro he
    cases hq : place m bn with
    | none => exact absurd (fileAddr_of_none hq) hne
    | some q =>
      rw [fileAddr_of_place hq] at he
      exact hfresh q (by rwa [place_inum hq]) he
  · cases hq : place m bn with
    | none => exact .inl (fileAddr_of_none hq)
    | some q =>
      rw [fileAddr_of_place hq] at hz ⊢
      by_cases hqp : q = p
      · rw [hqp, hnew]
        exact .inr hzero
      · rw [hold q (by rwa [place_inum hq]) hqp]
        exact .inl hz

/-- A new block in the inode. -/
theorem grown_addr (h : Owned L F v) (hn : n.toNat < sb.ninodes.toNat) (ha : a.toNat < sb.size.toNat) (hbit : bitOf sb v a = false)
    {i : Fin (NDIRECT + 1)} (h0 : (F n).addrs i = 0) :
    Grown L n F v (update F n { F n with addrs := update (F n).addrs i a }) (allocView sb v a) := by
  obtain ⟨hstart, hfresh⟩ := h.fresh ha hbit
  refine h.grown (p := .addr n i) ha hbit hn h0 (by simp [blockOf]) (fun q hq hne => ?_) (fun b hb => bitOf_alloc L hstart ha hb)
    (fun c hc hca _ => allocView_of_ne L ha hca (.inr hc)) allocView_self (fun c hc => ?_)
    (fun m hm => Function.update_of_ne hm ..) (by simp)
  · cases q with
    | addr m j =>
      by_cases hm : m = n
      · have hj : j ≠ i := fun hj => hne (by rw [hm, hj])
        simp [blockOf, hm, hj]
      · simp [blockOf, hm]
    | entry m j =>
      by_cases hi : m = n ∧ i = indirect
      · obtain ⟨rfl, rfl⟩ := hi
        have hzero : getWord (fun _ => 0) j.val = 0 := by
          unfold getWord
          split <;> rfl
        simp [blockOf, h0, hzero]
      · have hsame : ((update F n { F n with addrs := update (F n).addrs i a }) m).addrs indirect = (F m).addrs indirect := by
          by_cases hm : m = n
          · have hj : indirect ≠ i := fun hj => hi ⟨hm, hj.symm⟩
            simp [hm, hj]
          · simp [hm]
        rw [blockOf, hsame, blockOf]
        split
        · rfl
        · rename_i hz
          have hx : (F m).addrs indirect ≠ a := hfresh (.addr m indirect) hq
          rw [allocView_of_ne L ha hx (.inr (h.ind hq hz).1)]
  · refine allocView_of_ne L ha ?_ (.inl hc)
    rintro rfl
    have := bmapstart_lt L
    omega

/-- A new block in the indirect block. -/
theorem grown_entry (h : Owned L F v) (hn : n.toNat < sb.ninodes.toNat) (ha : a.toNat < sb.size.toNat) (hbit : bitOf sb v a = false)
    {j : Fin NINDIRECT} (hx : (F n).addrs indirect ≠ 0) (h0 : getWord (v ((F n).addrs indirect)) j = 0) :
    Grown L n F v F
      (update (allocView sb v a) ((F n).addrs indirect) (setWord (allocView sb v a ((F n).addrs indirect)) j a)) := by
  obtain ⟨hstart, hfresh⟩ := h.fresh ha hbit
  have hxdata := h.ind hn hx
  have hxa : (F n).addrs indirect ≠ a := hfresh (.addr n indirect) hn
  have hview : allocView sb v a ((F n).addrs indirect) = v ((F n).addrs indirect) := allocView_of_ne L ha hxa (.inr hxdata.1)
  refine h.grown (p := .entry n j) ha hbit hn (by simp [blockOf, h0]) ?_ (fun q hq hne => ?_) (fun b hb => ?_) (fun c hc hca hind => ?_) ?_
    (fun c hc => ?_) (fun m _ => by rfl) (by rfl)
  · rw [blockOf, if_neg hx, Function.update_self, getWord_setWord_self _ j.isLt]
  · cases q with
    | addr m i => rfl
    | entry m i =>
      rw [blockOf, blockOf]
      split
      · rfl
      · rename_i hz
        by_cases hm : m = n
        · have hij : i.val ≠ j.val := fun hij => hne (by rw [hm, Fin.ext hij])
          rw [hm, Function.update_self, getWord_setWord_ne _ hij, hview]
        · have hxy : (F m).addrs indirect ≠ (F n).addrs indirect := by
            intro he
            have := h.inj (.addr m indirect) (.addr n indirect) hq hn hz he
            simp only [Place.addr.injEq] at this
            exact hm this.1
          have hya : (F m).addrs indirect ≠ a := hfresh (.addr m indirect) hq
          rw [Function.update_of_ne hxy, allocView_of_ne L ha hya (.inr (h.ind hq hz).1)]
  · rw [bitOf_update L hxdata.1 hb, bitOf_alloc L hstart ha hb]
  · rw [Function.update_of_ne (hind n hn).symm, allocView_of_ne L ha hca (.inr hc)]
  · rw [Function.update_of_ne hxa.symm, allocView_self]
  · have hlt := bmapstart_lt L
    have hcx : c ≠ (F n).addrs indirect := by
      intro he
      have := hxdata.1
      rw [← he] at this
      omega
    rw [Function.update_of_ne hcx, allocView_of_ne L ha ?_ (.inl hc)]
    rintro rfl
    omega

end Owned

end

end Fs

end Xv6
