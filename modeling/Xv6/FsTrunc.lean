import Xv6.FsWrite

/-!
# Truncating and allocating inodes

`itrunc` frees exactly the blocks of the file, each of which is in use (`itrunc_swp`); `ialloc` takes an inode that is free and leaves
it without blocks (`ialloc_swp`).
-/

namespace Xv6

open Function (update)

namespace Fs

variable {sb : Superblock} {L : sb.Layout} {F F' : UInt32 → Dinode} {v v' : UInt32 → Block} {s : Seq} {ip : Inode}

/-! ### Blocks that become free -/

/-- The disk after `bfree` of each of the blocks. -/
def freeAll (sb : Superblock) (v : UInt32 → Block) (l : List UInt32) : UInt32 → Block := l.foldl (freeView sb) v

/-- The blocks are in use, and none of them is listed twice. -/
structure InUse (sb : Superblock) (v : UInt32 → Block) (l : List UInt32) : Prop where
  nodup : l.Nodup
  size : ∀ a ∈ l, a.toNat < sb.size.toNat
  bit : ∀ a ∈ l, bitOf sb v a = true

theorem bitOf_freeAll (L : sb.Layout) {l : List UInt32} (hl : ∀ a ∈ l, a.toNat < sb.size.toNat) {b : UInt32}
    (hb : b.toNat < sb.size.toNat) : bitOf sb (freeAll sb v l) b = true ↔ bitOf sb v b = true ∧ b ∉ l := by
  induction l generalizing v with
  | nil => simp [freeAll]
  | cons a l ih =>
    have ha := hl a List.mem_cons_self
    show bitOf sb (freeAll sb (freeView sb v a) l) b = true ↔ _
    rw [ih fun c hc => hl c (List.mem_cons_of_mem _ hc), bitOf_free L ha hb]
    simp only [Bool.and_eq_true, Bool.not_eq_true', decide_eq_false_iff_not, List.mem_cons, not_or]
    constructor
    · rintro ⟨⟨h1, h2⟩, h3⟩
      exact ⟨h2, fun h => h1 h.symm, h3⟩
    · rintro ⟨h1, h2, h3⟩
      exact ⟨⟨fun h => h2 h.symm, h1⟩, h3⟩

theorem freeAll_of_ne (L : sb.Layout) {l : List UInt32} (hl : ∀ a ∈ l, a.toNat < sb.size.toNat) {c : UInt32}
    (hc : c.toNat < sb.bmapstart.toNat ∨ L.start ≤ c.toNat) : freeAll sb v l c = v c := by
  induction l generalizing v with
  | nil => rfl
  | cons a l ih =>
    show freeAll sb (freeView sb v a) l c = v c
    rw [ih fun b hb => hl b (List.mem_cons_of_mem _ hb), freeView_of_ne L (hl a List.mem_cons_self) hc]

theorem InUse.tail (L : sb.Layout) {a : UInt32} {l : List UInt32} (h : InUse sb v (a :: l)) : InUse sb (freeView sb v a) l := by
  refine ⟨(List.nodup_cons.1 h.nodup).2, fun b hb => h.size b (List.mem_cons_of_mem _ hb), fun b hb => ?_⟩
  have hb' := h.size b (List.mem_cons_of_mem _ hb)
  rw [bitOf_free L (h.size a List.mem_cons_self) hb', h.bit b (List.mem_cons_of_mem _ hb)]
  have hne : a ≠ b := by
    rintro rfl
    exact (List.nodup_cons.1 h.nodup).1 hb
  simp [hne]

theorem InUse.append (L : sb.Layout) {l l' : List UInt32} (h : InUse sb v (l ++ l')) : InUse sb v l ∧ InUse sb (freeAll sb v l) l' := by
  induction l generalizing v with
  | nil => exact ⟨⟨List.nodup_nil, by simp, by simp⟩, h⟩
  | cons a l ih =>
    refine ⟨⟨?_, fun b hb => h.size b (List.mem_append_left _ hb), fun b hb => h.bit b (List.mem_append_left _ hb)⟩, (ih (h.tail L)).2⟩
    exact (List.nodup_append.1 h.nodup).1

/-- The loop over the direct blocks. -/
theorem itruncDirect_swp {Q : Inode → Seq → Prop} {l : List (Fin (NDIRECT + 1))} (hidle : s.Idle sb) (hl : l.Nodup)
    (huse : InUse sb s.view ((l.map ip.addrs).filter (· ≠ 0)))
    (hQ : Q { ip with addrs := fun i => if i ∈ l then 0 else ip.addrs i }
      { s with view := freeAll sb s.view ((l.map ip.addrs).filter (· ≠ 0)) }) (L : sb.Layout) : (itruncDirect sb ip l).swp Q s := by
  induction l generalizing ip s with
  | nil => exact hQ
  | cons i l ih =>
    obtain ⟨hi, hl'⟩ := List.nodup_cons.1 hl
    rw [itruncDirect]
    by_cases h0 : ip.addrs i = 0
    · have hfilter : ((i :: l).map ip.addrs).filter (· ≠ 0) = (l.map ip.addrs).filter (· ≠ 0) := by
        rw [List.map_cons, List.filter_cons_of_neg (by simpa using h0)]
      have haddrs : (fun j => if j ∈ i :: l then (0 : UInt32) else ip.addrs j) = fun j => if j ∈ l then 0 else ip.addrs j := by
        funext j
        by_cases hj : j = i
        · simp [hj, h0]
        · simp [hj]
      rw [hfilter] at huse hQ
      rw [haddrs] at hQ
      rw [if_neg (by simpa using h0)]
      exact ih hidle hl' huse hQ
    · have hfilter : ((i :: l).map ip.addrs).filter (· ≠ 0) = ip.addrs i :: (l.map ip.addrs).filter (· ≠ 0) := by
        rw [List.map_cons, List.filter_cons_of_pos (by simpa using h0)]
      rw [hfilter] at huse hQ
      have hset : l.map (setAddr ip i 0).addrs = l.map ip.addrs := by
        refine List.map_congr_left fun j hj => ?_
        have hji : j ≠ i := fun h => hi (h ▸ hj)
        simp [setAddr, hji]
      have haddrs : (fun j => if j ∈ i :: l then (0 : UInt32) else ip.addrs j) = fun j => if j ∈ l then 0 else (setAddr ip i 0).addrs j := by
        funext j
        by_cases hj : j = i
        · simp [setAddr, hj]
        · simp [setAddr, hj]
      rw [if_pos (by simpa using h0), Prog.swp_bind]
      refine bfree_swp L (mapFree_idle hidle) (huse.size _ List.mem_cons_self) (huse.bit _ List.mem_cons_self) (ih hidle hl' ?_ ?_)
      · rw [hset]
        exact huse.tail L
      · rw [hset]
        rw [haddrs] at hQ
        exact hQ

/-- The loop over the entries of the indirect block. -/
theorem itruncIndirect_swp {Q : Unit → Seq → Prop} {l : List UInt32} (hmap : MapFree sb s) (huse : InUse sb s.view (l.filter (· ≠ 0)))
    (hQ : Q () { s with view := freeAll sb s.view (l.filter (· ≠ 0)) }) (L : sb.Layout) : (itruncIndirect sb l).swp Q s := by
  induction l generalizing s with
  | nil => exact hQ
  | cons a l ih =>
    rw [itruncIndirect]
    by_cases h0 : a = 0
    · have hfilter : (a :: l).filter (· ≠ 0) = l.filter (· ≠ 0) := List.filter_cons_of_neg (by simpa using h0)
      rw [hfilter] at huse hQ
      rw [if_neg (by simpa using h0)]
      exact ih hmap huse hQ
    · have hfilter : (a :: l).filter (· ≠ 0) = a :: l.filter (· ≠ 0) := List.filter_cons_of_pos (by simpa using h0)
      rw [hfilter] at huse hQ
      rw [if_pos (by simpa using h0)]
      rw [Prog.swp_bind]
      exact bfree_swp L hmap (huse.size a List.mem_cons_self) (huse.bit a List.mem_cons_self) (ih hmap (huse.tail L) hQ)

/-! ### Places that are given up -/

/-- The numbers at the places in `P` go, and their blocks become free. -/
theorem Owned.remove (h : Owned L F v) (P : Place → Prop) (hgone : ∀ p : Place, p.inum.toNat < sb.ninodes.toNat → P p → blockOf F' v' p = 0)
    (hstay : ∀ p : Place, p.inum.toNat < sb.ninodes.toNat → ¬P p → blockOf F' v' p = blockOf F v p)
    (hbits : ∀ a : UInt32, a.toNat < sb.size.toNat → (bitOf sb v' a = true ↔ bitOf sb v a = true ∧
      ¬∃ p : Place, p.inum.toNat < sb.ninodes.toNat ∧ P p ∧ blockOf F v p ≠ 0 ∧ blockOf F v p = a)) : Owned L F' v' := by
  have hsame : ∀ p : Place, p.inum.toNat < sb.ninodes.toNat → blockOf F' v' p ≠ 0 → ¬P p ∧ blockOf F' v' p = blockOf F v p := by
    intro p hp hne
    have hP : ¬P p := fun hP => hne (hgone p hp hP)
    exact ⟨hP, hstay p hp hP⟩
  refine ⟨fun p hp hne => ?_, fun p q hp hq hne he => ?_, fun a ha => ?_⟩
  · have hb := (hsame p hp hne).2
    rw [hb] at hne ⊢
    exact h.data p hp hne
  · have hne' := hne
    rw [he] at hne'
    rw [(hsame p hp hne).2, (hsame q hq hne').2] at he
    rw [(hsame p hp hne).2] at hne
    exact h.inj p q hp hq hne he
  · rw [hbits a ha, h.bit a ha]
    constructor
    · rintro ⟨hlt | ⟨p, hp, he⟩, hno⟩
      · exact .inl hlt
      · by_cases hz : blockOf F v p = 0
        · rw [hz] at he
          exact .inl (by rw [← he]; exact start_pos L)
        · have hP : ¬P p := fun hP => hno ⟨p, hp, hP, hz, he⟩
          exact .inr ⟨p, hp, by rw [hstay p hp hP, he]⟩
    · rintro (hlt | ⟨p, hp, he⟩)
      · refine ⟨.inl hlt, ?_⟩
        rintro ⟨q, hq, -, hne, rfl⟩
        have := (h.data q hq hne).1
        omega
      · by_cases hz : blockOf F' v' p = 0
        · rw [hz] at he
          have hlt : a.toNat < L.start := by rw [← he]; exact start_pos L
          refine ⟨.inl hlt, ?_⟩
          rintro ⟨q, hq, -, hne, rfl⟩
          have := (h.data q hq hne).1
          omega
        · obtain ⟨hP, hb⟩ := hsame p hp hz
          rw [hb] at he hz
          refine ⟨.inr ⟨p, hp, he⟩, ?_⟩
          rintro ⟨q, hq, hQ, hne, heq⟩
          have := h.inj q p hq hp hne (by rw [heq, he])
          exact hP (this ▸ hQ)

/-- The places of a file. -/
def placesOf (n : UInt32) : List Place :=
  ((List.finRange NDIRECT).map fun i => .addr n i.castSucc) ++ ((List.finRange NINDIRECT).map fun j => .entry n j) ++ [.addr n indirect]

theorem mem_placesOf {n : UInt32} {p : Place} : p ∈ placesOf n ↔ p.inum = n := by
  unfold placesOf
  constructor
  · intro h
    simp only [List.mem_append, List.mem_map, List.mem_singleton] at h
    rcases h with (⟨i, -, rfl⟩ | ⟨j, -, rfl⟩) | rfl <;> rfl
  · rintro rfl
    simp only [List.mem_append, List.mem_map, List.mem_singleton]
    cases p with
    | addr m i =>
      by_cases hi : i = indirect
      · rw [hi]
        exact .inr (by rfl)
      · obtain ⟨k, rfl⟩ := Fin.exists_castSucc_eq.2 hi
        exact .inl (.inl ⟨k, List.mem_finRange k, by rfl⟩)
    | entry m j => exact .inl (.inr ⟨j, List.mem_finRange j, by rfl⟩)

theorem nodup_placesOf (n : UInt32) : (placesOf n).Nodup := by
  unfold placesOf
  rw [List.nodup_append, List.nodup_append]
  refine ⟨⟨?_, ?_, ?_⟩, List.nodup_singleton _, ?_⟩
  · refine (List.nodup_finRange _).map fun i j h => ?_
    simpa using h
  · refine (List.nodup_finRange _).map fun i j h => ?_
    simpa using h
  · intro p hp q hq
    obtain ⟨i, -, rfl⟩ := List.mem_map.1 hp
    obtain ⟨j, -, rfl⟩ := List.mem_map.1 hq
    intro h
    cases h
  · intro p hp q hq h
    rw [List.mem_singleton.1 hq] at h
    rcases List.mem_append.1 hp with hp | hp
    · obtain ⟨i, -, rfl⟩ := List.mem_map.1 hp
      simp only [Place.addr.injEq, indirect, true_and] at h
      exact absurd h (Fin.castSucc_lt_last i).ne
    · obtain ⟨j, -, rfl⟩ := List.mem_map.1 hp
      cases h

/-- The blocks of a file. -/
def blocksOf (F : UInt32 → Dinode) (v : UInt32 → Block) (n : UInt32) : List UInt32 := ((placesOf n).map (blockOf F v)).filter (· ≠ 0)

theorem mem_blocksOf {n a : UInt32} : a ∈ blocksOf F v n ↔ ∃ p : Place, p.inum = n ∧ blockOf F v p ≠ 0 ∧ blockOf F v p = a := by
  rw [blocksOf, List.mem_filter, List.mem_map]
  constructor
  · rintro ⟨⟨p, hp, rfl⟩, h0⟩
    exact ⟨p, mem_placesOf.1 hp, by simpa using h0, by rfl⟩
  · rintro ⟨p, hp, h0, rfl⟩
    exact ⟨⟨p, mem_placesOf.2 hp, by rfl⟩, by simpa using h0⟩

theorem Owned.inUse (h : Owned L F v) {n : UInt32} (hn : n.toNat < sb.ninodes.toNat) : InUse sb v (blocksOf F v n) := by
  refine ⟨?_, fun a ha => ?_, fun a ha => ?_⟩
  · unfold blocksOf
    rw [List.filter_map]
    refine List.Nodup.map_on ?_ ((nodup_placesOf n).filter _)
    intro p hp q hq he
    rw [List.mem_filter, mem_placesOf] at hp hq
    exact h.inj p q (by rw [hp.1]; exact hn) (by rw [hq.1]; exact hn) (by simpa using hp.2) he
  · obtain ⟨p, hp, hne, rfl⟩ := mem_blocksOf.1 ha
    exact (h.data p (by rw [hp]; exact hn) hne).2
  · obtain ⟨p, hp, hne, rfl⟩ := mem_blocksOf.1 ha
    have hp' : p.inum.toNat < sb.ninodes.toNat := by rw [hp]; exact hn
    exact (h.bit _ (h.data p hp' hne).2).2 (.inr ⟨p, hp', by rfl⟩)

/-! ### `itrunc` -/

theorem freeAll_append (v : UInt32 → Block) (l l' : List UInt32) : freeAll sb v (l ++ l') = freeAll sb (freeAll sb v l) l' :=
  List.foldl_append ..

/-- The direct blocks. -/
def directs : List (Fin (NDIRECT + 1)) := (List.finRange NDIRECT).map Fin.castSucc

theorem mem_directs {i : Fin (NDIRECT + 1)} : i ∈ directs ↔ i ≠ indirect := by
  rw [directs, List.mem_map]
  constructor
  · rintro ⟨k, -, rfl⟩
    exact (Fin.castSucc_lt_last k).ne
  · intro h
    obtain ⟨k, rfl⟩ := Fin.exists_castSucc_eq.2 h
    exact ⟨k, List.mem_finRange k, by rfl⟩

theorem nodup_directs : directs.Nodup := (List.nodup_finRange _).map (Fin.castSucc_injective _)

/-- The entries of the indirect block `d` that are in use. -/
def entries (d : Block) : List UInt32 := ((List.range NINDIRECT).map (getWord d)).filter (· ≠ 0)

/-- The blocks of the file in the order of `itrunc`. -/
theorem blocksOf_eq (h : F ip.inum = ip.toDinode) : blocksOf F v ip.inum = (directs.map ip.addrs).filter (· ≠ 0) ++
    if ip.addrs indirect = 0 then [] else entries (v (ip.addrs indirect)) ++ [ip.addrs indirect] := by
  have hrange : (List.range NINDIRECT).map (getWord (v (ip.addrs indirect))) =
      (List.finRange NINDIRECT).map fun j => getWord (v (ip.addrs indirect)) j.val := by
    rw [← List.map_coe_finRange_eq_range, List.map_map]
    rfl
  rw [entries, hrange, blocksOf, placesOf, List.map_append, List.map_append, List.filter_append, List.filter_append, List.append_assoc]
  congr 1
  · rw [List.map_map, directs, List.map_map]
    congr 2
    funext i
    simp only [Function.comp, blockOf, h]
  · by_cases h0 : ip.addrs indirect = 0
    · rw [if_pos h0]
      simp [blockOf, h, h0]
    · rw [if_neg h0]
      simp [blockOf, h, h0, Function.comp_def]

/-- What `itrunc(ip)` leaves: a file without bytes, its blocks free, and the other files as they were. -/
structure Truncated (L : sb.Layout) (s : Seq) (ip : Inode) (x : Inode) (t : Seq) : Prop where
  held : t.held = s.held
  src : t.src = s.src
  low : t.low = s.low
  good : Good L t.view
  inode : x = { ip with size := 0, addrs := fun _ => 0 }
  disk : dinode sb t.view ip.inum = x.toDinode
  others : ∀ m : UInt32, m.toNat < sb.ninodes.toNat → m ≠ ip.inum →
    dinode sb t.view m = dinode sb s.view m ∧ contents sb t.view m = contents sb s.view m
  freed : ∀ a : UInt32, a.toNat < sb.size.toNat →
    (bitOf sb t.view a = true ↔ bitOf sb s.view a = true ∧ a ∉ blocksOf (dinode sb s.view) s.view ip.inum)

theorem Good.truncated (hg : Good L s.view) (hn : ip.inum.toNat < sb.ninodes.toNat) {x : Inode} (hx : x = { ip with size := 0, addrs := fun _ => 0 }) :
    Truncated L s ip x
      { s with view := updView sb (freeAll sb s.view (blocksOf (dinode sb s.view) s.view ip.inum)) x.inum x.toDinode } := by
  have huse := hg.owned.inUse hn
  have hi : x.inum = ip.inum := by rw [hx]
  have hview : ∀ c : UInt32, c.toNat < sb.bmapstart.toNat ∨ L.start ≤ c.toNat →
      freeAll sb s.view (blocksOf (dinode sb s.view) s.view ip.inum) c = s.view c := fun c hc => freeAll_of_ne L huse.size hc
  rw [hi]
  generalize hv : freeAll sb s.view (blocksOf (dinode sb s.view) s.view ip.inum) = v at hview
  have hbit : ∀ a : UInt32, a.toNat < sb.size.toNat →
      (bitOf sb v a = true ↔ bitOf sb s.view a = true ∧ a ∉ blocksOf (dinode sb s.view) s.view ip.inum) := by
    intro a ha
    rw [← hv]
    exact bitOf_freeAll L huse.size ha
  -- the inodes of the process, with the empty one
  have hself : setIno (dinode sb s.view) x ip.inum = x.toDinode := by rw [setIno, hi, Function.update_self]
  have hother : ∀ m : UInt32, m ≠ ip.inum → setIno (dinode sb s.view) x m = dinode sb s.view m := by
    intro m hm
    rw [setIno, hi, Function.update_of_ne hm]
  have hstay : ∀ p : Place, p.inum.toNat < sb.ninodes.toNat → p.inum ≠ ip.inum →
      blockOf (setIno (dinode sb s.view) x) v p = blockOf (dinode sb s.view) s.view p := by
    intro p hp hne
    cases p with
    | addr m j => rw [blockOf, blockOf, hother m hne]
    | entry m j =>
      rw [blockOf, blockOf, hother m hne]
      split
      · rfl
      · rename_i hz
        rw [hview _ (.inr (hg.owned.ind (n := m) hp hz).1)]
  have hgone : ∀ p : Place, p.inum.toNat < sb.ninodes.toNat → p.inum = ip.inum →
      blockOf (setIno (dinode sb s.view) x) v p = 0 := by
    intro p _ he
    cases p with
    | addr m j =>
      rw [blockOf, show m = ip.inum from he, hself, hx]
    | entry m j =>
      rw [blockOf, show m = ip.inum from he, hself, hx]
      rfl
  have hown : Owned L (setIno (dinode sb s.view) x) v := by
    refine hg.owned.remove (fun p => p.inum = ip.inum) hgone hstay fun a ha => ?_
    rw [hbit a ha, mem_blocksOf]
    refine and_congr_right fun _ => not_congr (exists_congr fun p => ?_)
    constructor
    · rintro ⟨hp, hne, he⟩
      exact ⟨by rw [hp]; exact hn, hp, hne, he⟩
    · rintro ⟨-, hp, hne, he⟩
      exact ⟨hp, hne, he⟩
  obtain ⟨hd, hd', hown', haddr, hbytes⟩ := hown.iupdate hn (x := x.toDinode) (by rw [hself]) fun m hm hmn => by
    rw [hother m hmn, dinode_congr L (fun c hc => hview c (.inl hc)) hm]
  have hfile : ∀ m bn, m.toNat < sb.ninodes.toNat → m ≠ ip.inum →
      fileAddr (setIno (dinode sb s.view) x) v m bn = fileAddr (dinode sb s.view) s.view m bn := by
    intro m bn hm hmn
    cases hp : place m bn with
    | none => rw [fileAddr_of_none hp, fileAddr_of_none hp]
    | some p =>
      rw [fileAddr_of_place hp, fileAddr_of_place hp]
      exact hstay p (by rwa [place_inum hp]) (by rwa [place_inum hp])
  have hsame : ∀ m : UInt32, m.toNat < sb.ninodes.toNat → m ≠ ip.inum →
      dinode sb (updView sb v ip.inum x.toDinode) m = dinode sb s.view m := fun m hm hmn => by rw [hd' m hm hmn, hother m hmn]
  constructor
  · rfl
  · rfl
  · rfl
  · constructor
    · exact hown'
    · intro m bn hm hlt
      by_cases hmn : m = ip.inum
      · rw [hmn, hd, hx] at hlt
        exact absurd hlt (Nat.not_lt_zero _)
      · rw [hsame m hm hmn] at hlt
        rw [haddr m bn hm, hfile m bn hm hmn]
        exact hg.noHole m bn hm hlt
    · intro m hm h0
      by_cases hmn : m = ip.inum
      · rw [hmn, hd, hx]
        exact ⟨by rfl, fun _ => by rfl⟩
      · rw [hsame m hm hmn] at h0 ⊢
        exact hg.free m hm h0
  · exact hx
  · exact hd
  · intro m hm hmn
    refine ⟨hsame m hm hmn, contents_eq ?_ fun k hk => ?_⟩
    · rw [length_contents, hsame m hm hmn]
    · rw [hbytes m k hm, getElem_contents]
      refine byteAt_congr (fun bn h0 => ⟨hfile m bn hm hmn, hview _ (.inr (hg.owned.fileAddr_data hm h0).1)⟩) fun bn h0 => .inl ?_
      rw [hfile m bn hm hmn, h0]
  · intro a ha
    rw [← hbit a ha]
    show bitSet (updView sb v ip.inum x.toDinode (BBLOCK a sb)) _ = true ↔ _
    rw [updView_of_ge L hn (BBLOCK_ge L ha), bitOf]

/-- The inode after the loop over the direct blocks. -/
def clearDirects (ip : Inode) : Inode := { ip with addrs := fun i => if i ∈ directs then 0 else ip.addrs i }

theorem clearDirects_indirect : (clearDirects ip).addrs indirect = ip.addrs indirect := by
  have hind : indirect ∉ directs := fun h => mem_directs.1 h rfl
  simp only [clearDirects, if_neg hind]

theorem clearDirects_empty (h0 : ip.addrs indirect = 0) :
    ({ clearDirects ip with size := 0 } : Inode) = { ip with size := 0, addrs := fun _ => 0 } := by
  have haddrs : (clearDirects ip).addrs = fun _ => 0 := by
    funext i
    by_cases hi : i = indirect
    · rw [hi, clearDirects_indirect, h0]
    · simp only [clearDirects, if_pos (mem_directs.2 hi)]
  dsimp only
  rw [haddrs]
  rfl

theorem setAddr_clearDirects (ip : Inode) :
    ({ setAddr (clearDirects ip) indirect 0 with size := 0 } : Inode) = { ip with size := 0, addrs := fun _ => 0 } := by
  have haddrs : (setAddr (clearDirects ip) indirect 0).addrs = fun _ => 0 := by
    funext i
    by_cases hi : i = indirect
    · rw [hi, setAddr_addrs]
    · rw [setAddr]
      dsimp only
      rw [Function.update_of_ne hi]
      simp only [clearDirects, if_pos (mem_directs.2 hi)]
  dsimp only
  rw [haddrs]
  rfl

/-- `itrunc` after its loop over the direct blocks. -/
theorem itruncTail_swp {Q : Inode → Seq → Prop} (x : Inode) (hidle : s.Idle sb) (L : sb.Layout) (hn : x.inum.toNat < sb.ninodes.toNat)
    (hnone : x.addrs indirect = 0 → Q { x with size := 0 } { s with view := updView sb s.view x.inum { x with size := 0 } })
    (hsome : x.addrs indirect ≠ 0 → L.start ≤ (x.addrs indirect).toNat ∧
      InUse sb s.view (entries (s.view (x.addrs indirect)) ++ [x.addrs indirect]) ∧
      Q { setAddr x indirect 0 with size := 0 }
        { s with view := (updView sb (freeAll sb s.view (entries (s.view (x.addrs indirect)) ++ [x.addrs indirect])) x.inum
          { setAddr x indirect 0 with size := 0 }) }) :
    (do
      let ip ←
        if x.addrs indirect ≠ 0 then do
          let bp ← bread (x.addrs indirect)
          let d ← data bp
          itruncIndirect sb ((List.range NINDIRECT).map (getWord d))
          brelse bp
          bfree sb (x.addrs indirect)
          pure (setAddr x indirect 0)
        else pure x
      let ip := { ip with size := 0 }
      iupdate sb ip
      return ip : Prog Inode).swp Q s := by
  by_cases h0 : x.addrs indirect = 0
  · rw [if_neg (not_not.2 h0), Prog.swp_bind, Prog.swp_pure]
    dsimp only
    rw [Prog.swp_bind]
    exact iupdate_swp L hidle hn (hnone h0)
  · rw [if_pos h0]
    obtain ⟨hx, huse, hQ⟩ := hsome h0
    obtain ⟨hentries, hind⟩ := huse.append L
    have hxsize := huse.size (x.addrs indirect) (by simp)
    refine bread_swp (hidle.free _) fun i hi => data_swp ?_
    rw [Prog.swp_bind]
    refine itruncIndirect_swp (mapFree_hold hidle hx i) hentries ?_ L
    refine brelse_swp (s := { s with view := freeAll sb s.view (entries (s.view (x.addrs indirect))) }) hi ?_
    rw [Prog.swp_bind]
    refine bfree_swp L (mapFree_idle (s := { s with view := freeAll sb s.view (entries (s.view (x.addrs indirect))) }) hidle) hxsize (hind.bit _ (by simp)) ?_
    rw [Prog.swp_bind, Prog.swp_pure]
    dsimp only
    rw [Prog.swp_bind]
    refine iupdate_swp L hidle hn ?_
    rw [freeAll_append] at hQ
    exact hQ

/-- `itrunc` frees the blocks of the file; none of them is free already. -/
theorem itrunc_swp (hidle : s.Idle sb) (hg : Good L s.view) (hip : dinode sb s.view ip.inum = ip.toDinode)
    (hn : ip.inum.toNat < sb.ninodes.toNat) : (itrunc sb ip).swp (Truncated L s ip) s := by
  have huse := hg.owned.inUse hn
  have hend := hg.truncated (x := { ip with size := 0, addrs := fun _ => 0 }) hn (by rfl)
  rw [blocksOf_eq hip] at huse hend
  obtain ⟨hdirects, hrest⟩ := huse.append L
  unfold itrunc
  rw [Prog.swp_bind]
  refine itruncDirect_swp hidle nodup_directs hdirects (itruncTail_swp (clearDirects ip) hidle L hn (fun h0 => ?_) fun h0 => ?_) L
  · rw [clearDirects_indirect] at h0
    rw [if_pos h0, List.append_nil, ← clearDirects_empty h0] at hend
    exact hend
  · rw [clearDirects_indirect] at h0 ⊢
    have hx := hg.owned.ind hn (by rw [hip]; exact h0)
    rw [hip] at hx
    have hview : freeAll sb s.view ((directs.map ip.addrs).filter (· ≠ 0)) (ip.addrs indirect) = s.view (ip.addrs indirect) :=
      freeAll_of_ne L hdirects.size (.inr hx.1)
    rw [if_neg h0] at hrest hend
    rw [freeAll_append, ← setAddr_clearDirects] at hend
    refine ⟨hx.1, ?_, ?_⟩
    · show InUse sb (freeAll sb s.view _) (entries (freeAll sb s.view ((directs.map ip.addrs).filter (· ≠ 0)) (ip.addrs indirect)) ++ _)
      rw [hview]
      exact hrest
    · rw [← hview] at hend
      exact hend

theorem itrunc_swp_small : (itrunc smallSb smallFile).swp (Truncated smallLayout (smallSeq []) smallFile) (smallSeq []) :=
  itrunc_swp (smallSeq_idle _) smallDisk_good (dinode_smallFile _) (by decide)

end Fs

end Xv6
