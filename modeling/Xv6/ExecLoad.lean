import Xv6.Exec

/-!
# The memory that `exec` loads

The new address space of `exec` as an image: the byte at each user address.  It starts with zeros; a segment that is loaded replaces
the bytes of its file part (`Phys.loadLoop_wp`).  Whatever the headers have, the sizes stay below that of memory, no page that
`loadseg` wants is missing, and nothing but free pages is used.
-/

namespace Xv6

theorem Ram.memmove_apply (page : Page) (off : Nat) (src : List UInt8) (m : Ram) (p : Page) (o : Nat) :
    Ram.memmove page off src m p o = if p = page ∧ off ≤ o ∧ o < off + src.length then src.getD (o - off) 0 else m p o := by
  induction src generalizing off m with
  | nil => rw [Ram.memmove, if_neg (by simp)]
  | cons b src ih =>
    rw [Ram.memmove, ih, Ram.store]
    by_cases hp : p = page
    · by_cases ho : o = off
      · rw [if_neg (by omega), if_pos ⟨hp, ho⟩, if_pos ⟨hp, by omega, by rw [List.length_cons]; omega⟩, ho, Nat.sub_self]
        rfl
      · by_cases hlt : off + 1 ≤ o ∧ o < off + 1 + src.length
        · have hsub : o - off = o - (off + 1) + 1 := by omega
          rw [if_pos ⟨hp, hlt⟩, if_pos ⟨hp, by omega, by rw [List.length_cons]; omega⟩, hsub]
          rfl
        · rw [if_neg fun h => hlt h.2, if_neg fun h => ho h.2, if_neg fun h => ?_]
          rw [List.length_cons] at h
          omega
    · rw [if_neg fun h => hp h.1, if_neg fun h => hp h.1, if_neg fun h => hp h.1]

/-- The bytes of user memory by their addresses. -/
abbrev Image := Nat → UInt8

namespace Image

/-- With the bytes `bs` at `va`. -/
def write (img : Image) (va : Nat) (bs : List UInt8) : Image := fun a =>
  if va ≤ a ∧ a < va + bs.length then bs.getD (a - va) 0 else img a

/-- With the file part of a segment. -/
def load (data : List UInt8) (img : Image) (ph : Mem.Proghdr) : Image := fun a =>
  if ph.vaddr ≤ a ∧ a < ph.vaddr + ph.filesz then data.getD (ph.off % 2 ^ 32 + (a - ph.vaddr)) 0 else img a

/-- The image after `k` pages of a segment with `sz` bytes at `va`. -/
def loadPart (data : List UInt8) (img : Image) (va offset sz k : Nat) : Image := fun a =>
  if va ≤ a ∧ a < va + min (k * PGSIZE) sz then data.getD (offset + (a - va)) 0 else img a

end Image

namespace Phys

/-- The segments among the program headers. -/
def segments (data : List UInt8) : Nat → Nat → List Mem.Proghdr
  | 0, _ => []
  | n + 1, off =>
    let ph := Mem.Proghdr.ofBytes (readiBytes data (off % 2 ^ 32) 56)
    if ph.type ≠ Mem.ELF_PROG_LOAD then segments data n (off + 56) else ph :: segments data n (off + 56)

variable [KernelText] {s₀ s : Phys} {t : PageTable} {sz : Nat} {img : Image} {trapframe : Page} {E : String → Phys → Prop}

/-- The address space `t` of size `sz`, made of free pages of `s₀`, with the bytes of the image. -/
structure Made (s₀ : Phys) (trapframe : Page) (t : PageTable) (sz : Nat) (img : Image) (s : Phys) : Prop where
  le : sz ≤ NPAGES * PGSIZE
  shape : Shape t (npages sz) trapframe
  same : s₀.Same 0 s (t.tables + t.frames (npages sz))
  image : ∀ i < npages sz, ∀ e, t.get i = some e → ∀ o < PGSIZE, s.ram e.page o = img (i * PGSIZE + o)
  zero : ∀ va, npages sz * PGSIZE ≤ va → img va = 0

/-- And all of its pages are for the user. -/
structure Built (s₀ : Phys) (trapframe : Page) (t : PageTable) (sz : Nat) (img : Image) (s : Phys) : Prop
    extends Made s₀ trapframe t sz img s where
  user : UserPages t (npages sz)

namespace Made

theorem sound (h : Made s₀ trapframe t sz img s) (hs : s₀.Sound 0) : s.Sound (t.tables + t.frames (npages sz)) := h.same.sound hs

theorem inj (h : Made s₀ trapframe t sz img s) (hs : s₀.Sound 0) {i j : Nat} (hi : i < npages sz) (hj : j < npages sz) {e e' : Pte}
    (he : t.get i = some e) (he' : t.get j = some e') (hp : e.page = e'.page) : i = j := by
  have hnd : (t.frames (npages sz)).Nodup :=
    Multiset.nodup_of_le ((Multiset.le_add_left ..).trans (Multiset.le_add_left ..)) (h.sound hs).nodup
  exact PageTable.frames_inj (Multiset.nodup_iff_count_le_one.1 hnd) hi hj he he' hp

/-- A piece of one page is written. -/
theorem write (h : Made s₀ trapframe t sz img s) (hs : s₀.Sound 0) {i off : Nat} (hi : i < npages sz) {e : Pte} (he : t.get i = some e)
    {bs : List UInt8} (hlen : off + bs.length ≤ PGSIZE) :
    Made s₀ trapframe t sz (img.write (i * PGSIZE + off) bs) { s with ram := s.ram.memmove e.page off bs } where
  le := h.le
  shape := h.shape
  same := by
    refine ⟨h.same.pages, h.same.kend, fun page hp => ?_⟩
    have hne : page ≠ e.page := by
      rintro rfl
      have hmem := Multiset.mem_add.2 (.inr (PageTable.mem_frames hi he) : _ ∈ t.tables ∨ _)
      have hfree := Multiset.mem_add.2 (.inr hmem : _ ∈ (s.free : Multiset Page) ∨ _)
      rw [h.same.pages] at hfree
      exact hp hfree
    rw [← h.same.ram page hp]
    funext o
    change Ram.memmove e.page off bs s.ram page o = _
    rw [Ram.memmove_apply, if_neg fun hc => hne hc.1]
  image j hj e' he' o ho := by
    change Ram.memmove e.page off bs s.ram e'.page o = _
    rw [Ram.memmove_apply, h.image j hj e' he' o ho, Image.write]
    by_cases hij : i = j
    · subst hij
      obtain rfl : e = e' := Option.some.inj (he.symm.trans he')
      have hsub : i * PGSIZE + o - (i * PGSIZE + off) = o - off := by omega
      rw [hsub]
      refine if_congr ⟨fun hc => ?_, fun hc => ⟨rfl, ?_⟩⟩ rfl rfl
      · obtain ⟨-, hc⟩ := hc
        omega
      · omega
    · rw [if_neg fun hc => hij (h.inj hs hi hj he he' hc.1.symm), if_neg fun hc => ?_]
      simp only [PGSIZE] at hc ho hlen
      omega
  zero va hva := by
    rw [Image.write, if_neg fun hc => ?_, h.zero va hva]
    simp only [PGSIZE] at hc hlen hva
    omega

end Made

theorem Built.write (h : Built s₀ trapframe t sz img s) (hs : s₀.Sound 0) {i off : Nat} (hi : i < npages sz) {e : Pte}
    (he : t.get i = some e) {bs : List UInt8} (hlen : off + bs.length ≤ PGSIZE) :
    Built s₀ trapframe t sz (img.write (i * PGSIZE + off) bs) { s with ram := s.ram.memmove e.page off bs } :=
  ⟨h.toMade.write hs hi he hlen, h.user⟩

/-- The address of a page of the image. -/
theorem Built.walkaddr (h : Built s₀ trapframe t sz img s) {i : Nat} (hi : i < npages sz) :
    ∃ e, t.get i = some e ∧ Mem.walkaddr t (i * PGSIZE) = some e.page := by
  obtain ⟨e, he, hu⟩ := h.user i hi
  have hlt : ¬ i * PGSIZE ≥ MAXVA := Nat.not_le.2 (page_lt_maxva (Nat.le_trans (Nat.le_of_lt hi) h.shape.le))
  refine ⟨e, he, ?_⟩
  rw [Mem.walkaddr, if_neg hlt, PageTable.find_of_look he]
  exact if_pos hu

/-! ### `loadseg` -/

omit [KernelText] in
theorem length_readiBytes (data : List UInt8) (off n : Nat) : (readiBytes data off n).length ≤ n := by
  have hlen : Ram.readiLen data.length off n ≤ n := by
    unfold Ram.readiLen
    split
    · exact Nat.zero_le _
    · split
      · omega
      · exact Nat.le_refl _
  exact Nat.le_trans (List.length_take_le ..) hlen

omit [KernelText] in
/-- A full read gives the bytes from `off` on. -/
theorem readiBytes_full {data : List UInt8} {off n : Nat} (h : (readiBytes data off n).length = n) (hpos : 0 < n) :
    off + n ≤ data.length ∧ ∀ k < n, (readiBytes data off n).getD k 0 = data.getD (off + k) 0 := by
  unfold readiBytes at h ⊢
  rw [List.length_take, List.length_drop] at h
  refine ⟨by omega, fun k hk => ?_⟩
  rw [List.getD_eq_getElem?_getD, List.getD_eq_getElem?_getD, List.getElem?_take_of_lt (by omega), List.getElem?_drop]

omit [KernelText] in
theorem loadPart_succ {data : List UInt8} {bs : List UInt8} {va offset sz k : Nat} (hk : k * PGSIZE < sz)
    (hlen : bs.length = if sz - k * PGSIZE < PGSIZE then sz - k * PGSIZE else PGSIZE)
    (hbs : ∀ j < bs.length, bs.getD j 0 = data.getD (offset + k * PGSIZE + j) 0) :
    (img.loadPart data va offset sz k).write (va + k * PGSIZE) bs = img.loadPart data va offset sz (k + 1) := by
  funext a
  simp only [Image.write, Image.loadPart]
  have hlow : min (k * PGSIZE) sz = k * PGSIZE := Nat.min_eq_left (Nat.le_of_lt hk)
  have hhigh : min ((k + 1) * PGSIZE) sz = k * PGSIZE + bs.length := by
    rw [Nat.add_mul, Nat.one_mul, hlen]
    split <;> omega
  rw [hlow, hhigh]
  by_cases hin : va + k * PGSIZE ≤ a ∧ a < va + k * PGSIZE + bs.length
  · have hsum : offset + k * PGSIZE + (a - (va + k * PGSIZE)) = offset + (a - va) := by omega
    rw [if_pos hin, if_pos (by omega), hbs _ (by omega), hsum]
  · rw [if_neg hin]
    exact if_congr (by omega) rfl rfl

theorem loadsegLoop_wp {data : List UInt8} (hdata : data.length < 2 ^ 32) (hs : s₀.Sound 0) {v offset fsz : Nat}
    (hoff : offset < 2 ^ 32) (hend : v * PGSIZE + fsz ≤ npages sz * PGSIZE) {cnt k : Nat}
    (hcnt : k + cnt = (fsz + PGSIZE - 1) / PGSIZE) (hread : k = 0 ∨ offset + min (k * PGSIZE) fsz ≤ data.length)
    (h : Built s₀ trapframe t sz (img.loadPart data (v * PGSIZE) offset fsz k) s) {Q : Bool → Phys → Prop}
    (hok : ∀ s', Built s₀ trapframe t sz (img.loadPart data (v * PGSIZE) offset fsz (k + cnt)) s' →
      (fsz = 0 ∨ offset + fsz ≤ data.length) → Q true s')
    (hbad : ∀ img' s', Built s₀ trapframe t sz img' s' → Q false s') :
    wp (loadsegLoop t (v * PGSIZE) data offset fsz cnt (k * PGSIZE)) Q E s := by
  induction cnt generalizing k s with
  | zero =>
    refine hok s h ?_
    rcases hread with rfl | hread
    · left
      simp only [PGSIZE] at hcnt
      omega
    · right
      rw [Nat.min_eq_right] at hread
      · exact hread
      · simp only [PGSIZE] at hcnt ⊢
        omega
  | succ cnt ih =>
    have hk : k * PGSIZE < fsz := by
      simp only [PGSIZE] at hcnt ⊢
      omega
    have hle := h.shape.le
    have hN : NPAGES = 32768 := by decide
    rw [hN] at hle
    have hvk : v + k < npages sz := by
      simp only [PGSIZE] at hend hk
      omega
    obtain ⟨e, he, hw⟩ := h.walkaddr hvk
    have hva : (v * PGSIZE + k * PGSIZE) % 2 ^ 64 = (v + k) * PGSIZE := by
      simp only [PGSIZE] at hend hk ⊢
      omega
    unfold loadsegLoop
    rw [hva, hw]
    dsimp only
    generalize hm : (if fsz - k * PGSIZE < PGSIZE then fsz - k * PGSIZE else PGSIZE) = m
    have hmle : m ≤ PGSIZE := by
      rw [← hm]
      split <;> omega
    have hmod : (offset + k * PGSIZE) % 2 ^ 32 = offset + k * PGSIZE := by
      apply Nat.mod_eq_of_lt
      rcases hread with rfl | hread
      · omega
      · rw [Nat.min_eq_left (Nat.le_of_lt hk)] at hread
        omega
    rw [hmod, wp_bind, wp_modify]
    have hfit : 0 + (readiBytes data (offset + k * PGSIZE) m).length ≤ PGSIZE := by
      have := length_readiBytes data (offset + k * PGSIZE) m
      omega
    have hwrite := h.write hs hvk he hfit
    rw [Nat.add_zero, Nat.add_mul] at hwrite
    split
    · exact hbad _ _ hwrite
    · have hlen : (readiBytes data (offset + k * PGSIZE) m).length = m := by
        by_contra hne
        exact absurd hne ‹_›
      have hpos : 0 < m := by
        rw [← hm]
        split
        · omega
        · decide
      obtain ⟨hin, hbytes⟩ := readiBytes_full hlen hpos
      rw [loadPart_succ hk (by rw [hlen, hm]) fun j hj => hbytes j (by omega)] at hwrite
      have hnext := ih (k := k + 1) (by omega) (.inr ?_) hwrite
      · have hcomm : k + 1 + cnt = k + (cnt + 1) := by omega
        rw [hcomm, Nat.add_mul, Nat.one_mul] at hnext
        exact hnext hok
      · have hmin : min ((k + 1) * PGSIZE) fsz = k * PGSIZE + m := by
          rw [Nat.add_mul, Nat.one_mul, ← hm]
          split <;> omega
        rw [hmin]
        omega

omit [KernelText] in
theorem loadPart_zero (data : List UInt8) (img : Image) (va offset fsz : Nat) : img.loadPart data va offset fsz 0 = img := by
  funext a
  rw [Image.loadPart, if_neg]
  rw [Nat.zero_mul, Nat.zero_min]
  omega

/-- The file part of a segment is in the file, and its memory is below `sz`. -/
def Loaded (data : List UInt8) (sz : Nat) (ph : Mem.Proghdr) : Prop :=
  (ph.filesz = 0 ∨ ph.off % 2 ^ 32 + ph.filesz ≤ data.length) ∧ ph.vaddr + ph.filesz ≤ npages sz * PGSIZE

theorem loadseg_wp {data : List UInt8} (hdata : data.length < 2 ^ 32) (hs : s₀.Sound 0) {ph : Mem.Proghdr}
    (halign : ph.vaddr % PGSIZE = 0) (hend : ph.vaddr + ph.filesz ≤ npages sz * PGSIZE)
    (h : Built s₀ trapframe t sz img s) {Q : Bool → Phys → Prop}
    (hok : ∀ s', Built s₀ trapframe t sz (img.load data ph) s' → Loaded data sz ph → Q true s')
    (hbad : ∀ img' s', Built s₀ trapframe t sz img' s' → Q false s') : wp (loadseg t ph.vaddr data ph.off ph.filesz) Q E s := by
  have hmul : ph.vaddr / PGSIZE * PGSIZE = ph.vaddr := Nat.div_mul_cancel (Nat.dvd_of_mod_eq_zero halign)
  have hN : NPAGES = 32768 := by decide
  have hle := h.shape.le
  have hmod : ph.filesz % 2 ^ 32 = ph.filesz := by
    rw [hN] at hle
    simp only [PGSIZE] at hend
    omega
  have hoff : ph.off % 2 ^ 32 < 2 ^ 32 := Nat.mod_lt _ (by decide)
  unfold loadseg
  rw [hmod, ← Nat.zero_mul PGSIZE, ← hmul]
  rw [← hmul] at hend
  rw [← loadPart_zero data img (ph.vaddr / PGSIZE * PGSIZE) (ph.off % 2 ^ 32) ph.filesz] at h
  refine loadsegLoop_wp hdata hs hoff hend (Nat.zero_add _) (.inl rfl) h ?_ hbad
  · intro s' hb hin
    rw [hmul] at hb hend
    refine hok s' ?_ ⟨hin, hend⟩
    have hall : img.loadPart data ph.vaddr (ph.off % 2 ^ 32) ph.filesz (0 + (ph.filesz + PGSIZE - 1) / PGSIZE) = img.load data ph := by
      funext a
      rw [Image.loadPart, Image.load, Nat.min_eq_right]
      simp only [PGSIZE]
      omega
    rwa [hall] at hb

/-! ### The address space grows -/

theorem Built.grow (h : Built s₀ trapframe t sz img s) (hs : s₀.Sound 0) {t' : PageTable} {s' : Phys} {newsz k : Nat} {perm : Perm}
    (hr : perm.r = true) (hu : perm.u = true) (hsz : newsz ≤ NPAGES * PGSIZE) (hk : npages newsz = npages sz + k)
    (hg : Grew t s (npages sz) perm k t' s') : Built s₀ trapframe t' newsz img s' := by
  have hle := npages_le hsz
  have hgrown : Grown t t' (npages sz) (npages newsz) perm := by
    intro j hj
    refine ⟨fun hin => ?_, fun hout => hg.rest j hj (by omega)⟩
    obtain ⟨i, rfl⟩ := Nat.exists_eq_add_of_le hin.1
    obtain ⟨page, hget, -⟩ := hg.zero i (by omega)
    exact ⟨page, hget⟩
  have hlow : ∀ i < npages sz, t'.get i = t.get i := fun i hi =>
    hg.rest i (Shape.lt_of_le h.shape.le hi).1 (by omega)
  refine ⟨⟨hsz, h.shape.grow hr hle (by omega) hgrown, ?_, ?_, ?_⟩, h.user.grow hu hle hgrown⟩
  · have hsame := h.same.trans (hg.same.frame (t.frames (npages sz)))
    have hframes : t'.tables + t'.framesFrom (npages sz) k + t.frames (npages sz) = t'.tables + t'.frames (npages newsz) := by
      rw [hk, PageTable.frames_add, PageTable.frames_congr hlow]
      ac_rfl
    rwa [hframes] at hsame
  · intro i hi e he o ho
    by_cases hin : i < npages sz
    · rw [hlow i hin] at he
      have hmem : e.page ∈ t.tables + t.frames (npages sz) := Multiset.mem_add.2 (.inr (PageTable.mem_frames hin he))
      rw [hg.keep e.page ((h.sound hs).notMem hmem), h.image i hin e he o ho]
    · obtain ⟨j, rfl⟩ := Nat.exists_eq_add_of_le (Nat.le_of_not_lt hin)
      obtain ⟨page, hget, -, hzero⟩ := hg.zero j (by omega)
      obtain rfl := Option.some.inj (he.symm.trans hget)
      rw [hzero, h.zero]
      exact Nat.le_trans (Nat.mul_le_mul_right _ (Nat.le_of_not_lt hin)) (Nat.le_add_right ..)
  · intro va hva
    exact h.zero va (Nat.le_trans (Nat.mul_le_mul_right _ (by omega)) hva)

/-- Growing that fails leaves the image. -/
theorem Built.congr (h : Built s₀ trapframe t sz img s) (hs : s₀.Sound 0) {t' : PageTable} {s' : Phys}
    (hg : ∀ j < 2 ^ 27, t'.get j = t.get j) (hsame : s.Same t.tables s' t'.tables)
    (hkeep : ∀ page ∉ s.free, s'.ram page = s.ram page) : Built s₀ trapframe t' sz img s' := by
  have hlow : ∀ i < npages sz, t'.get i = t.get i := fun i hi => hg i (Shape.lt_of_le h.shape.le hi).1
  refine ⟨⟨h.le, h.shape.congr hg, ?_, ?_, h.zero⟩, ?_⟩
  · rw [PageTable.frames_congr hlow]
    exact h.same.trans (hsame.frame _)
  · intro i hi e he o ho
    rw [hlow i hi] at he
    have hmem : e.page ∈ t.tables + t.frames (npages sz) := Multiset.mem_add.2 (.inr (PageTable.mem_frames hi he))
    rw [hkeep e.page ((h.sound hs).notMem hmem), h.image i hi e he o ho]
  · intro i hi
    rw [hlow i hi]
    exact h.user i hi

/-- `uvmalloc`, also to a size below. -/
theorem Built.uvmalloc_wp (h : Built s₀ trapframe t sz img s) (hs : s₀.Sound 0) {newsz : Nat} {xperm : Perm}
    {Q : Nat × PageTable → Phys → Prop}
    (hok : ∀ t' s', Built s₀ trapframe t' (max newsz sz) img s' → Q (max newsz sz, t') s')
    (hbad : ∀ t' s', Built s₀ trapframe t' sz img s' → Q (0, t') s') : wp (uvmalloc t sz newsz xperm) Q E s := by
  by_cases hlt : newsz < sz
  · rw [Nat.max_eq_right (Nat.le_of_lt hlt)] at hok
    unfold uvmalloc
    rw [if_pos hlt]
    exact hok t s h
  · rw [Nat.max_eq_left (Nat.le_of_not_lt hlt)] at hok
    apply Phys.uvmalloc_wp h.le (Nat.le_of_not_lt hlt) h.shape (h.sound hs)
    · intro t' s' k hsz hk hg
      exact hok t' s' (h.grow hs rfl rfl hsz hk hg)
    · intro t' s' hg hsame hkeep
      exact hbad t' s' (h.congr hs hg hsame hkeep)

/-! ### The loop over the program headers -/

theorem loadLoop_wp {data : List UInt8} (hdata : data.length < 2 ^ 32) (hs : s₀.Sound 0) {Q : Bool × PageTable × Nat → Phys → Prop}
    {n off : Nat} (h : Built s₀ trapframe t sz img s)
    (hok : ∀ t' sz' s', Built s₀ trapframe t' sz' ((segments data n off).foldl (Image.load data) img) s' → sz ≤ sz' →
      (∀ ph ∈ segments data n off, Loaded data sz' ph) → Q (true, t', sz') s')
    (hbad : ∀ t' sz' img' s', Built s₀ trapframe t' sz' img' s' → Q (false, t', sz') s') :
    wp (loadLoop data n off t sz) Q E s := by
  induction n generalizing off t sz img s with
  | zero => exact hok t sz s h (Nat.le_refl _) fun ph hph => absurd hph List.not_mem_nil
  | succ n ih =>
    have hfail := hbad t sz img s h
    unfold loadLoop
    unfold segments at hok
    dsimp only at hok ⊢
    generalize hph : Mem.Proghdr.ofBytes (readiBytes data (off % 2 ^ 32) 56) = ph at hok ⊢
    have hvaddr : ph.vaddr < 2 ^ 64 := by
      rw [← hph]
      exact Mem.field_lt _ 16 8
    have hmemsz : ph.memsz < 2 ^ 64 := by
      rw [← hph]
      exact Mem.field_lt _ 40 8
    split
    · exact hfail
    split
    · rw [if_pos ‹_›] at hok
      exact ih h hok
    rw [if_neg ‹_›] at hok
    split
    · exact hfail
    split
    · exact hfail
    split
    · exact hfail
    rename_i hfilesz hover halign
    have hend : (ph.vaddr + ph.memsz) % 2 ^ 64 = ph.vaddr + ph.memsz := by omega
    rw [wp_bind, hend]
    apply h.uvmalloc_wp hs
    · intro t1 s1 h1
      dsimp only
      split
      · rename_i hzero
        have hsz : sz = 0 := by omega
        rw [hzero, ← hsz] at h1
        exact hbad t1 sz img s1 h1
      · have hle := Mem.le_npages h1.le
        rw [wp_bind]
        apply loadseg_wp hdata hs (by omega) (by omega) h1
        · intro s2 h2 hin
          rw [if_pos rfl]
          apply ih h2
          · intro t' sz' s' hb hsz hall
            refine hok t' sz' s' hb (by omega) fun ph' hph' => ?_
            rcases List.mem_cons.1 hph' with rfl | hph'
            · exact ⟨hin.1, Nat.le_trans hin.2 (Nat.mul_le_mul_right _ (npages_mono hsz hb.le))⟩
            · exact hall ph' hph'
        · intro img' s2 h2
          rw [if_neg Bool.false_ne_true]
          exact hbad t1 _ img' s2 h2
    · intro t1 s1 h1
      dsimp only
      rw [if_pos rfl]
      exact hbad t1 sz img s1 h1

end Phys

end Xv6
