import Xv6.ExecStack

/-!
# `exec` as a whole

Whatever the file and the arguments are, and whichever calls of `kalloc` fail, `exec` returns.  After -1 there is nothing left of it
(`ExecSys.exec_allOrNothing`); otherwise the process has the memory of the segments and the stack of the arguments
(`ExecSys.exec_argStack`), and the old memory is free.
-/

namespace Xv6

open Function (update)

namespace Phys

variable [KernelText] {s₀ s : Phys} {t : PageTable} {sz k : Nat} {img : Image} {trapframe : Page} {E : String → Phys → Prop}

/-- The byte that is mapped at `va`. -/
def byte (t : PageTable) (s : Phys) (va : Nat) : Option UInt8 := (t.get (va / PGSIZE)).map fun e => s.ram e.page (va % PGSIZE)

/-- The pages of an address space. -/
def pages (t : PageTable) (sz : Nat) : Multiset Page := t.tables + t.frames (npages sz)

theorem Made.byte (h : Made s₀ trapframe t sz img s) {va : Nat} (hva : va < npages sz * PGSIZE) : byte t s va = some (img va) := by
  have hi : va / PGSIZE < npages sz := Nat.div_lt_of_lt_mul (by rwa [Nat.mul_comm])
  obtain ⟨e, he, -⟩ := h.shape.user _ hi
  rw [Phys.byte, he, Option.map_some, h.image _ hi e he _ (Nat.mod_lt _ (by decide)), Nat.div_add_mod']

/-- The size of a new address space is rounded up. -/
theorem Built.round (h : Built s₀ trapframe t sz img s) : Built s₀ trapframe t (npages sz * PGSIZE) img s := by
  have hn : npages (npages sz * PGSIZE) = npages sz := npages_mul h.shape.le
  refine ⟨⟨Nat.mul_le_mul_right _ h.shape.le, ?_, ?_, ?_, ?_⟩, ?_⟩ <;> rw [hn]
  · exact h.shape
  · exact h.same
  · exact h.image
  · exact h.zero
  · exact h.user

/-- A page of an address space is taken from the user. -/
theorem Made.clear (h : Made s₀ trapframe t sz img s) {i : Nat} (hi : i < npages sz) {e : Pte} (he : t.get i = some e) :
    Made s₀ trapframe (t.setPte (i * PGSIZE) (some { e with perm.u := false })) sz img s ∧
      ∀ j < 2 ^ 27, (t.setPte (i * PGSIZE) (some { e with perm.u := false })).get j =
        if j = i then some { e with perm.u := false } else t.get j := by
  have hlt := Shape.lt_of_le h.shape.le hi
  have hget : ∀ j < 2 ^ 27, (t.setPte (i * PGSIZE) (some { e with perm.u := false })).get j =
      if j = i then some { e with perm.u := false } else t.get j := fun j hj =>
    PageTable.get_setPte hlt.1 (PageTable.find_of_look he) _ hj
  have hr : e.perm.r = true := by
    obtain ⟨e', he', hr⟩ := h.shape.user i hi
    obtain rfl := Option.some.inj (he.symm.trans he')
    exact hr
  have hfr : (t.setPte (i * PGSIZE) (some { e with perm.u := false })).frames (npages sz) = t.frames (npages sz) := by
    unfold PageTable.frames PageTable.framesFrom
    apply Finset.sum_congr rfl
    intro j hj
    rw [Nat.zero_add, hget j (Shape.lt_of_le h.shape.le (Finset.mem_range.1 hj)).1]
    split
    · rename_i hji
      rw [hji, he]
      rfl
    · rfl
  refine ⟨⟨h.le, ⟨h.shape.le, fun j hj => ?_, ?_, ?_, fun j hj hn hf hr => ?_⟩, ?_, fun j hj e' he' o ho => ?_, h.zero⟩, hget⟩
  · rw [hget j (Shape.lt_of_le h.shape.le hj).1]
    split
    · exact ⟨_, rfl, hr⟩
    · exact h.shape.user j hj
  · rw [hget _ (by decide), if_neg hlt.2.1.symm, h.shape.frame]
  · rw [hget _ (by decide), if_neg hlt.2.2.symm, h.shape.tramp]
  · rw [hget j hj, if_neg (by omega), h.shape.rest j hj hn hf hr]
  · rw [PageTable.tables_setPte, hfr]
    exact h.same
  · rw [hget j (Shape.lt_of_le h.shape.le hj).1] at he'
    split at he'
    · rename_i hji
      obtain rfl := Option.some.inj he'
      subst hji
      exact h.image j hj e he o ho
    · exact h.image j hj e' he' o ho

end Phys

namespace ExecSys

open Phys (Made Built pages)

variable {s₀ s : ExecSys} {p : ExecProc} {t : PageTable} {sz : Nat} {img : Image} {E : String → ExecSys → Prop}

section Leaves

variable [KernelText]

/-- The process has an address space of its own. -/
structure Wf (p : ExecProc) (s : ExecSys) : Prop where
  le : p.sz ≤ NPAGES * PGSIZE
  shape : Shape p.pagetable (npages p.sz) p.trapframe
  sound : s.mem.Sound (pages p.pagetable p.sz)

theorem Wf.free (h : Wf p s₀) : s₀.mem.Sound 0 := h.sound.mono (Multiset.zero_le _)

/-- What is not memory is as before. -/
def Closed (s₀ s : ExecSys) : Prop := s.ref = s₀.ref ∧ s.outstanding = s₀.outstanding

/-- The inode `ip` is held and locked, in a system call that uses the log. -/
structure Open (s₀ : ExecSys) (ip : Inum) (s : ExecSys) : Prop where
  ref : s.ref = update s₀.ref ip (s₀.ref ip + 1)
  locked : s.locked ip = true
  outstanding : s.outstanding = s₀.outstanding + 1

omit [KernelText] in
theorem close_wp {α : Type} {ip : Inum} (h : Open s₀ ip s) {m : ExecM α} {Q : α → ExecSys → Prop}
    (hQ : ∀ s', s'.mem = s.mem → Closed s₀ s' → wp m Q E s') :
    wp (do
      iunlockput ip
      end_op
      m) Q E s := by
  have href : s.ref ip = s₀.ref ip + 1 := by rw [h.ref, Function.update_self]
  unfold iunlockput end_op
  simp only [wp_bind, wp_get, wp_ite, wp_modify]
  rw [if_neg]
  · refine hQ _ rfl ⟨?_, ?_⟩
    · change update s.ref ip (s.ref ip - 1) = s₀.ref
      rw [href, h.ref, Function.update_idem, Nat.add_sub_cancel, Function.update_eq_self]
    · change s.outstanding - 1 = s₀.outstanding
      rw [h.outstanding, Nat.add_sub_cancel]
  · rintro (hl | hr)
    · rw [h.locked] at hl
      cases hl
    · omega

/-- `goto bad` with an address space. -/
theorem bad_wp (hwf : Wf p s₀) (h : Made s₀.mem p.trapframe t sz img s.mem) {ip : Option Inum}
    (hip : ip.elim (Closed s₀ s) fun ip => Open s₀ ip s) {Q : Int × ExecProc → ExecSys → Prop}
    (hQ : ∀ s', s₀.mem.Same 0 s'.mem 0 → Closed s₀ s' → Q (-1, p) s') : wp (bad p (some t) sz ip) Q E s := by
  unfold bad
  simp only [wp_bind, wp_lift]
  apply Phys.procFreepagetable_wp h.shape (h.sound hwf.free)
  intro m hm
  have hsame := h.same.trans hm
  cases ip with
  | none => exact hQ _ hsame hip
  | some ip =>
    have hopen : Open s₀ ip { s with mem := m } := ⟨hip.ref, hip.locked, hip.outstanding⟩
    have hclose := close_wp (E := E) hopen (m := pure (-1, p)) (Q := Q) fun s' hmem hc => hQ s' (hmem ▸ hsame) hc
    simp only [wp_bind, wp_pure] at hclose ⊢
    exact hclose

omit [KernelText] in
theorem bad_none_wp {ip : Inum} (hip : Open s₀ ip s) (hmem : s₀.mem.Same 0 s.mem 0) {Q : Int × ExecProc → ExecSys → Prop}
    (hQ : ∀ s', s₀.mem.Same 0 s'.mem 0 → Closed s₀ s' → Q (-1, p) s') : wp (bad p none 0 (some ip)) Q E s := by
  have hclose := close_wp (E := E) hip (m := pure (-1, p)) (Q := Q) fun s' hm hc => hQ s' (hm ▸ hmem) hc
  unfold bad
  simp only [wp_bind, wp_pure] at hclose ⊢
  exact hclose

/-! ### The stack and the commit -/

/-- What `exec` leaves for a file that loads as `img`, of `k` pages: the pages above are the guard and the stack. -/
structure Done (p : ExecProc) (s₀ : ExecSys) (elf path : List UInt8) (argv : List (List UInt8)) (k : Nat) (img : Image) (p' : ExecProc)
    (s' : ExecSys) : Prop where
  sz : p'.sz = (k + 2) * PGSIZE
  le : k + 2 ≤ NPAGES
  shape : Shape p'.pagetable (k + 2) p.trapframe
  guard : ∃ e, p'.pagetable.get k = some e ∧ e.perm.u = false
  bytes : ∀ va < p'.sz, Phys.byte p'.pagetable s'.mem va = some (stackImage p'.sz 0 argv [] img va)
  fits : vectorDepth 0 argv 0 ≤ PGSIZE
  wrap : NoWrap (p'.sz - PGSIZE) argv 0 p'.sz
  proc : p' = { p with pagetable := p'.pagetable, sz := p'.sz, epc := Mem.field elf 24 8, sp := p'.sz - vectorDepth 0 argv 0,
                       a1 := p'.sz - vectorDepth 0 argv 0, name := (lastElem path path).take 15 }
  -- the new pages were free, and the old ones are
  pages : ∃ rest, (s₀.mem.free : Multiset Page) = rest + pages p'.pagetable p'.sz ∧
    (s'.mem.free : Multiset Page) = rest + Phys.pages p.pagetable p.sz
  ram : ∀ page ∉ (s₀.mem.free : Multiset Page) + Phys.pages p.pagetable p.sz, s'.mem.ram page = s₀.mem.ram page
  closed : Closed s₀ s'

/-- The old address space is freed; the new one does not change. -/
theorem free_old_wp (hwf : Wf p s₀) (h : Made s₀.mem p.trapframe t sz img s.mem) (hc : Closed s₀ s) {Q : Unit → ExecSys → Prop}
    (hQ : ∀ s', (∀ va < npages sz * PGSIZE, Phys.byte t s'.mem va = some (img va)) → Closed s₀ s' →
      (∃ rest, (s₀.mem.free : Multiset Page) = rest + pages t sz ∧ (s'.mem.free : Multiset Page) = rest + pages p.pagetable p.sz) →
      (∀ page ∉ (s₀.mem.free : Multiset Page) + pages p.pagetable p.sz, s'.mem.ram page = s₀.mem.ram page) → Q () s') :
    wp (lift (Phys.run (Mem.procFreepagetable p.pagetable p.sz))) Q E s := by
  have hsame := h.same.frame (pages p.pagetable p.sz)
  rw [zero_add] at hsame
  have hsound := hsame.sound hwf.sound
  rw [wp_lift]
  apply Phys.procFreepagetable_wp hwf.shape (hsound.mono (Multiset.le_add_left ..))
  intro m hm
  refine hQ _ (fun va hva => ?_) hc ⟨s.mem.free, ?_, ?_⟩ fun page hp => ?_
  · have hi : va / PGSIZE < npages sz := Nat.div_lt_of_lt_mul (by rwa [Nat.mul_comm])
    obtain ⟨e, he, -⟩ := h.shape.user _ hi
    have hbyte := h.byte hva
    rw [Phys.byte, he, Option.map_some] at hbyte ⊢
    rw [← hbyte]
    -- a page of the new address space is none of those that are freed
    have hnew : e.page ∈ t.tables + t.frames (npages sz) := Multiset.mem_add.2 (.inr (PageTable.mem_frames hi he))
    have hram : m.ram e.page = s.mem.ram e.page := hm.ram _ fun hmem => by
      rw [Multiset.mem_add] at hmem
      apply hmem.elim ((h.sound hwf.free).notMem hnew)
      intro hold
      have hnd := Multiset.nodup_of_le (Multiset.le_add_left ..) hsound.nodup
      exact Multiset.disjoint_left.1 (Multiset.disjoint_of_nodup_add hnd) hnew hold
    rw [hram]
  · have hpages := h.same.pages
    rw [add_zero] at hpages
    exact hpages.symm
  · have hpages := hm.pages
    rw [add_zero] at hpages
    exact hpages
  · have hold : s.mem.ram page = s₀.mem.ram page := hsame.ram page hp
    rw [hm.ram page fun hmem => hp ?_, hold]
    rw [Multiset.mem_add] at hmem ⊢
    refine hmem.imp (fun hf => ?_) id
    have hpages := h.same.pages
    rw [add_zero] at hpages
    rw [← hpages]
    exact Multiset.mem_add.2 (.inl hf)

/-- What `exec` does to the memory, if `r` is its answer. -/
def Outcome (p : ExecProc) (s₀ : ExecSys) (elf path : List UInt8) (argv : List (List UInt8)) (n : Nat) (img : Image)
    (r : Int × ExecProc) (s' : ExecSys) : Prop :=
  (r = (-1, p) ∧ s₀.mem.Same 0 s'.mem 0 ∧ Closed s₀ s') ∨
    (r.1 = argv.length ∧ Done p s₀ elf path argv n img r.2 s')

theorem execStack_wp {elf path : List UInt8} {argv : List (List UInt8)} (hwf : Wf p s₀)
    (h : Built s₀.mem p.trapframe t sz img s.mem) (hc : Closed s₀ s) (hargc : argv.length < MAXARG)
    (hlen : ∀ arg ∈ argv, 0 ∈ arg ∧ strlen arg < PGSIZE) :
    wp (execStack p elf path argv t sz) (Outcome p s₀ elf path argv (npages sz) img) E s := by
  have hP : 0 < PGSIZE := by decide
  have h64 : NPAGES * PGSIZE + 2 * PGSIZE < 2 ^ 64 := by decide
  have hle := h.round.le
  have hmod : (npages sz * PGSIZE + 2 * PGSIZE) % 2 ^ 64 = (npages sz + 2) * PGSIZE := by
    rw [Nat.mod_eq_of_lt (by omega), Nat.add_mul]
  have hmax : max ((npages sz + 2) * PGSIZE) (npages sz * PGSIZE) = (npages sz + 2) * PGSIZE :=
    Nat.max_eq_left (Nat.mul_le_mul_right _ (Nat.le_add_right ..))
  have hbad : ∀ {sz' t' img'} {s : ExecSys}, Made s₀.mem p.trapframe t' sz' img' s.mem → Closed s₀ s →
      wp (bad p (some t') sz' none) (Outcome p s₀ elf path argv (npages sz) img) E s := by
    intro sz' t' img' s' hm hc'
    apply bad_wp hwf hm
    · exact hc'
    · intro s'' hsame hclosed
      exact .inl ⟨rfl, hsame, hclosed⟩
  unfold execStack
  rw [pgroundup_eq]
  dsimp only
  rw [hmod, wp_bind, wp_lift]
  apply h.round.uvmalloc_wp hwf.free
  · intro t1 m1 h1
    rw [hmax] at h1 ⊢
    have hle1 : npages sz + 2 ≤ NPAGES := Nat.le_of_mul_le_mul_right h1.le hP
    have hn1 : npages ((npages sz + 2) * PGSIZE) = npages sz + 2 := npages_mul hle1
    have hguard : (npages sz + 2) * PGSIZE - 2 * PGSIZE = npages sz * PGSIZE := by rw [← Nat.sub_mul, Nat.add_sub_cancel]
    have hstack : (npages sz + 2) * PGSIZE - PGSIZE = (npages sz + 1) * PGSIZE := by
      rw [Nat.add_mul, Nat.add_mul, Nat.one_mul]
      omega
    have hpos : (npages sz + 2) * PGSIZE ≠ 0 := Nat.mul_ne_zero (by omega) (by decide)
    dsimp only
    rw [if_neg hpos, hguard, hstack]
    obtain ⟨e, he, -⟩ := h1.user (npages sz) (by omega)
    obtain ⟨e1, he1, hu1⟩ := h1.user (npages sz + 1) (by omega)
    obtain ⟨h2, hg2⟩ := h1.clear (by omega) he
    have hlt := Shape.lt_of_le h1.shape.le (i := npages sz + 1) (by omega)
    rw [Phys.uvmclear_eq (page_lt_maxva h.shape.le) he, wp_bind, wp_lift, wp_pure, wp_bind, wp_lift]
    generalize t1.setPte (npages sz * PGSIZE) (some { e with perm.u := false }) = t2 at h2 hg2 ⊢
    have he2 : t2.get (npages sz + 1) = some e1 := by rw [hg2 _ hlt.1, if_neg (by omega), he1]
    change wp (Phys.pushArgs t2 ((npages sz + 1) * PGSIZE) argv ([] : List Nat).length ((npages sz + 1 + 1) * PGSIZE - 0) []) _ _ _
    apply Phys.pushArgs_wp hwf.free (Nat.succ_pos _) h2 he2 hu1 hlen _ (Nat.zero_le _)
    · intro hfits hwrap m3 h3
      dsimp only
      rw [wp_bind]
      apply free_old_wp (s := { s with mem := m3 }) hwf h3 hc
      intro s4 hbytes hclosed hpages hram
      rw [hn1] at hbytes
      refine .inr ⟨rfl, ?_⟩
      refine ⟨rfl, hle1, ?_, ⟨_, by rw [hg2 _ (by omega), if_pos rfl], rfl⟩, hbytes, hfits, ?_, rfl, hpages, hram, hclosed⟩
      · have := h3.shape
        rwa [hn1] at this
      · change NoWrap ((npages sz + 2) * PGSIZE - PGSIZE) argv 0 ((npages sz + 2) * PGSIZE)
        rw [hstack]
        exact hwrap
    · intro _ img' m3 h3
      exact hbad (s := { s with mem := m3 }) h3 hc
    · rw [List.length_nil, Nat.zero_add]
      exact hargc
  · intro t1 m1 h1
    dsimp only
    rw [if_pos rfl]
    exact hbad (s := { s with mem := m1 }) h1.toMade hc

/-- The ELF header of a file, and its segments. -/
def elfhdr (data : List UInt8) : List UInt8 := readiBytes data 0 64

def elfSegments (data : List UInt8) : List Mem.Proghdr :=
  Phys.segments data (Mem.field (elfhdr data) 56 2) (Mem.field (elfhdr data) 32 8)

/-- The memory of a file. -/
def elfImage (data : List UInt8) : Image := (elfSegments data).foldl (Image.load data) fun _ => 0

/-- What `exec` leaves: nothing, or the memory of the file and the arguments. -/
def Leaves (p : ExecProc) (s₀ : ExecSys) (found : Option (Inum × List UInt8)) (path : List UInt8) (argv : List (List UInt8))
    (r : Int × ExecProc) (s' : ExecSys) : Prop :=
  (r = (-1, p) ∧ s₀.mem.Same 0 s'.mem 0 ∧ Closed s₀ s') ∨
  ∃ ip data k, found = some (ip, data) ∧ r.1 = argv.length ∧ Done p s₀ (elfhdr data) path argv k (elfImage data) r.2 s' ∧
    ∀ ph ∈ elfSegments data, (ph.filesz = 0 ∨ ph.off % 2 ^ 32 + ph.filesz ≤ data.length) ∧ ph.vaddr + ph.filesz ≤ k * PGSIZE

/-- After `begin_op`, `namei` and `ilock`. -/
def opened (s : ExecSys) (ip : Inum) : ExecSys :=
  { s with ref := update s.ref ip (s.ref ip + 1), locked := update s.locked ip true, outstanding := s.outstanding + 1 }

omit [KernelText] in
theorem open_opened (s : ExecSys) (ip : Inum) : Open s ip (opened s ip) := ⟨rfl, Function.update_self .., rfl⟩

theorem exec_wp {found : Option (Inum × List UInt8)} {path : List UInt8} {argv : List (List UInt8)} (hwf : Wf p s)
    (hdata : ∀ ip data, found = some (ip, data) → data.length < 2 ^ 32) (hargc : argv.length < MAXARG)
    (hlen : ∀ arg ∈ argv, 0 ∈ arg ∧ strlen arg < PGSIZE) :
    wp (exec p found path argv) (Leaves p s found path argv) E s := by
  unfold exec begin_op namei
  cases found with
  | none =>
    simp only [wp_bind, wp_modify, wp_pure, end_op]
    exact .inl ⟨rfl, Phys.Same.refl .., rfl, Nat.add_sub_cancel ..⟩
  | some f =>
    obtain ⟨ip, data⟩ := f
    have hsmall := hdata ip data rfl
    simp only [wp_bind, wp_modify, wp_pure, ilock, wp_get, wp_ite]
    rw [if_neg (by rw [Function.update_self]; omega)]
    have hnone : ∀ s2, Open s ip s2 → s.mem.Same 0 s2.mem 0 → wp (bad p none 0 (some ip)) (Leaves p s (some (ip, data)) path argv) E s2 :=
      fun s2 ho hm => bad_none_wp ho hm fun s' hs' hc => .inl ⟨rfl, hs', hc⟩
    have hrefl : s.mem.Same 0 (opened s ip).mem 0 := Phys.Same.refl ..
    by_cases h64 : (readiBytes data 0 64).length ≠ 64
    · rw [if_pos h64]
      exact hnone _ (open_opened s ip) hrefl
    rw [if_neg h64]
    by_cases hmagic : Mem.field (readiBytes data 0 64) 0 4 ≠ Mem.ELF_MAGIC
    · rw [if_pos hmagic]
      exact hnone _ (open_opened s ip) hrefl
    rw [if_neg hmagic]
    change wp (lift (Phys.run (Mem.procPagetable p.trapframe))) _ E (opened s ip)
    rw [wp_lift]
    have hopened := open_opened s ip
    have hopen : ∀ m, Open s ip { opened s ip with mem := m } := fun m => ⟨hopened.ref, hopened.locked, hopened.outstanding⟩
    apply Phys.procPagetable_wp hwf.free
    · intro t m1 hshape hsame
      have hbuilt : Built s.mem p.trapframe t 0 (fun _ => 0) m1 := by
        refine ⟨⟨Nat.zero_le _, ?_, ?_, ?_, fun _ _ => rfl⟩, ?_⟩ <;> rw [npages_zero]
        · exact hshape
        · have hzero : t.tables + t.frames 0 = t.tables := by simp [PageTable.frames, PageTable.framesFrom]
          rwa [hzero]
        · intro i hi
          exact absurd hi (Nat.not_lt_zero i)
        · intro i hi
          exact absurd hi (Nat.not_lt_zero i)
      dsimp only
      rw [wp_bind, wp_lift]
      apply Phys.loadLoop_wp hsmall hwf.free hbuilt
      · intro t' sz' m2 h2 _ hloaded
        dsimp only
        rw [if_neg (by decide)]
        apply close_wp (hopen m2)
        intro s3 hmem hclosed
        rw [← show ({ opened s ip with mem := m2 } : ExecSys).mem = m2 from rfl, ← hmem] at h2
        refine wp_mono (execStack_wp hwf h2 hclosed hargc hlen) ?_ fun _ _ he => he
        rintro r s4 (hfail | ⟨hr, hdone⟩)
        · exact .inl hfail
        · exact .inr ⟨ip, data, npages sz', rfl, hr, hdone, hloaded⟩
      · intro t' sz' img' m2 h2
        dsimp only
        rw [if_pos (by decide)]
        apply bad_wp (s := { opened s ip with mem := m2 }) hwf h2.toMade
        · exact hopen m2
        · intro s' hsame hclosed
          exact .inl ⟨rfl, hsame, hclosed⟩
    · intro m1 hsame
      exact hnone _ (hopen m1) hsame

end Leaves

/-! ### What a process gets -/

/-- Where the file part of a segment is. -/
def Within (ph : Mem.Proghdr) (va : Nat) : Prop := ph.vaddr ≤ va ∧ va < ph.vaddr + ph.filesz

/-- Outside the segments the image is as before them. -/
theorem foldl_load_of_not {data : List UInt8} {segs : List Mem.Proghdr} {va : Nat} (h : ∀ ph ∈ segs, ¬Within ph va) (img : Image) :
    segs.foldl (Image.load data) img va = img va := by
  induction segs generalizing img with
  | nil => rfl
  | cons ph segs ih =>
    rw [List.foldl_cons, ih (fun ph' hph => h ph' (List.mem_cons_of_mem _ hph)), Image.load]
    exact if_neg (h ph List.mem_cons_self)

/-- The last segment that has an address decides. -/
theorem foldl_load_last {data : List UInt8} {pre post : List Mem.Proghdr} {ph : Mem.Proghdr} {va : Nat} (h : Within ph va)
    (hpost : ∀ ph' ∈ post, ¬Within ph' va) (img : Image) :
    (pre ++ ph :: post).foldl (Image.load data) img va = data.getD (ph.off % 2 ^ 32 + (va - ph.vaddr)) 0 := by
  rw [List.foldl_append, List.foldl_cons, foldl_load_of_not hpost, Image.load]
  exact if_pos h

/-- What is below the guard page is the image of the file. -/
theorem Done.below [KernelText] {elf path : List UInt8} {argv : List (List UInt8)} {k : Nat} {p' : ExecProc}
    (h : Done p s₀ elf path argv k img p' s) {va : Nat} (hva : va < k * PGSIZE) : Phys.byte p'.pagetable s.mem va = some (img va) := by
  have hsz := h.sz
  have hfits := h.fits
  rw [Nat.add_mul] at hsz
  rw [h.bytes va (by omega), stackImage_below]
  · rw [List.length_nil]
    omega
  · rw [List.length_nil]
    omega

attribute [local instance] Phys.initText

/-- The first process. -/
def initProc : ExecProc where
  pagetable := Phys.initSpace
  sz := PGSIZE
  trapframe := 0x80016
  epc := 0
  sp := PGSIZE
  a1 := 0
  name := []

def initExec : ExecSys where
  mem := Phys.initPhys
  ref _ := 0
  locked _ := false
  outstanding := 0

theorem wf_init : Wf initProc initExec where
  le := by decide
  shape := Phys.shape_initSpace
  sound := by
    have h := Phys.sound_initPhys
    rw [add_assoc] at h
    exact h.mono (Multiset.le_add_left ..)

/-- For every file, whatever its bytes, all arguments and every outcome of `kalloc`: `exec` returns.  After -1 the process, the free
pages and the bytes of all other pages are as before.  Otherwise the old address space has been freed, each byte of a
segment that no later one replaces is that of the file, and the bytes of no segment are zero.  The references to inodes are as
before. -/
theorem exec_allOrNothing [KernelText] {found : Option (Inum × List UInt8)} {path : List UInt8} {argv : List (List UInt8)} (hwf : Wf p s)
    (hdata : ∀ ip data, found = some (ip, data) → data.length < 2 ^ 32) (hargc : argv.length < MAXARG)
    (hlen : ∀ arg ∈ argv, 0 ∈ arg ∧ strlen arg < PGSIZE) :
    ∃ r p' s', exec p found path argv s = .ok (r, p') s' ∧ s'.ref = s.ref ∧ s'.outstanding = s.outstanding ∧
      (r = -1 → p' = p ∧ (s'.mem.free : Multiset Page) = s.mem.free ∧
        (∀ page ∉ s.mem.free, s'.mem.ram page = s.mem.ram page) ∧
        ∀ va < npages p.sz * PGSIZE, Phys.byte p.pagetable s'.mem va = Phys.byte p.pagetable s.mem va) ∧
      (r ≠ -1 → r = argv.length ∧ ∃ ip data, found = some (ip, data) ∧
        (∃ rest, (s.mem.free : Multiset Page) = rest + pages p'.pagetable p'.sz ∧
          (s'.mem.free : Multiset Page) = rest + pages p.pagetable p.sz) ∧
        (∀ pre ph post, elfSegments data = pre ++ ph :: post → ∀ va, Within ph va → (∀ ph' ∈ post, ¬Within ph' va) →
          ∃ b, Phys.byte p'.pagetable s'.mem va = some b ∧ data[ph.off % 2 ^ 32 + (va - ph.vaddr)]? = some b) ∧
        ∀ va, va + 2 * PGSIZE < p'.sz → (∀ ph ∈ elfSegments data, ¬Within ph va) →
          Phys.byte p'.pagetable s'.mem va = some 0) := by
  obtain ⟨⟨r, p'⟩, s', hres, hleaves⟩ := wp_false (exec_wp (E := fun _ _ => False) hwf hdata hargc hlen)
  refine ⟨r, p', s', hres, ?_⟩
  rcases hleaves with ⟨hr, hsame, hclosed⟩ | ⟨ip, data, k, hfound, hr, hdone, hloaded⟩
  · obtain ⟨rfl, rfl⟩ := Prod.mk.inj hr
    have hpages := hsame.pages
    rw [add_zero, add_zero] at hpages
    have hkeep : ∀ page ∉ s.mem.free, s'.mem.ram page = s.mem.ram page := fun page hp =>
      hsame.ram page (by rwa [add_zero])
    refine ⟨hclosed.1, hclosed.2, fun _ => ⟨rfl, hpages, hkeep, fun va hva => ?_⟩, fun h => absurd rfl h⟩
    have hi : va / PGSIZE < npages p'.sz := Nat.div_lt_of_lt_mul (by rwa [Nat.mul_comm])
    obtain ⟨e, he, -⟩ := hwf.shape.user _ hi
    have hheld : e.page ∈ pages p'.pagetable p'.sz := Multiset.mem_add.2 (.inr (PageTable.mem_frames hi he))
    rw [Phys.byte, Phys.byte, he, Option.map_some, Option.map_some, hkeep _ (hwf.sound.notMem hheld)]
  · have hr : r = argv.length := hr
    refine ⟨hdone.closed.1, hdone.closed.2, fun h => ?_, fun _ => ⟨hr, ip, data, hfound, hdone.pages, ?_, ?_⟩⟩
    · omega
    · intro pre ph post hsegs va hva hpost
      obtain ⟨hfile, hend⟩ := hloaded ph (by rw [hsegs]; simp)
      have hindex : ph.off % 2 ^ 32 + (va - ph.vaddr) < data.length := by
        obtain ⟨h1, h2⟩ := hva
        omega
      refine ⟨_, hdone.below (Nat.lt_of_lt_of_le hva.2 hend), ?_⟩
      rw [elfImage, hsegs, foldl_load_last hva hpost, List.getElem?_eq_getElem hindex, List.getD_eq_getElem?_getD,
        List.getElem?_eq_getElem hindex, Option.getD_some]
    · intro va hva hnot
      have hsz := hdone.sz
      rw [Nat.add_mul] at hsz
      have hbelow : va < k * PGSIZE := by
        have hsz : p'.sz = k * PGSIZE + 2 * PGSIZE := hsz
        omega
      rw [hdone.below hbelow, elfImage, foldl_load_of_not hnot]

/-- A file with one segment of four bytes, which is eight bytes in memory. -/
def smallElf : List UInt8 :=
  [0x7F, 0x45, 0x4C, 0x46] ++ List.replicate 20 0 ++ wordBytes 0 ++ wordBytes 64 ++ List.replicate 16 0 ++ [1] ++ List.replicate 7 0 ++
    [1, 0, 0, 0, 5, 0, 0, 0] ++ wordBytes 120 ++ wordBytes 0 ++ wordBytes 0 ++ wordBytes 4 ++ wordBytes 8 ++ wordBytes 0 ++ [1, 2, 3, 4]

/-- The answer, and the size of the process. -/
def answer : EStateM.Result String ExecSys (Int × ExecProc) → Option (Int × Nat)
  | .ok (r, p) _ => some (r, p.sz)
  | .error .. => none

theorem answer_eq {x : EStateM.Result String ExecSys (Int × ExecProc)} {r : Int × ExecProc} {s' : ExecSys} (h : x = .ok r s')
    {n : Int} {sz : Nat} (ha : answer x = some (n, sz)) : r.1 = n ∧ r.2.sz = sz := by
  subst h
  exact Prod.mk.inj (Option.some.inj ha)

theorem length_smallElf (ip : Inum) (data : List UInt8) (h : some (1, smallElf) = some (ip, data)) : data.length < 2 ^ 32 := by
  obtain ⟨-, rfl⟩ := Prod.mk.inj (Option.some.inj h)
  decide +kernel

/-- The file is loaded: its bytes and the zeros after them are there, and the pages of the old address space are free. -/
theorem exec_allOrNothing_smallElf : ∃ p' s', exec initProc (some (1, smallElf)) [115, 104] [[104, 105, 0]] initExec = .ok (1, p') s' ∧
    s'.ref = initExec.ref ∧ Phys.byte p'.pagetable s'.mem 3 = some 4 ∧ Phys.byte p'.pagetable s'.mem 4 = some 0 ∧
    ∃ rest, (initExec.mem.free : Multiset Page) = rest + pages p'.pagetable p'.sz ∧
      (s'.mem.free : Multiset Page) = rest + pages Phys.initSpace PGSIZE := by
  obtain ⟨r, p', s', hres, href, -, -, hok⟩ := @exec_allOrNothing _ _ _ _ [115, 104] [[104, 105, 0]] wf_init length_smallElf
    (by decide) (by decide)
  obtain ⟨hr, hsz⟩ := answer_eq hres (show answer _ = some (1, 3 * PGSIZE) by decide +kernel)
  obtain rfl : r = 1 := hr
  obtain ⟨-, ip, data, hfound, hpages, hfile, hzero⟩ := hok (by decide)
  obtain ⟨rfl, rfl⟩ := Prod.mk.inj (Option.some.inj hfound)
  have hseg : elfSegments smallElf = [⟨1, 5, 120, 0, 4, 8⟩] := by decide +kernel
  refine ⟨p', s', hres, href, ?_, hzero 4 ?_ ?_, hpages⟩
  · obtain ⟨b, hb, hdata⟩ := hfile [] _ [] hseg 3 ⟨by decide, by decide⟩ (by simp)
    rw [hb]
    exact hdata.symm.trans (by decide)
  · rw [show p'.sz = 3 * PGSIZE from hsz]
    decide
  · rw [hseg]
    simp [Within]

/-- For all arguments that are shorter than a page: where they do not fit into the page of the stack `exec` fails, and where it does
not fail they are in it, nothing has wrapped around, and the page below is not for the user. -/
theorem exec_argStack [KernelText] {found : Option (Inum × List UInt8)} {path : List UInt8} {argv : List (List UInt8)} (hwf : Wf p s)
    (hdata : ∀ ip data, found = some (ip, data) → data.length < 2 ^ 32) (hargc : argv.length < MAXARG)
    (hlen : ∀ arg ∈ argv, 0 ∈ arg ∧ strlen arg < PGSIZE) :
    ∃ r p' s', exec p found path argv s = .ok (r, p') s' ∧
      (PGSIZE < vectorDepth 0 argv 0 → r = -1) ∧
      (r ≠ -1 → r = argv.length ∧ p'.a1 = p'.sp ∧ NoWrap (p'.sz - PGSIZE) argv 0 p'.sz ∧
        (∃ e, p'.pagetable.get (p'.sz / PGSIZE - 2) = some e ∧ e.perm.u = false) ∧
        ∃ img addr, (∀ va < p'.sz, Phys.byte p'.pagetable s'.mem va = some (img va)) ∧
          ArgStack img p'.sz p'.sp argv addr) := by
  obtain ⟨⟨r, p'⟩, s', hres, hleaves⟩ := wp_false (exec_wp (E := fun _ _ => False) hwf hdata hargc hlen)
  refine ⟨r, p', s', hres, ?_⟩
  rcases hleaves with ⟨hr, -⟩ | ⟨ip, data, k, -, hr, hdone, -⟩
  · obtain ⟨rfl, rfl⟩ := Prod.mk.inj hr
    exact ⟨fun _ => rfl, fun h => absurd rfl h⟩
  · have hr : r = argv.length := hr
    have hsz : p'.sz = (k + 2) * PGSIZE := hdone.sz
    have hsp : p'.sp = p'.sz - vectorDepth 0 argv 0 := congrArg ExecProc.sp hdone.proc
    have ha1 : p'.a1 = p'.sz - vectorDepth 0 argv 0 := congrArg ExecProc.a1 hdone.proc
    refine ⟨fun h => absurd hdone.fits (Nat.not_le.2 h), fun _ => ⟨hr, ha1.trans hsp.symm, hdone.wrap, ?_, ?_⟩⟩
    · rw [hsz, Nat.mul_div_cancel _ (by decide), Nat.add_sub_cancel]
      exact hdone.guard
    · refine ⟨_, fun i => p'.sz - (depths 0 argv).getD i 0, hdone.bytes, ?_⟩
      dsimp only
      rw [hsp, hsz]
      have h64 : (k + 2) * PGSIZE < 2 ^ 64 := Nat.lt_of_le_of_lt (Nat.mul_le_mul_right _ hdone.le) (by decide)
      have h16 : (k + 2) * PGSIZE % 16 = 0 := by
        simp only [PGSIZE]
        omega
      have hpage : PGSIZE ≤ (k + 2) * PGSIZE := Nat.le_mul_of_pos_left _ (by omega)
      exact argStack h16 h64 hpage hdone.fits fun arg harg => (hlen arg harg).1

/-- Two short arguments are on the stack of the new process; two of 3000 bytes do not fit. -/
theorem exec_argStack_smallElf :
    (∃ p' s' img addr, exec initProc (some (1, smallElf)) [115, 104] [[104, 105, 0], [97, 0]] initExec = .ok (2, p') s' ∧
      p'.sz = 3 * PGSIZE ∧ (∀ va < p'.sz, Phys.byte p'.pagetable s'.mem va = some (img va)) ∧
      ArgStack img p'.sz p'.sp [[104, 105, 0], [97, 0]] addr) ∧
    ∃ p' s', exec initProc (some (1, smallElf)) [115, 104] (List.replicate 2 (List.replicate 3000 1 ++ [0])) initExec = .ok (-1, p') s' := by
  constructor
  · obtain ⟨r, p', s', hres, -, hok⟩ := @exec_argStack _ _ _ _ [115, 104] [[104, 105, 0], [97, 0]] wf_init length_smallElf
      (by decide) (by decide)
    obtain ⟨hr, hsz⟩ := answer_eq hres (show answer _ = some (2, 3 * PGSIZE) by decide +kernel)
    obtain rfl : r = 2 := hr
    obtain ⟨-, -, -, -, img, addr, hbytes, hstack⟩ := hok (by decide)
    exact ⟨p', s', img, addr, hres, hsz, hbytes, hstack⟩
  · have hlen : ∀ arg ∈ List.replicate 2 (List.replicate 3000 (1 : UInt8) ++ [0]), 0 ∈ arg ∧ strlen arg < PGSIZE := by
      intro arg harg
      rw [List.eq_of_mem_replicate harg]
      exact ⟨List.mem_append_right _ (List.mem_singleton_self _), by decide +kernel⟩
    obtain ⟨r, p', s', hres, hlong, -⟩ := @exec_argStack _ _ _ _ [115, 104] _ wf_init length_smallElf (by decide) hlen
    obtain rfl := hlong (by decide +kernel)
    exact ⟨p', s', hres⟩

end ExecSys

end Xv6
