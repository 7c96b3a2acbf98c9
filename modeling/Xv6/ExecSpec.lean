import Xv6.MemSpec

/-!
# `exec` of any file

The new address space grows with each program header, whatever the file has there: the sizes are bounded by the pages that there
are, and every page that `loadseg` writes to is mapped for the user.  Each `goto bad` frees the new address space; success frees the
old one.
-/

namespace Xv6

open Res

/-- All `n` user pages are mapped for the user. -/
def UserPages (t : PageTable) (n : Nat) : Prop := ∀ i < n, ∃ e, t.get i = some e ∧ e.perm.u = true

theorem UserPages.grow {t t' : PageTable} {m n : Nat} {perm : Perm} (h : UserPages t m) (hp : perm.u = true) (hn : n ≤ NPAGES)
    (hg : Grown t t' m n perm) : UserPages t' n := by
  intro i hi
  have hlt := (Shape.lt_of_le hn hi).1
  by_cases hm : m ≤ i
  · obtain ⟨page, he⟩ := (hg i hlt).1 ⟨hm, hi⟩
    exact ⟨_, he, hp⟩
  · rw [(hg i hlt).2 (by omega)]
    exact h i (by omega)

namespace Mem

variable {F g : Multiset Res} {im : Img}

theorem field_lt (bs : List UInt8) (off w : Nat) : field bs off w < 256 ^ w := by
  have hlen : ∀ l : List UInt8, l.foldr (fun b n => b.toNat + 256 * n) 0 < 256 ^ l.length := by
    intro l
    induction l with
    | nil => exact Nat.one_pos
    | cons b l ih =>
      have := b.toNat_lt
      rw [List.foldr_cons, List.length_cons, pow_succ]
      omega
  exact Nat.lt_of_lt_of_le (hlen _) (Nat.pow_le_pow_right (by decide) (List.length_take_le w _))

theorem walkaddr_user {t : PageTable} {n i : Nat} (hn : n ≤ NPAGES) (hu : UserPages t n) (hi : i < n) :
    ∃ page, walkaddr t (i * PGSIZE) = some page := by
  obtain ⟨e, he, hu⟩ := hu i hi
  have hlt : ¬ i * PGSIZE ≥ MAXVA := by
    have := page_lt_maxva (Nat.le_trans (Nat.le_of_lt hi) hn)
    omega
  exact ⟨e.page, by rw [walkaddr, if_neg hlt, PageTable.find_of_look he]; simp [hu]⟩

variable [KernelText]

/-- The pages of a segment that ends below page `n` exist. -/
theorem loadsegLoop_wp {t : PageTable} {n v : Nat} (hn : n ≤ NPAGES) (hu : UserPages t n) {readi : Readi} {offset sz : Nat}
    (hsz : v * PGSIZE + sz ≤ n * PGSIZE) {Q : Bool → Multiset Res → Prop} (hQ : ∀ b, Q b g) {cnt k : Nat}
    (hcnt : k + cnt = (sz + PGSIZE - 1) / PGSIZE) :
    wp (loadsegLoop t (v * PGSIZE) readi offset sz cnt (k * PGSIZE)) Q g := by
  induction cnt generalizing k with
  | zero => exact pure_wp (hQ true)
  | succ cnt ih =>
    have hN : NPAGES = 32768 := by decide
    have hk : v + k < n := by
      rw [hN] at hn
      simp only [PGSIZE] at hsz hcnt
      omega
    have hva : (v * PGSIZE + k * PGSIZE) % 2 ^ 64 = (v + k) * PGSIZE := by
      rw [hN] at hn
      simp only [PGSIZE]
      omega
    obtain ⟨page, hpage⟩ := walkaddr_user hn hu hk
    unfold loadsegLoop
    rw [hva, hpage]
    simp only
    generalize (if sz - k * PGSIZE < PGSIZE then sz - k * PGSIZE else PGSIZE) = m
    split
    · exact pure_wp (hQ false)
    · have := ih (k := k + 1) (by omega)
      rw [Nat.add_mul, Nat.one_mul] at this
      exact this

theorem loadseg_wp {t : PageTable} {n va : Nat} (hn : n ≤ NPAGES) (hu : UserPages t n) {readi : Readi} {offset sz : Nat}
    (hva : va % PGSIZE = 0) (hsz : va + sz ≤ n * PGSIZE) {Q : Bool → Multiset Res → Prop} (hQ : ∀ b, Q b g) :
    wp (loadseg t va readi offset sz) Q g := by
  obtain ⟨v, rfl⟩ : ∃ v, va = v * PGSIZE := ⟨va / PGSIZE, (Nat.div_mul_cancel (Nat.dvd_of_mod_eq_zero hva)).symm⟩
  have hmod : sz % 2 ^ 32 ≤ sz := Nat.mod_le ..
  unfold loadseg
  rw [← Nat.zero_mul PGSIZE]
  exact loadsegLoop_wp hn hu (by omega) hQ (Nat.zero_add _)

omit [KernelText] in
/-- `sz ≤ n * PGSIZE` for the number of pages of `sz`. -/
theorem le_npages {sz : Nat} (h : sz ≤ NPAGES * PGSIZE) : sz ≤ npages sz * PGSIZE := by
  rw [npages_eq h]
  simp only [PGSIZE]
  omega

theorem loadLoop_wp {readi : Readi} {page : Page} {Q : Bool × PageTable × Nat → Multiset Res → Prop}
    (hQ : ∀ b t sz, sz ≤ NPAGES * PGSIZE → Shape t (npages sz) page → Q (b, t, sz) (t.space (npages sz) + F))
    {n off : Nat} {t : PageTable} {sz : Nat} (hsz : sz ≤ NPAGES * PGSIZE) (hs : Shape t (npages sz) page)
    (hu : UserPages t (npages sz)) : wp (loadLoop readi n off t sz) Q (t.space (npages sz) + F) := by
  induction n generalizing off t sz with
  | zero => exact pure_wp (hQ true t sz hsz hs)
  | succ n ih =>
    have hbad := pure_wp (hQ false t sz hsz hs)
    unfold loadLoop
    simp only
    generalize hph : Proghdr.ofBytes (readi (off % 2 ^ 32) 56) = ph
    have hvaddr : ph.vaddr < 2 ^ 64 := by
      rw [← hph]
      exact field_lt _ 16 8
    have hmemsz : ph.memsz < 2 ^ 64 := by
      rw [← hph]
      exact field_lt _ 40 8
    split
    · exact hbad
    split
    · exact ih hsz hs hu
    split
    · exact hbad
    split
    · exact hbad
    split
    · exact hbad
    rename_i hfilesz hover halign
    have hend : (ph.vaddr + ph.memsz) % 2 ^ 64 = ph.vaddr + ph.memsz := by omega
    rw [wp_bind, hend]
    refine uvmalloc_wp hsz hs (fun t' hsz' hg => ?_) (fun t' hg => ?_)
    · have hle := npages_le hsz'
      have hs' := hs.grow rfl hle (npages_mono (Nat.le_max_right ..) hsz') hg
      have hu' := hu.grow rfl hle hg
      simp only
      split
      · rename_i h0
        obtain rfl : sz = 0 := by omega
        rw [h0] at hs' ⊢
        exact pure_wp (hQ false t' 0 hsz hs')
      · have hin : ph.vaddr + ph.filesz ≤ npages (max (ph.vaddr + ph.memsz) sz) * PGSIZE := by
          have := le_npages hsz'
          omega
        rw [wp_bind]
        refine loadseg_wp hle hu' (by omega) hin fun b => ?_
        cases b with
        | true => exact ih hsz' hs' hu'
        | false => exact pure_wp (hQ false t' _ hsz' hs')
    · exact pure_wp (hQ false t' sz hsz (hs.congr hg))

theorem execBad_wp (h : im.Ok) {t : PageTable} {sz : Nat} {page : Page} (hs : Shape t (npages sz) page) :
    wp (execBad im t sz) (fun r g => CallPost r g) (t.space (npages sz) + im.res) := by
  unfold execBad
  rw [wp_bind]
  exact procFreepagetable_wp hs (pure_wp (callPost_same h false))

theorem exec_wp (h : im.Ok) (inode : Option Readi) (lens : List Nat) :
    wp (exec im inode lens) CallPost im.res := by
  obtain ⟨page, old, hp, hold, hs⟩ := h.shape
  have hbad0 := pure_wp (callPost_same h false)
  unfold exec
  cases inode with
  | none => exact hbad0
  | some readi =>
    simp only
    split
    · exact hbad0
    have hpage : im.trapframe.getD 0 = page := by rw [hp, Option.getD_some]
    rw [hpage, wp_bind]
    refine procPagetable_wp (fun t hst => ?_) hbad0
    simp only
    rw [wp_bind]
    refine loadLoop_wp (fun ok t sz hsz hst => ?_) (Nat.zero_le (NPAGES * PGSIZE)) hst (fun i hi => absurd hi (by simp))
    cases ok with
    | false => exact execBad_wp h hst
    | true =>
      have hup : PGROUNDUP sz ≤ NPAGES * PGSIZE := by
        rw [pgroundup_eq]
        exact Nat.mul_le_mul_right _ hst.le
      have hnp : npages (PGROUNDUP sz) = npages sz := by rw [pgroundup_eq, npages_mul hst.le]
      have hmod : (PGROUNDUP sz + 2 * PGSIZE) % 2 ^ 64 = PGROUNDUP sz + 2 * PGSIZE := by
        have hN : NPAGES * PGSIZE = 2 ^ 27 := by decide
        have hP : PGSIZE = 4096 := rfl
        omega
      have hmax : max (PGROUNDUP sz + 2 * PGSIZE) (PGROUNDUP sz) = PGROUNDUP sz + 2 * PGSIZE :=
        Nat.max_eq_left (Nat.le_add_right ..)
      simp only [Bool.not_true, Bool.false_eq_true, if_false]
      rw [wp_bind, hmod, ← hnp]
      rw [← hnp] at hst
      refine uvmalloc_wp hup hst (fun t' hsz' hg => ?_) (fun t' hg => ?_)
      · have hs' := hst.grow rfl (npages_le hsz') (npages_mono (Nat.le_max_right ..) hsz') hg
        rw [hmax] at hsz' hs' ⊢
        have hne : PGROUNDUP sz + 2 * PGSIZE ≠ 0 := by
          have : 0 < PGSIZE := by decide
          omega
        simp only [if_neg hne, Nat.add_sub_cancel]
        have hclear : PGROUNDUP sz = npages sz * PGSIZE := pgroundup_eq sz
        rw [wp_bind]
        nth_rewrite 1 [hclear]
        refine uvmclear_wp hs' ?_ (fun t'' hs'' => ?_)
        · rw [npages_eq hsz', pgroundup_eq]
          simp only [PGSIZE]
          omega
        · split
          · split
            · exact fault_wp ..
            · rename_i old' hold'
              obtain rfl : old = old' := Option.some.inj (hold.symm.trans hold')
              rw [wp_bind, res_eq _ hp hold]
              have hperm : t''.space (npages (PGROUNDUP sz + 2 * PGSIZE)) +
                  ({.page page} + old.space (npages im.sz) + Img.refs im.ofile) = old.space (npages im.sz) +
                  (t''.space (npages (PGROUNDUP sz + 2 * PGSIZE)) + ({.page page} + Img.refs im.ofile)) := by
                abel
              rw [hperm]
              exact procFreepagetable_wp hs (pure_wp (callPost_space _ hp hsz' hs'' rfl))
          · exact execBad_wp h hs''
      · exact execBad_wp h (hst.congr hg)

/-! ### The arguments of `sys_exec` -/

/-- The pages of `argv`. -/
def argvPages (argv : List (Page × Nat)) : Multiset Res := ofPages (argv.map Prod.fst : List Page)

omit [KernelText] in
theorem argvPages_append (argv : List (Page × Nat)) (page : Page) (len : Nat) :
    argvPages (argv ++ [(page, len)]) = {.page page} + argvPages argv := by
  rw [argvPages, List.map_append, ← Multiset.coe_add, ofPages_add, add_comm]
  rfl

theorem argvLoop_wp {t : PageTable} {sz : Nat} {a : ExecArgs} {Q : Bool × List (Page × Nat) → Multiset Res → Prop}
    (hQ : ∀ b argv, Q (b, argv) (argvPages argv + F)) {n i : Nat} (argv : List (Page × Nat)) :
    wp (argvLoop t sz a n i argv) Q (argvPages argv + F) := by
  induction n generalizing i argv with
  | zero => exact pure_wp (hQ false argv)
  | succ n ih =>
    unfold argvLoop
    simp only
    split
    · exact pure_wp (hQ false argv)
    split
    · exact pure_wp (hQ true argv)
    rw [wp_bind]
    refine kalloc_wp (fun page _ => ?_) (pure_wp (hQ false argv))
    have hpages : ∀ len, {.page page} + (argvPages argv + F) = argvPages (argv ++ [(page, len)]) + F := fun len => by
      rw [argvPages_append, add_assoc]
    cases hstr : a.str (a.word ((a.uargv + 8 * i) % 2 ^ 64)) with
    | none =>
      rw [hpages 0]
      simp only
      exact pure_wp (hQ false _)
    | some len =>
      rw [hpages len]
      simp only
      exact ih _

theorem freeArgv_wp {Q : Unit → Multiset Res → Prop} (hQ : Q () F) (argv : List (Page × Nat)) :
    wp (freeArgv argv) Q (argvPages argv + F) := by
  induction argv with
  | nil => exact pure_wp (by simpa [argvPages] using hQ)
  | cons x argv ih =>
    have hpages : argvPages (x :: argv) + F = {.page x.1} + (argvPages argv + F) := by
      rw [← add_assoc]
      rfl
    unfold freeArgv
    rw [wp_bind, hpages]
    exact kfree_wp rfl ih

theorem sysExec_wp (h : im.Ok) (a : ExecArgs) : wp (sysExec im a) CallPost im.res := by
  have hbad := callPost_same h false
  unfold sysExec
  split
  · exact fault_wp ..
  split
  · exact pure_wp hbad
  rw [wp_bind, ← zero_add im.res]
  refine argvLoop_wp (fun ok argv => ?_) []
  cases ok with
  | false =>
    simp only [Bool.false_eq_true, if_false]
    rw [wp_bind]
    exact freeArgv_wp (pure_wp hbad) argv
  | true =>
    simp only [if_true]
    rw [wp_bind, add_comm]
    refine wp_mono (wp_frame (exec_wp h a.inode _) _) fun r g hr => ?_
    obtain ⟨g', rfl, hpost⟩ := hr
    rw [wp_bind, add_comm]
    exact freeArgv_wp (pure_wp hpost) argv

/-- The first process, if there was memory for its page. -/
theorem userinit_wp (contRoot : Nat) : wp (userinit contRoot) (fun q g => q ≠ none → g = 0) 0 := by
  unfold userinit
  rw [wp_bind]
  refine allocproc_wp (fun q page t hs => ?_) (fault_wp ..)
  simp only
  rw [wp_bind]
  refine kalloc_wp (fun mem _ => ?_) (fault_wp ..)
  have hgive : {.page mem} + ({.slot q} + ({.page page} + (t.space 0 + 0))) =
      ofPages t.tables + ({.page mem} + ofPages (t.frames 0) + ({.slot q} + {.page page})) := by
    rw [PageTable.space]
    abel
  simp only
  rw [wp_bind, hgive, ← Nat.zero_mul PGSIZE]
  have h0 : t.get 0 = none := hs.rest 0 (by decide) (Nat.le_refl 0) (by decide) (by decide)
  apply mappages_wp (by decide) h0
  · intro t' hg
    have hN : 0 < NPAGES := by decide
    have hgrown : Grown t t' 0 1 { r := true, w := true, x := true, u := true } := fun j hj => by
      rw [hg j hj]
      exact ⟨fun h => ⟨mem, by rw [if_pos (by omega)]⟩, fun h => by rw [if_neg (by omega)]⟩
    have hs' := hs.grow rfl (by decide) (Nat.le_succ 0) hgrown
    have hone : npages PGSIZE = 1 := by decide
    have hsz : PGSIZE ≤ NPAGES * PGSIZE := by decide
    simp only [if_true]
    rw [wp_bind]
    refine publish_wp (F := 0) ⟨hsz, page, t', rfl, rfl, hone.symm ▸ hs'⟩ ?_ (pure_wp fun _ => rfl)
    rw [Img.res_mk, hone, space_succ hN hg, Img.refs_none]
    abel
  · intro t' _
    exact pure_wp fun h => absurd rfl h

end Mem

end Xv6
