import Xv6.ExecSpec
import Xv6.GrowProc

/-!
# `exec` with the bytes of the file, the arguments and the new memory

`exec` on physical memory, from the look-up of the path to the answer.  The file is the bytes that `readi` reads; an argument is what
is at its address in the kernel.  The trapframe has the registers that `exec` sets.
-/

namespace Xv6

open Function (update)

/-- What the kernel has in `exec`: physical memory, the references and the locks of the inodes in the table, and the number of
system calls that use the log. -/
structure ExecSys where
  mem : Phys
  ref : Inum → Nat
  locked : Inum → Bool
  outstanding : Nat

abbrev ExecM := EStateM String ExecSys

/-- The fields of `struct proc` and of its trapframe that `exec` uses. -/
structure ExecProc where
  pagetable : PageTable
  sz : Nat
  trapframe : Page
  epc : Nat
  sp : Nat
  a1 : Nat
  name : List UInt8

/-- The number of bytes before the first zero. -/
def strlen (s : List UInt8) : Nat := (s.takeWhile (· ≠ 0)).length

/-- `readi(ip, 0, dst, off, n)` of a file with these bytes. -/
def readiBytes (data : List UInt8) (off n : Nat) : List UInt8 := (data.drop off).take (Ram.readiLen data.length off n)

/-- The words of `ustack` as bytes. -/
def wordBytes (v : Nat) : List UInt8 := (List.range 8).map fun i => UInt8.ofNat (v / 256 ^ i)

namespace Phys

def copyout (t : PageTable) (dstva : Nat) (src : List UInt8) : PhysM Bool := do
  let (ok, ram) := (← get).ram.copyout t dstva src
  modify fun s => { s with ram }
  pure ok

/-- The loop of `loadseg` with `n` pages left: `false` if `readi` reads less than it should. -/
def loadsegLoop (t : PageTable) (va : Nat) (data : List UInt8) (offset sz : Nat) : Nat → Nat → PhysM Bool
  | 0, _ => pure true
  | n + 1, i =>
    match Mem.walkaddr t ((va + i) % 2 ^ 64) with
    | none => throw "loadseg: address should exist"
    | some pa => do
      let m := if sz - i < PGSIZE then sz - i else PGSIZE
      let bs := readiBytes data ((offset + i) % 2 ^ 32) m
      modify fun s => { s with ram := s.ram.memmove pa 0 bs }
      if bs.length ≠ m then pure false else loadsegLoop t va data offset sz n (i + PGSIZE)

/-- `offset` and `sz` are `uint`. -/
def loadseg (t : PageTable) (va : Nat) (data : List UInt8) (offset sz : Nat) : PhysM Bool :=
  loadsegLoop t va data (offset % 2 ^ 32) (sz % 2 ^ 32) ((sz % 2 ^ 32 + PGSIZE - 1) / PGSIZE) 0

/-- The loop of `exec` over the program headers with `n` left: `false` for `goto bad`, the page table and its size. -/
def loadLoop (data : List UInt8) : Nat → Nat → PageTable → Nat → PhysM (Bool × PageTable × Nat)
  | 0, _, t, sz => pure (true, t, sz)
  | n + 1, off, t, sz =>
    let bs := readiBytes data (off % 2 ^ 32) 56
    let ph := Mem.Proghdr.ofBytes bs
    if bs.length ≠ 56 then pure (false, t, sz)
    else if ph.type ≠ Mem.ELF_PROG_LOAD then loadLoop data n (off + 56) t sz
    else if ph.memsz < ph.filesz then pure (false, t, sz)
    else if (ph.vaddr + ph.memsz) % 2 ^ 64 < ph.vaddr then pure (false, t, sz)
    else if ph.vaddr % PGSIZE ≠ 0 then pure (false, t, sz)
    else do
      let (sz1, t) ← uvmalloc t sz ((ph.vaddr + ph.memsz) % 2 ^ 64) (Mem.flags2perm ph.flags)
      if sz1 = 0 then pure (false, t, sz)
      else do
        if ← loadseg t ph.vaddr data ph.off ph.filesz then loadLoop data n (off + 56) t sz1
        else pure (false, t, sz1)

/-- The loop of `exec` that pushes the argument strings, and the vector of pointers; the answer is `sp`. -/
def pushArgs (t : PageTable) (stackbase : Nat) : List (List UInt8) → Nat → Nat → List Nat → PhysM (Option Nat)
  | [], argc, sp, ustack => do
    let sp := Mem.pushSp sp ((argc + 1) * 8)
    if sp < stackbase then pure none
    else do
      if ← copyout t sp ((ustack ++ [0]).flatMap wordBytes) then pure (some sp) else pure none
  | arg :: argv, argc, sp, ustack =>
    if argc ≥ MAXARG then pure none
    else do
      let sp := Mem.pushSp sp (strlen arg + 1)
      if sp < stackbase then pure none
      else do
        if ← copyout t sp (arg.take (strlen arg + 1)) then pushArgs t stackbase argv (argc + 1) sp (ustack ++ [sp])
        else pure none

end Phys

namespace ExecSys

open Phys (run)

def lift {α : Type} (m : PhysM α) : ExecM α := fun s =>
  match m s.mem with
  | .ok a mem => .ok a { s with mem }
  | .error e mem => .error e { s with mem }

def begin_op : ExecM Unit := modify fun s => { s with outstanding := s.outstanding + 1 }

def end_op : ExecM Unit := modify fun s => { s with outstanding := s.outstanding - 1 }

/-- `namei`, which has found the inode or not. -/
def namei (found : Option (Inum × List UInt8)) : ExecM (Option (Inum × List UInt8)) := do
  match found with
  | none => pure none
  | some (ip, data) => do
    modify fun s => { s with ref := update s.ref ip (s.ref ip + 1) }
    pure (some (ip, data))

/-- The lock is free when `ilock` returns. -/
def ilock (ip : Inum) : ExecM Unit := do
  if (← get).ref ip < 1 then throw "ilock"
  else modify fun s => { s with locked := update s.locked ip true }

def iunlockput (ip : Inum) : ExecM Unit := do
  if (← get).locked ip = false ∨ (← get).ref ip < 1 then throw "iunlock"
  else modify fun s => { s with locked := update s.locked ip false, ref := update s.ref ip (s.ref ip - 1) }

/-- `bad:` in `exec`. -/
def bad (p : ExecProc) (pagetable : Option PageTable) (sz : Nat) (ip : Option (Inum)) : ExecM (Int × ExecProc) := do
  match pagetable with
  | none => pure ()
  | some t => lift (run (Mem.procFreepagetable t sz))
  match ip with
  | none => pure ()
  | some ip => do
    iunlockput ip
    end_op
  pure (-1, p)

/-- The loop over the path for the name of the program. -/
def lastElem : List UInt8 → List UInt8 → List UInt8
  | last, [] => last
  | last, c :: s => if c = 47 then lastElem s s else lastElem last s

/-- What is after the program is loaded into `t`: the stack, the arguments and the commit. -/
def execStack (p : ExecProc) (elf path : List UInt8) (argv : List (List UInt8)) (t : PageTable) (sz : Nat) : ExecM (Int × ExecProc) := do
  let sz := PGROUNDUP sz
  let (sz1, t) ← lift (Phys.uvmalloc t sz ((sz + 2 * PGSIZE) % 2 ^ 64) { w := true })
  if sz1 = 0 then bad p (some t) sz none
  else do
    let t ← lift (run (Mem.uvmclear t (sz1 - 2 * PGSIZE)))
    match ← lift (Phys.pushArgs t (sz1 - PGSIZE) argv 0 sz1 []) with
    | none => bad p (some t) sz1 none
    | some sp => do
      let name := (lastElem path path).take 15
      lift (run (Mem.procFreepagetable p.pagetable p.sz))
      pure (argv.length, { p with pagetable := t, sz := sz1, epc := Mem.field elf 24 8, sp, a1 := sp, name })

/-- The answer and the process. -/
def exec [KernelText] (p : ExecProc) (found : Option (Inum × List UInt8)) (path : List UInt8) (argv : List (List UInt8)) :
    ExecM (Int × ExecProc) := do
  begin_op
  match ← namei found with
  | none => do
    end_op
    pure (-1, p)
  | some (ip, data) => do
    ilock ip
    let elf := readiBytes data 0 64
    if elf.length ≠ 64 then bad p none 0 (some ip)
    else if Mem.field elf 0 4 ≠ Mem.ELF_MAGIC then bad p none 0 (some ip)
    else do
      match ← lift (run (Mem.procPagetable p.trapframe)) with
      | none => bad p none 0 (some ip)
      | some t => do
        let (ok, t, sz) ← lift (Phys.loadLoop data (Mem.field elf 56 2) (Mem.field elf 32 8) t 0)
        if !ok then bad p (some t) sz (some ip)
        else do
          iunlockput ip
          end_op
          execStack p elf path argv t sz

end ExecSys

/-! ### The rules of the functions that `exec` calls -/

namespace ExecSys

variable {α : Type} {s : ExecSys}

@[simp] theorem wp_lift (m : PhysM α) (Q : α → ExecSys → Prop) (E : String → ExecSys → Prop) :
    wp (lift m) Q E s = wp m (fun a mem => Q a { s with mem }) (fun e mem => E e { s with mem }) s.mem := by
  simp only [wp, lift]
  cases m s.mem <;> rfl

end ExecSys

namespace Mem

theorem freewalkLoop_code {α : Type} {f : α → Mem Unit} (hf : ∀ c, (f c).PageCode) (t : PtPage α) (is : List (Fin 512)) :
    (freewalkLoop f t is).PageCode := by
  induction is with
  | nil => trivial
  | cons i is ih =>
    unfold freewalkLoop
    dsimp only
    split
    · exact Code.only_bind (hf _) fun _ => ih
    · exact ih

theorem freewalkPage_code {α : Type} {f : α → Mem Unit} (hf : ∀ c, (f c).PageCode) (t : PtPage α) : (freewalkPage f t).PageCode := by
  unfold freewalkPage
  generalize List.finRange 512 = is
  exact Code.only_bind (freewalkLoop_code hf t is) fun _ => kfree_code _

theorem freewalkLoop_congr {α : Type} {f g : α → Mem Unit} {t : PtPage α} (h : ∀ i c, t.ent i = some c → f c = g c)
    (is : List (Fin 512)) : freewalkLoop f t is = freewalkLoop g t is := by
  induction is with
  | nil => rfl
  | cons i is ih =>
    unfold freewalkLoop
    rw [ih]
    cases hi : t.ent i with
    | none => rfl
    | some c =>
      dsimp only
      rw [h i c hi]

theorem freewalkPage_congr {α : Type} {f g : α → Mem Unit} {t : PtPage α} (h : ∀ i c, t.ent i = some c → f c = g c) :
    freewalkPage f t = freewalkPage g t := by
  unfold freewalkPage
  rw [freewalkLoop_congr h]

/-- Where nothing is mapped `freewalk` does not get to a leaf. -/
theorem freewalk_eq {t : PageTable} (h : ∀ j < 2 ^ 27, t.get j = none) :
    freewalk t = freewalkPage (freewalkPage (freewalkPage fun _ => pure ())) t := by
  apply freewalkPage_congr
  intro a t1 h1
  apply freewalkPage_congr
  intro b t0 h0
  apply freewalkPage_congr
  intro c e he
  rw [PageTable.ent_of_get h h1 h0] at he
  cases he

end Mem

-- the loop over 512 entries is not unfolded below
attribute [local irreducible] Mem.freewalkPage

namespace Mem

theorem freewalk_code {t : PageTable} (h : ∀ j < 2 ^ 27, t.get j = none) : (freewalk t).PageCode := by
  rw [freewalk_eq h]
  exact freewalkPage_code (fun t1 => freewalkPage_code (fun t0 => freewalkPage_code (fun _ => Code.only_pure ()) t0) t1) t

end Mem

namespace Phys

@[simp] theorem run_kalloc : run Mem.kalloc = kalloc := bind_pure kalloc

variable [KernelText] {s : Phys} {t : PageTable} {trapframe : Page} {E : String → Phys → Prop}

theorem freewalk_wp (h : ∀ j < 2 ^ 27, t.get j = none) (hs : s.Sound t.tables) {Q : Unit → Phys → Prop}
    (hQ : ∀ s', s.Same t.tables s' 0 → Q () s') : wp (run (Mem.freewalk t)) Q E s := by
  have hwp : Mem.wp (Mem.freewalk t) (fun _ g => g = 0) (Res.ofPages t.tables) := by
    rw [← add_zero (Res.ofPages _)]
    exact Mem.freewalk_wp h rfl
  apply run_wp (Mem.freewalk_code h) hwp hs
  intro a s' m' ha hsame
  rw [ofPages_inj (ha.trans Res.ofPages_zero.symm)] at hsame
  exact hQ s' hsame

/-- `uvmunmap` that does not free. -/
theorem uvmunmap_keep_wp {v n : Nat} (hv : (v + n) * PGSIZE ≤ MAXVA) (hm : ∀ i < n, ∃ e, t.get (v + i) = some e ∧ e.perm ≠ {})
    (hs : s.Sound 0) {Q : PageTable → Phys → Prop}
    (hQ : ∀ (t' : PageTable) s', t'.tables = t.tables →
      (∀ j < 2 ^ 27, t'.get j = if v ≤ j ∧ j < v + n then none else t.get j) → s.Same 0 s' 0 → Q t' s') :
    wp (run (Mem.uvmunmap t (v * PGSIZE) n false)) Q E s := by
  have h : Mem.wp (Mem.uvmunmap t (v * PGSIZE) n false) (fun t' g => g = 0 ∧ t'.tables = t.tables ∧
      ∀ j < 2 ^ 27, t'.get j = if v ≤ j ∧ j < v + n then none else t.get j) (Res.ofPages 0) := by
    rw [← add_zero (Res.ofPages _)]
    apply Mem.uvmunmap_wp false hv hm
    intro t' ht hg
    exact ⟨rfl, ht, hg⟩
  apply run_wp (Mem.uvmunmap_code ..) h hs
  intro t' s' m' ha hsame
  rw [ofPages_inj (ha.1.trans Res.ofPages_zero.symm)] at hsame
  exact hQ t' s' ha.2.1 ha.2.2 hsame

/-- `uvmfree` of an address space with nothing above its user pages. -/
theorem uvmfree_wp {sz : Nat} (hn : npages sz ≤ NPAGES) (hleaf : ∀ i < npages sz, ∃ e, t.get i = some e ∧ e.perm ≠ {})
    (hrest : ∀ j < 2 ^ 27, npages sz ≤ j → t.get j = none) (hs : s.Sound (t.tables + t.frames (npages sz)))
    {Q : Unit → Phys → Prop} (hQ : ∀ s', s.Same (t.tables + t.frames (npages sz)) s' 0 → Q () s') :
    wp (run (Mem.uvmfree t sz)) Q E s := by
  unfold Mem.uvmfree
  by_cases hsz : sz > 0
  · simp only [if_pos hsz, run_bind, wp_bind]
    rw [← Nat.zero_mul PGSIZE, show PGROUNDUP sz / PGSIZE = npages sz from rfl]
    apply uvmunmap_wp
    · rw [Nat.zero_add]
      exact Nat.le_of_lt (page_lt_maxva hn)
    · intro i hi
      rw [Nat.zero_add]
      exact hleaf i hi
    · exact hs.mono (Multiset.le_add_left ..)
    · intro t' s' ht hg hs'
      have hs' := hs'.frame t.tables
      rw [zero_add, add_comm, ← PageTable.frames] at hs'
      have hsound := hs'.sound hs
      rw [← ht] at hsound
      apply freewalk_wp _ hsound
      · intro s'' hs''
        rw [ht] at hs''
        exact hQ s'' (hs'.trans hs'')
      · intro j hj
        rw [hg j hj]
        split
        · rfl
        · exact hrest j hj (by omega)
  · obtain rfl : sz = 0 := by omega
    have hzero : t.frames (npages 0) = 0 := by simp [PageTable.frames, PageTable.framesFrom]
    rw [hzero, add_zero] at hs hQ
    simp only [if_neg hsz, Code.pure_bind]
    exact freewalk_wp (fun j hj => hrest j hj (by simp)) hs hQ

theorem procFreepagetable_wp {sz : Nat} (hshape : Shape t (npages sz) trapframe) (hs : s.Sound (t.tables + t.frames (npages sz)))
    {Q : Unit → Phys → Prop} (hQ : ∀ s', s.Same (t.tables + t.frames (npages sz)) s' 0 → Q () s') :
    wp (run (Mem.procFreepagetable t sz)) Q E s := by
  have hf : TFPAGE * PGSIZE = TRAPFRAME := by decide
  have hr : TRPAGE * PGSIZE = TRAMPOLINE := by decide
  have hle := npages_lt_tfpage hshape.le
  have hft : TFPAGE < TRPAGE := by decide
  unfold Mem.procFreepagetable
  rw [run_bind, wp_bind, ← hr]
  apply uvmunmap_keep_wp (by decide) _ (hs.mono (Multiset.zero_le _))
  · intro t1 s1 ht1 hg1 hs1
    rw [run_bind, wp_bind, ← hf]
    apply uvmunmap_keep_wp (by decide) _ (hs1.sound (hs.mono (Multiset.zero_le _)))
    · intro t2 s2 ht2 hg2 hs2
      -- the trampoline and the trapframe are gone
      have hg : ∀ j < 2 ^ 27, t2.get j = if j < npages sz then t.get j else none := fun j hj => by
        rw [hg2 j hj]
        by_cases hf : j = TFPAGE
        · rw [if_pos (by omega), if_neg (by omega)]
        · rw [if_neg (by omega), hg1 j hj]
          by_cases hr : j = TRPAGE
          · rw [if_pos (by omega), if_neg (by omega)]
          · rw [if_neg (by omega)]
            split
            · rfl
            · exact hshape.rest j hj (by omega) hf hr
      have hfr : t2.frames (npages sz) = t.frames (npages sz) := PageTable.frames_congr fun i hi => by
        rw [hg i (Shape.lt_of_le hshape.le hi).1, if_pos hi]
      have hs2 := (hs1.trans hs2).frame (t.tables + t.frames (npages sz))
      rw [zero_add] at hs2
      have hsound := hs2.sound hs
      rw [← hfr, ← ht1, ← ht2] at hsound
      apply uvmfree_wp hshape.le _ _ hsound
      · intro s3 hs3
        rw [hfr, ht2, ht1] at hs3
        exact hQ s3 (hs2.trans hs3)
      · intro i hi
        rw [hg i (Shape.lt_of_le hshape.le hi).1, if_pos hi]
        exact hshape.leaf hi
      · intro j hj hn
        rw [hg j hj, if_neg (by omega)]
    · intro i hi
      obtain rfl : i = 0 := by omega
      refine ⟨_, by rw [Nat.add_zero, hg1 _ (by decide), if_neg (by omega), hshape.frame], ?_⟩
      change ({ r := true, w := true } : Perm) ≠ {}
      decide
  · intro i hi
    obtain rfl : i = 0 := by omega
    exact ⟨_, hshape.tramp, Perm.ne_empty rfl⟩

theorem uvmfree_zero_wp (h : ∀ j < 2 ^ 27, t.get j = none) (hs : s.Sound t.tables) {Q : Unit → Phys → Prop}
    (hQ : ∀ s', s.Same t.tables s' 0 → Q () s') : wp (run (Mem.uvmfree t 0)) Q E s := by
  have hzero : t.tables + t.frames (npages 0) = t.tables := by simp [PageTable.frames, PageTable.framesFrom]
  rw [← hzero] at hs hQ
  exact uvmfree_wp (Nat.zero_le _) (fun i hi => absurd hi (by simp)) (fun j hj _ => h j hj) hs hQ

theorem procPagetable_wp {page : Page} (hs : s.Sound 0) {Q : Option PageTable → Phys → Prop}
    (hok : ∀ t s', Shape t 0 page → s.Same 0 s' t.tables → Q (some t) s') (hbad : ∀ s', s.Same 0 s' 0 → Q none s') :
    wp (run (Mem.procPagetable page)) Q E s := by
  have hf : TFPAGE * PGSIZE = TRAPFRAME := by decide
  have hr : TRPAGE * PGSIZE = TRAMPOLINE := by decide
  have hft : TFPAGE < TRPAGE := by decide
  unfold Mem.procPagetable Mem.uvmcreate
  rw [run_bind, run_bind, wp_bind, wp_bind, run_kalloc]
  apply kalloc_wp (m := 0)
  · intro s1 hs1 _ _
    exact hbad s1 hs1
  · intro root s1 _ hs1 _ _
    have htab : PageTable.tables (.empty root) = {root} := PtPage.sum_empty ..
    have hempty : ∀ j, PageTable.get (.empty root) j = none := fun _ => rfl
    rw [add_zero, ← htab] at hs1
    dsimp only
    rw [run_pure, wp_pure, run_bind, wp_bind, ← hr]
    apply mappages_wp (by decide) (hempty _) (hs1.sound hs)
    · intro t1 s2 hg1 hs2 _ _
      have hs2 := hs1.trans hs2
      dsimp only
      rw [if_pos rfl, run_bind, wp_bind, ← hf]
      apply mappages_wp (by decide) (by rw [hg1 _ (by decide), if_neg (by decide), hempty]) (hs2.sound hs)
      · intro t2 s3 hg2 hs3 _ _
        refine hok t2 s3 ?_ (hs2.trans hs3)
        constructor
        · exact Nat.zero_le _
        · intro i hi
          exact absurd hi (Nat.not_lt_zero i)
        · rw [hg2 _ (by decide), if_pos rfl]
        · rw [hg2 _ (by decide), if_neg (by decide), hg1 _ (by decide), if_pos rfl]
        · intro i hi _ hf hr
          rw [hg2 i hi, if_neg hf, hg1 i hi, if_neg hr, hempty]
      · intro t2 s3 hg2 hs3 _ _
        have hs3 := hs2.trans hs3
        dsimp only
        rw [if_neg Bool.false_ne_true, run_bind, wp_bind]
        apply uvmunmap_keep_wp (by decide) _ ((hs3.sound hs).mono (Multiset.zero_le _))
        · intro t3 s4 ht3 hg3 hs4
          have hs4 := hs4.frame t2.tables
          rw [zero_add, ← ht3] at hs4
          rw [ht3] at hs4
          rw [run_bind, wp_bind]
          have hs4' := hs3.trans hs4
          rw [← ht3] at hs4'
          apply uvmfree_zero_wp _ (hs4'.sound hs)
          · intro s5 hs5
            exact hbad s5 (hs4'.trans hs5)
          · intro j hj
            rw [hg3 j hj, hg2, hg1 j hj]
            split
            · rfl
            · rw [if_neg (by omega), hempty]
        · intro i hi
          obtain rfl : i = 0 := by omega
          exact ⟨_, by rw [Nat.add_zero, hg2, hg1 _ (by decide), if_pos rfl], Perm.ne_empty rfl⟩
    · intro t1 s2 hg1 hs2 _ _
      have hs2 := hs1.trans hs2
      dsimp only
      rw [if_neg Bool.false_ne_true, run_bind, wp_bind]
      apply uvmfree_zero_wp _ (hs2.sound hs)
      · intro s3 hs3
        exact hbad s3 (hs2.trans hs3)
      · intro j _
        rw [hg1, hempty]

omit [KernelText] in
/-- `uvmclear` of a page that is mapped. -/
theorem uvmclear_eq {i : Nat} {e : Pte} (hi : i * PGSIZE < MAXVA) (he : t.get i = some e) :
    run (Mem.uvmclear t (i * PGSIZE)) = pure (t.setPte (i * PGSIZE) (some { e with perm.u := false })) := by
  unfold Mem.uvmclear
  rw [Mem.walk_false t hi, Code.pure_bind, PageTable.find_of_look he]
  rfl

end Phys

end Xv6
