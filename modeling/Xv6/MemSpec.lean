import Xv6.VmSpace

/-!
# What the system calls hold

A call starts with what its process holds outside a call and returns with what it then holds: `CallPost`.  One rule for each call;
those of the files come first.
-/

namespace Xv6

open Res Function

namespace Img

variable {ofile : Fin NOFILE → Option (Fin NFILE)} {fd : Fin NOFILE} {f : Fin NFILE}

@[simp] theorem refs_none : refs (fun _ => none) = 0 := by
  simp [refs]

/-- The references other than that of `fd`. -/
theorem refs_update (ofile : Fin NOFILE → Option (Fin NFILE)) (fd : Fin NOFILE) (x : Option (Fin NFILE)) :
    refs (update ofile fd x) + (ofile fd).elim 0 (fun f => {.ref f}) = refs ofile + x.elim 0 (fun f => {.ref f}) := by
  unfold refs
  rw [← Finset.add_sum_erase Finset.univ (fun i => (update ofile fd x i).elim 0 fun f => ({.ref f} : Multiset Res)) (Finset.mem_univ fd),
    ← Finset.add_sum_erase Finset.univ (fun i => (ofile i).elim 0 fun f => ({.ref f} : Multiset Res)) (Finset.mem_univ fd)]
  have h : ∑ i ∈ Finset.univ.erase fd, (update ofile fd x i).elim 0 (fun f => ({.ref f} : Multiset Res)) =
      ∑ i ∈ Finset.univ.erase fd, (ofile i).elim 0 (fun f => {.ref f}) := by
    apply Finset.sum_congr rfl
    intro i hi
    rw [update_of_ne (Finset.ne_of_mem_erase hi)]
  rw [h, update_self]
  abel

theorem refs_open (h : ofile fd = none) (f : Fin NFILE) : refs (update ofile fd (some f)) = {.ref f} + refs ofile := by
  have := refs_update ofile fd (some f)
  rw [h] at this
  simpa [add_comm] using this

theorem refs_close (h : ofile fd = some f) : {.ref f} + refs (update ofile fd none) = refs ofile := by
  have := refs_update ofile fd none
  rw [h] at this
  simpa [add_comm] using this

theorem res_mk (page : Page) (t : PageTable) (sz : Nat) (ofile : Fin NOFILE → Option (Fin NFILE)) (contp : Option Nat) :
    res ⟨some page, some t, sz, ofile, contp⟩ = {.page page} + t.space (npages sz) + refs ofile := rfl

theorem ref_mem (h : ofile fd = some f) : .ref f ∈ refs ofile := by
  rw [← refs_close h]
  exact Multiset.mem_add.2 (.inl (Multiset.mem_singleton_self _))

end Img

/-- What a call returns with. -/
def CallPost [KernelText] (r : Outcome) (g : Multiset Res) : Prop :=
  r.im.Ok ∧ g = r.im.res ∧ (r.exited = true → r.im.ofile = fun _ => none)

namespace Mem

variable [KernelText] {F : Multiset Res}

/-! ### Files -/

theorem fileclose_wp {Q : Unit → Multiset Res → Prop} {f : Fin NFILE} (hQ : Q () F) : wp (fileclose f) Q ({.ref f} + F) := by
  unfold fileclose pipeclose
  rw [wp_bind]
  apply fileput_wp
  · exact pure_wp hQ
  · intro pi w
    simp only
    rw [wp_bind]
    apply pipeput_wp
    · exact pure_wp hQ
    · exact kfree_dead_wp hQ

/-- A file that has no type yet. -/
theorem fileclose_fresh_wp {Q : Unit → Multiset Res → Prop} {f : Fin NFILE} (hQ : Q () F) :
    wp (fileclose f) Q ({.fresh f} + F) := by
  unfold fileclose
  rw [wp_bind]
  exact fileput_fresh_wp (pure_wp hQ)

theorem pipealloc_wp {Q : Option (Fin NFILE × Fin NFILE) → Multiset Res → Prop}
    (hok : ∀ f0 f1, Q (some (f0, f1)) ({.ref f0} + ({.ref f1} + F))) (hbad : Q none F) : wp pipealloc Q F := by
  unfold pipealloc
  rw [wp_bind]
  refine filealloc_wp (fun f0 => ?_) (pure_wp hbad)
  simp only
  rw [wp_bind]
  refine filealloc_wp (fun f1 => ?_) ?_
  · simp only
    rw [wp_bind]
    refine kalloc_wp (fun pi _ => ?_) ?_
    · simp only
      rw [wp_bind]
      refine pipeinit_wp (F := F) (by abel) (pure_wp ?_)
      rw [add_assoc]
      exact hok f0 f1
    · simp only
      rw [wp_bind, add_left_comm]
      apply fileclose_fresh_wp
      rw [wp_bind]
      exact fileclose_fresh_wp (pure_wp hbad)
  · simp only
    rw [wp_bind]
    exact fileclose_fresh_wp (pure_wp hbad)

omit [KernelText] in
theorem fdalloc_free {ofile : Fin NOFILE → Option (Fin NFILE)} {fd : Fin NOFILE} (h : fdalloc ofile = some fd) : ofile fd = none := by
  have := List.find?_some h
  simpa using this

variable {im : Img}

omit [KernelText] in
/-- The image of a process, taken apart. -/
theorem res_eq (im : Img) {page : Page} {t : PageTable} (hp : im.trapframe = some page) (ht : im.pagetable = some t) :
    im.res = {.page page} + t.space (npages im.sz) + Img.refs im.ofile := by
  rw [Img.res, hp, ht]
  rfl

theorem callPost_same (h : im.Ok) (b : Bool) : CallPost { im, ok := b } im.res := ⟨h, rfl, nofun⟩

/-- A call that only changed the open files. -/
theorem callPost_ofile (h : im.Ok) {ofile : Fin NOFILE → Option (Fin NFILE)} {b : Bool} {g : Multiset Res}
    (hg : ∀ G, im.res = Img.refs im.ofile + G → g = Img.refs ofile + G) : CallPost { im := { im with ofile }, ok := b } g := by
  obtain ⟨page, t, hp, ht, hs⟩ := h.shape
  refine ⟨⟨h.sz, page, t, hp, ht, hs⟩, ?_, nofun⟩
  rw [hg ({.page page} + t.space (npages im.sz)) (by rw [res_eq _ hp ht, add_comm]),
    res_eq { im with ofile } hp ht, add_comm]

omit [KernelText] in
theorem argfd_some {fd : Int} {d : Fin NOFILE} {f : Fin NFILE} (h : argfd im fd = some (d, f)) : im.ofile d = some f := by
  unfold argfd at h
  split at h
  · simp only [Option.map_eq_some_iff, Prod.mk.injEq] at h
    obtain ⟨f', hf, rfl, rfl⟩ := h
    exact hf
  · cases h

theorem sysClose_wp (h : im.Ok) (fd : Int) : wp (sysClose im fd) CallPost im.res := by
  unfold sysClose
  split
  · exact pure_wp (callPost_same h false)
  · rename_i d f hf
    obtain ⟨page, t, hp, ht, hs⟩ := h.shape
    rw [wp_bind, res_eq _ hp ht, ← Img.refs_close (argfd_some hf), add_left_comm]
    apply fileclose_wp
    refine pure_wp (callPost_ofile h fun G hG => ?_)
    have := hG.symm.trans (res_eq _ hp ht)
    rw [add_comm] at this
    rw [add_right_cancel this, add_comm]

theorem sysOpen_wp (h : im.Ok) (found : Bool) : wp (sysOpen im found) CallPost im.res := by
  have hbad := callPost_same h false
  unfold sysOpen
  split
  · exact pure_wp hbad
  rw [wp_bind]
  refine filealloc_wp (fun f => ?_) (pure_wp hbad)
  simp only
  cases hfd : fdalloc im.ofile with
  | none =>
    simp only
    rw [wp_bind]
    exact fileclose_fresh_wp (pure_wp hbad)
  | some fd =>
    simp only
    rw [wp_bind]
    refine fileopen_wp rfl (pure_wp (callPost_ofile h fun G hG => ?_))
    rw [Img.refs_open (fdalloc_free hfd), hG, add_assoc]

theorem sysDup_wp (h : im.Ok) (fd : Int) : wp (sysDup im fd) CallPost im.res := by
  have hbad := callPost_same h false
  unfold sysDup
  split
  · exact pure_wp hbad
  · rename_i d f hf
    split
    · exact pure_wp hbad
    · rename_i fd' hfd
      obtain ⟨page, t, hp, ht, hs⟩ := h.shape
      have hmem : .ref f ∈ im.res := by
        rw [res_eq _ hp ht]
        simp [Img.ref_mem (argfd_some hf)]
      rw [wp_bind]
      refine filedup_wp hmem (pure_wp (callPost_ofile h fun G hG => ?_))
      rw [Img.refs_open (fdalloc_free hfd), hG, add_assoc]

theorem sysPipe_wp (h : im.Ok) (fdarray : Nat) : wp (sysPipe im fdarray) CallPost im.res := by
  obtain ⟨page, t, hp, ht, hs⟩ := h.shape
  have hclose : ∀ rf wf, wp (do
      fileclose rf
      fileclose wf
      pure { im, ok := false }) CallPost ({.ref rf} + ({.ref wf} + im.res)) := by
    intro rf wf
    rw [wp_bind]
    apply fileclose_wp
    rw [wp_bind]
    exact fileclose_wp (pure_wp (callPost_same h false))
  unfold sysPipe
  split
  · rename_i hn
    rw [ht] at hn
    cases hn
  rw [wp_bind]
  refine pipealloc_wp (fun rf wf => ?_) (pure_wp (callPost_same h false))
  simp only
  cases hfd0 : fdalloc im.ofile with
  | none => exact hclose rf wf
  | some fd0 =>
    have h0 := fdalloc_free hfd0
    simp only
    cases hfd1 : fdalloc (update im.ofile fd0 (some rf)) with
    | none =>
      have hback : update (update im.ofile fd0 (some rf)) fd0 none = im.ofile := by
        rw [update_idem, ← h0, update_eq_self]
      simp only [hback]
      exact hclose rf wf
    | some fd1 =>
      have h1 := fdalloc_free hfd1
      have hne : fd1 ≠ fd0 := by
        rintro rfl
        rw [update_self] at h1
        cases h1
      have h1' : im.ofile fd1 = none := by rwa [update_of_ne hne] at h1
      simp only
      split
      · refine pure_wp (callPost_ofile h fun G hG => ?_)
        rw [Img.refs_open h1, Img.refs_open h0, hG]
        abel
      · have hback : update (update (update (update im.ofile fd0 (some rf)) fd1 (some wf)) fd0 none) fd1 none = im.ofile := by
          have e0 : update im.ofile fd0 none = im.ofile := by rw [← h0, update_eq_self]
          have e1 : update im.ofile fd1 none = im.ofile := by rw [← h1', update_eq_self]
          rw [update_comm hne.symm, update_idem, update_comm hne, update_idem, e0, e1]
        simp only [hback]
        exact hclose rf wf

/-! ### Processes -/

/-- The end of `freeproc`, which gives the slot back. -/
private theorem freeprocSlot_wp {q : Fin NPROC} (ho : im.ofile = fun _ => none) {Q : Unit → Multiset Res → Prop} (hQ : Q () F) :
    wp (do
      slotfree q { im with trapframe := none, pagetable := none, sz := 0, contp := none }
      match im.contp with
      | some _ => pure ()
      | none => fault) Q ({.slot q} + F) := by
  rw [wp_bind]
  apply slotfree_wp
  · rw [ho]
  · cases im.contp with
    | some c => exact pure_wp hQ
    | none => exact fault_wp ..

/-- What `freeproc` does once the trapframe is freed. -/
private theorem freeprocSpace_wp {q : Fin NPROC} (ho : im.ofile = fun _ => none)
    (hs : ∀ t, im.pagetable = some t → ∃ page, Shape t (npages im.sz) page) {Q : Unit → Multiset Res → Prop} (hQ : Q () F) :
    wp (do
      match im.pagetable with
      | some t => procFreepagetable t im.sz
      | none => pure ()
      slotfree q { im with trapframe := none, pagetable := none, sz := 0, contp := none }
      match im.contp with
      | some _ => pure ()
      | none => fault) Q (im.pagetable.elim 0 (fun t => t.space (npages im.sz)) + ({.slot q} + F)) := by
  cases ht : im.pagetable with
  | none =>
    simp only [Option.elim_none, zero_add]
    exact freeprocSlot_wp ho hQ
  | some t =>
    obtain ⟨page, hs⟩ := hs t ht
    simp only [Option.elim_some]
    rw [wp_bind]
    exact procFreepagetable_wp hs (freeprocSlot_wp ho hQ)

theorem freeproc_wp {q : Fin NPROC} (ho : im.ofile = fun _ => none)
    (hs : ∀ t, im.pagetable = some t → ∃ page, Shape t (npages im.sz) page) {Q : Unit → Multiset Res → Prop} (hQ : Q () F) :
    wp (freeproc q im) Q ({.slot q} + im.res + F) := by
  have hpt := freeprocSpace_wp (q := q) ho hs hQ
  have hres : {.slot q} + im.res + F =
      im.trapframe.elim 0 (fun p => {.page p}) + (im.pagetable.elim 0 (fun t => t.space (npages im.sz)) + ({.slot q} + F)) := by
    rw [Img.res, ho, Img.refs_none, add_zero]
    abel
  rw [hres]
  unfold freeproc
  cases hp : im.trapframe with
  | none =>
    simp only [Option.elim_none, zero_add]
    exact hpt
  | some page =>
    simp only [Option.elim_some]
    rw [wp_bind]
    exact kfree_wp rfl hpt

theorem allocproc_wp {contp : Option Nat} {Q : Option (Fin NPROC × Img) → Multiset Res → Prop}
    (hok : ∀ q page t, Shape t 0 page →
      Q (some (q, { trapframe := some page, pagetable := some t, contp })) ({.slot q} + ({.page page} + (t.space 0 + F))))
    (hbad : Q none F) : wp (allocproc contp) Q F := by
  unfold allocproc
  rw [wp_bind]
  refine slotalloc_wp (fun q => ?_) (pure_wp hbad)
  simp only
  rw [wp_bind]
  refine kalloc_wp (fun page _ => ?_) ?_
  · simp only
    rw [wp_bind]
    refine procPagetable_wp (fun t hs => ?_) ?_
    · refine pure_wp ?_
      have := hok q page t hs
      convert this using 1
      abel
    · simp only
      have hres : {.page page} + ({.slot q} + F) =
          {.slot q} + Img.res { trapframe := some page, pagetable := none } + F := by
        simp only [Img.res, Option.elim_some, Option.elim_none, add_zero, Img.refs_none]
        abel
      rw [wp_bind, hres]
      exact freeproc_wp rfl (fun t ht => by cases ht) (pure_wp hbad)
  · simp only
    have hres : {.slot q} + F = {.slot q} + Img.res {} + F := by
      simp only [Img.res, Option.elim_none, add_zero, Img.refs_none]
    rw [wp_bind, hres]
    exact freeproc_wp rfl (fun t ht => by cases ht) (pure_wp hbad)

/-- `filedup` of the files of the parent, which holds a reference to each of them. -/
theorem dupFiles_wp {src : Fin NOFILE → Option (Fin NFILE)} {G : Multiset Res} (hG : ∀ i f, src i = some f → .ref f ∈ G)
    {Q : (Fin NOFILE → Option (Fin NFILE)) → Multiset Res → Prop} {is : List (Fin NOFILE)} (hn : is.Nodup)
    {dst : Fin NOFILE → Option (Fin NFILE)} (hd : ∀ i ∈ is, dst i = none)
    (hQ : Q (fun i => if i ∈ is then src i else dst i) (Img.refs (fun i => if i ∈ is then src i else dst i) + G)) :
    wp (dupFiles src is dst) Q (Img.refs dst + G) := by
  induction is generalizing dst with
  | nil => exact pure_wp (by simpa using hQ)
  | cons i is ih =>
    obtain ⟨hi, hn⟩ := List.nodup_cons.1 hn
    have hnext : (fun j => if j ∈ i :: is then src j else dst j) = fun j => if j ∈ is then src j else update dst i (src i) j := by
      funext j
      by_cases hj : j = i
      · subst hj
        simp [hi]
      · simp [hj]
    rw [hnext] at hQ
    have hd' : ∀ j ∈ is, update dst i (src i) j = none := fun j hj => by
      rw [update_of_ne (by rintro rfl; exact hi hj)]
      exact hd j (List.mem_cons_of_mem i hj)
    have hwp := ih hn hd' hQ
    unfold dupFiles
    cases hf : src i with
    | none =>
      have hsame : update dst i (src i) = dst := by
        rw [hf, ← hd i List.mem_cons_self, update_eq_self]
      rw [hsame] at hwp
      exact hwp
    | some f =>
      rw [hf, Img.refs_open (hd i List.mem_cons_self), add_assoc] at hwp
      simp only
      rw [wp_bind]
      exact filedup_wp (Multiset.mem_add.2 (.inr (hG i f hf))) hwp

theorem closeFiles_wp {Q : (Fin NOFILE → Option (Fin NFILE)) → Multiset Res → Prop} {is : List (Fin NOFILE)}
    {ofile : Fin NOFILE → Option (Fin NFILE)}
    (hQ : Q (fun i => if i ∈ is then none else ofile i) (Img.refs (fun i => if i ∈ is then none else ofile i) + F)) :
    wp (closeFiles is ofile) Q (Img.refs ofile + F) := by
  induction is generalizing ofile with
  | nil => exact pure_wp (by simpa using hQ)
  | cons i is ih =>
    have hnext : (fun j => if j ∈ i :: is then none else ofile j) = fun j => if j ∈ is then none else update ofile i none j := by
      funext j
      by_cases hj : j = i
      · subst hj
        simp
      · simp [hj]
    rw [hnext] at hQ
    have hwp := ih hQ
    unfold closeFiles
    cases hf : ofile i with
    | none =>
      rw [← hf, update_eq_self] at hwp
      exact hwp
    | some f =>
      rw [← Img.refs_close hf, add_assoc]
      simp only
      rw [wp_bind]
      exact fileclose_wp hwp

theorem fork_wp (h : im.Ok) (p : Fin NPROC) (contp : Option Nat) : wp (fork p im contp) CallPost im.res := by
  obtain ⟨page, t, hp, ht, hs⟩ := h.shape
  unfold fork
  rw [wp_bind]
  refine allocproc_wp (fun q page' new hs' => ?_) (pure_wp (callPost_same h false))
  have hgive : {.slot q} + ({.page page'} + (new.space 0 + im.res)) = new.space 0 + ({.slot q} + {.page page'} + im.res) := by
    abel
  simp only [ht]
  rw [wp_bind, hgive]
  refine uvmcopy_wp h.sz hs hs' (fun new' hs' => ?_) (fun new' hs' => ?_)
  · simp only [if_true]
    have hhave : new'.space (npages im.sz) + ({.slot q} + {.page page'} + im.res) =
        Img.refs (fun _ => none) + (new'.space (npages im.sz) + ({.slot q} + {.page page'} + im.res)) := by
      rw [Img.refs_none, zero_add]
    rw [wp_bind, hhave]
    refine dupFiles_wp (fun i f hf => ?_) (List.nodup_finRange NOFILE) (fun _ _ => rfl) ?_
    · rw [res_eq _ hp ht]
      simp [Img.ref_mem hf]
    · have hall : (fun i => if i ∈ List.finRange NOFILE then im.ofile i else none) = im.ofile := by
        funext i
        rw [if_pos (List.mem_finRange i)]
      rw [hall, wp_bind]
      refine publish_wp (F := im.res) ⟨h.sz, page', new', rfl, rfl, hs'⟩ ?_ (pure_wp (callPost_same h true))
      rw [Img.res_mk]
      abel
  · have hhave : new'.space 0 + ({.slot q} + {.page page'} + im.res) =
        {.slot q} + Img.res { trapframe := some page', pagetable := some new', contp } + im.res := by
      rw [Img.res_mk, npages_zero, Img.refs_none]
      abel
    simp only [Bool.false_eq_true, if_false]
    rw [wp_bind, hhave]
    refine freeproc_wp rfl (fun t ht => ⟨page', ?_⟩) (pure_wp (callPost_same h false))
    obtain rfl : new' = t := Option.some.inj ht
    exact npages_zero.symm ▸ hs'

theorem cfork_wp (h : im.Ok) (p : Fin NPROC) (contp : Option Nat) : wp (cfork p im contp) CallPost im.res := by
  unfold cfork
  cases contp with
  | none => exact pure_wp (callPost_same h false)
  | some c => exact fork_wp h p (some c)

/-- A call that leaves another address space. -/
theorem callPost_space {page : Page} {t' : PageTable} (sz : Nat) {b : Bool} {g : Multiset Res}
    (hp : im.trapframe = some page) (hsz : sz ≤ NPAGES * PGSIZE) (hs : Shape t' (npages sz) page)
    (hg : g = t'.space (npages sz) + ({.page page} + Img.refs im.ofile)) :
    CallPost { im := { im with pagetable := some t', sz }, ok := b } g := by
  refine ⟨⟨hsz, page, t', hp, rfl, hs⟩, ?_, nofun⟩
  rw [hg, res_eq { im with pagetable := some t', sz } hp rfl]
  abel

theorem growproc_wp (h : im.Ok) (n : Int) : wp (growproc im n) CallPost im.res := by
  obtain ⟨page, t, hp, ht, hs⟩ := h.shape
  have hres : im.res = t.space (npages im.sz) + ({.page page} + Img.refs im.ofile) := by
    rw [res_eq _ hp ht]
    abel
  unfold growproc
  split
  · rename_i hn
    rw [ht] at hn
    cases hn
  rename_i t0 ht0
  obtain rfl : t = t0 := Option.some.inj (ht.symm.trans ht0)
  split
  · rw [wp_bind, hres]
    refine uvmalloc_wp h.sz hs (fun t' hsz hg => ?_) (fun t' hg => ?_)
    · have hs' := hs.grow rfl (npages_le hsz) (npages_mono (Nat.le_max_right ..) hsz) hg
      simp only
      split
      · rename_i h0
        -- the size was 0 and is 0
        have hsz0 : im.sz = 0 := by omega
        rw [h0] at hs' ⊢
        refine pure_wp (callPost_space im.sz hp h.sz ?_ ?_)
        · rw [hsz0]
          exact hs'
        · rw [hsz0]
      · exact pure_wp (callPost_space _ hp hsz hs' rfl)
    · exact pure_wp (callPost_space im.sz hp h.sz (hs.congr hg) rfl)
  · split
    · rw [wp_bind, hres]
      refine uvmdealloc_wp _ _ h.sz hs fun t' hg => ?_
      have hle : min (addInt im.sz n) im.sz ≤ im.sz := Nat.min_le_right ..
      exact pure_wp (callPost_space _ hp (Nat.le_trans hle h.sz) (hs.shrink (npages_mono hle h.sz) hg) rfl)
    · exact pure_wp (callPost_same h true)

theorem exit_wp (h : im.Ok) (p initproc : Fin NPROC) : wp (exit p initproc im) CallPost im.res := by
  obtain ⟨page, t, hp, ht, hs⟩ := h.shape
  unfold exit
  split
  · exact panic_init_wp
  · have hall : (fun i => if i ∈ List.finRange NOFILE then none else im.ofile i) = fun _ => none := by
      funext i
      rw [if_pos (List.mem_finRange i)]
    rw [wp_bind, res_eq _ hp ht, add_comm]
    apply closeFiles_wp
    rw [hall]
    refine pure_wp ⟨⟨h.sz, page, t, hp, ht, hs⟩, ?_, fun _ => rfl⟩
    rw [res_eq { im with ofile := fun _ => none } hp ht, add_comm]

theorem wait_wp (h : im.Ok) (p : Fin NPROC) (addr : Nat) : wp (wait p im addr) CallPost im.res := by
  obtain ⟨page, t, hp, ht, hs⟩ := h.shape
  unfold wait
  split
  · rename_i hn
    rw [ht] at hn
    cases hn
  rw [wp_bind]
  refine reap_wp (fun q pp hpp ho => ?_) (pure_wp (callPost_same h false))
  simp only
  rw [wp_bind]
  refine freeproc_wp ho (fun t ht => ?_) (pure_wp (callPost_same h true))
  obtain ⟨page', t', _, ht', hs'⟩ := hpp.shape
  obtain rfl : t' = t := Option.some.inj (ht'.symm.trans ht)
  exact ⟨page', hs'⟩

end Mem

end Xv6
