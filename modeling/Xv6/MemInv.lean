import Xv6.ExecSpec
import Xv6.Lib.Sum
import Xv6.MemSys

/-!
# Everything has one holder

`Acc` relates the kernel to how often each thing is held by the processes together: a page of the allocator is free, taken at boot,
a pipe, or held once; the count of a file is the number of references to it; an open end of a pipe is one file or about to be closed.
Each operation keeps `Acc`, provided that it takes and gives what `memRule` says (`Acc.exec`).
-/

namespace Xv6

open Function (update)

/-- What a process holds through its slot. -/
def MemSlot.res (x : MemSlot) : Multiset Res :=
  match x.st with
  | .live | .zombie => x.im.res
  | _ => 0

/-- How often `r` is held, by calls and by processes outside a call. -/
def held (slot : Fin NPROC → MemSlot) (own : Fin NPROC → Multiset Res) (r : Res) : Nat :=
  ∑ p, (own p).count r + ∑ q, (slot q).res.count r

/-- `a` is given up and `b` is taken. -/
def Moved (H H' : Res → Nat) (a b : Multiset Res) : Prop := ∀ r, H' r + a.count r = H r + b.count r

theorem held_own (slot : Fin NPROC → MemSlot) {own : Fin NPROC → Multiset Res} {p : Fin NPROC} {a b g : Multiset Res}
    (h : own p = a + g) : Moved (held slot own) (held slot (update own p (b + g))) a b := by
  intro r
  have := sum_update (fun g => Multiset.count r g) own p (b + g)
  simp only [h, Multiset.count_add] at this
  unfold held
  omega

theorem held_slot (slot : Fin NPROC → MemSlot) (own : Fin NPROC → Multiset Res) (q : Fin NPROC) (x : MemSlot) :
    Moved (held slot own) (held (update slot q x) own) (slot q).res x.res := by
  intro r
  have := sum_update (fun x : MemSlot => Multiset.count r x.res) slot q x
  unfold held
  omega

theorem Moved.trans {H H' H'' : Res → Nat} {a b c d : Multiset Res} (h : Moved H H' a b) (h' : Moved H' H'' c d) :
    Moved H H'' (a + c) (b + d) := by
  intro r
  have h1 := h r
  have h2 := h' r
  simp only [Multiset.count_add]
  omega

theorem Moved.cancel {H H' : Res → Nat} {a b c : Multiset Res} (h : Moved H H' (a + c) (b + c)) : Moved H H' a b := by
  intro r
  have := h r
  simp only [Multiset.count_add] at this
  omega

namespace Kernel

/-- An end of a pipe is open. -/
def isOpen (k : Kernel) (pi : Page) (writable : Bool) : Bool :=
  match k.pipe pi with
  | none => false
  | some x => if writable then x.writeopen else x.readopen

/-- The number of files that are this end of a pipe. -/
def ends (k : Kernel) (pi : Page) (writable : Bool) : Nat := ∑ f, if (k.file f).pipe = some (pi, writable) then 1 else 0

theorem ends_setFile (k : Kernel) (f : Fin NFILE) (x : File) (pi : Page) (w : Bool) :
    (k.setFile f x).ends pi w + (if (k.file f).pipe = some (pi, w) then 1 else 0) =
      k.ends pi w + if x.pipe = some (pi, w) then 1 else 0 :=
  sum_update (fun y : File => if y.pipe = some (pi, w) then 1 else 0) k.file f x

end Kernel

/-- What is neither given up nor taken. -/
theorem Moved.same {H H' : Res → Nat} {a b : Multiset Res} (h : Moved H H' a b) {r : Res} (ha : r ∉ a) (hb : r ∉ b) : H' r = H r := by
  have := h r
  rwa [Multiset.count_eq_zero_of_notMem ha, Multiset.count_eq_zero_of_notMem hb] at this

/-- How often a page is held, that of a dead pipe included. -/
def heldPage (H : Res → Nat) (p : Page) : Nat := H (.page p) + H (.dead p)

theorem Moved.samePage {H H' : Res → Nat} {a b : Multiset Res} (h : Moved H H' a b) {p : Page}
    (ha : .page p ∉ a ∧ .dead p ∉ a) (hb : .page p ∉ b ∧ .dead p ∉ b) : heldPage H' p = heldPage H p := by
  rw [heldPage, heldPage, h.same ha.1 hb.1, h.same ha.2 hb.2]

/-- A page of the allocator is free, a pipe, held, or taken at boot. -/
def PageAcc (L : Layout) (k : Kernel) (H : Res → Nat) : Prop :=
  ∀ p, k.free.count p + (if (k.pipe p).isSome then 1 else 0) + heldPage H p + L.boot.val.count p = L.pages.val.count p

/-- The count of a file is the number of references, and each open end of a pipe is one file or about to be closed. -/
structure FileAcc (k : Kernel) (H : Res → Nat) : Prop where
  ref : ∀ f, (k.file f).ref = H (.ref f) + H (.fresh f)
  fresh : ∀ f, 0 < H (.fresh f) → (k.file f).ref = 1 ∧ (k.file f).pipe = none
  untyped : ∀ f, (k.file f).ref = 0 → (k.file f).pipe = none
  pend : ∀ pi w, k.ends pi w + H (.pend pi w) = if k.isOpen pi w then 1 else 0
  opened : ∀ pi x, k.pipe pi = some x → x.readopen = true ∨ x.writeopen = true

/-- A slot that is being set up or freed is held; the others are as their state says. -/
structure SlotAcc [KernelText] (k : Kernel) (H : Res → Nat) : Prop where
  slot : ∀ q, H (.slot q) = if (k.slot q).st = .used then 1 else 0
  blank : ∀ q, (k.slot q).st = .unused → (k.slot q).im = {}
  ok : ∀ q, (k.slot q).st = .live ∨ (k.slot q).st = .zombie → (k.slot q).im.Ok
  closed : ∀ q, (k.slot q).st = .zombie → (k.slot q).im.ofile = fun _ => none
  nodup : k.unused.Nodup
  unused : ∀ q ∈ k.unused, (k.slot q).st = .unused

structure Acc (L : Layout) (k : Kernel) (H : Res → Nat) : Prop where
  pages : PageAcc L k H
  files : FileAcc k H
  slots : SlotAcc k H

variable {L : Layout} {k k' : Kernel} {H H' : Res → Nat}

theorem PageAcc.congr (h : PageAcc L k H) (hf : k'.free = k.free) (hp : k'.pipe = k.pipe) (hH : ∀ p, heldPage H' p = heldPage H p) :
    PageAcc L k' H' := by
  intro p
  rw [hf, hp, hH]
  exact h p

theorem FileAcc.congr (h : FileAcc k H) (hf : k'.file = k.file) (hp : k'.pipe = k.pipe)
    (hH : ∀ f, H' (.ref f) = H (.ref f) ∧ H' (.fresh f) = H (.fresh f)) (hend : ∀ pi w, H' (.pend pi w) = H (.pend pi w)) :
    FileAcc k' H' where
  ref f := by rw [hf, (hH f).1, (hH f).2, h.ref]
  fresh f := by
    rw [hf, (hH f).2]
    exact h.fresh f
  untyped f := by
    rw [hf]
    exact h.untyped f
  pend pi w := by
    have he : k'.ends pi w = k.ends pi w := by rw [Kernel.ends, hf, Kernel.ends]
    have ho : k'.isOpen pi w = k.isOpen pi w := by rw [Kernel.isOpen, hp, Kernel.isOpen]
    rw [he, ho, hend, h.pend]
  opened pi := by
    rw [hp]
    exact h.opened pi

/-- One file changes. -/
theorem FileAcc.setFile (h : FileAcc k H) {f : Fin NFILE} {x : File} (href : x.ref = H' (.ref f) + H' (.fresh f))
    (hfresh : 0 < H' (.fresh f) → x.ref = 1 ∧ x.pipe = none) (hun : x.ref = 0 → x.pipe = none)
    (hother : ∀ i, i ≠ f → H' (.ref i) = H (.ref i) ∧ H' (.fresh i) = H (.fresh i))
    (hend : ∀ pi w, H' (.pend pi w) + (if x.pipe = some (pi, w) then 1 else 0) =
      H (.pend pi w) + if (k.file f).pipe = some (pi, w) then 1 else 0) : FileAcc (k.setFile f x) H' := by
  have hself : (k.setFile f x).file f = x := Function.update_self ..
  have hne : ∀ i, i ≠ f → (k.setFile f x).file i = k.file i := fun i hi => Function.update_of_ne hi ..
  refine ⟨fun i => ?_, fun i => ?_, fun i => ?_, fun pi w => ?_, h.opened⟩
  · by_cases hi : i = f
    · rw [hi, hself, href]
    · rw [hne i hi, (hother i hi).1, (hother i hi).2, h.ref]
  · by_cases hi : i = f
    · rw [hi, hself]
      exact hfresh
    · rw [hne i hi, (hother i hi).2]
      exact h.fresh i
  · by_cases hi : i = f
    · rw [hi, hself]
      exact hun
    · rw [hne i hi]
      exact h.untyped i
  · have h1 := h.pend pi w
    have h2 := k.ends_setFile f x pi w
    have h3 := hend pi w
    rw [show (k.setFile f x).isOpen pi w = k.isOpen pi w from rfl]
    omega

theorem SlotAcc.congr (h : SlotAcc k H) (hs : k'.slot = k.slot) (hu : k'.unused = k.unused)
    (hH : ∀ q, H' (.slot q) = H (.slot q)) : SlotAcc k' H' where
  slot q := by rw [hs, hH, h.slot]
  blank q := by
    rw [hs]
    exact h.blank q
  ok q := by
    rw [hs]
    exact h.ok q
  closed q := by
    rw [hs]
    exact h.closed q
  nodup := hu.symm ▸ h.nodup
  unused q hq := by
    rw [hs]
    exact h.unused q (hu ▸ hq)

namespace Acc

/-! ### Pages -/

theorem kalloc (h : Acc L k H) {page : Page} {pages : List Page} (hf : k.free = page :: pages) (hm : Moved H H' 0 {.page page}) :
    Acc L { k with free := pages } H' where
  pages p := by
    have h1 := h.pages p
    have h2 := hm (.page p)
    have h3 : H' (.dead p) = H (.dead p) := hm.same (by simp) (by simp)
    simp only [hf, List.count_cons, beq_iff_eq, heldPage] at h1
    simp only [Multiset.count_zero, Multiset.count_singleton, Res.page.injEq] at h2
    simp only [heldPage]
    grind
  files := h.files.congr rfl rfl (fun f => ⟨hm.same (by simp) (by simp), hm.same (by simp) (by simp)⟩)
    fun pi w => hm.same (by simp) (by simp)
  slots := h.slots.congr rfl rfl fun q => hm.same (by simp) (by simp)

theorem heldPage_le (h : Acc L k H) (page : Page) : heldPage H page ≤ 1 := by
  have h1 := h.pages page
  have h2 : Multiset.count page L.pages.val ≤ 1 := Multiset.nodup_iff_count_le_one.1 L.pages.nodup page
  omega

/-- A page that is held is in the range of the allocator. -/
theorem mem_pages (h : Acc L k H) {page : Page} (hH : 0 < heldPage H page) : page ∈ L.pages := by
  have := h.pages page
  exact Multiset.count_pos.1 (by omega : 0 < Multiset.count page L.pages.val)

theorem kfree (h : Acc L k H) {page : Page} {a : Res} (ha : a = .page page ∨ a = .dead page) (hm : Moved H H' {a} 0) :
    Acc L { k with free := page :: k.free } H' where
  pages p := by
    have h1 := h.pages p
    have h2 := hm (.page p)
    have h3 := hm (.dead p)
    simp only [heldPage] at h1
    simp only [List.count_cons, beq_iff_eq, heldPage]
    rcases ha with rfl | rfl
    · simp only [Multiset.count_zero, Multiset.count_singleton, Res.page.injEq, reduceCtorEq, if_false] at h2 h3
      grind
    · simp only [Multiset.count_zero, Multiset.count_singleton, Res.dead.injEq, reduceCtorEq, if_false] at h2 h3
      grind
  files := by
    refine h.files.congr rfl rfl (fun f => ⟨hm.same ?_ (by simp), hm.same ?_ (by simp)⟩) fun pi w => hm.same ?_ (by simp)
    all_goals rcases ha with rfl | rfl <;> simp
  slots := h.slots.congr rfl rfl fun q => hm.same (by rcases ha with rfl | rfl <;> simp) (by simp)

/-! ### Files -/

theorem setFile_pages (h : Acc L k H) {f : Fin NFILE} {x : File} (hH : ∀ p, heldPage H' p = heldPage H p) :
    PageAcc L (k.setFile f x) H' :=
  h.pages.congr rfl rfl hH

theorem setFile_slots (h : Acc L k H) {f : Fin NFILE} {x : File} (hH : ∀ q, H' (.slot q) = H (.slot q)) :
    SlotAcc (k.setFile f x) H' :=
  h.slots.congr rfl rfl hH

theorem filealloc (h : Acc L k H) {f : Fin NFILE} {x : File} (hx : x.ref = 1 ∧ x.pipe = (k.file f).pipe) (h0 : (k.file f).ref = 0)
    (hm : Moved H H' 0 {.fresh f}) : Acc L (k.setFile f x) H' where
  pages := h.setFile_pages fun p => hm.samePage (by simp) (by simp)
  slots := h.setFile_slots fun q => hm.same (by simp) (by simp)
  files := by
    have href := h.files.ref f
    have hpipe := hx.2.trans (h.files.untyped f h0)
    have hf := hm (.fresh f)
    have hr : H' (.ref f) = H (.ref f) := hm.same (by simp) (by simp)
    simp only [Multiset.count_zero, Multiset.count_singleton_self] at hf
    refine h.files.setFile (by omega) (fun _ => ⟨hx.1, hpipe⟩) (fun _ => hpipe) (fun i hi => ⟨?_, ?_⟩) (fun pi w => ?_)
    · exact hm.same (by simp) (by simp)
    · exact hm.same (by simp) (by simpa using hi)
    · rw [hm.same (by simp) (by simp), hx.2]

theorem filedup (h : Acc L k H) {f : Fin NFILE} {x : File} (hx : x.ref = (k.file f).ref + 1 ∧ x.pipe = (k.file f).pipe)
    (hf : 0 < H (.ref f)) (hm : Moved H H' 0 {.ref f}) : Acc L (k.setFile f x) H' where
  pages := h.setFile_pages fun p => hm.samePage (by simp) (by simp)
  slots := h.setFile_slots fun q => hm.same (by simp) (by simp)
  files := by
    have href := h.files.ref f
    have hr := hm (.ref f)
    have hfr : H' (.fresh f) = H (.fresh f) := hm.same (by simp) (by simp)
    simp only [Multiset.count_zero, Multiset.count_singleton_self] at hr
    refine h.files.setFile (by omega) (fun hpos => ?_) (fun h0 => by omega) (fun i hi => ⟨?_, ?_⟩) (fun pi w => ?_)
    · -- a file with another reference is not fresh
      have := (h.files.fresh f (by omega)).1
      omega
    · exact hm.same (by simp) (by simpa using hi)
    · exact hm.same (by simp) (by simp)
    · rw [hm.same (by simp) (by simp), hx.2]

/-- `fileclose` of a file that has other references. -/
theorem fileput (h : Acc L k H) {f : Fin NFILE} {x : File} (hx : x.ref = (k.file f).ref - 1 ∧ x.pipe = (k.file f).pipe)
    (hf : 1 < (k.file f).ref) (hm : Moved H H' {.ref f} 0) : Acc L (k.setFile f x) H' where
  pages := h.setFile_pages fun p => hm.samePage (by simp) (by simp)
  slots := h.setFile_slots fun q => hm.same (by simp) (by simp)
  files := by
    have href := h.files.ref f
    have hr := hm (.ref f)
    have hfr : H' (.fresh f) = H (.fresh f) := hm.same (by simp) (by simp)
    simp only [Multiset.count_zero, Multiset.count_singleton_self] at hr
    refine h.files.setFile (by omega) (fun hpos => ?_) (fun h0 => by omega) (fun i hi => ⟨?_, ?_⟩) (fun pi w => ?_)
    · have := (h.files.fresh f (by omega)).1
      omega
    · exact hm.same (by simpa using hi) (by simp)
    · exact hm.same (by simp) (by simp)
    · rw [hm.same (by simp) (by simp), hx.2]

/-- `fileclose` of the last reference, which leaves the end of a pipe to be closed. -/
theorem fileput_last (h : Acc L k H) {f : Fin NFILE} (hf : (k.file f).ref = 1) {a : Res} (ha : a = .ref f ∨ a = .fresh f)
    (hm : Moved H H' {a} ((k.file f).pipe.elim 0 fun e => {.pend e.1 e.2})) : Acc L (k.setFile f {}) H' := by
  have hpend : ∀ pi w, Multiset.count (.pend pi w) ((k.file f).pipe.elim 0 fun e => {.pend e.1 e.2} : Multiset Res) =
      if (k.file f).pipe = some (pi, w) then 1 else 0 := by
    intro pi w
    cases (k.file f).pipe with
    | none => simp
    | some e => simp [Multiset.count_singleton, Prod.ext_iff, eq_comm]
  have hnot : ∀ r, (∀ pi w, r ≠ .pend pi w) → r ∉ ((k.file f).pipe.elim 0 fun e => {.pend e.1 e.2} : Multiset Res) := by
    intro r hr
    cases (k.file f).pipe with
    | none => simp
    | some e => simpa using hr e.1 e.2
  have hsame : ∀ r, r ≠ a → (∀ pi w, r ≠ .pend pi w) → H' r = H r := fun r hr hr' => hm.same (by simpa using hr) (hnot r hr')
  have hself : H' a + 1 = H a := by
    have := hm a
    rwa [Multiset.count_singleton_self, Multiset.count_eq_zero_of_notMem (hnot a (by rintro pi w rfl; simp at ha))] at this
  have hzero : H' (.ref f) + H' (.fresh f) = 0 := by
    have href := h.files.ref f
    rcases ha with rfl | rfl
    · have := hsame (.fresh f) (by simp) (by simp)
      omega
    · have := hsame (.ref f) (by simp) (by simp)
      omega
  refine ⟨h.setFile_pages fun p => ?_, ?_, h.setFile_slots fun q => ?_⟩
  · rw [heldPage, heldPage, hsame _ (by rcases ha with rfl | rfl <;> simp) (by simp),
      hsame _ (by rcases ha with rfl | rfl <;> simp) (by simp)]
  · refine h.files.setFile (x := {}) hzero.symm (fun _ => by omega) (fun _ => rfl) (fun i hi => ⟨?_, ?_⟩) (fun pi w => ?_)
    · exact hsame _ (by rcases ha with rfl | rfl <;> simp [hi]) (by simp)
    · exact hsame _ (by rcases ha with rfl | rfl <;> simp [hi]) (by simp)
    · have h3 := hm (.pend pi w)
      have h4 : Multiset.count (.pend pi w) ({a} : Multiset Res) = 0 :=
        Multiset.count_eq_zero_of_notMem (by rcases ha with rfl | rfl <;> simp)
      rw [h4, hpend] at h3
      simpa using h3
  · exact hsame _ (by rcases ha with rfl | rfl <;> simp) (by simp)

theorem fileopen (h : Acc L k H) {f : Fin NFILE} {x : File} (hx : x.ref = (k.file f).ref ∧ x.pipe = (k.file f).pipe)
    (hm : Moved H H' {.fresh f} {.ref f}) : Acc L (k.setFile f x) H' where
  pages := h.setFile_pages fun p => hm.samePage (by simp) (by simp)
  slots := h.setFile_slots fun q => hm.same (by simp) (by simp)
  files := by
    have href := h.files.ref f
    have hr : H' (.ref f) = H (.ref f) + 1 := by simpa [Multiset.count_singleton] using hm (.ref f)
    have hf : H' (.fresh f) + 1 = H (.fresh f) := by simpa [Multiset.count_singleton] using hm (.fresh f)
    have h1 := h.files.fresh f (by omega)
    refine h.files.setFile (by omega) (fun hpos => by omega) (fun h0 => by omega) (fun i hi => ⟨?_, ?_⟩) (fun pi w => ?_)
    · exact hm.same (by simp) (by simpa using hi)
    · exact hm.same (by simpa using hi) (by simp)
    · rw [hm.same (by simp) (by simp), hx.2]

/-! ### Pipes -/

/-- A page that is held is not a pipe. -/
theorem pipe_none (h : Acc L k H) {pi : Page} (hH : 0 < heldPage H pi) : k.pipe pi = none := by
  have h1 := h.pages pi
  have h2 : Multiset.count pi L.pages.val ≤ 1 := Multiset.nodup_iff_count_le_one.1 L.pages.nodup pi
  cases hp : k.pipe pi with
  | none => rfl
  | some x =>
    rw [hp, Option.isSome_some, if_pos rfl] at h1
    omega

theorem isOpen_none {k : Kernel} {pi : Page} (h : k.pipe pi = none) (w : Bool) : k.isOpen pi w = false := by
  rw [Kernel.isOpen, h]

theorem setPipe_pages (h : Acc L k H) {pi : Page} {x : Option PipeEnds}
    (hpi : (if x.isSome then 1 else 0) + heldPage H' pi = (if (k.pipe pi).isSome then 1 else 0) + heldPage H pi)
    (hother : ∀ p, p ≠ pi → heldPage H' p = heldPage H p) : PageAcc L (k.setPipe pi x) H' := by
  intro p
  have h1 := h.pages p
  by_cases hp : p = pi
  · subst hp
    have : (k.setPipe p x).pipe p = x := Function.update_self ..
    rw [this]
    change k.free.count p + _ + _ + _ = _
    omega
  · have : (k.setPipe pi x).pipe p = k.pipe p := Function.update_of_ne hp ..
    rw [this, hother p hp]
    exact h1

theorem pipeinit (h : Acc L k H) {f0 f1 : Fin NFILE} {pi : Page}
    (hm : Moved H H' ({.fresh f0} + {.fresh f1} + {.page pi}) ({.ref f0} + {.ref f1})) :
    Acc L (((k.setFile f0 { k.file f0 with pipe := some (pi, false) }).setFile f1
      { (k.setFile f0 { k.file f0 with pipe := some (pi, false) }).file f1 with pipe := some (pi, true) }).setPipe pi (some {})) H' := by
  have hfresh : ∀ i, H' (.fresh i) + (if i = f0 then 1 else 0) + (if i = f1 then 1 else 0) = H (.fresh i) := fun i => by
    have := hm (.fresh i)
    simp only [Multiset.count_add, Multiset.count_singleton, Res.fresh.injEq, reduceCtorEq, if_false, add_zero] at this
    omega
  have href : ∀ i, H' (.ref i) = H (.ref i) + (if i = f0 then 1 else 0) + (if i = f1 then 1 else 0) := fun i => by
    have := hm (.ref i)
    simp only [Multiset.count_add, Multiset.count_singleton, Res.ref.injEq, reduceCtorEq, if_false, add_zero] at this
    omega
  have hpage : ∀ p, heldPage H' p + (if p = pi then 1 else 0) = heldPage H p := fun p => by
    have hd : H' (.dead p) = H (.dead p) := hm.same (by simp) (by simp)
    have := hm (.page p)
    simp only [Multiset.count_add, Multiset.count_singleton, Res.page.injEq, reduceCtorEq, if_false, add_zero, zero_add] at this
    simp only [heldPage]
    omega
  have h0 := h.files.fresh f0 (by have := hfresh f0; rw [if_pos rfl] at this; omega)
  have h1 := h.files.fresh f1 (by have := hfresh f1; rw [if_pos rfl] at this; omega)
  have hne : f1 ≠ f0 := by
    rintro rfl
    have ha := hfresh f1
    have hb := h.files.ref f1
    rw [if_pos rfl] at ha
    omega
  have hpi : k.pipe pi = none := h.pipe_none (by have := hpage pi; rw [if_pos rfl] at this; omega)
  have hfile1 : (k.setFile f0 { k.file f0 with pipe := some (pi, false) }).file f1 = k.file f1 := Function.update_of_ne hne ..
  rw [hfile1]
  generalize hk' : ((k.setFile f0 { k.file f0 with pipe := some (pi, false) }).setFile f1
    { k.file f1 with pipe := some (pi, true) }) = k'
  have hfile : ∀ i, (k'.file i).ref = (k.file i).ref ∧
      ((k'.file i).pipe = if i = f1 then some (pi, true) else if i = f0 then some (pi, false) else (k.file i).pipe) := by
    intro i
    rw [← hk']
    simp only [Kernel.setFile, Function.update_apply]
    grind
  have hends : ∀ pj w, k'.ends pj w = k.ends pj w + if pj = pi then 1 else 0 := by
    intro pj w
    have e0 := k.ends_setFile f0 { k.file f0 with pipe := some (pi, false) } pj w
    have e1 := (k.setFile f0 { k.file f0 with pipe := some (pi, false) }).ends_setFile f1 { k.file f1 with pipe := some (pi, true) } pj w
    rw [hk', hfile1, h1.2] at e1
    rw [h0.2] at e0
    simp only [reduceCtorEq, if_false, Option.some.injEq, Prod.mk.injEq, eq_comm (a := pi)] at e0 e1
    by_cases hj : pj = pi
    · cases w <;> simp [hj] at e0 e1 ⊢ <;> omega
    · simp only [hj, false_and, if_false] at e0 e1 ⊢
      omega
  have hopen : ∀ pj w, (k'.setPipe pi (some {})).isOpen pj w = if pj = pi then true else k.isOpen pj w := by
    intro pj w
    rw [← hk']
    by_cases hj : pj = pi
    · rw [if_pos hj, hj, Kernel.isOpen]
      simp [Kernel.setPipe]
    · rw [if_neg hj, Kernel.isOpen, Kernel.isOpen]
      simp [Kernel.setPipe, Function.update_of_ne hj, Kernel.setFile]
  have hpages : PageAcc L (k.setPipe pi (some {})) H' := by
    refine h.setPipe_pages ?_ fun p hp => ?_
    · have := hpage pi
      rw [if_pos rfl] at this
      simp only [hpi, Option.isSome_none, Option.isSome_some, if_true, Bool.false_eq_true, if_false]
      omega
    · have := hpage p
      rwa [if_neg hp] at this
  refine ⟨hpages.congr (by rw [← hk']; rfl) (by rw [← hk']; rfl) (fun _ => rfl), ⟨fun i => ?_, fun i hi => ?_, fun i hi => ?_,
    fun pj w => ?_, fun pj x hx => ?_⟩, h.slots.congr (by rw [← hk']; rfl) (by rw [← hk']; rfl) fun q => hm.same (by simp) (by simp)⟩
  · have ha := h.files.ref i
    have hb := hfresh i
    have hc := href i
    rw [show ((k'.setPipe pi (some {})).file i).ref = (k.file i).ref from (hfile i).1]
    omega
  · have ha := h.files.ref i
    have hb := hfresh i
    have hc := h.files.fresh i (by omega)
    have h0i : i ≠ f0 := by
      rintro rfl
      rw [if_pos rfl] at hb
      omega
    have h1i : i ≠ f1 := by
      rintro rfl
      rw [if_pos rfl] at hb
      omega
    refine ⟨(hfile i).1.trans hc.1, (hfile i).2.trans ?_⟩
    rw [if_neg h1i, if_neg h0i, hc.2]
  · have hi' : (k.file i).ref = 0 := (hfile i).1.symm.trans hi
    have h0i : i ≠ f0 := by
      rintro rfl
      omega
    have h1i : i ≠ f1 := by
      rintro rfl
      omega
    refine (hfile i).2.trans ?_
    rw [if_neg h1i, if_neg h0i, h.files.untyped i hi']
  · have ha := h.files.pend pj w
    have hb : H' (.pend pj w) = H (.pend pj w) := hm.same (by simp) (by simp)
    rw [hopen, hb, show (k'.setPipe pi (some {})).ends pj w = k'.ends pj w from rfl, hends]
    by_cases hj : pj = pi
    · rw [hj, isOpen_none hpi] at ha
      rw [if_pos hj, if_pos hj, hj]
      simp only [Bool.false_eq_true, if_false] at ha
      simp only [if_true]
      omega
    · rw [if_neg hj, if_neg hj]
      omega
  · by_cases hj : pj = pi
    · subst hj
      have : (k'.setPipe pj (some {})).pipe pj = some {} := Function.update_self ..
      rw [this] at hx
      cases hx
      exact .inl rfl
    · have : (k'.setPipe pi (some {})).pipe pj = k.pipe pj := by
        rw [← hk']
        exact Function.update_of_ne hj ..
      rw [this] at hx
      exact h.files.opened pj x hx

/-- An end that is about to be closed belongs to a pipe. -/
theorem exists_pipe (h : Acc L k H) {pi : Page} {w : Bool} (hH : 0 < H (.pend pi w)) : ∃ x, k.pipe pi = some x := by
  have h1 := h.files.pend pi w
  cases hp : k.pipe pi with
  | none =>
    rw [isOpen_none hp] at h1
    simp only [Bool.false_eq_true, if_false] at h1
    omega
  | some x => exact ⟨x, rfl⟩

theorem isOpen_closeEnd (k : Kernel) {pi : Page} {x : PipeEnds} (hx : k.pipe pi = some x) (w : Bool) (pj : Page) (v : Bool) :
    (k.setPipe pi (some (Kernel.closeEnd x w))).isOpen pj v = if pj = pi ∧ v = w then false else k.isOpen pj v := by
  by_cases hj : pj = pi
  · subst hj
    simp only [Kernel.isOpen, Kernel.setPipe, Function.update_self, hx]
    cases v <;> cases w <;> simp [Kernel.closeEnd]
  · rw [if_neg (fun h => hj h.1)]
    simp only [Kernel.isOpen, Kernel.setPipe, Function.update_of_ne hj]

theorem pipeclose_files (h : Acc L k H) {pi : Page} {w : Bool} {y : Option PipeEnds}
    (hy : ∀ z, y = some z → z.readopen = true ∨ z.writeopen = true)
    (hopen : ∀ pj v, (k.setPipe pi y).isOpen pj v = if pj = pi ∧ v = w then false else k.isOpen pj v)
    (hf : ∀ f, H' (.ref f) = H (.ref f) ∧ H' (.fresh f) = H (.fresh f))
    (he : ∀ pj v, H' (.pend pj v) + (if pj = pi ∧ v = w then 1 else 0) = H (.pend pj v)) : FileAcc (k.setPipe pi y) H' where
  ref f := by
    rw [(hf f).1, (hf f).2]
    exact h.files.ref f
  fresh f := by
    rw [(hf f).2]
    exact h.files.fresh f
  untyped := h.files.untyped
  pend pj v := by
    have h1 := h.files.pend pj v
    have h2 := he pj v
    rw [hopen, show (k.setPipe pi y).ends pj v = k.ends pj v from rfl]
    by_cases hj : pj = pi ∧ v = w
    · rw [if_pos hj] at h2 ⊢
      split at h1 <;> simp <;> omega
    · rw [if_neg hj] at h2 ⊢
      omega
  opened pj z hz := by
    by_cases hj : pj = pi
    · subst hj
      have : (k.setPipe pj y).pipe pj = y := Function.update_self ..
      rw [this] at hz
      exact hy z hz
    · have : (k.setPipe pi y).pipe pj = k.pipe pj := Function.update_of_ne hj ..
      rw [this] at hz
      exact h.files.opened pj z hz


theorem pipeclose (h : Acc L k H) {pi : Page} {w : Bool} {x : PipeEnds} (hx : k.pipe pi = some x)
    (hc : (Kernel.closeEnd x w).readopen = true ∨ (Kernel.closeEnd x w).writeopen = true) (hm : Moved H H' {.pend pi w} 0) :
    Acc L (k.setPipe pi (some (Kernel.closeEnd x w))) H' where
  pages := by
    refine h.setPipe_pages ?_ fun p _ => hm.samePage (by simp) (by simp)
    rw [hm.samePage (by simp) (by simp), hx]
    rfl
  files := by
    refine h.pipeclose_files (w := w) (fun z hz => ?_) (isOpen_closeEnd k hx w) (fun f => ⟨?_, ?_⟩) fun pj v => ?_
    · cases hz
      exact hc
    · exact hm.same (by simp) (by simp)
    · exact hm.same (by simp) (by simp)
    · simpa [Multiset.count_singleton] using hm (.pend pj v)
  slots := h.slots.congr rfl rfl fun q => hm.same (by simp) (by simp)

/-- The other end was closed before: the page of the pipe is the caller's. -/
theorem pipeclose_last (h : Acc L k H) {pi : Page} {w : Bool} {x : PipeEnds} (hx : k.pipe pi = some x)
    (hc : (Kernel.closeEnd x w).readopen = false ∧ (Kernel.closeEnd x w).writeopen = false)
    (hm : Moved H H' {.pend pi w} {.dead pi}) : Acc L (k.setPipe pi none) H' where
  pages := by
    have hpi : H' (.dead pi) = H (.dead pi) + 1 := by simpa [Multiset.count_singleton] using hm (.dead pi)
    have hpage : H' (.page pi) = H (.page pi) := hm.same (by simp) (by simp)
    refine h.setPipe_pages ?_ fun p hp => hm.samePage (by simp) (by simpa using hp)
    rw [heldPage, heldPage, hpi, hpage, hx]
    simp only [Option.isSome_none, Option.isSome_some, Bool.false_eq_true, if_false, if_true]
    omega
  files := by
    refine h.pipeclose_files (w := w) (fun z hz => by cases hz) (fun pj v => ?_) (fun f => ⟨?_, ?_⟩) fun pj v => ?_
    · have hclose := isOpen_closeEnd k hx w pj v
      rw [← hclose]
      by_cases hj : pj = pi
      · subst hj
        simp only [Kernel.isOpen, Kernel.setPipe, Function.update_self, hc.1, hc.2, ite_self]
      · simp only [Kernel.isOpen, Kernel.setPipe, Function.update_of_ne hj]
    · exact hm.same (by simp) (by simp)
    · exact hm.same (by simp) (by simp)
    · simpa [Multiset.count_singleton] using hm (.pend pj v)
  slots := h.slots.congr rfl rfl fun q => hm.same (by simp) (by simp)

/-! ### Slots -/

/-- The slot of `q` changes, and maybe the list of unused ones. -/
theorem setSlot (h : Acc L k H) {q : Fin NPROC} {x : MemSlot} {unused : List (Fin NPROC)}
    (hsame : ∀ r, (∀ i, r ≠ .slot i) → H' r = H r) (hother : ∀ i, i ≠ q → H' (.slot i) = H (.slot i))
    (hq : H' (.slot q) = if x.st = .used then 1 else 0) (hblank : x.st = .unused → x.im = {})
    (hok : x.st = .live ∨ x.st = .zombie → x.im.Ok) (hclosed : x.st = .zombie → x.im.ofile = fun _ => none)
    (hn : unused.Nodup) (hu : ∀ i ∈ unused, if i = q then x.st = .unused else i ∈ k.unused) :
    Acc L { k.setSlot q x with unused := unused } H' := by
  have hself : (k.setSlot q x).slot q = x := Function.update_self ..
  have hne : ∀ i, i ≠ q → (k.setSlot q x).slot i = k.slot i := fun i hi => Function.update_of_ne hi ..
  refine ⟨h.pages.congr rfl rfl fun p => by rw [heldPage, heldPage, hsame _ (by simp), hsame _ (by simp)],
    h.files.congr rfl rfl (fun f => ⟨hsame _ (by simp), hsame _ (by simp)⟩) fun pi w => hsame _ (by simp),
    ⟨fun i => ?_, fun i => ?_, fun i => ?_, fun i => ?_, hn, fun i hi => ?_⟩⟩
  all_goals
    by_cases hi' : i = q
    · subst hi'
      simp only [hself]
      first | exact hq | exact hblank | exact hok | exact hclosed | (have hi := hu i hi; rwa [if_pos rfl] at hi)
    · simp only [hne i hi']
      first | exact (hother i hi').trans (h.slots.slot i) | exact h.slots.blank i | exact h.slots.ok i | exact h.slots.closed i | (have hi := hu i hi; rw [if_neg hi'] at hi; exact h.slots.unused i hi)

theorem slotalloc (h : Acc L k H) {q : Fin NPROC} {qs : List (Fin NPROC)} (hu : k.unused = q :: qs) (hm : Moved H H' 0 {.slot q}) :
    Acc L { k.setSlot q { k.slot q with st := .used } with unused := qs } H' := by
  have hst := h.slots.unused q (hu ▸ List.mem_cons_self)
  have hslot := h.slots.slot q
  have hnodup := hu ▸ h.slots.nodup
  obtain ⟨hq, hqs⟩ := List.nodup_cons.1 hnodup
  rw [hst] at hslot
  refine h.setSlot (fun r hr => hm.same (by simp) (by simpa using hr q)) (fun i hi => hm.same (by simp) (by simpa using hi)) ?_
    (fun h => by simp at h) (fun h => by simp at h) (fun h => by simp at h) hqs (fun i hi => ?_)
  · have := hm (.slot q)
    rw [hslot] at this
    simpa using this
  · rw [if_neg (by rintro rfl; exact hq hi), hu]
    exact List.mem_cons_of_mem q hi

/-- A slot that is held is being set up or freed. -/
theorem st_used (h : Acc L k H) {q : Fin NPROC} (hH : 0 < H (.slot q)) : (k.slot q).st = .used := by
  have := h.slots.slot q
  by_contra hst
  rw [if_neg hst] at this
  omega

theorem slotfree (h : Acc L k H) {q : Fin NPROC} (hm : Moved H H' {.slot q} 0) :
    Acc L { k.setSlot q ⟨.unused, {}, none⟩ with unused := k.unused ++ [q] } H' := by
  have hq : H' (.slot q) + 1 = H (.slot q) := by simpa using hm (.slot q)
  have hst := h.st_used (q := q) (by omega)
  have hslot := h.slots.slot q
  rw [if_pos hst] at hslot
  refine h.setSlot (fun r hr => hm.same (by simpa using hr q) (by simp)) (fun i hi => hm.same (by simpa using hi) (by simp)) ?_
    (fun _ => rfl) (fun h => by simp at h) (fun h => by simp at h) ?_ (fun i hi => ?_)
  · simp only [reduceCtorEq, if_false]
    omega
  · refine List.Nodup.append h.slots.nodup (List.nodup_singleton q) ?_
    intro i hi hiq
    rw [List.mem_singleton.1 hiq] at hi
    rw [h.slots.unused q hi] at hst
    cases hst
  · split
    · rfl
    · rename_i hne
      simpa [hne] using hi

theorem publish (h : Acc L k H) {q : Fin NPROC} {im : Img} (him : im.Ok) (parent : Option (Fin NPROC)) (hm : Moved H H' {.slot q} 0) :
    Acc L (k.setSlot q ⟨.live, im, parent⟩) H' := by
  have hq : H' (.slot q) + 1 = H (.slot q) := by simpa using hm (.slot q)
  have hst := h.st_used (q := q) (by omega)
  have hslot := h.slots.slot q
  rw [if_pos hst] at hslot
  refine h.setSlot (fun r hr => hm.same (by simpa using hr q) (by simp)) (fun i hi => hm.same (by simpa using hi) (by simp)) ?_
    (fun h => by simp at h) (fun _ => him) (fun h => by simp at h) h.slots.nodup (fun i hi => ?_)
  · simp only [reduceCtorEq, if_false]
    omega
  · rw [if_neg]
    · exact hi
    · rintro rfl
      rw [h.slots.unused i hi] at hst
      cases hst

theorem reap (h : Acc L k H) {q : Fin NPROC} (hz : (k.slot q).st = .zombie) (hm : Moved H H' 0 {.slot q}) :
    Acc L (k.setSlot q { k.slot q with st := .used }) H' := by
  have hslot := h.slots.slot q
  rw [hz] at hslot
  refine h.setSlot (fun r hr => hm.same (by simp) (by simpa using hr q)) (fun i hi => hm.same (by simp) (by simpa using hi)) ?_
    (fun h => by simp at h) (fun h => by simp at h) (fun h => by simp at h) h.slots.nodup (fun i hi => ?_)
  · have := hm (.slot q)
    rw [hslot] at this
    simpa using this
  · rw [if_neg]
    · exact hi
    · rintro rfl
      rw [h.slots.unused i hi] at hz
      cases hz

/-! ### One operation -/

theorem count_pages (g : Multiset Res) (p : Page) : (Res.pages g).count p = g.count (.page p) := by
  induction g using Multiset.induction with
  | empty => rfl
  | cons r g ih =>
    rw [← Multiset.singleton_add, Res.pages_add, Multiset.count_add, Multiset.count_add, ih]
    cases r with
    | page q => simp [Multiset.count_singleton]
    | ref f => simp [Res.pages, Res.toPage]
    | fresh f => simp [Res.pages, Res.toPage]
    | pend pi w => simp [Res.pages, Res.toPage]
    | dead pi => simp [Res.pages, Res.toPage]
    | slot q => simp [Res.pages, Res.toPage]

theorem card_pages_le (L : Layout) : L.pages.card ≤ NPAGES := by
  have hk := L.kend_ge
  have hN : NPAGES = PHYSTOP / PGSIZE - KERNBASE / PGSIZE := by decide
  have hle : KERNBASE / PGSIZE ≤ (L.kend + PGSIZE - 1) / PGSIZE := Nat.div_le_div_right (by simp only [PGSIZE]; omega)
  rw [Layout.pages, Nat.card_Ico, hN]
  omega

variable {own : Fin NPROC → Multiset Res} {p : Fin NPROC}

theorem le_held (slot : Fin NPROC → MemSlot) (own : Fin NPROC → Multiset Res) (p : Fin NPROC) (r : Res) :
    (own p).count r ≤ held slot own r :=
  Nat.le_trans (le_sum (fun g => Multiset.count r g) own p) (Nat.le_add_right ..)

/-- There is room for a page that is still free. -/
theorem card_pages_lt (h : Acc L k (held k.slot own)) {page : Page} {pages : List Page} (hf : k.free = page :: pages) :
    Multiset.card (Res.pages (own p)) < NPAGES := by
  have hle : {page} + Res.pages (own p) ≤ L.pages.val := by
    apply Multiset.le_iff_count.2
    intro i
    have h1 := h.pages i
    have h2 := le_held k.slot own p (.page i)
    rw [hf, List.count_cons, heldPage] at h1
    rw [Multiset.count_add, Multiset.count_singleton, count_pages]
    simp only [beq_iff_eq, eq_comm (a := page)] at h1
    omega
  have hcard := Multiset.card_le_card hle
  have := card_pages_le L
  rw [Multiset.card_add, Multiset.card_singleton] at hcard
  change _ ≤ L.pages.card at hcard
  omega

theorem held_pos {slot : Fin NPROC → MemSlot} {r : Res} (h : r ∈ own p) : 0 < held slot own r :=
  Nat.lt_of_lt_of_le (Multiset.count_pos.2 h) (le_held slot own p r)

theorem heldPage_pos {slot : Fin NPROC → MemSlot} {page : Page} (h : .page page ∈ own p ∨ .dead page ∈ own p) :
    0 < heldPage (held slot own) page := by
  rcases h with h | h
  · exact Nat.add_pos_left (held_pos h) _
  · exact Nat.add_pos_right _ (held_pos h)

/-- The pages of dead pipes that an operation frees. -/
def deadOut (H : Res → Nat) : MemOp → Page → Nat
  | .kfree page, pi => if page = pi then H (.dead pi) else 0
  | _, _ => 0

/-- The pages of pipes both of whose ends an operation leaves closed. -/
def deadIn : (o : MemOp) → o.Ans → Page → Nat
  | .pipeclose page _, true, pi => if page = pi then 1 else 0
  | _, _, _ => 0

/-- What an operation may do: it does not panic, it leaves the processes in a call alone, and what it gives and takes is as in the
rule. -/
def Sound (L : Layout) (k : Kernel) (own : Fin NPROC → Multiset Res) (p : Fin NPROC) (o : MemOp) (Q : o.Ans → Multiset Res → Prop)
    (r : Except String (o.Ans × Kernel)) : Prop :=
  ∃ x k', r = .ok (x, k') ∧ (∀ q, (k'.slot q).st = .incall ↔ (k.slot q).st = .incall) ∧
    ∃ g, Q x g ∧ Acc L k' (held k'.slot (update own p g)) ∧
      ∀ pi, held k'.slot (update own p g) (.dead pi) + deadOut (held k.slot own) o pi = held k.slot own (.dead pi) + deadIn o x pi

theorem Sound.same {o : MemOp} {Q : o.Ans → Multiset Res → Prop} {x : o.Ans} (h : Acc L k (held k.slot own)) (hQ : Q x (own p))
    (hd : ∀ pi, deadOut (held k.slot own) o pi = deadIn o x pi) : Sound L k own p o Q (.ok (x, k)) := by
  refine ⟨x, k, rfl, fun _ => .rfl, own p, hQ, ?_, fun pi => ?_⟩
  · rwa [Function.update_eq_self]
  · rw [Function.update_eq_self, hd]

/-- The slots stay as they are. -/
theorem Sound.move {o : MemOp} {Q : o.Ans → Multiset Res → Prop} {x : o.Ans} {a b g : Multiset Res} (hg : own p = a + g)
    (hQ : Q x (b + g)) (hs : k'.slot = k.slot) (h : ∀ H', Moved (held k.slot own) H' a b → Acc L k' H')
    (hd : ∀ pi, b.count (.dead pi) + deadOut (held k.slot own) o pi = a.count (.dead pi) + deadIn o x pi) :
    Sound L k own p o Q (.ok (x, k')) := by
  have hm : Moved (held k.slot own) (held k'.slot (update own p (b + g))) a b := by
    rw [hs]
    exact held_own k.slot hg
  refine ⟨x, k', rfl, fun q => by rw [hs], b + g, hQ, h _ hm, fun pi => ?_⟩
  have h1 := hm (.dead pi)
  have h2 := hd pi
  omega

/-- The slot of `q`, which is not in a call, changes, and what the process held for it becomes that of the slot, or the other way. -/
theorem Sound.slot {o : MemOp} {Q : o.Ans → Multiset Res → Prop} {x : o.Ans} {q : Fin NPROC} {y : MemSlot} {a b g : Multiset Res}
    (hg : own p = a + y.res + g) (hQ : Q x (b + (k.slot q).res + g)) (hs : k'.slot = update k.slot q y)
    (hst : (k.slot q).st ≠ .incall ∧ y.st ≠ .incall) (h : ∀ H', Moved (held k.slot own) H' a b → Acc L k' H')
    (hd : ∀ pi, b.count (.dead pi) + deadOut (held k.slot own) o pi = a.count (.dead pi) + deadIn o x pi) :
    Sound L k own p o Q (.ok (x, k')) := by
  have hm : Moved (held k.slot own) (held k'.slot (update own p (b + (k.slot q).res + g))) a b := by
    rw [hs]
    have h1 := held_own k.slot (b := b + (k.slot q).res) hg
    have h2 := h1.trans (held_slot _ _ q y)
    apply Moved.cancel (c := y.res + (k.slot q).res)
    convert h2 using 1
    · abel
    · abel
  refine ⟨x, k', rfl, fun i => ?_, _, hQ, h _ hm, fun pi => ?_⟩
  · rw [hs]
    by_cases hi : i = q
    · subst hi
      rw [Function.update_self]
      exact iff_of_false hst.2 hst.1
    · rw [Function.update_of_ne hi]
  · have h1 := hm (.dead pi)
    have h2 := hd pi
    omega

theorem kfree_range (h : Acc L k H) {page : Page} (hH : 0 < heldPage H page) :
    ¬(page * PGSIZE < L.kend ∨ PHYSTOP ≤ page * PGSIZE) := by
  obtain ⟨h1, h2⟩ := Finset.mem_Ico.1 (h.mem_pages hH)
  have hP : PHYSTOP / PGSIZE * PGSIZE = PHYSTOP := by decide
  have hpos : 0 < PGSIZE := by decide
  have h3 := Nat.mul_lt_mul_of_pos_right h2 hpos
  rw [hP] at h3
  have h4 : L.kend ≤ page * PGSIZE := by
    rw [Nat.div_le_iff_le_mul_add_pred hpos, Nat.mul_comm] at h1
    omega
  exact not_or.2 ⟨Nat.not_lt.2 h4, Nat.not_le.2 h3⟩

/-- An operation whose rule holds of what its process holds. -/
theorem exec (h : Acc L k (held k.slot own)) {o : MemOp} {Q : o.Ans → Multiset Res → Prop} (hQ : memRule o Q (own p))
    {killed : Bool} {r : Except String (o.Ans × Kernel)} (hr : k.exec L killed o = some r) : Sound L k own p o Q r := by
  cases o with
  | kalloc =>
    simp only [Kernel.exec] at hr
    split at hr
    · cases hr
      exact .same h hQ.2 fun _ => rfl
    · rename_i page pages hf
      cases hr
      exact .move (zero_add _).symm (hQ.1 page (h.card_pages_lt hf)) rfl (fun H' hm => h.kalloc hf hm) fun _ => by simp [deadOut, deadIn]
  | kfree page =>
    obtain ⟨g, hg, hQ⟩ := hQ
    have hpos : 0 < heldPage (held k.slot own) page := heldPage_pos (hg.imp (fun h => by rw [h]; simp) fun h => by rw [h]; simp)
    simp only [Kernel.exec, if_neg (h.kfree_range hpos), Option.some.injEq] at hr
    subst hr
    rcases hg with hg | hg
    · refine .move hg ((zero_add g).symm ▸ hQ) rfl (fun H' hm => h.kfree (.inl rfl) hm) fun pi => ?_
      have h1 := h.heldPage_le page
      have h2 : 0 < held k.slot own (.page page) := held_pos (p := p) (by rw [hg]; simp)
      have h3 : page = pi → held k.slot own (.dead pi) = 0 := by
        rintro rfl
        unfold heldPage at h1
        omega
      simpa [deadOut, deadIn] using h3
    · refine .move hg ((zero_add g).symm ▸ hQ) rfl (fun H' hm => h.kfree (.inr rfl) hm) fun pi => ?_
      have h1 := h.heldPage_le page
      have h2 : 0 < held k.slot own (.dead page) := held_pos (p := p) (by rw [hg]; simp)
      by_cases hpi : page = pi
      · subst hpi
        unfold heldPage at h1
        simp only [deadOut, deadIn, if_pos, Multiset.count_zero, Multiset.count_singleton_self]
        omega
      · simp [deadOut, deadIn, hpi, eq_comm]
  | filealloc =>
    simp only [Kernel.exec] at hr
    split at hr
    · cases hr
      exact .same h hQ.2 fun _ => rfl
    · rename_i f hf
      cases hr
      have h0 := List.find?_some hf
      exact .move (zero_add _).symm (hQ.1 f) rfl (fun H' hm => h.filealloc ⟨rfl, rfl⟩ (by simpa using h0) hm) fun _ => by simp [deadOut, deadIn]
  | filedup f =>
    have hpos : 0 < held k.slot own (.ref f) := held_pos hQ.1
    have href := h.files.ref f
    simp only [Kernel.exec, if_neg (show ¬(k.file f).ref < 1 by omega), Option.some.injEq] at hr
    subst hr
    exact .move (zero_add _).symm hQ.2 rfl (fun H' hm => h.filedup ⟨rfl, rfl⟩ hpos hm) fun _ => by simp [deadOut, deadIn]
  | fileput f =>
    obtain ⟨g, hQ⟩ := hQ
    have href := h.files.ref f
    rcases hQ with ⟨hg, hQ⟩ | ⟨hg, hQ, hQ'⟩
    · have hpos : 0 < held k.slot own (.fresh f) := held_pos (p := p) (by rw [hg]; simp)
      obtain ⟨h1, hp⟩ := h.files.fresh f hpos
      simp only [Kernel.exec, h1, Nat.lt_irrefl, if_false, gt_iff_lt, hp, Option.some.injEq] at hr
      subst hr
      refine .move hg ((zero_add g).symm ▸ hQ) rfl (fun H' hm => h.fileput_last h1 (.inr rfl) ?_) fun _ => by simp [deadOut, deadIn]
      rw [hp]
      exact hm
    · have hpos : 0 < held k.slot own (.ref f) := held_pos (p := p) (by rw [hg]; simp)
      simp only [Kernel.exec, if_neg (show ¬(k.file f).ref < 1 by omega)] at hr
      by_cases h1 : (k.file f).ref > 1
      · rw [if_pos h1] at hr
        cases hr
        exact .move hg ((zero_add g).symm ▸ hQ) rfl (fun H' hm => h.fileput ⟨rfl, rfl⟩ h1 hm) fun _ => by simp [deadOut, deadIn]
      · rw [if_neg h1] at hr
        cases hr
        refine .move (b := (k.file f).pipe.elim 0 fun e => {.pend e.1 e.2}) hg ?_ rfl
          (fun H' hm => h.fileput_last (by omega) (.inl rfl) hm) fun pi => ?_
        · cases (k.file f).pipe with
          | none => exact (zero_add g).symm ▸ hQ
          | some e => exact hQ' e.1 e.2
        · cases (k.file f).pipe <;> simp [deadOut, deadIn]
  | fileopen f =>
    obtain ⟨g, hg, hQ⟩ := hQ
    simp only [Kernel.exec, Option.some.injEq] at hr
    subst hr
    exact .move hg hQ rfl (fun H' hm => h.fileopen ⟨rfl, rfl⟩ hm) fun _ => by simp [deadOut, deadIn]
  | pipeinit f0 f1 pi =>
    obtain ⟨g, hg, hQ⟩ := hQ
    simp only [Kernel.exec, Option.some.injEq] at hr
    subst hr
    exact .move hg hQ rfl (fun H' hm => h.pipeinit hm) fun _ => by simp [deadOut, deadIn]
  | pipeclose pi w =>
    obtain ⟨g, hg, hQ, hQ'⟩ := hQ
    have hpos : 0 < held k.slot own (.pend pi w) := held_pos (p := p) (by rw [hg]; simp)
    obtain ⟨x, hx⟩ := h.exists_pipe hpos
    simp only [Kernel.exec, hx] at hr
    split at hr
    · rename_i hc
      cases hr
      simp only [Bool.and_eq_true, Bool.not_eq_true'] at hc
      exact .move hg hQ' rfl (fun H' hm => h.pipeclose_last hx hc hm) fun pi => by
        simp [deadOut, deadIn, Multiset.count_singleton, eq_comm]
    · rename_i hc
      cases hr
      refine .move hg ((zero_add g).symm ▸ hQ) rfl (fun H' hm => h.pipeclose hx ?_ hm) fun _ => by simp [deadOut, deadIn]
      cases h1 : (Kernel.closeEnd x w).readopen <;> cases h2 : (Kernel.closeEnd x w).writeopen <;> simp_all
  | slotalloc =>
    simp only [Kernel.exec] at hr
    split at hr
    · cases hr
      exact .same h hQ.2 fun _ => rfl
    · rename_i q qs hu
      cases hr
      have hst := h.slots.unused q (hu ▸ List.mem_cons_self)
      refine .slot (a := 0) (b := {.slot q}) (g := own p) (y := { k.slot q with st := .used }) ?_ ?_ rfl ⟨?_, ?_⟩
        (fun H' hm => h.slotalloc hu hm) fun _ => by simp [deadOut, deadIn]
      · exact (by rw [zero_add]; exact (zero_add _).symm)
      · rw [h.slots.blank q hst, MemSlot.res, hst, add_zero]
        exact hQ.1 q
      · rw [hst]
        simp
      · simp
  | slotfree q im =>
    obtain ⟨rfl, g, hg, hQ⟩ := hQ
    simp only [Kernel.exec, Option.some.injEq] at hr
    subst hr
    have hst := h.st_used (q := q) (held_pos (p := p) (by rw [hg]; simp))
    refine .slot (a := {.slot q}) (b := 0) (g := g) (y := ⟨.unused, {}, none⟩) ?_ ?_ rfl ⟨?_, ?_⟩
      (fun H' hm => h.slotfree hm) fun _ => by simp [deadOut, deadIn]
    · rw [hg, MemSlot.res, add_zero]
    · rw [MemSlot.res, hst]
      simpa using hQ
    · rw [hst]
      simp
    · simp
  | publish q im parent =>
    obtain ⟨him, g, hg, hQ⟩ := hQ
    simp only [Kernel.exec, Option.some.injEq] at hr
    subst hr
    have hst := h.st_used (q := q) (held_pos (p := p) (by rw [hg]; simp))
    refine .slot (a := {.slot q}) (b := 0) (g := g) (y := ⟨.live, im, parent⟩) hg ?_ rfl ⟨?_, ?_⟩
      (fun H' hm => h.publish him parent hm) fun _ => by simp [deadOut, deadIn]
    · rw [MemSlot.res, hst]
      simpa using hQ
    · rw [hst]
      simp
    · simp
  | reap p' copied =>
    simp only [Kernel.exec] at hr
    split at hr
    · rename_i q hf
      have hz : (k.slot q).st = .zombie := by
        have := List.find?_some hf
        simp [Kernel.isChild] at this
        exact this.2
      split at hr
      · cases hr
        refine .slot (a := 0) (b := {.slot q}) (g := own p) (y := { k.slot q with st := .used }) ?_ ?_ rfl ⟨?_, ?_⟩
          (fun H' hm => h.reap hz hm) fun _ => by simp [deadOut, deadIn]
        · rw [zero_add]
          exact (zero_add _).symm
        · have := hQ.1 q (k.slot q).im (h.slots.ok q (.inr hz)) (h.slots.closed q hz)
          rw [MemSlot.res, hz]
          exact this
        · rw [hz]
          simp
        · simp
      · cases hr
        exact .same h hQ.2 fun _ => rfl
    · split at hr
      · cases hr
        exact .same h hQ.2 fun _ => rfl
      · cases hr

end Acc

end Xv6
