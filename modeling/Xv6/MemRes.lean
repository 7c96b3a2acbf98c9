import Xv6.MemCalls

/-!
# What a process holds during a call

The ghost state of a process in a call is the multiset of the things that it alone may use: pages, references to files, ends of
pipes whose last reference it has dropped, and process slots.  `memRule` says what each operation takes and gives.  An operation
of another process does not change them, so that a call can be checked alone: `Mem.wp`.
-/

namespace Xv6

inductive Res
  | page (page : Page)
  | ref (f : Fin NFILE)
  -- the only reference to a file without a type
  | fresh (f : Fin NFILE)
  | pend (pi : Page) (writable : Bool)
  -- the page of a pipe both of whose ends are closed
  | dead (pi : Page)
  | slot (q : Fin NPROC)
  deriving DecidableEq

namespace Res

def toPage : Res → Option Page
  | page p => some p
  | _ => none

/-- The pages among what is held. -/
def pages (g : Multiset Res) : Multiset Page := g.filterMap toPage

/-- Pages as things to hold. -/
def ofPages (m : Multiset Page) : Multiset Res := m.map page

@[simp] theorem ofPages_zero : ofPages 0 = 0 := rfl

@[simp] theorem ofPages_singleton (p : Page) : ofPages {p} = {page p} := rfl

@[simp] theorem ofPages_add (m n : Multiset Page) : ofPages (m + n) = ofPages m + ofPages n := Multiset.map_add ..

@[simp] theorem pages_add (g h : Multiset Res) : pages (g + h) = pages g + pages h := Multiset.filterMap_add ..

@[simp] theorem pages_ofPages (m : Multiset Page) : pages (ofPages m) = m := by
  rw [pages, ofPages, Multiset.filterMap_map]
  exact Multiset.filterMap_some m

@[simp] theorem pages_page (p : Page) : pages {page p} = {p} := pages_ofPages {p}

end Res

/-- The number of pages that memory has room for. -/
def NPAGES : Nat := (PHYSTOP - KERNBASE) / PGSIZE

/-- The number of virtual pages of an address space of size `sz`. -/
def npages (sz : Nat) : Nat := PGROUNDUP sz / PGSIZE

/-- The virtual page numbers of the trapframe and the trampoline. -/
def TFPAGE : Nat := TRAPFRAME / PGSIZE

def TRPAGE : Nat := TRAMPOLINE / PGSIZE

variable [KernelText]

/-- An address space of `n` user pages: these are mapped, the trapframe and the trampoline are, and nothing else is. -/
structure Shape (t : PageTable) (n : Nat) (trapframe : Page) : Prop where
  le : n ≤ NPAGES
  user : ∀ i < n, ∃ e, t.get i = some e ∧ e.perm.r = true
  frame : t.get TFPAGE = some ⟨trapframe, { r := true, w := true }⟩
  tramp : t.get TRPAGE = some ⟨KernelText.trampoline, { r := true, x := true }⟩
  rest : ∀ i < 2 ^ 27, n ≤ i → i ≠ TFPAGE → i ≠ TRPAGE → t.get i = none

/-- The pages of an address space of `n` user pages. -/
def PageTable.space (t : PageTable) (n : Nat) : Multiset Res := Res.ofPages t.tables + Res.ofPages (t.frames n)

namespace Img

/-- References to the open files. -/
def refs (ofile : Fin NOFILE → Option (Fin NFILE)) : Multiset Res := ∑ fd, (ofile fd).elim 0 fun f => {.ref f}

/-- What a process holds outside a call. -/
def res (im : Img) : Multiset Res :=
  im.trapframe.elim 0 (fun p => {.page p}) + im.pagetable.elim 0 (fun t => t.space (npages im.sz)) + refs im.ofile

/-- The memory of a process that is not in a call. -/
structure Ok (im : Img) : Prop where
  sz : im.sz ≤ NPAGES * PGSIZE
  shape : ∃ page t, im.trapframe = some page ∧ im.pagetable = some t ∧ Shape t (npages im.sz) page

end Img

/-- What the operations need and what they give. -/
def memRule : Code.Rule MemOp.Ans (Multiset Res)
  | .kalloc, Q, g => (∀ page, Multiset.card (Res.pages g) < NPAGES → Q (some page) ({.page page} + g)) ∧ Q none g
  | .kfree page, Q, g => ∃ g', (g = {.page page} + g' ∨ g = {.dead page} + g') ∧ Q () g'
  | .filealloc, Q, g => (∀ f, Q (some f) ({.fresh f} + g)) ∧ Q none g
  | .filedup f, Q, g => .ref f ∈ g ∧ Q () ({.ref f} + g)
  | .fileput f, Q, g => ∃ g', (g = {.fresh f} + g' ∧ Q none g') ∨
    (g = {.ref f} + g' ∧ Q none g' ∧ ∀ pi w, Q (some (pi, w)) ({.pend pi w} + g'))
  | .fileopen f, Q, g => ∃ g', g = {.fresh f} + g' ∧ Q () ({.ref f} + g')
  | .pipeinit f0 f1 pi, Q, g => ∃ g', g = {.fresh f0} + {.fresh f1} + {.page pi} + g' ∧ Q () ({.ref f0} + {.ref f1} + g')
  | .pipeclose pi w, Q, g => ∃ g', g = {.pend pi w} + g' ∧ Q false g' ∧ Q true ({.dead pi} + g')
  | .slotalloc, Q, g => (∀ q, Q (some (q, {})) ({.slot q} + g)) ∧ Q none g
  | .slotfree q im, Q, g => im = {} ∧ ∃ g', g = {.slot q} + g' ∧ Q () g'
  | .publish q im _, Q, g => im.Ok ∧ ∃ g', g = {.slot q} + im.res + g' ∧ Q () g'
  | .reap _ _, Q, g => (∀ q im, im.Ok → im.ofile = (fun _ => none) → Q (some (q, im)) ({.slot q} + im.res + g)) ∧ Q none g

theorem memRule_mono : memRule.Mono := by
  intro o Q Q' g hQ h
  cases o with
  | kalloc => exact ⟨fun p hp => hQ _ _ (h.1 p hp), hQ _ _ h.2⟩
  | kfree p =>
    obtain ⟨g', hg, h⟩ := h
    exact ⟨g', hg, hQ _ _ h⟩
  | filealloc => exact ⟨fun f => hQ _ _ (h.1 f), hQ _ _ h.2⟩
  | filedup f => exact ⟨h.1, hQ _ _ h.2⟩
  | fileput f =>
    obtain ⟨g', ⟨hg, h⟩ | ⟨hg, h, h'⟩⟩ := h
    · exact ⟨g', .inl ⟨hg, hQ _ _ h⟩⟩
    · exact ⟨g', .inr ⟨hg, hQ _ _ h, fun pi w => hQ _ _ (h' pi w)⟩⟩
  | fileopen f =>
    obtain ⟨g', hg, h⟩ := h
    exact ⟨g', hg, hQ _ _ h⟩
  | pipeinit f0 f1 pi =>
    obtain ⟨g', hg, h⟩ := h
    exact ⟨g', hg, hQ _ _ h⟩
  | pipeclose pi w =>
    obtain ⟨g', hg, h, h'⟩ := h
    exact ⟨g', hg, hQ _ _ h, hQ _ _ h'⟩
  | slotalloc => exact ⟨fun q => hQ _ _ (h.1 q), hQ _ _ h.2⟩
  | slotfree q im =>
    obtain ⟨him, g', hg, h⟩ := h
    exact ⟨him, g', hg, hQ _ _ h⟩
  | publish q im parent =>
    obtain ⟨him, g', hg, h⟩ := h
    exact ⟨him, g', hg, hQ _ _ h⟩
  | reap p copied => exact ⟨fun q im him ho => hQ _ _ (h.1 q im him ho), hQ _ _ h.2⟩

theorem memRule_frame {F : Multiset Res} (o : MemOp) (Q : o.Ans → Multiset Res → Prop) (g : Multiset Res) (h : memRule o Q g) :
    memRule o (fun x h => ∃ h', h = h' + F ∧ Q x h') (g + F) := by
  cases o with
  | kalloc =>
    refine ⟨fun p hp => ⟨_, (add_assoc ..).symm, h.1 p ?_⟩, _, rfl, h.2⟩
    rw [Res.pages_add, Multiset.card_add] at hp
    omega
  | kfree p =>
    obtain ⟨g', hg, h⟩ := h
    refine ⟨g' + F, ?_, g', rfl, h⟩
    rcases hg with rfl | rfl
    · exact .inl (add_assoc ..)
    · exact .inr (add_assoc ..)
  | filealloc => exact ⟨fun f => ⟨_, (add_assoc ..).symm, h.1 f⟩, _, rfl, h.2⟩
  | filedup f => exact ⟨Multiset.mem_add.2 (.inl h.1), _, (add_assoc ..).symm, h.2⟩
  | fileput f =>
    obtain ⟨g', ⟨rfl, h⟩ | ⟨rfl, h, h'⟩⟩ := h
    · exact ⟨g' + F, .inl ⟨add_assoc .., g', rfl, h⟩⟩
    · exact ⟨g' + F, .inr ⟨add_assoc .., ⟨g', rfl, h⟩, fun pi w => ⟨_, (add_assoc ..).symm, h' pi w⟩⟩⟩
  | fileopen f =>
    obtain ⟨g', rfl, h⟩ := h
    exact ⟨g' + F, add_assoc .., _, (add_assoc ..).symm, h⟩
  | pipeinit f0 f1 pi =>
    obtain ⟨g', rfl, h⟩ := h
    exact ⟨g' + F, add_assoc .., _, (add_assoc ..).symm, h⟩
  | pipeclose pi w =>
    obtain ⟨g', rfl, h, h'⟩ := h
    exact ⟨g' + F, add_assoc .., ⟨g', rfl, h⟩, _, (add_assoc ..).symm, h'⟩
  | slotalloc => exact ⟨fun q => ⟨_, (add_assoc ..).symm, h.1 q⟩, _, rfl, h.2⟩
  | slotfree q im =>
    obtain ⟨him, g', rfl, h⟩ := h
    exact ⟨him, g' + F, add_assoc .., g', rfl, h⟩
  | publish q im parent =>
    obtain ⟨him, g', rfl, h⟩ := h
    exact ⟨him, g' + F, add_assoc .., g', rfl, h⟩
  | reap p copied => exact ⟨fun q im him ho => ⟨_, (add_assoc ..).symm, h.1 q im him ho⟩, _, rfl, h.2⟩

/-- The panics that a call may end in: a trap in the kernel, and `exit` of the first process. -/
def MemPanic (msg : String) : Prop := msg = "kerneltrap" ∨ msg = "init exiting"

namespace Mem

variable {α β : Type}

def wp (p : Mem α) (Q : α → Multiset Res → Prop) (g : Multiset Res) : Prop := Code.wp memRule MemPanic p Q g

@[simp] theorem wp_pure (a : α) (Q : α → Multiset Res → Prop) (g : Multiset Res) : wp (pure a) Q g = Q a g := rfl

@[simp] theorem wp_bind (p : Mem α) (f : α → Mem β) (Q : β → Multiset Res → Prop) (g : Multiset Res) :
    wp (p >>= f) Q g = wp p (fun a => wp (f a) Q) g :=
  Code.wp_bind ..

theorem pure_wp {a : α} {Q : α → Multiset Res → Prop} {g : Multiset Res} (h : Q a g) : wp (pure a) Q g := h

theorem wp_mono {p : Mem α} {Q Q' : α → Multiset Res → Prop} {g : Multiset Res} (h : wp p Q g) (hQ : ∀ a g, Q a g → Q' a g) :
    wp p Q' g :=
  Code.wp_mono memRule_mono h hQ

theorem wp_frame {p : Mem α} {Q : α → Multiset Res → Prop} {g : Multiset Res} (h : wp p Q g) (F : Multiset Res) :
    wp p (fun a h => ∃ h', h = h' + F ∧ Q a h') (g + F) :=
  Code.wp_frame memRule_mono memRule_frame h

theorem fault_wp (Q : α → Multiset Res → Prop) (g : Multiset Res) : wp fault Q g := .inl rfl

theorem panic_init_wp {Q : α → Multiset Res → Prop} {g : Multiset Res} : wp (panic "init exiting") Q g := .inr rfl

/-! ### One rule for each operation -/

variable {F g : Multiset Res}

theorem kalloc_wp {Q : Option Page → Multiset Res → Prop}
    (h : ∀ page, Multiset.card (Res.pages g) < NPAGES → Q (some page) ({.page page} + g)) (h0 : Q none g) : wp kalloc Q g :=
  ⟨h, h0⟩

theorem kfree_wp {Q : Unit → Multiset Res → Prop} {page : Page} (hg : g = {.page page} + F) (h : Q () F) :
    wp (kfree page) Q g :=
  ⟨F, .inl hg, h⟩

theorem kfree_dead_wp {Q : Unit → Multiset Res → Prop} {pi : Page} (h : Q () F) : wp (kfree pi) Q ({.dead pi} + F) :=
  ⟨F, .inr rfl, h⟩

theorem filealloc_wp {Q : Option (Fin NFILE) → Multiset Res → Prop} (h : ∀ f, Q (some f) ({.fresh f} + g)) (h0 : Q none g) :
    wp filealloc Q g :=
  ⟨h, h0⟩

theorem filedup_wp {Q : Unit → Multiset Res → Prop} {f : Fin NFILE} (hf : .ref f ∈ g) (h : Q () ({.ref f} + g)) :
    wp (filedup f) Q g :=
  ⟨hf, h⟩

theorem fileput_wp {Q : Option (Page × Bool) → Multiset Res → Prop} {f : Fin NFILE} (h0 : Q none F)
    (h : ∀ pi w, Q (some (pi, w)) ({.pend pi w} + F)) : wp (fileput f) Q ({.ref f} + F) :=
  ⟨F, .inr ⟨rfl, h0, h⟩⟩

theorem fileput_fresh_wp {Q : Option (Page × Bool) → Multiset Res → Prop} {f : Fin NFILE} (h0 : Q none F) :
    wp (fileput f) Q ({.fresh f} + F) :=
  ⟨F, .inl ⟨rfl, h0⟩⟩

theorem fileopen_wp {Q : Unit → Multiset Res → Prop} {f : Fin NFILE} (hg : g = {.fresh f} + F) (h : Q () ({.ref f} + F)) :
    wp (fileopen f) Q g :=
  ⟨F, hg, h⟩

theorem pipeinit_wp {Q : Unit → Multiset Res → Prop} {f0 f1 : Fin NFILE} {pi : Page}
    (hg : g = {.fresh f0} + {.fresh f1} + {.page pi} + F) (h : Q () ({.ref f0} + {.ref f1} + F)) :
    wp (pipeinit f0 f1 pi) Q g :=
  ⟨F, hg, h⟩

theorem pipeput_wp {Q : Bool → Multiset Res → Prop} {pi : Page} {w : Bool} (h : Q false F) (h' : Q true ({.dead pi} + F)) :
    wp (pipeput pi w) Q ({.pend pi w} + F) :=
  ⟨F, rfl, h, h'⟩

theorem slotalloc_wp {Q : Option (Fin NPROC × Img) → Multiset Res → Prop} (h : ∀ q, Q (some (q, {})) ({.slot q} + g))
    (h0 : Q none g) : wp slotalloc Q g :=
  ⟨h, h0⟩

theorem slotfree_wp {Q : Unit → Multiset Res → Prop} {q : Fin NPROC} {im : Img} (him : im = {}) (h : Q () F) :
    wp (slotfree q im) Q ({.slot q} + F) :=
  ⟨him, F, rfl, h⟩

theorem publish_wp {Q : Unit → Multiset Res → Prop} {q : Fin NPROC} {im : Img} {parent : Option (Fin NPROC)} (him : im.Ok)
    (hg : g = {.slot q} + im.res + F) (h : Q () F) : wp (publish q im parent) Q g :=
  ⟨him, F, hg, h⟩

theorem reap_wp {Q : Option (Fin NPROC × Img) → Multiset Res → Prop} {p : Fin NPROC} {copied : Bool}
    (h : ∀ q im, im.Ok → im.ofile = (fun _ => none) → Q (some (q, im)) ({.slot q} + im.res + g)) (h0 : Q none g) :
    wp (reap p copied) Q g :=
  ⟨h, h0⟩

-- from here on `wp` is used through its rules only
attribute [irreducible] wp

end Mem

end Xv6
