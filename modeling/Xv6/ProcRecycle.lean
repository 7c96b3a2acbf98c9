import Xv6.ProcMembers
import Xv6.ProcReap
import Xv6.ProcSleep

/-!
# Slots that are used again

The other fields of `struct proc`, which the process itself, its parent in `fork` and `freeproc` write.  They are cleaned in
`exit`, in `freeproc` and in `allocproc`; a slot that `allocproc` returns has nothing left from its past, unless `kill` has
marked it while it was `UNUSED` (`allocproc_clean`).
-/

namespace Xv6

open Function (update)
open Sys

variable {L F : Type} [DecidableEq L]

/-- The fields of `struct proc` for memory, files and accounting; `F` is the type of the addresses of files. -/
structure Priv (F : Type) where
  sz : Nat
  ofile : Fin NOFILE → Option F
  cwd : Option Inum
  nsched : UInt64
  nticks : UInt64

namespace Priv

def zero : Priv F := ⟨0, fun _ => none, none, 0, 0⟩

/-- The first free descriptor of `fdalloc(f)`, which becomes `f`. -/
def fdalloc (x : Priv F) (f : F) : Option (Fin NOFILE × Priv F) :=
  ((List.finRange NOFILE).find? fun fd => (x.ofile fd).isNone).map fun fd =>
    (fd, { x with ofile := update x.ofile fd (some f) })

/-- `p->ofile[fd] = 0`. -/
def close (x : Priv F) (fd : Fin NOFILE) : Priv F := { x with ofile := update x.ofile fd none }

/-- What `fork` copies from the parent `y`. -/
def fork (x y : Priv F) : Priv F :=
  { x with sz := y.sz, ofile := fun fd => (y.ofile fd).or (x.ofile fd), cwd := y.cwd }

/-- What `userinit` sets. -/
def userinit (x : Priv F) : Priv F := { x with sz := PGSIZE, cwd := some ROOTINO }

/-- `exit` closes the files, one after the other, and puts the directory. -/
def exit (x : Priv F) : Priv F := { (List.finRange NOFILE).foldl close x with cwd := none }

end Priv

/-- The calls by which a process changes these fields.  `exec` and `sbrk` set the new size, `open` is given the file, `pipe`
the two files and whether their descriptors can be copied out; a call that fails before it comes to these fields changes
nothing. -/
inductive FileCall (F : Type)
  | exec (sz : Nat)
  | sbrk (sz : Nat)
  | «open» (f : F)
  | close (fd : Int)
  | dup (fd : Int)
  | pipe (rf wf : F) (copied : Bool)
  | chdir (ip : Inum)

namespace Priv

/-- `argfd`. -/
def argfd (x : Priv F) (fd : Int) : Option (Fin NOFILE × F) :=
  if h : 0 ≤ fd ∧ fd < NOFILE then (x.ofile ⟨fd.toNat, by omega⟩).map fun f => (⟨fd.toNat, by omega⟩, f) else none

def pipe (x : Priv F) (rf wf : F) (copied : Bool) : Priv F :=
  match x.fdalloc rf with
  | none => x
  | some (fd0, y) =>
    match y.fdalloc wf with
    | none => y.close fd0
    | some (fd1, z) => if copied then z else (z.close fd0).close fd1

def call (x : Priv F) : FileCall F → Priv F
  | .exec sz | .sbrk sz => { x with sz := sz }
  | .open f => ((x.fdalloc f).map (·.2)).getD x
  | .close fd => ((x.argfd fd).map fun a => x.close a.1).getD x
  | .dup fd => ((x.argfd fd).bind fun a => (x.fdalloc a.2).map (·.2)).getD x
  | .pipe rf wf copied => x.pipe rf wf copied
  | .chdir ip => { x with cwd := some ip }

/-- What the sections of `proc.c` do to these fields. -/
def next (s : Sys L) (e : Ev L) (x : Slot → Priv F) : Slot → Priv F :=
  match e with
  | .switch k =>
    match s.cpu k with
    | .popped p => update x p { x p with nsched := (x p).nsched + 1 }
    | _ => x
  | .tick p => update x p { x p with nticks := (x p).nticks + 1 }
  | .call p (.exit _) => update x p (x p).exit
  | .next t =>
    match s.point t, t with
    -- `allocproc`
    | some (.locked _ _ np), _ => update x np { x np with nsched := 0, nticks := 0 }
    | some (.listed _ _ np), some p => update x np ((x np).fork (x p))
    | some (.listed _ _ np), none => update x np (x np).userinit
    -- `freeproc`, called by `wait` on a zombie
    | some (.scan _ i _), some p =>
      if h : i < NPROC then
        let q : Slot := ⟨i, h⟩
        if (s.proc q).parent = some p ∧ (s.proc q).state = .zombie then update x q { x q with sz := 0 } else x
      else x
    | _, _ => x
  | .fail t =>
    match s.point t with
    -- `freeproc`, called by `fork`
    | some (.listed _ _ np) => update x np { x np with sz := 0 }
    | _ => x
  | _ => x

end Priv

/-- A section of `proc.c`, a call of a process that changes its memory or its files, or the `setkilled` of `usertrap`. -/
inductive PEv (L F : Type)
  | sys (e : Ev L)
  | file (p : Slot) (x : FileCall F)
  | setkilled (p : Slot)

def privStep [Fintype L] (y : Sys L × (Slot → Priv F)) : PEv L F → Option (Except String (Sys L × (Slot → Priv F)))
  | .sys e => Lts.histStep Sys.step Priv.next y e
  | .file p x => if y.1.AtRun p then some (.ok (y.1, update y.2 p ((y.2 p).call x))) else none
  | .setkilled p =>
    if y.1.AtRun p ∧ y.1.PFree p then some (.ok (y.1.setProc p { y.1.proc p with killed := true }, y.2)) else none

/-- The runs of the kernel, with all fields of the processes. -/
def privLts (L F : Type) [DecidableEq L] [Fintype L] : Lts (Sys L × (Slot → Priv F)) (PEv L F) :=
  .ofFun (· = (procinit L, fun _ => Priv.zero)) privStep

/-- A slot with the pid that `kill` looks for has a process. -/
def KillsUsed (y : Sys L × (Slot → Priv F)) : PEv L F → Prop
  | .sys (.next (some p)) =>
    match y.1.point (some p) with
    | some (.kill pid i) => ∀ q : Slot, q.val = i → (y.1.proc q).pid = pid → (y.1.proc q).state ≠ .unused
    | _ => True
  | _ => True

/-! ### Clean slots -/

/-- No files and no directory. -/
structure Priv.NoFiles (x : Priv F) : Prop where
  ofile : ∀ fd, x.ofile fd = none
  cwd : x.cwd = none

/-- The fields of an `UNUSED` slot. -/
structure Blank (p : Proc L) (x : Priv F) : Prop where
  killed : p.killed = false
  chan : p.chan = none
  xstate : p.xstate = 0
  parent : p.parent = none
  sz : x.sz = 0
  files : x.NoFiles

theorem Priv.foldl_close (l : List (Fin NOFILE)) (x : Priv F) {fd : Fin NOFILE} (h : fd ∈ l ∨ x.ofile fd = none) :
    (l.foldl close x).ofile fd = none := by
  induction l generalizing x with
  | nil => simpa using h
  | cons a l ih =>
    refine ih (x.close a) ?_
    by_cases hfd : fd = a
    · right
      rw [hfd]
      exact Function.update_self ..
    · rw [List.mem_cons] at h
      refine h.imp (fun h => h.resolve_left hfd) fun h => ?_
      exact (Function.update_of_ne hfd _ _).trans h

theorem Priv.exit_noFiles (x : Priv F) : x.exit.NoFiles := by
  refine ⟨fun fd => ?_, rfl⟩
  have := foldl_close (List.finRange NOFILE) x (.inl (List.mem_finRange fd))
  exact this

/-- The process that `allocproc` is about to return, or has returned. -/
def Pc.fresh : Pc L → Option Slot
  | made _ _ np | listed _ _ np => some np
  | _ => none

def Pc.exiting : Pc L → Bool
  | exitCount _ | exitIput _ | exitLock _ | reparent .. | exitLast _ => true
  | _ => false

/-- Slot `a` is clean if it is `UNUSED` or `allocproc` returns it, and has no files if its process is in `exit`. -/
structure Scrub (s : Sys L) (x : Slot → Priv F) (a : Slot) : Prop where
  unused : (s.proc a).state = .unused → Blank (s.proc a) (x a)
  fresh : ∀ t, (s.th t).pc.fresh = some a → Blank (s.proc a) (x a) ∧ (x a).nsched = 0 ∧ (x a).nticks = 0
  exiting : (s.th (some a)).pc.exiting = true → (x a).NoFiles
  zombie : (s.proc a).state = .zombie → (x a).NoFiles

def Scrubbed (s : Sys L) (x : Slot → Priv F) : Prop := ∀ a, Scrub s x a

variable {s s' : Sys L} {T : Table} {e : Ev L} {x x' : Slot → Priv F} {t : Thread} {y : Th L} {a q : Slot}

omit [DecidableEq L] in
theorem Scrub.same (h : Scrub s x a) (hp : s'.proc a = s.proc a) (hx : x' a = x a)
    (hf : ∀ u, (s'.th u).pc.fresh = some a → (s.th u).pc.fresh = some a)
    (he : (s'.th (some a)).pc.exiting = true → (s.th (some a)).pc.exiting = true) : Scrub s' x' a := by
  refine ⟨?_, ?_, ?_, ?_⟩ <;> rw [hx]
  · rw [hp]
    exact h.unused
  · rw [hp]
    exact fun u hu => h.fresh u (hf u hu)
  · exact fun hu => h.exiting (he hu)
  · rw [hp]
    exact h.zombie

omit [DecidableEq L] in
/-- Thread `t` moves. -/
theorem Scrub.move (h : Scrub s x a) (hp : s'.proc a = s.proc a) (hx : x' a = x a) (hth : s'.th = update s.th t y)
    (hf : y.pc.fresh = none ∨ y.pc.fresh = (s.th t).pc.fresh)
    (he : t = some a → y.pc.exiting = true → (s.th t).pc.exiting = true) : Scrub s' x' a := by
  refine h.same hp hx (fun u hu => ?_) fun hu => ?_
  · rw [hth] at hu
    by_cases hut : u = t
    · subst hut
      rw [Function.update_self] at hu
      rcases hf with hf | hf
      · rw [hf] at hu
        cases hu
      · exact hf ▸ hu
    · rwa [Function.update_of_ne hut] at hu
  · rw [hth] at hu
    by_cases hut : some a = t
    · subst hut
      rw [Function.update_self] at hu
      exact he rfl hu
    · rwa [Function.update_of_ne hut] at hu

omit [DecidableEq L] in
private theorem place_of_fresh (hI : s.view.Inv T) (h : (s.th t).pc.fresh = some a) : T.place a = .hand .made t := by
  refine (hI.elem.hand t .made a).1 ?_
  change (s.th t).pc.role.hand .made = some a
  cases hpc : (s.th t).pc <;> rw [hpc] at h <;> cases h <;> rfl

omit [DecidableEq L] in
private theorem used_of_fresh (hI : s.view.Inv T) (h : (s.th t).pc.fresh = some a) : (s.proc a).state = .used := by
  refine (hI.elem.state a).trans ?_
  rw [place_of_fresh hI h]
  rfl

omit [DecidableEq L] in
private theorem exiting_of_place (hI : s.view.Inv T) (h : (T.place a).alive = false) : (s.th (some a)).pc.exiting = false := by
  have hr : (s.th (some a)).pc.role = .idle := (hI.harts.clean a h).role
  cases hpc : (s.th (some a)).pc <;> rw [hpc] at hr <;> cases hr <;> rfl

omit [DecidableEq L] in
private theorem fresh_ne (hth : s'.th = update s.th t y) (hfr : ∀ u, u ≠ t → (s.th u).pc.fresh ≠ some a)
    (hf : y.pc.fresh ≠ some a) (u : Thread) : (s'.th u).pc.fresh ≠ some a := by
  rw [hth]
  by_cases hut : u = t
  · rwa [hut, Function.update_self]
  · rw [Function.update_of_ne hut]
    exact hfr u hut

omit [DecidableEq L] in
private theorem exiting_cases (hth : s'.th = update s.th t y) (h : (s'.th (some a)).pc.exiting = true) :
    t = some a ∧ y.pc.exiting = true ∨ (s.th (some a)).pc.exiting = true := by
  rw [hth] at h
  by_cases hut : some a = t
  · subst hut
    rw [Function.update_self] at h
    exact .inl ⟨rfl, h⟩
  · rw [Function.update_of_ne hut] at h
    exact .inr h

omit [DecidableEq L] in
/-- Slot `a` has a process that `allocproc` does not return. -/
theorem Scrub.live (hst : (s'.proc a).state ≠ .unused) (hfr : ∀ u, (s'.th u).pc.fresh ≠ some a)
    (hn : (s'.th (some a)).pc.exiting = true ∨ (s'.proc a).state = .zombie → (x' a).NoFiles) : Scrub s' x' a :=
  ⟨fun hu => absurd hu hst, fun u hu => absurd hu (hfr u), fun hu => hn (.inl hu), fun hu => hn (.inr hu)⟩

omit [DecidableEq L] in
/-- `freeproc` resets slot `a`. -/
theorem Scrub.reset (hp : s'.proc a = (s.freeprocReset a).proc a) (hx : x' a = { x a with sz := 0 }) (hn : (x a).NoFiles)
    (hfr : ∀ u, (s'.th u).pc.fresh ≠ some a) : Scrub s' x' a := by
  have hn' : (x' a).NoFiles := by
    rw [hx]
    exact ⟨hn.ofile, hn.cwd⟩
  have hpa : s'.proc a = { s.proc a with state := .unused, chan := none, killed := false, xstate := 0, pid := 0, parent := none } := by
    rw [hp]
    exact Function.update_self ..
  refine ⟨fun _ => ?_, fun u hu => absurd hu (hfr u), fun _ => hn', fun _ => hn'⟩
  rw [hpa]
  exact ⟨rfl, rfl, rfl, rfl, by rw [hx], hn'⟩

omit [DecidableEq L] in
/-- Only thread `t` moves. -/
theorem Scrubbed.still (h : Scrubbed s x) (hp : s'.proc = s.proc) (hx : x' = x) (hth : s'.th = update s.th t y)
    (hf : y.pc.fresh = none ∨ y.pc.fresh = (s.th t).pc.fresh)
    (he : y.pc.exiting = true → (s.th t).pc.exiting = true) : Scrubbed s' x' :=
  fun a => (h a).move (congrFun hp a) (congrFun hx a) hth hf fun _ => he

omit [DecidableEq L] in
/-- Slot `q` changes and thread `t` moves. -/
theorem Scrubbed.change {r : Proc L} (h : Scrubbed s x) (hp : s'.proc = update s.proc q r) (hx : ∀ a, a ≠ q → x' a = x a)
    (hth : s'.th = update s.th t y) (hf : y.pc.fresh = none ∨ y.pc.fresh = (s.th t).pc.fresh)
    (he : t = some q ∨ (y.pc.exiting = true → (s.th t).pc.exiting = true)) (hq : Scrub s' x' q) : Scrubbed s' x' := by
  intro a
  by_cases haq : a = q
  · rw [haq]
    exact hq
  · refine (h a).move (by rw [hp, Function.update_of_ne haq]) (hx a haq) hth hf fun hta => ?_
    exact he.resolve_left fun htq => haq (Option.some.inj (hta.symm.trans htq))

omit [DecidableEq L] in
/-- A process that `allocproc` does not return changes. -/
theorem Scrubbed.acts {r : Proc L} (h : Scrubbed s x) (hp : s'.proc = update s.proc q r) (hx : ∀ a, a ≠ q → x' a = x a)
    (hth : s'.th = update s.th t y) (hf : y.pc.fresh = none ∨ y.pc.fresh = (s.th t).pc.fresh)
    (he : y.pc.exiting = true → (s.th t).pc.exiting = true) (hst : r.state ≠ .unused)
    (hfr : ∀ u, (s.th u).pc.fresh ≠ some q)
    (hz : r.state = .zombie → (s.th (some q)).pc.exiting = true ∨ (s.proc q).state = .zombie)
    (hn : (x q).NoFiles → (x' q).NoFiles) : Scrubbed s' x' := by
  have hq : s'.proc q = r := by rw [hp, Function.update_self]
  refine h.change hp hx hth hf (.inr he) (.live (hq ▸ hst) (fresh_ne hth (fun u _ => hfr u) ?_) ?_)
  · rcases hf with hf | hf
    · rw [hf]
      nofun
    · rw [hf]
      exact hfr t
  · rintro (hu | hu)
    · rcases exiting_cases hth hu with ⟨rfl, hy⟩ | hu
      · exact hn ((h q).exiting (he hy))
      · exact hn ((h q).exiting hu)
    · rcases hz (hq ▸ hu) with hz | hz
      · exact hn ((h q).exiting hz)
      · exact hn ((h q).zombie hz)

omit [DecidableEq L] in
/-- `fork`, at a point after the return of `allocproc`, changes the new process. -/
theorem Scrubbed.grows {r : Proc L} {c : ContId} {fr : Bool} (h : Scrubbed s x) (hI : s.view.Inv T)
    (hr : (s.th t).pc.role.hand .made = some q) (hp : s'.proc = update s.proc q r) (hx : ∀ a, a ≠ q → x' a = x a)
    (hth : s'.th = update s.th t y) (hy : y.pc = .copied c fr q ∨ y.pc = .adopted c fr q ∨ y.pc = .ready c fr q)
    (hst : r.state = .used ∨ r.state = .runnable) : Scrubbed s' x' := by
  have hpl : T.place q = .hand .made t := (hI.elem.hand t .made q).1 hr
  have hq : s'.proc q = r := by rw [hp, Function.update_self]
  have hf : y.pc.fresh = none := by rcases hy with hy | hy | hy <;> rw [hy] <;> rfl
  have he : y.pc.exiting = false := by rcases hy with hy | hy | hy <;> rw [hy] <;> rfl
  refine h.change hp hx hth (.inl hf) (.inr (by rw [he]; nofun)) (.live ?_ (fresh_ne hth ?_ (by rw [hf]; nofun)) ?_)
  · rw [hq]
    rcases hst with hst | hst <;> simp [hst]
  · intro u hu huf
    have := (place_of_fresh hI huf).symm.trans hpl
    simp only [Place.hand.injEq, true_and] at this
    exact hu this
  · rintro (hu | hu)
    · rcases exiting_cases hth hu with ⟨-, hy⟩ | hu
      · rw [he] at hy
        cases hy
      · rw [exiting_of_place hI (by rw [hpl]; rfl)] at hu
        cases hu
    · rw [hq] at hu
      rcases hst with hst | hst <;> simp [hst] at hu

omit [DecidableEq L] in
/-- `allocproc` sets the fields of the slot it has taken. -/
theorem Scrubbed.alloc {c : ContId} {fr : Bool} {n : Int} (h : Scrubbed s x) (hst : (s.proc q).state = .unused)
    (hp : s'.proc = update s.proc q { s.proc q with pid := n, state := .used, contp := some c })
    (hth : s'.th = update (update s.th (some q) forkret) t { update s.th (some q) forkret t with pc := .made c fr q }) :
    Scrubbed s' (update x q { x q with nsched := 0, nticks := 0 }) := by
  have hb := (h q).unused hst
  have hpc : ∀ u, (s'.th u).pc = .made c fr q ∧ u = t ∨ (s'.th u).pc = .run ∨ (s'.th u).pc = (s.th u).pc ∧ u ≠ some q := by
    intro u
    rw [hth]
    by_cases hut : u = t
    · left
      rw [hut, Function.update_self]
      exact ⟨rfl, rfl⟩
    · rw [Function.update_of_ne hut]
      by_cases huq : u = some q
      · right; left
        rw [huq, Function.update_self]
        rfl
      · right; right
        rw [Function.update_of_ne huq]
        exact ⟨rfl, huq⟩
  intro a
  by_cases haq : a = q
  · subst haq
    have hpa : s'.proc a = { s.proc a with pid := n, state := .used, contp := some c } := by rw [hp, Function.update_self]
    have hn : (update x a { x a with nsched := 0, nticks := 0 } a).NoFiles := by
      rw [Function.update_self]
      exact ⟨hb.files.ofile, hb.files.cwd⟩
    refine ⟨fun hu => ?_, fun u _ => ?_, fun _ => hn, fun _ => hn⟩
    · rw [hpa] at hu
      cases hu
    · rw [hpa]
      refine ⟨⟨hb.killed, hb.chan, hb.xstate, hb.parent, ?_, hn⟩, ?_, ?_⟩ <;> rw [Function.update_self]
      exact hb.sz
  · refine (h a).same (by rw [hp, Function.update_of_ne haq]) (Function.update_of_ne haq _ _) (fun u hu => ?_) fun hu => ?_
    · rcases hpc u with ⟨hm, -⟩ | hm | ⟨hm, -⟩ <;> rw [hm] at hu
      · exact absurd (Option.some.inj hu).symm haq
      · cases hu
      · exact hu
    · rcases hpc (some a) with ⟨hm, -⟩ | hm | ⟨hm, -⟩ <;> rw [hm] at hu
      · cases hu
      · cases hu
      · exact hu

omit [DecidableEq L] in
private theorem not_fresh_of_free (hI : s.view.Inv T) (hf : s.PFree q) (u : Thread) : (s.th u).pc.fresh ≠ some q := by
  intro hu
  refine hf u ?_
  rw [← Th.view_plock]
  refine hI.plock_of_role ?_
  change (s.th u).pc.role.plock = some q
  cases hpc : (s.th u).pc <;> rw [hpc] at hu <;> cases hu <;> rfl

omit [DecidableEq L] in
private theorem unused_of_taken (hI : s.view.Inv T) (h : (s.th t).pc.role.hand .taken = some q) : (s.proc q).state = .unused := by
  refine (hI.elem.state q).trans ?_
  rw [(hI.elem.hand t .taken q).1 h]
  rfl

theorem Scrubbed.sect (h : Scrubbed s x) (hI : s.view.Inv T) (hs : Sect s e s')
    (hk : ∀ p pid i, e = .next (some p) → s.point (some p) = some (.kill pid i) →
      ∀ q : Slot, q.val = i → (s.proc q).pid = pid → (s.proc q).state ≠ .unused) : Scrubbed s' (Priv.next s e x) := by
  have hlive : ∀ {a}, (s.proc a).state ≠ .used → ∀ u, (s.th u).pc.fresh ≠ some a :=
    fun hst u hu => hst (used_of_fresh hI hu)
  cases hs with
  | schedulerPop hk hl => exact fun a => (h a).same rfl rfl (fun _ => id) id
  | @schedulerRun k p chan hc hf hst hch =>
    have hx : Priv.next s (.switch k) x = update x p { x p with nsched := (x p).nsched + 1 } := by simp [Priv.next, hc]
    rw [hx]
    refine h.acts rfl (fun a ha => Function.update_of_ne ha _ _) rfl (.inr rfl) id (by simp) (hlive (by simp [hst])) (by simp) ?_
    intro hn
    rw [Function.update_self]
    exact ⟨hn.ofile, hn.cwd⟩
  | @yield p hon hi hf =>
    have hst := running_of_inv hI hon hi.1
    refine h.acts rfl (fun a ha => Function.update_of_ne ha _ _) rfl (.inr rfl) id (by simp) (hlive (by simp [hst])) (by simp) ?_
    intro hn
    simp only [Priv.next]
    rw [Function.update_self]
    exact ⟨hn.ofile, hn.cwd⟩
  | @callExit p status ha hi hl =>
    have hst := ha.running hI
    intro a
    by_cases hap : a = p
    · subst hap
      have hn : (Priv.next s (.call a (.exit status)) x a).NoFiles := by
        simp only [Priv.next]
        rw [Function.update_self]
        exact Priv.exit_noFiles _
      exact .live (by simp [Sys.goto, Sys.setTh, hst]) (fresh_ne rfl (fun u _ => hlive (by simp [hst]) u) (fun h => by cases h)) fun _ => hn
    · refine (h a).move rfl (Function.update_of_ne hap _ _) rfl (.inl rfl) fun hp => ?_
      exact absurd (Option.some.inj hp).symm hap
  | @sleep p chan pc pc' _ ha hf hpc =>
    have hst := ha.running hI
    have hx : Priv.next s e x = x := by
      obtain ⟨rfl, rfl, n, -, rfl⟩ | ⟨rfl, ⟨addr, rfl, -, rfl⟩ | ⟨l, rfl, -, rfl, -⟩⟩ := hpc
      · rfl
      · simp [Priv.next, ha.point hI]
      · simp [Priv.next, ha.point hI]
    have hpc' : pc'.fresh = none ∧ pc'.exiting = false := by
      obtain ⟨rfl, rfl, -⟩ | ⟨-, ⟨addr, rfl, -, rfl⟩ | ⟨l, rfl, -, rfl, -⟩⟩ := hpc <;> exact ⟨rfl, rfl⟩
    rw [hx]
    exact h.acts rfl (fun _ _ => rfl) rfl (.inl hpc'.1) (by rw [hpc'.2]; simp) (by simp) (hlive (by simp [hst])) (by simp) id
  | @allocprocInit t c fr np ha =>
    have hx : Priv.next s (.next t) x = update x np { x np with nsched := 0, nticks := 0 } := by
      simp [Priv.next, ha.point hI]
    rw [hx]
    exact h.alloc (unused_of_taken hI (by rw [ha.pc]; rfl)) rfl rfl
  | allocprocList ha =>
    exact h.still rfl (by simp [Priv.next, ha.point hI]) rfl (.inr (by rw [ha.pc]; rfl)) (by intros; contradiction)
  | @forkCopy p c fr np ha =>
    have hst := used_of_inv hI (t := some p) (q := np) (by rw [ha.pc]; rfl)
    refine h.grows hI (by rw [ha.pc]; rfl) (Function.update_eq_self np s.proc).symm (fun a hne => ?_) rfl (.inl rfl) (.inl hst)
    simp [Priv.next, ha.point hI, hne]
  | @userinit c fr np ha =>
    refine h.grows hI (by rw [ha.pc]; rfl) rfl (fun a hne => ?_) rfl (.inr (.inr rfl)) (.inr rfl)
    simp [Priv.next, ha.point hI, hne]
  | @forkParent p c fr np ha hf =>
    have hst := used_of_inv hI (t := some p) (q := np) (by rw [ha.pc]; rfl)
    refine h.grows hI (by rw [ha.pc]; rfl) rfl (fun a hne => ?_) rfl (.inr (.inl rfl)) (.inl hst)
    simp [Priv.next, ha.point hI]
  | @forkRunnable p c fr np ha hf =>
    refine h.grows hI (by rw [ha.pc]; rfl) rfl (fun a hne => ?_) rfl (.inr (.inr rfl)) (.inr rfl)
    simp [Priv.next, ha.point hI]
  | exitCount ha hc =>
    refine h.still rfl (by simp [Priv.next, ha.point hI]) rfl (.inl ?_) (by rw [ha.pc]; exact fun _ => rfl)
    dsimp only
    split <;> rfl
  | exitIput ha hc hi => exact h.still rfl (by simp [Priv.next, ha.point hI]) rfl (.inl rfl) (by rw [ha.pc]; exact id)
  | exitLock ha hf => exact h.still rfl (by simp [Priv.next, ha.point hI]) rfl (.inl rfl) (by rw [ha.pc]; exact id)
  | reparentMiss ha hi hp => exact h.still rfl (by simp [Priv.next, ha.point hI]) rfl (.inl rfl) (by rw [ha.pc]; exact id)
  | @reparentHit p status q ha hp =>
    have hx : Priv.next s (.next (some p)) x = x := by simp [Priv.next, ha.point hI]
    rw [hx]
    -- an `UNUSED` slot and one that `allocproc` returns have no parent
    have hst : (s.proc q).state ≠ .unused := by
      intro hu
      have := ((h q).unused hu).parent
      rw [hp] at this
      cases this
    have hfr : ∀ u, (s.th u).pc.fresh ≠ some q := by
      intro u hu
      have := ((h q).fresh u hu).1.parent
      rw [hp] at this
      cases this
    exact h.acts rfl (fun _ _ => rfl) rfl (.inl rfl) (by rw [ha.pc]; exact id) hst hfr .inr id
  | reparentEnd ha hi => exact h.still rfl (by simp [Priv.next, ha.point hI]) rfl (.inl rfl) (by rw [ha.pc]; exact id)
  | @exitLast p status ha hf =>
    have hst := ha.running hI
    have hx : Priv.next s (.next (some p)) x = x := by simp [Priv.next, ha.point hI]
    rw [hx]
    exact h.acts rfl (fun _ _ => rfl) rfl (.inl rfl) (by intros; contradiction) (by simp) (hlive (by simp [hst]))
      (fun _ => .inl (by rw [ha.pc]; rfl)) id
  | scanOther ha hi hp => exact h.still rfl (by simp [Priv.next, ha.point hI, hi, hp]) rfl (.inl rfl) (by intros; contradiction)
  | scanChild ha hp hf hst => exact h.still rfl (by simp [Priv.next, ha.point hI, hst]) rfl (.inl rfl) (by intros; contradiction)
  | @scanZombie p addr hk status q ha hp hf hst hs =>
    have hx : Priv.next s (.next (some p)) x = update x q { x q with sz := 0 } := by
      simp [Priv.next, ha.point hI, hp, hst]
    rw [hx]
    refine h.change rfl (fun a hne => Function.update_of_ne hne _ _) rfl (.inl rfl) (.inr (by intros; contradiction)) ?_
    refine .reset (s := s) (x := x) rfl (Function.update_self ..) ((h q).zombie hst) (fresh_ne rfl (fun u _ => hlive ?_ u) (fun h => by cases h))
    simp [hst]
  | scanEnd ha hi => exact h.still rfl (by simp [Priv.next, ha.point hI, hi]) rfl (.inl rfl) (by intros; contradiction)
  | scanNone ha hi => exact h.still rfl (by simp [Priv.next, ha.point hI, hi]) rfl (.inl rfl) (by intros; contradiction)
  | freeprocUnlist ha hc =>
    refine h.still rfl (by simp [Priv.next, ha.point hI]) rfl (.inl ?_) ?_ <;> dsimp only <;> split <;> first | rfl | intro h; cases h
  | @freeprocUnlink p q w ha =>
    have hx : Priv.next s (.next (some p)) x = x := by simp [Priv.next, ha.point hI]
    have hst := unused_of_leaving hI (t := some p) (q := q) (by rw [ha.pc]; rfl)
    have hb := (h q).unused hst
    rw [hx]
    refine h.change rfl (fun _ _ => rfl) rfl (.inl rfl) (.inr (by intros; contradiction))
      ⟨fun _ => ?_, fun u hu => ?_, fun _ => hb.files, fun _ => hb.files⟩
    · simp only [Sys.ret, Sys.setTh, Sys.setProc, Function.update_self]
      exact ⟨hb.killed, hb.chan, hb.xstate, hb.parent, hb.sz, hb.files⟩
    · refine absurd hu (fresh_ne rfl (fun u _ => hlive (by simp [hst]) u) ?_ u)
      simp [Pc.fresh]
  | @killMark p pid q ha hp hf hst =>
    have hx : Priv.next s (.next (some p)) x = x := by simp [Priv.next, ha.point hI]
    rw [hx]
    have hu := hk p pid q.val rfl (ha.point hI) q rfl hp
    exact h.acts rfl (fun _ _ => rfl) rfl (.inl rfl) (by intros; contradiction) hu (not_fresh_of_free hI hf) .inr id
  | @killHit p pid q ha hp hf hst =>
    have hx : Priv.next s (.next (some p)) x = x := by simp [Priv.next, ha.point hI]
    rw [hx]
    refine h.acts (q := q) (r := { s.proc q with killed := true, state := .runnable }) ?_ (fun _ _ => rfl) rfl (.inl rfl)
      (by intros; contradiction) (by simp) (hlive (by simp [hst])) (by simp) id
    simp [Sys.goto, Sys.setTh, Sys.setState, Sys.setProc]
  | @failFork p c fr np ha =>
    have hx : Priv.next s (.fail (some p)) x = update x np { x np with sz := 0 } := by simp [Priv.next, ha.point hI]
    rw [hx]
    have hfr : (s.th (some p)).pc.fresh = some np := by rw [ha.pc]; rfl
    refine h.change rfl (fun a hne => Function.update_of_ne hne _ _) rfl (.inl rfl) (.inr (by intros; contradiction)) ?_
    refine .reset (s := s) (x := x) rfl (Function.update_self ..) ((h np).fresh _ hfr).1.files
      (fresh_ne rfl (fun u hu huf => hu ?_) (fun h => by cases h))
    have := (place_of_fresh hI huf).symm.trans (place_of_fresh hI hfr)
    simpa only [Place.hand.injEq, true_and] using this
  | yieldPush hon hsw hc => exact h.still rfl (by simp [Priv.next, Sys.point, hsw]) rfl (.inr rfl) id
  | sched hon hsw hk => exact h.still rfl (by simp [Priv.next, Sys.point, hsw]) rfl (.inr rfl) id
  | wakeupMiss hw hi hm => exact h.still rfl (by simp [Priv.next, Sys.point, hw.sw, hw.wake]) rfl (.inr rfl) id
  | wakeupEnd hw hi => exact h.still rfl (by simp [Priv.next, Sys.point, hw.sw, hw.wake]) rfl (.inr rfl) id
  | wakeupPush hw hc => exact h.still rfl (by simp [Priv.next, Sys.point, hw.sw, hw.wake]) rfl (.inr rfl) id
  | @wakeupHit p chan q hw hne hf hst hch =>
    have hx : Priv.next s (.next (some p)) x = x := by simp [Priv.next, Sys.point, hw.sw, hw.wake]
    rw [hx]
    exact h.acts rfl (fun _ _ => rfl) rfl (.inr rfl) id (by simp) (hlive (by simp [hst])) (by simp) id
  | callFork ha | callCfork ha | callWait ha | callKill ha | callWakeup ha | callAcquire ha | callRelease ha =>
    exact h.still rfl rfl rfl (.inl rfl) (fun h => by cases h)
  | failCont ha | failWait ha => exact h.still rfl (by simp [Priv.next, ha.point hI]) rfl (.inl rfl) (fun h => by cases h)
  | _ =>
    have ha := ‹s.At _ _›
    exact h.still rfl (by simp [Priv.next, ha.point hI]) rfl (.inl rfl) (fun h => by cases h)

/-! ### Runs -/

omit [DecidableEq L] in
theorem procinit_scrubbed : Scrubbed (procinit L) (fun _ => (Priv.zero : Priv F)) := by
  have hn : (Priv.zero : Priv F).NoFiles := ⟨fun _ => rfl, rfl⟩
  intro a
  refine ⟨fun _ => ⟨rfl, rfl, rfl, rfl, rfl, hn⟩, fun t ht => ?_, fun _ => hn, fun _ => hn⟩
  simp only [procinit] at ht
  split at ht <;> cases ht

omit [DecidableEq L] in
/-- A process on a hart changes its own fields. -/
private theorem Scrubbed.own {p : Slot} (h : Scrubbed s x) (hI : s.view.Inv T) (hrun : s.AtRun p = true)
    (hp : ∀ a, a ≠ p → s'.proc a = s.proc a) (hst : (s'.proc p).state = (s.proc p).state) (hth : s'.th = s.th)
    (hx : ∀ a, a ≠ p → x' a = x a) : Scrubbed s' x' := by
  have hlive : (s.proc p).state = .running ∧ (s.th (some p)).pc = .run := by
    unfold Sys.AtRun at hrun
    split at hrun
    · rename_i hsw hwk hpc
      exact ⟨running_of_inv hI (of_decide_eq_true hrun) hsw, hpc⟩
    · cases hrun
  intro a
  by_cases hap : a = p
  · subst hap
    refine .live (by rw [hst, hlive.1]; nofun) (fun u hu => ?_) ?_
    · rw [hth] at hu
      rw [used_of_fresh hI hu] at hlive
      cases hlive.1
    · rw [hth, hlive.2, hst, hlive.1]
      nofun
  · refine (h a).same (hp a hap) (hx a hap) ?_ ?_ <;> rw [hth]
    · exact fun _ => id
    · exact id

omit [DecidableEq L] in
private theorem view_setkilled (p : Slot) : (s.setProc p { s.proc p with killed := true }).view = s.view := by
  have h : ∀ q, ((s.setProc p { s.proc p with killed := true }).proc q).state = (s.proc q).state ∧
      ((s.setProc p { s.proc p with killed := true }).proc q).contp = (s.proc q).contp := by
    intro q
    by_cases hq : q = p
    · subst hq
      simp [Sys.setProc]
    · simp [Sys.setProc, hq]
  simp only [Sys.view, h]
  rfl

theorem scrubbed_reachable [Fintype L] (h : ((privLts L F).guard KillsUsed).Reachable (s, x)) :
    ∃ T, s.view.Inv T ∧ Scrubbed s x := by
  refine h.invariant (I := fun y => ∃ T, y.1.view.Inv T ∧ Scrubbed y.1 y.2) ?_ ?_
  · rintro y rfl
    exact ⟨_, procinit_inv, procinit_scrubbed⟩
  · rintro ⟨s, x⟩ e ⟨s', x'⟩ ⟨T, hT, hS⟩ ⟨hk, hst⟩
    cases e with
    | sys e =>
      obtain ⟨hstep, hx⟩ := Lts.histStep_ok hst
      cases hx
      have hsect := Sys.step_sect hstep
      obtain ⟨U, hU⟩ := hT.sect hsect
      refine ⟨U, hU, hS.sect hT hsect ?_⟩
      rintro p pid i rfl hpt
      simpa only [KillsUsed, hpt] using hk
    | file p c =>
      simp only [privLts, Lts.ofFun, privStep] at hst
      split at hst
      · rename_i hrun
        cases hst
        exact ⟨T, hT, hS.own hT hrun (fun _ _ => rfl) rfl rfl fun a ha => Function.update_of_ne ha _ _⟩
      · cases hst
    | setkilled p =>
      simp only [privLts, Lts.ofFun, privStep] at hst
      split at hst
      · rename_i hrun
        cases hst
        refine ⟨T, (view_setkilled p).symm ▸ hT, hS.own hT hrun.1 (fun a ha => Function.update_of_ne ha _ _) ?_ rfl fun _ _ => rfl⟩
        simp [Sys.setProc]
      · cases hst

/-- What `allocproc` returns: a process with nothing left from the last one in its slot. -/
structure Recycled (p : Proc L) (x : Priv F) : Prop where
  killed : p.killed = false
  chan : p.chan = none
  xstate : p.xstate = 0
  parent : p.parent = none
  sz : x.sz = 0
  ofile : ∀ fd, x.ofile fd = none
  cwd : x.cwd = none
  nsched : x.nsched = 0
  nticks : x.nticks = 0

/-- In every run in which `kill` marks no `UNUSED` slot, whatever `allocproc` returns is clean. -/
theorem allocproc_clean [Fintype L] (h : ((privLts L F).guard KillsUsed).Reachable (s, x)) {t : Thread} {c : ContId} {fr : Bool}
    {np : Slot} (ht : (s.th t).pc = .listed c fr np) : Recycled (s.proc np) (x np) := by
  obtain ⟨T, -, hS⟩ := scrubbed_reachable h
  obtain ⟨hb, h1, h2⟩ := (hS np).fresh t (by rw [ht]; rfl)
  exact ⟨hb.killed, hb.chan, hb.xstate, hb.parent, hb.sz, hb.files.ofile, hb.files.cwd, h1, h2⟩

/-- A test for `KillsUsed`. -/
def killsUsedTest (y : Sys Unit × (Slot → Priv Unit)) : PEv Unit Unit → Bool
  | .sys (.next (some p)) =>
    match y.1.point (some p) with
    | some (.kill pid i) => decide (∀ q : Slot, q.val = i → (y.1.proc q).pid = pid → (y.1.proc q).state ≠ .unused)
    | _ => true
  | _ => true

private theorem killsUsed_of_test (y : Sys Unit × (Slot → Priv Unit)) (e : PEv Unit Unit) (h : killsUsedTest y e = true) :
    KillsUsed y e := by
  unfold killsUsedTest at h
  unfold KillsUsed
  split
  · dsimp only at h
    split
    · rename_i hpt
      rw [hpt] at h
      exact of_decide_eq_true h
    · trivial
  · trivial

/-- What `allocproc`, called by the process in slot 0, has returned. -/
private def returned (s : Sys Unit) : Option Slot :=
  match (s.th (some ⟨0, NPROC_pos⟩)).pc with
  | .listed _ _ np => some np
  | _ => none

private theorem returned_eq {s : Sys Unit} {np : Slot} (h : returned s = some np) :
    ∃ c fr, (s.th (some ⟨0, by decide⟩)).pc = .listed c fr np := by
  unfold returned at h
  split at h
  · cases h
    exact ⟨_, _, ‹_›⟩
  · cases h

/-- The first process makes a child, which opens a file; the child is killed. -/
def usedRun : List (PEv Unit Unit) :=
  forkRun.map .sys ++ [.sys (.pop ⟨1, one_lt_NCPU⟩ contRoot), .sys (.switch ⟨1, one_lt_NCPU⟩), .file ⟨1, one_lt_NPROC⟩ (.open ()),
    .sys (.call ⟨0, NPROC_pos⟩ (.kill 2))] ++ List.replicate 2 (.sys (.next (some ⟨0, NPROC_pos⟩)))

/-- A `fork` without memory for the child, whose slot goes to the end of `unused_list`. -/
def failingFork : List (PEv Unit Unit) :=
  .sys (.call ⟨0, NPROC_pos⟩ .fork) :: List.replicate 4 (.sys (.next (some ⟨0, NPROC_pos⟩))) ++ [.sys (.fail (some ⟨0, NPROC_pos⟩))] ++
    List.replicate 2 (.sys (.next (some ⟨0, NPROC_pos⟩)))

/-- The child exits and is reaped, and its slot is the first on `unused_list` again when the first process makes another child. -/
def reuseRun : List (PEv Unit Unit) :=
  .sys (.call ⟨1, one_lt_NPROC⟩ (.exit 7)) :: List.replicate 134 (.sys (.next (some ⟨1, one_lt_NPROC⟩))) ++
    [.sys (.call ⟨0, NPROC_pos⟩ (.wait 0))] ++ List.replicate 5 (.sys (.next (some ⟨0, NPROC_pos⟩))) ++
    (List.replicate 62 failingFork).flatten ++ [.sys (.call ⟨0, NPROC_pos⟩ .fork)] ++ List.replicate 4 (.sys (.next (some ⟨0, NPROC_pos⟩)))

/-- A slot has had a process with an open file, which was killed, and is clean when `allocproc` returns it again. -/
theorem allocproc_clean_reuseRun : ∃ (u : Sys Unit × (Slot → Priv Unit)) (s : Sys Unit) (x : Slot → Priv Unit) (t : Thread) (c : ContId)
    (fr : Bool) (np : Slot), Lts.replay privStep killsUsedTest u reuseRun = some (s, x) ∧ (u.1.proc np).killed = true ∧
    (∃ fd, (u.2 np).ofile fd = some ()) ∧ (s.th t).pc = .listed c fr np ∧ Recycled (s.proc np) (x np) := by
  let np : Slot := ⟨1, by decide⟩
  obtain ⟨u, hu, hs⟩ := Lts.Reachable.replay_any (C := KillsUsed) (f := privStep) (c := killsUsedTest) killsUsed_of_test
    (l := usedRun) (s := (procinit Unit, fun _ => Priv.zero)) (I := (· = (procinit Unit, fun _ => Priv.zero))) rfl
    (P := fun u => (u.1.proc np).killed && (u.2 np).ofile ⟨0, by decide⟩ == some () &&
      (Lts.replay privStep killsUsedTest u reuseRun).any fun y => returned y.1 == some np) (by decide +kernel)
  simp only [Bool.and_eq_true, beq_iff_eq] at hs
  obtain ⟨⟨hk, ho⟩, hs⟩ := hs
  obtain ⟨⟨s, x⟩, hrun, hn⟩ := (Option.any_eq_true _ _).1 hs
  obtain ⟨c, fr, ht⟩ := returned_eq (eq_of_beq hn)
  exact ⟨u, s, x, _, c, fr, np, hrun, hk, ⟨_, ho⟩, ht, allocproc_clean (hu.replay killsUsed_of_test hrun) ht⟩

/-- The first process calls `kill(0)`, which marks the next free slot, and makes a child. -/
def killZeroRun : List (Ev Unit) :=
  List.replicate 6 (.next none) ++ [.pop ⟨0, NCPU_pos⟩ contRoot, .switch ⟨0, NCPU_pos⟩,
    .call ⟨0, NPROC_pos⟩ (.kill 0), .next (some ⟨0, NPROC_pos⟩), .next (some ⟨0, NPROC_pos⟩),
    .call ⟨0, NPROC_pos⟩ .fork] ++
    List.replicate 4 (.next (some ⟨0, NPROC_pos⟩))

/-- The child starts with the mark. -/
theorem kill_zero_marks_child : ∃ (s : Sys Unit) (x : Slot → Priv Unit) (t : Thread) (c : ContId) (fr : Bool) (np : Slot),
    (privLts Unit Unit).Reachable (s, x) ∧ (s.th t).pc = .listed c fr np ∧ (s.proc np).killed = true := by
  obtain ⟨⟨s, x⟩, hr, hs⟩ := Lts.Reachable.replay_any (C := fun _ _ => True) (f := privStep) (c := fun _ _ => true)
    (fun _ _ _ => trivial) (l := killZeroRun.map .sys) (s := (procinit Unit, fun _ => (Priv.zero : Priv Unit)))
    (I := (· = (procinit Unit, fun _ => Priv.zero))) rfl
    (P := fun y => returned y.1 == some ⟨1, by decide⟩ && (y.1.proc ⟨1, by decide⟩).killed) (by decide +kernel)
  simp only [Bool.and_eq_true, beq_iff_eq] at hs
  obtain ⟨c, fr, ht⟩ := returned_eq hs.1
  exact ⟨s, x, _, c, fr, _, hr.of_guard, ht, hs.2⟩

end Xv6
