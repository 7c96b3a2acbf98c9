import Xv6.FsSys

/-!
# Code that logs what it changes

`Prog.wp` is the weakest precondition of a program for the discipline of `log_write`: a buffer is released only when it has not
been changed since it was read, logged or written to disk.  `Ghost` is what the process knows: which buffers it holds, for
which block, and whether it has changed them; and, in `commit`, which blocks are in the header, still pinned, and written to
their home.  Every function of `fs.c` returns with the buffers it was called with.
-/

namespace Xv6

open Function (update)

/-- What the process in `commit` knows. -/
structure Committing where
  lh : List UInt32
  pins : List UInt32
  synced : List UInt32

structure Ghost where
  held : Fin NBUF → Option (UInt32 × Bool)
  inOp : Bool
  com : Option Committing

namespace Ghost

def hold (g : Ghost) (i : Fin NBUF) (b : UInt32) (dirty : Bool) : Ghost := { g with held := update g.held i (some (b, dirty)) }

def drop (g : Ghost) (i : Fin NBUF) : Ghost := { g with held := update g.held i none }

end Ghost

namespace Prog

variable {α β : Type}

def wp : Prog α → (α → Ghost → Prop) → Ghost → Prop
  | .pure a, Q, g => Q a g
  | .panic _, _, _ => True
  | .bread b k, Q, g => ∀ i, g.held i = none → (k i).wp Q (g.hold i b false)
  | .data _ k, Q, g => ∀ d, (k d).wp Q g
  | .store i _ k, Q, g => ∃ b c, g.held i = some (b, c) ∧ k.wp Q (g.hold i b true)
  -- a copy that fails leaves the buffer as it was, or the block is in the log already
  | .copyin i _ _ k, Q, g => g.inOp = true ∧ ∃ b c, g.held i = some (b, c) ∧ (k true).wp Q (g.hold i b true) ∧ (k false).wp Q g
  | .copyout _ _ _ k, Q, g => ∀ ok, (k ok).wp Q g
  | .logWrite i k, Q, g => g.com = none ∧ ∃ b c, g.held i = some (b, c) ∧ k.wp Q (g.hold i b false)
  | .bwrite i k, Q, g => ∃ b c x, g.held i = some (b, c) ∧ g.com = some x ∧
    k.wp Q { g.hold i b false with com := some { x with synced := b :: x.synced } }
  | .brelse i k, Q, g => ∃ b, g.held i = some (b, false) ∧ k.wp Q (g.drop i)
  | .bunpin i k, Q, g => ∃ b c x, g.held i = some (b, c) ∧ g.com = some x ∧ b ∈ x.pins ∧
    k.wp Q { g with com := some { x with pins := x.pins.erase b } }
  | .readLog k, Q, g => ∃ x, g.com = some x ∧ ∀ lg : Log, lg.lh = x.lh → (k lg).wp Q g
  | .clearHead k, Q, g => ∃ x, g.com = some x ∧ (∀ b ∈ x.lh, b ∈ x.synced) ∧ x.pins = [] ∧
    k.wp Q { g with com := some ⟨[], [], []⟩ }

@[simp] theorem wp_pure (a : α) (Q : α → Ghost → Prop) (g : Ghost) : wp (Pure.pure a) Q g = Q a g := rfl

@[simp] theorem wp_bind (p : Prog α) (f : α → Prog β) (Q : β → Ghost → Prop) (g : Ghost) :
    wp (p >>= f) Q g ↔ p.wp (fun a => (f a).wp Q) g := by
  change (p.bind f).wp Q g ↔ _
  induction p generalizing g with
  | pure a => exact .rfl
  | panic msg => exact .rfl
  | bread b k ih => exact forall_congr' fun i => imp_congr_right fun _ => ih i _
  | data i k ih => exact forall_congr' fun d => ih d _
  | store i d k ih => exact exists_congr fun b => exists_congr fun c => and_congr_right fun _ => ih _
  | copyin i off m k ih =>
    refine and_congr_right fun _ => exists_congr fun b => exists_congr fun c => and_congr_right fun _ => ?_
    exact and_congr (ih true _) (ih false _)
  | copyout i off m k ih => exact forall_congr' fun ok => ih ok _
  | logWrite i k ih =>
    exact and_congr_right fun _ => exists_congr fun b => exists_congr fun c => and_congr_right fun _ => ih _
  | bwrite i k ih =>
    refine exists_congr fun b => exists_congr fun c => exists_congr fun x => ?_
    exact and_congr_right fun _ => and_congr_right fun _ => ih _
  | brelse i k ih => exact exists_congr fun b => and_congr_right fun _ => ih _
  | bunpin i k ih =>
    refine exists_congr fun b => exists_congr fun c => exists_congr fun x => ?_
    exact and_congr_right fun _ => and_congr_right fun _ => and_congr_right fun _ => ih _
  | readLog k ih => exact exists_congr fun x => and_congr_right fun _ => forall_congr' fun lg => imp_congr_right fun _ => ih lg _
  | clearHead k ih =>
    exact exists_congr fun x => and_congr_right fun _ => and_congr_right fun _ => and_congr_right fun _ => ih _

end Prog

/-! ### One rule for each call -/

namespace Ghost

@[simp] theorem hold_held (g : Ghost) (i : Fin NBUF) (b : UInt32) (c : Bool) : (g.hold i b c).held i = some (b, c) :=
  Function.update_self ..

@[simp] theorem hold_com (g : Ghost) (i : Fin NBUF) (b : UInt32) (c : Bool) : (g.hold i b c).com = g.com := rfl

@[simp] theorem hold_inOp (g : Ghost) (i : Fin NBUF) (b : UInt32) (c : Bool) : (g.hold i b c).inOp = g.inOp := rfl

@[simp] theorem hold_hold (g : Ghost) (i : Fin NBUF) (a b : UInt32) (c d : Bool) : (g.hold i a c).hold i b d = g.hold i b d := by
  simp [hold]

theorem hold_drop {g : Ghost} {i : Fin NBUF} (h : g.held i = none) (b : UInt32) (c : Bool) : (g.hold i b c).drop i = g := by
  simp [hold, drop, ← h]

theorem hold_comm {g : Ghost} {i j : Fin NBUF} (h : i ≠ j) (a b : UInt32) (c d : Bool) :
    (g.hold i a c).hold j b d = (g.hold j b d).hold i a c := by
  simp only [hold, Function.update_comm h]

theorem ne_of_held {g : Ghost} {i j : Fin NBUF} {a : UInt32} {c : Bool} (h : (g.hold i a c).held j = none) : j ≠ i := by
  rintro rfl
  rw [hold_held] at h
  cases h

theorem held_of_ne {g : Ghost} {i j : Fin NBUF} (h : j ≠ i) (a : UInt32) (c : Bool) : (g.hold i a c).held j = g.held j :=
  Function.update_of_ne h ..

end Ghost

namespace Fs

variable {sb : Superblock} {g : Ghost}

section

variable {α : Type} {f : Fin NBUF → Prog α} {h : Unit → Prog α} {Q : α → Ghost → Prop} {i : Fin NBUF} {b : UInt32} {c : Bool}

theorem bread_wp (hf : ∀ i, g.held i = none → (f i).wp Q (g.hold i b false)) : (bread b >>= f).wp Q g := hf

theorem data_wp {f : Block → Prog α} (hf : ∀ d, (f d).wp Q g) : (data i >>= f).wp Q g := hf

theorem copyout_wp {f : Bool → Prog α} {off m : Nat} (hf : ∀ ok, (f ok).wp Q g) : (copyout i off m >>= f).wp Q g := hf

theorem copyin_wp {f : Bool → Prog α} {off m : Nat} (ho : g.inOp = true) (hi : g.held i = some (b, c))
    (h1 : (f true).wp Q (g.hold i b true)) (h2 : (f false).wp Q g) : (copyin i off m >>= f).wp Q g :=
  ⟨ho, b, c, hi, h1, h2⟩

theorem store_wp {d : Block} (hi : g.held i = some (b, c)) (hh : (h ()).wp Q (g.hold i b true)) : (store i d >>= h).wp Q g :=
  ⟨b, c, hi, hh⟩

theorem logWrite_wp (hc : g.com = none) (hi : g.held i = some (b, c)) (hh : (h ()).wp Q (g.hold i b false)) :
    (logWrite i >>= h).wp Q g :=
  ⟨hc, b, c, hi, hh⟩

theorem brelse_wp (hi : g.held i = some (b, false)) (hh : (h ()).wp Q (g.drop i)) : (brelse i >>= h).wp Q g := ⟨b, hi, hh⟩

/-- The end of a use of a buffer that was changed: log it and release it. -/
theorem logged_wp {d : Block} {k : Prog α} (hc : g.com = none) (hi : g.held i = none) (hk : k.wp Q g) :
    (do store i d; logWrite i; brelse i; k).wp Q (g.hold i b false) := by
  refine store_wp (g.hold_held i b false) ?_
  rw [Ghost.hold_hold]
  refine logWrite_wp hc (g.hold_held i b true) ?_
  rw [Ghost.hold_hold]
  refine brelse_wp (g.hold_held i b false) ?_
  rwa [Ghost.hold_drop hi]

end

/-! ### `fs.c` -/

theorem bzero_wp {Q : Unit → Ghost → Prop} (bno : UInt32) (hc : g.com = none) (h : Q () g) : (bzero bno).wp Q g := by
  refine bread_wp fun i hi => ?_
  exact logged_wp (k := pure ()) hc hi h

theorem ballocFrom_wp {Q : UInt32 → Ghost → Prop} (js : List Nat) (hc : g.com = none) (h : ∀ a, Q a g) :
    (ballocFrom sb js).wp Q g := by
  induction js with
  | nil => exact h 0
  | cons j js ih =>
    refine bread_wp fun i hi => data_wp fun d => ?_
    split
    · rename_i bi _
      refine logged_wp hc hi ?_
      rw [Prog.wp_bind]
      exact bzero_wp _ hc (h _)
    · refine brelse_wp (g.hold_held i _ false) ?_
      rw [Ghost.hold_drop hi]
      exact ih

theorem balloc_wp {Q : UInt32 → Ghost → Prop} (hc : g.com = none) (h : ∀ a, Q a g) : (balloc sb).wp Q g :=
  ballocFrom_wp _ hc h

theorem bfree_wp {Q : Unit → Ghost → Prop} (b : UInt32) (hc : g.com = none) (h : Q () g) : (bfree sb b).wp Q g := by
  refine bread_wp fun i hi => data_wp fun d => ?_
  dsimp only
  split
  · trivial
  · exact logged_wp (k := pure ()) hc hi h

theorem iallocFrom_wp {Q : Option UInt32 → Ghost → Prop} (type : UInt16) (ns : List Nat) (hc : g.com = none)
    (h : ∀ a, Q a g) : (iallocFrom sb type ns).wp Q g := by
  induction ns with
  | nil => exact h none
  | cons n ns ih =>
    refine bread_wp fun i hi => data_wp fun d => ?_
    split
    · exact logged_wp hc hi (h _)
    · refine brelse_wp (g.hold_held i _ false) ?_
      rw [Ghost.hold_drop hi]
      exact ih

theorem iupdate_wp {Q : Unit → Ghost → Prop} (ip : Inode) (hc : g.com = none) (h : Q () g) : (iupdate sb ip).wp Q g := by
  refine bread_wp fun i hi => data_wp fun d => ?_
  exact logged_wp (k := pure ()) hc hi h

theorem ilock_wp {Q : Inode → Ghost → Prop} (inum : UInt32) (h : ∀ a, Q a g) : (ilock sb inum).wp Q g := by
  refine bread_wp fun i hi => data_wp fun d => ?_
  refine brelse_wp (g.hold_held i _ false) ?_
  rw [Ghost.hold_drop hi]
  split
  · trivial
  · exact h _

theorem addrAt_wp {Q : Inode × UInt32 → Ghost → Prop} (ip : Inode) (k : Fin (NDIRECT + 1)) (hc : g.com = none)
    (h : ∀ a, Q a g) : (addrAt sb ip k).wp Q g := by
  unfold addrAt
  split
  · exact h _
  · rw [Prog.wp_bind]
    refine balloc_wp hc fun a => ?_
    split
    · exact h _
    · exact h _

theorem bmap_wp {Q : Inode × UInt32 → Ghost → Prop} (ip : Inode) (bn : Nat) (hc : g.com = none) (h : ∀ a, Q a g) :
    (bmap sb ip bn).wp Q g := by
  unfold bmap
  split
  · exact addrAt_wp ip _ hc h
  · split
    · rw [Prog.wp_bind]
      refine addrAt_wp ip _ hc fun a => ?_
      dsimp only
      split
      · exact h _
      · refine bread_wp fun i hi => data_wp fun d => ?_
        split
        · refine brelse_wp (g.hold_held i _ false) ?_
          rw [Ghost.hold_drop hi]
          exact h _
        · rw [Prog.wp_bind]
          refine balloc_wp hc fun addr => ?_
          split
          · exact data_wp fun d => logged_wp hc hi (h _)
          · refine brelse_wp (g.hold_held i _ false) ?_
            rw [Ghost.hold_drop hi]
            exact h _
    · trivial

theorem itruncDirect_wp {Q : Inode → Ghost → Prop} (ip : Inode) (is : List (Fin (NDIRECT + 1))) (hc : g.com = none)
    (h : ∀ a, Q a g) : (itruncDirect sb ip is).wp Q g := by
  induction is generalizing ip with
  | nil => exact h ip
  | cons i is ih =>
    unfold itruncDirect
    split
    · rw [Prog.wp_bind]
      exact bfree_wp _ hc (ih _)
    · exact ih ip

theorem itruncIndirect_wp {Q : Unit → Ghost → Prop} (l : List UInt32) (hc : g.com = none) (h : Q () g) :
    (itruncIndirect sb l).wp Q g := by
  induction l with
  | nil => exact h
  | cons a l ih =>
    unfold itruncIndirect
    split
    · rw [Prog.wp_bind]
      exact bfree_wp _ hc ih
    · exact ih

theorem itrunc_wp {Q : Inode → Ghost → Prop} (ip : Inode) (hc : g.com = none) (h : ∀ a, Q a g) : (itrunc sb ip).wp Q g := by
  have hend : ∀ ip : Inode, (do iupdate sb ip; pure ip : Prog Inode).wp Q g := by
    intro ip
    rw [Prog.wp_bind]
    exact iupdate_wp ip hc (h ip)
  unfold itrunc
  rw [Prog.wp_bind]
  refine itruncDirect_wp ip _ hc fun ip => ?_
  split
  · refine bread_wp fun i hi => data_wp fun d => ?_
    rw [Prog.wp_bind]
    refine itruncIndirect_wp _ hc ?_
    refine brelse_wp (g.hold_held i _ false) ?_
    rw [Ghost.hold_drop hi, Prog.wp_bind]
    exact bfree_wp _ hc (hend _)
  · exact hend _

theorem readiLoop_wp {Q : Inode × Int → Ghost → Prop} (fuel : Nat) (ip : Inode) (off n : Nat) (tot : Int) (hc : g.com = none)
    (h : ∀ a, Q a g) : (readiLoop sb fuel ip off n tot).wp Q g := by
  induction fuel generalizing ip off n tot with
  | zero => exact h _
  | succ fuel ih =>
    unfold readiLoop
    split
    · exact h _
    · rw [Prog.wp_bind]
      refine bmap_wp ip _ hc fun a => ?_
      dsimp only
      split
      · exact h _
      · refine bread_wp fun i hi => copyout_wp fun ok => ?_
        split
        · refine brelse_wp (g.hold_held i _ false) ?_
          rw [Ghost.hold_drop hi]
          exact h _
        · refine brelse_wp (g.hold_held i _ false) ?_
          rw [Ghost.hold_drop hi]
          exact ih _ _ _ _

theorem readi_wp {Q : Inode × Int → Ghost → Prop} (ip : Inode) (off n : UInt32) (hc : g.com = none) (h : ∀ a, Q a g) :
    (readi sb ip off n).wp Q g := by
  unfold readi
  split
  · exact h _
  · exact readiLoop_wp _ _ _ _ _ hc h

theorem writeiLoop_wp {Q : Inode × Int × Nat → Ghost → Prop} (fuel : Nat) (ip : Inode) (off n : Nat) (tot : Int)
    (hc : g.com = none) (ho : g.inOp = true) (h : ∀ a, Q a g) : (writeiLoop sb fuel ip off n tot).wp Q g := by
  induction fuel generalizing ip off n tot with
  | zero => exact h _
  | succ fuel ih =>
    unfold writeiLoop
    split
    · exact h _
    · rw [Prog.wp_bind]
      refine bmap_wp ip _ hc fun a => ?_
      dsimp only
      split
      · exact h _
      · refine bread_wp fun i hi => copyin_wp ho (g.hold_held i _ false) ?_ ?_
        · rw [Ghost.hold_hold]
          refine logWrite_wp hc (g.hold_held i _ true) ?_
          rw [Ghost.hold_hold]
          refine brelse_wp (g.hold_held i _ false) ?_
          rw [Ghost.hold_drop hi]
          exact ih _ _ _ _
        · refine brelse_wp (g.hold_held i _ false) ?_
          rw [Ghost.hold_drop hi]
          exact h _

theorem writei_wp {Q : Inode × Int → Ghost → Prop} (ip : Inode) (off n : UInt32) (hc : g.com = none) (ho : g.inOp = true)
    (h : ∀ a, Q a g) : (writei sb ip off n).wp Q g := by
  unfold writei
  split
  · exact h _
  · split
    · exact h _
    · rw [Prog.wp_bind]
      refine writeiLoop_wp _ _ _ _ _ hc ho fun a => ?_
      dsimp only
      rw [Prog.wp_bind]
      exact iupdate_wp _ hc (h _)

/-- A call by a process that is not in `commit`, inside an operation if it writes. -/
theorem call_wp {Q : Unit → Ghost → Prop} (c : FsCall) (hc : g.com = none) (ho : g.inOp = true ∨ c.reads = true) (h : Q () g) :
    (c.prog sb).wp Q g := by
  cases c with
  | ialloc type => exact (Prog.wp_bind ..).2 (iallocFrom_wp _ _ hc fun _ => h)
  | iupdate ip => exact iupdate_wp ip hc h
  | ilock inum => exact (Prog.wp_bind ..).2 (ilock_wp _ fun _ => h)
  | itrunc ip => exact (Prog.wp_bind ..).2 (itrunc_wp _ hc fun _ => h)
  | readi ip off n => exact (Prog.wp_bind ..).2 (readi_wp _ _ _ hc fun _ => h)
  | writei ip off n => exact (Prog.wp_bind ..).2 (writei_wp _ _ _ hc (ho.resolve_right nofun) fun _ => h)

/-! ### `commit` -/

section

variable {x : Committing} {Q : Unit → Ghost → Prop}

/-- The process in `commit`, with other facts about the log. -/
def withCom (g : Ghost) (x : Committing) : Ghost := { g with com := some x }

variable {α : Type} {h : Unit → Prog α} {R : α → Ghost → Prop} {i j : Fin NBUF} {a b : UInt32} {c : Bool}

theorem bwrite_wp (hi : g.held i = some (b, c)) (hx : g.com = some x)
    (hh : (h ()).wp R (withCom (g.hold i b false) { x with synced := b :: x.synced })) : (bwrite i >>= h).wp R g :=
  ⟨b, c, x, hi, hx, hh⟩

theorem bunpin_wp (hi : g.held i = some (b, c)) (hx : g.com = some x) (hb : b ∈ x.pins)
    (hh : (h ()).wp R (withCom g { x with pins := x.pins.erase b })) : (bunpin i >>= h).wp R g :=
  ⟨b, c, x, hi, hx, hb, hh⟩

theorem readLog_wp {f : Log → Prog α} (hx : g.com = some x) (hf : ∀ lg : Log, lg.lh = x.lh → (f lg).wp R g) :
    (readLog >>= f).wp R g :=
  ⟨x, hx, hf⟩

/-- A buffer is changed and written to disk. -/
theorem written_wp {d : Block} {k : Prog α} (hx : g.com = some x)
    (hk : k.wp R ((withCom g { x with synced := b :: x.synced }).hold i b false)) :
    (do store i d; bwrite i; k).wp R (g.hold i b false) := by
  refine store_wp (g.hold_held i b false) ?_
  rw [Ghost.hold_hold]
  refine bwrite_wp (g.hold_held i b true) hx ?_
  rw [Ghost.hold_hold]
  exact hk

/-- Two buffers are released. -/
theorem released_wp {k : Prog α} (hi : g.held i = none) (hj : g.held j = none) (hij : i ≠ j) (hk : k.wp R g) :
    (do brelse i; brelse j; k).wp R ((g.hold i a false).hold j b false) := by
  rw [Ghost.hold_comm hij]
  refine brelse_wp (Ghost.hold_held _ i a false) ?_
  rw [Ghost.hold_drop (by rwa [Ghost.held_of_ne hij])]
  refine brelse_wp (g.hold_held j b false) ?_
  rwa [Ghost.hold_drop hj]

theorem writeLogFrom_wp {Q : Unit → Ghost → Prop} (lg : Log) (tail : Nat) (bs : List UInt32) {y : Committing}
    (hQ : ∀ l, Q () (withCom g { y with synced := l })) {l : List UInt32} :
    (writeLogFrom lg tail bs).wp Q (withCom g { y with synced := l }) := by
  induction bs generalizing tail l with
  | nil => exact hQ l
  | cons b bs ih =>
    refine bread_wp fun i hi => bread_wp fun j hj => data_wp fun d => ?_
    have hji := Ghost.ne_of_held hj
    rw [Ghost.hold_comm hji.symm]
    refine written_wp (x := { y with synced := l }) rfl ?_
    have hj' : g.held j = none := (Ghost.held_of_ne hji _ _).symm.trans hj
    exact released_wp (g := withCom g { y with synced := lg.slot tail :: l })
      (k := writeLogFrom lg (tail + 1) bs) hj' hi hji (ih (tail + 1))

theorem writeHead_wp {Q : Unit → Ghost → Prop} {y : Committing} (hQ : ∀ l, Q () (withCom g { y with synced := l }))
    {l : List UInt32} : writeHead.wp Q (withCom g { y with synced := l }) := by
  refine readLog_wp rfl fun lg _ => bread_wp fun i hi => data_wp fun d => ?_
  refine written_wp (x := { y with synced := l }) rfl ?_
  refine brelse_wp (h := fun _ => pure ()) (Ghost.hold_held _ i _ false) ?_
  rw [Ghost.hold_drop (by exact hi)]
  exact hQ _

theorem installFrom_wp {Q : Unit → Ghost → Prop} (lg : Log) (tail : Nat) (bs : List UInt32) {lh l : List UInt32}
    (hQ : ∀ l', l ⊆ l' → bs ⊆ l' → Q () (withCom g ⟨lh, [], l'⟩)) :
    (installFrom lg tail bs).wp Q (withCom g ⟨lh, bs, l⟩) := by
  induction bs generalizing tail l with
  | nil => exact hQ l (List.Subset.refl l) (List.nil_subset l)
  | cons b bs ih =>
    refine bread_wp fun i hi => bread_wp fun j hj => data_wp fun d => ?_
    have hji := Ghost.ne_of_held hj
    refine written_wp (x := ⟨lh, b :: bs, l⟩) rfl ?_
    refine bunpin_wp (Ghost.hold_held _ j b false) rfl List.mem_cons_self ?_
    rw [List.erase_cons_head]
    have hj' : g.held j = none := (Ghost.held_of_ne hji _ _).symm.trans hj
    refine released_wp (g := withCom g ⟨lh, bs, b :: l⟩) hi hj' hji.symm ?_
    refine ih (tail + 1) fun l' hl hbs => hQ l' (fun a ha => hl (List.mem_cons_of_mem b ha)) ?_
    exact List.cons_subset.2 ⟨hl List.mem_cons_self, hbs⟩

/-- `commit` installs all blocks of the header, and returns with an empty one. -/
theorem commit_wp {Q : Unit → Ghost → Prop} (lh : List UInt32) (hx : g.com = some ⟨lh, lh, []⟩)
    (hQ : ∀ l, Q () (withCom g ⟨[], [], l⟩)) : commit.wp Q g := by
  have hg : g = withCom g ⟨lh, lh, []⟩ := by
    unfold withCom
    rw [← hx]
  rw [hg]
  refine readLog_wp rfl fun lg hlg => ?_
  split
  · rw [Prog.wp_bind]
    refine readLog_wp rfl fun lg hlg => ?_
    refine writeLogFrom_wp (y := ⟨lh, lh, []⟩) lg 0 lg.lh fun l => ?_
    rw [Prog.wp_bind]
    refine writeHead_wp (y := ⟨lh, lh, []⟩) fun l => ?_
    rw [Prog.wp_bind]
    refine readLog_wp rfl fun lg hlg => ?_
    rw [hlg]
    refine installFrom_wp lg 0 lh fun l' _ hl => ?_
    refine ⟨_, rfl, fun b hb => hl hb, rfl, ?_⟩
    exact writeHead_wp (g := g) (y := ⟨[], [], []⟩) hQ
  · have hnil : lh = [] := by
      rw [← List.length_eq_zero_iff, ← show lg.lh = lh from hlg]
      omega
    rw [hnil]
    exact hQ []

end

end Fs

end Xv6
