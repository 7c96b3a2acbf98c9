import Mathlib.Tactic.Abel
import Xv6.DirSys
import Xv6.MemSpec

/-!
# What a process holds during a file-system call

The ghost state of a process in a call: its references to inodes and files, the links it has counted and not yet entered into a
directory, the slot it is filling, and the operation it is in.  `dirRule` says what each operation takes and gives, and which
operations are made only between `begin_op` and `end_op`.  Every call returns what it has taken (`DirCall.code_wp`).
-/

namespace Xv6

open Function (update)

inductive Hold
  | ref (i : Inum)
  -- a link that `sys_link` has counted in advance
  | link (i : Inum)
  | file (f : Fin NFILE)
  -- the only reference to a file without a type
  | fresh (f : Fin NFILE)
  | slot (q : Fin NPROC)
  | op
  deriving DecidableEq

namespace Local

/-- The files of a process. -/
def files (ofile : Fin NOFILE → Option (Fin NFILE)) : Multiset Hold := ∑ fd, (ofile fd).elim 0 fun f => {.file f}

/-- What a process holds outside a call. -/
def res (l : Local) : Multiset Hold := {.ref l.cwd} + files l.ofile

variable {ofile : Fin NOFILE → Option (Fin NFILE)} {fd : Fin NOFILE} {f : Fin NFILE}

theorem files_update (ofile : Fin NOFILE → Option (Fin NFILE)) (fd : Fin NOFILE) (x : Option (Fin NFILE)) :
    files (update ofile fd x) + (ofile fd).elim 0 (fun f => {.file f}) = files ofile + x.elim 0 (fun f => {.file f}) := by
  unfold files
  rw [← Finset.add_sum_erase Finset.univ (fun i => (update ofile fd x i).elim 0 fun f => ({.file f} : Multiset Hold)) (Finset.mem_univ fd),
    ← Finset.add_sum_erase Finset.univ (fun i => (ofile i).elim 0 fun f => ({.file f} : Multiset Hold)) (Finset.mem_univ fd)]
  have h : ∑ i ∈ Finset.univ.erase fd, (update ofile fd x i).elim 0 (fun f => ({.file f} : Multiset Hold)) =
      ∑ i ∈ Finset.univ.erase fd, (ofile i).elim 0 (fun f => {.file f}) := by
    apply Finset.sum_congr rfl
    intro i hi
    rw [Function.update_of_ne (Finset.ne_of_mem_erase hi)]
  rw [h, Function.update_self]
  abel

theorem files_open (h : ofile fd = none) (f : Fin NFILE) : files (update ofile fd (some f)) = {.file f} + files ofile := by
  have := files_update ofile fd (some f)
  rw [h] at this
  simpa [add_comm] using this

theorem files_close (h : ofile fd = some f) : {.file f} + files (update ofile fd none) = files ofile := by
  have := files_update ofile fd none
  rw [h] at this
  simpa [add_comm] using this

theorem file_mem (h : ofile fd = some f) : .file f ∈ files ofile := by
  rw [← files_close h]
  exact Multiset.mem_add.2 (.inl (Multiset.mem_singleton_self _))

theorem mem_files {r : Hold} (h : r ∈ files ofile) : ∃ f, r = .file f := by
  obtain ⟨fd, -, hr⟩ := Multiset.mem_sum.1 h
  cases hf : ofile fd with
  | none => simp [hf] at hr
  | some f => exact ⟨f, by simpa [hf] using hr⟩

theorem mem_res {r : Hold} {l : Local} (h : r ∈ l.res) : r = .ref l.cwd ∨ ∃ f, r = .file f := by
  obtain h | h := Multiset.mem_add.1 h
  · exact .inl (Multiset.mem_singleton.1 h)
  · exact .inr (mem_files h)

theorem op_not_mem (l : Local) : .op ∉ l.res := by
  intro h
  obtain h | ⟨f, h⟩ := mem_res h <;> cases h

end Local

/-- The root directory of a container. -/
def contRes (c : Option Inum) : Multiset Hold := c.elim 0 fun i => {.ref i}

/-- What an operation needs from its process, and what the process holds after it. -/
def dirRule : Code.Rule DirOp.Ans (Multiset Hold)
  | .beginOp, Q, g => .op ∉ g ∧ Q () ({.op} + g)
  | .endOp, Q, g => ∃ g', g = {.op} + g' ∧ Q () g'
  | .iget i, Q, g => i = ROOTINO ∧ Q () ({.ref i} + g)
  | .idup i, Q, g => .ref i ∈ g ∧ Q () ({.ref i} + g)
  | .iput i, Q, g => ∃ g', g = {.ref i} + g' ∧ .op ∈ g' ∧ Q () g'
  | .lookup dp _, Q, g => .ref dp ∈ g ∧ Q .notdir g ∧ Q .missing g ∧ ∀ i, Q (.found i) ({.ref i} + g)
  | .stat i, Q, g => .ref i ∈ g ∧ ∀ r, Q r g
  | .linkUp i, Q, g => .op ∈ g ∧ .ref i ∈ g ∧ Q false g ∧ Q true ({.link i} + g)
  | .linkDown i, Q, g => .ref i ∈ g ∧ ∃ g', g = {.link i} + g' ∧ .op ∈ g' ∧ Q () g'
  | .linkIn dp _ i, Q, g => .ref dp ∈ g ∧ ∃ g', g = {.link i} + g' ∧ .op ∈ g' ∧ Q false g ∧ Q true g'
  | .unlinkIn dp _, Q, g => .op ∈ g ∧ .ref dp ∈ g ∧ Q .bad g ∧ ∀ i, Q (.busy i) ({.ref i} + g) ∧ Q (.done i) ({.ref i} + g)
  | .createIn dp _ type _ _, Q, g => .op ∈ g ∧ .ref dp ∈ g ∧ type ≠ .free ∧ Q .failed g ∧
    ∀ i, Q (.old i) ({.ref i} + g) ∧ Q (.made i) ({.ref i} + g)
  | .trunc f, Q, g => .op ∈ g ∧ .file f ∈ g ∧ Q () g
  | .readFile f, Q, g => .file f ∈ g ∧ Q () g
  | .write f, Q, g => .op ∈ g ∧ .file f ∈ g ∧ ∀ r, Q r g
  | .filealloc, Q, g => (∀ f, Q (some f) ({.fresh f} + g)) ∧ Q none g
  | .filedup f, Q, g => .file f ∈ g ∧ Q () ({.file f} + g)
  | .fileput f, Q, g => ∃ g', (g = {.fresh f} + g' ∧ Q none g') ∨
    (g = {.file f} + g' ∧ Q none g' ∧ ∀ i, Q (some i) ({.ref i} + g'))
  | .fileset f i _ _ _, Q, g => ∃ g', g = {.fresh f} + ({.ref i} + g') ∧ Q () ({.file f} + g')
  | .getFile f, Q, g => .file f ∈ g ∧ ∀ r, Q r g
  | .slotalloc, Q, g => (∀ q, Q (some q) ({.slot q} + g)) ∧ Q none g
  | .slotfree q, Q, g => ∃ g', g = {.slot q} + g' ∧ Q () g'
  | .publish q l, Q, g => ∃ g', g = {.slot q} + (l.res + g') ∧ Q () g'

namespace SysFile

open Dir (Lookup Unlink Create)

variable {α β : Type} {F : Multiset Hold}

/-- The code makes each operation with what it needs, and ends in `Q`. -/
def wp (p : DirCode α) (Q : α → Multiset Hold → Prop) (g : Multiset Hold) : Prop := Code.wp dirRule (fun _ => True) p Q g

@[simp] theorem wp_bind (p : DirCode α) (f : α → DirCode β) (Q : β → Multiset Hold → Prop) (g : Multiset Hold) :
    wp (p >>= f) Q g = wp p (fun a => wp (f a) Q) g := Code.wp_bind ..

theorem pure_wp {a : α} {Q : α → Multiset Hold → Prop} (h : Q a F) : wp (pure a) Q F := h

/-! ### Operations -/

theorem beginOp_wp {Q : Unit → Multiset Hold → Prop} (h : .op ∉ F) (hQ : Q () ({.op} + F)) : wp beginOp Q F := ⟨h, hQ⟩

theorem endOp_wp {Q : Unit → Multiset Hold → Prop} (hQ : Q () F) : wp endOp Q ({.op} + F) := ⟨F, rfl, hQ⟩

theorem iput_wp {i : Inum} {Q : Unit → Multiset Hold → Prop} (h : .op ∈ F) (hQ : Q () F) : wp (iput i) Q ({.ref i} + F) :=
  ⟨F, rfl, h, hQ⟩

theorem idup_wp {i : Inum} {Q : Unit → Multiset Hold → Prop} (h : .ref i ∈ F) (hQ : Q () ({.ref i} + F)) : wp (idup i) Q F := ⟨h, hQ⟩

theorem lookup_wp {dp : Inum} {name : Name} {Q : Lookup → Multiset Hold → Prop} (h : .ref dp ∈ F) (h1 : Q .notdir F)
    (h2 : Q .missing F) (h3 : ∀ i, Q (.found i) ({.ref i} + F)) : wp (lookup dp name) Q F := ⟨h, h1, h2, h3⟩

theorem stat_wp {i : Inum} {Q : Ftype × Int → Multiset Hold → Prop} (h : .ref i ∈ F) (hQ : ∀ r, Q r F) : wp (stat i) Q F := ⟨h, hQ⟩

theorem linkUp_wp {i : Inum} {Q : Bool → Multiset Hold → Prop} (h : .op ∈ F) (hi : .ref i ∈ F) (h1 : Q false F)
    (h2 : Q true ({.link i} + F)) : wp (linkUp i) Q F := ⟨h, hi, h1, h2⟩

theorem linkDown_wp {i : Inum} {Q : Unit → Multiset Hold → Prop} (h : .op ∈ F) (hi : .ref i ∈ F) (hQ : Q () F) :
    wp (linkDown i) Q ({.link i} + F) := ⟨Multiset.mem_add.2 (.inr hi), F, rfl, h, hQ⟩

theorem linkIn_wp {dp i : Inum} {name : Name} {Q : Bool → Multiset Hold → Prop} (h : .op ∈ F) (hi : .ref dp ∈ F)
    (h1 : Q false ({.link i} + F)) (h2 : Q true F) : wp (linkIn dp name i) Q ({.link i} + F) :=
  ⟨Multiset.mem_add.2 (.inr hi), F, rfl, h, h1, h2⟩

theorem unlinkIn_wp {dp : Inum} {name : Name} {Q : Unlink → Multiset Hold → Prop} (h : .op ∈ F) (hi : .ref dp ∈ F) (h1 : Q .bad F)
    (h2 : ∀ i, Q (.busy i) ({.ref i} + F)) (h3 : ∀ i, Q (.done i) ({.ref i} + F)) : wp (unlinkIn dp name) Q F :=
  ⟨h, hi, h1, fun i => ⟨h2 i, h3 i⟩⟩

theorem createIn_wp {dp : Inum} {name : Name} {type : Ftype} {major minor : Int} {Q : Create → Multiset Hold → Prop} (h : .op ∈ F)
    (hi : .ref dp ∈ F) (ht : type ≠ .free) (h1 : Q .failed F) (h2 : ∀ i, Q (.old i) ({.ref i} + F))
    (h3 : ∀ i, Q (.made i) ({.ref i} + F)) : wp (createIn dp name type major minor) Q F :=
  ⟨h, hi, ht, h1, fun i => ⟨h2 i, h3 i⟩⟩

theorem write_wp {f : Fin NFILE} {Q : Bool → Multiset Hold → Prop} (h : .op ∈ F) (hf : .file f ∈ F) (hQ : ∀ r, Q r F) :
    wp (write f) Q F := ⟨h, hf, hQ⟩

theorem filealloc_wp {Q : Option (Fin NFILE) → Multiset Hold → Prop} (h : ∀ f, Q (some f) ({.fresh f} + F)) (hn : Q none F) :
    wp filealloc Q F := ⟨h, hn⟩

theorem filedup_wp {f : Fin NFILE} {Q : Unit → Multiset Hold → Prop} (h : .file f ∈ F) (hQ : Q () ({.file f} + F)) :
    wp (filedup f) Q F := ⟨h, hQ⟩

theorem fileset_wp {f : Fin NFILE} {i : Inum} {d r w : Bool} {Q : Unit → Multiset Hold → Prop} (hQ : Q () ({.file f} + F)) :
    wp (fileset f i d r w) Q ({.fresh f} + ({.ref i} + F)) := ⟨F, rfl, hQ⟩

theorem getFile_wp {f : Fin NFILE} {Q : OpenFile → Multiset Hold → Prop} (h : .file f ∈ F) (hQ : ∀ r, Q r F) :
    wp (getFile f) Q F := ⟨h, hQ⟩

theorem readFile_wp {f : Fin NFILE} {Q : Unit → Multiset Hold → Prop} (h : .file f ∈ F) (hQ : Q () F) : wp (readFile f) Q F := ⟨h, hQ⟩

theorem mem_left (r : Hold) (F : Multiset Hold) : r ∈ {r} + F := Multiset.mem_add.2 (.inl (Multiset.mem_singleton_self _))

theorem mem_right {r : Hold} {g F : Multiset Hold} (h : r ∈ F) : r ∈ g + F := Multiset.mem_add.2 (.inr h)

/-! ### Paths -/

theorem namexFrom_wp {parent : Bool} {path : List Name} {Q : Option (Inum × Name) → Multiset Hold → Prop} (h : .op ∈ F) (hn : Q none F)
    (hs : ∀ i name, Q (some (i, name)) ({.ref i} + F)) {ip : Inum} {name : Name} :
    wp (namexFrom parent ip name path) Q ({.ref ip} + F) := by
  have hput : ∀ ip, wp (do iput ip; pure none) Q ({.ref ip} + F) := by
    intro ip
    rw [wp_bind]
    exact iput_wp h (pure_wp hn)
  induction path generalizing ip name with
  | nil =>
    unfold namexFrom
    split
    · exact hput ip
    · exact pure_wp (hs ip name)
  | cons elem path ih =>
    unfold namexFrom
    split
    · rw [wp_bind]
      refine stat_wp (mem_left _ F) fun x => ?_
      split
      · exact hput ip
      · exact pure_wp (hs ip elem)
    · rw [wp_bind]
      refine lookup_wp (mem_left _ F) (hput ip) (hput ip) fun i => ?_
      simp only
      rw [wp_bind, add_left_comm]
      exact iput_wp (mem_right h) ih

theorem namex_wp {l : Local} {path : List UInt8} {parent : Bool} {Q : Option (Inum × Name) → Multiset Hold → Prop} (h : .op ∈ F)
    (hc : .ref l.cwd ∈ F) (hn : Q none F) (hs : ∀ i name, Q (some (i, name)) ({.ref i} + F)) : wp (namex l path parent) Q F := by
  unfold namex
  split
  · rw [wp_bind]
    exact ⟨rfl, namexFrom_wp h hn hs⟩
  · rw [wp_bind]
    exact idup_wp hc (namexFrom_wp h hn hs)

theorem namei_wp {l : Local} {path : List UInt8} {Q : Option Inum → Multiset Hold → Prop} (h : .op ∈ F) (hc : .ref l.cwd ∈ F)
    (hn : Q none F) (hs : ∀ i, Q (some i) ({.ref i} + F)) : wp (namei l path) Q F := by
  unfold namei
  rw [wp_bind]
  exact namex_wp h hc (pure_wp hn) fun i _ => pure_wp (hs i)

/-! ### Calls -/

/-- What a call returns with. -/
def Post (r : DirOut) (g : Multiset Hold) : Prop := g = (if r.exited then 0 else r.loc.res) + contRes r.cont

theorem post_loc {l : Local} {n : Int} : Post { loc := l, ret := n } l.res := (add_zero _).symm

variable {l : Local}

theorem cwd_mem (l : Local) : .ref l.cwd ∈ l.res := mem_left _ _

theorem beginOp_res_wp {Q : Unit → Multiset Hold → Prop} (hQ : Q () ({.op} + l.res)) : wp beginOp Q l.res := beginOp_wp l.op_not_mem hQ

/-- The end of an operation. -/
theorem end_wp {r : DirOut} (h : Post r F) : wp (do endOp; pure r) Post ({.op} + F) := by
  rw [wp_bind]
  exact endOp_wp (pure_wp h)

theorem putEnd_wp {r : DirOut} {i : Inum} (h : Post r F) : wp (do iput i; endOp; pure r) Post ({.ref i} + ({.op} + F)) := by
  rw [wp_bind]
  exact iput_wp (mem_left _ F) (end_wp h)

theorem namei_res_wp {path : List UInt8} {Q : Option Inum → Multiset Hold → Prop} (hn : Q none ({.op} + l.res))
    (hs : ∀ i, Q (some i) ({.ref i} + ({.op} + l.res))) : wp (namei l path) Q ({.op} + l.res) :=
  namei_wp (mem_left _ _) (mem_right (cwd_mem l)) hn hs

theorem fileclose_wp {f : Fin NFILE} {Q : Unit → Multiset Hold → Prop} (h : .op ∉ F) (hQ : Q () F) : wp (fileclose f) Q ({.file f} + F) := by
  unfold fileclose
  rw [wp_bind]
  refine ⟨F, .inr ⟨rfl, hQ, fun i => ?_⟩⟩
  change wp (do beginOp; iput i; endOp) Q ({.ref i} + F)
  rw [wp_bind]
  refine beginOp_wp ?_ ?_
  · simpa using h
  · rw [wp_bind, add_left_comm]
    exact iput_wp (mem_left _ F) (endOp_wp hQ)

theorem fileclose_fresh_wp {f : Fin NFILE} {Q : Unit → Multiset Hold → Prop} (hQ : Q () F) : wp (fileclose f) Q ({.fresh f} + F) := by
  unfold fileclose
  rw [wp_bind]
  exact ⟨F, .inl ⟨rfl, hQ⟩⟩

theorem argfd_some {fd : Int} {d : Fin NOFILE} {f : Fin NFILE} (h : argfd l fd = some (d, f)) : l.ofile d = some f :=
  Mem.argfd_some h

theorem file_mem {fd : Int} {d : Fin NOFILE} {f : Fin NFILE} (h : argfd l fd = some (d, f)) : .file f ∈ l.res :=
  mem_right (Local.file_mem (argfd_some h))

theorem sysDup_wp (fd : Int) : wp (sysDup l fd) Post l.res := by
  unfold sysDup
  split
  · exact pure_wp post_loc
  · rename_i d f hf
    split
    · exact pure_wp post_loc
    · rename_i fd' hfd
      rw [wp_bind]
      refine filedup_wp (file_mem hf) (pure_wp ?_)
      rw [Post, Local.res, Local.res, Local.files_open (Mem.fdalloc_free hfd)]
      exact (add_left_comm ..).trans (add_zero _).symm

theorem sysRead_wp (fd r : Int) : wp (sysRead l fd r) Post l.res := by
  unfold sysRead
  split
  · exact pure_wp post_loc
  · rename_i d f hf
    rw [wp_bind]
    refine getFile_wp (file_mem hf) fun x => ?_
    split
    · exact pure_wp post_loc
    · split
      · exact pure_wp post_loc
      · rw [wp_bind]
        exact readFile_wp (file_mem hf) (pure_wp post_loc)

theorem filewriteLoop_wp {f : Fin NFILE} {Q : Bool → Multiset Hold → Prop} (h : .op ∉ F) (hf : .file f ∈ F) (hQ : ∀ r, Q r F) (n : Nat) :
    wp (filewriteLoop f n) Q F := by
  induction n with
  | zero => exact pure_wp (hQ true)
  | succ n ih =>
    unfold filewriteLoop
    rw [wp_bind]
    refine beginOp_wp h ?_
    rw [wp_bind]
    refine write_wp (mem_left _ F) (mem_right hf) fun ok => ?_
    rw [wp_bind]
    apply endOp_wp
    split
    · exact ih
    · exact pure_wp (hQ false)

theorem sysWrite_wp (fd n : Int) : wp (sysWrite l fd n) Post l.res := by
  unfold sysWrite
  split
  · exact pure_wp post_loc
  · rename_i d f hf
    rw [wp_bind]
    refine getFile_wp (file_mem hf) fun x => ?_
    split
    · exact pure_wp post_loc
    · split
      · exact pure_wp post_loc
      · rw [wp_bind]
        exact filewriteLoop_wp l.op_not_mem (file_mem hf) (fun ok => pure_wp post_loc) _

theorem sysClose_wp (fd : Int) : wp (sysClose l fd) Post l.res := by
  unfold sysClose
  split
  · exact pure_wp post_loc
  · rename_i d f hf
    have hres : l.res = {.file f} + Local.res { l with ofile := update l.ofile d none } := by
      rw [Local.res, Local.res, ← Local.files_close (argfd_some hf), add_left_comm]
    rw [wp_bind, hres]
    exact fileclose_wp (Local.op_not_mem _) (pure_wp post_loc)

theorem sysFstat_wp (fd r : Int) : wp (sysFstat l fd r) Post l.res := by
  unfold sysFstat
  split
  · exact pure_wp post_loc
  · rename_i d f hf
    rw [wp_bind]
    exact readFile_wp (file_mem hf) (pure_wp post_loc)

theorem linkBad_wp {i : Inum} : wp (linkBad l i) Post ({.link i} + ({.ref i} + ({.op} + l.res))) := by
  unfold linkBad
  rw [wp_bind]
  exact linkDown_wp (mem_right (mem_left _ _)) (mem_left _ _) (putEnd_wp post_loc)

theorem sysLink_wp (old new : Option (List UInt8)) : wp (sysLink l old new) Post l.res := by
  unfold sysLink
  split
  · rw [wp_bind]
    apply beginOp_res_wp
    rw [wp_bind]
    refine namei_res_wp (end_wp post_loc) fun ip => ?_
    simp only
    rw [wp_bind]
    refine linkUp_wp (mem_right (mem_left _ _)) (mem_left _ _) (putEnd_wp post_loc) ?_
    have hop : ∀ a b : Multiset Hold, .op ∈ a + (b + ({.op} + l.res)) := fun a b => mem_right (mem_right (mem_left _ _))
    rw [if_pos rfl, wp_bind]
    refine namex_wp (hop _ _) (mem_right (mem_right (mem_right (cwd_mem l)))) linkBad_wp fun dp name => ?_
    simp only
    rw [wp_bind, add_left_comm]
    refine linkIn_wp (hop _ _) (mem_left _ _) ?_ ?_
    · rw [if_neg (by decide), wp_bind, add_left_comm]
      exact iput_wp (hop _ _) linkBad_wp
    · rw [if_pos rfl, wp_bind]
      exact iput_wp (mem_right (mem_left _ _)) (putEnd_wp post_loc)
  · exact pure_wp post_loc

theorem sysUnlink_wp (path : Option (List UInt8)) : wp (sysUnlink l path) Post l.res := by
  unfold sysUnlink
  split
  · exact pure_wp post_loc
  · rw [wp_bind]
    apply beginOp_res_wp
    rw [wp_bind]
    refine namex_wp (mem_left _ _) (mem_right (cwd_mem l)) (end_wp post_loc) fun dp name => ?_
    simp only
    rw [wp_bind]
    refine unlinkIn_wp (mem_right (mem_left _ _)) (mem_left _ _) (putEnd_wp post_loc) (fun i => ?_) fun i => ?_
    · simp only
      rw [wp_bind]
      exact iput_wp (mem_right (mem_left _ _)) (putEnd_wp post_loc)
    · simp only
      rw [wp_bind, add_left_comm]
      exact iput_wp (mem_right (mem_left _ _)) (putEnd_wp post_loc)

theorem create_wp {path : List UInt8} {type : Ftype} {major minor : Int} (ht : type ≠ .free) {Q : Option Inum → Multiset Hold → Prop}
    (hn : Q none ({.op} + l.res)) (hs : ∀ i, Q (some i) ({.ref i} + ({.op} + l.res))) :
    wp (create l path type major minor) Q ({.op} + l.res) := by
  have hput : ∀ i, wp (do iput i; pure none) Q ({.ref i} + ({.op} + l.res)) := by
    intro i
    rw [wp_bind]
    exact iput_wp (mem_left _ _) (pure_wp hn)
  unfold create
  rw [wp_bind]
  refine namex_wp (mem_left _ _) (mem_right (cwd_mem l)) (pure_wp hn) fun dp name => ?_
  simp only
  rw [wp_bind]
  refine createIn_wp (mem_right (mem_left _ _)) (mem_left _ _) ht (hput dp) (fun i => ?_) fun i => ?_
  · simp only
    rw [wp_bind, add_left_comm]
    refine iput_wp (mem_right (mem_left _ _)) ?_
    rw [wp_bind]
    refine stat_wp (mem_left _ _) fun x => ?_
    split
    · exact pure_wp (hs i)
    · exact hput i
  · simp only
    rw [wp_bind, add_left_comm]
    exact iput_wp (mem_right (mem_left _ _)) (pure_wp (hs i))

theorem openInode_wp (omode : Nat) (i : Inum) : wp (openInode l omode i) Post ({.ref i} + ({.op} + l.res)) := by
  unfold openInode
  rw [wp_bind]
  refine stat_wp (mem_left _ _) fun x => ?_
  split
  · exact putEnd_wp post_loc
  · rw [wp_bind]
    refine filealloc_wp (fun f => ?_) (putEnd_wp post_loc)
    simp only
    split
    · rw [wp_bind]
      exact fileclose_fresh_wp (putEnd_wp post_loc)
    · rename_i fd hfd
      have hpost : Post { loc := { l with ofile := update l.ofile fd (some f) }, ret := fd.val } ({.file f} + l.res) := by
        rw [Post, Local.res, Local.res, Local.files_open (Mem.fdalloc_free hfd)]
        exact (add_left_comm ..).trans (add_zero _).symm
      rw [wp_bind]
      refine fileset_wp ?_
      rw [add_left_comm]
      split
      · rw [wp_bind]
        exact ⟨mem_left _ _, mem_right (mem_left _ _), end_wp hpost⟩
      · exact end_wp hpost

theorem sysOpen_wp (path : Option (List UInt8)) (omode : Nat) : wp (sysOpen l path omode) Post l.res := by
  unfold sysOpen
  split
  · exact pure_wp post_loc
  · rw [wp_bind]
    apply beginOp_res_wp
    split
    · rw [wp_bind]
      exact create_wp (by decide) (end_wp post_loc) fun i => openInode_wp omode i
    · rw [wp_bind]
      refine namei_res_wp (end_wp post_loc) fun i => ?_
      simp only
      rw [wp_bind]
      refine stat_wp (mem_left _ _) fun x => ?_
      split
      · exact putEnd_wp post_loc
      · exact openInode_wp omode i

theorem sysMake_wp (path : Option (List UInt8)) {type : Ftype} (ht : type ≠ .free) (major minor : Int) :
    wp (sysMake l path type major minor) Post l.res := by
  unfold sysMake
  rw [wp_bind]
  apply beginOp_res_wp
  split
  · exact end_wp post_loc
  · rw [wp_bind]
    exact create_wp ht (end_wp post_loc) fun i => putEnd_wp post_loc

theorem sysChdir_wp (path : Option (List UInt8)) : wp (sysChdir l path) Post l.res := by
  unfold sysChdir
  rw [wp_bind]
  apply beginOp_res_wp
  split
  · exact end_wp post_loc
  · rw [wp_bind]
    refine namei_res_wp (end_wp post_loc) fun i => ?_
    simp only
    rw [wp_bind]
    refine stat_wp (mem_left _ _) fun x => ?_
    split
    · exact putEnd_wp post_loc
    · rw [wp_bind]
      have hres : {.ref i} + ({.op} + l.res) = {.ref l.cwd} + ({.op} + Local.res { l with cwd := i }) := by
        simp only [Local.res]
        abel
      rw [hres]
      exact iput_wp (mem_left _ _) (end_wp post_loc)

theorem exec_wp (path : List UInt8) (r : Int) : wp (exec l path r) Post l.res := by
  unfold exec
  rw [wp_bind]
  apply beginOp_res_wp
  rw [wp_bind]
  refine namei_res_wp (end_wp post_loc) fun i => ?_
  simp only
  rw [wp_bind]
  exact stat_wp (mem_left _ _) fun _ => putEnd_wp post_loc

/-- The files of the descriptors `fds`. -/
def filesOf (ofile : Fin NOFILE → Option (Fin NFILE)) (fds : List (Fin NOFILE)) : Multiset Hold :=
  (fds.map fun fd => (ofile fd).elim 0 fun f => ({.file f} : Multiset Hold)).sum

theorem filesOf_all (ofile : Fin NOFILE → Option (Fin NFILE)) : filesOf ofile (List.finRange NOFILE) = Local.files ofile :=
  (Fin.sum_univ_def _).symm

theorem filesOf_cons (ofile : Fin NOFILE → Option (Fin NFILE)) (fd : Fin NOFILE) (fds : List (Fin NOFILE)) :
    filesOf ofile (fd :: fds) = (ofile fd).elim 0 (fun f => {.file f}) + filesOf ofile fds := by
  rw [filesOf, List.map_cons, List.sum_cons, filesOf]

theorem mem_filesOf {ofile : Fin NOFILE → Option (Fin NFILE)} {fds : List (Fin NOFILE)} {r : Hold} (h : r ∈ filesOf ofile fds) :
    ∃ f, r = .file f := by
  induction fds with
  | nil => exact absurd h (Multiset.notMem_zero r)
  | cons fd fds ih =>
    rw [filesOf_cons] at h
    obtain h | h := Multiset.mem_add.1 h
    · cases hf : ofile fd with
      | none => simp [hf] at h
      | some f => exact ⟨f, by simpa [hf] using h⟩
    · exact ih h

theorem closeFiles_wp {ofile : Fin NOFILE → Option (Fin NFILE)} {Q : Unit → Multiset Hold → Prop} (h : .op ∉ F) (hQ : Q () F)
    (fds : List (Fin NOFILE)) : wp (eachFile fileclose ofile fds) Q (filesOf ofile fds + F) := by
  induction fds with
  | nil =>
    rw [show filesOf ofile [] = 0 from rfl, zero_add]
    exact pure_wp hQ
  | cons fd fds ih =>
    have hop : .op ∉ filesOf ofile fds + F := by
      intro hm
      obtain hm | hm := Multiset.mem_add.1 hm
      · obtain ⟨f, hf⟩ := mem_filesOf hm
        cases hf
      · exact h hm
    unfold eachFile
    rw [filesOf_cons]
    cases hf : ofile fd with
    | none =>
      rw [Option.elim_none, zero_add]
      exact ih
    | some f =>
      simp only [Option.elim_some]
      rw [wp_bind, add_assoc]
      exact fileclose_wp hop ih

theorem dupFiles_wp {ofile : Fin NOFILE → Option (Fin NFILE)} {Q : Unit → Multiset Hold → Prop} {fds : List (Fin NOFILE)}
    (h : ∀ fd f, ofile fd = some f → .file f ∈ F) (hQ : Q () (filesOf ofile fds + F)) : wp (eachFile filedup ofile fds) Q F := by
  induction fds generalizing F with
  | nil =>
    rw [show filesOf ofile [] = 0 from rfl, zero_add] at hQ
    exact pure_wp hQ
  | cons fd fds ih =>
    unfold eachFile
    rw [filesOf_cons] at hQ
    cases hf : ofile fd with
    | none =>
      rw [hf, Option.elim_none, zero_add] at hQ
      exact ih h hQ
    | some f =>
      simp only
      rw [wp_bind]
      refine filedup_wp (h fd f hf) (ih (fun fd f hf => mem_right (h fd f hf)) ?_)
      rw [hf, Option.elim_some, add_assoc] at hQ
      rwa [add_left_comm]

theorem exit_wp (rootdir : Option Inum) : wp (exit l rootdir) Post (contRes rootdir + l.res) := by
  have hop : ∀ i, .op ∉ contRes rootdir + {.ref i} := by
    intro i
    cases rootdir <;> simp [contRes]
  have hres : contRes rootdir + l.res = filesOf l.ofile (List.finRange NOFILE) + (contRes rootdir + {.ref l.cwd}) := by
    rw [filesOf_all, Local.res]
    abel
  unfold exit
  rw [wp_bind, hres]
  refine closeFiles_wp (hop _) ?_ _
  rw [wp_bind]
  refine beginOp_wp (hop _) ?_
  rw [wp_bind, ← add_assoc, add_comm]
  refine iput_wp (mem_left _ _) ?_
  rw [wp_bind]
  refine endOp_wp ?_
  cases rootdir with
  | none => exact pure_wp rfl
  | some r =>
    simp only [contRes, Option.elim_some]
    rw [wp_bind]
    refine beginOp_wp (by simp) ?_
    rw [wp_bind, add_comm, ← zero_add ({.op} : Multiset Hold), add_comm 0]
    refine iput_wp (mem_left _ _) ?_
    rw [wp_bind]
    exact endOp_wp (pure_wp rfl)

theorem fork_wp (mem : Bool) (cont : Option Inum) : wp (fork l mem cont) Post (contRes cont + l.res) := by
  have hpost : ∀ n, Post { loc := l, ret := n, cont } (contRes cont + l.res) := fun n => add_comm ..
  unfold fork
  rw [wp_bind]
  refine ⟨fun q => ?_, pure_wp (hpost _)⟩
  change wp (if !mem then _ else _) Post _
  split
  · rw [wp_bind]
    exact ⟨_, rfl, hpost _⟩
  · rw [wp_bind]
    refine dupFiles_wp (fun fd f hf => mem_right (mem_right (mem_right (Local.file_mem hf)))) ?_
    rw [wp_bind]
    refine idup_wp (mem_right (mem_right (mem_right (cwd_mem l)))) ?_
    rw [wp_bind]
    refine ⟨contRes cont + l.res, ?_, hpost _⟩
    rw [filesOf_all]
    simp only [Local.res]
    abel

theorem cfork_wp (cont isroot : Bool) (crootdir : List UInt8) (mem : Bool) : wp (cfork l cont isroot crootdir mem) Post l.res := by
  have hnone := fork_wp (l := l) mem none
  rw [contRes, Option.elim_none, zero_add] at hnone
  unfold cfork
  split
  · exact pure_wp post_loc
  · split
    · exact hnone
    · rw [wp_bind]
      apply beginOp_res_wp
      rw [wp_bind]
      refine namei_res_wp (end_wp post_loc) fun i => ?_
      simp only
      rw [wp_bind, add_left_comm]
      exact endOp_wp (fork_wp mem (some i))

end SysFile

/-- Every call returns with what the process then holds. -/
theorem DirCall.code_wp (c : DirCall) (init : Bool) (l : Local) :
    SysFile.wp (c.code init l) SysFile.Post (contRes c.rootdir + l.res) := by
  have hplain : ∀ {p : DirCode DirOut}, SysFile.wp p SysFile.Post l.res → SysFile.wp p SysFile.Post (contRes none + l.res) := by
    intro p hp
    rwa [contRes, Option.elim_none, zero_add]
  cases c with
  | «open» path omode => exact hplain (SysFile.sysOpen_wp path omode)
  | close fd => exact hplain (SysFile.sysClose_wp fd)
  | dup fd => exact hplain (SysFile.sysDup_wp fd)
  | read fd r => exact hplain (SysFile.sysRead_wp fd r)
  | write fd n => exact hplain (SysFile.sysWrite_wp fd n)
  | fstat fd r => exact hplain (SysFile.sysFstat_wp fd r)
  | link old new => exact hplain (SysFile.sysLink_wp old new)
  | unlink path => exact hplain (SysFile.sysUnlink_wp path)
  | mkdir path => exact hplain (SysFile.sysMake_wp path (by decide) 0 0)
  | mknod path major minor => exact hplain (SysFile.sysMake_wp path (by decide) major minor)
  | chdir path => exact hplain (SysFile.sysChdir_wp path)
  | exec path r => exact hplain (SysFile.exec_wp path r)
  | exit rootdir =>
    change SysFile.wp (if init then Code.panic "init exiting" else SysFile.exit l rootdir) SysFile.Post _
    split
    · trivial
    · exact SysFile.exit_wp rootdir
  | fork mem => exact SysFile.fork_wp mem none
  | cfork cont isroot crootdir mem => exact hplain (SysFile.cfork_wp cont isroot crootdir mem)

end Xv6
