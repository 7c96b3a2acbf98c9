import Xv6.FsRead
import Xv6.FsTrunc

/-!
# The store of files

What the functions of `fs.c` do to the files on a disk, seen from outside: a partial map from inode numbers to files, which are byte
arrays with a type, device numbers and a link count.  A `FileOp` is a use of these functions under `ilock`, as the system calls and
`iput` make them.  Any sequence of such operations on a good disk leaves a good disk, meets none of the panics of `fs.c`, and is a
sequence of operations of the store (`files_refine`).  The panics of `log_write` and `bget` for lack of room are not part of this layer.
-/

namespace Xv6

open Function (update)

/-! ### Programs that fail -/

/-- The program may reach a panic of `fs.c`, wait for a block that it holds itself, use a buffer that it does not hold, or log a block of
the log.  That the log is full in `log_write`, or every buffer in use in `bget`, is no failure here. -/
def Prog.Fails {α : Type} : Prog α → Seq → Prop
  | .pure _, _ => False
  | .panic _, _ => True
  | .bread b k, s => ¬s.Free b ∨ ∃ i, s.held i = none ∧ (k i).Fails (s.hold i b)
  | .data i k, s => s.held i = none ∨ ∃ b, s.held i = some b ∧ (k (s.view b)).Fails s
  | .store i d k, s => s.held i = none ∨ ∃ b, s.held i = some b ∧ k.Fails (s.put b d)
  | .copyin i off m k, s => s.held i = none ∨ ∃ b, s.held i = some b ∧
    if m ≤ s.src.length then (k true).Fails (s.taken b off m) else ∃ src, (k false).Fails { s.taken b off m with src := src }
  | .copyout i _ _ k, s => s.held i = none ∨ ∃ ok, (k ok).Fails s
  | .logWrite i k, s => (¬∃ b, s.held i = some b ∧ s.low ≤ b.toNat) ∨ k.Fails s
  | .brelse i k, s => s.held i = none ∨ k.Fails (s.drop i)
  -- only in `commit`
  | .bwrite .., _ | .bunpin .., _ | .readLog _, _ | .clearHead _, _ => True

theorem Prog.swp_not_fails {α : Type} {p : Prog α} {Q : α → Seq → Prop} {s : Seq} (h : p.swp Q s) : ¬p.Fails s := by
  induction p generalizing s with
  | pure a => exact id
  | panic msg => exact h.elim
  | bread b k ih =>
    rintro (hb | ⟨i, hi, hf⟩)
    · exact hb h.1
    · exact ih i (h.2 i hi) hf
  | data i k ih =>
    obtain ⟨b, hb, hk⟩ := h
    rintro (hi | ⟨c, hc, hf⟩)
    · rw [hb] at hi
      cases hi
    · rw [hb, Option.some.injEq] at hc
      subst hc
      exact ih _ hk hf
  | store i d k ih =>
    obtain ⟨b, hb, hk⟩ := h
    rintro (hi | ⟨c, hc, hf⟩)
    · rw [hb] at hi
      cases hi
    · rw [hb, Option.some.injEq] at hc
      subst hc
      exact ih hk hf
  | copyin i off m k ih =>
    obtain ⟨b, hb, hk⟩ := h
    rintro (hi | ⟨c, hc, hf⟩)
    · rw [hb] at hi
      cases hi
    · rw [hb, Option.some.injEq] at hc
      subst hc
      by_cases hm : m ≤ s.src.length
      · rw [if_pos hm] at hk hf
        exact ih _ hk hf
      · rw [if_neg hm] at hk hf
        obtain ⟨src, hf⟩ := hf
        exact ih _ (hk src) hf
  | copyout i off m k ih =>
    rintro (hi | ⟨ok, hf⟩)
    · exact h.1 hi
    · exact ih ok (h.2 ok) hf
  | logWrite i k ih =>
    rintro (hi | hf)
    · exact hi h.1
    · exact ih h.2 hf
  | brelse i k ih =>
    rintro (hi | hf)
    · exact h.1 hi
    · exact ih h.2 hf
  | bwrite i k ih => exact h.elim
  | bunpin i k ih => exact h.elim
  | readLog k ih => exact h.elim
  | clearHead k ih => exact h.elim

namespace Fs

/-! ### The operations -/

/-- A use of an inode. -/
inductive FileOp
  | create (type major minor : UInt16)
  | write (n off cnt : UInt32)
  | read (n off cnt : UInt32)
  | trunc (n : UInt32)
  | link (n : UInt32) (nlink : UInt16)
  | free (n : UInt32)

/-- The code of the operation, and its answer. -/
def FileOp.prog (sb : Superblock) : FileOp → Prog Int
  -- `create`, up to the directory entries
  | .create type major minor => do
    match ← ialloc sb type with
    | none => return 0
    | some n =>
      let ip ← ilock sb n
      iupdate sb { ip with major := major, minor := minor, nlink := 1 }
      return n.toNat
  -- a transaction of `filewrite`
  | .write n off cnt => do
    let ip ← ilock sb n
    let (_, r) ← writei sb ip off cnt
    return r
  -- `fileread`
  | .read n off cnt => do
    let ip ← ilock sb n
    let (_, r) ← readi sb ip off cnt
    return r
  -- `open` with `O_TRUNC`
  | .trunc n => do
    let ip ← ilock sb n
    let _ ← itrunc sb ip
    return 0
  -- `link`, `unlink`
  | .link n nlink => do
    let ip ← ilock sb n
    iupdate sb { ip with nlink := nlink }
    return 0
  -- the end of `iput` for an inode without links
  | .free n => do
    let ip ← ilock sb n
    let ip ← itrunc sb ip
    iupdate sb { ip with type := 0 }
    return 0

/-- A file as its users see it. -/
structure File where
  type : UInt16
  major : UInt16
  minor : UInt16
  nlink : UInt16
  data : List UInt8

/-- The files that there are. -/
abbrev FileStore := UInt32 → Option File

/-- `writei` refuses to write `cnt` bytes at `off`. -/
def File.Refuses (f : File) (off cnt : UInt32) : Prop :=
  off.toNat > f.data.length ∨ off.toNat + cnt.toNat ≥ 2 ^ 32 ∨ off.toNat + cnt.toNat > MAXFILE * BSIZE

/-- The operation is used as in the source: on an inode that is there, and with a type for a new one. -/
def FileOp.Ok (S : FileStore) : FileOp → Prop
  | .create type _ _ => type ≠ 0
  | .write n _ _ | .read n _ _ | .trunc n | .link n _ | .free n => S n ≠ none

namespace FileStore

/-- One operation of the store of the inodes below `N`, with the bytes that a `write` can read, and its answer. -/
inductive Step (N : Nat) (src : List UInt8) (S : FileStore) : FileOp → Int → FileStore → Prop
  | created {type major minor : UInt16} {n : UInt32} (h1 : 1 ≤ n.toNat) (hN : n.toNat < N) (hfree : S n = none)
      (hfirst : ∀ m : UInt32, 1 ≤ m.toNat → m.toNat < n.toNat → S m ≠ none) :
      Step N src S (.create type major minor) n.toNat (update S n (some ⟨type, major, minor, 1, []⟩))
  | noInodes {type major minor : UInt16} (h : ∀ m : UInt32, 1 ≤ m.toNat → m.toNat < N → S m ≠ none) :
      Step N src S (.create type major minor) 0 S
  | refused {n off cnt : UInt32} {f : File} (hf : S n = some f) (h : f.Refuses off cnt) : Step N src S (.write n off cnt) (-1) S
  | wrote {n off cnt : UInt32} {f : File} {r : Nat} {d : List UInt8} (hf : S n = some f) (h : ¬f.Refuses off cnt) (hr : r ≤ cnt.toNat)
      (hlen : d.length = max f.data.length (off.toNat + r))
      (hrest : ∀ k, k < off.toNat ∨ off.toNat + cnt.toNat ≤ k → d[k]? = f.data[k]?)
      (hbytes : cnt.toNat ≤ src.length → d = splice f.data off.toNat (src.take r)) :
      Step N src S (.write n off cnt) r (update S n (some { f with data := d }))
  | read {n off cnt : UInt32} {f : File} {r : Int} (hf : S n = some f)
      (hr : r = -1 ∨ r = Ram.readiLen f.data.length off.toNat cnt.toNat) : Step N src S (.read n off cnt) r S
  | trunc {n : UInt32} {f : File} (hf : S n = some f) : Step N src S (.trunc n) 0 (update S n (some { f with data := [] }))
  | link {n : UInt32} {f : File} {nlink : UInt16} (hf : S n = some f) :
      Step N src S (.link n nlink) 0 (update S n (some { f with nlink := nlink }))
  | free {n : UInt32} {f : File} (hf : S n = some f) : Step N src S (.free n) 0 (update S n none)

/-- A sequence of operations. -/
inductive Run (N : Nat) : FileStore → List (FileOp × List UInt8 × Int) → FileStore → Prop
  | nil {S : FileStore} : Run N S [] S
  | cons {S T U : FileStore} {op : FileOp} {src : List UInt8} {r : Int} {evs : List (FileOp × List UInt8 × Int)}
      (h : Step N src S op r T) (hr : Run N T evs U) : Run N S ((op, src, r) :: evs) U

end FileStore

/-! ### The files on a disk -/

section

variable {sb : Superblock} {L : sb.Layout} {v : UInt32 → Block} {s : Seq} {n m : UInt32} {ip : Inode}

/-- The inode `x` with the bytes `d`. -/
def fileOf (x : Dinode) (d : List UInt8) : File := ⟨x.type, x.major, x.minor, x.nlink, d⟩

/-- The files on the disk. -/
def files (sb : Superblock) (v : UInt32 → Block) : FileStore := fun n =>
  if n.toNat < sb.ninodes.toNat ∧ (dinode sb v n).type ≠ 0 then some (fileOf (dinode sb v n) (contents sb v n)) else none

theorem files_some (hn : n.toNat < sb.ninodes.toNat) (ht : (dinode sb v n).type ≠ 0) :
    files sb v n = some (fileOf (dinode sb v n) (contents sb v n)) := if_pos ⟨hn, ht⟩

theorem files_ne_none (h : files sb v n ≠ none) : n.toNat < sb.ninodes.toNat ∧ (dinode sb v n).type ≠ 0 := by
  by_contra hno
  exact h (if_neg hno)

theorem files_none (h : (dinode sb v n).type = 0) : files sb v n = none := if_neg fun hn => hn.2 h

/-- A step that changes one inode and the bytes of its file. -/
theorem files_update {w : UInt32 → Block} {f : Option File} (hn : n.toNat < sb.ninodes.toNat)
    (hself : (if (dinode sb w n).type = 0 then none else some (fileOf (dinode sb w n) (contents sb w n))) = f)
    (hother : ∀ m : UInt32, m.toNat < sb.ninodes.toNat → m ≠ n → dinode sb w m = dinode sb v m ∧ contents sb w m = contents sb v m) :
    files sb w = update (files sb v) n f := by
  funext m
  by_cases hmn : m = n
  · rw [hmn, Function.update_self, ← hself]
    by_cases ht : (dinode sb w n).type = 0
    · rw [if_pos ht, files_none ht]
    · rw [if_neg ht, files_some hn ht]
  · rw [Function.update_of_ne hmn]
    by_cases hm : m.toNat < sb.ninodes.toNat
    · obtain ⟨hd, hc⟩ := hother m hm hmn
      simp only [files, hd, hc]
    · rw [files, if_neg (fun h => hm h.1), files, if_neg fun h => hm h.1]

/-- An inode changes in other fields than its size and its blocks. -/
theorem Good.setInode (hg : Good L v) (hn : n.toNat < sb.ninodes.toNat) {x : Dinode} (haddrs : x.addrs = (dinode sb v n).addrs)
    (hsize : x.size = (dinode sb v n).size) (hfree : x.type = 0 → x.size = 0 ∧ ∀ i, x.addrs i = 0) :
    Good L (updView sb v n x) ∧ dinode sb (updView sb v n x) n = x ∧
    (∀ m : UInt32, m.toNat < sb.ninodes.toNat → m ≠ n → dinode sb (updView sb v n x) m = dinode sb v m) ∧
    ∀ m : UInt32, m.toNat < sb.ninodes.toNat → contents sb (updView sb v n x) m = contents sb v m := by
  obtain ⟨hd, hd', hown, haddr, hbytes⟩ := hg.owned.iupdate hn haddrs fun _ _ _ => by rfl
  have hsizes : ∀ m : UInt32, m.toNat < sb.ninodes.toNat → (dinode sb (updView sb v n x) m).size = (dinode sb v m).size := by
    intro m hm
    by_cases hmn : m = n
    · rw [hmn, hd, hsize]
    · rw [hd' m hm hmn]
  refine ⟨⟨hown, fun m bn hm hlt => ?_, fun m hm h0 => ?_⟩, hd, hd', fun m hm => contents_eq ?_ fun k hk => ?_⟩
  · rw [hsizes m hm] at hlt
    rw [haddr m bn hm]
    exact hg.noHole m bn hm hlt
  · by_cases hmn : m = n
    · rw [hmn, hd] at h0 ⊢
      exact hfree h0
    · rw [hd' m hm hmn] at h0 ⊢
      exact hg.free m hm h0
  · rw [length_contents, hsizes m hm]
  · rw [hbytes m k hm, getElem_contents]

/-! ### `ialloc` -/

/-- The inode that `ialloc` leaves. -/
def emptyInode (type : UInt16) : Dinode := ⟨type, 0, 0, 0, 0, fun _ => 0⟩

theorem iallocFrom_swp (L : sb.Layout) {Q : Option UInt32 → Seq → Prop} {type : UInt16} {l : List Nat} (hidle : s.Idle sb)
    (hl : ∀ k ∈ l, k < sb.ninodes.toNat) (hsort : l.Pairwise (· < ·))
    (hnone : (∀ k ∈ l, (dinode sb s.view (.ofNat k)).type ≠ 0) → Q none s)
    (hsome : ∀ k ∈ l, (dinode sb s.view (.ofNat k)).type = 0 → (∀ j ∈ l, j < k → (dinode sb s.view (.ofNat j)).type ≠ 0) →
      Q (some (.ofNat k)) { s with view := updView sb s.view (.ofNat k) (emptyInode type) }) :
    (iallocFrom sb type l).swp Q s := by
  induction l with
  | nil => exact hnone (by simp)
  | cons k l ih =>
    have hk : k < sb.ninodes.toNat := hl k List.mem_cons_self
    have hlt := sb.ninodes.toNat_lt
    have hnat : (UInt32.ofNat k).toNat = k := UInt32.toNat_ofNat_of_lt' (show k < 2 ^ 32 by omega)
    obtain ⟨hmin, hsort'⟩ := List.pairwise_cons.1 hsort
    rw [iallocFrom]
    refine bread_swp (hidle.free _) fun i hi => data_swp ?_
    by_cases h0 : (dinode sb s.view (.ofNat k)).type = 0
    · have h0' := h0
      rw [dinode, hnat] at h0'
      rw [if_pos h0']
      refine logged_swp (p := pure (some (UInt32.ofNat k))) hi (IBLOCK_low L hidle.2 (by rw [hnat]; exact hk)) ?_
      have := hsome k List.mem_cons_self h0 fun j hj hjk => ?_
      · rw [updView, hnat] at this
        exact this
      · rcases List.mem_cons.1 hj with rfl | hj
        · exact absurd hjk (Nat.lt_irrefl _)
        · exact absurd (hmin j hj) (Nat.lt_asymm hjk)
    · have h0' := h0
      rw [dinode, hnat] at h0'
      rw [if_neg h0']
      refine brelse_swp hi (ih (fun j hj => hl j (List.mem_cons_of_mem _ hj)) hsort' (fun hall => ?_) fun j hj ht hfirst => ?_)
      · refine hnone fun j hj => ?_
        rcases List.mem_cons.1 hj with rfl | hj
        · exact h0
        · exact hall j hj
      · refine hsome j (List.mem_cons_of_mem _ hj) ht fun a ha haj => ?_
        rcases List.mem_cons.1 ha with rfl | ha
        · exact h0
        · exact hfirst a ha haj

/-- `ialloc` takes the first inode that is free. -/
theorem ialloc_swp (L : sb.Layout) {Q : Option UInt32 → Seq → Prop} {type : UInt16} (hidle : s.Idle sb)
    (hnone : (∀ m : UInt32, 1 ≤ m.toNat → m.toNat < sb.ninodes.toNat → (dinode sb s.view m).type ≠ 0) → Q none s)
    (hsome : ∀ n : UInt32, 1 ≤ n.toNat → n.toNat < sb.ninodes.toNat → (dinode sb s.view n).type = 0 →
      (∀ m : UInt32, 1 ≤ m.toNat → m.toNat < n.toNat → (dinode sb s.view m).type ≠ 0) →
      Q (some n) { s with view := updView sb s.view n (emptyInode type) }) :
    (ialloc sb type).swp Q s := by
  have hlt := sb.ninodes.toNat_lt
  have hmem : ∀ k, k ∈ (List.range (sb.ninodes.toNat - 1)).map (· + 1) ↔ 1 ≤ k ∧ k < sb.ninodes.toNat := by
    intro k
    simp only [List.mem_map, List.mem_range]
    constructor
    · rintro ⟨j, hj, rfl⟩
      omega
    · intro hk
      exact ⟨k - 1, by omega, by omega⟩
  have hnat : ∀ k, k < sb.ninodes.toNat → (UInt32.ofNat k).toNat = k := fun k hk =>
    UInt32.toNat_ofNat_of_lt' (show k < 2 ^ 32 by omega)
  refine iallocFrom_swp L hidle (fun k hk => ((hmem k).1 hk).2) ?_ (fun hall => hnone fun m h1 hm => ?_) fun k hk ht hfirst => ?_
  · rw [List.pairwise_map]
    exact List.pairwise_lt_range.imp fun h => Nat.succ_lt_succ h
  · have := hall m.toNat ((hmem _).2 ⟨h1, hm⟩)
    rwa [UInt32.ofNat_toNat] at this
  · obtain ⟨h1, hlt⟩ := (hmem k).1 hk
    refine hsome (.ofNat k) (by rwa [hnat k hlt]) (by rwa [hnat k hlt]) ht fun m hm1 hmk => ?_
    rw [hnat k hlt] at hmk
    have := hfirst m.toNat ((hmem _).2 ⟨hm1, by omega⟩) hmk
    rwa [UInt32.ofNat_toNat] at this

/-! ### The operations on a good disk -/

/-- What an operation leaves. -/
def Refines (L : sb.Layout) (s : Seq) (op : FileOp) (r : Int) (t : Seq) : Prop :=
  t.held = s.held ∧ Good L t.view ∧ FileStore.Step sb.ninodes.toNat s.src (files sb s.view) op r (files sb t.view)

/-- An inode gets other fields, its file keeps its bytes. -/
theorem Good.refines_fields (hg : Good L s.view) (hn : n.toNat < sb.ninodes.toNat) {x : Dinode} (haddrs : x.addrs = (dinode sb s.view n).addrs)
    (hsize : x.size = (dinode sb s.view n).size) (hx : x.type ≠ 0) :
    Good L (updView sb s.view n x) ∧
    files sb (updView sb s.view n x) = update (files sb s.view) n (some (fileOf x (contents sb s.view n))) := by
  obtain ⟨hg', hd, hother, hcont⟩ := hg.setInode hn haddrs hsize fun h => absurd h hx
  refine ⟨hg', files_update hn ?_ fun m hm hmn => ⟨hother m hm hmn, hcont m hm⟩⟩
  rw [hd, if_neg hx, hcont n hn]

theorem contents_empty (hn : (dinode sb v n).size = 0) : contents sb v n = [] := by
  rw [contents, hn]
  rfl

theorem create_swp (hidle : s.Idle sb) (hg : Good L s.view) {type : UInt16} (ht : type ≠ 0) (major minor : UInt16) :
    ((FileOp.create type major minor).prog sb).swp (Refines L s (.create type major minor)) s := by
  unfold FileOp.prog
  rw [Prog.swp_bind]
  refine ialloc_swp L hidle (fun hall => ?_) fun n h1 hn h0 hfirst => ?_
  · refine ⟨by rfl, hg, .noInodes fun m hm1 hm => ?_⟩
    rw [files_some hm (hall m hm1 hm)]
    exact Option.some_ne_none _
  · obtain ⟨hsize, haddrs⟩ := hg.free n hn h0
    obtain ⟨hg₁, hd₁, hother₁, hcont₁⟩ := hg.setInode hn (x := emptyInode type) (by rw [emptyInode, funext haddrs])
      (by rw [emptyInode, hsize]) fun h => absurd h ht
    dsimp only
    rw [Prog.swp_bind]
    refine ilock_swp (s := { s with view := updView sb s.view n (emptyInode type) }) hidle (by rw [hd₁]; exact ht) ?_
    rw [hd₁, Prog.swp_bind]
    refine iupdate_swp L hidle hn ?_
    obtain ⟨hg₂, hd₂, hother₂, hcont₂⟩ := hg₁.setInode hn (x := ⟨type, major, minor, 1, 0, fun _ => 0⟩) (by rw [hd₁, emptyInode])
      (by rw [hd₁, emptyInode]) fun h => absurd h ht
    refine ⟨by rfl, hg₂, ?_⟩
    have hfiles : files sb (updView sb (updView sb s.view n (emptyInode type)) n ⟨type, major, minor, 1, 0, fun _ => 0⟩) =
        update (files sb s.view) n (some ⟨type, major, minor, 1, []⟩) := by
      refine files_update hn ?_ fun m hm hmn => ⟨?_, ?_⟩
      · rw [contents_empty (by rw [hd₂]), hd₂, if_neg ht, fileOf]
      · rw [hother₂ m hm hmn, hother₁ m hm hmn]
      · rw [hcont₂ m hm, hcont₁ m hm]
    show FileStore.Step _ _ _ _ _ (files sb (updView sb (updView sb s.view n (emptyInode type)) n ⟨type, major, minor, 1, 0, fun _ => 0⟩))
    rw [hfiles]
    refine .created h1 hn (files_none h0) fun m hm1 hmn => ?_
    rw [files_some (by omega) (hfirst m hm1 hmn)]
    exact Option.some_ne_none _

theorem refuses_iff {f : File} {off cnt : UInt32} (hf : f.data.length = ip.size.toNat) : f.Refuses off cnt ↔ Refused ip off cnt := by
  have h1 := off.toNat_lt
  have h2 := cnt.toNat_lt
  have hadd : (off + cnt).toNat = (off.toNat + cnt.toNat) % 2 ^ 32 := UInt32.toNat_add ..
  have hmax : MAXFILE * BSIZE < 2 ^ 32 := by decide
  simp only [File.Refuses, Refused, hf, gt_iff_lt, UInt32.lt_iff_toNat_lt, hadd]
  omega

/-- What `writei` leaves is a step of the store. -/
theorem Wrote.step {off cnt : UInt32} {x : Inode × Int} {t : Seq} (hw : Wrote L s ip off cnt x t)
    (hip : dinode sb s.view ip.inum = ip.toDinode) (hn : ip.inum.toNat < sb.ninodes.toNat) (ht : ip.type ≠ 0) :
    FileStore.Step sb.ninodes.toNat s.src (files sb s.view) (.write ip.inum off cnt) x.2 (files sb t.view) := by
  have hf := files_some hn (by rw [hip]; exact ht)
  have hlen : (fileOf (dinode sb s.view ip.inum) (contents sb s.view ip.inum)).data.length = ip.size.toNat := by
    rw [fileOf, length_contents, hip]
  by_cases href : Refused ip off cnt
  · obtain ⟨rfl, rfl⟩ := hw.refused href
    exact .refused hf ((refuses_iff hlen).2 href)
  · obtain ⟨r, hr, hx, hip', hrest, hbytes⟩ := hw.written href
    have hfiles : files sb t.view = update (files sb s.view) ip.inum
        (some { fileOf (dinode sb s.view ip.inum) (contents sb s.view ip.inum) with data := contents sb t.view ip.inum }) := by
      refine files_update hn ?_ hw.others
      have ht' : x.1.type ≠ 0 := by rw [hip']; exact ht
      rw [hw.disk, if_neg ht', hip, hip']
      rfl
    rw [hfiles, hx]
    refine .wrote hf (fun h => href ((refuses_iff hlen).1 h)) hr ?_ hrest fun hsrc => (hbytes hsrc).1
    rw [hlen, length_contents, hw.disk, hip']
    refine UInt32.toNat_ofNat_of_lt' (show max ip.size.toNat (off.toNat + r) < 2 ^ 32 from ?_)
    have h1 := ip.size.toNat_lt
    have h2 : ¬(fileOf (dinode sb s.view ip.inum) (contents sb s.view ip.inum)).Refuses off cnt := fun h => href ((refuses_iff hlen).1 h)
    rw [File.Refuses] at h2
    omega

theorem write_swp (hidle : s.Idle sb) (hg : Good L s.view) (hn : n.toNat < sb.ninodes.toNat) (ht : (dinode sb s.view n).type ≠ 0)
    (off cnt : UInt32) : ((FileOp.write n off cnt).prog sb).swp (Refines L s (.write n off cnt)) s := by
  unfold FileOp.prog
  rw [Prog.swp_bind]
  refine ilock_swp hidle ht ?_
  rw [Prog.swp_bind]
  exact Prog.swp_mono (writei_swp hidle hg (by rfl) hn ht off cnt) fun x t hw =>
    ⟨hw.held, hw.good, hw.step (by rfl) hn ht⟩

theorem read_swp (hidle : s.Idle sb) (hg : Good L s.view) (hn : n.toNat < sb.ninodes.toNat) (ht : (dinode sb s.view n).type ≠ 0)
    (off cnt : UInt32) : ((FileOp.read n off cnt).prog sb).swp (Refines L s (.read n off cnt)) s := by
  unfold FileOp.prog
  rw [Prog.swp_bind]
  refine ilock_swp hidle ht ?_
  rw [Prog.swp_bind]
  refine Prog.swp_mono (readi_swp hidle hg (by rfl) hn off cnt) fun x t hx => ?_
  obtain ⟨rfl, -, hr⟩ := hx
  refine ⟨by rfl, hg, .read (files_some hn ht) (hr.imp_right fun h => ?_)⟩
  rw [h, fileOf, length_contents]
  rfl

/-- What `itrunc` leaves is a step of the store. -/
theorem Truncated.step {x : Inode} {t : Seq} (h : Truncated L s ip x t) (hip : dinode sb s.view ip.inum = ip.toDinode)
    (hn : ip.inum.toNat < sb.ninodes.toNat) (ht : ip.type ≠ 0) :
    FileStore.Step sb.ninodes.toNat s.src (files sb s.view) (.trunc ip.inum) 0 (files sb t.view) := by
  have hd : dinode sb t.view ip.inum = x.toDinode := h.disk
  have hfiles : files sb t.view = update (files sb s.view) ip.inum
      (some { fileOf (dinode sb s.view ip.inum) (contents sb s.view ip.inum) with data := [] }) := by
    refine files_update hn ?_ h.others
    rw [contents_empty (by rw [hd, h.inode]), hd, h.inode, if_neg ht, hip]
    rfl
  rw [hfiles]
  exact .trunc (files_some hn (by rw [hip]; exact ht))

theorem trunc_swp (hidle : s.Idle sb) (hg : Good L s.view) (hn : n.toNat < sb.ninodes.toNat) (ht : (dinode sb s.view n).type ≠ 0) :
    ((FileOp.trunc n).prog sb).swp (Refines L s (.trunc n)) s := by
  unfold FileOp.prog
  rw [Prog.swp_bind]
  refine ilock_swp hidle ht ?_
  rw [Prog.swp_bind]
  exact Prog.swp_mono (itrunc_swp hidle hg (by rfl) hn) fun x t hx =>
    ⟨hx.held, hx.good, hx.step (by rfl) hn ht⟩

theorem free_swp (hidle : s.Idle sb) (hg : Good L s.view) (hn : n.toNat < sb.ninodes.toNat) (ht : (dinode sb s.view n).type ≠ 0) :
    ((FileOp.free n).prog sb).swp (Refines L s (.free n)) s := by
  unfold FileOp.prog
  rw [Prog.swp_bind]
  refine ilock_swp hidle ht ?_
  rw [Prog.swp_bind]
  refine Prog.swp_mono (itrunc_swp hidle hg (by rfl) hn) fun x t hx => ?_
  have hd : dinode sb t.view n = x.toDinode := hx.disk
  have hi : x.inum = n := by rw [hx.inode]
  have hfree : x.size = 0 ∧ x.addrs = fun _ => 0 := by
    rw [hx.inode]
    exact ⟨by rfl, by rfl⟩
  have hidle' : t.Idle sb := by
    rw [Seq.Idle, hx.held, hx.low]
    exact hidle
  rw [Prog.swp_bind]
  refine iupdate_swp L hidle' (by exact hi ▸ hn) ?_
  rw [hi]
  obtain ⟨hg', hd', hother, hcont⟩ := hx.good.setInode hn (x := { x.toDinode with type := 0 }) (by rw [hd]) (by rw [hd]) fun _ =>
    ⟨hfree.1, fun i => by rw [hfree.2]⟩
  refine ⟨hx.held, hg', ?_⟩
  have hfiles : Fs.files sb (updView sb t.view n { x.toDinode with type := 0 }) = update (Fs.files sb s.view) n none := by
    refine files_update hn (by rw [hd', if_pos (by rfl)]) fun m hm hmn => ?_
    obtain ⟨h1, h2⟩ := hx.others m hm hmn
    exact ⟨by rw [hother m hm hmn, h1], by rw [hcont m hm, h2]⟩
  show FileStore.Step _ _ _ _ 0 (Fs.files sb (updView sb t.view n { x.toDinode with type := 0 }))
  rw [hfiles]
  exact .free (files_some hn ht)

theorem link_swp (hidle : s.Idle sb) (hg : Good L s.view) (hn : n.toNat < sb.ninodes.toNat) (ht : (dinode sb s.view n).type ≠ 0)
    (nlink : UInt16) : ((FileOp.link n nlink).prog sb).swp (Refines L s (.link n nlink)) s := by
  unfold FileOp.prog
  rw [Prog.swp_bind]
  refine ilock_swp hidle ht ?_
  rw [Prog.swp_bind]
  refine iupdate_swp L hidle hn ?_
  obtain ⟨hg', hfiles⟩ := hg.refines_fields hn (x := { dinode sb s.view n with nlink := nlink }) (by rfl) (by rfl) ht
  refine ⟨by rfl, hg', ?_⟩
  show FileStore.Step _ _ _ _ 0 (Fs.files sb (updView sb s.view n { dinode sb s.view n with nlink := nlink }))
  rw [hfiles]
  exact .link (files_some hn ht)

/-- Each operation does what the store does. -/
theorem op_swp (hidle : s.Idle sb) (hg : Good L s.view) {op : FileOp} (hop : op.Ok (files sb s.view)) :
    (op.prog sb).swp (Refines L s op) s := by
  cases op with
  | create type major minor => exact create_swp hidle hg hop major minor
  | write n off cnt =>
    obtain ⟨hn, ht⟩ := files_ne_none hop
    exact write_swp hidle hg hn ht off cnt
  | read n off cnt =>
    obtain ⟨hn, ht⟩ := files_ne_none hop
    exact read_swp hidle hg hn ht off cnt
  | trunc n =>
    obtain ⟨hn, ht⟩ := files_ne_none hop
    exact trunc_swp hidle hg hn ht
  | link n nlink =>
    obtain ⟨hn, ht⟩ := files_ne_none hop
    exact link_swp hidle hg hn ht nlink
  | free n =>
    obtain ⟨hn, ht⟩ := files_ne_none hop
    exact free_swp hidle hg hn ht

end

/-! ### Sequences of operations -/

/-- Operations on a disk, one after the other, each with the bytes that it can read and its answer. -/
inductive FileRun (sb : Superblock) : (UInt32 → Block) → List (FileOp × List UInt8 × Int) → (UInt32 → Block) → Prop
  | nil {v : UInt32 → Block} : FileRun sb v [] v
  | cons {v w : UInt32 → Block} {t : Seq} {op : FileOp} {src : List UInt8} {r : Int} {evs : List (FileOp × List UInt8 × Int)}
      (hop : op.Ok (files sb v)) (h : (op.prog sb).Runs ⟨v, fun _ => none, src, sb.inodestart.toNat⟩ r t) (hr : FileRun sb t.view evs w) :
      FileRun sb v ((op, src, r) :: evs) w

theorem idle_start (sb : Superblock) (v : UInt32 → Block) (src : List UInt8) : Seq.Idle ⟨v, fun _ => none, src, sb.inodestart.toNat⟩ sb :=
  ⟨fun _ => rfl, Nat.le_refl _⟩

/-- Operations on a good disk are operations of the store of its files; the disk stays good, and no operation reaches a panic of `fs.c`. -/
theorem files_refine {sb : Superblock} {L : sb.Layout} {v w : UInt32 → Block} {evs : List (FileOp × List UInt8 × Int)} (hg : Good L v)
    (h : FileRun sb v evs w) : Good L w ∧ FileStore.Run sb.ninodes.toNat (files sb v) evs (files sb w) ∧
      ∀ (op : FileOp) (src : List UInt8), op.Ok (files sb w) → ¬(op.prog sb).Fails ⟨w, fun _ => none, src, sb.inodestart.toNat⟩ := by
  induction h with
  | nil => exact ⟨hg, .nil, fun op src hop => Prog.swp_not_fails (op_swp (idle_start sb _ src) hg hop)⟩
  | @cons v w t op src r evs hop h hr ih =>
    obtain ⟨-, hg', hstep⟩ := Prog.swp_runs (op_swp (idle_start sb v src) hg hop) h
    obtain ⟨hgw, hrun, hfail⟩ := ih hg'
    exact ⟨hgw, .cons hstep hrun, hfail⟩

/-- The operation is one that is used. -/
def FileOp.okTest (sb : Superblock) (v : UInt32 → Block) : FileOp → Bool
  | .create type _ _ => type ≠ 0
  | .write n _ _ | .read n _ _ | .trunc n | .link n _ | .free n => n.toNat < sb.ninodes.toNat && (dinode sb v n).type ≠ 0

theorem FileOp.ok_of_test {sb : Superblock} {v : UInt32 → Block} {op : FileOp} (h : op.okTest sb v = true) : op.Ok (files sb v) := by
  have hsome : ∀ n : UInt32, (n.toNat < sb.ninodes.toNat && (dinode sb v n).type ≠ 0) = true → files sb v n ≠ none := by
    intro n hn
    simp only [Bool.and_eq_true, decide_eq_true_eq] at hn
    rw [files_some hn.1 hn.2]
    exact Option.some_ne_none _
  cases op with
  | create type major minor =>
    simp only [okTest, decide_eq_true_eq] at h
    exact h
  | _ => exact hsome _ h

/-- A run of operations, with the answers. -/
def replayOps (sb : Superblock) (v : UInt32 → Block) :
    List (FileOp × List UInt8) → Option (List (FileOp × List UInt8 × Int) × (UInt32 → Block))
  | [] => some ([], v)
  | (op, src) :: ops =>
    if op.okTest sb v then
      match (op.prog sb).result ⟨v, fun _ => none, src, sb.inodestart.toNat⟩ with
      | some (r, t) => (replayOps sb t.view ops).map fun x => ((op, src, r) :: x.1, x.2)
      | none => none
    else none

theorem fileRun_of_replay {sb : Superblock} {v w : UInt32 → Block} {ops : List (FileOp × List UInt8)}
    {evs : List (FileOp × List UInt8 × Int)} (h : replayOps sb v ops = some (evs, w)) : FileRun sb v evs w := by
  induction ops generalizing v evs with
  | nil =>
    cases h
    exact .nil
  | cons o ops ih =>
    obtain ⟨op, src⟩ := o
    simp only [replayOps] at h
    split at h
    · split at h
      · rename_i hok _ r t hr
        obtain ⟨⟨evs', w'⟩, hx, he⟩ := Option.map_eq_some_iff.1 h
        cases he
        exact .cons (FileOp.ok_of_test hok) (Prog.result_runs hr) (ih hx)
      · cases h
    · cases h

/-- A new file with two bytes, and three of its bytes asked for; then the file in block 36 goes. -/
theorem files_refine_small : ∃ (evs : List (FileOp × List UInt8 × Int)) (w : UInt32 → Block), FileRun smallSb smallDisk evs w ∧
    evs.map (·.2.2) = [2, 2, 2, 0] ∧ Good smallLayout w ∧ FileStore.Run 16 (files smallSb smallDisk) evs (files smallSb w) := by
  obtain ⟨⟨evs, w⟩, hx, hr⟩ := Option.map_eq_some_iff.1 (show (replayOps smallSb smallDisk
    [(.create 2 0 0, []), (.write 2 0 2, [120, 121]), (.read 2 0 3, []), (.free 1, [])]).map (fun x => x.1.map (·.2.2)) =
      some [2, 2, 2, 0] by decide +kernel)
  have hrun := fileRun_of_replay hx
  obtain ⟨hg, hs, -⟩ := files_refine smallDisk_good hrun
  exact ⟨evs, w, hrun, hr, hg, hs⟩

end Fs

end Xv6
