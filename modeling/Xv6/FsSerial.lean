import Xv6.FsCommit

/-!
# Calls one at a time

`Serial` are the runs of the file system in which each call of `fs.c` and each commit runs to its end before the next begins; operations
of several processes may overlap, and share a transaction.  A copy from user memory fails in them only before it has changed the block, or
when the block is in the header already (`CopySafe`).  From a good disk such a run is a run of the store of files (`serial_refines`), and
a crash at any moment of it loses the calls since the last commit, all or none of them (`crash_safe`).
-/

namespace Xv6

open Function (update)

/-- The call is made as in the source: the inode in memory is locked, and is the one on the disk up to the fields that `iupdate` is
called for. -/
def FsCall.Fits (sb : Superblock) (v : UInt32 → Block) : FsCall → Prop
  | .ialloc type => type ≠ 0
  | .iupdate ip => ip.inum.toNat < sb.ninodes.toNat ∧ (Fs.dinode sb v ip.inum).type ≠ 0 ∧ ip.addrs = (Fs.dinode sb v ip.inum).addrs ∧
    ip.size = (Fs.dinode sb v ip.inum).size ∧ (ip.type = 0 → ip.size = 0 ∧ ∀ i, ip.addrs i = 0)
  | .ilock n => n.toNat < sb.ninodes.toNat ∧ (Fs.dinode sb v n).type ≠ 0
  | .itrunc ip | .readi ip _ _ | .writei ip _ _ =>
    ip.inum.toNat < sb.ninodes.toNat ∧ Fs.dinode sb v ip.inum = ip.toDinode ∧ ip.type ≠ 0

namespace Fs

namespace FileStore

/-- What a call does to the store; `src` are the bytes that it reads from user memory. -/
def CallStep (N : Nat) (src : List UInt8) (S : FileStore) (c : FsCall) (T : FileStore) : Prop :=
  match c with
  | .ialloc type =>
    (∃ n : UInt32, 1 ≤ n.toNat ∧ n.toNat < N ∧ S n = none ∧ (∀ m : UInt32, 1 ≤ m.toNat → m.toNat < n.toNat → S m ≠ none) ∧
      T = update S n (some ⟨type, 0, 0, 0, []⟩)) ∨ (∀ m : UInt32, 1 ≤ m.toNat → m.toNat < N → S m ≠ none) ∧ T = S
  | .iupdate ip => ∃ f, S ip.inum = some f ∧
    T = update S ip.inum (if ip.type = 0 then none else some ⟨ip.type, ip.major, ip.minor, ip.nlink, f.data⟩)
  | .ilock _ | .readi .. => T = S
  | .itrunc ip => Step N src S (.trunc ip.inum) 0 T
  | .writei ip off n => ∃ r, Step N src S (.write ip.inum off n) r T

/-- A sequence of calls of processes. -/
inductive CallRun {P : Type} (N : Nat) (S : FileStore) : List (P × FsCall × List UInt8) → FileStore → Prop
  | nil : CallRun N S [] S
  | snoc {T U : FileStore} {t : P} {c : FsCall} {src : List UInt8} {evs : List (P × FsCall × List UInt8)} (hr : CallRun N S evs T)
      (h : CallStep N src T c U) : CallRun N S (evs ++ [(t, c, src)]) U

theorem CallRun.append {P : Type} {N : Nat} {S T U : FileStore} {evs evs' : List (P × FsCall × List UInt8)} (h : CallRun N S evs T)
    (h' : CallRun N T evs' U) : CallRun N S (evs ++ evs') U := by
  induction h' with
  | nil =>
    rw [List.append_nil]
    exact h
  | snoc _ hs ih =>
    rw [← List.append_assoc]
    exact .snoc ih hs

end FileStore

variable {sb : Superblock} {L : sb.Layout} {s : Seq} {v v' : UInt32 → Block}

/-- The blocks before the inodes do not count. -/
theorem Good.congr (h : Good L v) (hv : ∀ c : UInt32, sb.inodestart.toNat ≤ c.toNat → v' c = v c) : Good L v' ∧ files sb v' = files sb v := by
  have hmap : ∀ c : UInt32, sb.bmapstart.toNat ≤ c.toNat → v' c = v c := by
    intro c hc
    have h1 := L.inodes
    have h2 := Nat.le_add_right sb.inodestart.toNat (sb.ninodes.toNat / IPB)
    exact hv c (by omega)
  have hdata : ∀ c : UInt32, L.start ≤ c.toNat → v' c = v c := fun c hc => hmap c (map_le hc)
  have hd : ∀ n : UInt32, n.toNat < sb.ninodes.toNat → dinode sb v' n = dinode sb v n := by
    intro n hn
    rw [dinode, hv _ (by rw [IBLOCK_toNat L hn]; exact Nat.le_add_left ..), dinode]
  have haddrs : ∀ n : UInt32, n.toNat < sb.ninodes.toNat → (dinode sb v' n).addrs = (dinode sb v n).addrs := fun n hn => by rw [hd n hn]
  obtain ⟨hown, hbytes⟩ := h.owned.congr haddrs hmap
  refine ⟨⟨hown, fun n bn hn hlt => ?_, fun n hn h0 => ?_⟩, ?_⟩
  · rw [hd n hn] at hlt
    rw [fileAddr_congr haddrs hdata h.owned hn]
    exact h.noHole n bn hn hlt
  · rw [hd n hn] at h0 ⊢
    exact h.free n hn h0
  · funext n
    by_cases hn : n.toNat < sb.ninodes.toNat
    · have hcont : contents sb v' n = contents sb v n := by
        refine contents_eq ?_ fun k hk => ?_
        · rw [length_contents, hd n hn]
        · rw [hbytes n k hn, getElem_contents]
      simp only [files, hd n hn, hcont]
    · rw [files, if_neg (fun h => hn h.1), files, if_neg fun h => hn h.1]

/-- What a call leaves. -/
def Does (L : sb.Layout) (s : Seq) (c : FsCall) (t : Seq) : Prop :=
  Good L t.view ∧ FileStore.CallStep sb.ninodes.toNat s.src (files sb s.view) c (files sb t.view)

theorem call_swp (hidle : s.Idle sb) (hg : Good L s.view) {c : FsCall} (hc : c.Fits sb s.view) :
    (c.prog sb).swp (fun _ => Does L s c) s := by
  cases c with
  | ialloc type =>
    change (ialloc sb type >>= fun _ => pure ()).swp _ s
    rw [Prog.swp_bind]
    refine ialloc_swp L hidle (fun hall => ⟨hg, .inr ⟨fun m h1 hm => ?_, by rfl⟩⟩) fun n h1 hn h0 hfirst => ?_
    · rw [files_some hm (hall m h1 hm)]
      exact Option.some_ne_none _
    · obtain ⟨hsize, haddrs⟩ := hg.free n hn h0
      obtain ⟨hg', hd, hother, hcont⟩ := hg.setInode hn (x := emptyInode type) (by rw [emptyInode, funext haddrs])
        (by rw [emptyInode, hsize]) fun h => absurd h hc
      refine ⟨hg', .inl ⟨n, h1, hn, files_none h0, fun m hm1 hmn => ?_, ?_⟩⟩
      · rw [files_some (by omega) (hfirst m hm1 hmn)]
        exact Option.some_ne_none _
      · refine files_update hn ?_ fun m hm hmn => ⟨hother m hm hmn, hcont m hm⟩
        have hct : (emptyInode type).type ≠ 0 := hc
        rw [contents_empty (by rw [hd, emptyInode]), hd, if_neg hct]
        rfl
  | iupdate ip =>
    obtain ⟨hn, ht, haddrs, hsize, hfree⟩ := hc
    refine iupdate_swp L hidle hn ?_
    obtain ⟨hg', hd, hother, hcont⟩ := hg.setInode hn haddrs hsize hfree
    refine ⟨hg', _, files_some hn ht, files_update hn ?_ fun m hm hmn => ⟨hother m hm hmn, hcont m hm⟩⟩
    rw [hd, hcont _ hn]
    rfl
  | ilock n =>
    change (ilock sb n >>= fun _ => pure ()).swp _ s
    rw [Prog.swp_bind]
    exact ilock_swp hidle hc.2 ⟨hg, by rfl⟩
  | itrunc ip =>
    obtain ⟨hn, hip, ht⟩ := hc
    change (itrunc sb ip >>= fun _ => pure ()).swp _ s
    rw [Prog.swp_bind]
    exact Prog.swp_mono (itrunc_swp hidle hg hip hn) fun x t hx => ⟨hx.good, hx.step hip hn ht⟩
  | readi ip off n =>
    obtain ⟨hn, hip, -⟩ := hc
    change (readi sb ip off n >>= fun _ => pure ()).swp _ s
    rw [Prog.swp_bind]
    refine Prog.swp_mono (readi_swp hidle hg hip hn off n) fun x t hx => ?_
    rw [hx.1]
    exact ⟨hg, by rfl⟩
  | writei ip off n =>
    obtain ⟨hn, hip, ht⟩ := hc
    change (writei sb ip off n >>= fun _ => pure ()).swp _ s
    rw [Prog.swp_bind]
    exact Prog.swp_mono (writei_swp hidle hg hip hn ht off n) fun x t hx => ⟨hx.good, x.2, hx.step hip hn ht⟩

end Fs

namespace FsSys

variable {P : Type} [DecidableEq P] {s s' u w x : FsSys P} {t : P} {G : P → Ghost} {C : Committing} {sb : Superblock} {L : sb.Layout}

/-! ### Between the calls -/

section

variable [Fintype P]

/-- What holds between the calls. -/
structure Rest (L : sb.Layout) (s : FsSys P) : Prop where
  inv : ∃ G C, s.Inv G C
  idle : ∀ t, s.Idle t = true
  quiet : ∀ t, (s.th t).op ≠ .commit
  logged : s.Logged sb.inodestart.toNat
  dev : s.io.log.dev = ROOTDEV
  region : (s.io.log.start.toNat : Int) + s.io.log.size ≤ sb.inodestart.toNat
  header : headerCount (s.io.disk s.io.log.start) = 0
  good : Fs.Good L s.view
  goodDisk : Fs.Good L s.io.disk

/-- The blocks from the inodes on are not blocks of the log. -/
theorem not_region {lg : Log} (hr : (lg.start.toNat : Int) + lg.size ≤ sb.inodestart.toNat) {b : UInt32} (hb : sb.inodestart.toNat ≤ b.toNat) :
    ¬lg.Region b := by
  rintro ⟨k, hk, rfl⟩
  have h1 := sb.inodestart.toNat_lt
  have h2 : (UInt32.ofNat k).toNat = k := UInt32.toNat_ofNat_of_lt' (show k < 2 ^ 32 by omega)
  have h3 : (lg.start + UInt32.ofNat k).toNat = lg.start.toNat + k := by
    rw [UInt32.toNat_add, h2]
    exact Nat.mod_eq_of_lt (by omega)
  omega

omit [DecidableEq P] in
/-- A block that is not in the header has the same data in the cache and on the disk. -/
theorem Inv.view_disk (h : s.Inv G C) (hidle : ∀ t, s.Idle t = true) {b : UInt32} (hb : b ∉ s.io.log.lh) : s.view b = s.io.disk b := by
  by_cases hi : ∃ i, (s.io.buf i).valid = true ∧ (s.io.buf i).blockno = b
  · obtain ⟨i, hv, rfl⟩ := hi
    rw [h.cache.shows.valid i hv]
    refine (h.clean i hv fun t a ha => ?_).resolve_right fun hlh => hb (h.ops.lh ▸ hlh.1)
    have hok := h.ok t
    rw [idle_iff.1 (hidle t)] at hok
    rw [hok.1 i] at ha
    cases ha
  · exact h.cache.shows.disk b fun i hv hbi => hi ⟨i, hv, hbi⟩

omit [DecidableEq P] in
/-- The transaction can be committed. -/
theorem Rest.ready (h : s.Rest L) (hlh : s.io.log.lh ≠ []) : s.io.Ready s.view := by
  obtain ⟨G, C, hinv⟩ := h.inv
  obtain ⟨hp, -⟩ := hinv.ops.rest h.quiet
  refine ⟨⟨hinv.cache.lru, fun {dev b i j} hd hi hj => ?_⟩, by rw [h.dev]; decide, ?_, h.logged.le, h.logged.lt, ?_, fun b hb => ?_, fun b hb => ?_,
    h.header⟩
  · have hdev : dev = ROOTDEV := by
      rcases h.logged.devs i with hr | hz
      · exact hi.1.symm.trans hr
      · exact absurd (hi.1.symm.trans hz) hd
    exact hinv.cache.unique i j (hi.1.trans hdev) (hj.1.trans hdev) (hi.2.trans hj.2.symm)
  · exact List.length_pos_iff.2 hlh
  · rw [← hinv.ops.lh]
    exact hinv.ops.nodup
  · exact not_region h.region (h.logged.home b hb)
  · obtain ⟨i, hc, hv⟩ := h.logged.cached b hb
    have hpin : pin s.io C.pins i = 1 := if_pos ⟨hc.1, by rw [hp, hinv.ops.lh, hc.2]; exact hb⟩
    have hrefs := hinv.refs i
    refine ⟨i, by rw [h.dev]; exact hc, hv, by omega, ?_⟩
    rw [← hc.2]
    exact (hinv.cache.shows.valid i hv).symm

/-- `outstanding` and `committing` are set, and process `t` goes on at `y`. -/
def relog (s : FsSys P) (o : Int) (c : Bool) (t : P) (y : FsTh) : FsSys P :=
  (s.setIo { s.io with log := { s.io.log with outstanding := o, committing := c } }).setTh t y

/-- What the calls leave as it is. -/
def Kept (s u : FsSys P) : Prop :=
  u.io.disk = s.io.disk ∧ u.view = s.view ∧ u.io.log.start = s.io.log.start ∧ u.io.log.size = s.io.log.size

theorem Rest.relog (h : s.Rest L) {o : Int} {c : Bool} {y : FsTh} (hy : y.st = (s.th t).st) (ho : y.op ≠ .commit)
    (hinv : ∃ G C, (s.relog o c t y).Inv G C) : (s.relog o c t y).Rest L := by
  have hth : ∀ u, (update s.th t y u).st = (s.th u).st ∧ (update s.th t y u).op ≠ .commit := by
    intro u
    by_cases hu : u = t
    · rw [hu, Function.update_self]
      exact ⟨hy, ho⟩
    · rw [Function.update_of_ne hu]
      exact ⟨by rfl, h.quiet u⟩
  refine ⟨hinv, fun u => idle_iff.2 ?_, fun u => (hth u).2, ⟨h.logged.devs, h.logged.le, h.logged.lt, h.logged.home, h.logged.cached⟩, h.dev,
    h.region, h.header, h.good, h.goodDisk⟩
  rw [← idle_iff.1 (h.idle u)]
  exact (hth u).1

theorem Rest.beginOp (h : s.Rest L) (hs : s.step sb (.beginOp t) = some (.ok u)) : u.Rest L ∧ s.Kept u := by
  obtain ⟨G, C, hinv⟩ := h.inv
  have hinv' := hinv.step (e := .beginOp t) trivial hs
  simp only [FsSys.step] at hs
  split at hs
  · split at hs
    · cases hs
    · rename_i lg hlg
      cases hs
      unfold Log.beginOp at hlg
      split at hlg
      · cases hlg
      · split at hlg
        · cases hlg
        · cases hlg
          refine ⟨?_, by rfl, by rfl, by rfl, by rfl⟩
          exact h.relog (o := s.io.log.outstanding + 1) (c := s.io.log.committing) (y := { s.th t with op := .inOp }) (by rfl) (by simp) hinv'
  · cases hs

omit [Fintype P] in
/-- The last operation that ends commits. -/
theorem endOp_cases (hs : s.step sb (.endOp t) = some (.ok u)) :
    (∃ o, u = s.relog o s.io.log.committing t { s.th t with op := .out }) ∨ ∃ o, u = s.relog o true t ⟨.run Fs.commit, .commit⟩ := by
  simp only [FsSys.step] at hs
  split at hs
  · split at hs
    · cases hs
    · rename_i lg doCommit hlg
      cases hs
      unfold Log.endOp at hlg
      split at hlg
      · cases hlg
      · split at hlg
        · cases hlg
          exact .inr ⟨_, by rfl⟩
        · cases hlg
          exact .inl ⟨_, by rfl⟩
  · cases hs

theorem Rest.endOp (h : s.Rest L) (hs : s.step sb (.endOp t) = some (.ok u)) (ho : (u.th t).op = .out) :
    u.Rest L ∧ s.Kept u := by
  obtain ⟨G, C, hinv⟩ := h.inv
  have hinv' := hinv.step (e := .endOp t) trivial hs
  rcases endOp_cases hs with ⟨o, rfl⟩ | ⟨o, rfl⟩
  · exact ⟨h.relog (by rfl) (by simp) hinv', by rfl, by rfl, by rfl, by rfl⟩
  · simp [FsSys.relog, setTh] at ho

/-! ### Calls -/

/-- A call that has just begun. -/
theorem Rest.base (h : s.Rest L) (p : Prog Unit) (hinv : ∃ G C, (s.goto t (.run p)).Inv G C) :
    (s.goto t (.run p)).Base t sb.inodestart.toNat := by
  obtain ⟨G, C, hI⟩ := h.inv
  refine ⟨hinv, fun u => ?_, fun i hi => absurd hi (hI.idle_lock (h.idle t) i), h.logged.goto t _⟩
  have := (frame_goto (s := s) (t := t) s (.run p) (by rfl) (by rfl) (by rfl) ⟨_, by rfl⟩).op u
  rw [this]
  exact h.quiet u

omit [Fintype P] in
theorem call_cases {c : FsCall} (hs : s.step sb (.call t c) = some (.ok u)) : u = s.goto t (.run (c.prog sb)) := by
  simp only [FsSys.step] at hs
  split at hs
  · cases hs
    rfl
  · cases hs

/-- The code of a call does not fail. -/
theorem Rest.safe (h : s.Rest L) {c : FsCall} (hc : c.Fits sb s.view) :
    (s.goto t (.run (c.prog sb))).Safe t sb.inodestart.toNat := by
  obtain ⟨G, C, hinv⟩ := h.inv
  intro src
  rw [rest_goto_run, view_goto]
  refine Prog.swp_not_fails (Fs.call_swp (L := L) (s := ⟨s.view, _, src, _⟩) ⟨fun i => ?_, Nat.le_refl _⟩ h.good hc)
  rw [hinv.idle_heldBy (h.idle t)]

/-- A call does to the files on the view what it does to the store. -/
theorem Rest.call (h : s.Rest L) {c : FsCall} {src : List UInt8} (hc : c.Fits sb s.view) (hs : s.step sb (.call t c) = some (.ok w))
    (hr : Solo sb t w src u) : u.Rest L ∧ u.io.disk = s.io.disk ∧ u.io.log.start = s.io.log.start ∧ u.io.log.size = s.io.log.size ∧
      Fs.FileStore.CallStep sb.ninodes.toNat src (Fs.files sb s.view) c (Fs.files sb u.view) := by
  obtain ⟨G, C, hinv⟩ := h.inv
  have hinv' := hinv.step (e := .call t c) trivial hs
  obtain rfl := call_cases hs
  obtain ⟨hb, hfr, hi, hends⟩ := hr.runs (h.base _ hinv') (h.safe hc)
  have hfr' := (frame_goto (s := s) (t := t) s (.run (c.prog sb)) (by rfl) (by rfl) (by rfl) ⟨_, by rfl⟩).trans hfr
  unfold Ends at hends
  rw [rest_goto_run, view_goto] at hends
  have hidle : Seq.Idle ⟨s.view, s.heldBy t, src, sb.inodestart.toNat⟩ sb := by
    refine ⟨fun i => ?_, Nat.le_refl _⟩
    show s.heldBy t i = none
    rw [hinv.idle_heldBy (h.idle t)]
  obtain ⟨hg, hstep⟩ := Prog.swp_runs (Fs.call_swp (L := L) hidle h.good hc) hends
  refine ⟨⟨hb.inv, fun v => ?_, hb.quiet, hb.logged, hfr'.dev.trans h.dev, ?_, ?_, hg, ?_⟩, hfr'.disk, hfr'.start, hfr'.size, hstep⟩
  · by_cases hv : v = t
    · rw [hv]
      exact hi
    · refine idle_iff.2 ?_
      rw [hfr'.others v hv]
      exact idle_iff.1 (h.idle v)
  · rw [hfr'.start, hfr'.size]
    exact h.region
  · rw [hfr'.disk, hfr'.start]
    exact h.header
  · rw [hfr'.disk]
    exact h.goodDisk

/-! ### The commit -/

/-- The blocks from the inodes on are those of `v`. -/
def Agree (sb : Superblock) (d v : UInt32 → Block) : Prop := ∀ b : UInt32, sb.inodestart.toNat ≤ b.toNat → d b = v b

omit [DecidableEq P] in
/-- The disk before the commit point. -/
theorem Rest.agree_old (h : s.Rest L) {d : Disk} (ho : s.io.OldDisk d) : Agree sb d s.io.disk :=
  fun b hb => ho.home b (not_region h.region hb)

omit [DecidableEq P] in
/-- The disk after the transaction is installed. -/
theorem Rest.agree_done (h : s.Rest L) {d : Disk} (hd : s.io.DoneDisk s.view d) : Agree sb d s.view := by
  obtain ⟨G, C, hinv⟩ := h.inv
  intro b hb
  by_cases hlh : b ∈ s.io.log.lh
  · exact hd.installed b hlh
  · rw [hd.home b (not_region h.region hb) hlh, hinv.view_disk h.idle hlh]

/-- At any moment of a commit the disk is on one side of the commit point. -/
def Cut (s : FsSys P) (d : Disk) : Prop :=
  s.io.OldDisk d ∨ s.io.Ready s.view ∧ (s.io.NewDisk s.view d ∨ s.io.DoneDisk s.view d)

theorem Rest.cut (h : s.Rest L) (hs : s.step sb (.endOp t) = some (.ok w)) (ho : (w.th t).op = .commit) (hr : Steps sb t w u) :
    s.Cut u.io.disk ∧ (u.Idle t = true → headerCount (u.io.disk s.io.log.start) = 0 ∧ Agree sb u.io.disk s.view) := by
  obtain ⟨G, C, hinv⟩ := h.inv
  have hinv' := hinv.step (e := .endOp t) trivial hs
  rcases endOp_cases hs with ⟨o, rfl⟩ | ⟨o, rfl⟩
  · simp [FsSys.relog, setTh] at ho
  have hst : ((s.relog o true t ⟨.run Fs.commit, .commit⟩).th t).st = .run Fs.commit := by
    show (update s.th t _ t).st = _
    rw [Function.update_self]
  by_cases hlh : s.io.log.lh = []
  · have hd : u.io.disk = s.io.disk := hr.commit_nil hinv' hst h.dev hlh
    rw [hd]
    refine ⟨.inl ⟨h.header, fun b _ => by rfl⟩, fun _ => ⟨h.header, fun b _ => ?_⟩⟩
    rw [hinv.view_disk h.idle (by rw [hlh]; exact List.not_mem_nil)]
  · have hready := h.ready hlh
    have hready' : (s.relog o true t ⟨.run Fs.commit, .commit⟩).io.Ready s.view :=
      ⟨⟨hready.wf.lru, hready.wf.key⟩, hready.dev, hready.pos, hready.le, hready.lt, hready.nodup, hready.home, hready.pinned, hready.empty⟩
    obtain ⟨x, y, ws, hws, hd, hall⟩ := hr.commit hinv' hst h.dev hready'
    have hcut : ((∀ w ∈ ws, w.1 ≠ s.io.log.start) ∧ s.io.OldDisk (applyWrites s.io.disk ws)) ∨
        (s.io.NewDisk s.view (applyWrites s.io.disk ws) ∨ s.io.DoneDisk s.view (applyWrites s.io.disk ws)) :=
      (commit_cut hready' hws).imp (fun h => ⟨h.1, h.2.empty, h.2.home⟩) fun h =>
        h.2.imp (fun hn => ⟨hn.header, hn.entry, hn.home⟩) fun hn => ⟨hn.empty, hn.installed, hn.home⟩
    rw [show u.io.disk = applyWrites s.io.disk ws from hd]
    refine ⟨hcut.imp (·.2) fun hc => ⟨hready, hc⟩, fun hi => ?_⟩
    -- the last write clears the header
    have h0 : headerCount (applyWrites s.io.disk ws s.io.log.start) = 0 := by
      rw [hall hi, commitWrites, ← List.cons_append, ← List.append_assoc, applyWrites_append]
      exact headerCount_clear _ _ _
    refine ⟨h0, ?_⟩
    rcases hcut with ⟨hne, -⟩ | hn | hdone
    · refine absurd rfl (hne (s.io.log.start, putHeader x s.io.log.lh) ?_)
      rw [hall hi]
      exact List.mem_append_right _ List.mem_cons_self
    · have hempty := header_eq_nil h0
      rw [hn.header] at hempty
      exact absurd hempty hlh
    · exact h.agree_done hdone

omit [Fintype P] in
theorem finish_cases (hs : s.step sb (.finish t) = some (.ok u)) :
    s.Idle t = true ∧ (s.th t).op = .commit ∧ u = s.relog s.io.log.outstanding false t { s.th t with op := .out } := by
  simp only [FsSys.step] at hs
  split at hs
  · rename_i hi
    cases hs
    exact ⟨hi.1, hi.2, by rfl⟩
  · cases hs

/-- A commit leaves the files of the view on the disk. -/
theorem Rest.commit (h : s.Rest L) (hs : s.step sb (.endOp t) = some (.ok w)) (ho : (w.th t).op = .commit) (hr : Steps sb t w u)
    (hf : u.step sb (.finish t) = some (.ok x)) :
    x.Rest L ∧ x.io.log.start = s.io.log.start ∧ x.io.log.size = s.io.log.size ∧
      Fs.files sb x.io.disk = Fs.files sb s.view ∧ Fs.files sb x.view = Fs.files sb s.view := by
  obtain ⟨G, C, hinv⟩ := h.inv
  have hinvw := hinv.step (e := .endOp t) trivial hs
  obtain ⟨⟨Gu, Cu, hinvu⟩, -, hgrow, hdevs, hop, hth⟩ := hr.io hinvw
  obtain ⟨lh, hlog⟩ := hgrow.log
  obtain ⟨hi, hcom, rfl⟩ := finish_cases hf
  have hinvx := hinvu.step (e := .finish t) trivial hf
  obtain ⟨-, hdone⟩ := h.cut hs ho hr
  obtain ⟨h0, hagree⟩ := hdone hi
  rcases endOp_cases hs with ⟨o, rfl⟩ | ⟨o, rfl⟩
  · simp [FsSys.relog, setTh] at ho
  have hstart : u.io.log.start = s.io.log.start := by
    rw [hlog]
    rfl
  have hsize : u.io.log.size = s.io.log.size := by
    rw [hlog]
    rfl
  have hdev : u.io.log.dev = s.io.log.dev := by
    rw [hlog]
    rfl
  have hnil : u.io.log.lh = [] := by
    have hok := hinvu.ok t
    rw [idle_iff.1 hi] at hok
    rw [← hinvu.ops.lh]
    exact (hok.2 _ (by rw [hinvu.ops.com t, if_pos hcom])).1
  have hths : ∀ v, v ≠ t → (u.th v) = s.th v := by
    intro v hv
    rw [hth v hv]
    exact Function.update_of_ne hv ..
  have hidle : ∀ v, (u.relog u.io.log.outstanding false t { u.th t with op := .out }).Idle v = true := by
    intro v
    refine idle_iff.2 ?_
    show (update u.th t _ v).st = _
    by_cases hv : v = t
    · rw [hv, Function.update_self]
      exact idle_iff.1 hi
    · rw [Function.update_of_ne hv, hths v hv]
      exact idle_iff.1 (h.idle v)
  have hview : (u.relog u.io.log.outstanding false t { u.th t with op := .out }).view = u.io.disk := by
    obtain ⟨Gx, Cx, hx⟩ := hinvx
    funext b
    refine hx.view_disk hidle ?_
    show b ∉ u.io.log.lh
    rw [hnil]
    exact List.not_mem_nil
  obtain ⟨hgood, hfiles⟩ := h.good.congr hagree
  rw [hview]
  refine ⟨⟨hinvx, hidle, fun v => ?_, ⟨hdevs h.logged.devs, ?_, ?_, ?_, ?_⟩, hdev.trans h.dev, ?_, ?_, by rw [hview]; exact hgood, hgood⟩,
    hstart, hsize, hfiles, hfiles⟩
  · show (update u.th t _ v).op ≠ _
    by_cases hv : v = t
    · rw [hv, Function.update_self]
      simp
    · rw [Function.update_of_ne hv, hths v hv]
      exact h.quiet v
  · show u.io.log.lh.length ≤ _
    rw [hnil]
    exact Nat.zero_le _
  · show (u.io.log.lh.length : Int) ≤ u.io.log.size - 1
    have := h.logged.lt
    rw [hnil, hsize, List.length_nil]
    omega
  · show ∀ b ∈ u.io.log.lh, _
    rw [hnil]
    simp
  · show ∀ b ∈ u.io.log.lh, _
    rw [hnil]
    simp
  · show (u.io.log.start.toNat : Int) + u.io.log.size ≤ _
    rw [hstart, hsize]
    exact h.region
  · show headerCount (u.io.disk u.io.log.start) = 0
    rw [hstart]
    exact h0

/-! ### Runs -/

/-- Calls and commits that follow each other from `s₀` on: `done` are the calls whose operations a commit has put on the disk, `new` those
since.  The copies from user memory are `CopySafe`. -/
inductive Serial (sb : Superblock) (s₀ : FsSys P) : List (P × FsCall × List UInt8) → List (P × FsCall × List UInt8) → FsSys P → Prop
  | nil : Serial sb s₀ [] [] s₀
  | beginOp {done new : List (P × FsCall × List UInt8)} {s u : FsSys P} {t : P} (h : Serial sb s₀ done new s)
      (hs : s.step sb (.beginOp t) = some (.ok u)) : Serial sb s₀ done new u
  | call {done new : List (P × FsCall × List UInt8)} {s w u : FsSys P} {t : P} {c : FsCall} {src : List UInt8}
      (h : Serial sb s₀ done new s) (hc : c.Fits sb s.view) (hs : s.step sb (.call t c) = some (.ok w)) (hr : Solo sb t w src u) :
      Serial sb s₀ done (new ++ [(t, c, src)]) u
  | endOp {done new : List (P × FsCall × List UInt8)} {s u : FsSys P} {t : P} (h : Serial sb s₀ done new s)
      (hs : s.step sb (.endOp t) = some (.ok u)) (ho : (u.th t).op = .out) : Serial sb s₀ done new u
  | commit {done new : List (P × FsCall × List UInt8)} {s w u x : FsSys P} {t : P} (h : Serial sb s₀ done new s)
      (hs : s.step sb (.endOp t) = some (.ok w)) (ho : (w.th t).op = .commit) (hr : Steps sb t w u)
      (hf : u.step sb (.finish t) = some (.ok x)) : Serial sb s₀ (done ++ new) [] x

/-- A moment of a run: between two calls, in a call, or in a commit. -/
inductive During (sb : Superblock) : FsSys P → FsSys P → Prop
  | rest {s : FsSys P} : During sb s s
  | call {s w u : FsSys P} {t : P} {c : FsCall} (hc : c.Fits sb s.view) (hs : s.step sb (.call t c) = some (.ok w)) (hp : Part sb t w u) :
      During sb s u
  | commit {s w u : FsSys P} {t : P} (hs : s.step sb (.endOp t) = some (.ok w)) (ho : (w.th t).op = .commit) (hr : Steps sb t w u) :
      During sb s u

/-- A boot from a good disk. -/
structure Boot (L : sb.Layout) (s : FsSys P) : Prop where
  init : s.Init
  devs : s.Devs
  dev : s.io.log.dev = ROOTDEV
  size : 1 ≤ s.io.log.size
  region : (s.io.log.start.toNat : Int) + s.io.log.size ≤ sb.inodestart.toNat
  header : headerCount (s.io.disk s.io.log.start) = 0
  good : Fs.Good L s.io.disk

omit [DecidableEq P] in
theorem Boot.rest (h : s.Boot L) : s.Rest L ∧ s.view = s.io.disk := by
  have hidle : ∀ t, s.Idle t = true := fun t => idle_iff.2 (by rw [h.init.th t])
  have hinv := Inv.init h.init
  have hview : s.view = s.io.disk := by
    funext b
    refine hinv.view_disk hidle ?_
    rw [h.init.lh]
    exact List.not_mem_nil
  refine ⟨⟨⟨_, _, hinv⟩, hidle, fun t => ?_, ⟨h.devs, ?_, ?_, ?_, ?_⟩, h.dev, h.region, h.header, by rw [hview]; exact h.good, h.good⟩, hview⟩
  · rw [h.init.th t]
    simp
  · rw [h.init.lh]
    exact Nat.zero_le _
  · rw [h.init.lh]
    have := h.size
    rw [List.length_nil]
    omega
  · rw [h.init.lh]
    simp
  · rw [h.init.lh]
    simp

/-- What a serial run has done. -/
structure Served (L : sb.Layout) (s₀ : FsSys P) (done new : List (P × FsCall × List UInt8)) (s : FsSys P) : Prop where
  rest : s.Rest L
  start : s.io.log.start = s₀.io.log.start
  size : s.io.log.size = s₀.io.log.size
  done : Fs.FileStore.CallRun sb.ninodes.toNat (Fs.files sb s₀.io.disk) done (Fs.files sb s.io.disk)
  new : Fs.FileStore.CallRun sb.ninodes.toNat (Fs.files sb s.io.disk) new (Fs.files sb s.view)

theorem Serial.served {s₀ : FsSys P} {done new : List (P × FsCall × List UInt8)} (h : Serial sb s₀ done new s) (hb : s₀.Boot L) :
    Served L s₀ done new s := by
  induction h with
  | nil =>
    obtain ⟨hr, hv⟩ := hb.rest
    refine ⟨hr, by rfl, by rfl, .nil, ?_⟩
    rw [hv]
    exact .nil
  | beginOp h hs ih =>
    obtain ⟨hr, hd, hv, hst, hsz⟩ := ih.rest.beginOp hs
    refine ⟨hr, hst.trans ih.start, hsz.trans ih.size, by rw [hd]; exact ih.done, ?_⟩
    rw [hd, hv]
    exact ih.new
  | call h hc hs hr ih =>
    obtain ⟨hrest, hd, hst, hsz, hstep⟩ := ih.rest.call hc hs hr
    refine ⟨hrest, hst.trans ih.start, hsz.trans ih.size, by rw [hd]; exact ih.done, ?_⟩
    rw [hd]
    exact ih.new.snoc hstep
  | endOp h hs ho ih =>
    obtain ⟨hr, hd, hv, hst, hsz⟩ := ih.rest.endOp hs ho
    refine ⟨hr, hst.trans ih.start, hsz.trans ih.size, by rw [hd]; exact ih.done, ?_⟩
    rw [hd, hv]
    exact ih.new
  | commit h hs ho hr hf ih =>
    obtain ⟨hrest, hst, hsz, hd, hv⟩ := ih.rest.commit hs ho hr hf
    refine ⟨hrest, hst.trans ih.start, hsz.trans ih.size, ?_, ?_⟩
    · rw [hd]
      exact ih.done.append ih.new
    · rw [hv, hd]
      exact .nil

/-- A serial run from a good disk, with `CopySafe` copies, is a run of the store of files: the calls before the last commit lead to the
files on the disk, and those since to the files that the calls see. -/
theorem serial_refines {s₀ : FsSys P} {done new : List (P × FsCall × List UInt8)} (hb : s₀.Boot L) (h : Serial sb s₀ done new s) :
    Fs.Good L s.view ∧ Fs.Good L s.io.disk ∧
      Fs.FileStore.CallRun sb.ninodes.toNat (Fs.files sb s₀.io.disk) done (Fs.files sb s.io.disk) ∧
      Fs.FileStore.CallRun sb.ninodes.toNat (Fs.files sb s.io.disk) new (Fs.files sb s.view) :=
  ⟨(h.served hb).rest.good, (h.served hb).rest.goodDisk, (h.served hb).done, (h.served hb).new⟩

/-- At any moment the disk is on one side of a commit point. -/
theorem Rest.during (h : s.Rest L) (hd : During sb s u) : s.Cut u.io.disk := by
  cases hd with
  | rest => exact .inl ⟨h.header, fun b _ => by rfl⟩
  | @call w _ t c hc hs hp =>
    obtain ⟨G, C, hinv⟩ := h.inv
    have hinv' := hinv.step (e := .call t c) trivial hs
    obtain rfl := call_cases hs
    have hfr := hp.frame (h.base _ hinv') (h.safe hc)
    have hd : u.io.disk = s.io.disk := hfr.disk
    rw [hd]
    exact .inl ⟨h.header, fun b _ => by rfl⟩
  | commit hs ho hr => exact (h.cut hs ho hr).1

end

/-! ### A small run -/

/-- The state that a step leaves. -/
def okOf : Option (Except String (FsSys P)) → Option (FsSys P)
  | some (.ok s) => some s
  | _ => none

omit [DecidableEq P] in
theorem okOf_eq {r : Option (Except String (FsSys P))} (h : okOf r = some s) : r = some (.ok s) := by
  unfold okOf at h
  split at h
  · cases h
    rfl
  · cases h

/-- At most `n` steps of `t`, to the end of its call. -/
def nexts (sb : Superblock) (t : P) : Nat → FsSys P → Option (FsSys P)
  | 0, s => some s
  | n + 1, s => if s.Idle t then some s else (okOf (s.step sb (.next t))).bind (nexts sb t n)

theorem Steps.of_nexts {n : Nat} (h : nexts sb t n s = some u) : Steps sb t s u := by
  induction n generalizing s with
  | zero =>
    cases h
    exact .refl
  | succ n ih =>
    rw [nexts] at h
    split at h
    · cases h
      exact .refl
    · obtain ⟨s', hs, h'⟩ := Option.bind_eq_some_iff.1 h
      exact .head (okOf_eq hs) (ih h')

theorem Solo.of_steps (h : Steps sb t s u) (hi : u.Idle t = true) : Solo sb t s [] u := by
  induction h with
  | refl => exact .done hi
  | head hs _ ih => exact .next hs (ih hi)

/-- A boot from the small disk. -/
def smallFs : FsSys Unit where
  io := binit ⟨2, 31, 0, false, ROOTDEV, []⟩ Fs.smallDisk
  lock _ := none
  th _ := ⟨.run (.pure ()), .out⟩

theorem smallFs_boot : smallFs.Boot Fs.smallLayout := by
  have hnone : ∀ i, (smallFs.io.buf i).valid = true → False := fun i h => by cases h
  have hdev : ∀ i, (smallFs.io.buf i).dev = ROOTDEV → False := fun i h => absurd (show (0 : UInt32) = ROOTDEV from h) (by decide)
  refine ⟨⟨fun t => by rfl, fun i => by rfl, by rfl, by rfl, by rfl, fun i => ?_, fun i h => (hnone i h).elim,
    fun i j h => (hdev i h).elim, fun i h => (hnone i h).elim⟩, fun i => .inr (by rfl), by rfl, by decide, by decide, by decide +kernel,
    Fs.smallDisk_good⟩
  simp [smallFs, binit]

/-- The calls of this run. -/
def smallCalls : List (Unit × FsCall × List UInt8) := [((), .ialloc 2, [])]

/-- A process makes an inode. -/
def smallCall (s : FsSys Unit) : Option (FsSys Unit) :=
  (okOf (s.step Fs.smallSb (.beginOp ()))).bind fun s =>
  (okOf (s.step Fs.smallSb (.call () (.ialloc 2)))).bind fun w =>
  (nexts Fs.smallSb () 40 w).bind fun u => if u.Idle () then some u else none

/-- It ends its operation, and goes `n` steps into the commit. -/
def smallCommit (n : Nat) (u : FsSys Unit) : Option (FsSys Unit) :=
  (okOf (u.step Fs.smallSb (.endOp ()))).bind fun w => if (w.th ()).op = .commit then nexts Fs.smallSb () n w else none

theorem smallCall_serial {s u : FsSys Unit} (h : smallCall s = some u) : Serial Fs.smallSb s [] smallCalls u := by
  unfold smallCall at h
  obtain ⟨s, hs, h⟩ := Option.bind_eq_some_iff.1 h
  obtain ⟨w, hw, h⟩ := Option.bind_eq_some_iff.1 h
  obtain ⟨u', hu, h⟩ := Option.bind_eq_some_iff.1 h
  split at h
  · cases h
    exact Serial.call (.beginOp .nil (okOf_eq hs)) (show (2 : UInt16) ≠ 0 by decide) (okOf_eq hw)
      (.of_steps (.of_nexts hu) ‹_›)
  · cases h

theorem smallCommit_steps {n : Nat} {s u : FsSys Unit} (h : smallCommit n s = some u) :
    ∃ w, s.step Fs.smallSb (.endOp ()) = some (.ok w) ∧ (w.th ()).op = .commit ∧ Steps Fs.smallSb () w u := by
  unfold smallCommit at h
  obtain ⟨w, hw, h⟩ := Option.bind_eq_some_iff.1 h
  split at h
  · exact ⟨w, okOf_eq hw, ‹_›, .of_nexts h⟩
  · cases h

theorem serial_refines_small : ∃ s : FsSys Unit, Serial Fs.smallSb smallFs smallCalls [] s ∧
    Fs.Good Fs.smallLayout s.view ∧ Fs.Good Fs.smallLayout s.io.disk ∧
      Fs.FileStore.CallRun Fs.smallSb.ninodes.toNat (Fs.files Fs.smallSb smallFs.io.disk) smallCalls (Fs.files Fs.smallSb s.io.disk) ∧
      Fs.FileStore.CallRun (P := Unit) Fs.smallSb.ninodes.toNat (Fs.files Fs.smallSb s.io.disk) [] (Fs.files Fs.smallSb s.view) := by
  have hrun : (((smallCall smallFs).bind (smallCommit 200)).bind fun y => okOf (y.step Fs.smallSb (.finish ()))).isSome = true := by decide +kernel
  obtain ⟨x, hx⟩ := Option.isSome_iff_exists.1 hrun
  obtain ⟨y, hy, hf⟩ := Option.bind_eq_some_iff.1 hx
  obtain ⟨u, hu, hc⟩ := Option.bind_eq_some_iff.1 hy
  obtain ⟨w, hs, ho, hr⟩ := smallCommit_steps hc
  have hserial := Serial.commit (smallCall_serial hu) hs ho hr (okOf_eq hf)
  exact ⟨x, hserial, serial_refines smallFs_boot hserial⟩

end FsSys

end Xv6
