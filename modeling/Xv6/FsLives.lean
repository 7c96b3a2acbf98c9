import Xv6.FsBoot
import Xv6.FsSerial

/-!
# Crashes and boots

The computer boots, processes call the file system, the computer crashes, and so on.  A crash may come between two calls, in a call, in a
commit, or in the recovery that follows a crash.  The next boot that completes finds the files as the calls of all the lives have left
them, without those since the last commit of a life, all or none of them (`crashes_keep_files`).  As in `Serial`, the copies from user
memory are `CopySafe`.
-/

namespace Xv6

namespace FsSys

variable {P : Type} [DecidableEq P] [Fintype P] {s u : FsSys P} {sb : Superblock} {L : sb.Layout} {d d' : Disk}

/-- A list of calls with the bytes that they read. -/
abbrev Calls (P : Type) := List (P × FsCall × List UInt8)

/-- Lives of the file system from the disk `d₀` on, with the calls of each before and after its last commit; `d` is the disk that the
last crash leaves. -/
inductive Lives (sb : Superblock) (start : UInt32) (nlog : Int) (d₀ : Disk) : List (Calls P × Calls P) → Disk → Prop
  | none : Lives sb start nlog d₀ [] d₀
  | crash {lives : List (Calls P × Calls P)} {d d' : Disk} {r : Store} {done new : Calls P} {s u : FsSys P}
      (h : Lives sb start nlog d₀ lives d) (hr : Recovering ROOTDEV start nlog d d')
      (hi : initlog ROOTDEV start nlog (binit log0 d') = .ok () r) (hs : Serial sb (boot r) done new s) (hd : During sb s u) :
      Lives sb start nlog d₀ (lives ++ [(done, new)]) u.io.disk

/-- Of each life the calls before its last commit remain, and those after it may. -/
inductive Remain : List (Calls P × Calls P) → Calls P → Prop
  | nil : Remain [] []
  | done {lives : List (Calls P × Calls P)} {evs : Calls P} (h : Remain lives evs) (done new : Calls P) :
      Remain (lives ++ [(done, new)]) (evs ++ done)
  | all {lives : List (Calls P × Calls P)} {evs : Calls P} (h : Remain lives evs) (done new : Calls P) :
      Remain (lives ++ [(done, new)]) (evs ++ (done ++ new))

/-- A boot completes with the files `S`, however often it is cut before. -/
def Boots (L : sb.Layout) (start : UInt32) (nlog : Int) (d : Disk) (S : Fs.FileStore) : Prop :=
  ∀ d', Recovering ROOTDEV start nlog d d' → ∃ r, initlog ROOTDEV start nlog (binit log0 d') = .ok () r ∧
    headerCount (r.disk start) = 0 ∧ Fs.Good L r.disk ∧ Fs.files sb r.disk = S

/-- A boot with an empty header. -/
theorem boots_empty {start : UInt32} {nlog : Int} (hsize : 1 ≤ nlog) (hregion : (start.toNat : Int) + nlog ≤ sb.inodestart.toNat)
    {v : UInt32 → Block} (h : headerCount (d start) = 0) (ha : Agree sb d v) (hg : Fs.Good L v) : Boots L start nlog d (Fs.files sb v) := by
  intro d' hr
  obtain ⟨r, hok, h0, hsame⟩ := recover_empty (s := { binit log0 d with log := { log0 with start := start, size := nlog, dev := ROOTDEV } })
    (show ROOTDEV ≠ 0 by decide) h hr
  have hagree : Agree sb r.disk v := by
    intro b hb
    rw [hsame b ?_]
    · exact ha b hb
    · intro hbs
      have hb' : b = start := hbs
      rw [hb'] at hb
      omega
  obtain ⟨hgood, hfiles⟩ := hg.congr hagree
  exact ⟨r, hok, h0, hgood, hfiles⟩

/-- The boot after a crash in a run. -/
theorem Rest.boots (h : s.Rest L) (hd : During sb s u) : Boots L s.io.log.start s.io.log.size u.io.disk (Fs.files sb s.io.disk) ∨
    Boots L s.io.log.start s.io.log.size u.io.disk (Fs.files sb s.view) := by
  have hsize : 1 ≤ s.io.log.size := by
    have := h.logged.lt
    omega
  rcases h.during hd with ho | ⟨hready, hn⟩
  · exact .inl (boots_empty hsize h.region ho.empty (h.agree_old ho) h.goodDisk)
  · right
    intro d' hr
    rw [← h.dev] at hr ⊢
    obtain ⟨r, hok, hdone⟩ := recover_new hready hn hr
    obtain ⟨hgood, hfiles⟩ := h.good.congr (h.agree_done hdone)
    exact ⟨r, hok, hdone.empty, hgood, hfiles⟩

omit [DecidableEq P] [Fintype P] in
/-- The system that a boot leaves. -/
theorem boot_boot {start : UInt32} {nlog : Int} {r : Store} (hsize : 1 ≤ nlog)
    (hregion : (start.toNat : Int) + nlog ≤ sb.inodestart.toNat) (hi : initlog ROOTDEV start nlog (binit log0 d) = .ok () r)
    (h0 : headerCount (r.disk start) = 0) (hg : Fs.Good L r.disk) : (boot r : FsSys P).Boot L := by
  have ht := initlog_tidy hi
  have hlog : r.log = { log0 with start := start, size := nlog, dev := ROOTDEV } := ht.log
  refine ⟨initlog_init hi, ht.devs, ?_, ?_, ?_, ?_, hg⟩
  · show r.log.dev = _
    rw [hlog]
  · show 1 ≤ r.log.size
    rw [hlog]
    exact hsize
  · show (r.log.start.toNat : Int) + r.log.size ≤ _
    rw [hlog]
    exact hregion
  · show headerCount (r.disk r.log.start) = 0
    rw [hlog]
    exact h0

theorem Lives.boots {start : UInt32} {nlog : Int} {d₀ : Disk} {lives : List (Calls P × Calls P)} (hsize : 1 ≤ nlog)
    (hregion : (start.toNat : Int) + nlog ≤ sb.inodestart.toNat) (h0 : headerCount (d₀ start) = 0) (hg : Fs.Good L d₀)
    (h : Lives sb start nlog d₀ lives d) :
    ∃ evs S, Remain lives evs ∧ Fs.FileStore.CallRun sb.ninodes.toNat (Fs.files sb d₀) evs S ∧ Boots L start nlog d S := by
  induction h with
  | none => exact ⟨_, _, .nil, .nil, boots_empty hsize hregion h0 (fun b _ => by rfl) hg⟩
  | @crash lives d d' r done new s u _ hr hi hs hd ih =>
    obtain ⟨evs, S, hrem, hrun, hboots⟩ := ih
    obtain ⟨r', hok, hr0, hrg, hfiles⟩ := hboots d' hr
    rw [hi] at hok
    cases hok
    have hserved := hs.served (boot_boot hsize hregion hi hr0 hrg)
    have ht := initlog_tidy hi
    have hstart : s.io.log.start = start := by
      rw [hserved.start]
      show r.log.start = start
      rw [ht.log]
    have hnlog : s.io.log.size = nlog := by
      rw [hserved.size]
      show r.log.size = nlog
      rw [ht.log]
    have hdone := hserved.done
    rw [show Fs.files sb (boot r : FsSys P).io.disk = S from hfiles] at hdone
    have hb := hserved.rest.boots hd
    rw [hstart, hnlog] at hb
    rcases hb with hb | hb
    · exact ⟨_, _, hrem.done done new, hrun.append hdone, hb⟩
    · exact ⟨_, _, hrem.all done new, hrun.append (hdone.append hserved.new), hb⟩

/-- Whatever crashes there have been, the next boot that completes finds a good disk, with the files as the calls have left them that
remain of each life, if the copies from user memory have been `CopySafe`. -/
theorem crashes_keep_files {start : UInt32} {nlog : Int} {d₀ : Disk} {lives : List (Calls P × Calls P)} (hsize : 1 ≤ nlog)
    (hregion : (start.toNat : Int) + nlog ≤ sb.inodestart.toNat) (h0 : headerCount (d₀ start) = 0) (hg : Fs.Good L d₀)
    (h : Lives sb start nlog d₀ lives d) (hr : Recovering ROOTDEV start nlog d d') :
    ∃ r evs, initlog ROOTDEV start nlog (binit log0 d') = .ok () r ∧ Remain lives evs ∧ Fs.Good L r.disk ∧
      Fs.FileStore.CallRun sb.ninodes.toNat (Fs.files sb d₀) evs (Fs.files sb r.disk) := by
  obtain ⟨evs, S, hrem, hrun, hboots⟩ := h.boots hsize hregion h0 hg
  obtain ⟨r, hok, -, hgood, rfl⟩ := hboots d' hr
  exact ⟨r, evs, hok, hrem, hgood, hrun⟩

/-- The cache after the boot from the small disk. -/
def smallBoot : Option Store :=
  match initlog ROOTDEV 2 31 (binit log0 Fs.smallDisk) with
  | .ok _ r => some r
  | .error .. => none

theorem smallBoot_initlog {r : Store} (h : smallBoot = some r) : initlog ROOTDEV 2 31 (binit log0 Fs.smallDisk) = .ok () r := by
  unfold smallBoot at h
  split at h
  · cases h
    assumption
  · cases h

/-- A crash after the header of a commit has been written. -/
theorem crashes_keep_files_small : ∃ (d : Disk) (r : Store) (evs : Calls Unit), headerCount (d 2) = 1 ∧
    Lives Fs.smallSb 2 31 Fs.smallDisk [([], smallCalls)] d ∧
    initlog ROOTDEV 2 31 (binit log0 d) = .ok () r ∧ Remain [([], smallCalls)] evs ∧ Fs.Good Fs.smallLayout r.disk ∧
      Fs.FileStore.CallRun Fs.smallSb.ninodes.toNat (Fs.files Fs.smallSb Fs.smallDisk) evs (Fs.files Fs.smallSb r.disk) := by
  have hrun : (smallBoot.bind fun r => ((smallCall (boot r)).bind (smallCommit 30)).map fun u => headerCount (u.io.disk 2)) =
      some 1 := by decide +kernel
  obtain ⟨r, hboot, h⟩ := Option.bind_eq_some_iff.1 hrun
  obtain ⟨u, h, h1⟩ := Option.map_eq_some_iff.1 h
  obtain ⟨s, hs, hc⟩ := Option.bind_eq_some_iff.1 h
  obtain ⟨w, he, ho, hst⟩ := smallCommit_steps hc
  have hlives : Lives Fs.smallSb 2 31 Fs.smallDisk [([], smallCalls)] u.io.disk :=
    .crash .none (.none _) (smallBoot_initlog hboot) (smallCall_serial hs) (.commit he ho hst)
  obtain ⟨r', evs, hok, hrem, hg, hcalls⟩ := crashes_keep_files (L := Fs.smallLayout) (by decide) (by decide) (by decide +kernel)
    Fs.smallDisk_good hlives (.none _)
  exact ⟨u.io.disk, r', evs, h1, hlives, hok, hrem, hg, hcalls⟩

end FsSys

end Xv6
