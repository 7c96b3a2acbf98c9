import Xv6.LogSpec

/-!
# Crash atomicity of the log

A crash keeps a prefix of the writes of `commit`.  A disk during recovery is *old* (the header is empty and no home
block has changed), *new* (the header and the log blocks are those of the transaction) or *done* (the header is empty
and the home blocks are the cached ones); recovery, cut or not, never leads from one side of the first header write to
the other.
-/

namespace Xv6

open Store

/-! ### Recovery -/

private theorem release_with_log (s : Store) (lg : Log) (i : Fin NBUF) :
    ({ s with log := lg } : Store).release i = { s.release i with log := lg } := by
  by_cases h : (s.buf i).refcnt - 1 = 0
  · simp [release, setBuf, h]
  · simp [release, setBuf, h]

private theorem readHead_spec {s : Store} (hs : s.Wf) (hd : s.log.dev ≠ 0) (hc : s.Coherent s.log.dev s.log.start)
    (hq : s.Quiet) :
    wp readHead (fun _ t => ∃ u, s.Wrote u s.log.dev [] ∧
        t = { u with log := { s.log with lh := header (s.disk s.log.start) } }) (fun _ _ => False) s := by
  simp only [readHead, wp_bind, wp_get, brelse, wp_modify]
  refine wp_mono (bread_spec hs.lru _ _) ?_ (fun _ t h => h.2.2 ⟨0, by decide⟩ (hq _))
  rintro i _ ⟨v, hi, rfl⟩
  obtain rfl := hi.eq_disk hc
  refine ⟨(s.setBuf i ⟨true, s.log.dev, s.log.start, (s.buf i).refcnt + 1, s.disk s.log.start⟩).release i,
    .read hs hd hi ?_ ?_ ?_ ?_ ?_, ?_⟩
  · simp [release_buf, setBuf]
  · exact mem_release_lru (by exact hs.lru) _
  · simp
  · simp
  · simp
  · rw [← release_with_log]
    simp [setBuf]

/-- Recovery on a quiet, coherent cache installs the entries of the header and then clears it. -/
theorem recoverFromLog_spec {s : Store} {v : UInt32 → Block} (hs : s.Wf) (hd : s.log.dev ≠ 0)
    (hc : ∀ c, s.Coherent s.log.dev c) (hq : s.Quiet) (hnd : (header (s.disk s.log.start)).Nodup)
    (hne : ∀ k < (header (s.disk s.log.start)).length, s.log.slot k ∉ header (s.disk s.log.start))
    (hv : ∀ k b, (header (s.disk s.log.start))[k]? = some b → s.disk (s.log.slot k) = v b) :
    wp recoverFromLog (fun _ t => ∃ y,
        t.writes = s.writes ++ (homeWrites v (header (s.disk s.log.start)) ++ [(s.log.start, putHeader y [])]) ∧
        t.disk = applyWrites s.disk (homeWrites v (header (s.disk s.log.start)) ++ [(s.log.start, putHeader y [])]))
      (fun _ _ => False) s := by
  simp only [recoverFromLog, wp_bind, wp_get, installTrans, clearHeader, wp_modify]
  refine wp_mono (readHead_spec hs hd (hc _) hq) ?_ (fun _ _ => id)
  rintro _ _ ⟨u, hu, rfl⟩
  let lg : Log := { s.log with lh := header (s.disk s.log.start) }
  let t₁ : Store := { u with log := lg }
  have hinst : wp (installFrom lg true 0 lg.lh) (fun _ t => t₁.Wrote t lg.dev (homeWrites v lg.lh))
      (fun _ t => t₁.CutIn t (homeWrites v lg.lh) ∧ ¬ t₁.Quiet ∧
        ((∀ b ∈ lg.lh, ∃ w, t₁.Pinned lg.dev b w) → ¬ t₁.HasFree)) t₁ := by
    refine installFrom_spec true ⟨hu.wf.lru, hu.wf.key⟩ hd hnd (fun k hk => ?_) (fun k b hk => ?_)
    · rw [Nat.zero_add]
      exact hne k hk
    · rw [Nat.zero_add]
      have hd₁ : t₁.disk = s.disk := hu.disk
      exact ⟨hu.coherent _ (.inl (hc _)), by rw [hd₁]; exact hv k b hk⟩
  refine wp_mono hinst (fun _ t₂ h₂ => ?_) (fun _ _ h => h.2.1 (hu.quiet hq))
  have hfree : t₂.HasFree := ⟨⟨0, by decide⟩, h₂.quiet (hu.quiet hq) _⟩
  refine wp_mono (writeHead_spec (s := { t₂ with log := { t₂.log with lh := [] } }) ⟨h₂.wf.lru, h₂.wf.key⟩
    (by rw [h₂.log]; exact hd)) ?_ (fun _ _ h => h.2 hfree)
  rintro _ t₃ ⟨y, h₃⟩
  refine ⟨y, ?_, ?_⟩
  · rw [h₃.writes, h₂.writes, h₂.log]
    simp [t₁, lg, hu.writes]
  · rw [h₃.disk, h₂.disk, h₂.log]
    simp [t₁, lg, hu.disk]

/-- The static `struct log` before `initlog`. -/
def log0 : Log := { start := 0, size := 0, outstanding := 0, committing := false, dev := 0, lh := [] }

/-- The block writes that `m` performs from `s` on, until it returns or panics. -/
def writesOf (m : Io Unit) (s : Store) : List (UInt32 × Block) :=
  match m { s with writes := [] } with
  | .ok _ t | .error _ t => t.writes

/-- `Recovering dev start nlog d d'`: boots whose recovery is cut after some of its writes lead from the disk `d` to
the disk `d'`. -/
inductive Recovering (dev start : UInt32) (nlog : Int) : Disk → Disk → Prop
  | none (d : Disk) : Recovering dev start nlog d d
  | cut {d d' : Disk} {ws : List (UInt32 × Block)} (hws : ws <+: writesOf (initlog dev start nlog) (binit log0 d))
      (h : Recovering dev start nlog (applyWrites d ws) d') : Recovering dev start nlog d d'

private theorem not_caches_binit (lg : Log) (d : Disk) {dev : UInt32} (hd : dev ≠ 0) (b : UInt32) (i : Fin NBUF) :
    ¬ (binit lg d).Caches dev b i :=
  fun h => hd h.1.symm

/-- A boot with a disk whose log is well formed completes its recovery. -/
theorem initlog_completes {lg : Log} {d : Disk} (v : UInt32 → Block) (hd : lg.dev ≠ 0)
    (hnd : (header (d lg.start)).Nodup)
    (hne : ∀ k < (header (d lg.start)).length, lg.slot k ∉ header (d lg.start))
    (hv : ∀ k b, (header (d lg.start))[k]? = some b → d (lg.slot k) = v b) :
    ∃ t y, initlog lg.dev lg.start lg.size (binit log0 d) = .ok () t ∧
      writesOf (initlog lg.dev lg.start lg.size) (binit log0 d) =
        homeWrites v (header (d lg.start)) ++ [(lg.start, putHeader y [])] ∧
      t.disk = applyWrites d (homeWrites v (header (d lg.start)) ++ [(lg.start, putHeader y [])]) := by
  let s : Store := binit { log0 with start := lg.start, size := lg.size, dev := lg.dev } d
  have hwf : s.Wf :=
    ⟨by simp [s, binit], fun hd' hi => absurd hi (not_caches_binit _ d hd' _ _)⟩
  have hco : ∀ c, s.Coherent lg.dev c := fun c i hi => absurd hi (not_caches_binit _ d hd _ _)
  have hw : wp (initlog lg.dev lg.start lg.size) (fun _ t => ∃ y,
      t.writes = homeWrites v (header (d lg.start)) ++ [(lg.start, putHeader y [])] ∧
      t.disk = applyWrites d (homeWrites v (header (d lg.start)) ++ [(lg.start, putHeader y [])]))
      (fun _ _ => False) (binit log0 d) := by
    simp only [initlog, wp_bind, wp_ite, wp_modify]
    rw [if_neg (by decide)]
    exact recoverFromLog_spec hwf hd hco (fun _ => rfl) hnd hne hv
  have hwrites : writesOf (initlog lg.dev lg.start lg.size) (binit log0 d) =
      match initlog lg.dev lg.start lg.size (binit log0 d) with
      | .ok _ t | .error _ t => t.writes := rfl
  unfold wp at hw
  cases hc : initlog lg.dev lg.start lg.size (binit log0 d) with
  | ok a t =>
    rw [hc] at hw hwrites
    obtain ⟨y, htw, htd⟩ := hw
    exact ⟨t, y, rfl, hwrites.trans htw, htd⟩
  | error e t =>
    rw [hc] at hw
    exact hw.elim

/-! ### Crashes -/

section

variable {s : Store} {v : UInt32 → Block} {d : Disk}

/-- The transaction of `s` has not reached its commit point on `d`. -/
structure Store.OldDisk (s : Store) (d : Disk) : Prop where
  empty : headerCount (d s.log.start) = 0
  home : ∀ b, ¬ s.log.Region b → d b = s.disk b

/-- The transaction is committed on `d` and may be installed in part. -/
structure Store.NewDisk (s : Store) (v : UInt32 → Block) (d : Disk) : Prop where
  header : header (d s.log.start) = s.log.lh
  entry : ∀ k b, s.log.lh[k]? = some b → d (s.log.slot k) = v b
  home : ∀ b, ¬ s.log.Region b → b ∉ s.log.lh → d b = s.disk b

/-- The transaction is installed on `d` and the header is cleared. -/
structure Store.DoneDisk (s : Store) (v : UInt32 → Block) (d : Disk) : Prop where
  empty : headerCount (d s.log.start) = 0
  installed : ∀ b ∈ s.log.lh, d b = v b
  home : ∀ b, ¬ s.log.Region b → b ∉ s.log.lh → d b = s.disk b

theorem header_eq_nil {b : Block} (h : headerCount b = 0) : header b = [] := by simp [header, h]

theorem Store.Ready.region_start (h : s.Ready v) : s.log.Region s.log.start := by
  have := h.lt
  exact Log.region_start (by omega)

theorem Store.Ready.region_slot (h : s.Ready v) {k : Nat} (hk : k < s.log.lh.length) :
    s.log.Region (s.log.slot k) := by
  have := h.lt
  exact Log.region_slot (by omega)

theorem Store.Ready.notMem_homeWrites (h : s.Ready v) {c : UInt32} (hc : s.log.Region c) :
    ∀ w ∈ homeWrites v s.log.lh, w.1 ≠ c := by
  intro w hw hwc
  obtain ⟨b, hb, rfl⟩ := List.mem_map.1 hw
  subst hwc
  exact h.home b hb hc

theorem headerCount_clear (d : Disk) (start : UInt32) (y : Block) :
    headerCount (applyWrites d [(start, putHeader y [])] start) = 0 := by
  rw [applyWrites_cons, applyWrites_nil, Function.update_self]
  exact headerCount_putHeader y (Nat.zero_le LOGSIZE)

theorem Store.NewDisk.install (h : s.Ready v) (hn : s.NewDisk v d) {ws : List (UInt32 × Block)}
    (hws : ws <+: homeWrites v s.log.lh) : s.NewDisk v (applyWrites d ws) := by
  have hmem : ∀ w ∈ ws, w ∈ homeWrites v s.log.lh := fun w hw => hws.subset hw
  refine ⟨?_, fun k b hk => ?_, fun b hr hb => ?_⟩
  · rw [applyWrites_of_notMem fun w hw => h.notMem_homeWrites h.region_start w (hmem w hw)]
    exact hn.header
  · have hkl := (List.getElem?_eq_some_iff.1 hk).1
    rw [applyWrites_of_notMem fun w hw => h.notMem_homeWrites (h.region_slot hkl) w (hmem w hw)]
    exact hn.entry k b hk
  · rw [applyWrites_of_notMem, hn.home b hr hb]
    rintro w hw rfl
    obtain ⟨c, hc, rfl⟩ := List.mem_map.1 (hmem w hw)
    exact hb hc

theorem Store.NewDisk.finish (h : s.Ready v) (hn : s.NewDisk v d) (y : Block) :
    s.DoneDisk v (applyWrites d (homeWrites v s.log.lh ++ [(s.log.start, putHeader y [])])) := by
  refine ⟨?_, fun b hb => ?_, fun b hr hb => ?_⟩
  · rw [applyWrites_append]
    exact headerCount_clear _ _ _
  · rw [applyWrites_append, applyWrites_cons, applyWrites_nil, Function.update_of_ne (h.start_ne hb).symm]
    refine applyWrites_of_mem (fun w hw hwb => ?_) ⟨_, List.mem_map.2 ⟨b, hb, rfl⟩, rfl⟩ _
    obtain ⟨c, hc, rfl⟩ := List.mem_map.1 hw
    exact congrArg v hwb
  · rw [applyWrites_of_notMem, hn.home b hr hb]
    rintro w hw rfl
    rcases List.mem_append.1 hw with hw | hw
    · obtain ⟨c, hc, rfl⟩ := List.mem_map.1 hw
      exact hb hc
    · obtain rfl := List.mem_singleton.1 hw
      exact hr h.region_start

/-- Installing part of a committed transaction leaves it committed; installing all of it and clearing the header
finishes it. -/
theorem Store.NewDisk.cut (h : s.Ready v) (hn : s.NewDisk v d) {y : Block} {ws : List (UInt32 × Block)}
    (hws : ws <+: homeWrites v s.log.lh ++ [(s.log.start, putHeader y [])]) :
    s.NewDisk v (applyWrites d ws) ∨ s.DoneDisk v (applyWrites d ws) := by
  rcases List.prefix_concat_iff.1 hws with rfl | hws
  · exact .inr (hn.finish h y)
  · exact .inl (hn.install h hws)

theorem Store.OldDisk.clear (h : s.Ready v) (ho : s.OldDisk d) (y : Block) :
    s.OldDisk (applyWrites d [(s.log.start, putHeader y [])]) := by
  refine ⟨headerCount_clear _ _ _, fun b hr => ?_⟩
  rw [applyWrites_of_notMem, ho.home b hr]
  rintro w hw rfl
  obtain rfl := List.mem_singleton.1 hw
  exact hr h.region_start

theorem Store.DoneDisk.clear (h : s.Ready v) (hn : s.DoneDisk v d) (y : Block) :
    s.DoneDisk v (applyWrites d [(s.log.start, putHeader y [])]) := by
  refine ⟨headerCount_clear _ _ _, fun b hb => ?_, fun b hr hb => ?_⟩
  · rw [applyWrites_cons, applyWrites_nil, Function.update_of_ne (h.start_ne hb).symm]
    exact hn.installed b hb
  · rw [applyWrites_of_notMem, hn.home b hr hb]
    rintro w hw rfl
    obtain rfl := List.mem_singleton.1 hw
    exact hr h.region_start

/-- Recovery of an empty header only rewrites the header block. -/
theorem initlog_empty (hd : s.log.dev ≠ 0) (h : headerCount (d s.log.start) = 0) :
    ∃ t y, initlog s.log.dev s.log.start s.log.size (binit log0 d) = .ok () t ∧
      writesOf (initlog s.log.dev s.log.start s.log.size) (binit log0 d) = [(s.log.start, putHeader y [])] ∧
      t.disk = applyWrites d [(s.log.start, putHeader y [])] := by
  have hnil := header_eq_nil h
  have := initlog_completes (d := d) (fun _ _ => 0) hd (by simp [hnil]) (by simp [hnil]) (by simp [hnil])
  simpa [hnil, homeWrites] using this

/-- Recovery of a committed transaction installs it. -/
theorem initlog_new (h : s.Ready v) (hn : s.NewDisk v d) :
    ∃ t y, initlog s.log.dev s.log.start s.log.size (binit log0 d) = .ok () t ∧
      writesOf (initlog s.log.dev s.log.start s.log.size) (binit log0 d) =
        homeWrites v s.log.lh ++ [(s.log.start, putHeader y [])] ∧
      t.disk = applyWrites d (homeWrites v s.log.lh ++ [(s.log.start, putHeader y [])]) := by
  have := initlog_completes (d := d) v h.dev (by rw [hn.header]; exact h.nodup)
    (by rw [hn.header]; exact fun k hk hm => h.slot_ne hk hm rfl) (by rw [hn.header]; exact hn.entry)
  rwa [hn.header] at this

/-- However often recovery is cut, it stays on its side of the commit point. -/
theorem Recovering.old (h : s.Ready v) {d' : Disk} (ho : s.OldDisk d)
    (hr : Recovering s.log.dev s.log.start s.log.size d d') : s.OldDisk d' := by
  induction hr with
  | none d => exact ho
  | @cut d d' ws hws _ ih =>
    apply ih
    obtain ⟨t, y, -, hw, -⟩ := initlog_empty h.dev ho.empty
    rw [hw] at hws
    rcases List.prefix_concat_iff.1 (show ws <+: [] ++ [_] from hws) with rfl | hws
    · exact ho.clear h y
    · obtain rfl := List.prefix_nil.1 hws
      exact ho

theorem Recovering.new (h : s.Ready v) {d' : Disk} (hn : s.NewDisk v d ∨ s.DoneDisk v d)
    (hr : Recovering s.log.dev s.log.start s.log.size d d') : s.NewDisk v d' ∨ s.DoneDisk v d' := by
  induction hr with
  | none d => exact hn
  | @cut d d' ws hws _ ih =>
    apply ih
    rcases hn with hn | hn
    · obtain ⟨t, y, -, hw, -⟩ := initlog_new h hn
      rw [hw] at hws
      exact hn.cut h hws
    · obtain ⟨t, y, -, hw, -⟩ := initlog_empty h.dev hn.empty
      rw [hw] at hws
      rcases List.prefix_concat_iff.1 (show ws <+: [] ++ [_] from hws) with rfl | hws
      · exact .inr (hn.clear h y)
      · obtain rfl := List.prefix_nil.1 hws
        exact .inr hn

/-- The disk after a cut of the commit: the first header write decides. -/
theorem commit_cut (h : s.Ready v) {x y : Block} {ws : List (UInt32 × Block)}
    (hws : ws <+: commitWrites s.log v x y) :
    ((∀ w ∈ ws, w.1 ≠ s.log.start) ∧ s.OldDisk (applyWrites s.disk ws)) ∨
      ((∃ w ∈ ws, w.1 = s.log.start) ∧
        (s.NewDisk v (applyWrites s.disk ws) ∨ s.DoneDisk v (applyWrites s.disk ws))) := by
  have hle := h.le
  have hlog : ∀ w ∈ logWrites s.log v 0 s.log.lh, s.log.Region w.1 ∧ w.1 ≠ s.log.start := by
    intro w hw
    obtain ⟨k, b, hk, rfl⟩ := mem_logWrites.1 hw
    have hkl := (List.getElem?_eq_some_iff.1 hk).1
    rw [Nat.zero_add]
    exact ⟨h.region_slot hkl, Log.slot_ne_start (by omega)⟩
  have before : ∀ ws, ws <+: logWrites s.log v 0 s.log.lh →
      (∀ w ∈ ws, w.1 ≠ s.log.start) ∧ s.OldDisk (applyWrites s.disk ws) := by
    intro ws hws
    have hne : ∀ w ∈ ws, w.1 ≠ s.log.start := fun w hw => (hlog w (hws.subset hw)).2
    refine ⟨hne, ?_, fun b hr => ?_⟩
    · rw [applyWrites_of_notMem hne]
      exact h.empty
    · rw [applyWrites_of_notMem]
      rintro w hw rfl
      exact hr (hlog w (hws.subset hw)).1
  rcases prefix_append_cases hws with hws | ⟨vs, rfl, hvs⟩
  · exact .inl (before ws hws)
  rcases List.prefix_cons_iff.1 hvs with rfl | ⟨us, rfl, hus⟩
  · rw [List.append_nil]
    exact .inl (before _ List.prefix_rfl)
  -- the header has been written
  right
  refine ⟨⟨_, List.mem_append_right _ List.mem_cons_self, rfl⟩, ?_⟩
  have hn : s.NewDisk v (applyWrites s.disk (logWrites s.log v 0 s.log.lh ++ [(s.log.start, putHeader x s.log.lh)])) := by
    refine ⟨?_, fun k b hk => ?_, fun b hr hb => ?_⟩
    · simp [header_putHeader x h.le]
    · have hkl := (List.getElem?_eq_some_iff.1 hk).1
      rw [applyWrites_append, applyWrites_cons, applyWrites_nil,
        Function.update_of_ne (Log.slot_ne_start (by omega)), applyWrites_logWrites h.le hk]
    · rw [applyWrites_of_notMem]
      rintro w hw rfl
      rcases List.mem_append.1 hw with hw | hw
      · exact hr (hlog w hw).1
      · obtain rfl := List.mem_singleton.1 hw
        exact hr h.region_start
  simpa using hn.cut h hus

/-- The writes of `commit`, complete or up to the panic for want of a buffer. -/
theorem writesOf_commit (h : s.Ready v) : ∃ x y, writesOf commit s <+: commitWrites s.log v x y := by
  have h₀ : ({ s with writes := [] } : Store).Ready v :=
    ⟨⟨h.wf.lru, h.wf.key⟩, h.dev, h.pos, h.le, h.lt, h.nodup, h.home, h.pinned, h.empty⟩
  have hw := commit_spec h₀
  unfold wp at hw
  unfold writesOf
  split at hw
  · rename_i t ht
    obtain ⟨x, y, hxy⟩ := hw
    rw [ht]
    exact ⟨x, y, by simp [hxy]⟩
  · rename_i t ht
    obtain ⟨⟨x, y, vs, hvs, hxy⟩, -⟩ := hw
    rw [ht]
    exact ⟨x, y, by simpa [hxy] using hvs⟩

/-- Cut the commit of a transaction after any prefix `ws` of its writes, then cut recovery any number of times: the
next boot that runs to its end leaves all blocks of the transaction new, if the first header write is among `ws`, and
all of them old otherwise. -/
theorem commit_crash_atomic (h : s.Ready v) {ws : List (UInt32 × Block)} (hws : ws <+: writesOf commit s)
    (hr : Recovering s.log.dev s.log.start s.log.size (applyWrites s.disk ws) d) :
    ∃ t, initlog s.log.dev s.log.start s.log.size (binit log0 d) = .ok () t ∧
      headerCount (t.disk s.log.start) = 0 ∧
      (∀ b, ¬ s.log.Region b → b ∉ s.log.lh → t.disk b = s.disk b) ∧
      ((∃ w ∈ ws, w.1 = s.log.start) → ∀ b ∈ s.log.lh, t.disk b = v b) ∧
      ((∀ w ∈ ws, w.1 ≠ s.log.start) → ∀ b ∈ s.log.lh, t.disk b = s.disk b) := by
  obtain ⟨x, y, hxy⟩ := writesOf_commit h
  rcases commit_cut h (hws.trans hxy) with ⟨hne, ho⟩ | ⟨⟨w, hw, hws⟩, hn⟩
  · have ho' := Recovering.old h ho hr
    obtain ⟨t, y, ht, -, hdisk⟩ := initlog_empty h.dev ho'.empty
    have hot := hdisk ▸ ho'.clear h y
    refine ⟨t, ht, hot.empty, fun b hr _ => hot.home b hr, ?_, fun _ b hb => hot.home b (h.home b hb)⟩
    rintro ⟨w, hw, hws⟩
    exact absurd hws (hne w hw)
  · have hdone : ∃ t, initlog s.log.dev s.log.start s.log.size (binit log0 d) = .ok () t ∧ s.DoneDisk v t.disk := by
      rcases Recovering.new h hn hr with hn' | hn'
      · obtain ⟨t, y, ht, -, hdisk⟩ := initlog_new h hn'
        exact ⟨t, ht, hdisk ▸ hn'.finish h y⟩
      · obtain ⟨t, y, ht, -, hdisk⟩ := initlog_empty h.dev hn'.empty
        exact ⟨t, ht, hdisk ▸ hn'.clear h y⟩
    obtain ⟨t, ht, hd⟩ := hdone
    exact ⟨t, ht, hd.empty, hd.home, fun _ => hd.installed, fun hne => absurd hws (hne w hw)⟩

end

/-- One block of a transaction, number 50 of device 1, cached in buffer 0 with sevens; the disk holds zeros. -/
def oneBlockStore : Store where
  buf i := if i = ⟨0, NBUF_pos⟩ then ⟨true, 1, 50, 1, fun _ => 7⟩ else ⟨false, 0, 0, 0, fun _ => 0⟩
  lru := List.finRange NBUF
  log := { log0 with start := 2, size := 30, dev := 1, lh := [50] }
  disk _ _ := 0
  writes := []

theorem oneBlockStore_ready : oneBlockStore.Ready fun _ _ => 7 where
  wf := by
    refine ⟨fun i => List.mem_finRange i, fun {dev b i j} hd hi hj => ?_⟩
    have first : ∀ {k}, oneBlockStore.Caches dev b k → k = ⟨0, by decide⟩ := by
      intro k hk
      by_contra hne
      exact hd (by simpa [Caches, oneBlockStore, hne] using hk.1.symm)
    rw [first hi, first hj]
  dev := by decide
  pos := by decide
  le := by decide
  lt := by decide
  nodup := by decide
  home := by
    rintro b hb ⟨k, hk, rfl⟩
    have hall : ∀ k < 30, (2 : UInt32) + .ofNat k ∉ [(50 : UInt32)] := by decide
    exact hall k (Int.ofNat_lt.1 hk) hb
  pinned := by
    intro b hb
    obtain rfl : b = 50 := by simpa [oneBlockStore] using hb
    exact ⟨⟨0, by decide⟩, ⟨rfl, rfl⟩, rfl, by decide, rfl⟩
  empty := by decide

/-- A commit of this transaction that runs to its end, then one cut recovery and one that completes. -/
theorem commit_crash_atomic_oneBlock :
    ∃ t, initlog 1 2 30 (binit log0 (applyWrites oneBlockStore.disk (writesOf commit oneBlockStore))) = .ok () t ∧
      headerCount (t.disk 2) = 0 ∧
      (∀ b, ¬ oneBlockStore.log.Region b → b ∉ [50] → t.disk b = fun _ => 0) ∧
      ((∃ w ∈ writesOf commit oneBlockStore, w.1 = 2) → ∀ b ∈ [50], t.disk b = fun _ => 7) ∧
      ((∀ w ∈ writesOf commit oneBlockStore, w.1 ≠ 2) → ∀ b ∈ [50], t.disk b = fun _ => 0) :=
  commit_crash_atomic oneBlockStore_ready (List.prefix_refl _) (.cut List.nil_prefix (.none _))

end Xv6
