import Mathlib.Data.List.GetD
import Xv6.ExecLoad

/-!
# The argument stack of `exec`

`pushArgs` puts the strings and the vector of their addresses into the one page of the stack.  A depth is what is used of the page from
its top.  The depths do not depend on where the stack is, and the strings fit if and only if the last depth is not more than a page.
-/

namespace Xv6

/-- The depth after `n` more bytes and the alignment of `sp`. -/
def depth (d n : Nat) : Nat := (d + n + 15) / 16 * 16

/-- The depths of the strings, from the depth `d` on. -/
def depths (d : Nat) : List (List UInt8) → List Nat
  | [] => []
  | arg :: argv => depth d (strlen arg + 1) :: depths (depth d (strlen arg + 1)) argv

/-- The depth of the vector of `argc` addresses and those of `argv`. -/
def vectorDepth (d : Nat) : List (List UInt8) → Nat → Nat
  | [], argc => depth d ((argc + 1) * 8)
  | arg :: argv, argc => vectorDepth (depth d (strlen arg + 1)) argv (argc + 1)

theorem depth_le (d n : Nat) : d + n ≤ depth d n ∧ depth d n % 16 = 0 ∧ depth d n < d + n + 16 := by
  unfold depth
  omega

theorem depth_le_of {sz d n : Nat} (hsz : sz % 16 = 0) (hle : d + n ≤ sz) : depth d n ≤ sz := by
  unfold depth
  omega

theorem depth_le_vectorDepth (d : Nat) (argv : List (List UInt8)) (argc : Nat) : d ≤ vectorDepth d argv argc := by
  induction argv generalizing d argc with
  | nil =>
    have := (depth_le d ((argc + 1) * 8)).1
    unfold vectorDepth
    omega
  | cons arg argv ih =>
    have := (depth_le d (strlen arg + 1)).1
    have := ih (depth d (strlen arg + 1)) (argc + 1)
    unfold vectorDepth
    omega

/-- A push from a depth to the next. -/
theorem pushSp_eq {sz d n : Nat} (hsz : sz % 16 = 0) (hlt : sz < 2 ^ 64) (hle : d + n ≤ sz) :
    Mem.pushSp (sz - d) n = sz - depth d n := by
  have hmod : (sz - d + 2 ^ 64 - n) % 2 ^ 64 = sz - d - n := by omega
  have := depth_le d n
  unfold Mem.pushSp
  dsimp only
  rw [hmod]
  unfold depth at this ⊢
  omega

/-- What the strings and the vector make of an image. -/
def stackImage (sz d : Nat) : List (List UInt8) → List Nat → Image → Image
  | [], ustack, img => img.write (sz - depth d ((ustack.length + 1) * 8)) ((ustack ++ [0]).flatMap wordBytes)
  | arg :: argv, ustack, img =>
    let d' := depth d (strlen arg + 1)
    stackImage sz d' argv (ustack ++ [sz - d']) (img.write (sz - d') (arg.take (strlen arg + 1)))

/-- No subtraction from `sp` in the loop of `pushArgs`, as far as it gets, is below zero. -/
def NoWrap (stackbase : Nat) : List (List UInt8) → Nat → Nat → Prop
  | [], argc, sp => (argc + 1) * 8 ≤ sp
  | arg :: argv, argc, sp => strlen arg + 1 ≤ sp ∧
    (stackbase ≤ Mem.pushSp sp (strlen arg + 1) → NoWrap stackbase argv (argc + 1) (Mem.pushSp sp (strlen arg + 1)))

@[simp] theorem length_wordBytes (v : Nat) : (wordBytes v).length = 8 := by simp [wordBytes]

theorem length_flatMap_wordBytes (vs : List Nat) : (vs.flatMap wordBytes).length = vs.length * 8 := by
  induction vs with
  | nil => rfl
  | cons v vs ih =>
    rw [List.flatMap_cons, List.length_append, ih, length_wordBytes, List.length_cons]
    omega

/-- The string at `arg` ends. -/
theorem length_take_strlen {arg : List UInt8} (h : 0 ∈ arg) : (arg.take (strlen arg + 1)).length = strlen arg + 1 := by
  rw [List.length_take]
  apply Nat.min_eq_left
  induction arg with
  | nil => cases h
  | cons b arg ih =>
    by_cases hb : b = 0
    · simp [strlen, hb]
    · have hmem : 0 ∈ arg := (List.mem_cons.1 h).resolve_left (Ne.symm hb)
      have hlen : strlen (b :: arg) = strlen arg + 1 := by simp [strlen, hb]
      have := ih hmem
      rw [hlen, List.length_cons]
      omega

/-! ### The depths grow -/

theorem depths_ge {d : Nat} {argv : List (List UInt8)} {i : Nat} {arg : List UInt8} (h : argv[i]? = some arg) :
    d + (strlen arg + 1) ≤ (depths d argv).getD i 0 := by
  induction argv generalizing d i with
  | nil => cases h
  | cons a argv ih =>
    have hdepth := depth_le d (strlen a + 1)
    cases i with
    | zero =>
      obtain rfl := Option.some.inj h
      exact hdepth.1
    | succ i =>
      have := ih (d := depth d (strlen a + 1)) h
      change _ ≤ (depths (depth d (strlen a + 1)) argv).getD i 0
      omega

/-- A string is below those before it. -/
theorem depths_apart {d : Nat} {argv : List (List UInt8)} {i j : Nat} (hij : i < j) {arg : List UInt8} (h : argv[j]? = some arg) :
    (depths d argv).getD i 0 + (strlen arg + 1) ≤ (depths d argv).getD j 0 := by
  induction argv generalizing d i j with
  | nil => cases h
  | cons a argv ih =>
    obtain ⟨j, rfl⟩ : ∃ k, j = k + 1 := ⟨j - 1, by omega⟩
    cases i with
    | zero => exact depths_ge h
    | succ i => exact ih (by omega) h

/-- The vector is below the strings. -/
theorem vectorDepth_ge {d : Nat} {argv : List (List UInt8)} (argc : Nat) :
    d + (argc + argv.length + 1) * 8 ≤ vectorDepth d argv argc ∧
      ∀ i < argv.length, (depths d argv).getD i 0 + (argc + argv.length + 1) * 8 ≤ vectorDepth d argv argc := by
  induction argv generalizing d argc with
  | nil => exact ⟨(depth_le d ((argc + 1) * 8)).1, fun i hi => absurd hi (Nat.not_lt_zero i)⟩
  | cons a argv ih =>
    have hdepth := depth_le d (strlen a + 1)
    obtain ⟨hself, hrest⟩ := ih (d := depth d (strlen a + 1)) (argc + 1)
    have hcount : argc + 1 + argv.length = argc + (a :: argv).length := by
      rw [List.length_cons]
      omega
    rw [hcount] at hself hrest
    simp only [vectorDepth]
    refine ⟨by omega, fun i hi => ?_⟩
    cases i with
    | zero => exact hself
    | succ i => exact hrest i (Nat.lt_of_succ_lt_succ hi)

theorem vectorDepth_mod (d : Nat) (argv : List (List UInt8)) (argc : Nat) : vectorDepth d argv argc % 16 = 0 := by
  induction argv generalizing d argc with
  | nil => exact (depth_le d ((argc + 1) * 8)).2.1
  | cons a argv ih => exact ih ..

@[simp] theorem length_depths (d : Nat) (argv : List (List UInt8)) : (depths d argv).length = argv.length := by
  induction argv generalizing d with
  | nil => rfl
  | cons a argv ih => rw [depths, List.length_cons, List.length_cons, ih]

/-! ### What the stack has -/

section Stack

variable {sz d : Nat} {argv : List (List UInt8)} {ustack : List Nat} {img : Image}

/-- What is above the depth stays. -/
theorem stackImage_above (hvec : vectorDepth d argv ustack.length ≤ sz) (hnull : ∀ arg ∈ argv, 0 ∈ arg) {a : Nat} (ha : sz - d ≤ a) :
    stackImage sz d argv ustack img a = img a := by
  induction argv generalizing d ustack img with
  | nil =>
    have hdepth := depth_le d ((ustack.length + 1) * 8)
    unfold vectorDepth at hvec
    unfold stackImage
    rw [Image.write, if_neg]
    rw [length_flatMap_wordBytes, List.length_append, List.length_singleton]
    omega
  | cons arg argv ih =>
    have hdepth := depth_le d (strlen arg + 1)
    have hlast := depth_le_vectorDepth (depth d (strlen arg + 1)) argv (ustack.length + 1)
    unfold vectorDepth at hvec
    unfold stackImage
    dsimp only
    rw [ih (by rwa [List.length_append, List.length_singleton]) (fun a ha => hnull a (List.mem_cons_of_mem _ ha)) (by omega),
      Image.write, if_neg]
    rw [length_take_strlen (hnull arg List.mem_cons_self)]
    omega

/-- So does what is below the vector. -/
theorem stackImage_below (hvec : vectorDepth d argv ustack.length ≤ sz) {a : Nat}
    (ha : a < sz - vectorDepth d argv ustack.length) : stackImage sz d argv ustack img a = img a := by
  induction argv generalizing d ustack img with
  | nil =>
    unfold vectorDepth at hvec ha
    unfold stackImage
    rw [Image.write, if_neg]
    omega
  | cons arg argv ih =>
    have hlast := depth_le_vectorDepth (depth d (strlen arg + 1)) argv (ustack.length + 1)
    unfold vectorDepth at hvec ha
    unfold stackImage
    dsimp only
    rw [ih (by rwa [List.length_append, List.length_singleton]) (by rwa [List.length_append, List.length_singleton]),
      Image.write, if_neg]
    omega

theorem stackImage_string (hvec : vectorDepth d argv ustack.length ≤ sz) (hnull : ∀ arg ∈ argv, 0 ∈ arg) {i : Nat} {arg : List UInt8}
    (hi : argv[i]? = some arg) {k : Nat} (hk : k ≤ strlen arg) :
    stackImage sz d argv ustack img (sz - (depths d argv).getD i 0 + k) = arg.getD k 0 := by
  induction argv generalizing d ustack img i with
  | nil => cases hi
  | cons a argv ih =>
    have hdepth := depth_le d (strlen a + 1)
    have hlast := depth_le_vectorDepth (depth d (strlen a + 1)) argv (ustack.length + 1)
    have hnull' := fun b hb => hnull b (List.mem_cons_of_mem a hb)
    unfold vectorDepth at hvec
    have hvec' : vectorDepth (depth d (strlen a + 1)) argv (ustack ++ [sz - depth d (strlen a + 1)]).length ≤ sz := by
      rwa [List.length_append, List.length_singleton]
    unfold stackImage
    dsimp only
    cases i with
    | zero =>
      obtain rfl := Option.some.inj hi
      change stackImage _ _ _ _ _ (sz - depth d (strlen a + 1) + k) = _
      rw [stackImage_above hvec' hnull' (by omega), Image.write, if_pos, Nat.add_sub_cancel_left, List.getD_eq_getElem?_getD,
        List.getD_eq_getElem?_getD, List.getElem?_take_of_lt (by omega)]
      rw [length_take_strlen (hnull a List.mem_cons_self)]
      omega
    | succ i => exact ih hvec' hnull' hi

/-- The vector has the addresses of the strings and a zero. -/
theorem stackImage_vector (hvec : vectorDepth d argv ustack.length ≤ sz) {j : Nat} (hj : j < (ustack.length + argv.length + 1) * 8) :
    stackImage sz d argv ustack img (sz - vectorDepth d argv ustack.length + j) =
      ((ustack ++ (depths d argv).map (sz - ·) ++ [0]).flatMap wordBytes).getD j 0 := by
  induction argv generalizing d ustack img with
  | nil =>
    unfold vectorDepth at hvec ⊢
    unfold stackImage
    rw [Image.write, if_pos, Nat.add_sub_cancel_left, depths, List.map_nil, List.append_nil]
    rw [length_flatMap_wordBytes, List.length_append, List.length_singleton]
    rw [List.length_nil] at hj
    omega
  | cons a argv ih =>
    have hcount : (ustack ++ [sz - depth d (strlen a + 1)]).length = ustack.length + 1 := by
      rw [List.length_append, List.length_singleton]
    unfold vectorDepth at hvec ⊢
    unfold stackImage
    rw [← hcount] at hvec ⊢
    dsimp only
    rw [ih hvec, depths, List.map_cons, List.append_assoc ustack, List.singleton_append]
    rw [hcount]
    rw [List.length_cons] at hj
    omega

theorem getD_flatMap_wordBytes {vs : List Nat} {i j : Nat} (hi : i < vs.length) (hj : j < 8) :
    (vs.flatMap wordBytes).getD (i * 8 + j) 0 = UInt8.ofNat (vs.getD i 0 / 256 ^ j) := by
  induction vs generalizing i with
  | nil => cases hi
  | cons v vs ih =>
    rw [List.flatMap_cons]
    cases i with
    | zero =>
      rw [List.getD_append _ _ _ _ (by rw [length_wordBytes]; omega), List.getD_eq_getElem?_getD, wordBytes, Nat.zero_mul, Nat.zero_add]
      simp [hj]
    | succ i =>
      rw [List.getD_append_right _ _ _ _ (by rw [length_wordBytes]; omega), length_wordBytes]
      have hsub : (i + 1) * 8 + j - 8 = i * 8 + j := by omega
      rw [hsub, ih (Nat.lt_of_succ_lt_succ hi)]
      rfl

/-- The stack with the arguments: `sp` points to the vector, and `addr` has the addresses of the strings. -/
structure ArgStack (img : Image) (sz sp : Nat) (argv : List (List UInt8)) (addr : Nat → Nat) : Prop where
  align : sp % 16 = 0
  bounds : sz ≤ sp + PGSIZE ∧ sp < sz
  words : ∀ i < argv.length, Bytes.load img (sp + i * 8) 8 = addr i
  null : Bytes.load img (sp + argv.length * 8) 8 = 0
  strings : ∀ i arg, argv[i]? = some arg → ∀ k ≤ strlen arg, some (img (addr i + k)) = arg[k]?
  top : sp + (argv.length + 1) * 8 ≤ sz ∧ ∀ i arg, argv[i]? = some arg → addr i + strlen arg + 1 ≤ sz
  -- the vector is below the strings, and each string is below those before it
  vector : ∀ i < argv.length, sp + (argv.length + 1) * 8 ≤ addr i
  apart : ∀ i j arg, i < j → argv[j]? = some arg → addr j + strlen arg + 1 ≤ addr i

theorem getElem?_of_strlen {arg : List UInt8} (h : 0 ∈ arg) {k : Nat} (hk : k ≤ strlen arg) : some (arg.getD k 0) = arg[k]? := by
  have hlen := length_take_strlen h
  rw [List.length_take] at hlen
  rw [List.getD_eq_getElem?_getD, List.getElem?_eq_getElem (by omega)]
  rfl

theorem argStack (hsz : sz % 16 = 0) (h64 : sz < 2 ^ 64) (hpage : PGSIZE ≤ sz) (hvec : vectorDepth 0 argv 0 ≤ PGSIZE)
    (hnull : ∀ arg ∈ argv, 0 ∈ arg) : ArgStack (stackImage sz 0 argv [] img) sz (sz - vectorDepth 0 argv 0) argv
      fun i => sz - (depths 0 argv).getD i 0 := by
  have hmod := vectorDepth_mod 0 argv 0
  have hge : (0 + argv.length + 1) * 8 ≤ vectorDepth 0 argv 0 ∧
      ∀ i < argv.length, (depths 0 argv).getD i 0 + (0 + argv.length + 1) * 8 ≤ vectorDepth 0 argv 0 := by
    obtain ⟨hself, hrest⟩ := vectorDepth_ge (d := 0) 0
    exact ⟨by omega, hrest⟩
  obtain ⟨hself, hrest⟩ := hge
  rw [Nat.zero_add] at hself hrest
  have hle : vectorDepth 0 argv 0 ≤ sz := Nat.le_trans hvec hpage
  have hindex : ∀ {i arg}, argv[i]? = some arg → i < argv.length := fun h => (List.getElem?_eq_some_iff.1 h).1
  have hlen : ([] ++ (depths 0 argv).map (sz - ·) ++ [0]).length = argv.length + 1 := by
    rw [List.nil_append, List.length_append, List.length_map, length_depths, List.length_singleton]
  -- the words of the vector
  have hword : ∀ i < argv.length + 1, Bytes.load (stackImage sz 0 argv [] img) (sz - vectorDepth 0 argv 0 + i * 8) 8 =
      ([] ++ (depths 0 argv).map (sz - ·) ++ [0]).getD i 0 % 256 ^ 8 := by
    intro i hi
    apply Bytes.load_of_bytes
    intro j hj
    have hin : i * 8 + j < (([] : List Nat).length + argv.length + 1) * 8 := by
      rw [List.length_nil]
      omega
    rw [Nat.add_assoc]
    exact (stackImage_vector hle hin).trans (getD_flatMap_wordBytes (by rwa [hlen]) hj)
  constructor
  · omega
  · omega
  · intro i hi
    have hget : ([] ++ (depths 0 argv).map (sz - ·) ++ [0]).getD i 0 = sz - (depths 0 argv).getD i 0 := by
      have hd : i < (depths 0 argv).length := by rwa [length_depths]
      rw [List.nil_append, List.getD_append _ _ _ _ (by rwa [List.length_map]), List.getD_eq_getElem?_getD,
        List.getD_eq_getElem?_getD, List.getElem?_map, List.getElem?_eq_getElem hd]
      rfl
    rw [hword i (by omega), hget]
    exact Nat.mod_eq_of_lt (by omega)
  · rw [hword _ (Nat.lt_succ_self _), List.nil_append,
      List.getD_append_right _ _ _ _ (by rw [List.length_map, length_depths]), List.length_map, length_depths, Nat.sub_self]
    rfl
  · intro i arg hi k hk
    rw [stackImage_string hle hnull hi hk]
    exact getElem?_of_strlen (hnull arg (List.mem_of_getElem? hi)) hk
  · refine ⟨by omega, fun i arg hi => ?_⟩
    have hge := depths_ge (d := 0) hi
    have := hrest i (hindex hi)
    omega
  · intro i hi
    have := hrest i hi
    omega
  · intro i j arg hij hj
    have hap := depths_apart (d := 0) hij hj
    have := hrest j (hindex hj)
    omega

end Stack

namespace Phys

variable {s₀ s : Phys} {t : PageTable} {sz n : Nat} {img : Image} {trapframe : Page} {E : String → Phys → Prop}

/-- `copyout` within a page that is mapped for the user. -/
theorem copyout_wp {e : Pte} (hn : n * PGSIZE < MAXVA) (he : t.get n = some e) (hu : e.perm.u = true) {off : Nat} {src : List UInt8}
    (hoff : off < PGSIZE) (hfit : off + src.length ≤ PGSIZE) {Q : Bool → Phys → Prop}
    (hQ : Q true { s with ram := s.ram.memmove e.page off src }) : wp (copyout t (n * PGSIZE + off) src) Q E s := by
  have hmod : (n * PGSIZE + off) % PGSIZE = off := by
    simp only [PGSIZE] at hoff ⊢
    omega
  have hdiv : (n * PGSIZE + off) / PGSIZE = n := by
    simp only [PGSIZE] at hoff ⊢
    omega
  have hlt : n * PGSIZE + off < MAXVA := by
    have hmax : MAXVA = 67108864 * PGSIZE := by decide
    rw [hmax] at hn ⊢
    have := Nat.lt_of_mul_lt_mul_right hn
    simp only [PGSIZE] at hoff ⊢
    omega
  have hw : Mem.walkaddr t (PGROUNDDOWN (n * PGSIZE + off)) = some e.page :=
    Ram.walkaddr_eq_some.2 ⟨hlt, e, by rw [hdiv, he], hu, rfl⟩
  have hput : s.ram.copyout t (n * PGSIZE + off) src = (true, s.ram.memmove e.page off src) := by
    rw [Ram.copyout_eq (Nat.lt_trans hlt (by decide)), Ram.put_page hw (by rwa [hmod]), hmod]
  unfold copyout
  simp only [wp_bind, wp_get, hput, wp_modify, wp_pure]
  exact hQ

/-- `sp` at a depth, as an address of the page `n`. -/
theorem top_sub {d : Nat} (hd : d ≤ PGSIZE) : (n + 1) * PGSIZE - d = n * PGSIZE + (PGSIZE - d) := by
  rw [Nat.add_mul, Nat.one_mul]
  omega

variable [KernelText]

/-- For arguments that are shorter than a page: the loop does not wrap around, and it fails if and only if they do not fit. -/
theorem pushArgs_wp (hs : s₀.Sound 0) (hn : 0 < n) (h : Made s₀ trapframe t ((n + 1) * PGSIZE) img s) {e : Pte} (he : t.get n = some e)
    (hu : e.perm.u = true) {argv : List (List UInt8)} (hlen : ∀ arg ∈ argv, 0 ∈ arg ∧ strlen arg < PGSIZE) {d : Nat}
    {ustack : List Nat} (hargc : ustack.length + argv.length < MAXARG) (hd : d ≤ PGSIZE) {Q : Option Nat → Phys → Prop}
    (hok : vectorDepth d argv ustack.length ≤ PGSIZE → NoWrap (n * PGSIZE) argv ustack.length ((n + 1) * PGSIZE - d) →
      ∀ s', Made s₀ trapframe t ((n + 1) * PGSIZE) (stackImage ((n + 1) * PGSIZE) d argv ustack img) s' →
      Q (some ((n + 1) * PGSIZE - vectorDepth d argv ustack.length)) s')
    (hbad : PGSIZE < vectorDepth d argv ustack.length → ∀ img' s', Made s₀ trapframe t ((n + 1) * PGSIZE) img' s' → Q none s') :
    wp (pushArgs t (n * PGSIZE) argv ustack.length ((n + 1) * PGSIZE - d) ustack) Q E s := by
  have hle : n + 1 ≤ NPAGES := Nat.le_of_mul_le_mul_right h.le (by decide)
  have hi : n < npages ((n + 1) * PGSIZE) := by
    rw [npages_mul hle]
    exact Nat.lt_succ_self n
  have hmax : n * PGSIZE < MAXVA := page_lt_maxva (Nat.le_of_succ_le hle)
  have h16 : (n + 1) * PGSIZE % 16 = 0 := by
    simp only [PGSIZE]
    omega
  have h64 : (n + 1) * PGSIZE < 2 ^ 64 := Nat.lt_of_le_of_lt h.le (by decide)
  have hbase : ∀ d', d' ≤ (n + 1) * PGSIZE → ((n + 1) * PGSIZE - d' < n * PGSIZE ↔ PGSIZE < d') := fun d' _ => by
    rw [Nat.add_mul, Nat.one_mul] at *
    omega
  have hroom : ∀ k ≤ PGSIZE, d + k ≤ (n + 1) * PGSIZE := fun k hk => by
    simp only [PGSIZE] at hk hd ⊢
    omega
  induction argv generalizing d ustack img s with
  | nil =>
    have hvec : (ustack.length + 1) * 8 ≤ PGSIZE := by
      simp only [MAXARG, List.length_nil, PGSIZE] at hargc ⊢
      omega
    have hdepth := depth_le d ((ustack.length + 1) * 8)
    have hin : depth d ((ustack.length + 1) * 8) ≤ (n + 1) * PGSIZE := depth_le_of h16 (hroom _ hvec)
    unfold pushArgs
    simp only [vectorDepth] at hok hbad
    dsimp only
    rw [pushSp_eq h16 h64 (hroom _ hvec)]
    by_cases hfit : PGSIZE < depth d ((ustack.length + 1) * 8)
    · rw [if_pos ((hbase _ hin).2 hfit)]
      exact hbad hfit img s h
    · rw [if_neg fun hc => hfit ((hbase _ hin).1 hc), wp_bind]
      have hle' : depth d ((ustack.length + 1) * 8) ≤ PGSIZE := Nat.le_of_not_lt hfit
      have hlen' : PGSIZE - depth d ((ustack.length + 1) * 8) + ((ustack ++ [0]).flatMap wordBytes).length ≤ PGSIZE := by
        rw [length_flatMap_wordBytes, List.length_append, List.length_singleton]
        omega
      have hwrite := h.write hs hi he hlen'
      rw [top_sub hle']
      apply copyout_wp hmax he hu (by omega) hlen'
      rw [if_pos rfl, ← top_sub hle']
      rw [← top_sub hle'] at hwrite
      refine hok hle' ?_ _ hwrite
      have := hroom _ hvec
      unfold NoWrap
      omega
  | cons arg argv ih =>
    obtain ⟨hnull, hstr⟩ := hlen arg List.mem_cons_self
    have hdepth := depth_le d (strlen arg + 1)
    have hin : depth d (strlen arg + 1) ≤ (n + 1) * PGSIZE := depth_le_of h16 (hroom _ hstr)
    have hlast := depth_le_vectorDepth (depth d (strlen arg + 1)) argv (ustack.length + 1)
    rw [List.length_cons] at hargc
    unfold pushArgs
    simp only [vectorDepth] at hok hbad
    rw [if_neg (by omega)]
    dsimp only
    rw [pushSp_eq h16 h64 (hroom _ hstr)]
    by_cases hfit : PGSIZE < depth d (strlen arg + 1)
    · rw [if_pos ((hbase _ hin).2 hfit)]
      exact hbad (by omega) img s h
    · rw [if_neg fun hc => hfit ((hbase _ hin).1 hc), wp_bind]
      have hle' : depth d (strlen arg + 1) ≤ PGSIZE := Nat.le_of_not_lt hfit
      have hlen' : PGSIZE - depth d (strlen arg + 1) + (arg.take (strlen arg + 1)).length ≤ PGSIZE := by
        rw [length_take_strlen hnull]
        omega
      have hwrite := h.write hs hi he hlen'
      rw [top_sub hle']
      apply copyout_wp hmax he hu (by omega) hlen'
      rw [if_pos rfl, ← top_sub hle']
      rw [← top_sub hle'] at hwrite
      have hcount : (ustack ++ [(n + 1) * PGSIZE - depth d (strlen arg + 1)]).length = ustack.length + 1 := by
        rw [List.length_append, List.length_singleton]
      rw [← hcount] at hok hbad ⊢
      apply ih hwrite (fun a ha => hlen a (List.mem_cons_of_mem _ ha)) _ hle' _ hbad
      · intro k hk
        simp only [PGSIZE] at hk hle' ⊢
        omega
      · rw [hcount]
        omega
      · intro hvec hwrap s' hmade
        refine hok hvec ⟨?_, fun _ => ?_⟩ s' hmade
        · have := hroom _ hstr
          omega
        · rw [pushSp_eq h16 h64 (hroom _ hstr), ← hcount]
          exact hwrap

end Phys

end Xv6
