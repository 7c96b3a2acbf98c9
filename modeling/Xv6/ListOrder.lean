import Xv6.KernelList

/-!
# Reversing and ordering lists

The functions of `list.c` with loops: `list_reverse`, `list_sort`, `list_insert_ordered`, `list_unique`, `list_max` and `list_min`.
`less` is the comparison with its argument `aux`; it reads the structures around the elements and not their links.  A loop that is not
at its end after the turns that `fuel` allows stops with an error of its own, which no function of the kernel has.
-/

namespace Xv6

namespace ListM

/-- A loop has no turns left. -/
def spin {α : Type} : ListM α := throw "spin"

/-- `&e->next` and `&e->prev`. -/
inductive LinkField
  | next (e : Ptr)
  | prev (e : Ptr)

def LinkField.get : LinkField → ListM Ptr
  | next e => getNext e
  | prev e => getPrev e

def LinkField.set (v : Ptr) : LinkField → ListM Unit
  | next e => setNext e v
  | prev e => setPrev e v

def swap (a b : LinkField) : ListM Unit := do
  let t ← a.get
  a.set (← b.get)
  b.set t

/-- The loop of `list_reverse` at element `e`. -/
def listReverseLoop (list : Ptr) : Nat → Ptr → ListM Unit
  | 0, _ => spin
  | fuel + 1, e => do
    if e ≠ (← listEnd list) then
      swap (.prev e) (.next e)
      listReverseLoop list fuel (← getPrev e)

def listReverse (fuel : Nat) (list : Ptr) : ListM Unit := do
  if !(← listEmpty list) then
    listReverseLoop list fuel (← listBegin list)
    swap (.next (headOf list)) (.prev (tailOf list))
    swap (.prev (← getNext (headOf list))) (.next (← getPrev (tailOf list)))

variable (less : Ptr → Ptr → Bool)

def isSortedLoop (b : Ptr) : Nat → Ptr → ListM Bool
  | 0, _ => spin
  | fuel + 1, a => do
    let a ← listNext a
    if a ≠ b then
      if less a (← listPrev a) then return false
      else isSortedLoop b fuel a
    else return true

def isSorted (fuel : Nat) (a b : Ptr) : ListM Bool :=
  if a ≠ b then isSortedLoop less b fuel a else return true

def findEndOfRunLoop (b : Ptr) : Nat → Ptr → ListM Ptr
  | 0, _ => spin
  | fuel + 1, a => do
    let a ← listNext a
    if a ≠ b then
      if !less a (← listPrev a) then findEndOfRunLoop b fuel a
      else return a
    else return a

def findEndOfRun (fuel : Nat) (a b : Ptr) : ListM Ptr := do
  ASSERT (a ≠ NULL)
  ASSERT (b ≠ NULL)
  ASSERT (a ≠ b)
  findEndOfRunLoop less b fuel a

def inplaceMergeLoop (b1 : Ptr) : Nat → Ptr → Ptr → ListM Unit
  | 0, _, _ => spin
  | fuel + 1, a0, a1b0 => do
    if a0 ≠ a1b0 ∧ a1b0 ≠ b1 then
      if !less a1b0 a0 then inplaceMergeLoop b1 fuel (← listNext a0) a1b0
      else
        let a1b0 ← listNext a1b0
        listSplice a0 (← listPrev a1b0) a1b0
        inplaceMergeLoop b1 fuel a0 a1b0

def inplaceMerge (fuel : Nat) (a0 a1b0 b1 : Ptr) : ListM Unit := do
  ASSERT (a0 ≠ NULL)
  ASSERT (a1b0 ≠ NULL)
  ASSERT (b1 ≠ NULL)
  ASSERT (← isSorted less fuel a0 a1b0)
  ASSERT (← isSorted less fuel a1b0 b1)
  inplaceMergeLoop less b1 fuel a0 a1b0

/-- The inner loop of `list_sort` at `a0`, which returns `output_run_cnt`. -/
def sortPass (fuel : Nat) (list : Ptr) : Nat → Ptr → UInt64 → ListM UInt64
  | 0, _, _ => spin
  | turns + 1, a0, output_run_cnt => do
    if a0 ≠ (← listEnd list) then
      let output_run_cnt := output_run_cnt + 1
      let a1b0 ← findEndOfRun less fuel a0 (← listEnd list)
      if a1b0 = (← listEnd list) then return output_run_cnt
      else
        let b1 ← findEndOfRun less fuel a1b0 (← listEnd list)
        inplaceMerge less fuel a0 a1b0 b1
        sortPass fuel list turns b1 output_run_cnt
    else return output_run_cnt

/-- The outer loop. -/
def listSortLoop (fuel : Nat) (list : Ptr) : Nat → ListM Unit
  | 0 => spin
  | turns + 1 => do
    let output_run_cnt ← sortPass less fuel list fuel (← listBegin list) 0
    if output_run_cnt > 1 then listSortLoop fuel list turns

def listSort (fuel : Nat) (list : Ptr) : ListM Unit := do
  ASSERT (list ≠ NULL)
  listSortLoop less fuel list fuel
  ASSERT (← isSorted less fuel (← listBegin list) (← listEnd list))

/-- The loop of `list_insert_ordered` at `e`, which returns the place for `elem`. -/
def insertOrderedLoop (list elem : Ptr) : Nat → Ptr → ListM Ptr
  | 0, _ => spin
  | fuel + 1, e => do
    if e ≠ (← listEnd list) then
      if less elem e then return e
      else insertOrderedLoop list elem fuel (← listNext e)
    else return e

def listInsertOrdered (fuel : Nat) (list elem : Ptr) : ListM Unit := do
  ASSERT (list ≠ NULL)
  ASSERT (elem ≠ NULL)
  let e ← insertOrderedLoop less list elem fuel (← listBegin list)
  listInsert e elem

/-- The loop of `list_unique` at `elem`; `duplicates` may be null. -/
def listUniqueLoop (list duplicates : Ptr) : Nat → Ptr → ListM Unit
  | 0, _ => spin
  | fuel + 1, elem => do
    let next ← listNext elem
    if next ≠ (← listEnd list) then
      if !less elem next && !less next elem then
        let _ ← listRemove next
        if duplicates ≠ NULL then
          listPushBack duplicates next
          listUniqueLoop list duplicates fuel elem
        else listUniqueLoop list duplicates fuel elem
      else listUniqueLoop list duplicates fuel next

def listUnique (fuel : Nat) (list duplicates : Ptr) : ListM Unit := do
  ASSERT (list ≠ NULL)
  if ← listEmpty list then return
  else listUniqueLoop less list duplicates fuel (← listBegin list)

/-- The loops of `list_max` and `list_min` at `e`, with the best element so far; `better e best` says that `e` replaces it. -/
def bestLoop (better : Ptr → Ptr → Bool) (list : Ptr) : Nat → Ptr → Ptr → ListM Ptr
  | 0, _, _ => spin
  | fuel + 1, best, e => do
    if e ≠ (← listEnd list) then bestLoop better list fuel (if better e best then e else best) (← listNext e)
    else return best

def listMax (fuel : Nat) (list : Ptr) : ListM Ptr := do
  let max ← listBegin list
  if max ≠ (← listEnd list) then bestLoop (fun e max => less max e) list fuel max (← listNext max)
  else return max

def listMin (fuel : Nat) (list : Ptr) : ListM Ptr := do
  let min ← listBegin list
  if min ≠ (← listEnd list) then bestLoop (fun e min => less e min) list fuel min (← listNext min)
  else return min

end ListM

open ListM

variable {ι : Type} {h : Nodes Ptr} {hdr : ι → Ptr} {seq : ι → List Ptr}

/-- Elements in another order are the same nodes. -/
theorem mem_nodes_of_perm [DecidableEq ι] {k : ι} {l : List Ptr} (hl : l.Perm (seq k)) {x : Ptr} :
    x ∈ nodes hdr (Function.update seq k l) k ↔ x ∈ nodes hdr seq k := by
  rw [nodes, Nodes.Rows.row_update, nodes, Nodes.row]
  simp only [List.mem_cons, List.mem_append, hl.mem_iff]

/-- There is one heap with these lists, if it is given outside of them. -/
theorem lists_unique {h' : Nodes Ptr} (hs : Lists h hdr seq) (hs' : Lists h' hdr seq)
    (hf : ∀ x, (∀ k, x ∉ nodes hdr seq k) → Nodes.Agree h h' x) : h' = h := by
  have hagree : ∀ x, Nodes.Agree h h' x := by
    intro x
    by_cases hx : ∃ k, x ∈ nodes hdr seq k
    · obtain ⟨k, hk⟩ := hx
      exact hs.agree hs' hk
    · exact hf x fun k hk => hx ⟨k, hk⟩
  have hnext : h'.next = h.next := funext fun x => (hagree x).1
  have hprev : h'.prev = h.prev := funext fun x => (hagree x).2
  calc h' = ⟨h'.next, h'.prev⟩ := rfl
    _ = h := by rw [hnext, hprev]

/-- A program that returns with enough turns and leaves these lists ends in the same heap, however many turns it has. -/
theorem ends_of_wp {m : Nat → ListM Unit} {n : Nat} {l : List Ptr} (hl : ∀ x ∈ l, ∃ k, x ∈ nodes hdr seq k)
    (hw : ∀ fuel ≥ n, wp (m fuel) (fun _ h' => Lists h' hdr seq ∧ Frame h h' l) noError h) :
    ∃ h', (∃ n, ∀ fuel ≥ n, m fuel h = .ok () h') ∧ Lists h' hdr seq ∧ Frame h h' l := by
  obtain ⟨⟨⟩, h', -, hs', hf'⟩ := wp_false (hw n (Nat.le_refl n))
  refine ⟨h', ⟨n, fun fuel hfuel => ?_⟩, hs', hf'⟩
  obtain ⟨⟨⟩, h'', hrun, hs'', hf''⟩ := wp_false (hw fuel hfuel)
  have hsame : h'' = h' := by
    apply lists_unique hs' hs''
    intro x hx
    have hxl : x ∉ l := fun hxl => (hl x hxl).elim fun k hk => hx k hk
    exact ⟨(hf'' x hxl).1.trans (hf' x hxl).1.symm, (hf'' x hxl).2.trans (hf' x hxl).2.symm⟩
  rw [hrun, hsame]

end Xv6
