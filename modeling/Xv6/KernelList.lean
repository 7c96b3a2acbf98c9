import Mathlib.Algebra.Order.Group.Nat
import Mathlib.Data.Fintype.Card
import Xv6.Lib.Chain
import Xv6.Lib.Wp

/-!
# The lists of the kernel

The functions of `list.c` over a heap of `struct list_elem`, which are given by their addresses.  A `struct list` has two of them,
its head and its tail.  A failing `ASSERT` and the use of a null pointer stop the kernel.

The operations do to the sequences of elements what they say (`ListOp.Does`), whatever other lists there are, and leave the lists
alone that they are not about (`lists_refine`).
-/

namespace Xv6

open Function (update)

/-- The address of a `struct list_elem`. -/
abbrev Ptr := UInt64

def NULL : Ptr := 0

abbrev ListM := EStateM String (Nodes Ptr)

def noError (_ : String) (_ : Nodes Ptr) : Prop := False

namespace ListM

def ASSERT (c : Bool) : ListM Unit := if c then pure () else throw "list"

def getNext (e : Ptr) : ListM Ptr := if e = NULL then throw "kerneltrap" else do return (← get).next e

def getPrev (e : Ptr) : ListM Ptr := if e = NULL then throw "kerneltrap" else do return (← get).prev e

def setNext (e v : Ptr) : ListM Unit := if e = NULL then throw "kerneltrap" else modify fun h => { h with next := update h.next e v }

def setPrev (e v : Ptr) : ListM Unit := if e = NULL then throw "kerneltrap" else modify fun h => { h with prev := update h.prev e v }

/-- `&list->head`. -/
def headOf (list : Ptr) : Ptr := list

/-- `&list->tail`. -/
def tailOf (list : Ptr) : Ptr := list + 16

def isHead (elem : Ptr) : ListM Bool := do
  let h ← get
  return elem ≠ NULL && h.prev elem = NULL && h.next elem ≠ NULL

def isInterior (elem : Ptr) : ListM Bool := do
  let h ← get
  return elem ≠ NULL && h.prev elem ≠ NULL && h.next elem ≠ NULL

def isTail (elem : Ptr) : ListM Bool := do
  let h ← get
  return elem ≠ NULL && h.prev elem ≠ NULL && h.next elem = NULL

def listInit (list : Ptr) : ListM Unit := do
  ASSERT (list ≠ NULL)
  setPrev (headOf list) NULL
  setNext (headOf list) (tailOf list)
  setPrev (tailOf list) (headOf list)
  setNext (tailOf list) NULL

def listBegin (list : Ptr) : ListM Ptr := do
  ASSERT (list ≠ NULL)
  getNext (headOf list)

def listNext (elem : Ptr) : ListM Ptr := do
  ASSERT ((← isHead elem) || (← isInterior elem))
  getNext elem

def listEnd (list : Ptr) : ListM Ptr := do
  ASSERT (list ≠ NULL)
  return tailOf list

def listPrev (elem : Ptr) : ListM Ptr := do
  ASSERT ((← isInterior elem) || (← isTail elem))
  getPrev elem

def listInsert (before elem : Ptr) : ListM Unit := do
  ASSERT ((← isInterior before) || (← isTail before))
  ASSERT (elem ≠ NULL)
  setPrev elem (← getPrev before)
  setNext elem before
  setNext (← getPrev before) elem
  setPrev before elem

def listSplice (before first last : Ptr) : ListM Unit := do
  ASSERT ((← isInterior before) || (← isTail before))
  if first = last then return
  let last ← listPrev last
  ASSERT (← isInterior first)
  ASSERT (← isInterior last)
  setNext (← getPrev first) (← getNext last)
  setPrev (← getNext last) (← getPrev first)
  setPrev first (← getPrev before)
  setNext last before
  setNext (← getPrev before) first
  setPrev before last

def listPushFront (list elem : Ptr) : ListM Unit := do
  listInsert (← listBegin list) elem

def listPushBack (list elem : Ptr) : ListM Unit := do
  listInsert (← listEnd list) elem

def listRemove (elem : Ptr) : ListM Ptr := do
  ASSERT (← isInterior elem)
  setNext (← getPrev elem) (← getNext elem)
  setPrev (← getNext elem) (← getPrev elem)
  getNext elem

def listEmpty (list : Ptr) : ListM Bool := do
  return (← listBegin list) = (← listEnd list)

def listFront (list : Ptr) : ListM Ptr := do
  ASSERT !(← listEmpty list)
  getNext (headOf list)

def listBack (list : Ptr) : ListM Ptr := do
  ASSERT !(← listEmpty list)
  getPrev (tailOf list)

def listPopFront (list : Ptr) : ListM Ptr := do
  let front ← listFront list
  let _ ← listRemove front
  return front

def listPopBack (list : Ptr) : ListM Ptr := do
  let back ← listBack list
  let _ ← listRemove back
  return back

/-- The loop of `list_size` at element `e`; `none` if it is not at its end after the turns that `fuel` allows. -/
def listSizeLoop (list : Ptr) : Nat → Ptr → UInt64 → ListM (Option UInt64)
  | 0, _, _ => pure none
  | fuel + 1, e, cnt => do
    if e ≠ (← listEnd list) then listSizeLoop list fuel (← listNext e) (cnt + 1)
    else pure (some cnt)

def listSize (fuel : Nat) (list : Ptr) : ListM (Option UInt64) := do
  listSizeLoop list fuel (← listBegin list) 0

/-! ### What the operations do to the heap -/

section wp

variable {h : Nodes Ptr} {e v : Ptr}

@[simp] theorem wp_ASSERT {c : Bool} (hc : c = true) (Q : Unit → Nodes Ptr → Prop) (E : String → Nodes Ptr → Prop) :
    wp (ASSERT c) Q E = Q () := by
  rw [ASSERT, if_pos hc, wp_pure]

@[simp] theorem wp_getNext (he : e ≠ NULL) (Q : Ptr → Nodes Ptr → Prop) (E : String → Nodes Ptr → Prop) :
    wp (getNext e) Q E h = Q (h.next e) h := by
  rw [getNext, if_neg he]
  rfl

@[simp] theorem wp_getPrev (he : e ≠ NULL) (Q : Ptr → Nodes Ptr → Prop) (E : String → Nodes Ptr → Prop) :
    wp (getPrev e) Q E h = Q (h.prev e) h := by
  rw [getPrev, if_neg he]
  rfl

@[simp] theorem wp_setNext (he : e ≠ NULL) (Q : Unit → Nodes Ptr → Prop) (E : String → Nodes Ptr → Prop) :
    wp (setNext e v) Q E h = Q () { h with next := update h.next e v } := by
  rw [setNext, if_neg he]
  rfl

@[simp] theorem wp_setPrev (he : e ≠ NULL) (Q : Unit → Nodes Ptr → Prop) (E : String → Nodes Ptr → Prop) :
    wp (setPrev e v) Q E h = Q () { h with prev := update h.prev e v } := by
  rw [setPrev, if_neg he]
  rfl

@[simp] theorem wp_isHead (Q : Bool → Nodes Ptr → Prop) (E : String → Nodes Ptr → Prop) :
    wp (isHead e) Q E h = Q (e ≠ NULL && h.prev e = NULL && h.next e ≠ NULL) h := rfl

@[simp] theorem wp_isInterior (Q : Bool → Nodes Ptr → Prop) (E : String → Nodes Ptr → Prop) :
    wp (isInterior e) Q E h = Q (e ≠ NULL && h.prev e ≠ NULL && h.next e ≠ NULL) h := rfl

@[simp] theorem wp_isTail (Q : Bool → Nodes Ptr → Prop) (E : String → Nodes Ptr → Prop) :
    wp (isTail e) Q E h = Q (e ≠ NULL && h.prev e ≠ NULL && h.next e = NULL) h := rfl

end wp

section ops

variable {h : Nodes Ptr} {before elem p q : Ptr} {E : String → Nodes Ptr → Prop}

/-- A node with a `prev` is an interior one or a tail. -/
theorem inner_or_tail {e : Ptr} (he : e ≠ NULL) (hp : h.prev e ≠ NULL) :
    (e ≠ NULL && h.prev e ≠ NULL && h.next e ≠ NULL || e ≠ NULL && h.prev e ≠ NULL && h.next e = NULL) = true := by
  by_cases hn : h.next e = NULL <;> simp [he, hp, hn]

/-- Four writes, which make two new pairs of neighbours. -/
theorem listInsert_wp (hb : before ≠ NULL) (he : elem ≠ NULL) (hp : h.prev before = p) (hp0 : p ≠ NULL) (hpe : p ≠ elem)
    (hbe : before ≠ elem) {Q : Unit → Nodes Ptr → Prop} (hQ : Q () ((h.join p elem).join elem before)) :
    wp (listInsert before elem) Q E h := by
  rw [Nodes.join_join _ hpe] at hQ
  unfold listInsert
  simp only [wp_bind, wp_isInterior, wp_isTail]
  rw [wp_ASSERT (inner_or_tail hb (hp ▸ hp0)), wp_ASSERT (by simpa using he)]
  simpa [hb, he, hp, hp0, hbe] using hQ

/-- Two writes, which make the neighbours of `elem` neighbours of each other. -/
theorem listRemove_wp (he : elem ≠ NULL) (hp : h.prev elem = p) (hp0 : p ≠ NULL) (hn : h.next elem = q) (hq0 : q ≠ NULL)
    (hpe : elem ≠ p) {Q : Ptr → Nodes Ptr → Prop} (hQ : Q q (h.join p q)) : wp (listRemove elem) Q E h := by
  unfold listRemove
  simp only [wp_bind, wp_isInterior]
  rw [wp_ASSERT (by simp [he, hp, hp0, hn, hq0])]
  simpa [he, hp, hp0, hn, hq0, hpe, Nodes.join] using hQ

/-- A range that is not empty is cut out of its list and put into another place. -/
theorem listSplice_wp {first last l p' : Ptr} (hb : before ≠ NULL) (hpb : h.prev before ≠ NULL) (hfl : first ≠ last)
    (hl0 : last ≠ NULL) (hl : h.prev last = l) (hf0 : first ≠ NULL) (hp : h.prev first = p) (hp0 : p ≠ NULL)
    (hfn : h.next first ≠ NULL) (hll : l ≠ NULL) (hlp : h.prev l ≠ NULL) (hln : h.next l = last) (hlp' : l ≠ p)
    (hp' : (h.join p last).prev before = p') (hp0' : p' ≠ NULL) (hbf : before ≠ first) (hpl : p' ≠ l)
    {Q : Unit → Nodes Ptr → Prop} (hQ : Q () (((h.join p last).join p' first).join l before)) :
    wp (listSplice before first last) Q E h := by
  rw [Nodes.join_join _ hpl] at hQ
  unfold listSplice listPrev
  simp only [wp_bind, wp_isInterior, wp_isTail]
  rw [wp_ASSERT (inner_or_tail hb hpb), wp_ite, if_neg hfl]
  simp only [wp_bind, wp_isInterior, wp_isTail]
  rw [wp_ASSERT (inner_or_tail hl0 (hl ▸ hll)), wp_getPrev hl0, hl]
  rw [wp_isInterior, wp_ASSERT (by simp [hf0, hp, hp0, hfn]), wp_isInterior, wp_ASSERT (by simp [hll, hlp, hln, hl0])]
  rw [wp_getPrev hf0, hp, wp_getNext hll, hln, wp_setNext hp0, wp_getNext hll]
  have hln' : update h.next p last l = last := by rw [Function.update_of_ne hlp', hln]
  simp only [hln', wp_getPrev hf0, hp, wp_setPrev hl0]
  change wp _ _ _ (h.join p last)
  simpa [hb, hf0, hll, hp', hp0', hbf] using hQ

end ops

/-! ### What they do to the lists -/

variable {ι : Type} {h : Nodes Ptr} {hdr : ι → Ptr} {seq : ι → List Ptr} {a b r : List Ptr} {k : ι} {e : Ptr}

/-- The nodes of the list at `hdr k`. -/
def nodes (hdr : ι → Ptr) (seq : ι → List Ptr) (k : ι) : List Ptr :=
  Nodes.row (fun k => headOf (hdr k)) (fun k => tailOf (hdr k)) seq k

/-- The lists at the addresses `hdr`, with the elements `seq`, and the path `r`, which is in none of them. -/
abbrev Loose (h : Nodes Ptr) (hdr : ι → Ptr) (seq : ι → List Ptr) (r : List Ptr) : Prop :=
  h.Rows NULL (fun k => headOf (hdr k)) (fun k => tailOf (hdr k)) seq r

/-- Disjoint lists at the addresses `hdr`, in which `next` and `prev` lead from node to node, with the elements `seq`. -/
def Lists (h : Nodes Ptr) (hdr : ι → Ptr) (seq : ι → List Ptr) : Prop := Loose h hdr seq []

/-- `e` is not a node of a list. -/
def Fresh (hdr : ι → Ptr) (seq : ι → List Ptr) (e : Ptr) : Prop := e ≠ NULL ∧ ∀ k, e ∉ nodes hdr seq k

/-- The node before a place in a list, where the elements `a` are before it. -/
def left (hdr : ι → Ptr) (k : ι) (a : List Ptr) : Ptr := a.getLastD (headOf (hdr k))

/-- The node behind a place in a list, where the elements `b` are behind it. -/
def right (hdr : ι → Ptr) (k : ι) (b : List Ptr) : Ptr := b.headD (tailOf (hdr k))

/-- Nothing has changed at the nodes outside of `l`. -/
def Frame (h h' : Nodes Ptr) (l : List Ptr) : Prop := ∀ x ∉ l, Nodes.Agree h h' x

theorem frame_join {l : List Ptr} {x y : Ptr} (hx : x ∈ l) (hy : y ∈ l) : Frame h (h.join x y) l :=
  fun _ hz => Nodes.agree_join h (fun hc => hz (hc ▸ hx)) fun hc => hz (hc ▸ hy)

theorem Frame.trans {h' h'' : Nodes Ptr} {l : List Ptr} (h1 : Frame h h' l) (h2 : Frame h' h'' l) : Frame h h'' l :=
  fun x hx => (h1 x hx).trans (h2 x hx)

theorem ne_null (hs : Loose h hdr seq r) {x : Ptr} (hx : x ∈ nodes hdr seq k) : x ≠ NULL :=
  fun hc => hs.notNull k (hc ▸ hx)

theorem head_ne_null (hs : Loose h hdr seq r) : headOf (hdr k) ≠ NULL :=
  ne_null (k := k) hs List.mem_cons_self

theorem hdr_ne_null (hs : Loose h hdr seq r) : hdr k ≠ NULL :=
  ne_null (k := k) hs List.mem_cons_self

theorem left_mem (hseq : seq k = a ++ b) : left hdr k a ∈ nodes hdr seq k :=
  Nodes.Rows.getLastD_mem hseq

theorem right_mem (hseq : seq k = a ++ b) : right hdr k b ∈ nodes hdr seq k :=
  Nodes.Rows.headD_mem hseq

/-- The nodes on the two sides of a place. -/
theorem link_left (hs : Loose h hdr seq r) (hseq : seq k = a ++ b) : h.next (left hdr k a) = right hdr k b :=
  (hs.link hseq).1

theorem link_right (hs : Loose h hdr seq r) (hseq : seq k = a ++ b) : h.prev (right hdr k b) = left hdr k a :=
  (hs.link hseq).2

theorem left_append (k : ι) (a : List Ptr) (e : Ptr) : left hdr k (a ++ [e]) = e := by
  simp [left]

theorem right_cons (k : ι) (e : Ptr) (b : List Ptr) : right hdr k (e :: b) = e := rfl

/-- The nodes before a place are not those behind it. -/
theorem ne_of_split (hs : Loose h hdr seq r) (hseq : seq k = a ++ b) {x y : Ptr} (hx : x ∈ headOf (hdr k) :: a)
    (hy : y ∈ b ++ [tailOf (hdr k)]) : x ≠ y := by
  have hd := hs.nodup k
  rw [Nodes.row, hseq, List.append_assoc, ← List.cons_append] at hd
  exact (List.nodup_append.1 hd).2.2 x hx y hy

theorem left_mem_cons (a : List Ptr) : left hdr k a ∈ headOf (hdr k) :: a := by
  obtain ⟨x, hx⟩ := Nodes.exists_getLastD (headOf (hdr k)) a
  rw [hx]
  exact List.mem_append_right _ (List.mem_singleton_self _)

theorem right_mem_append (b : List Ptr) : right hdr k b ∈ b ++ [tailOf (hdr k)] := by
  obtain ⟨y, hy⟩ := Nodes.exists_headD b (tailOf (hdr k))
  rw [hy]
  exact List.mem_cons_self

/-- All nodes but the head have a node before them. -/
theorem prev_ne_null (hs : Loose h hdr seq r) {x : Ptr} (hx : x ∈ seq k ++ [tailOf (hdr k)]) : h.prev x ≠ NULL := by
  obtain ⟨a, b, hseq, rfl⟩ : ∃ a b, seq k = a ++ b ∧ x = right hdr k b := by
    rcases List.mem_append.1 hx with hx | hx
    · obtain ⟨a, b, hseq⟩ := List.append_of_mem hx
      exact ⟨a, x :: b, hseq, rfl⟩
    · exact ⟨seq k, [], (List.append_nil _).symm, List.mem_singleton.1 hx⟩
  rw [link_right hs hseq]
  exact ne_null hs (left_mem hseq)

/-- A new list is empty. -/
theorem init_lists {list : Ptr} (h0 : headOf list ≠ NULL) (h1 : tailOf list ≠ NULL) :
    wp (listInit list) (fun _ h' => Lists h' (fun _ : Unit => list) fun _ => []) noError h := by
  have hne : headOf list ≠ tailOf list := by simp [headOf, tailOf]
  unfold listInit
  simp only [wp_bind]
  have hlist : list ≠ NULL := h0
  rw [wp_ASSERT (decide_eq_true hlist), wp_setPrev h0, wp_setNext h0, wp_setPrev h1, wp_setNext h1]
  exact {
    path := fun _ => .cons_cons ⟨by simp [hne], by simp⟩ (.singleton _)
    nodup := fun _ => by simpa [Nodes.row] using hne
    disj := fun _ _ hc => (hc rfl).elim
    first := fun _ => by simp [hne]
    last := fun _ => by simp
    notNull := fun _ => by simp [Nodes.row, h0.symm, h1.symm]
    loosePath := .nil
    looseNodup := List.nodup_nil
    looseDisj := fun _ => List.disjoint_nil_right _
    looseNotNull := List.not_mem_nil }

theorem begin_wp (hs : Lists h hdr seq) {Q : Ptr → Nodes Ptr → Prop} {E : String → Nodes Ptr → Prop}
    (hQ : Q (right hdr k (seq k)) h) : wp (listBegin (hdr k)) Q E h := by
  have hn : h.next (headOf (hdr k)) = right hdr k (seq k) := link_left (a := []) hs rfl
  unfold listBegin
  rw [wp_bind, wp_ASSERT (by simpa using hdr_ne_null hs), wp_getNext (head_ne_null hs), hn]
  exact hQ

theorem end_wp (hs : Lists h hdr seq) {Q : Ptr → Nodes Ptr → Prop} {E : String → Nodes Ptr → Prop}
    (hQ : Q (tailOf (hdr k)) h) : wp (listEnd (hdr k)) Q E h := by
  unfold listEnd
  rw [wp_bind, wp_ASSERT (by simpa using hdr_ne_null hs)]
  exact hQ

/-- The element behind `e`, or the tail. -/
theorem next_wp (hs : Lists h hdr seq) (hseq : seq k = a ++ e :: b) {Q : Ptr → Nodes Ptr → Prop} {E : String → Nodes Ptr → Prop}
    (hQ : Q (right hdr k b) h) : wp (listNext e) Q E h := by
  have hseq' : seq k = (a ++ [e]) ++ b := by simp [hseq]
  have he : e ≠ NULL := ne_null hs (right_mem hseq)
  have hp : h.prev e ≠ NULL := prev_ne_null (k := k) hs (by simp [hseq])
  have hn := link_left hs hseq'
  rw [left_append] at hn
  have hn0 : right hdr k b ≠ NULL := ne_null hs (right_mem hseq')
  unfold listNext
  simp only [wp_bind, wp_isHead, wp_isInterior]
  rw [wp_ASSERT (by simp [he, hp, hn, hn0]), wp_getNext he, hn]
  exact hQ

/-- The element before a place. -/
theorem prev_wp (hs : Lists h hdr seq) (hseq : seq k = (a ++ [e]) ++ b) {Q : Ptr → Nodes Ptr → Prop} {E : String → Nodes Ptr → Prop}
    (hQ : Q e h) : wp (listPrev (right hdr k b)) Q E h := by
  have hr : right hdr k b ≠ NULL := ne_null hs (right_mem hseq)
  have hp := link_right hs hseq
  rw [left_append] at hp
  have he : e ≠ NULL := hp ▸ prev_ne_null (k := k) hs (by
    have : right hdr k b ∈ b ++ [tailOf (hdr k)] := right_mem_append b
    rw [List.mem_append] at this ⊢
    exact this.imp_left fun hb => by rw [hseq]; exact List.mem_append_right _ hb)
  unfold listPrev
  simp only [wp_bind, wp_isInterior, wp_isTail]
  rw [wp_ASSERT (inner_or_tail hr (hp ▸ he)), wp_getPrev hr, hp]
  exact hQ

/-- Two places of a list are one if there is nothing between them. -/
theorem right_eq_iff (hs : Lists h hdr seq) {r : List Ptr} (hseq : seq k = a ++ (r ++ b)) :
    right hdr k (r ++ b) = right hdr k b ↔ r = [] := by
  constructor
  · intro he
    cases r with
    | nil => rfl
    | cons e r =>
      have hseq' : seq k = (a ++ (e :: r)) ++ b := by simp [hseq]
      exact absurd he (ne_of_split hs hseq' (by simp [right]) (right_mem_append b))
  · intro hr
    rw [hr, List.nil_append]

theorem right_eq_tail_iff (hs : Lists h hdr seq) (hseq : seq k = a ++ b) : right hdr k b = tailOf (hdr k) ↔ b = [] := by
  have := right_eq_iff (k := k) (r := b) (b := []) hs (by rw [hseq, List.append_nil])
  rwa [List.append_nil] at this

theorem empty_wp (hs : Lists h hdr seq) {Q : Bool → Nodes Ptr → Prop} {E : String → Nodes Ptr → Prop}
    (hQ : Q (seq k).isEmpty h) : wp (listEmpty (hdr k)) Q E h := by
  have hdec : decide (right hdr k (seq k) = tailOf (hdr k)) = (seq k).isEmpty := by
    rw [Bool.eq_iff_iff, decide_eq_true_iff, right_eq_tail_iff (a := []) hs rfl, List.isEmpty_iff]
  unfold listEmpty
  rw [wp_bind]
  refine begin_wp hs ?_
  rw [wp_bind]
  refine end_wp hs ?_
  rw [wp_pure, hdec]
  exact hQ

variable [DecidableEq ι]

theorem insert_lists (hs : Lists h hdr seq) (he : Fresh hdr seq e) (hseq : seq k = a ++ b) :
    wp (listInsert (right hdr k b) e) (fun _ h' => Lists h' hdr (update seq k (a ++ e :: b)) ∧ Frame h h' (e :: nodes hdr seq k))
      noError h := by
  have hl : left hdr _ _ ∈ nodes hdr _ _ := left_mem hseq
  have hr : right hdr _ _ ∈ nodes hdr _ _ := right_mem hseq
  have hne : ∀ x ∈ nodes hdr seq k, x ≠ e := fun x hx => ne_of_mem_of_not_mem hx (he.2 k)
  refine listInsert_wp (ne_null hs hr) he.1 (link_right hs hseq) (ne_null hs hl) (hne _ hl) (hne _ hr) ⟨?_, ?_⟩
  · have := (hs.loosen he.2 he.1).paste (show [e] = e :: [] from rfl) (show [e] = [] ++ [e] from rfl) hseq
    rwa [List.append_assoc, List.singleton_append] at this
  · exact (frame_join (List.mem_cons_of_mem _ hl) List.mem_cons_self).trans (frame_join List.mem_cons_self (List.mem_cons_of_mem _ hr))

theorem pushFront_lists (hs : Lists h hdr seq) (he : Fresh hdr seq e) :
    wp (listPushFront (hdr k) e) (fun _ h' => Lists h' hdr (update seq k (e :: seq k)) ∧ Frame h h' (e :: nodes hdr seq k))
      noError h := by
  unfold listPushFront
  rw [wp_bind]
  exact begin_wp hs (insert_lists (a := []) hs he rfl)

theorem pushBack_lists (hs : Lists h hdr seq) (he : Fresh hdr seq e) :
    wp (listPushBack (hdr k) e) (fun _ h' => Lists h' hdr (update seq k (seq k ++ [e])) ∧ Frame h h' (e :: nodes hdr seq k))
      noError h := by
  unfold listPushBack
  rw [wp_bind]
  exact end_wp hs (insert_lists (b := []) hs he (List.append_nil _).symm)

theorem remove_lists (hs : Lists h hdr seq) (hseq : seq k = a ++ e :: b) :
    wp (listRemove e)
      (fun x h' => x = right hdr k b ∧ Lists h' hdr (update seq k (a ++ b)) ∧ Frame h h' (nodes hdr seq k)) noError h := by
  have hseq' : seq k = (a ++ [e]) ++ b := by simp [hseq]
  have he : e ∈ nodes hdr seq k := right_mem hseq
  have hl : left hdr _ _ ∈ nodes hdr _ _ := left_mem hseq
  have hr : right hdr _ _ ∈ nodes hdr _ _ := right_mem hseq'
  have hn := link_left hs hseq'
  rw [left_append] at hn
  have hne : e ≠ left hdr k a := (ne_of_split hs hseq (left_mem_cons a) List.mem_cons_self).symm
  exact listRemove_wp (ne_null hs he) (link_right hs hseq) (ne_null hs hl) hn (ne_null hs hr) hne
    ⟨rfl, (hs.cut hseq').drop, frame_join hl hr⟩

omit [DecidableEq ι] in
theorem front_wp (hs : Lists h hdr seq) (hseq : seq k = e :: b) {Q : Ptr → Nodes Ptr → Prop} {E : String → Nodes Ptr → Prop}
    (hQ : Q e h) : wp (listFront (hdr k)) Q E h := by
  have hn : h.next (headOf (hdr k)) = e := link_left (a := []) hs hseq
  have he : e ≠ tailOf (hdr k) := ne_of_split (a := [e]) hs hseq (by simp) (by simp)
  unfold listFront listEmpty
  simp only [wp_bind]
  refine begin_wp hs (end_wp hs ?_)
  rw [hseq, right_cons]
  rw [wp_pure, wp_ASSERT (by simpa using he), wp_getNext (head_ne_null hs), hn]
  exact hQ

omit [DecidableEq ι] in
theorem back_wp (hs : Lists h hdr seq) (hseq : seq k = a ++ [e]) {Q : Ptr → Nodes Ptr → Prop} {E : String → Nodes Ptr → Prop}
    (hQ : Q e h) : wp (listBack (hdr k)) Q E h := by
  have hp : h.prev (tailOf (hdr k)) = e := by
    have := link_right (b := []) hs (hseq.trans (List.append_nil _).symm)
    rwa [left_append] at this
  have hr : right hdr k (seq k) ≠ tailOf (hdr k) := by
    cases hc : seq k with
    | nil => simp [hseq] at hc
    | cons x b => exact ne_of_split (a := [x]) hs hc (by simp [right]) (by simp)
  have ht : tailOf (hdr k) ≠ NULL := ne_null hs (k := k) (right_mem (b := []) (List.append_nil _).symm)
  unfold listBack listEmpty
  simp only [wp_bind]
  refine begin_wp hs (end_wp hs ?_)
  rw [wp_pure, wp_ASSERT (by simpa using hr), wp_getPrev ht, hp]
  exact hQ

theorem popFront_lists (hs : Lists h hdr seq) (hseq : seq k = e :: b) :
    wp (listPopFront (hdr k)) (fun x h' => x = e ∧ Lists h' hdr (update seq k b) ∧ Frame h h' (nodes hdr seq k)) noError h := by
  unfold listPopFront
  rw [wp_bind]
  refine front_wp hs hseq ?_
  rw [wp_bind]
  exact wp_mono (remove_lists (a := []) hs hseq) (fun _ _ h => ⟨rfl, h.2⟩) fun _ _ h => h

theorem popBack_lists (hs : Lists h hdr seq) (hseq : seq k = a ++ [e]) :
    wp (listPopBack (hdr k)) (fun x h' => x = e ∧ Lists h' hdr (update seq k a) ∧ Frame h h' (nodes hdr seq k)) noError h := by
  unfold listPopBack
  rw [wp_bind]
  refine back_wp hs hseq ?_
  rw [wp_bind]
  refine wp_mono (remove_lists hs hseq) (fun _ _ h => ⟨rfl, ?_⟩) fun _ _ h => h
  rw [List.append_nil] at h
  exact h.2

/-- The elements `r` of list `j` go to the place in list `k` with `c` before and `d` behind it. -/
theorem splice_lists {j : ι} {c d : List Ptr} (hs : Lists h hdr seq) (hj : seq j = a ++ r ++ b) (hk : update seq j (a ++ b) k = c ++ d) :
    wp (listSplice (right hdr k d) (right hdr j (r ++ b)) (right hdr j b))
      (fun _ h' => Lists h' hdr (update (update seq j (a ++ b)) k (c ++ r ++ d)) ∧ Frame h h' (nodes hdr seq j ++ nodes hdr seq k))
      noError h := by
  have hsub : ∀ x ∈ update seq j (a ++ b) k, x ∈ seq k := by
    intro x hx
    by_cases hkj : k = j
    · subst hkj
      rw [Function.update_self] at hx
      rw [hj]
      simp only [List.mem_append] at hx ⊢
      tauto
    · rwa [Function.update_of_ne hkj] at hx
  have hnodes : ∀ x ∈ nodes hdr (update seq j (a ++ b)) k, x ∈ nodes hdr seq k := by
    intro x hx
    simp only [nodes, Nodes.row, List.mem_cons, List.mem_append] at hx ⊢
    exact hx.imp_right (Or.imp_left (hsub x))
  have hbefore : right hdr k d ∈ seq k ++ [tailOf (hdr k)] := by
    have : right hdr k d ∈ d ++ [tailOf (hdr k)] := right_mem_append d
    rw [List.mem_append] at this ⊢
    exact this.imp_left fun hd => hsub _ (by rw [hk]; exact List.mem_append_right _ hd)
  have hb0 : right hdr k d ≠ NULL := ne_null (k := k) hs (List.mem_cons_of_mem _ hbefore)
  have hpb := prev_ne_null hs hbefore
  cases hr : r with
  | nil =>
    have hsame : update seq j (a ++ b) = seq := by
      rw [hr, List.append_nil] at hj
      rw [← hj, Function.update_eq_self]
    unfold listSplice
    simp only [wp_bind, wp_isInterior, wp_isTail]
    rw [wp_ASSERT (inner_or_tail hb0 hpb), wp_ite, if_pos (by rw [List.nil_append])]
    rw [hsame] at hk ⊢
    rw [List.append_nil, ← hk, Function.update_eq_self]
    exact ⟨hs, fun x _ => .refl h x⟩
  | cons f r₁ =>
    obtain ⟨r₂, l, hl⟩ : ∃ r₂ l, r = r₂ ++ [l] := by
      refine ⟨r.dropLast, r.getLast (by simp [hr]), (List.dropLast_append_getLast _).symm⟩
    have hfr : f ∈ r := by simp [hr]
    have hlr : l ∈ r := by simp [hl]
    -- the places around the range, and behind its first element
    have h1 : seq j = a ++ (r ++ b) := by rw [hj, List.append_assoc]
    have h2 : seq j = (a ++ [f]) ++ (r₁ ++ b) := by rw [hj, hr]; simp
    have hfirst : right hdr j (r ++ b) = f := by rw [hr]; rfl
    have hlast : left hdr j (a ++ r) = l := by rw [hl, ← List.append_assoc, left_append]
    have hcut := hs.cut hj
    have hl1 : left hdr _ _ ∈ nodes hdr _ _ := left_mem h1
    have hl2 : right hdr _ _ ∈ nodes hdr _ _ := right_mem hj
    have hf : right hdr _ _ ∈ nodes hdr _ _ := right_mem h1
    have hle : left hdr _ _ ∈ nodes hdr _ _ := left_mem hj
    have hn := link_left hs h2
    have hp := link_right hs h1
    have hl3 := link_right hs hj
    have hl4 := link_left hs hj
    rw [left_append] at hn
    rw [hlast] at hl3 hl4 hle
    rw [hfirst] at hp hf
    have hc : left hdr _ _ ∈ nodes hdr _ _ := left_mem hk
    have hd : right hdr _ _ ∈ nodes hdr _ _ := right_mem hk
    rw [← hr, hfirst]
    refine listSplice_wp hb0 hpb (ne_of_split hs hj (by simp [hfr]) (right_mem_append b)) (ne_null hs hl2) hl3 (ne_null hs hf) hp
      (ne_null hs hl1) (hn ▸ ne_null hs (right_mem h2)) (ne_null hs hle) ?_ hl4
      (ne_of_split hs h1 (left_mem_cons a) (by simp [hlr])).symm (link_right hcut hk) (ne_null hcut hc) ?_ ?_ ⟨?_, ?_⟩
    · exact prev_ne_null (k := j) hs (by simp [hj, hlr])
    · exact fun he => hcut.looseDisj k hd (he ▸ hfr)
    · exact fun he => hcut.looseDisj k hc (he ▸ hlr)
    · exact hcut.paste hr hl hk
    · have hin : ∀ x ∈ nodes hdr seq j, x ∈ nodes hdr seq j ++ nodes hdr seq k := fun x hx => List.mem_append_left _ hx
      have hin' : ∀ x ∈ nodes hdr (update seq j (a ++ b)) k, x ∈ nodes hdr seq j ++ nodes hdr seq k :=
        fun x hx => List.mem_append_right _ (hnodes x hx)
      exact ((frame_join (hin _ hl1) (hin _ hl2)).trans (frame_join (hin' _ hc) (hin _ hf))).trans
        (frame_join (hin _ hle) (hin' _ hd))

omit [DecidableEq ι] in
/-- There are fewer elements than addresses. -/
theorem length_lt (hs : Loose h hdr seq r) : (seq k).length < 2 ^ 64 := by
  have hd := hs.nodup k
  have hinj : Function.Injective UInt64.toNat := fun _ _ => UInt64.toNat_inj.1
  have hrange : ∀ xs : List Ptr, xs.map UInt64.toNat ⊆ List.range (2 ^ 64) := fun xs n hn => by
    obtain ⟨x, -, rfl⟩ := List.mem_map.1 hn
    exact List.mem_range.2 x.toNat_lt
  have hsub := (List.subperm_of_subset (hd.map hinj) (hrange _)).length_le
  rw [List.length_map, List.length_range, Nodes.row, List.length_cons, List.length_append] at hsub
  omega

omit [DecidableEq ι] in
/-- The loop of `list_size` counts the elements behind a place. -/
theorem sizeLoop_wp (hs : Lists h hdr seq) (hseq : seq k = a ++ b) {fuel : Nat} (hf : b.length < fuel) :
    wp (listSizeLoop (hdr k) fuel (right hdr k b) (.ofNat a.length))
      (fun x h' => x = some (UInt64.ofNat (seq k).length) ∧ h' = h) noError h := by
  induction b generalizing a fuel with
  | nil =>
    obtain ⟨fuel, rfl⟩ : ∃ n, fuel = n + 1 := ⟨fuel - 1, by omega⟩
    unfold listSizeLoop
    rw [wp_bind]
    refine end_wp hs ?_
    rw [wp_ite, if_neg (by simp [right])]
    rw [List.append_nil] at hseq
    exact ⟨by rw [hseq], rfl⟩
  | cons e b ih =>
    obtain ⟨fuel, rfl⟩ : ∃ n, fuel = n + 1 := ⟨fuel - 1, by omega⟩
    have hseq' : seq k = (a ++ [e]) ++ b := by simp [hseq]
    have he : e ≠ tailOf (hdr k) := ne_of_split hs hseq' (by simp) (by simp)
    have hih := @ih _ hseq' fuel (by simp at hf; omega)
    unfold listSizeLoop
    rw [wp_bind]
    refine end_wp hs ?_
    rw [wp_ite, if_pos (by simpa [right] using he), right_cons, wp_bind]
    refine next_wp hs hseq ?_
    rwa [List.length_append, List.length_singleton, UInt64.ofNat_add] at hih

end ListM

open ListM

variable {ι : Type}

inductive ListOp (ι : Type)
  | insert (before elem : Ptr)
  | splice (before first last : Ptr)
  | pushFront (k : ι) (elem : Ptr)
  | pushBack (k : ι) (elem : Ptr)
  | remove (elem : Ptr)
  | popFront (k : ι)
  | popBack (k : ι)
  | size (k : ι)
  | empty (k : ι)

inductive ListRet
  | void
  | elem (e : Ptr)
  | size (n : UInt64)
  | bool (b : Bool)

namespace ListOp

/-- The call, where the loop of `list_size` may take `fuel` turns. -/
def exec (hdr : ι → Ptr) (fuel : Nat) : ListOp ι → ListM (Option ListRet)
  | .insert before elem => do
    listInsert before elem
    return some .void
  | .splice before first last => do
    listSplice before first last
    return some .void
  | .pushFront k elem => do
    listPushFront (hdr k) elem
    return some .void
  | .pushBack k elem => do
    listPushBack (hdr k) elem
    return some .void
  | .remove elem => do
    return some (.elem (← listRemove elem))
  | .popFront k => do
    return some (.elem (← listPopFront (hdr k)))
  | .popBack k => do
    return some (.elem (← listPopBack (hdr k)))
  | .size k => do
    return (← listSize fuel (hdr k)).map .size
  | .empty k => do
    return some (.bool (← listEmpty (hdr k)))

variable [DecidableEq ι]

/-- The operations on sequences: what a call may be asked for when the lists hold `seq`, what it returns, what the lists hold
then, and which lists it is about.  `right hdr k b` is the first element of `b`, or the tail of list `k`. -/
inductive Does (hdr : ι → Ptr) (seq : ι → List Ptr) : ListOp ι → ListRet → (ι → List Ptr) → List ι → Prop
  | insert {k a b elem} : seq k = a ++ b → Fresh hdr seq elem →
      Does hdr seq (.insert (right hdr k b) elem) .void (update seq k (a ++ elem :: b)) [k]
  -- the range `r` of list `j` goes between `c` and `d`, which are what list `k` holds without it
  | splice {j k a r b c d} : seq j = a ++ r ++ b → update seq j (a ++ b) k = c ++ d →
      Does hdr seq (.splice (right hdr k d) (right hdr j (r ++ b)) (right hdr j b)) .void
        (update (update seq j (a ++ b)) k (c ++ r ++ d)) [j, k]
  | pushFront {k elem} : Fresh hdr seq elem → Does hdr seq (.pushFront k elem) .void (update seq k (elem :: seq k)) [k]
  | pushBack {k elem} : Fresh hdr seq elem → Does hdr seq (.pushBack k elem) .void (update seq k (seq k ++ [elem])) [k]
  -- the answer is the element behind, or the tail
  | remove {k a elem b} : seq k = a ++ elem :: b → Does hdr seq (.remove elem) (.elem (right hdr k b)) (update seq k (a ++ b)) [k]
  | popFront {k e l} : seq k = e :: l → Does hdr seq (.popFront k) (.elem e) (update seq k l) [k]
  | popBack {k l e} : seq k = l ++ [e] → Does hdr seq (.popBack k) (.elem e) (update seq k l) [k]
  | size {k n} : n.toNat = (seq k).length → Does hdr seq (.size k) (.size n) seq []
  | empty {k} : Does hdr seq (.empty k) (.bool (seq k).isEmpty) seq []

end ListOp

section refine

variable [DecidableEq ι] {h : Nodes Ptr} {hdr : ι → Ptr} {seq seq' : ι → List Ptr} {op : ListOp ι} {r : ListRet} {J : List ι}

omit [DecidableEq ι] in
/-- A call that only changes the nodes in `l`, and those are none of the other lists. -/
private theorem refine_of_wp {l : List Ptr} (hf : ∀ fuel, op.exec hdr fuel = op.exec hdr 0)
    (hw : wp (op.exec hdr 0) (fun x h' => x = some r ∧ Lists h' hdr seq' ∧ Frame h h' l) noError h)
    (hJ : ∀ k ∉ J, seq' k = seq k ∧ ∀ e ∈ nodes hdr seq k, e ∉ l) :
    ∃ h', (∃ n, ∀ fuel ≥ n, op.exec hdr fuel h = .ok (some r) h') ∧ Lists h' hdr seq' ∧
      ∀ k ∉ J, seq' k = seq k ∧ ∀ e ∈ nodes hdr seq k, Nodes.Agree h h' e := by
  unfold wp at hw
  cases hx : op.exec hdr 0 h with
  | ok x h' =>
    rw [hx] at hw
    obtain ⟨rfl, hs', hfr⟩ := hw
    exact ⟨h', ⟨0, fun fuel _ => by rw [hf, hx]⟩, hs', fun k hk => ⟨(hJ k hk).1, fun e he => hfr e ((hJ k hk).2 e he)⟩⟩
  | error msg h' =>
    rw [hx] at hw
    exact hw.elim

/-- A list that is not `k` has none of the nodes of `k`, nor a fresh one. -/
private theorem others {k : ι} {l : List Ptr} (hs : Lists h hdr seq) (l' : List Ptr)
    (hl : ∀ e ∈ l, e ∈ nodes hdr seq k ∨ Fresh hdr seq e) :
    ∀ i ∉ [k], update seq k l' i = seq i ∧ ∀ e ∈ nodes hdr seq i, e ∉ l := by
  intro i hi
  rw [List.mem_singleton] at hi
  refine ⟨Function.update_of_ne hi .., fun e he hel => ?_⟩
  rcases hl e hel with h1 | h1
  · exact hs.disj i k hi he h1
  · exact h1.2 i he

omit [DecidableEq ι] in
private theorem fresh_or {k : ι} {e : Ptr} (he : Fresh hdr seq e) : ∀ x ∈ e :: nodes hdr seq k, x ∈ nodes hdr seq k ∨ Fresh hdr seq x := by
  intro x hx
  rcases List.mem_cons.1 hx with rfl | hx
  · exact .inr he
  · exact .inl hx

/-- The operations of `list.c` refine those on sequences: called for lists that hold `seq`, an operation returns without an error,
and afterwards there are the lists that it promises.  Of the other lists no node has changed. -/
theorem lists_refine (hs : Lists h hdr seq) (hop : op.Does hdr seq r seq' J) :
    ∃ h', (∃ n, ∀ fuel ≥ n, op.exec hdr fuel h = .ok (some r) h') ∧ Lists h' hdr seq' ∧
      ∀ k ∉ J, seq' k = seq k ∧ ∀ e ∈ nodes hdr seq k, Nodes.Agree h h' e := by
  cases hop with
  | insert hseq he =>
    refine refine_of_wp (fun _ => rfl) ?_ (others hs _ (fresh_or he))
    simp only [ListOp.exec, wp_bind, wp_pure]
    exact wp_mono (insert_lists hs he hseq) (fun _ _ h => ⟨trivial, h⟩) fun _ _ h => h
  | @splice j k a r b c d hj hk =>
    refine refine_of_wp (l := nodes hdr seq j ++ nodes hdr seq k) (fun _ => rfl) ?_ fun i hi => ?_
    · simp only [ListOp.exec, wp_bind, wp_pure]
      exact wp_mono (splice_lists hs hj hk) (fun _ _ h => ⟨trivial, h⟩) fun _ _ h => h
    · obtain ⟨hij, hik⟩ : i ≠ j ∧ i ≠ k := by simpa using hi
      refine ⟨by rw [Function.update_of_ne hik, Function.update_of_ne hij], fun e he hl => ?_⟩
      rcases List.mem_append.1 hl with hl | hl
      · exact hs.disj i j hij he hl
      · exact hs.disj i k hik he hl
  | pushFront he =>
    refine refine_of_wp (fun _ => rfl) ?_ (others hs _ (fresh_or he))
    simp only [ListOp.exec, wp_bind, wp_pure]
    exact wp_mono (pushFront_lists hs he) (fun _ _ h => ⟨trivial, h⟩) fun _ _ h => h
  | pushBack he =>
    refine refine_of_wp (fun _ => rfl) ?_ (others hs _ (fresh_or he))
    simp only [ListOp.exec, wp_bind, wp_pure]
    exact wp_mono (pushBack_lists hs he) (fun _ _ h => ⟨trivial, h⟩) fun _ _ h => h
  | remove hseq =>
    refine refine_of_wp (fun _ => rfl) ?_ (others hs _ fun _ => .inl)
    simp only [ListOp.exec, wp_bind, wp_pure]
    exact wp_mono (remove_lists hs hseq) (fun _ _ h => ⟨by rw [h.1], h.2⟩) fun _ _ h => h
  | popFront hseq =>
    refine refine_of_wp (fun _ => rfl) ?_ (others hs _ fun _ => .inl)
    simp only [ListOp.exec, wp_bind, wp_pure]
    exact wp_mono (popFront_lists hs hseq) (fun _ _ h => ⟨by rw [h.1], h.2⟩) fun _ _ h => h
  | popBack hseq =>
    refine refine_of_wp (fun _ => rfl) ?_ (others hs _ fun _ => .inl)
    simp only [ListOp.exec, wp_bind, wp_pure]
    exact wp_mono (popBack_lists hs hseq) (fun _ _ h => ⟨by rw [h.1], h.2⟩) fun _ _ h => h
  | @size k n hn =>
    refine ⟨h, ⟨(seq k).length + 1, fun fuel hf => ?_⟩, hs, fun _ _ => ⟨rfl, fun _ _ => .refl h _⟩⟩
    have hw : wp (listSize fuel (hdr k)) (fun x h' => x = some (UInt64.ofNat (seq k).length) ∧ h' = h) noError h := by
      unfold listSize
      rw [wp_bind]
      exact begin_wp hs (sizeLoop_wp (a := []) hs rfl (by omega))
    have hr : UInt64.ofNat (seq k).length = n := by
      rw [← UInt64.toNat_inj, UInt64.toNat_ofNat', hn]
      exact Nat.mod_eq_of_lt (length_lt hs)
    unfold wp at hw
    simp only [ListOp.exec, bind, EStateM.bind]
    cases hx : listSize fuel (hdr k) h with
    | ok x h' =>
      rw [hx] at hw
      obtain ⟨rfl, rfl⟩ := hw
      rw [hr]
      rfl
    | error msg h' =>
      rw [hx] at hw
      exact hw.elim
  | empty =>
    refine refine_of_wp (l := []) (fun _ => rfl) ?_ fun _ _ => ⟨rfl, fun _ _ => List.not_mem_nil⟩
    simp only [ListOp.exec, wp_bind, wp_pure]
    exact empty_wp hs ⟨rfl, hs, fun x _ => .refl h x⟩

end refine

/-- Two lists, with two elements and with one. -/
def twoLists : Nodes Ptr where
  next x := if x = 1000 then 100 else if x = 100 then 200 else if x = 200 then 1016 else if x = 2000 then 300 else
    if x = 300 then 2016 else 0
  prev x := if x = 1016 then 200 else if x = 200 then 100 else if x = 100 then 1000 else if x = 2016 then 300 else
    if x = 300 then 2000 else 0

theorem twoLists_lists : Lists twoLists (fun k : Fin 2 => if k = 0 then 1000 else 2000) fun k => if k = 0 then [100, 200] else [300] where
  path := by
    refine Fin.forall_fin_two.2 ⟨?_, ?_⟩ <;> simp [Nodes.Path, Nodes.row, Nodes.Link, twoLists, headOf, tailOf]
  nodup := by decide
  disj := by
    refine Fin.forall_fin_two.2 ⟨Fin.forall_fin_two.2 ⟨fun h => (h rfl).elim, fun _ => ?_⟩,
      Fin.forall_fin_two.2 ⟨fun _ => ?_, fun h => (h rfl).elim⟩⟩ <;> simp [Nodes.row, headOf, tailOf]
  first := by decide
  last := by decide
  notNull := by decide
  loosePath := .nil
  looseNodup := List.nodup_nil
  looseDisj := fun _ => List.disjoint_nil_right _
  looseNotNull := List.not_mem_nil

/-- The first element of a list goes before that of another one. -/
theorem lists_refine_splice : ∃ h', (∃ n, ∀ fuel ≥ n,
    (ListOp.splice 300 100 200 : ListOp (Fin 2)).exec (fun k => if k = 0 then 1000 else 2000) fuel twoLists = .ok (some .void) h') ∧
      Lists h' (fun k : Fin 2 => if k = 0 then 1000 else 2000) (fun k => if k = 0 then [200] else [100, 300]) := by
  obtain ⟨h', hn, hs, -⟩ := lists_refine twoLists_lists
    (.splice (j := 0) (k := 1) (a := []) (r := [100]) (b := [200]) (c := []) (d := [300]) rfl rfl)
  refine ⟨h', hn, ?_⟩
  convert hs using 1
  funext k
  revert k
  decide

end Xv6
