import CoreX.Base.Chain
import CoreX.Ext2.Cache
import Mathlib.Data.List.Perm.Subperm

/-!
# Adding to the block cache

The objects of a file's list are sorted by their first block (`Shape`). A new entry cuts the list in three: the
objects that start before it, in its range, and behind. If the first loop finds one in the range, all of them are
removed and the call is repeated. The second loop finds the place between the two parts that are left.
-/

namespace CoreX.Ext2.Cache

open Chain List Option Nat Function

def prevs (heap : Nat → CacheObject) (a : Nat) : Option Nat := (heap a).prev

def nexts (heap : Nat → CacheObject) (a : Nat) : Option Nat := (heap a).next

structure Shape (global : FoundObject) (nodes : List Nat) : Prop where
  first : global.firstCacheObj = nodes.head?
  stretch : Stretch (prevs global.heap) (nexts global.heap) none nodes none
  live : nodes ⊆ global.live
  sorted : nodes.Pairwise fun a b => (global.heap a).blockIndex < (global.heap b).blockIndex

def entriesOf (heap : Nat → CacheObject) (nodes : List Nat) : List Entry := nodes.map fun a => (heap a).toEntry

section Shape
variable {global : FoundObject} {nodes : List Nat}

theorem Shape.nodup (h : Shape global nodes) : nodes.Nodup :=
  h.sorted.imp fun hlt heq => by
    rw [heq] at hlt
    omega

theorem Shape.length_le (h : Shape global nodes) : nodes.length ≤ global.live.length :=
  (subperm_of_subset h.nodup h.live).length_le

theorem entriesOf_congr {heap heap' : Nat → CacheObject} (h : ∀ a ∈ nodes, (heap' a).toEntry = (heap a).toEntry) :
    entriesOf heap' nodes = entriesOf heap nodes := map_congr_left h

theorem walk_eq {heap : Nat → CacheObject} {b : Option Nat} (h : Stretch (prevs heap) (nexts heap) b nodes none)
    {fuel : Nat} (hfuel : nodes.length ≤ fuel) : walk heap fuel nodes.head? = entriesOf heap nodes := by
  induction nodes generalizing b fuel with
  | nil => cases fuel <;> rfl
  | cons a nodes ih =>
    obtain ⟨fuel, rfl⟩ : ∃ k, fuel = k + 1 := ⟨fuel - 1, by rw [length_cons] at hfuel; omega⟩
    have hnext : (heap a).next = nodes.head? := h.2.1.trans (or_none)
    rw [head?_cons, walk, hnext, ih h.2.2 (le_of_succ_le_succ hfuel)]
    rfl

theorem Shape.entries_eq (h : Shape global nodes) : global.entries = entriesOf global.heap nodes := by
  rw [FoundObject.entries, h.first]
  exact walk_eq h.stretch h.length_le

end Shape

section Loops
variable {heap : Nat → CacheObject} {entry : Entry} {b : Option Nat} {as bs : List Nat} {a blockIndex : Nat}

theorem inRange_of_lt (h : (heap a).blockIndex < entry.blockIndex) : inRange (heap a) entry = .ok false :=
  if_neg (by omega)

theorem inRange_of_le (h : entry.blockIndex ≤ (heap a).blockIndex) (hsum : entry.blockIndex + entry.blocks < 2 ^ 64) :
    inRange (heap a) entry = .ok (decide ((heap a).blockIndex < entry.blockIndex + entry.blocks)) := by
  rw [inRange, if_pos h, if_neg (by omega)]

theorem catchLoop_none (fuel : Nat) (lastCaught : Option Nat) :
    catchLoop heap entry fuel none lastCaught = .ok (none, lastCaught) := by
  cases fuel <;> rfl

theorem catchLoop_skip (h : Stretch (prevs heap) (nexts heap) b (as ++ bs) none)
    (hskip : ∀ a ∈ as, inRange (heap a) entry = .ok false) (fuel : Nat) (lastCaught : Option Nat) :
    catchLoop heap entry (as.length + fuel) (as ++ bs).head? lastCaught =
      catchLoop heap entry fuel bs.head? (as.getLast?.or lastCaught) := by
  induction as generalizing b lastCaught with
  | nil => rw [length_nil, zero_add, nil_append, getLast?_nil, none_or]
  | cons a as ih =>
    obtain ⟨ha, has⟩ := forall_mem_cons.1 hskip
    have hnext : (heap a).next = (as ++ bs).head? := h.2.1.trans (or_none)
    rw [length_cons, add_right_comm, cons_append, head?_cons, catchLoop, ha, ok_bind, hnext, getLast?_cons_or]
    exact ih h.2.2 has (some a)

theorem browseLoop_none (blockIndex fuel : Nat) (allAreSmaller : Bool) :
    browseLoop heap blockIndex fuel none allAreSmaller = .ok (none, allAreSmaller) := by
  cases fuel <;> rfl

section
variable (h : Stretch (prevs heap) (nexts heap) b (as ++ bs) none)
include h

theorem browseLoop_skip (hskip : ∀ a ∈ as, (heap a).blockIndex < blockIndex) (fuel : Nat) (allAreSmaller : Bool) :
    browseLoop heap blockIndex (as.length + fuel) (as ++ bs).head? allAreSmaller =
      browseLoop heap blockIndex fuel bs.head? (allAreSmaller || !as.isEmpty) := by
  induction as generalizing b allAreSmaller with
  | nil => rw [length_nil, zero_add, nil_append, isEmpty_nil, Bool.not_true, Bool.or_false]
  | cons a as ih =>
    obtain ⟨ha, has⟩ := forall_mem_cons.1 hskip
    have hnext : (heap a).next = (as ++ bs).head? := h.2.1.trans (or_none)
    rw [length_cons, add_right_comm, cons_append, head?_cons, browseLoop, if_pos ha, hnext, ih h.2.2 has true]
    simp

theorem browseLoop_stop (hbelow : ∀ a ∈ as, (heap a).blockIndex < blockIndex)
    (hbehind : ∀ a ∈ bs, blockIndex < (heap a).blockIndex) {fuel : Nat} (hfuel : (as ++ bs).length ≤ fuel) :
    browseLoop heap blockIndex fuel (as ++ bs).head? false =
      .ok (if bs = [] then none else as.getLast?.or b, !as.isEmpty) := by
  obtain ⟨k, rfl⟩ := Nat.exists_eq_add_of_le hfuel
  rw [length_append, add_assoc, browseLoop_skip h hbelow, Bool.false_or]
  cases bs with
  | nil => rw [head?_nil, browseLoop_none, if_pos rfl]
  | cons c bs =>
    have hc := hbehind c mem_cons_self
    have hprev : (heap c).prev = as.getLast?.or b := (stretch_append.1 h).2.1
    rw [head?_cons, length_cons, add_right_comm, browseLoop, if_neg (by omega), if_neg (by omega), hprev,
      if_neg (cons_ne_nil c bs)]

end

end Loops

/-! ## Setting links -/

section Links
variable (global : FoundObject) (a x : Nat) (p : Option Nat) {β : Type}

theorem field_update (field : CacheObject → β) (heap : Nat → CacheObject) (o : CacheObject) :
    field (update heap a o x) = if x = a then field o else field (heap x) := by
  rw [update_apply, apply_ite field]

theorem field_update_of_eq (field : CacheObject → β) {heap : Nat → CacheObject} {o : CacheObject}
    (h : field o = field (heap a)) : field (update heap a o x) = field (heap x) := by
  rw [field_update a x field]
  split
  · next hx => rw [h, hx]
  · rfl

@[simp] theorem setPrev_prev : ((global.setPrev a p).heap x).prev = if x = a then p else (global.heap x).prev :=
  field_update a x CacheObject.prev ..

@[simp] theorem setPrev_next : ((global.setPrev a p).heap x).next = (global.heap x).next :=
  field_update_of_eq a x CacheObject.next rfl

@[simp] theorem setPrev_toEntry : ((global.setPrev a p).heap x).toEntry = (global.heap x).toEntry :=
  field_update_of_eq a x CacheObject.toEntry rfl

@[simp] theorem setNext_prev : ((global.setNext a p).heap x).prev = (global.heap x).prev :=
  field_update_of_eq a x CacheObject.prev rfl

@[simp] theorem setNext_next : ((global.setNext a p).heap x).next = if x = a then p else (global.heap x).next :=
  field_update a x CacheObject.next ..

@[simp] theorem setNext_toEntry : ((global.setNext a p).heap x).toEntry = (global.heap x).toEntry :=
  field_update_of_eq a x CacheObject.toEntry rfl

@[simp] theorem setPrev_live : (global.setPrev a p).live = global.live := rfl

@[simp] theorem setNext_live : (global.setNext a p).live = global.live := rfl

@[simp] theorem setPrev_firstCacheObj : (global.setPrev a p).firstCacheObj = global.firstCacheObj := rfl

@[simp] theorem setNext_firstCacheObj : (global.setNext a p).firstCacheObj = global.firstCacheObj := rfl

@[simp] theorem setPrev_blocksCached : (global.setPrev a p).blocksCached = global.blocksCached := rfl

@[simp] theorem setNext_blocksCached : (global.setNext a p).blocksCached = global.blocksCached := rfl

end Links

/-- The links are set so that `p` points on to `f` and `n` back to `g`, where `none` is the start of the list. -/
structure Relinked (global global' : FoundObject) (p n f g : Option Nat) (t : Nat) (live : List Nat)
    (blocksCached : Nat) : Prop where
  prev : ∀ x, x ≠ t → (global'.heap x).prev = if n = some x then g else (global.heap x).prev
  next : ∀ x, x ≠ t → (global'.heap x).next = if p = some x then f else (global.heap x).next
  toEntry : ∀ x, (global'.heap x).toEntry = (global.heap x).toEntry
  first : global'.firstCacheObj = if p = none then f else global.firstCacheObj
  live : global'.live = live
  blocksCached : global'.blocksCached = blocksCached

theorem removeObj_relinked {global : FoundObject} {t : Nat} {p n : Option Nat} (hp : (global.heap t).prev = p)
    (hn : (global.heap t).next = n) : Relinked global (removeObj global t) p n n p t (global.live.erase t)
      (global.blocksCached - (global.heap t).blocks) := by
  unfold removeObj unlink
  simp only [hp, hn]
  cases p with
  | none =>
    cases n with
    | none => constructor <;> simp
    | some n => constructor <;> simp [eq_comm]
  | some p =>
    cases n with
    | none | some => constructor <;> simp [eq_comm]

theorem insertTarget_relinked {global : FoundObject} {t : Nat} {p n browse lastCaught : Option Nat}
    {allAreSmaller : Bool} (htprev : (global.heap t).prev = none) (htnext : (global.heap t).next = none)
    (hp : p ≠ some t) (hn : n ≠ some t)
    (hfirst : if p = none then global.firstCacheObj = n else global.firstCacheObj ≠ none)
    (hnext : ∀ a, p = some a → (global.heap a).next = n) (hbrowse : browse = if n = none then none else p)
    (hsmaller : allAreSmaller = p.isSome) (hlast : n = none → lastCaught = p) :
    ∃ global', insertTarget global t browse lastCaught allAreSmaller = .ok global' ∧
      Relinked global global' p n (some t) (some t) t global.live global.blocksCached ∧
      (global'.heap t).prev = p ∧ (global'.heap t).next = n := by
  subst hbrowse hsmaller
  cases p with
  | none =>
    rw [if_pos rfl] at hfirst
    cases n with
    | none =>
      refine ⟨{ global with firstCacheObj := some t }, by simp only [insertTarget, hfirst], ?_, htprev, htnext⟩
      constructor <;> simp
    | some n =>
      have hne : t ≠ n := fun h => hn (congrArg some h.symm)
      refine ⟨{ global.setNext t (some n) with firstCacheObj := some t }.setPrev n (some t),
        by simp only [insertTarget, hfirst, ite_self, isSome_none], ?_, ?_, ?_⟩
      · constructor <;> simp +contextual [eq_comm]
      · simp [hne, htprev]
      · simp
  | some p =>
    rw [if_neg (some_ne_none p)] at hfirst
    obtain ⟨first, hfirst⟩ := ne_none_iff_exists'.1 hfirst
    have hne : t ≠ p := fun h => hp (congrArg some h.symm)
    cases n with
    | none =>
      refine ⟨(global.setNext p (some t)).setPrev t (some p),
        by simp only [insertTarget, hfirst, hlast rfl, if_pos, isSome_some], ?_, ?_, ?_⟩
      · constructor <;> simp +contextual [eq_comm]
      · simp
      · simp [hne, htnext]
    | some n =>
      have hne' : t ≠ n := fun h => hn (congrArg some h.symm)
      refine ⟨(((global.setNext p (some t)).setPrev t (some p)).setNext t (some n)).setPrev n (some t),
        by simp only [insertTarget, hfirst, hnext, if_neg (some_ne_none n)], ?_, ?_, ?_⟩
      · constructor <;> simp +contextual [eq_comm]
      · simp [hne']
      · simp

/-! ## The list after a change -/

section Change
variable {global global' : FoundObject} {entry : Entry} {as bs cs mid : List Nat} {t : Nat} {blockSize : Nat}

theorem sorted_congr {heap heap' : Nat → CacheObject} {nodes : List Nat}
    (hsorted : nodes.Pairwise fun a b => (heap a).blockIndex < (heap b).blockIndex)
    (h : ∀ a ∈ nodes, (heap' a).toEntry = (heap a).toEntry) :
    nodes.Pairwise fun a b => (heap' a).blockIndex < (heap' b).blockIndex := by
  refine hsorted.imp_of_mem fun {a b} ha hb hlt => ?_
  rwa [h a ha, h b hb]

theorem Shape.removeObj (h : Shape global (as ++ t :: bs)) : Shape (removeObj global t) (as ++ bs) := by
  obtain ⟨hnotMem, hnodup⟩ := nodup_cons.1 (nodup_middle.1 h.nodup)
  obtain ⟨-, hprev, hnext, -⟩ := stretch_append.1 h.stretch
  rw [or_none] at hprev hnext
  have hlink := removeObj_relinked hprev hnext
  have hne : ∀ x ∈ as ++ bs, x ≠ t := fun x hx hxt => hnotMem (hxt ▸ hx)
  refine ⟨?_, ?_, fun x hx => ?_, ?_⟩
  · rw [hlink.first, h.first]
    cases as with
    | nil => rfl
    | cons a as =>
      rw [if_neg (by simp)]
      rfl
  · refine h.stretch.remove hnodup (fun x hx => ?_) fun x hx => ?_
    · rw [or_none]
      exact hlink.prev x (hne x hx)
    · rw [or_none]
      exact hlink.next x (hne x hx)
  · rw [hlink.live]
    refine (mem_erase_of_ne (hne x hx)).2 (h.live ?_)
    rw [mem_append, mem_cons]
    rcases mem_append.1 hx with hx | hx
    · exact .inl hx
    · exact .inr (.inr hx)
  · exact sorted_congr (h.sorted.sublist ((sublist_cons_self t bs).append_left as)) fun a _ =>
      hlink.toEntry a

def withTarget (global : FoundObject) (entry : Entry) (t : Nat) : FoundObject :=
  ⟨Function.update global.heap t ⟨entry, none, none⟩, t :: global.live, global.firstCacheObj,
    global.blocksCached + entry.blocks⟩

theorem withTarget_of_ne {x : Nat} (hx : x ≠ t) : (withTarget global entry t).heap x = global.heap x :=
  update_of_ne hx ..

theorem withTarget_self : (withTarget global entry t).heap t = ⟨entry, none, none⟩ := update_self ..

theorem Shape.insert (h : Shape global (as ++ bs)) (ht : t ∉ global.live)
    (hbelow : ∀ a ∈ as, (global.heap a).blockIndex < entry.blockIndex)
    (hbehind : ∀ b ∈ bs, entry.blockIndex < (global.heap b).blockIndex)
    (hlink : Relinked (withTarget global entry t) global' as.getLast? bs.head? (some t) (some t) t
      (t :: global.live) (global.blocksCached + entry.blocks))
    (hprev : (global'.heap t).prev = as.getLast?) (hnext : (global'.heap t).next = bs.head?) :
    Shape global' (as ++ t :: bs) ∧
      entriesOf global'.heap (as ++ t :: bs) = entriesOf global.heap as ++ entry :: entriesOf global.heap bs := by
  have hne : ∀ x ∈ as ++ bs, x ≠ t := fun x hx hxt => ht (hxt ▸ h.live hx)
  have hentry : ∀ x ∈ as ++ bs, (global'.heap x).toEntry = (global.heap x).toEntry := fun x hx => by
    rw [hlink.toEntry, withTarget_of_ne (hne x hx)]
  have hentry' : (global'.heap t).toEntry = entry := by rw [hlink.toEntry, withTarget_self]
  obtain ⟨hentries, hentries'⟩ := forall_mem_append.1 hentry
  refine ⟨⟨?_, ?_, ?_, ?_⟩, ?_⟩
  · rw [hlink.first]
    cases as with
    | nil => rfl
    | cons a as =>
      rw [if_neg (by simp)]
      exact h.first
  · refine h.stretch.insert h.nodup ?_ ?_ (fun x hx => ?_) fun x hx => ?_
    · rw [or_none]
      exact hprev
    · rw [or_none]
      exact hnext
    · exact (hlink.prev x (hne x hx)).trans (by rw [withTarget_of_ne (hne x hx)]; rfl)
    · exact (hlink.next x (hne x hx)).trans (by rw [withTarget_of_ne (hne x hx)]; rfl)
  · rw [hlink.live]
    intro x hx
    rw [mem_append, mem_cons] at hx
    rcases hx with hx | rfl | hx
    · exact mem_cons_of_mem _ (h.live (mem_append_left _ hx))
    · exact mem_cons_self
    · exact mem_cons_of_mem _ (h.live (mem_append_right _ hx))
  · obtain ⟨hsorted, hsorted', hacross⟩ := pairwise_append.1 (sorted_congr h.sorted hentry)
    rw [pairwise_append, pairwise_cons]
    refine ⟨hsorted, ⟨fun b hb => ?_, hsorted'⟩, fun a ha b hb => ?_⟩
    · rw [hentry', hentries' b hb]
      exact hbehind b hb
    · rcases mem_cons.1 hb with rfl | hb
      · rw [hentry', hentries a ha]
        exact hbelow a ha
      · exact hacross a ha b hb
  · rw [entriesOf, map_append, map_cons, hentry']
    exact congrArg₂ (· ++ entry :: ·) (entriesOf_congr hentries) (entriesOf_congr hentries')

theorem getLast?_or_head? (nodes : List Nat) : nodes.getLast?.or nodes.head? = nodes.getLast? := by
  cases nodes with
  | nil => rfl
  | cons a nodes =>
    rw [getLast?_cons]
    rfl

theorem insertTarget_eq (h : Shape global (as ++ bs)) (ht : t ∉ global.live) :
    ∃ global', insertTarget (withTarget global entry t) t (if bs = [] then none else as.getLast?.or none)
        (as ++ bs).getLast? (!as.isEmpty) = .ok global' ∧
      Relinked (withTarget global entry t) global' as.getLast? bs.head? (some t) (some t) t
        (t :: global.live) (global.blocksCached + entry.blocks) ∧
      (global'.heap t).prev = as.getLast? ∧ (global'.heap t).next = bs.head? := by
  have hne : ∀ x ∈ as ++ bs, x ≠ t := fun x hx hxt => ht (hxt ▸ h.live hx)
  have hmem : ∀ {x}, as.getLast? = some x → x ∈ as ++ bs := fun hx => mem_append_left _ (mem_of_getLast? hx)
  refine insertTarget_relinked (by rw [withTarget_self]) (by rw [withTarget_self]) ?_ ?_ ?_ ?_ ?_ ?_ ?_
  · exact fun hlast => hne t (hmem hlast) rfl
  · exact fun hhead => hne t (mem_append_right _ (mem_of_head? hhead)) rfl
  · have hfirst : (withTarget global entry t).firstCacheObj = (as ++ bs).head? := h.first
    rw [hfirst]
    cases as with
    | nil | cons => simp
  · intro a ha
    rw [withTarget_of_ne (hne a (hmem ha))]
    obtain ⟨init, rfl⟩ := getLast?_eq_some_iff.1 ha
    have hstretch := h.stretch
    rw [append_assoc] at hstretch
    obtain ⟨-, -, hnext, -⟩ := stretch_append.1 hstretch
    rwa [or_none] at hnext
  · rw [or_none]
    cases bs with
    | nil | cons => simp
  · cases as with
    | nil => rfl
    | cons a as => simp
  · intro hhead
    rw [head?_eq_none_iff.1 hhead, append_nil]

section
variable (alloc : Allocator) (h : Shape global (as ++ bs))
  (hbelow : ∀ a ∈ as, (global.heap a).blockIndex < entry.blockIndex)
  (hbehind : ∀ b ∈ bs, entry.blockIndex < (global.heap b).blockIndex)
include h hbelow hbehind

theorem addNew_eq (hcount : global.blocksCached + entry.blocks < 2 ^ 64) :
    ∃ global' nodes, addNew alloc global entry (as ++ bs).getLast? = .ok global' ∧ Shape global' nodes ∧
      entriesOf global'.heap nodes = entriesOf global.heap as ++ entry :: entriesOf global.heap bs ∧
      global'.blocksCached = global.blocksCached + entry.blocks := by
  have ht := alloc.fresh global.live
  obtain ⟨global', hinsert, hlink, hprev, hnext⟩ := insertTarget_eq h ht
  obtain ⟨hshape, hentries⟩ := h.insert ht hbelow hbehind hlink hprev hnext
  refine ⟨global', _, ?_, hshape, hentries, hlink.blocksCached⟩
  rw [addNew, h.first, browseLoop_stop h.stretch hbelow hbehind h.length_le, ok_bind]
  simp only
  rw [if_neg (by omega)]
  rw [← hinsert, withTarget, h.first]

end

/-! ## Removing what is in the range -/

def Freeable (blockSize : Nat) (entry : Entry) : Prop :=
  entry.blocks + 1 < 2 ^ 64 ∧ (entry.blocks + 1) * blockSize + 4096 < 2 ^ 64

instance (blockSize : Nat) (entry : Entry) : Decidable (Freeable blockSize entry) :=
  inferInstanceAs (Decidable (_ ∧ _))

theorem removeLoop_step (hsum : entry.blockIndex + entry.blocks < 2 ^ 64)
    (hrange : entry.blockIndex ≤ (global.heap t).blockIndex ∧ (global.heap t).blockIndex < entry.blockIndex + entry.blocks)
    (hfree : Freeable blockSize (global.heap t).toEntry) (hcached : (global.heap t).blocks ≤ global.blocksCached)
    (fuel : Nat) : removeLoop blockSize entry (fuel + 1) global (some t) =
      removeLoop blockSize entry fuel (removeObj global t) (global.heap t).next := by
  have hpages : ¬((global.heap t).blocks + 1 ≥ 2 ^ 64 ∨ ((global.heap t).blocks + 1) * blockSize + 4096 ≥ 2 ^ 64) := by
    rw [not_or, not_le, not_le]
    exact hfree
  rw [removeLoop, inRange_of_le hrange.1 hsum, decide_eq_true hrange.2, ok_bind, if_pos rfl, buffPages,
    if_neg hpages, ok_bind, if_neg (not_lt.2 hcached)]

theorem removeLoop_skip (h : Shape global (as ++ (mid ++ bs))) (hsum : entry.blockIndex + entry.blocks < 2 ^ 64)
    (hrange : ∀ a ∈ mid, entry.blockIndex ≤ (global.heap a).blockIndex ∧ (global.heap a).blockIndex < entry.blockIndex + entry.blocks)
    (hfree : ∀ a ∈ mid, Freeable blockSize (global.heap a).toEntry)
    (hcached : total (entriesOf global.heap mid) ≤ global.blocksCached) (fuel : Nat) :
    ∃ global', removeLoop blockSize entry (mid.length + fuel) global (mid ++ bs).head? =
        removeLoop blockSize entry fuel global' bs.head? ∧
      Shape global' (as ++ bs) ∧ (∀ x, (global'.heap x).toEntry = (global.heap x).toEntry) ∧
      global'.blocksCached + total (entriesOf global.heap mid) = global.blocksCached := by
  induction mid generalizing global with
  | nil => exact ⟨global, by rw [length_nil, zero_add, nil_append], h, fun _ => rfl, rfl⟩
  | cons m mid ih =>
    obtain ⟨hrange, hranges⟩ := forall_mem_cons.1 hrange
    obtain ⟨hfree, hfrees⟩ := forall_mem_cons.1 hfree
    have htotal : total (entriesOf global.heap (m :: mid)) =
        (global.heap m).blocks + total (entriesOf global.heap mid) := rfl
    obtain ⟨-, hprev, hnext, -⟩ := stretch_append.1 h.stretch
    rw [or_none] at hprev hnext
    have hlink := removeObj_relinked hprev hnext
    have hentries : entriesOf (removeObj global m).heap mid = entriesOf global.heap mid :=
      entriesOf_congr fun x _ => hlink.toEntry x
    obtain ⟨global', hloop, hshape', hentry', hcount'⟩ := ih h.removeObj
      (fun a ha => by rw [hlink.toEntry]; exact hranges a ha)
      (fun a ha => by rw [hlink.toEntry]; exact hfrees a ha)
      (by rw [hentries, hlink.blocksCached]; omega)
    refine ⟨global', ?_, hshape', fun x => (hentry' x).trans (hlink.toEntry x), ?_⟩
    · rw [← hloop, length_cons, add_right_comm, cons_append, head?_cons,
        removeLoop_step hsum hrange hfree (by omega)]
      exact congrArg _ hnext
    · rw [hentries, hlink.blocksCached] at hcount'
      omega

theorem removeLoop_stop {fuel : Nat} (hsum : entry.blockIndex + entry.blocks < 2 ^ 64)
    (hbehind : ∀ a ∈ bs, entry.blockIndex + entry.blocks ≤ (global.heap a).blockIndex) (hfuel : bs.length ≤ fuel) :
    removeLoop blockSize entry fuel global bs.head? = .ok global := by
  cases bs with
  | nil => cases fuel <;> rfl
  | cons b bs =>
    have hb := hbehind b mem_cons_self
    obtain ⟨k, rfl⟩ := Nat.exists_eq_add_of_le' hfuel
    rw [head?_cons, length_cons, ← add_assoc, removeLoop, inRange_of_le (by omega) hsum,
      decide_eq_false (by omega), ok_bind]
    rfl

theorem removeLoop_overflow (hsum : entry.blockIndex + entry.blocks < 2 ^ 64)
    (hrange : entry.blockIndex ≤ (global.heap t).blockIndex ∧ (global.heap t).blockIndex < entry.blockIndex + entry.blocks)
    (hfree : ¬ Freeable blockSize (global.heap t).toEntry) (fuel : Nat) :
    removeLoop blockSize entry (fuel + 1) global (some t) = .error .overflow := by
  have hpages : (global.heap t).blocks + 1 ≥ 2 ^ 64 ∨ ((global.heap t).blocks + 1) * blockSize + 4096 ≥ 2 ^ 64 := by
    by_contra hnot
    rw [not_or, not_le, not_le] at hnot
    exact hfree hnot
  rw [removeLoop, inRange_of_le hrange.1 hsum, decide_eq_true hrange.2, ok_bind, if_pos rfl, buffPages, if_pos hpages]
  rfl

end Change

end CoreX.Ext2.Cache
