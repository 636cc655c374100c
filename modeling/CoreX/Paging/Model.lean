import CoreX.Base.Radix
import CoreX.Base.Run
import Mathlib.Algebra.Ring.Nat

/-!
# Four-level page tables (`memory/paging.rs`)

Memory is a function from pointers to 64-bit words; a table is a pointer to 512 of them. Physical memory is
reached through the window at `hhdmOffset`. Words are `BitVec 64`, so all address arithmetic wraps.

`PhysicalAllocate` is a parameter: the state carries the list of the frames that it will return, in order.
A call when the list is empty does not return (`physical_allocate` panics when memory runs out).
-/

namespace CoreX.Paging

abbrev Word := BitVec 64

def pageMask4k : Word := 0xFFF#64

def pfPresent : Word := 1#64
def pfRw : Word := 2#64
def pfUser : Word := 4#64
def pfPs : Word := 128#64

section
variable (shift : Nat) (v : Word)

def tableIndex : Fin 512 :=
  ⟨((v >>> shift) &&& 0x1FF#64).toNat, by
    rw [BitVec.toNat_and]
    exact Nat.lt_of_le_of_lt Nat.and_le_right (by decide)⟩

def pml4e : Fin 512 := tableIndex 39 v
def pdpte : Fin 512 := tableIndex 30 v
def pde : Fin 512 := tableIndex 21 v
def pte : Fin 512 := tableIndex 12 v

def pteGetAddr (x : Word) : Word := x &&& 0x000FFFFFFFFFF000#64

def amd64MmStripsx : Word := v &&& 0x0000FFFFFFFFFFFF#64

end

def entryPtr (table : Word) (i : Fin 512) : Word := table + BitVec.ofNat 64 (8 * i.val)

/-- Memory and the frames that `PhysicalAllocate` will hand out. -/
structure State where
  mem : Word → Word
  frames : List Word

def InPage (base a : Word) : Prop := (a - base).toNat < 4096

instance (base a : Word) : Decidable (InPage base a) := inferInstanceAs (Decidable (_ < _))

def zeroPage (mem : Word → Word) (base : Word) : Word → Word :=
  fun a => if InPage base a then 0#64 else mem a

section
variable (hhdmOffset : Word)

def pagingPhysAllocate (s : State) : Option (Word × State) :=
  match s.frames with
  | [] => none
  | phys :: rest => some (phys, ⟨zeroPage s.mem (phys + hhdmOffset), rest⟩)

def nextTable (s : State) (slot : Word) : Option (Word × State) :=
  if s.mem slot &&& pfPresent = 0#64 then
    match pagingPhysAllocate hhdmOffset s with
    | none => none
    | some (phys, s) =>
      let s := { s with mem := Function.update s.mem slot (phys ||| pfPresent ||| pfRw ||| pfUser) }
      some (pteGetAddr (s.mem slot) + hhdmOffset, s)
  else some (pteGetAddr (s.mem slot) + hhdmOffset, s)

def leafEntry (phys flags : Word) : Word :=
  if phys = 0#64 then 0#64 else (phys &&& 0x000FFFFFFFFFF000#64) ||| pfPresent ||| flags

/-- `VirtualMapL`; `none` when it panics on an unaligned address or runs out of frames. -/
def virtualMapL (s : State) (pagedir virt phys flags : Word) : Option State :=
  if virt &&& pageMask4k ≠ 0#64 then none
  else
    let v := amd64MmStripsx virt
    (nextTable hhdmOffset s (entryPtr pagedir (pml4e v))).bind fun (pdp, s) =>
    (nextTable hhdmOffset s (entryPtr pdp (pdpte v))).bind fun (pd, s) =>
    (nextTable hhdmOffset s (entryPtr pd (pde v))).bind fun (pt, s) =>
    some { s with mem := Function.update s.mem (entryPtr pt (pte v)) (leafEntry phys flags) }

def virtualToPhysicalL (mem : Word → Word) (pagedir virt : Word) : Word :=
  if pagedir = 0#64 then 0#64
  else
    let v := amd64MmStripsx (virt &&& ~~~pageMask4k)
    let pml4 := mem (entryPtr pagedir (pml4e v))
    if pml4 &&& pfPresent = 0#64 then 0#64
    else
      let pdp := mem (entryPtr (pteGetAddr pml4 + hhdmOffset) (pdpte v))
      if pdp &&& pfPresent = 0#64 then 0#64
      else
        let pd := mem (entryPtr (pteGetAddr pdp + hhdmOffset) (pde v))
        if pd &&& pfPresent = 0#64 then 0#64
        else
          let pt := mem (entryPtr (pteGetAddr pd + hhdmOffset) (pte v))
          if pt &&& pfPresent = 0#64 then 0#64
          else pteGetAddr pt ||| (virt &&& pageMask4k)

end

/-! ## The table as a radix tree -/

def nextOf (hhdmOffset e : Word) : Option Word :=
  if e &&& pfPresent = 0#64 then none else some (pteGetAddr e + hhdmOffset)

/-- The path of an address, the index into the last table first. -/
def path (v : Word) : List (Fin 512) := [pte v, pde v, pdpte v, pml4e v]

/-- The page-table entry of an address after sign stripping, zero if one of its tables is missing. -/
def entryOf (hhdmOffset : Word) (mem : Word → Word) (pagedir : Word) : List (Fin 512) → Word :=
  Radix.entry entryPtr (nextOf hhdmOffset) 0#64 mem pagedir

/-- A four-level table: a non-null directory below which no two entries share memory, and whose present
entries on the two levels that could map large pages have the page-size bit clear. -/
structure IsTable (hhdmOffset : Word) (mem : Word → Word) (pagedir : Word) : Prop where
  ne_null : pagedir ≠ 0#64
  tree : Radix.IsTree entryPtr (nextOf hhdmOffset) 3 mem pagedir
  no_large : ∀ p : List (Fin 512), p.length = 2 ∨ p.length = 3 →
    entryOf hhdmOffset mem pagedir p &&& pfPresent ≠ 0#64 →
    entryOf hhdmOffset mem pagedir p &&& pfPs = 0#64

/-- What `PhysicalAllocate` is relied on for: the frames it hands out are page-aligned, non-zero and below
`2 ^ 52`, no frame comes twice, and no entry of a table reachable from the directory lies in one. -/
structure FreshFrames (hhdmOffset : Word) (s : State) (pagedir : Word) : Prop where
  frame : ∀ f ∈ s.frames, f.toNat % 4096 = 0 ∧ f ≠ 0#64 ∧ f.toNat < 2 ^ 52
  nodup : s.frames.Nodup
  unreachable : ∀ f ∈ s.frames, ∀ (p : List (Fin 512)) (t : Word) (i : Fin 512), p.length ≤ 3 →
    Radix.table entryPtr (nextOf hhdmOffset) s.mem pagedir p = some t →
    ¬ InPage (f + hhdmOffset) (entryPtr t i)

end CoreX.Paging
