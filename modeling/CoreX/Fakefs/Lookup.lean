import Mathlib.Data.List.Pairwise
import CoreX.Fakefs.Model

/-!
# Looking files up

The calls so far are a list with the latest first, as a directory is. The words of every file stay as the call for it
left them (`addFiles_kept`), so a directory goes on where the second word of its latest file happens to point.
-/

namespace CoreX.Fakefs

open Memory List

def addFiles (m : Mem) (fakefs : Nat) : List AddFile → Mem
  | [] => m
  | add :: adds => fakefsAddFile (addFiles m fakefs adds) fakefs add

abbrev Area := Nat × Nat

/-- The address is in the area. -/
def Area.Mem (a : Area) (i : Nat) : Prop := a.1 ≤ i ∧ i < a.1 + a.2

def Area.Apart (a b : Area) : Prop := a.1 + a.2 ≤ b.1 ∨ b.1 + b.2 ≤ a.1

instance (a b : Area) : Decidable (a.Apart b) :=
  inferInstanceAs (Decidable (_ ∨ _))

def areas (fakefs dir : Nat) (adds : List AddFile) : List Area :=
  adds.map (fun add => (add.block, fileSize)) ++ [(dir, fileSize), (fakefs, fakefsSize)]

/-- The directory and the files in it, in the files in it, and so on. -/
def objects (dir : Nat) (adds : List AddFile) : List Nat := adds.map AddFile.block ++ [dir]

def Rooted (dir : Nat) : List AddFile → Prop
  | [] => True
  | add :: adds => add.under ∈ objects dir adds ∧ Rooted dir adds

/-- `malloc` returns memory that nobody uses, pointers are words, and the names lie elsewhere. -/
structure Layout (fakefs dir : Nat) (adds : List AddFile) : Prop where
  apart : (areas fakefs dir adds).Pairwise Area.Apart
  rooted : Rooted dir adds
  block_pos : ∀ add ∈ adds, 0 < add.block
  words : ∀ add ∈ adds, add.block < 2 ^ 64 ∧ add.filename < 2 ^ 64 ∧ add.filenameLen < 2 ^ 64
  names : ∀ add ∈ adds, ∀ area ∈ areas fakefs dir adds, ∀ i,
    add.filename ≤ i → i < add.filename + add.filenameLen → ¬ area.Mem i

section Layout
variable {fakefs dir : Nat} {add : AddFile} {adds : List AddFile}

theorem Layout.tail (h : Layout fakefs dir (add :: adds)) : Layout fakefs dir adds where
  apart := (pairwise_cons.1 h.apart).2
  rooted := h.rooted.2
  block_pos := fun a ha => h.block_pos a (mem_cons_of_mem add ha)
  words := fun a ha => h.words a (mem_cons_of_mem add ha)
  names := fun a ha area harea => h.names a (mem_cons_of_mem add ha) area (mem_cons_of_mem _ harea)

theorem mem_areas_of_mem_objects {d : Nat} (hd : d ∈ objects dir adds) : (d, fileSize) ∈ areas fakefs dir adds := by
  obtain hd | hd := mem_append.1 hd
  · obtain ⟨a, ha, rfl⟩ := mem_map.1 hd
    exact mem_append_left _ (mem_map.2 ⟨a, ha, rfl⟩)
  · rw [mem_singleton.1 hd]
    exact mem_append_right _ mem_cons_self

theorem mem_areas_fakefs : (fakefs, fakefsSize) ∈ areas fakefs dir adds :=
  mem_append_right _ (mem_cons_of_mem _ mem_cons_self)

theorem Layout.apart_of_ne (h : Layout fakefs dir adds) {a b : Area} (ha : a ∈ areas fakefs dir adds)
    (hb : b ∈ areas fakefs dir adds) (hne : a ≠ b) : a.Apart b := by
  have : Std.Symm Area.Apart := ⟨fun _ _ hab => Or.symm hab⟩
  exact h.apart.forall ha hb hne

section
variable {d : Nat} (h : Layout fakefs dir adds) (hd : d ∈ objects dir adds)
include h hd

theorem Layout.objects_apart {d' : Nat} (hd' : d' ∈ objects dir adds) (hne : d ≠ d') : d + 88 ≤ d' ∨ d' + 88 ≤ d :=
  h.apart_of_ne (mem_areas_of_mem_objects hd) (mem_areas_of_mem_objects hd')
    fun heq => hne (congrArg Prod.fst heq)

theorem Layout.fakefs_apart : fakefs + 16 ≤ d ∨ d + 88 ≤ fakefs :=
  h.apart_of_ne mem_areas_fakefs (mem_areas_of_mem_objects hd)
    fun heq => absurd (congrArg Prod.snd heq) (show fakefsSize ≠ fileSize by decide)

end

theorem Layout.block_ne (h : Layout fakefs dir (add :: adds)) {d : Nat} (hd : d ∈ objects dir adds) :
    add.block ≠ d := by
  intro heq
  have hApart := (pairwise_cons.1 h.apart).1 _ (mem_areas_of_mem_objects hd)
  simp only [Area.Apart, fileSize] at hApart
  omega

theorem Layout.placed (h : Layout fakefs dir (add :: adds)) : Placed fakefs add := by
  have hBlock : add.block ∈ objects dir (add :: adds) := mem_cons_self
  have hUnder : add.under ∈ objects dir (add :: adds) := mem_cons_of_mem _ h.rooted.1
  obtain ⟨hLt, hName, hLength⟩ := h.words add mem_cons_self
  have hUnderBlock := h.objects_apart hUnder hBlock (h.block_ne h.rooted.1).symm
  have hFakefsUnder := h.fakefs_apart hUnder
  refine ⟨h.fakefs_apart hBlock, ?_, ?_, h.block_pos add mem_cons_self, hLt, hName, hLength⟩
  · rw [fileSize]
    omega
  · rw [fakefsSize]
    omega

end Layout

/-! ## What stays -/

section Kept
variable {fakefs dir : Nat} {adds : List AddFile} (m : Mem) {add : AddFile}

theorem addFiles_of_notMem (h : Layout fakefs dir adds) {i : Nat}
    (hi : ∀ area ∈ areas fakefs dir adds, ¬ area.Mem i) : addFiles m fakefs adds i = m i := by
  induction adds with
  | nil => rfl
  | cons add adds ih =>
    have hBlock := hi (add.block, fileSize) mem_cons_self
    have hUnder := hi (add.under, fileSize) (mem_cons_of_mem _ (mem_areas_of_mem_objects h.rooted.1))
    have hFakefs := hi (fakefs, fakefsSize) mem_areas_fakefs
    have hNot : ¬ Touches fakefs add i := by
      simp only [Touches, Area.Mem, fileSize] at *
      omega
    rw [addFiles, fakefsAddFile_of_not_touches _ hNot]
    exact ih h.tail fun area harea => hi area (mem_cons_of_mem _ harea)

def children (d : Nat) (adds : List AddFile) : List AddFile := adds.filter fun add => add.under = d

def firstBlock : List AddFile → Nat
  | [] => 0
  | add :: _ => add.block

/-- Every object begins with its latest child, and the words of every file are those of its call. -/
structure Kept (m : Mem) (dir : Nat) (adds : List AddFile) : Prop where
  first : ∀ d ∈ objects dir adds, read64 m d = firstBlock (children d adds)
  second : ∀ add ∈ adds, read64 m (add.block + llNext) = read64 add.garbage llNext
  filename : ∀ add ∈ adds, read64 m (add.block + filename) = add.filename
  filenameLength : ∀ add ∈ adds, read64 m (add.block + filenameLength) = add.filenameLen

theorem read64_fakefsAddFile {b : AddFile} (h : Layout fakefs dir (add :: adds)) (hb : b ∈ adds) {off : Nat}
    (hoff : 8 ≤ off ∧ off + 8 ≤ 88) :
    read64 (fakefsAddFile m fakefs add) (b.block + off) = read64 m (b.block + off) := by
  have hbObject : b.block ∈ objects dir adds := mem_append_left _ (mem_map.2 ⟨b, hb, rfl⟩)
  have hBlock := h.objects_apart mem_cons_self (mem_cons_of_mem _ hbObject) (h.block_ne hbObject)
  have hFakefs := h.tail.fakefs_apart hbObject
  have hUnder : add.under = b.block ∨ add.under + 88 ≤ b.block ∨ b.block + 88 ≤ add.under := by
    by_cases heq : add.under = b.block
    · exact .inl heq
    · exact .inr (h.tail.objects_apart h.rooted.1 hbObject heq)
  apply read64_congr
  intro i hi hi'
  apply fakefsAddFile_of_not_touches
  simp only [Touches, fileSize, fakefsSize]
  omega

theorem children_new_block (h : Layout fakefs dir (add :: adds)) : children add.block (add :: adds) = [] := by
  have hNone : ∀ adds', Rooted dir adds' → (∀ d ∈ objects dir adds', add.block ≠ d) →
      children add.block adds' = [] := by
    intro adds' hRooted hne
    induction adds' with
    | nil => rfl
    | cons b adds' ih =>
      have hne' : ∀ d ∈ objects dir adds', add.block ≠ d := fun d hd => hne d (mem_cons_of_mem _ hd)
      have hUnder : ¬ b.under = add.block := fun heq => hne' b.under hRooted.1 heq.symm
      rw [children, filter_cons_of_neg (by simpa using hUnder)]
      exact ih hRooted.2 hne'
  have hUnder : ¬ add.under = add.block := fun heq => h.block_ne h.rooted.1 heq.symm
  rw [children, filter_cons_of_neg (by simpa using hUnder)]
  exact hNone adds h.rooted.2 fun d hd => h.block_ne hd

theorem Kept.cons (hKept : Kept m dir adds) (h : Layout fakefs dir (add :: adds)) :
    Kept (fakefsAddFile m fakefs add) dir (add :: adds) := by
  obtain ⟨hHead, hInner, hSecond, hFilename, hLength⟩ := fakefsAddFile_words m h.placed
  constructor
  · intro d hd
    obtain rfl | hd := mem_cons.1 hd
    · rw [children_new_block h]
      exact hInner
    by_cases hUnder : add.under = d
    · subst hUnder
      rw [hHead, children, filter_cons_of_pos (by simp)]
      rfl
    -- the first word of another directory
    have hBlock := h.objects_apart mem_cons_self (mem_cons_of_mem _ hd) (h.block_ne hd)
    have hOther := h.tail.objects_apart h.rooted.1 hd hUnder
    have hFakefs := h.tail.fakefs_apart hd
    rw [children, filter_cons_of_neg (by simpa using hUnder)]
    refine Eq.trans (read64_congr fun i hi hi' => fakefsAddFile_of_not_touches m ?_) (hKept.first d hd)
    simp only [Touches, fileSize, fakefsSize]
    omega
  · intro b hb
    obtain rfl | hb := mem_cons.1 hb
    · exact hSecond
    · exact (read64_fakefsAddFile m h hb (by decide)).trans (hKept.second b hb)
  · intro b hb
    obtain rfl | hb := mem_cons.1 hb
    · exact hFilename
    · exact (read64_fakefsAddFile m h hb (by decide)).trans (hKept.filename b hb)
  · intro b hb
    obtain rfl | hb := mem_cons.1 hb
    · exact hLength
    · exact (read64_fakefsAddFile m h hb (by decide)).trans (hKept.filenameLength b hb)

theorem addFiles_kept (hFresh : read64 m dir = 0) (h : Layout fakefs dir adds) :
    Kept (addFiles m fakefs adds) dir adds := by
  induction adds with
  | nil =>
    refine ⟨fun d hd => ?_, by simp, by simp, by simp⟩
    rw [mem_singleton.1 hd]
    exact hFresh
  | cons add adds ih => exact Kept.cons _ (ih h.tail) h

end Kept

/-! ## The lookup -/

def nameOf (m : Mem) (add : AddFile) : Bytes := slice m add.filename add.filenameLen

/-- The names are nonempty, distinct and no patterns. -/
structure GoodNames (m : Mem) (files : List AddFile) : Prop where
  nonempty : ∀ add ∈ files, 0 < add.filenameLen
  plain : ∀ add ∈ files, m add.filename ≠ 0x2A
  distinct : files.Pairwise fun a b => nameOf m a ≠ nameOf m b

/-- The second word of every file is the address of the file before, as `malloc` happened to leave it. -/
def Chained : List AddFile → Prop
  | [] => True
  | add :: files => read64 add.garbage llNext = firstBlock files ∧ Chained files

def lookup (m : Mem) (files : List AddFile) (name : Bytes) : Nat :=
  firstBlock (files.filter fun add => nameOf m add = name)

section Lookup
variable {m m' : Mem} {search searchLen : Nat} {files : List AddFile}

theorem filenameEq_iff {a alen b blen : Nat} :
    filenameEq m a alen b blen = true ↔ slice m a alen = slice m b blen := by
  rw [filenameEq]
  by_cases hLength : alen = blen
  · rw [if_neg (not_not.2 hLength), beq_iff_eq]
  · rw [if_pos hLength]
    refine ⟨fun h => absurd h (by decide), fun h => absurd ?_ hLength⟩
    simpa using congrArg length h

theorem fakefsTraverse_eq (hPos : ∀ add ∈ files, 0 < add.block)
    (hSecond : ∀ add ∈ files, read64 m' (add.block + llNext) = read64 add.garbage llNext)
    (hFilename : ∀ add ∈ files, read64 m' (add.block + filename) = add.filename)
    (hLength : ∀ add ∈ files, read64 m' (add.block + filenameLength) = add.filenameLen)
    (hPlain : ∀ add ∈ files, m' add.filename ≠ 0x2A) (hName : ∀ add ∈ files, nameOf m' add = nameOf m add)
    (hChained : Chained files) {fuel : Nat} (hFuel : files.length < fuel) :
    fakefsTraverse m' search searchLen fuel (firstBlock files) =
      some (lookup m files (slice m' search searchLen)) := by
  induction files generalizing fuel with
  | nil =>
    obtain ⟨fuel, rfl⟩ := Nat.exists_eq_add_of_lt hFuel
    rfl
  | cons add files ih =>
    obtain ⟨fuel, rfl⟩ : ∃ k, fuel = k + 1 := ⟨fuel - 1, by omega⟩
    obtain ⟨hPos, hPosRest⟩ := forall_mem_cons.1 hPos
    obtain ⟨hSecond, hSecondRest⟩ := forall_mem_cons.1 hSecond
    obtain ⟨hFilename, hFilenameRest⟩ := forall_mem_cons.1 hFilename
    obtain ⟨hLength, hLengthRest⟩ := forall_mem_cons.1 hLength
    obtain ⟨hPlain, hPlainRest⟩ := forall_mem_cons.1 hPlain
    obtain ⟨hName, hNameRest⟩ := forall_mem_cons.1 hName
    have hBlock : firstBlock (add :: files) = add.block := rfl
    rw [fakefsTraverse, hBlock, if_neg (by omega), hFilename, if_neg hPlain, hLength, lookup]
    by_cases hEq : nameOf m add = slice m' search searchLen
    · have hFound : filenameEq m' search searchLen add.filename add.filenameLen = true :=
        filenameEq_iff.2 (hName.trans hEq).symm
      rw [if_pos hFound, filter_cons_of_pos (by simpa using hEq)]
      rfl
    · have hNot : ¬ filenameEq m' search searchLen add.filename add.filenameLen = true :=
        fun h => hEq (hName.symm.trans (filenameEq_iff.1 h).symm)
      rw [if_neg hNot, filter_cons_of_neg (by simpa using hEq), hSecond, hChained.1]
      exact ih hPosRest hSecondRest hFilenameRest hLengthRest hPlainRest hNameRest hChained.2
        (by simpa using hFuel)

theorem lookup_of_mem (h : files.Pairwise fun a b => nameOf m a ≠ nameOf m b) {add : AddFile} (hMem : add ∈ files) :
    lookup m files (nameOf m add) = add.block := by
  induction files with
  | nil => cases hMem
  | cons b files ih =>
    obtain ⟨hHead, hTail⟩ := pairwise_cons.1 h
    rw [lookup]
    obtain rfl | hMem := mem_cons.1 hMem
    · rw [filter_cons_of_pos (by simp)]
      rfl
    · rw [filter_cons_of_neg (by simpa using hHead add hMem)]
      exact ih hTail hMem

theorem lookup_of_notMem {name : Bytes} (h : ∀ add ∈ files, nameOf m add ≠ name) : lookup m files name = 0 := by
  have hNil : (files.filter fun add => nameOf m add = name) = [] :=
    filter_eq_nil_iff.2 fun add hadd => by simpa using h add hadd
  rw [lookup, hNil]
  rfl

end Lookup

section Directories
variable {m : Mem} {fakefs dir d : Nat} {adds : List AddFile}

theorem fakefsTraverse_addFiles (hFresh : read64 m dir = 0) (h : Layout fakefs dir adds)
    (hd : d ∈ objects dir adds) (hNames : GoodNames m (children d adds)) (hChained : Chained (children d adds))
    (search searchLen : Nat) {fuel : Nat} (hFuel : (children d adds).length < fuel) :
    fakefsTraverse (addFiles m fakefs adds) search searchLen fuel (read64 (addFiles m fakefs adds) d) =
      some (lookup m (children d adds) (slice (addFiles m fakefs adds) search searchLen)) := by
  have hKept := addFiles_kept m hFresh h
  have hMem {add : AddFile} (hadd : add ∈ children d adds) : add ∈ adds := (mem_filter.1 hadd).1
  have hByte {add : AddFile} (hadd : add ∈ adds) (i : Nat) (hi : add.filename ≤ i)
      (hi' : i < add.filename + add.filenameLen) : addFiles m fakefs adds i = m i :=
    addFiles_of_notMem m h fun area harea => h.names add hadd area harea i hi hi'
  rw [hKept.first d hd]
  apply fakefsTraverse_eq
  · exact fun add hadd => h.block_pos add (hMem hadd)
  · exact fun add hadd => hKept.second add (hMem hadd)
  · exact fun add hadd => hKept.filename add (hMem hadd)
  · exact fun add hadd => hKept.filenameLength add (hMem hadd)
  · intro add hadd
    have hNonempty := hNames.nonempty add hadd
    rw [hByte (hMem hadd) _ le_rfl (by omega)]
    exact hNames.plain add hadd
  · exact fun add hadd => slice_congr (hByte (hMem hadd))
  · exact hChained
  · exact hFuel

/-- **The lookup in a directory**: if every second word is the address of the file before, every file is
found by its name, any other name gives null, and the loop ends; a call under another object changes
nothing. -/
theorem fakefsTraverse_finds (m : Mem) (fakefs dir d : Nat) (adds : List AddFile)
    (hFresh : read64 m dir = 0) (h : Layout fakefs dir adds) (hd : d ∈ objects dir adds)
    (hNames : GoodNames m (children d adds)) (hChained : Chained (children d adds)) :
    (∀ search searchLen fuel, (children d adds).length < fuel →
      (∀ add ∈ children d adds, slice (addFiles m fakefs adds) search searchLen = nameOf m add →
        fakefsTraverse (addFiles m fakefs adds) search searchLen fuel (read64 (addFiles m fakefs adds) d) =
          some add.block) ∧
      ((∀ add ∈ children d adds, slice (addFiles m fakefs adds) search searchLen ≠ nameOf m add) →
        fakefsTraverse (addFiles m fakefs adds) search searchLen fuel (read64 (addFiles m fakefs adds) d) = some 0)) ∧
    (∀ child, Layout fakefs dir (child :: adds) → child.under ≠ d →
      ∀ search search' searchLen searchLen' fuel, (children d adds).length < fuel →
        slice (addFiles m fakefs (child :: adds)) search' searchLen' =
          slice (addFiles m fakefs adds) search searchLen →
        fakefsTraverse (addFiles m fakefs (child :: adds)) search' searchLen' fuel
            (read64 (addFiles m fakefs (child :: adds)) d) =
          fakefsTraverse (addFiles m fakefs adds) search searchLen fuel (read64 (addFiles m fakefs adds) d)) := by
  constructor
  · intro search searchLen fuel hFuel
    rw [fakefsTraverse_addFiles hFresh h hd hNames hChained search searchLen hFuel]
    refine ⟨fun add hadd hName => ?_, fun hOther => ?_⟩
    · rw [hName, lookup_of_mem hNames.distinct hadd]
    · rw [lookup_of_notMem fun add hadd => (hOther add hadd).symm]
  · intro child hChild hUnder search search' searchLen searchLen' fuel hFuel hName
    have hSame : children d (child :: adds) = children d adds := by
      rw [children, filter_cons_of_neg (by simpa using hUnder)]
      rfl
    rw [fakefsTraverse_addFiles hFresh h hd hNames hChained search searchLen hFuel,
      fakefsTraverse_addFiles hFresh hChild (mem_cons_of_mem _ hd) (hSame.symm ▸ hNames) (hSame.symm ▸ hChained)
        search' searchLen' (hSame.symm ▸ hFuel), hSame, hName]

end Directories

/-! ## Two files -/

def threeNames : Mem := fun i => if i = 0x10 then 0x61 else if i = 0x20 then 0x62 else if i = 0x30 then 0x63 else 0

def plainFile (name block second : Nat) : AddFile where
  under := 0x200
  filename := name
  filenameLen := 1
  symlink := 0
  symlinkLen := 0
  filetype := 0x8000
  handlers := 0
  block := block
  garbage := write64 (fun _ => 0) llNext second

def twoFiles (second second' : Nat) : List AddFile := [plainFile 0x20 0x400 second', plainFile 0x10 0x300 second]

section TwoFiles
variable (second second' : Nat)

theorem twoFiles_layout : Layout 0x100 0x200 (twoFiles second second') where
  apart := show [(0x400, 88), (0x300, 88), (0x200, 88), (0x100, 16)].Pairwise Area.Apart by decide
  rooted := show 0x200 ∈ [0x300, 0x200] ∧ 0x200 ∈ [0x200] ∧ True by decide
  block_pos := by simp [twoFiles, plainFile]
  words := by simp [twoFiles, plainFile]
  names := by
    have hNames : ∀ add ∈ twoFiles second second', add.filename + add.filenameLen ≤ 0x100 := by
      simp [twoFiles, plainFile]
    have hAreas : ∀ area ∈ areas 0x100 0x200 (twoFiles second second'), 0x100 ≤ area.1 := by
      simp [areas, twoFiles, plainFile]
    intro add hadd area harea i hi hi' hMem
    have hName := hNames add hadd
    have hArea := hAreas area harea
    rw [Area.Mem] at hMem
    omega

theorem twoFiles_goodNames : GoodNames threeNames (children 0x200 (twoFiles second second')) where
  nonempty := by simp [twoFiles, children, plainFile]
  plain := by simp [twoFiles, children, plainFile, threeNames]
  distinct := show [plainFile 0x20 0x400 second', plainFile 0x10 0x300 second].Pairwise
      (fun a b => nameOf threeNames a ≠ nameOf threeNames b) from
    pairwise_pair.2 (show slice threeNames 0x20 1 ≠ slice threeNames 0x10 1 by decide)

end TwoFiles

/-- With the second words as they were meant, `a` is found behind `b`. -/
theorem fakefsTraverse_finds_twoFiles : fakefsTraverse (addFiles threeNames 0x100 (twoFiles 0 0x300)) 0x10 1 3
      (read64 (addFiles threeNames 0x100 (twoFiles 0 0x300)) 0x200) = some 0x300 :=
  ((fakefsTraverse_finds threeNames 0x100 0x200 0x200 (twoFiles 0 0x300) (by decide)
      (twoFiles_layout 0 0x300) (by decide) (twoFiles_goodNames 0 0x300)
      ⟨by decide +kernel, by decide +kernel, trivial⟩).1 0x10 1 3 (by decide)).1
    (plainFile 0x10 0x300 0) (by simp [twoFiles, children, plainFile]) (by decide +kernel)

/-- In fresh memory of zeros `a` is lost as soon as `b` is added. If the second word of `b` is the
address of `b`, the lookup of `c` does not end. -/
theorem fakefsTraverse_loses :
    Layout 0x100 0x200 (twoFiles 0 0) ∧ GoodNames threeNames (children 0x200 (twoFiles 0 0)) ∧
    fakefsTraverse (addFiles threeNames 0x100 (twoFiles 0 0)) 0x10 1 3
      (read64 (addFiles threeNames 0x100 (twoFiles 0 0)) 0x200) = some 0 ∧
    ∀ fuel, fakefsTraverse (addFiles threeNames 0x100 (twoFiles 0 0x400)) 0x30 1 fuel
      (read64 (addFiles threeNames 0x100 (twoFiles 0 0x400)) 0x200) = none := by
  refine ⟨twoFiles_layout 0 0, twoFiles_goodNames 0 0, by decide +kernel, fun fuel => ?_⟩
  have hFirst : read64 (addFiles threeNames 0x100 (twoFiles 0 0x400)) 0x200 = 0x400 := by decide +kernel
  have hTurn (fuel : Nat) : fakefsTraverse (addFiles threeNames 0x100 (twoFiles 0 0x400)) 0x30 1 (fuel + 1) 0x400 =
      fakefsTraverse (addFiles threeNames 0x100 (twoFiles 0 0x400)) 0x30 1 fuel 0x400 := by
    have hNext : read64 (addFiles threeNames 0x100 (twoFiles 0 0x400)) (0x400 + llNext) = 0x400 := by decide +kernel
    rw [fakefsTraverse, if_neg (by decide), if_neg (by decide +kernel), if_neg (by decide +kernel), hNext]
  rw [hFirst]
  induction fuel with
  | zero => rfl
  | succ fuel ih => rw [hTurn, ih]

end CoreX.Fakefs
