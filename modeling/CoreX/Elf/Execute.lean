import CoreX.Elf.Loaded
import CoreX.Base.Bytes

/-!
# Loading a program (`elf.rs`)

`elfExecute` loads the segments of a file, and for an interpreter opens the file it names and loads that one's
segments. Offsets, counts and sizes are used as the file has them. The image of a file is followed by whatever lies
behind it in memory. Opening a file is a parameter.
-/

namespace CoreX.Elf

open CoreX.PageMap CoreX.Memory List Option

structure Ehdr where
  (eType eMachine eEntry ePhoff ePhentsize ePhnum : Nat)
  deriving DecidableEq

def ehdrSize : Nat := 64

def phdrSize : Nat := 56

def ptLoad : Nat := 1

def ptInterp : Nat := 3

def etDyn : Nat := 3

def interpBase : Nat := 0x100000000000

def readEhdr (image : Image) : Ehdr where
  eType := load image.bytes 16 2
  eMachine := load image.bytes 18 2
  eEntry := load image.bytes 24 8
  ePhoff := load image.bytes 32 8
  ePhentsize := load image.bytes 54 2
  ePhnum := load image.bytes 56 2

def readPhdr (image : Image) (off : Nat) : Phdr where
  pType := load image.bytes off 4
  pOffset := load image.bytes (off + 8) 8
  pVaddr := load image.bytes (off + 16) 8
  pFilesz := load image.bytes (off + 32) 8
  pMemsz := load image.bytes (off + 40) 8

def elfCheckFile (image : Image) : Bool :=
  slice image.bytes 0 5 = [0x7F, 0x45, 0x4C, 0x46, 2] && (readEhdr image).eMachine = 62

def phdrOffset (ehdr : Ehdr) (i : Nat) : Nat := Word.add ehdr.ePhoff (i * ehdr.ePhentsize)

def phdrAt (image : Image) (i : Nat) : Phdr := readPhdr image (phdrOffset (readEhdr image) i)

def nonzeroRun (bytes : Buf) (off : Nat) : Nat → Nat
  | 0 => 0
  | n + 1 => if bytes off = 0 then 0 else nonzeroRun bytes (off + 1) n + 1

def pathLength (image : Image) (off : Nat) : Nat := nonzeroRun image.bytes off image.size

structure ExecState where
  machine : Machine
  (interpEntry execBase : Nat)

/-- A page fault, a file that is refused, or a call of `panic`. -/
inductive Stop where
  | fault
  | refused (m : Machine)
  | panic (m : Machine)

def orFault {α : Type} : Option α → Except Stop α
  | none => .error .fault
  | some a => .ok a

/-- At the end, unless there was a fault. -/
def lastMachine : Except Stop ExecState → Option Machine
  | .error .fault => none
  | .error (.refused m) => some m
  | .error (.panic m) => some m
  | .ok st => some st.machine

def interpHeaders (buf : Image) : List Nat → Machine → Option Machine
  | [], m => some m
  | j :: js, m =>
    let m := noteRead m buf (phdrOffset (readEhdr buf) j) phdrSize
    let iph := phdrAt buf j
    if iph.pType = ptLoad then (elfProcessLoad m iph buf interpBase).bind (interpHeaders buf js)
    else interpHeaders buf js m

section
variable (open? : Bytes → Option Image) (image : Image)

def loadInterp (phdr : Phdr) (st : ExecState) : Except Stop ExecState :=
  let len := pathLength image phdr.pOffset
  let m := noteRead st.machine image phdr.pOffset (len + 1)
  match open? (slice image.bytes phdr.pOffset len) with
  | none => .error (.panic m)
  | some buf =>
    let ihdr := readEhdr buf
    (orFault (interpHeaders buf (List.range ihdr.ePhnum) (noteRead m buf 0 ehdrSize))).map fun m =>
      { st with machine := m, interpEntry := ihdr.eEntry }

def execHeaders : List Nat → ExecState → Except Stop ExecState
  | [], st => .ok st
  | i :: is, st =>
    let ehdr := readEhdr image
    let st := { st with machine := noteRead st.machine image (phdrOffset ehdr i) phdrSize }
    let phdr := phdrAt image i
    if phdr.pType = ptInterp then (loadInterp open? image phdr st).bind (execHeaders is)
    else if phdr.pType ≠ ptLoad then execHeaders is st
    else
      let execBase := if ehdr.eType = etDyn then 0x50000000000 else st.execBase
      (orFault (elfProcessLoad st.machine phdr image execBase)).bind fun m =>
        execHeaders is { st with machine := m, execBase := execBase }

/-- `elfExecute`, from the image of the file to the end of the loading. -/
def elfExecute (m : Machine) : Except Stop ExecState :=
  let m := noteRead m image 0 ehdrSize
  if ! elfCheckFile image then .error (.refused m)
  else execHeaders open? image (List.range (readEhdr image).ePhnum) ⟨m, 0, 0⟩

/-! ## What the headers ask for -/

def execBase : Nat :=
  if (readEhdr image).eType = etDyn then 0x50000000000 else 0

def interpEvents (buf : Image) (j : Nat) : List Event :=
  .read buf.size ⟨phdrOffset (readEhdr buf) j, phdrSize⟩ ::
    if (phdrAt buf j).pType = ptLoad then [.load ⟨phdrAt buf j, buf, interpBase⟩] else []

def fileEvents (buf : Image) : List Event :=
  .read buf.size ⟨0, ehdrSize⟩ :: (List.range (readEhdr buf).ePhnum).flatMap (interpEvents buf)

def interpFile (phdr : Phdr) : Option Image :=
  open? (slice image.bytes phdr.pOffset (pathLength image phdr.pOffset))

/-- They end at an interpreter that is missing. -/
def headerEvents : List Nat → List Event
  | [] => []
  | i :: is =>
    let phdr := phdrAt image i
    .read image.size ⟨phdrOffset (readEhdr image) i, phdrSize⟩ ::
      if phdr.pType = ptInterp then
        .read image.size ⟨phdr.pOffset, pathLength image phdr.pOffset + 1⟩ ::
          match interpFile open? image phdr with
          | none => []
          | some buf => fileEvents buf ++ headerEvents is
      else if phdr.pType = ptLoad then .load ⟨phdr, image, execBase image⟩ :: headerEvents is
      else headerEvents is

def elfEvents : List Event :=
  .read image.size ⟨0, ehdrSize⟩ :: headerEvents open? image (List.range (readEhdr image).ePhnum)

def elfLoads : List Load := loadsOf (elfEvents open? image)

end

theorem interpHeaders_eq (buf : Image) (js : List Nat) (m : Machine) :
    interpHeaders buf js m = runEvents m (js.flatMap (interpEvents buf)) := by
  induction js generalizing m with
  | nil => rfl
  | cons j js ih =>
    rw [interpHeaders, flatMap_cons, interpEvents]
    by_cases hType : (phdrAt buf j).pType = ptLoad
    · rw [if_pos hType, if_pos hType, funext ih]
      rfl
    · rw [if_neg hType, if_neg hType, ih]
      rfl

theorem runEvents_append (m : Machine) (es es' : List Event) :
    runEvents m (es ++ es') = (runEvents m es).bind fun m => runEvents m es' := by
  induction es generalizing m with
  | nil => rfl
  | cons e es ih =>
    cases e with
    | read size r => exact ih _
    | load l =>
      rw [cons_append, runEvents, runEvents, Option.bind_assoc]
      exact congrArg _ (funext ih)

/-- What is left to do after the events: to panic, or to return with these bases. -/
def EndsIn (f : Machine → Except Stop ExecState) : Prop :=
  (f = fun m => .error (.panic m)) ∨ ∃ entry base, f = fun m => .ok ⟨m, entry, base⟩

section
variable {image : Image} (open? : Bytes → Option Image)

/-- The loop over the program headers runs their events, and ends in the same way from every machine. Before a segment
is loaded `exec_base` is zero or has its value already. -/
theorem execHeaders_eq (is : List Nat) : ∀ entry base, base = 0 ∨ base = execBase image →
    ∃ f, EndsIn f ∧ ∀ m, execHeaders open? image is ⟨m, entry, base⟩ =
      (orFault (runEvents m (headerEvents open? image is))).bind f := by
  induction is with
  | nil => exact fun entry base _ => ⟨fun m => .ok ⟨m, entry, base⟩, Or.inr ⟨entry, base, rfl⟩, fun m => rfl⟩
  | cons i is ih =>
    intro entry base hBase
    by_cases hInterp : (phdrAt image i).pType = ptInterp
    · cases hOpen : interpFile open? image (phdrAt image i) with
      | none =>
        refine ⟨_, Or.inl rfl, fun m => ?_⟩
        rw [execHeaders, headerEvents, if_pos hInterp, if_pos hInterp, loadInterp, hOpen]
        rw [interpFile] at hOpen
        rw [hOpen]
        rfl
      | some buf =>
        obtain ⟨f, hf, hRest⟩ := ih (readEhdr buf).eEntry base hBase
        refine ⟨f, hf, fun m => ?_⟩
        rw [execHeaders, headerEvents, if_pos hInterp, if_pos hInterp, loadInterp, hOpen]
        rw [interpFile] at hOpen
        rw [hOpen]
        simp only [interpHeaders_eq]
        change _ = (orFault (runEvents (noteRead (noteRead (noteRead m image _ _) image _ _) buf _ _) (_ ++ _))).bind f
        rw [runEvents_append]
        generalize runEvents (noteRead _ buf _ _) _ = o
        cases o with
        | none => rfl
        | some m' => exact hRest m'
    by_cases hLoad : (phdrAt image i).pType = ptLoad
    · have hStep : (if (readEhdr image).eType = etDyn then 0x50000000000 else base) = execBase image := by
        rw [execBase] at hBase ⊢
        split_ifs at hBase ⊢ with hType
        · rfl
        · exact hBase.elim id id
      obtain ⟨f, hf, hRest⟩ := ih entry (execBase image) (Or.inr rfl)
      refine ⟨f, hf, fun m => ?_⟩
      rw [execHeaders, headerEvents, if_neg hInterp, if_neg hInterp, if_neg (not_not.2 hLoad), if_pos hLoad]
      simp only [hStep]
      change _ = (orFault ((elfProcessLoad (noteRead m image _ _) _ _ _).bind _)).bind f
      generalize elfProcessLoad (noteRead m image _ _) _ _ _ = o
      cases o with
      | none => rfl
      | some m' => exact hRest m'
    · obtain ⟨f, hf, hRest⟩ := ih entry base hBase
      refine ⟨f, hf, fun m => ?_⟩
      rw [execHeaders, headerEvents, if_neg hInterp, if_neg hInterp, if_pos hLoad, if_neg hLoad]
      exact hRest _

theorem elfExecute_eq (hCheck : elfCheckFile image = true) :
    ∃ f, EndsIn f ∧ ∀ m, elfExecute open? image m = (orFault (runEvents m (elfEvents open? image))).bind f := by
  obtain ⟨f, hf, hRun⟩ := execHeaders_eq open? (range (readEhdr image).ePhnum) 0 0 (Or.inl rfl)
  refine ⟨f, hf, fun m => ?_⟩
  rw [elfExecute, if_neg (by simp [hCheck]), hRun]
  rfl

theorem lastMachine_elfExecute (hCheck : elfCheckFile image = true) (m : Machine) :
    lastMachine (elfExecute open? image m) = runEvents m (elfEvents open? image) := by
  obtain ⟨f, hf, hRun⟩ := elfExecute_eq open? hCheck
  rw [hRun]
  cases runEvents m (elfEvents open? image) with
  | none => rfl
  | some m' => obtain rfl | ⟨entry, base, rfl⟩ := hf <;> rfl

variable {open?}

theorem base_of_mem_fileEvents {buf : Image} {l : Load} (hl : l ∈ loadsOf (fileEvents buf)) : l.base = interpBase := by
  obtain ⟨e, he, hl⟩ := mem_filterMap.1 hl
  rw [fileEvents, mem_cons, mem_flatMap] at he
  obtain rfl | ⟨j, -, he⟩ := he
  · cases hl
  rw [interpEvents, mem_cons] at he
  obtain rfl | he := he
  · cases hl
  split_ifs at he
  · rw [mem_singleton.1 he] at hl
    rw [← Option.some.inj hl]
  · cases he

theorem base_of_mem_headerEvents {is : List Nat} {l : Load} (hl : l ∈ loadsOf (headerEvents open? image is)) :
    l.base = execBase image ∨ l.base = interpBase := by
  induction is with
  | nil => cases hl
  | cons i is ih =>
    simp only [headerEvents, loadsOf, filterMap_cons, Event.load?] at hl
    split_ifs at hl
    · simp only [filterMap_cons, Event.load?] at hl
      cases hOpen : interpFile open? image (phdrAt image i) with
      | none => simp [hOpen] at hl
      | some buf =>
        simp only [hOpen, filterMap_append, mem_append] at hl
        exact hl.elim (fun hBuf => Or.inr (base_of_mem_fileEvents hBuf)) ih
    · rw [filterMap_cons, Event.load?, mem_cons] at hl
      exact hl.elim (fun hl => Or.inl (by rw [hl])) ih
    · exact ih hl

theorem elfLoads_aligned {l : Load} (hl : l ∈ elfLoads open? image) : l.base % 4096 = 0 := by
  rcases base_of_mem_headerEvents hl with hBase | hBase <;> rw [hBase]
  · rw [execBase]
    split_ifs <;> decide
  · decide

/-- A file that is loaded is loaded on every machine with the same pages, with the same bases. -/
theorem elfExecute_loaded {m m₂ : Machine} {st : ExecState} (hm : Ready m) (h : elfExecute open? image m = .ok st)
    (hm₂ : Ready m₂) (hFrame : m₂.space.frameOf = m.space.frameOf) :
    ∃ m', elfExecute open? image m₂ = .ok ⟨m', st.interpEntry, st.execBase⟩ ∧
      Loaded m₂ m' (fun p => ∃ l ∈ elfLoads open? image, l.Asks p) (elfLoads open? image) := by
  have hCheck : elfCheckFile image = true := by
    by_contra hNot
    rw [elfExecute, if_pos (by simp [hNot])] at h
    cases h
  obtain ⟨f, hf, hEq⟩ := elfExecute_eq open? hCheck
  rw [hEq] at h
  cases hRun : runEvents m (elfEvents open? image) with
  | none =>
    rw [hRun] at h
    cases h
  | some m₁ =>
    rw [hRun] at h
    obtain rfl | ⟨entry, base, rfl⟩ := hf <;> cases h
    have hPages := ((loaded_refl hm).runEvents_iff hm _).1 ⟨m₁, hRun⟩
    rw [← hFrame] at hPages
    obtain ⟨m', hRun'⟩ := ((loaded_refl hm₂).runEvents_iff hm₂ _).2 hPages
    refine ⟨m', ?_, ((loaded_refl hm₂).runEvents hm₂ hRun').1.congr fun p => iff_of_eq (false_or _)⟩
    rw [hEq, hRun']
    rfl

end

/-! ## Safety -/

/-- Reads inside the files, and writes in pages of the user half that were mapped on the way. -/
def SafeLog (m : Machine) : Prop :=
  (∀ r ∈ m.reads, ∀ x, r.2.Has x → x < r.1) ∧ ∀ w ∈ m.writes, ∀ x, w.Has x → x < 2 ^ 47 ∧ x / 4096 ∈ m.mapped

theorem Load.covers_iff_written (l : Load) (x : Nat) : l.Covers x ↔ ∃ w ∈ l.written, w.Has x := by
  rw [written, exists_mem_cons_iff, Covers]
  refine or_congr_right ?_
  split_ifs with hMore
  · simp
  · simp [rest_empty hMore]

section
variable {image : Image} (hNum : (readEhdr image).ePhnum = 1) (hType : (phdrAt image 0).pType = ptLoad)
  {open? : Bytes → Option Image}
include hNum hType

theorem elfEvents_single : elfEvents open? image = [.read image.size ⟨0, ehdrSize⟩,
    .read image.size ⟨phdrOffset (readEhdr image) 0, phdrSize⟩, .load ⟨phdrAt image 0, image, execBase image⟩] := by
  have hNot : (phdrAt image 0).pType ≠ ptInterp := by
    rw [hType]
    decide
  rw [elfEvents, hNum, range_one, headerEvents, if_neg hNot, if_pos hType, headerEvents]

theorem elfLoads_single : elfLoads open? image = [⟨phdrAt image 0, image, execBase image⟩] := by
  rw [elfLoads, elfEvents_single hNum hType]
  rfl

theorem elfExecute_single (hCheck : elfCheckFile image = true)
    (hFits : Load.Fits ⟨phdrAt image 0, image, execBase image⟩) {m : Machine} (hm : Ready m) :
    ∃ st, elfExecute open? image m = .ok st := by
  obtain ⟨m', hRun⟩ := ((((loaded_refl hm).read _).read _).run_iff hm).2
    ⟨Or.inl hFits.base, fun x hx => Or.inr (Load.asks_of_covers hFits hx)⟩
  refine ⟨⟨m', 0, execBase image⟩, ?_⟩
  rw [elfExecute, if_neg (by simp [hCheck]), hNum, range_one, execHeaders, if_neg (by rw [hType]; decide),
    if_neg (not_not.2 hType)]
  exact congrArg (fun o => (orFault o).bind _) hRun

end

def leBytes : Nat → Nat → Bytes
  | 0, _ => []
  | w + 1, v => UInt8.ofNat (v % 256) :: leBytes w (v / 256)

def sampleEhdr (phoff n : Nat) : Bytes :=
  [0x7F, 0x45, 0x4C, 0x46, 2] ++ List.replicate 11 0 ++ leBytes 2 2 ++ leBytes 2 62 ++ leBytes 4 1 ++
    leBytes 8 0x400000 ++ leBytes 8 phoff ++ leBytes 8 0 ++ leBytes 4 0 ++ leBytes 2 64 ++
    leBytes 2 56 ++ leBytes 2 n ++ leBytes 6 0

def samplePhdr (vaddr : Nat) : Bytes :=
  leBytes 4 1 ++ leBytes 4 6 ++ leBytes 8 0 ++ leBytes 8 vaddr ++ leBytes 8 0 ++ leBytes 8 8 ++
    leBytes 8 16 ++ leBytes 8 4096

def imageOf (bytes : Bytes) : Image := ⟨fun i => bytes.getD i 0, bytes.length⟩

def kernelMachine : Machine where
  space := ⟨fun _ => 0xAA, fun p => if p = 0xFFFF800000000 then 1 else 0⟩
  frames := fun j => j + 2
  taken := 0
  mapped := []
  reads := []
  writes := []

theorem kernelMachine_ready : Ready kernelMachine where
  separate p q hp hpq := by
    have hOnly : ∀ r, kernelMachine.space.frameOf r ≠ 0 → r = 0xFFFF800000000 := by
      intro r hr
      by_contra h
      exact hr (if_neg h)
    rw [hOnly p hp, hOnly q (hpq ▸ hp)]
  frame_ne_zero j _ := by simp [kernelMachine]
  frame_inj j k _ _ h := by simpa [kernelMachine] using h
  unused j _ p := by
    simp only [kernelMachine]
    split <;> omega
  mapped := rfl

def goodImage : Image := imageOf (sampleEhdr 64 1 ++ samplePhdr 0x400000)

end CoreX.Elf
